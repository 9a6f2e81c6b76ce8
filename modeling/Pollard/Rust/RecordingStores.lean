import Pollard.Rust.SharedRuns

/-!
# Recordings with revisions in Rust

What a runtime reads of a recording and writes to it, and the revisions that tell whether it has
changed.  A walk over a subtree is also held as a derivation, from which the one after a write of
a node is built.
-/

namespace Pollard.Rust

open Lib Fallible

/-! ## Reads -/

/-- `walk` on what is read of nodes and of their children, from these ids on. -/
def walkFrom (get : String → Except Error Node) (children : String → List String) :
    ℕ → List String → List String → Except Error (List Node)
  | _, [], _ => .ok []
  | 0, id :: _, _ => .error (.notFound id)
  | fuel + 1, id :: pending, seen => do
      ensure (id ∉ seen) (.integrity "cycle or duplicate in store traversal")
      let node ← get id
      let rest ← walkFrom get children fuel (children id ++ pending) (id :: seen)
      return node :: rest

/-- The number of parents above a node. -/
def depthFrom (get : String → Except Error Node) : ℕ → String → List String → Except Error ℕ
  | 0, id, _ => .error (.notFound id)
  | fuel + 1, id, seen => do
      ensure (id ∉ seen) (.integrity "cycle in ancestry")
      let node ← get id
      match node.parent with
      | none => return 0
      | some parent => return (← depthFrom get fuel parent (id :: seen)) + 1

/-- What a store answers to reads. -/
structure StoreReads (State : Type) where
  get : State → String → Except Error Node
  stored : State → String → Bool
  children : State → String → List String

namespace StoreReads

variable {State : Type} (S : StoreReads State)

/-- `walk`, in at most this many rounds. -/
def walk (fuel : ℕ) (s : State) (root : String) : Except Error (List Node) :=
  walkFrom (S.get s) (S.children s) fuel [root] []

/-- Nodes and children are read alike. -/
structure Same (s t : State) : Prop where
  get : S.get t = S.get s
  children : S.children t = S.children s

/-- The nodes but the one of an id are read as before. -/
def Keeps (id : String) (s t : State) : Prop :=
  ∀ other node, other ≠ id → S.get s other = .ok node → S.get t other = .ok node

/-- A node that is there is read with other metadata or another result. -/
structure Changed (id : String) (s t : State) (old new : Node) : Prop where
  before : S.get s id = .ok old
  after : S.get t id = .ok new
  parent : new.parent = old.parent
  keeps : S.Keeps id s t
  children : S.children t = S.children s

/-- A node that was not there is read as the child of its parent. -/
structure Inserted (id : String) (s t : State) (node : Node) : Prop where
  absent : S.stored s id = false
  read : S.get t id = .ok node
  keeps : S.Keeps id s t
  parent : node.parent ≠ some id
  children : ∀ other, node.parent ≠ some other → S.children t other = S.children s other
  placed : ∀ parent, node.parent = some parent → ∃ before after,
    S.children s parent = before ++ after ∧ S.children t parent = before ++ id :: after

/-- What a write of one node does to the reads. -/
inductive Wrote (id : String) (s t : State) : Prop where
  | same (h : S.Same s t)
  | changed (old new : Node) (h : S.Changed id s t old new)
  | inserted (node : Node) (h : S.Inserted id s t node)

variable {S} in
theorem Wrote.keeps {id : String} {s t : State} (h : S.Wrote id s t) : S.Keeps id s t := by
  cases h with
  | same h =>
      intro other node _ hget
      rw [h.get, hget]
  | changed old new h => exact h.keeps
  | inserted node h => exact h.keeps

/-- Only nodes that are there have children. -/
def Rooted (s : State) : Prop := ∀ id, S.children s id ≠ [] → S.stored s id = true

/-- What rows of nodes with the ids of their parents are. -/
structure Rows : Prop where
  keyed : ∀ {s id node}, S.get s id = .ok node → node.id = id
  stored : ∀ {s id node}, S.get s id = .ok node → S.stored s id = true
  listed : ∀ {s id child node}, child ∈ S.children s id → S.get s child = .ok node →
    node.parent = some id
  found : ∀ {s id parent node}, S.get s id = .ok node → node.parent = some parent →
    id ∈ S.children s parent

/-! ## Walks -/

/-- The nodes that a walk visits from these ids on, of which it has seen some. -/
inductive Walks (s : State) : List String → List String → List Node → Prop
  | done (seen : List String) : Walks s [] seen []
  | visit {id : String} {pending seen : List String} {node : Node} {rest : List Node}
      (hfresh : id ∉ seen) (hget : S.get s id = .ok node)
      (hrest : Walks s (S.children s id ++ pending) (id :: seen) rest) :
      Walks s (id :: pending) seen (node :: rest)

variable {S}

theorem walks_of_ok {s : State} {fuel : ℕ} {pending seen : List String} {nodes : List Node}
    (h : walkFrom (S.get s) (S.children s) fuel pending seen = .ok nodes) :
    S.Walks s pending seen nodes := by
  induction fuel generalizing pending seen nodes with
  | zero =>
      cases pending with
      | nil =>
          cases h
          exact .done seen
      | cons id pending => cases h
  | succ fuel ih =>
      cases pending with
      | nil =>
          cases h
          exact .done seen
      | cons id pending =>
          rw [walkFrom] at h
          obtain ⟨_, hfresh, h⟩ := bind_ok_iff.mp h
          obtain ⟨node, hget, h⟩ := bind_ok_iff.mp h
          obtain ⟨rest, hrest, h⟩ := bind_ok_iff.mp h
          cases h
          exact .visit (ensure_ok_iff.mp hfresh) hget (ih hrest)

theorem Walks.run {s : State} {pending seen : List String} {nodes : List Node}
    (h : S.Walks s pending seen nodes) :
    ∃ fuel, walkFrom (S.get s) (S.children s) fuel pending seen = .ok nodes := by
  induction h with
  | done seen => exact ⟨0, rfl⟩
  | visit hfresh hget _ ih =>
      obtain ⟨fuel, hfuel⟩ := ih
      refine ⟨fuel + 1, ?_⟩
      rw [walkFrom]
      apply bind_ok_iff.mpr
      refine ⟨(), ensure_ok_iff.mpr hfresh, ?_⟩
      apply bind_ok_iff.mpr
      refine ⟨_, hget, ?_⟩
      apply bind_ok_iff.mpr
      exact ⟨_, hfuel, rfl⟩

theorem Same.walks {s t : State} (h : S.Same s t) {pending seen : List String}
    {nodes : List Node} (hwalk : S.Walks s pending seen nodes) : S.Walks t pending seen nodes := by
  obtain ⟨fuel, hfuel⟩ := hwalk.run
  have hsame : walkFrom (S.get t) (S.children t) fuel pending seen = .ok nodes := by
    rw [h.get, h.children, hfuel]
  exact walks_of_ok hsame

/-- The ids of nodes. -/
abbrev ids (nodes : List Node) : List String := nodes.map Node.id

section Rows

variable (hrows : S.Rows) {s : State} {pending seen : List String} {nodes : List Node}

include hrows

theorem Walks.get (h : S.Walks s pending seen nodes) :
    ∀ id ∈ ids nodes, id ∉ seen ∧ ∃ node ∈ nodes, node.id = id ∧ S.get s id = .ok node := by
  induction h with
  | done seen => exact fun id hid => absurd hid List.not_mem_nil
  | @visit id pending seen node rest hfresh hget _ ih =>
      intro other hother
      rcases List.mem_cons.mp hother with rfl | hother
      · rw [hrows.keyed hget]
        exact ⟨hfresh, node, List.mem_cons_self, hrows.keyed hget, hget⟩
      · obtain ⟨hnew, found, hmem, hid, hfound⟩ := ih other hother
        exact ⟨fun hseen => hnew (List.mem_cons_of_mem _ hseen), found,
          List.mem_cons_of_mem _ hmem, hid, hfound⟩

theorem Walks.get_mem (h : S.Walks s pending seen nodes) :
    ∀ node ∈ nodes, S.get s node.id = .ok node := by
  induction h with
  | done seen => exact fun node hnode => absurd hnode List.not_mem_nil
  | @visit id pending seen node rest hfresh hget _ ih =>
      refine List.forall_mem_cons.mpr ⟨?_, ih⟩
      rw [hrows.keyed hget]
      exact hget

theorem Walks.nodup (h : S.Walks s pending seen nodes) : (ids nodes).Nodup := by
  induction h with
  | done seen => exact List.nodup_nil
  | @visit id pending seen node rest hfresh hget hrest ih =>
      refine List.nodup_cons.mpr ⟨fun hmem => ?_, ih⟩
      have hnew := (hrest.get hrows _ hmem).1
      rw [hrows.keyed hget] at hnew
      exact hnew List.mem_cons_self

theorem Walks.pending_subset (h : S.Walks s pending seen nodes) : pending ⊆ ids nodes := by
  induction h with
  | done seen => exact List.Subset.refl _
  | @visit id pending seen node rest hfresh hget hrest ih =>
      rw [ids, List.map_cons, hrows.keyed hget]
      exact List.cons_subset_cons _ fun other hother =>
        ih (List.mem_append_right _ hother)

/-- The children of what is visited are visited. -/
theorem Walks.closed (h : S.Walks s pending seen nodes) :
    ∀ id ∈ ids nodes, S.children s id ⊆ ids nodes := by
  induction h with
  | done seen => exact fun id hid => absurd hid List.not_mem_nil
  | @visit id pending seen node rest hfresh hget hrest ih =>
      intro other hother
      have hsub : ids rest ⊆ ids (node :: rest) := List.subset_cons_self _ _
      rcases List.mem_cons.mp hother with rfl | hother
      · rw [hrows.keyed hget]
        exact fun child hchild =>
          hsub (hrest.pending_subset hrows (List.mem_append_left _ hchild))
      · exact List.Subset.trans (ih other hother) hsub

/-- What is visited was pending or is the child of something visited. -/
theorem Walks.origin (h : S.Walks s pending seen nodes) :
    ∀ id ∈ ids nodes, id ∈ pending ∨ ∃ parent ∈ ids nodes, id ∈ S.children s parent := by
  induction h with
  | done seen => exact fun id hid => absurd hid List.not_mem_nil
  | @visit id pending seen node rest hfresh hget hrest ih =>
      intro other hother
      rcases List.mem_cons.mp hother with rfl | hother
      · rw [hrows.keyed hget]
        exact .inl List.mem_cons_self
      · rcases ih other hother with hpending | ⟨parent, hparent, hchild⟩
        · rcases List.mem_append.mp hpending with hchild | hpending
          · refine .inr ⟨id, ?_, hchild⟩
            rw [ids, List.map_cons, hrows.keyed hget]
            exact List.mem_cons_self
          · exact .inl (List.mem_cons_of_mem _ hpending)
        · exact .inr ⟨parent, List.mem_cons_of_mem _ hparent, hchild⟩

/-! ## Walks after a write -/

variable {t : State} {id : String}

theorem Changed.walks {old new : Node} (h : S.Changed id s t old new)
    (hwalk : S.Walks s pending seen nodes) :
    S.Walks t pending seen (nodes.map fun node => if node.id = id then new else node) := by
  induction hwalk with
  | done seen => exact .done seen
  | @visit other pending seen node rest hfresh hget hrest ih =>
      have hread : S.get t other = .ok (if node.id = id then new else node) := by
        rw [hrows.keyed hget]
        split
        · next heq =>
            rw [heq]
            exact h.after
        · next hne => exact h.keeps other node hne hget
      refine .visit hfresh hread ?_
      rw [h.children]
      exact ih

section Inserted

variable {node : Node} (h : S.Inserted id s t node)

include h

theorem Inserted.not_read {found : Node} : S.get s id ≠ .ok found := by
  intro hget
  have hstored := hrows.stored hget
  rw [h.absent] at hstored
  cases hstored

/-- Once the new node and its parent have been visited, walks are as before. -/
theorem Inserted.walks_after (hwalk : S.Walks s pending seen nodes) {seen' : List String}
    (hseen : ∀ other ∈ seen', other ∈ seen ∨ other = id)
    (hparent : ∀ parent, node.parent = some parent → parent ∈ seen) :
    S.Walks t pending seen' nodes := by
  induction hwalk generalizing seen' with
  | done seen => exact .done seen'
  | @visit other pending seen found rest hfresh hget hrest ih =>
      have hne : other ≠ id := fun heq => h.not_read hrows (heq ▸ hget)
      have hchildren : S.children t other = S.children s other :=
        h.children other fun heq => hfresh (hparent other heq)
      refine .visit (fun hmem => (hseen other hmem).elim hfresh hne)
        (h.keeps other found hne hget) ?_
      rw [hchildren]
      refine ih (fun x hx => ?_) fun parent heq => List.mem_cons_of_mem _ (hparent parent heq)
      rcases List.mem_cons.mp hx with rfl | hx
      · exact .inl List.mem_cons_self
      · exact (hseen x hx).imp_left (List.mem_cons_of_mem _)

/-- The new node is visited where it is pending. -/
theorem Inserted.walks_at (hrooted : S.Rooted s) {front back : List String}
    (hwalk : S.Walks s (front ++ back) seen nodes) (hid : id ∉ seen)
    (hparent : ∀ parent, node.parent = some parent → parent ∈ seen) :
    ∃ nodes', S.Walks t (front ++ id :: back) seen nodes' ∧ nodes'.Perm (node :: nodes) := by
  have hleaf : S.children t id = [] := by
    rw [h.children id h.parent]
    by_contra hne
    have hstored := hrooted id hne
    rw [h.absent] at hstored
    cases hstored
  obtain ⟨pending, hpending⟩ : ∃ pending, pending = front ++ back := ⟨_, rfl⟩
  rw [← hpending] at hwalk
  induction hwalk generalizing front back with
  | done seen =>
      obtain ⟨rfl, rfl⟩ := List.append_eq_nil_iff.mp hpending.symm
      refine ⟨[node], .visit hid h.read ?_, List.Perm.refl _⟩
      rw [hleaf]
      exact .done _
  | @visit other pending seen found rest hfresh hget hrest ih =>
      cases front with
      | nil =>
          rw [List.nil_append] at hpending
          subst hpending
          refine ⟨node :: found :: rest, .visit hid h.read ?_, List.Perm.refl _⟩
          rw [hleaf]
          refine h.walks_after hrows (.visit hfresh hget hrest) (fun x hx => ?_) hparent
          exact (List.mem_cons.mp hx).symm
      | cons first front =>
          obtain ⟨rfl, rfl⟩ := List.cons.inj hpending
          have hne : other ≠ id := fun heq => h.not_read hrows (heq ▸ hget)
          have hchildren : S.children t other = S.children s other :=
            h.children other fun heq => hfresh (hparent other heq)
          have hid' : id ∉ other :: seen := fun hmem =>
            (List.mem_cons.mp hmem).elim (fun heq => hne heq.symm) hid
          obtain ⟨nodes', hnodes, hperm⟩ := ih hid'
            (fun parent heq => List.mem_cons_of_mem _ (hparent parent heq))
            (List.append_assoc (S.children s other) front back).symm
          refine ⟨found :: nodes', .visit hfresh (h.keeps other found hne hget) ?_, ?_⟩
          · rw [hchildren]
            rwa [List.append_assoc] at hnodes
          · exact (hperm.cons found).trans (List.Perm.swap _ _ _)

/-- The new node is visited if its parent is. -/
theorem Inserted.walks (hrooted : S.Rooted s) (hwalk : S.Walks s pending seen nodes)
    (hid : id ∉ seen) :
    ∃ nodes', S.Walks t pending seen nodes' ∧
      (nodes' = nodes ∧ (∀ parent, node.parent = some parent → parent ∉ ids nodes) ∨
        nodes'.Perm (node :: nodes) ∧ ∃ parent ∈ ids nodes, node.parent = some parent) := by
  induction hwalk with
  | done seen =>
      exact ⟨[], .done seen, .inl ⟨rfl, fun _ _ => List.not_mem_nil⟩⟩
  | @visit other pending seen found rest hfresh hget hrest ih =>
      have hne : other ≠ id := fun heq => h.not_read hrows (heq ▸ hget)
      have hread := h.keeps other found hne hget
      have hid' : id ∉ other :: seen := fun hmem =>
        (List.mem_cons.mp hmem).elim (fun heq => hne heq.symm) hid
      by_cases hparent : node.parent = some other
      · obtain ⟨before, after, hold, hnew⟩ := h.placed other hparent
        rw [hold, List.append_assoc] at hrest
        obtain ⟨nodes', hnodes, hperm⟩ := h.walks_at hrows hrooted hrest hid' fun parent heq =>
          Option.some.inj (hparent.symm.trans heq) ▸ List.mem_cons_self
        refine ⟨found :: nodes', .visit hfresh hread ?_, .inr ⟨?_, other, ?_, hparent⟩⟩
        · rw [hnew, List.append_assoc]
          exact hnodes
        · exact (hperm.cons found).trans (List.Perm.swap _ _ _)
        · rw [ids, List.map_cons, hrows.keyed hget]
          exact List.mem_cons_self
      · obtain ⟨nodes', hnodes, hcases⟩ := ih hid'
        refine ⟨found :: nodes', .visit hfresh hread ?_, ?_⟩
        · rw [h.children other hparent]
          exact hnodes
        · rcases hcases with ⟨rfl, hnone⟩ | ⟨hperm, parent, hmem, heq⟩
          · refine .inl ⟨rfl, fun parent heq hmem => ?_⟩
            rcases List.mem_cons.mp hmem with rfl | hmem
            · exact hparent (heq.trans (congrArg some (hrows.keyed hget)))
            · exact hnone parent heq hmem
          · exact .inr ⟨(hperm.cons found).trans (List.Perm.swap _ _ _), parent,
              List.mem_cons_of_mem _ hmem, heq⟩

end Inserted

/-- The walk after a write of a node: which ids it visits, and what it sums up to. -/
structure Rewalked (S : StoreReads State) (id : String) (s : State) (new : Node)
    (nodes nodes' : List Node) : Prop where
  kept : ids nodes ⊆ ids nodes'
  fresh : ∀ other ∈ ids nodes', other ∈ ids nodes ∨
    other = id ∧ (∀ found, S.get s id ≠ .ok found) ∧
      ∃ parent ∈ ids nodes, new.parent = some parent
  apart : id ∉ ids nodes' → nodes' = nodes
  sum : id ∈ ids nodes' → ∀ weight : Node → ℚ, (nodes'.map weight).sum =
    (nodes.map weight).sum - ((S.get s id).toOption.map weight).getD 0 + weight new

omit hrows in
theorem sum_replaced (weight : Node → ℚ) {nodes : List Node} (hnodup : (ids nodes).Nodup)
    {old : Node} (hold : old ∈ nodes) (new : Node) :
    ((nodes.map fun node => if node.id = old.id then new else node).map weight).sum =
      (nodes.map weight).sum - weight old + weight new := by
  induction nodes with
  | nil => exact absurd hold List.not_mem_nil
  | cons node nodes ih =>
      obtain ⟨hfresh, hnodup⟩ := List.nodup_cons.mp hnodup
      rw [List.map_cons, List.map_cons, List.map_cons, List.sum_cons, List.sum_cons]
      rcases List.mem_cons.mp hold with rfl | hold
      · have hrest : (nodes.map fun node => if node.id = old.id then new else node) = nodes := by
          conv_rhs => rw [← List.map_id nodes]
          apply List.map_congr_left
          intro node hnode
          have hne : node.id ≠ old.id := fun heq => hfresh (heq ▸ List.mem_map_of_mem hnode)
          exact if_neg hne
        rw [if_pos rfl, hrest]
        ring
      · have hne : node.id ≠ old.id := fun heq => hfresh (heq ▸ List.mem_map_of_mem hold)
        rw [if_neg hne, ih hnodup hold]
        ring

theorem Wrote.walks (hrooted : S.Rooted s) (h : S.Wrote id s t) {new : Node}
    (hnew : S.get t id = .ok new) {anchor : String} (hwalk : S.Walks s [anchor] [] nodes) :
    ∃ nodes', S.Walks t [anchor] [] nodes' ∧ Rewalked S id s new nodes nodes' := by
  cases h with
  | same h =>
      refine ⟨nodes, h.walks hwalk, List.Subset.refl _, fun _ hmem => .inl hmem, fun _ => rfl,
        fun _ weight => ?_⟩
      rw [← h.get, hnew]
      exact (sub_add_cancel _ _).symm
  | changed old new' h =>
      obtain rfl := Except.ok.inj (h.after.symm.trans hnew)
      have hids : ids (nodes.map fun node => if node.id = id then new' else node) = ids nodes := by
        rw [ids, List.map_map]
        apply List.map_congr_left
        intro node _
        rw [Function.comp_apply]
        split
        · next heq => rw [hrows.keyed h.after, heq]
        · rfl
      refine ⟨_, h.walks hrows hwalk, hids ▸ List.Subset.refl _, fun _ hmem => .inl (hids ▸ hmem),
        fun hnot => ?_, fun hmem weight => ?_⟩
      · conv_rhs => rw [← List.map_id nodes]
        apply List.map_congr_left
        intro node hnode
        have hne : node.id ≠ id := fun heq => hnot (hids ▸ heq ▸ List.mem_map_of_mem hnode)
        exact if_neg hne
      · obtain ⟨-, found, hfound, hid, hget⟩ := hwalk.get hrows id (hids ▸ hmem)
        obtain rfl := Except.ok.inj (hget.symm.trans h.before)
        rw [h.before]
        have hsum := sum_replaced weight (hwalk.nodup hrows) hfound new'
        rw [hid] at hsum
        exact hsum
  | inserted node h =>
      obtain rfl := Except.ok.inj (h.read.symm.trans hnew)
      have hid := hrows.keyed h.read
      obtain ⟨nodes', hwalk', hcases⟩ := h.walks hrows hrooted hwalk List.not_mem_nil
      have hnot : id ∉ ids nodes := by
        intro hmem
        obtain ⟨-, found, -, -, hget⟩ := hwalk.get hrows id hmem
        exact h.not_read hrows hget
      refine ⟨nodes', hwalk', ?_⟩
      rcases hcases with ⟨rfl, -⟩ | ⟨hperm, parent, hparent, heq⟩
      · exact ⟨List.Subset.refl _, fun _ hmem => .inl hmem, fun _ => rfl,
          fun hmem => absurd hmem hnot⟩
      · have hmem : ∀ other, other ∈ ids nodes' ↔ other = id ∨ other ∈ ids nodes := by
          intro other
          rw [ids, (hperm.map Node.id).mem_iff, List.map_cons, List.mem_cons, hid]
        refine ⟨fun other hother => (hmem other).mpr (.inr hother), fun other hother => ?_,
          fun hnot' => absurd ((hmem id).mpr (.inl rfl)) hnot', fun _ weight => ?_⟩
        · rcases (hmem other).mp hother with rfl | hother
          · exact .inr ⟨rfl, fun _ => h.not_read hrows, parent, hparent, heq⟩
          · exact .inl hother
        · have hold : ((S.get s id).toOption.map weight).getD 0 = 0 := by
            cases hget : S.get s id with
            | ok found => exact absurd hget (h.not_read hrows)
            | error error => rfl
          rw [(hperm.map weight).sum_eq, List.map_cons, List.sum_cons, hold]
          ring

end Rows

end StoreReads

/-! ## Revisions -/

/-- `StoreRevision`: the mutations through this store, and those of others. -/
@[ext] structure StoreRevision where
  own : ℕ
  external : ℕ
deriving DecidableEq

/-- A mutation of one node, as a runtime makes it. -/
inductive NodeWrite where
  | put (node : HeldNode)
  | stagePending (node : HeldNode)
  | finalize (node : HeldNode)
  | updateMeta (id : String) (patch : HeldJson)

/-- The id of the node that is written. -/
def NodeWrite.id : NodeWrite → String
  | put node | stagePending node | finalize node => node.1.id
  | updateMeta id _ => id

/-- A store as a runtime uses it: the mutations of one node, `drop_nodes`, a transaction on the
reservations, and what others commit. -/
structure RecordingStore (State : Type) extends StoreReads State where
  counters : State → StoreRevision
  cacheable : State → Bool
  ancestrySnapshot : State → String → Except Error (Option (List Node))
  subtreeSnapshot : State → String → Except Error (Option (List Node))
  write : NodeWrite → State → Except Error Unit × State
  dropNodes : List String → State → Except Error Unit × State
  reserve : State → State
  Commit : Type
  commit : Commit → State → State

namespace RecordingStore

variable {State : Type} (S : RecordingStore State)

/-- `cache_revision` -/
def cacheRevision (s : State) : Option StoreRevision :=
  if S.cacheable s then some (S.counters s) else none

/-- No counter falls, and nothing changes but with one. -/
structure Later (s t : State) : Prop where
  own : (S.counters s).own ≤ (S.counters t).own
  external : (S.counters s).external ≤ (S.counters t).external
  same : S.counters t = S.counters s → S.Same s t ∧ S.cacheable t = S.cacheable s

/-- What `cache_revision` promises. -/
structure Documented : Prop where
  rows : S.Rows
  write_later : ∀ w s, S.Later s (S.write w s).2
  write_one : ∀ w s node, S.cacheable s = true → (S.write w s).1 = .ok () →
    (S.counters (S.write w s).2).external = (S.counters s).external →
      S.get (S.write w s).2 w.id = .ok node → S.Wrote w.id s (S.write w s).2
  dropNodes_later : ∀ ids s, S.Later s (S.dropNodes ids s).2
  reserve_later : ∀ s, S.Later s (S.reserve s)
  commit_later : ∀ c s, S.Later s (S.commit c s)
  commit_own : ∀ c s, (S.counters (S.commit c s)).own = (S.counters s).own

variable {S}

theorem cacheRevision_eq_some {s : State} {r : StoreRevision} (h : S.cacheRevision s = some r) :
    S.cacheable s = true ∧ S.counters s = r := by
  unfold cacheRevision at h
  split at h
  · next hcacheable => exact ⟨hcacheable, Option.some.inj h⟩
  · cases h

theorem Later.refl (s : State) : S.Later s s := ⟨le_rfl, le_rfl, fun _ => ⟨⟨rfl, rfl⟩, rfl⟩⟩

/-- Where the counters are the same at the end, they were in between. -/
theorem Later.squeeze {s t u : State} (h : S.Later s t) (h' : S.Later t u)
    (hcounters : S.counters u = S.counters s) :
    S.counters t = S.counters s ∧ S.counters u = S.counters t := by
  have hown := h'.own
  have hexternal := h'.external
  rw [hcounters] at hown hexternal
  have heq : S.counters t = S.counters s :=
    StoreRevision.ext (le_antisymm hown h.own) (le_antisymm hexternal h.external)
  exact ⟨heq, hcounters.trans heq.symm⟩

theorem Later.trans {s t u : State} (h : S.Later s t) (h' : S.Later t u) : S.Later s u := by
  refine ⟨h.own.trans h'.own, h.external.trans h'.external, fun hcounters => ?_⟩
  obtain ⟨hfirst, hsecond⟩ := h.squeeze h' hcounters
  obtain ⟨hsame, hcacheable⟩ := h.same hfirst
  obtain ⟨hsame', hcacheable'⟩ := h'.same hsecond
  exact ⟨⟨hsame'.get.trans hsame.get, hsame'.children.trans hsame.children⟩,
    hcacheable'.trans hcacheable⟩

end RecordingStore

end Pollard.Rust
