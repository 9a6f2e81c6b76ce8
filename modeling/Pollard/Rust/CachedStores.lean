import Pollard.Rust.HashRope
import Pollard.Rust.RecordingStores

/-!
# The stores with a cache revision

`MemoryStore`, `HashRopeStore` and `SQLiteStore` as a runtime sees them, and that each does what
`cache_revision` promises of it.
-/

namespace Pollard.Rust

open Lib Fallible

/-! ## Children -/

/-- The ids of children by their kinds and ids. -/
def sortedIds (children : List (String × String)) : List String :=
  (children.insertionSort fun a b => PairLE a b).map Prod.snd

theorem sortedIds_of_perm {a b : List (String × String)} (h : a.Perm b) :
    sortedIds a = sortedIds b := by
  rw [sortedIds, sortedIds]
  exact congrArg _ (insertionSort_eq_of_perm (fun _ _ _ _ heq => heq) h)

/-- A new child stands somewhere between the others. -/
theorem sortedIds_cons (child : String × String) (children : List (String × String)) :
    ∃ before after, sortedIds children = before ++ after ∧
      sortedIds (child :: children) = before ++ child.2 :: after := by
  let sorted := children.insertionSort fun a b => PairLE a b
  let before := sorted.takeWhile fun b => ¬PairLE child b
  let after := sorted.dropWhile fun b => ¬PairLE child b
  refine ⟨before.map Prod.snd, after.map Prod.snd, ?_, ?_⟩
  · rw [← List.map_append, List.takeWhile_append_dropWhile]
    rfl
  · rw [sortedIds, List.insertionSort_cons_eq_take_drop, List.map_append, List.map_cons]

theorem mem_sortedIds {id : String} {children : List (String × String)} :
    id ∈ sortedIds children ↔ ∃ child ∈ children, child.2 = id := by
  rw [sortedIds, List.mem_map]
  simp only [List.mem_insertionSort]

/-! ## The memory store -/

/-- The states a memory store gets into. -/
abbrev MemoryState (lib : Library) := { s : MemoryStore // s.WellFormed lib }

/-- What a store is after a call that leaves it as it was if it fails. -/
def settled {α : Type} {P : α → Prop} (s : { a // P a }) (x : Except Error α)
    (h : ∀ a, x = .ok a → P a) : Except Error Unit × { a // P a } :=
  match x, h with
  | .ok a, h => (.ok (), ⟨a, h a rfl⟩)
  | .error e, _ => (.error e, s)

theorem settled_cases {α : Type} {P : α → Prop} (s : { a // P a }) (x : Except Error α)
    (h : ∀ a, x = .ok a → P a) :
    ((settled s x h).1 = .ok () ∧ x = .ok (settled s x h).2.1) ∨
      (∃ e, (settled s x h).1 = .error e) ∧ (settled s x h).2 = s := by
  cases x with
  | ok a => exact .inl ⟨rfl, rfl⟩
  | error e => exact .inr ⟨⟨e, rfl⟩, rfl⟩

namespace MemoryStore

variable (lib : Library)

def reads : StoreReads (MemoryState lib) where
  get s := s.1.get
  stored s := s.1.exists?
  children s := s.1.children

/-- A mutation of one node. -/
def write (s : MemoryStore) : NodeWrite → Except Error MemoryStore
  | .put node | .stagePending node => s.put lib node.1
  | .finalize node => s.finalize lib node.1
  | .updateMeta id patch => s.updateMeta id patch.1

variable {lib}

theorem WellFormed.write {s after : MemoryStore} (h : s.WellFormed lib) (w : NodeWrite)
    (hwrite : s.write lib w = .ok after) : after.WellFormed lib := by
  cases w with
  | put node | stagePending node => exact h.put node.2 hwrite
  | finalize node => exact h.finalize node.2 hwrite
  | updateMeta id patch => exact h.updateMeta patch.2 hwrite

/-- `MemoryStore` as a runtime sees it: no one else writes to it, and it has no reservations. -/
def recording (lib : Library) : RecordingStore (MemoryState lib) where
  toStoreReads := reads lib
  counters s := ⟨s.1.revision, 0⟩
  cacheable _ := true
  ancestrySnapshot _ _ := .ok none
  subtreeSnapshot _ _ := .ok none
  write w s := settled s (s.1.write lib w) fun _ => s.2.write w
  dropNodes ids s := settled s (s.1.dropNodes ids) fun _ => s.2.dropNodes
  reserve := id
  Commit := Empty
  commit c _ := c.elim

/-! ### What it promises -/

theorem rows_reads : (reads lib).Rows where
  keyed := fun {s _ _} hget => s.2.keyed (get_ok_iff.mp hget)
  stored := fun {s _ _} hget => exists?_iff.mpr ⟨_, get_ok_iff.mp hget⟩
  listed := by
    intro s id child node hchild hget
    obtain ⟨entry, hentry, rfl⟩ := mem_sortedIds.mp hchild
    obtain ⟨found, hfound, hparent, -⟩ := s.2.indexed.mp hentry
    obtain rfl := Option.some.inj (hfound.symm.trans (get_ok_iff.mp hget))
    exact hparent
  found := by
    intro s id parent node hget hparent
    have hentry : (node.kind.value, id) ∈ s.1.childIndex.getD parent [] :=
      s.2.indexed.mpr ⟨node, get_ok_iff.mp hget, hparent, rfl⟩
    exact mem_sortedIds.mpr ⟨_, hentry, rfl⟩

theorem children_eq (s : MemoryStore) (id : String) :
    s.children id = sortedIds (s.childIndex.getD id []) := rfl

theorem inserted_reads {s t : MemoryState lib} {node : Node}
    (hnew : s.1.nodes.get? node.id = none) (ht : t.1 = s.1.inserted node)
    (hparent : ∀ parent, node.parent = some parent → s.1.exists? parent = true) :
    (reads lib).Inserted node.id s t node where
  absent := by
    change s.1.exists? node.id = false
    rw [exists?, Dict.contains, hnew]
    rfl
  read := by
    apply get_ok_iff.mpr
    rw [ht]
    exact Dict.get?_set_self _ _ _
  keeps := by
    intro other found hne hget
    apply get_ok_iff.mpr
    rw [ht]
    exact (Dict.get?_set_of_ne _ _ (Ne.symm hne)).trans (get_ok_iff.mp hget)
  parent := by
    intro heq
    obtain ⟨found, hfound⟩ := exists?_iff.mp (hparent node.id heq)
    rw [hnew] at hfound
    cases hfound
  children := by
    intro other hother
    change t.1.children other = s.1.children other
    rw [children_eq, children_eq, ht, getD_index_inserted, if_neg fun hand => hother hand.1]
  placed := by
    intro parent hown
    have hfree : (node.kind.value, node.id) ∉ s.1.childIndex.getD parent [] := by
      intro hmem
      obtain ⟨found, hfound, -⟩ := s.2.indexed.mp hmem
      rw [hnew] at hfound
      cases hfound
    change ∃ before after, s.1.children parent = before ++ after ∧
      t.1.children parent = before ++ node.id :: after
    rw [children_eq, children_eq, ht, getD_index_inserted, if_pos ⟨hown, hfree⟩]
    exact sortedIds_cons _ _

theorem changed_reads {s t : MemoryState lib} {old node : Node} {id : String}
    (hold : s.1.nodes.get? id = some old)
    (hnodes : t.1.nodes = s.1.nodes.set id node) (hindex : t.1.childIndex = s.1.childIndex)
    (hparent : node.parent = old.parent) : (reads lib).Changed id s t old node where
  before := get_ok_iff.mpr hold
  after := by
    apply get_ok_iff.mpr
    rw [hnodes]
    exact Dict.get?_set_self _ _ _
  parent := hparent
  keeps := by
    intro other found hne hget
    apply get_ok_iff.mpr
    rw [hnodes]
    exact (Dict.get?_set_of_ne _ _ (Ne.symm hne)).trans (get_ok_iff.mp hget)
  children := by
    funext other
    change t.1.children other = s.1.children other
    rw [children_eq, children_eq, hindex]

theorem wrote_of_put {s t : MemoryState lib} {node : Node} (h : s.1.put lib node = .ok t.1) :
    (reads lib).Wrote node.id s t ∧ (t.1 = s.1 ∨ t.1.revision = s.1.revision + 1) := by
  obtain ⟨-, hparent, hputs⟩ := put_ok_iff.mp h
  generalize ht : t.1 = after at hputs
  cases hputs with
  | inserted hnew => exact ⟨.inserted node (inserted_reads hnew ht hparent), .inr rfl⟩
  | same =>
      obtain rfl : t = s := Subtype.ext ht
      exact ⟨.same ⟨rfl, rfl⟩, .inl rfl⟩
  | conflict existing hget _ _ conflicts _ =>
      have hid := s.2.keyed hget
      let node' := existing.withConflicts (conflicts ++ [node.conflict])
      refine ⟨.changed existing node' (changed_reads hget ?_ ?_ rfl), .inr rfl⟩
      · rw [ht]
        exact congrArg (fun id => s.1.nodes.set id node') hid
      · rw [ht]
        rfl

theorem wrote_of_write {s t : MemoryState lib} {w : NodeWrite} (h : s.1.write lib w = .ok t.1) :
    (reads lib).Wrote w.id s t ∧ (t.1 = s.1 ∨ t.1.revision = s.1.revision + 1) := by
  cases w with
  | put node | stagePending node => exact wrote_of_put h
  | finalize node =>
      obtain ⟨-, ⟨old, hold, hsame⟩, -, hafter⟩ := finalize_ok h
      have hparent := (sameIdentity_iff.mp hsame).1.symm
      refine ⟨.changed old node.1 (changed_reads hold ?_ ?_ hparent), .inr ?_⟩ <;>
        rw [hafter] <;> rfl
  | updateMeta id patch =>
      obtain ⟨entries, node, -, hget, hafter⟩ := updateMeta_ok_iff.mp h
      have hid := s.2.keyed hget
      let node' : Node := { node with metadata := node.metadata.extend entries }
      refine ⟨.changed node node' (changed_reads hget ?_ ?_ rfl), .inr ?_⟩
      · rw [hafter]
        exact congrArg (fun id => s.1.nodes.set id node') hid
      · rw [hafter]
        rfl
      · rw [hafter]
        rfl

theorem later_of_revision {s t : MemoryState lib}
    (h : t = s ∨ t.1.revision = s.1.revision + 1) : (recording lib).Later s t := by
  rcases h with rfl | h
  · exact .refl t
  · refine ⟨?_, le_rfl, fun heq => ?_⟩
    · change s.1.revision ≤ t.1.revision
      omega
    · have hrevision : t.1.revision = s.1.revision := congrArg StoreRevision.own heq
      omega

theorem recording_documented (lib : Library) : (recording lib).Documented where
  rows := rows_reads
  write_later := by
    intro w s
    rcases settled_cases s (s.1.write lib w) fun _ => s.2.write w with ⟨-, h⟩ | ⟨-, hstate⟩
    · exact later_of_revision ((wrote_of_write h).2.imp_left Subtype.ext)
    · exact later_of_revision (.inl hstate)
  write_one := by
    intro w s node _ hok _ _
    rcases settled_cases s (s.1.write lib w) fun _ => s.2.write w with ⟨-, h⟩ | ⟨⟨e, herror⟩, -⟩
    · exact (wrote_of_write h).1
    · cases herror.symm.trans hok
  dropNodes_later := by
    intro ids s
    rcases settled_cases s (s.1.dropNodes ids) fun _ => s.2.dropNodes with ⟨-, h⟩ | ⟨-, hstate⟩
    · obtain ⟨_, -, hdrop⟩ := bind_ok_iff.mp h
      exact later_of_revision (.inr (congrArg revision (Except.ok.inj hdrop)).symm)
    · exact later_of_revision (.inl hstate)
  reserve_later := fun s => .refl s
  commit_later := fun c => c.elim
  commit_own := fun c => c.elim

end MemoryStore

/-! ## The hash rope store -/

/-- Reads of what a state holds. -/
def StoreReads.comap {State Other : Type} (S : StoreReads State) (f : Other → State) :
    StoreReads Other where
  get s := S.get (f s)
  stored s := S.stored (f s)
  children s := S.children (f s)

theorem StoreReads.Wrote.comap {State Other : Type} {S : StoreReads State} {f : Other → State}
    {id : String} {s t : Other} (h : S.Wrote id (f s) (f t)) : (S.comap f).Wrote id s t := by
  cases h with
  | same h => exact .same ⟨h.get, h.children⟩
  | changed old new h =>
      exact .changed old new ⟨h.before, h.after, h.parent, h.keeps, h.children⟩
  | inserted node h =>
      exact .inserted node ⟨h.absent, h.read, h.keeps, h.parent, h.children, h.placed⟩

/-- The states a hash rope store gets into. -/
abbrev HashRopeState (lib : Library) := { s : HashRopeStore // s.inner.WellFormed lib }

/-- The memory store in front of the log. -/
def HashRopeState.inner {lib : Library} (s : HashRopeState lib) : MemoryState lib :=
  ⟨s.1.inner, s.2⟩

namespace HashRopeStore

variable {lib : Library}

/-- A mutation of one node. -/
def write (lib : Library) (s : HashRopeStore) : NodeWrite → Except Error HashRopeStore
  | .put node => s.put lib node.1
  | .stagePending node => s.stagePending lib node.1
  | .finalize node => s.finalize lib node.1
  | .updateMeta id patch => s.updateMeta lib id patch.1

/-- What is written of a node goes to the memory store alike. -/
theorem write_ok {s after : HashRopeStore} {w : NodeWrite} (h : s.write lib w = .ok after) :
    s.inner.write lib w = .ok after.inner := by
  cases w with
  | put node =>
      obtain ⟨_, -, h⟩ := bind_ok_iff.mp h
      obtain ⟨_, -, h⟩ := bind_ok_iff.mp h
      obtain ⟨inner, hinner, h⟩ := bind_ok_iff.mp h
      cases h
      exact hinner
  | stagePending node =>
      obtain ⟨_, -, h⟩ := bind_ok_iff.mp h
      obtain ⟨inner, hinner, h⟩ := bind_ok_iff.mp h
      cases h
      exact hinner
  | finalize node =>
      obtain ⟨_, -, h⟩ := bind_ok_iff.mp h
      obtain ⟨_, -, h⟩ := bind_ok_iff.mp h
      obtain ⟨inner, hinner, h⟩ := bind_ok_iff.mp h
      cases h
      exact hinner
  | updateMeta id patch =>
      obtain ⟨_, -, h⟩ := bind_ok_iff.mp h
      obtain ⟨inner, hinner, h⟩ := bind_ok_iff.mp h
      cases h
      exact hinner

theorem dropNodes_ok {s after : HashRopeStore} {ids : List String}
    (h : s.dropNodes lib ids = .ok after) : s.inner.dropNodes ids = .ok after.inner := by
  obtain ⟨inner, hinner, h⟩ := bind_ok_iff.mp h
  obtain ⟨_, -, h⟩ := bind_ok_iff.mp h
  cases h
  exact hinner

/-- `HashRopeStore` as a runtime sees it. -/
def recording (lib : Library) : RecordingStore (HashRopeState lib) where
  toStoreReads := (MemoryStore.reads lib).comap HashRopeState.inner
  counters s := ⟨s.1.inner.revision, 0⟩
  cacheable _ := true
  ancestrySnapshot _ _ := .ok none
  subtreeSnapshot _ _ := .ok none
  write w s := settled s (s.1.write lib w) fun _ h => s.2.write w (write_ok h)
  dropNodes ids s := settled s (s.1.dropNodes lib ids) fun _ h => s.2.dropNodes (dropNodes_ok h)
  reserve := id
  Commit := Empty
  commit c _ := c.elim

theorem rows_reads : ((MemoryStore.reads lib).comap HashRopeState.inner).Rows where
  keyed := MemoryStore.rows_reads.keyed
  stored := MemoryStore.rows_reads.stored
  listed := MemoryStore.rows_reads.listed
  found := MemoryStore.rows_reads.found

theorem later_of_revision {s t : HashRopeState lib}
    (h : t.1.inner = s.1.inner ∨ t.1.inner.revision = s.1.inner.revision + 1) :
    (recording lib).Later s t := by
  have hlater : (MemoryStore.recording lib).Later s.inner t.inner :=
    MemoryStore.later_of_revision (h.imp_left Subtype.ext)
  refine ⟨hlater.own, hlater.external, fun hsame => ⟨?_, rfl⟩⟩
  exact ⟨(hlater.same hsame).1.get, (hlater.same hsame).1.children⟩

theorem recording_documented (lib : Library) : (recording lib).Documented where
  rows := rows_reads
  write_later := by
    intro w s
    rcases settled_cases s (s.1.write lib w) fun _ h => s.2.write w (write_ok h) with
      ⟨-, h⟩ | ⟨-, hstate⟩
    · exact later_of_revision
        (MemoryStore.wrote_of_write (s := s.inner) (t := HashRopeState.inner _) (write_ok h)).2
    · exact later_of_revision (.inl (congrArg (fun t => t.1.inner) hstate))
  write_one := by
    intro w s node _ hok _ _
    rcases settled_cases s (s.1.write lib w) fun _ h => s.2.write w (write_ok h) with
      ⟨-, h⟩ | ⟨⟨e, herror⟩, -⟩
    · have hinner := MemoryStore.wrote_of_write (s := s.inner) (t := HashRopeState.inner _)
        (write_ok h)
      exact hinner.1.comap
    · cases herror.symm.trans hok
  dropNodes_later := by
    intro ids s
    rcases settled_cases s (s.1.dropNodes lib ids) fun _ h => s.2.dropNodes (dropNodes_ok h) with
      ⟨-, h⟩ | ⟨-, hstate⟩
    · obtain ⟨_, -, hdrop⟩ := bind_ok_iff.mp (dropNodes_ok h)
      exact later_of_revision
        (.inr (congrArg MemoryStore.revision (Except.ok.inj hdrop)).symm)
    · exact later_of_revision (.inl (congrArg (fun t => t.1.inner) hstate))
  reserve_later := fun s => .refl s
  commit_later := fun c => c.elim
  commit_own := fun c => c.elim

end HashRopeStore

end Pollard.Rust
