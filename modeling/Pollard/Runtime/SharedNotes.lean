import Pollard.Lib.Clients
import Pollard.Runtime.NamedScopes
import Pollard.Runtime.Recording

/-!
# Notes in a shared store

Others put nodes and patch metadata while a worker reads, verifies and writes.  Nothing they do
takes a node away or changes its identity or its result, so the ancestry of a node stays as it
was verified, and the node that was put first stays the one that is read.
-/

namespace Pollard.SharedNotes

open Lib NamedScopes

/-- What others write to the store. -/
inductive Write where
  | put (node : Node)
  | updateMeta (id : String) (patch : Dict String Value)

def Write.apply (H : Hashing) : Write → MemoryStore → MemoryStore
  | .put node, store => (perform H (.put node) store).2
  | .updateMeta id patch, store =>
      match store.updateMeta id patch with
      | .ok after => after
      | .error _ => store

/-! ## Stores that grow -/

/-- Nodes stay as they are but for their metadata, and so do their ancestors. -/
structure Grows (H : Hashing) (before after : MemoryStore) : Prop where
  kept : ∀ {id node}, before.find? id = some node →
    ∃ metadata, after.find? id = some { node with metadata }
  ancestors : ∀ {id}, before.contains id = true → after.ancestors id = before.ancestors id
  named : before.Named H → after.Named H

section Grows

variable {H : Hashing} {s t u : MemoryStore}

theorem Grows.refl (s : MemoryStore) : Grows H s s :=
  ⟨fun {_ node} h => ⟨node.metadata, h⟩, fun _ => rfl, id⟩

theorem Grows.contains (h : Grows H s t) {id : String} (hid : s.contains id = true) :
    t.contains id = true := by
  obtain ⟨node, hnode⟩ := Option.isSome_iff_exists.mp hid
  obtain ⟨metadata, hafter⟩ := h.kept hnode
  exact MemoryStore.contains_of_find? hafter

theorem Grows.trans (s t u : MemoryStore) (h : Grows H s t) (h' : Grows H t u) : Grows H s u := by
  refine ⟨fun hnode => ?_, fun hid => ?_, h'.named ∘ h.named⟩
  · obtain ⟨_, ht⟩ := h.kept hnode
    obtain ⟨metadata, hu⟩ := h'.kept ht
    exact ⟨metadata, hu⟩
  · rw [h'.ancestors (h.contains hid), h.ancestors hid]

theorem grows_replaceMeta (s : MemoryStore) (id : String) (metadata : Dict String Value) :
    Grows H s (s.replaceMeta id metadata) := by
  refine ⟨fun {other node} hnode => ?_, fun _ => MemoryStore.ancestors_replaceMeta _ _ _ _,
    fun hnamed node hnode => ?_⟩
  · rw [MemoryStore.find?_replaceMeta, hnode, Option.map_some]
    split
    · exact ⟨metadata, rfl⟩
    · exact ⟨node.metadata, rfl⟩
  · obtain ⟨old, hold, rfl⟩ := List.mem_map.mp hnode
    split
    · exact hnamed old hold
    · exact hnamed old hold

theorem grows_put {node : Node} (h : s.put H node = .ok t) : Grows H s t := by
  have hid := MemoryStore.named_of_put h
  rcases MemoryStore.put_cases h with hadded | ⟨-, -, -, rfl | ⟨metadata, rfl, -⟩⟩
  · refine ⟨fun {id other} hother => ⟨other.metadata, ?_⟩,
      fun hid => hadded.ancestors_of_contains hid, fun hnamed => ?_⟩
    · have hne : id ≠ node.id := by
        rintro rfl
        rw [hadded.1] at hother
        cases hother
      rw [hadded.find?_of_ne hne]
      exact hother
    · rw [MemoryStore.Named, hadded.2.2]
      exact List.forall_mem_cons.mpr ⟨hid, hnamed⟩
  · exact .refl _
  · exact grows_replaceMeta s _ _

theorem grows_perform (o : StoreOp) (s : MemoryStore) : Grows H s (perform H o s).2 := by
  cases o with
  | contains id => exact .refl s
  | get id => exact .refl s
  | put node =>
      rw [perform]
      cases hput : s.put H node with
      | ok after => exact grows_put hput
      | error e => exact .refl s

theorem grows_write (write : Write) (s : MemoryStore) : Grows H s (write.apply H s) := by
  cases write with
  | put node => exact grows_perform (.put node) s
  | updateMeta id patch =>
      rw [Write.apply]
      cases hupdate : s.updateMeta id patch with
      | ok after =>
          obtain ⟨node, -, rfl⟩ := Fallible.map_ok_iff.mp hupdate
          exact grows_replaceMeta s id _
      | error e => exact .refl s

end Grows

section Programs

variable {H : Hashing} {α : Type}

/-- Programs of workers that share a growing store. -/
abbrev Ensures (H : Hashing) (p : StoreProgram α)
    (Q : Except PyError α → MemoryStore → Prop) (s : MemoryStore) : Prop :=
  p.Ensures (perform H) (Grows H) Q s

/-- What no growth ends is still there at the end, and so is that nodes are named by their
identities. -/
theorem ensures_keeping {p : StoreProgram α} {Q : Except PyError α → MemoryStore → Prop}
    {P : MemoryStore → Prop} {s : MemoryStore} (hP : ∀ s t, Grows H s t → P s → P t)
    (h : Ensures H p Q s) (hnamed : s.Named H) (hs : P s) :
    Ensures H p (fun outcome t => Q outcome t ∧ t.Named H ∧ P t) s :=
  h.kept (fun _ _ hgrows h => ⟨hgrows.named h.1, hP _ _ hgrows h.2⟩)
    (fun o s h => ⟨(grows_perform o s).named h.1, hP _ _ (grows_perform o s) h.2⟩) ⟨hnamed, hs⟩

/-! ## Nodes that are held -/

/-- `==` of two results -/
def sameResult : Option Value → Option Value → Bool
  | none, none => true
  | some a, some b => a.pyEq b
  | _, _ => false

theorem eq_of_pyEq_str {value : Value} {text : String} (h : value.pyEq (.str text) = true) :
    value = .str text := by
  rw [Value.pyEq_scalar (by simp) (by simp)] at h
  cases value with
  | str other => simpa [Value.scalarEq, Value.number?] using h
  | _ => simp [Value.scalarEq, Value.number?] at h

/-- A result that is equal to one that names an id names it too. -/
theorem entry_of_sameResult {result : Option Value} {key id : String}
    (h : sameResult result (some (.dict [(key, .str id)])) = true) :
    ∃ value, result = some value ∧ value.get? key = some (.str id) := by
  cases result with
  | none => cases h
  | some value =>
      obtain ⟨entries, rfl⟩ := Value.pyEq_dict_left (Value.pyEq_symm h)
      have hentries := Value.pyEq_dict_iff.mp h key
      rw [show Assoc.lookup [(key, Value.str id)] key = some (.str id) from if_pos rfl] at hentries
      refine ⟨_, rfl, ?_⟩
      rw [Value.get?]
      generalize Assoc.lookup entries key = entry at hentries
      cases hentries with
      | some hsame => rw [eq_of_pyEq_str hsame]

/-- A node is held with its identity and a result. -/
def Holds (node : Node) (result : Option Value) (s : MemoryStore) : Prop :=
  ∃ stored, s.find? node.id = some stored ∧ stored.identity = node.identity ∧
    stored.result = result

/-- Another node has the id of this one. -/
def Collides (node : Node) (s : MemoryStore) : Prop :=
  ∃ stored, s.find? node.id = some stored ∧ stored.identity ≠ node.identity

theorem Holds.grows {node : Node} {result : Option Value} {s t : MemoryStore}
    (h : Holds node result s) (hgrows : Grows H s t) : Holds node result t := by
  obtain ⟨stored, hstored, hidentity, hresult⟩ := h
  obtain ⟨metadata, hafter⟩ := hgrows.kept hstored
  exact ⟨_, hafter, hidentity, hresult⟩

theorem Collides.grows {node : Node} {s t : MemoryStore} (h : Collides node s)
    (hgrows : Grows H s t) : Collides node t := by
  obtain ⟨stored, hstored, hidentity⟩ := h
  obtain ⟨metadata, hafter⟩ := hgrows.kept hstored
  exact ⟨_, hafter, hidentity⟩

theorem Holds.contains {node : Node} {result : Option Value} {s : MemoryStore}
    (h : Holds node result s) : s.contains node.id = true := by
  obtain ⟨stored, hstored, -⟩ := h
  exact MemoryStore.contains_of_find? hstored

/-- Whatever a program does, what no growth ends is still there. -/
theorem ensures_stable {P : MemoryStore → Prop} (hP : ∀ s t, Grows H s t → P s → P t)
    (p : StoreProgram α) {s : MemoryStore} (hs : P s) : Ensures H p (fun _ => P) s :=
  Program.ensures_of_kept hP (fun o s h => hP _ _ (grows_perform o s) h) p hs

section Operations

variable {Q : Except PyError α → MemoryStore → Prop} {s : MemoryStore}

theorem ensures_orRaise {β : Type} {x : Except PyError β} {f : β → StoreProgram α}
    (hok : ∀ b, x = .ok b → Ensures H (f b) Q s)
    (herror : ∀ e, x = .error e → ∀ t, Grows H s t → Q (.error e) t) :
    Ensures H ((StoreProgram.orRaise x).bind f) Q s := by
  cases x with
  | ok b => exact hok b rfl
  | error e => exact herror e rfl

theorem ensures_contains {id : String} {next : Bool → StoreProgram α}
    (h : ∀ t, Grows H s t → Ensures H (next (t.contains id)) Q t) :
    Ensures H (.op (.contains id) next) Q s := h

theorem ensures_get {id : String} {next : Except PyError Node → StoreProgram α}
    (h : ∀ t, Grows H s t → Ensures H (next (t.get id)) Q t) :
    Ensures H (.op (.get id) next) Q s := h

theorem ensures_put {node : Node} {next : Except PyError Unit → StoreProgram α}
    (h : ∀ t, Grows H s t → (∀ u, t.put H node = .ok u → Ensures H (next (.ok ())) Q u) ∧
      ∀ e, t.put H node = .error e → Ensures H (next (.error e)) Q t) :
    Ensures H (.op (.put node) next) Q s := by
  intro t ht
  obtain ⟨hok, herror⟩ := h t ht
  rw [perform]
  cases hput : t.put H node with
  | ok u => exact hok u hput
  | error e => exact herror e hput

end Operations

/-- The slot of a binding is bound as the binding says. -/
def BoundNote (binding : Node) (s : MemoryStore) : Prop :=
  ∃ result, Holds binding result s ∧ sameResult result binding.result = true

/-- The slot of a binding has another result. -/
def BoundElsewhere (binding : Node) (s : MemoryStore) : Prop :=
  ∃ result, Holds binding result s ∧ sameResult result binding.result = false

theorem BoundNote.grows {binding : Node} {s t : MemoryStore} (h : BoundNote binding s)
    (hgrows : Grows H s t) : BoundNote binding t := by
  obtain ⟨result, hholds, hsame⟩ := h
  exact ⟨result, hholds.grows hgrows, hsame⟩

theorem BoundElsewhere.grows {binding : Node} {s t : MemoryStore} (h : BoundElsewhere binding s)
    (hgrows : Grows H s t) : BoundElsewhere binding t := by
  obtain ⟨result, hholds, hsame⟩ := h
  exact ⟨result, hholds.grows hgrows, hsame⟩

/-- A slot is not bound elsewhere as well. -/
theorem BoundNote.not_elsewhere {binding : Node} {s : MemoryStore} (h : BoundNote binding s) :
    ¬ BoundElsewhere binding s := by
  rintro ⟨result, ⟨stored, hstored, -, rfl⟩, hdiffers⟩
  obtain ⟨_, ⟨other, hother, -, rfl⟩, hsame⟩ := h
  rw [hstored] at hother
  cases hother
  rw [hsame] at hdiffers
  cases hdiffers

/-! ## Verification -/

/-- A store whose nodes are named by their identities passes verification, whatever is written
meanwhile. -/
theorem ensures_verify {depth : ℕ} {seen : List String} {current : String} {s : MemoryStore}
    (hnamed : s.Named H) (hcurrent : s.contains current = true)
    (hseen : ∀ id ∈ s.ancestors current, id ∉ seen) :
    Ensures H (verify H depth seen current) (fun outcome _ => outcome = .ok []) s := by
  induction depth generalizing seen current s with
  | zero => exact fun _ _ => rfl
  | succ depth ih =>
      rw [verify, if_neg (hseen current (MemoryStore.mem_ancestors_self hcurrent))]
      refine ensures_get fun t ht => ?_
      obtain ⟨node, hget, hfind⟩ := MemoryStore.get_of_contains (ht.contains hcurrent)
      obtain ⟨hmem, hid⟩ := MemoryStore.mem_of_find? hfind
      rw [hget]
      dsimp only
      rw [if_neg (not_not.mpr (ht.named hnamed node hmem))]
      cases hparent : node.parent with
      | none => exact fun _ _ => rfl
      | some parent =>
          have hedge : (current, some parent) ∈ t.edges := by
            rw [← hid, ← hparent]
            exact List.mem_map_of_mem hmem
          have hchain : t.ancestors current = current :: t.ancestors parent :=
            Forest.chain_of_parent t.grounded hedge
          refine Program.Ensures.bind .refl ((ih (ht.named hnamed) ?_ fun id habove => ?_).mono
            fun outcome u houtcome => ?_)
          · exact MemoryStore.mem_keys_iff.mp (Forest.Grounded.parent_mem t.grounded hedge)
          · rw [List.mem_cons, not_or]
            constructor
            · rintro rfl
              exact Forest.not_mem_chain_parent t.grounded hedge habove
            · apply hseen
              rw [← ht.ancestors hcurrent, hchain]
              exact List.mem_cons_of_mem _ habove
          · rw [houtcome]
            exact fun _ _ => rfl

theorem ensures_verified (depth : ℕ) {current : String} {s : MemoryStore} (hnamed : s.Named H)
    (hcurrent : s.contains current = true) :
    Ensures H (verify H depth [] current) (fun outcome _ => outcome = .ok []) s :=
  ensures_verify hnamed hcurrent fun _ _ => List.not_mem_nil

/-! ## Putting a node -/

/-- A note below a node that is held is refused only for another node of its id. -/
theorem collides_of_put {node : Node} {s : MemoryStore} {e : PyError}
    (hid : node.id = node.expectedId H) (hroot : node.kind = .root → node.parent = none)
    (hparent : ∀ p ∈ node.parent, s.contains p = true) (h : s.put H node = .error e) :
    Collides node s := by
  by_contra hfree
  obtain ⟨after, hafter⟩ := MemoryStore.put_ok hid hroot hparent fun existing hexisting => by
    by_contra hne
    exact hfree ⟨existing, hexisting, hne⟩
  rw [hafter] at h
  cases h

/-- A node that was put is there, with the identity it has. -/
theorem held_of_put {node : Node} {s t : MemoryStore} (h : s.put H node = .ok t) :
    ∃ existing, t.find? node.id = some existing ∧ existing.identity = node.identity := by
  rcases MemoryStore.put_cases h with hadded | ⟨existing, hfind, hsame, rfl | ⟨metadata, rfl, -⟩⟩
  · exact ⟨node, hadded.find?_self, rfl⟩
  · exact ⟨existing, hfind, hsame⟩
  · refine ⟨{ existing with metadata }, ?_, hsame⟩
    rw [MemoryStore.find?_replaceMeta, hfind, Option.map_some,
      if_pos (MemoryStore.mem_of_find? hfind).2]

/-- `Runtime._put`, but for the callback -/
def putNode (H : Hashing) (mode : ReplayMode) (depth : ℕ) (node : Node) : StoreProgram Node :=
  if mode = .replay then NamedScopes.replayNodeOrMissing H depth node
  else
    .op (.contains node.id) fun (_ : Bool) =>
      .op (.put node) fun answer => (StoreProgram.orRaise answer).bind fun _ =>
        .op (.get node.id) StoreProgram.orRaise

/-- The node that comes back is the one that is held. -/
def Stored (node : Node) : Except PyError Node → MemoryStore → Prop
  | .ok stored, s => stored.id = node.id ∧ stored.identity = node.identity ∧
      Holds node stored.result s
  | .error _, s => Collides node s

end Programs

theorem plain_node_ne (identity : Identity) : Hashing.plain.node identity ≠ "" := by
  intro h
  have hlength := congrArg String.length h
  simp only [Hashing.plain, String.length_append, String.length_empty,
    Nat.add_eq_zero_iff] at hlength
  exact absurd hlength.1.2 (by decide)

end Pollard.SharedNotes
