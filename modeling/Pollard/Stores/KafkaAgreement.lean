import Pollard.Stores.Kafka

/-!
# Stores that agree

Two stores agree if they list the same nodes, up to the order of keys and with the listed
result conflicts as sets.  Agreeing stores answer every read alike, and writing to both
keeps them in agreement.
-/

namespace Pollard.Stores.Kafka

open Lib

/-! ## Nodes that show the same -/

theorem canonicalItems_eq_map (items : List Value) :
    Value.canonicalItems items = items.map Value.canonical := by
  induction items with
  | nil => rfl
  | cons item items ih => rw [Value.canonicalItems, ih, List.map_cons]

/-- Two values under `result_conflicts` that list the same conflicts. -/
def SameConflicts (a b : Option Value) : Prop :=
  a.map Value.canonical = b.map Value.canonical ∨
    ∃ as bs, a = some (.list as) ∧ b = some (.list bs) ∧
      ∀ c, c ∈ as.map Value.canonical ↔ c ∈ bs.map Value.canonical

/-- Nodes with the same identity, result and metadata, the listed conflicts as a set. -/
structure SameNode (a b : Node) : Prop where
  id : a.id = b.id
  parent : a.parent = b.parent
  kind : a.kind = b.kind
  attempt : a.attempt = b.attempt
  payload : a.payload.canonical = b.payload.canonical
  label : a.parent = none → a.payload.get? "run" = b.payload.get? "run"
  result : a.resultText = b.resultText
  metadata : ∀ key, key ≠ "result_conflicts" →
    (a.metadata.get? key).map Value.canonical = (b.metadata.get? key).map Value.canonical
  conflicts : SameConflicts (a.metadata.get? "result_conflicts")
    (b.metadata.get? "result_conflicts")

/-- Stores that list the same nodes. -/
def Agrees (a b : MemoryStore) : Prop := List.Forall₂ SameNode a.nodes b.nodes

theorem SameNode.identity {a b : Node} (h : SameNode a b) : a.identity = b.identity := by
  rw [Node.identity, Node.identity, h.attempt, h.kind, h.parent, h.payload]

theorem SameNode.expectedId {a b : Node} (h : SameNode a b) (H : Hashing) :
    a.expectedId H = b.expectedId H := by
  rw [Node.expectedId, Node.expectedId, Hashing.nodeId, Hashing.nodeId, h.attempt, h.kind,
    h.parent, h.payload]

namespace Agrees

variable {a b : MemoryStore}

theorem find? (h : Agrees a b) (id : String) :
    Option.Rel SameNode (a.find? id) (b.find? id) := by
  unfold MemoryStore.find?
  unfold Agrees at h
  generalize a.nodes = nodes at h
  generalize b.nodes = nodes' at h
  induction h with
  | nil => exact .none
  | @cons x y xs ys hxy hrest ih =>
      rw [List.find?_cons, List.find?_cons, hxy.id]
      split
      · exact .some hxy
      · exact ih

theorem find?_some (h : Agrees a b) {id : String} {x : Node} (hx : a.find? id = some x) :
    ∃ y, b.find? id = some y ∧ SameNode x y := by
  have hfind := h.find? id
  rw [hx] at hfind
  generalize b.find? id = found at hfind
  cases hfind with
  | some hsame => exact ⟨_, rfl, hsame⟩

theorem find?_none (h : Agrees a b) {id : String} (hx : a.find? id = none) :
    b.find? id = none := by
  have hfind := h.find? id
  rw [hx] at hfind
  generalize b.find? id = found at hfind
  cases hfind
  rfl

theorem contains (h : Agrees a b) (id : String) : a.contains id = b.contains id := by
  unfold MemoryStore.contains
  cases hx : a.find? id with
  | none => rw [h.find?_none hx]
  | some x =>
      obtain ⟨y, hy, -⟩ := h.find?_some hx
      rw [hy]
      rfl

/-- Replacing the metadata of a node by metadata that show the same keeps agreement. -/
theorem replaceMeta (h : Agrees a b) {id : String} {x y : Node} (hx : a.find? id = some x)
    (hy : b.find? id = some y) {m m' : Dict String Value}
    (hnode : SameNode { x with metadata := m } { y with metadata := m' }) :
    Agrees (a.replaceMeta id m) (b.replaceMeta id m') := by
  have hxs : ∀ n ∈ a.nodes, n.id = id → n = x := by
    intro n hn hid
    have hfind := MemoryStore.find?_of_mem hn
    rw [hid, hx, Option.some.injEq] at hfind
    exact hfind.symm
  have hys : ∀ n ∈ b.nodes, n.id = id → n = y := by
    intro n hn hid
    have hfind := MemoryStore.find?_of_mem hn
    rw [hid, hy, Option.some.injEq] at hfind
    exact hfind.symm
  unfold Agrees MemoryStore.replaceMeta
  unfold Agrees at h
  dsimp only
  generalize a.nodes = nodes at h hxs
  generalize b.nodes = nodes' at h hys
  induction h with
  | nil => exact .nil
  | @cons n n' ns ns' hsame hrest ih =>
      rw [List.forall_mem_cons] at hxs hys
      rw [List.map_cons, List.map_cons]
      refine .cons ?_ (ih hxs.2 hys.2)
      by_cases hid : n.id = id
      · rw [if_pos hid, if_pos (hsame.id ▸ hid), hxs.1 hid, hys.1 (hsame.id ▸ hid)]
        exact hnode
      · rw [if_neg hid, if_neg (hsame.id ▸ hid)]
        exact hsame

end Agrees

/-! ## Result conflicts -/

theorem SameConflicts.listed {x y : Node}
    (h : SameConflicts (x.metadata.get? "result_conflicts")
      (y.metadata.get? "result_conflicts")) (c : Value) :
    c ∈ (MemoryStore.resultConflicts x).map Value.canonical ↔
      c ∈ (MemoryStore.resultConflicts y).map Value.canonical := by
  unfold MemoryStore.resultConflicts
  generalize x.metadata.get? "result_conflicts" = a at h
  generalize y.metadata.get? "result_conflicts" = b at h
  rcases h with h | ⟨as, bs, rfl, rfl, h⟩
  · cases a with
    | none =>
        cases b with
        | none => rfl
        | some w => cases h
    | some v =>
        cases b with
        | none => cases h
        | some w =>
            rw [Option.map_some, Option.map_some, Option.some.injEq] at h
            cases v with
            | list as =>
                cases w with
                | list bs =>
                    rw [Value.canonical, Value.canonical, Value.list.injEq,
                      canonicalItems_eq_map, canonicalItems_eq_map] at h
                    dsimp only
                    rw [h]
                | _ => cases h
            | _ =>
                cases w with
                | list bs => cases h
                | _ => rfl
  · exact h c

/-- The conflict a result is listed as. -/
def conflictOf (H : Hashing) (result : Value) : Value :=
  .dict [("result_digest", .str (H.result result.canonical)), ("result", result)]

theorem canonical_conflictOf (H : Hashing) {result result' : Value}
    (h : result.canonical = result'.canonical) :
    (conflictOf H result).canonical = (conflictOf H result').canonical := by
  simp only [conflictOf, Value.canonical, Value.canonicalEntries, h]

/-- Listing the same conflict on both sides. -/
theorem sameConflicts_append (H : Hashing) {x y : Node}
    (h : SameConflicts (x.metadata.get? "result_conflicts")
      (y.metadata.get? "result_conflicts")) {result result' : Value}
    (hresult : result.canonical = result'.canonical) :
    SameConflicts
      (some (.list (MemoryStore.resultConflicts x ++ [conflictOf H result])))
      (some (.list (MemoryStore.resultConflicts y ++ [conflictOf H result']))) := by
  refine .inr ⟨_, _, rfl, rfl, fun c => ?_⟩
  rw [List.map_append, List.map_append, List.mem_append, List.mem_append, h.listed c,
    List.map_singleton, List.map_singleton, canonical_conflictOf H hresult]

/-- Listing a conflict again that is listed. -/
theorem sameConflicts_again (H : Hashing) {x y : Node}
    (h : SameConflicts (x.metadata.get? "result_conflicts")
      (y.metadata.get? "result_conflicts")) {result : Value}
    (hlisted : (conflictOf H result).canonical ∈
      (MemoryStore.resultConflicts y).map Value.canonical) :
    SameConflicts (x.metadata.get? "result_conflicts")
      (some (.list (MemoryStore.resultConflicts y ++ [conflictOf H result]))) := by
  have hx := (h.listed (conflictOf H result).canonical).mpr hlisted
  have hlist : ∃ cs, x.metadata.get? "result_conflicts" = some (.list cs) ∧
      MemoryStore.resultConflicts x = cs := by
    unfold MemoryStore.resultConflicts at hx ⊢
    split at hx
    · next cs hcs => exact ⟨cs, hcs, rfl⟩
    · cases hx
  obtain ⟨cs, hcs, hsame⟩ := hlist
  refine .inr ⟨cs, _, hcs, rfl, fun c => ?_⟩
  rw [← hsame, h.listed c, List.map_append, List.mem_append, List.map_singleton,
    List.mem_singleton]
  exact ⟨.inl, fun hc => hc.elim id fun hc => hc ▸ hlisted⟩

theorem SameNode.withConflicts {x y : Node} (h : SameNode x y) {v w : Value}
    (hconflicts : SameConflicts (some v) (some w)) :
    SameNode { x with metadata := x.metadata.set "result_conflicts" v }
      { y with metadata := y.metadata.set "result_conflicts" w } :=
  { h with
    metadata := fun key hkey => by
      dsimp only
      rw [Dict.get?_set_of_ne _ _ hkey.symm, Dict.get?_set_of_ne _ _ hkey.symm]
      exact h.metadata key hkey
    conflicts := by
      dsimp only
      rw [Dict.get?_set_self, Dict.get?_set_self]
      exact hconflicts }

theorem SameNode.withConflictsAgain {x y : Node} (h : SameNode x y) {w : Value}
    (hconflicts : SameConflicts (x.metadata.get? "result_conflicts") (some w)) :
    SameNode x { y with metadata := y.metadata.set "result_conflicts" w } :=
  { h with
    metadata := fun key hkey => by
      dsimp only
      rw [Dict.get?_set_of_ne _ _ hkey.symm]
      exact h.metadata key hkey
    conflicts := by
      dsimp only
      rw [Dict.get?_set_self]
      exact hconflicts }

/-! ## Putting a node -/

section Put

variable {H : Hashing} {a b a' : MemoryStore} {n m : Node}

/-- What putting a node does to a store that holds its parent. -/
inductive PutInto (H : Hashing) (store : MemoryStore) (node : Node) : MemoryStore → Prop
  | added {after : MemoryStore} (hfind : store.find? node.id = none)
      (hnodes : after.nodes = node :: store.nodes) : PutInto H store node after
  | folded (existing : Node) (hfind : store.find? node.id = some existing)
      (hidentity : existing.identity = node.identity) :
      PutInto H store node (foldResult H store existing node)

theorem handleExisting_ok {existing : Node} :
    a.handleExisting H existing n = .ok a' ↔
      existing.identity = n.identity ∧ a' = foldResult H a existing n := by
  by_cases hidentity : existing.identity = n.identity
  · have hfold : a.handleExisting H existing n = .ok (foldResult H a existing n) := by
      unfold MemoryStore.handleExisting foldResult
      rw [if_neg (not_not.mpr hidentity)]
      cases n.result with
      | none => rfl
      | some result =>
          dsimp only
          split <;> rfl
    rw [hfold, Except.ok.injEq, eq_comm]
    exact ⟨fun h => ⟨hidentity, h⟩, And.right⟩
  · unfold MemoryStore.handleExisting
    simp [hidentity]

theorem put_ok_iff : a.put H n = .ok a' ↔ validateForPut H n = .ok () ∧
    (∀ p ∈ n.parent, a.contains p = true) ∧ PutInto H a n a' := by
  unfold MemoryStore.put validateForPut
  split
  · simp
  · split
    · simp
    · split
      · next hparent =>
          simp only [true_and]
          constructor
          · intro h
            refine ⟨hparent, ?_⟩
            split at h
            · next existing hfind =>
                obtain ⟨hidentity, rfl⟩ := handleExisting_ok.mp h
                exact .folded existing hfind hidentity
            · next hfind =>
                cases h
                exact .added hfind rfl
          · rintro ⟨-, h⟩
            split
            · next existing hfind =>
                cases h with
                | added hnone => rw [hfind] at hnone; cases hnone
                | folded other hother hidentity =>
                    rw [hfind, Option.some.injEq] at hother
                    subst hother
                    exact handleExisting_ok.mpr ⟨hidentity, rfl⟩
            · next hfind =>
                cases h with
                | added hnone hnodes =>
                    obtain ⟨nodes, hgrounded⟩ := a'
                    cases hnodes
                    rfl
                | folded other hother hidentity => rw [hfind] at hother; cases hother
      · next hparent => exact ⟨fun h => (by cases h), fun h => absurd h.2.1 hparent⟩

theorem Agrees.foldResult (h : Agrees a b) (hsame : SameNode n m) {existing existing' : Node}
    (hfind : a.find? n.id = some existing) (hfind' : b.find? m.id = some existing')
    (hexisting : SameNode existing existing') :
    Agrees (foldResult H a existing n) (foldResult H b existing' m) := by
  have hresult := hsame.result
  have hstored := hexisting.result
  unfold Kafka.foldResult
  cases hn : n.result with
  | none =>
      have hm : m.result = none := by
        simpa [Node.resultText, hn] using hresult.symm
      rw [hm]
      exact h
  | some result =>
      obtain ⟨result', hm, hcanonical⟩ : ∃ result', m.result = some result' ∧
          result'.canonical = result.canonical := by
        simpa [Node.resultText, hn] using hresult.symm
      rw [hm]
      dsimp only
      rw [hresult, hstored]
      split
      · exact h
      · have hid : existing.id = n.id := (MemoryStore.mem_of_find? hfind).2
        have hid' : existing'.id = n.id := hexisting.id ▸ hid
        rw [hid, hid']
        rw [← hsame.id] at hfind'
        exact h.replaceMeta hfind hfind' (hexisting.withConflicts
          (sameConflicts_append H hexisting.conflicts hcanonical.symm))

/-- Putting nodes that show the same into stores that agree. -/
theorem Agrees.put (h : Agrees a b) (hsame : SameNode n m) (hput : a.put H n = .ok a') :
    ∃ b', b.put H m = .ok b' ∧ Agrees a' b' := by
  obtain ⟨hvalid, hparent, hinto⟩ := put_ok_iff.mp hput
  have hvalid' : validateForPut H m = .ok () := by
    unfold validateForPut at hvalid ⊢
    rw [← hsame.id, ← hsame.expectedId H, ← hsame.kind, ← hsame.parent]
    split at hvalid
    · cases hvalid
    · next hid =>
        rw [if_neg hid]
        split at hvalid
        · cases hvalid
        · next hroot => rw [if_neg hroot]
  have hparent' : ∀ p ∈ m.parent, b.contains p = true := fun p hp => by
    rw [← h.contains p]
    exact hparent p (hsame.parent ▸ hp)
  cases hinto with
  | added hfind hnodes =>
      have hfind' : b.find? m.id = none := hsame.id ▸ h.find?_none hfind
      refine ⟨⟨m :: b.nodes, MemoryStore.grounded_cons hparent' hfind'⟩,
        put_ok_iff.mpr ⟨hvalid', hparent', .added hfind' rfl⟩, ?_⟩
      rw [Agrees, hnodes]
      exact .cons hsame h
  | folded existing hfind hidentity =>
      obtain ⟨existing', hfind', hexisting⟩ := h.find?_some hfind
      rw [hsame.id] at hfind'
      refine ⟨_, put_ok_iff.mpr ⟨hvalid', hparent', .folded existing' hfind' ?_⟩,
        h.foldResult hsame hfind hfind' hexisting⟩
      rw [← hexisting.identity, ← hsame.identity, hidentity]

end Put

/-! ## Patching metadata -/

theorem get?_patched (patch metadata : Dict String Value) (key : String) :
    (patch.entries.foldl (fun m e => m.set e.1 e.2) metadata).get? key =
      (patch.get? key).or (metadata.get? key) :=
  Dict.get?_foldl_set patch.nodupKeys metadata key

theorem get?_jsonText (object : Dict String Value) (key : String) :
    (jsonText object).get? key = (object.get? key).map Value.canonical := by
  rw [jsonText, Dict.get?_sorted, Dict.get?_map]

theorem SameNode.patched {x y : Node} (h : SameNode x y) (patch : Dict String Value) :
    SameNode
      { x with
        metadata := (jsonText patch).entries.foldl (fun m e => m.set e.1 e.2) x.metadata }
      { y with metadata := patch.entries.foldl (fun m e => m.set e.1 e.2) y.metadata } :=
  { h with
    metadata := fun key hkey => by
      dsimp only
      rw [get?_patched, get?_patched, get?_jsonText]
      cases patch.get? key with
      | none => exact h.metadata key hkey
      | some v => exact congrArg some v.canonical_canonical
    conflicts := by
      dsimp only
      rw [get?_patched, get?_patched, get?_jsonText]
      cases patch.get? "result_conflicts" with
      | none => exact h.conflicts
      | some v => exact .inl (congrArg some v.canonical_canonical) }

/-- Patching a node with what the other one holds. -/
theorem SameNode.patchedAgain {x y : Node} (h : SameNode x y) {patch : Dict String Value}
    (hheld : ∀ e ∈ patch.entries,
      (x.metadata.get? e.1).map Value.canonical = some e.2.canonical) :
    SameNode x { y with
      metadata := patch.entries.foldl (fun m e => m.set e.1 e.2) y.metadata } :=
  { h with
    metadata := fun key hkey => by
      dsimp only
      rw [get?_patched]
      cases hpatch : patch.get? key with
      | none => exact h.metadata key hkey
      | some v => exact hheld (key, v) (Dict.mem_entries_iff.mpr hpatch)
    conflicts := by
      dsimp only
      rw [get?_patched]
      cases hpatch : patch.get? "result_conflicts" with
      | none => exact h.conflicts
      | some v => exact .inl (hheld ("result_conflicts", v) (Dict.mem_entries_iff.mpr hpatch)) }

/-! ## What a store shows -/

/-- Both return related values, or both raise the same. -/
def SameOutcome {α β : Type} (R : α → β → Prop) : Except PyError α → Except PyError β → Prop
  | .ok a, .ok b => R a b
  | .error e, .error e' => e = e'
  | _, _ => False

/-- Stores that answer every read alike. -/
structure ShowsSame (a b : MemoryStore) : Prop where
  get : ∀ id, SameOutcome SameNode (a.get id) (b.get id)
  children : ∀ id, a.children id = b.children id
  walk : ∀ rootId, SameOutcome (List.Forall₂ SameNode) (a.walk rootId) (b.walk rootId)
  roots : ∀ str, a.roots str = b.roots str

theorem sorted_ids {as bs : List Node} (h : List.Forall₂ SameNode as bs) {p q : Node → Bool}
    {key key' : Node → String} (hselect : ∀ a b, SameNode a b → p a = q b)
    (hkey : ∀ a b, SameNode a b → p a = true → key a = key' b) :
    ((as.filter p).insertionSort fun a b => PairLE (key a, a.id) (key b, b.id)).map Node.id =
      ((bs.filter q).insertionSort fun a b => PairLE (key' a, a.id) (key' b, b.id)).map
        Node.id := by
  have hpairs : (as.filter p).map (fun a => (key a, a.id)) =
      (bs.filter q).map fun b => (key' b, b.id) := by
    induction h with
    | nil => rfl
    | @cons a b as bs hab hrest ih =>
        rw [List.filter_cons, List.filter_cons, hselect a b hab]
        split
        · next hq => rw [List.map_cons, List.map_cons, ih, hab.id, hkey a b hab
            ((hselect a b hab).trans hq)]
        · exact ih
  have hsort : ∀ (l : List Node) (k : Node → String),
      (l.insertionSort fun a b => PairLE (k a, a.id) (k b, b.id)).map Node.id =
        ((l.map fun a => (k a, a.id)).insertionSort PairLE).map Prod.snd := by
    intro l k
    rw [← List.map_insertionSort (fun a b : Node => PairLE (k a, a.id) (k b, b.id)) PairLE
      (fun a => (k a, a.id)) l fun _ _ _ _ => Iff.rfl, List.map_map]
    rfl
  rw [hsort, hsort, hpairs]

theorem Agrees.shows {a b : MemoryStore} (h : Agrees a b) : ShowsSame a b := by
  have hget : ∀ id, SameOutcome SameNode (a.get id) (b.get id) := by
    intro id
    unfold MemoryStore.get
    cases hx : a.find? id with
    | none =>
        rw [h.find?_none hx]
        rfl
    | some x =>
        obtain ⟨y, hy, hsame⟩ := h.find?_some hx
        rw [hy]
        exact hsame
  have hchildren : ∀ id, a.children id = b.children id := fun id =>
    sorted_ids h (fun x y hxy => by rw [hxy.parent]) fun x y hxy _ => by rw [hxy.kind]
  refine ⟨hget, hchildren, fun rootId => ?_, fun str => ?_⟩
  · have hwalk : Forest.walk a.children (a.nodes.length + 1) [rootId] =
        Forest.walk b.children (b.nodes.length + 1) [rootId] := by
      rw [funext hchildren, List.Forall₂.length_eq h]
    unfold MemoryStore.walk
    rw [hwalk]
    generalize Forest.walk b.children (b.nodes.length + 1) [rootId] = ids
    induction ids with
    | nil => exact .nil
    | cons id ids ih =>
        have hid := hget id
        rw [List.mapM_cons, List.mapM_cons]
        generalize a.get id = x at hid
        generalize b.get id = y at hid
        generalize ids.mapM a.get = xs at ih
        generalize ids.mapM b.get = ys at ih
        cases x with
        | error e =>
            cases y with
            | error e' => exact hid
            | ok y => exact hid.elim
        | ok x =>
            cases y with
            | error e => exact hid.elim
            | ok y =>
                cases xs with
                | error e =>
                    cases ys with
                    | error e' => exact ih
                    | ok ys => exact ih.elim
                | ok xs =>
                    cases ys with
                    | error e => exact ih.elim
                    | ok ys => exact .cons hid ih
  · refine sorted_ids h (fun x y hxy => by rw [hxy.parent]) fun x y hxy hroot => ?_
    rw [hxy.label (of_decide_eq_true hroot)]

end Pollard.Stores.Kafka
