import Pollard.Tree
import Pollard.Lib.Forest

/-!
# The in-memory store

The nodes are listed newest first; a node is stored after its parent, so a store
always holds a forest.
-/

namespace Pollard

open Lib

def Node.edge (node : Node) : String × Option String := (node.id, node.parent)

/-- `_validate_for_put` -/
def validateForPut (H : Hashing) (node : Node) : Except PyError Unit :=
  if node.id ≠ node.expectedId H then
    .error (.integrityError s!"node id does not match identity fields: {node.id}")
  else if node.kind = .root ∧ node.parent ≠ none then
    .error (.integrityError "root node cannot have a parent")
  else .ok ()

structure MemoryStore where
  nodes : List Node
  grounded : Forest.Grounded (nodes.map Node.edge)
deriving DecidableEq

namespace MemoryStore

def empty : MemoryStore := ⟨[], trivial⟩

def edges (store : MemoryStore) : Forest.Edges String := store.nodes.map Node.edge

def find? (store : MemoryStore) (id : String) : Option Node :=
  store.nodes.find? fun node => node.id = id

/-- `exists` -/
def contains (store : MemoryStore) (id : String) : Bool := (store.find? id).isSome

def get (store : MemoryStore) (id : String) : Except PyError Node :=
  match store.find? id with
  | some node => .ok node
  | none => .error (.keyError id)

def children (store : MemoryStore) (id : String) : List String :=
  ((store.nodes.filter fun node => node.parent = some id).insertionSort fun a b =>
    PairLE (a.kind.value, a.id) (b.kind.value, b.id)).map Node.id

def walk (store : MemoryStore) (rootId : String) : Except PyError (List Node) :=
  (Forest.walk store.children (store.nodes.length + 1) [rootId]).mapM store.get

/-- `roots`, given what `str` makes of a label. -/
def roots (str : Value → String) (store : MemoryStore) : List String :=
  let label := fun node : Node => str ((node.payload.get? "run").getD (.str ""))
  ((store.nodes.filter fun node => node.parent = none).insertionSort fun a b =>
    PairLE (label a, a.id) (label b, b.id)).map Node.id

/-- The ids from a node up to its root. -/
def ancestors (store : MemoryStore) (id : String) : List String :=
  Forest.chain store.edges id

/-- `_depth` -/
def depth (store : MemoryStore) (id : String) : Except PyError ℕ :=
  (store.get id).map fun _ => (store.ancestors id).length - 1

/-! ## Writing -/

theorem map_edge_replace (nodes : List Node) (id : String) (metadata : Dict String Value) :
    (nodes.map fun node => if node.id = id then { node with metadata } else node).map
      Node.edge = nodes.map Node.edge := by
  rw [List.map_map]
  apply List.map_congr_left
  intro node _
  rw [Function.comp_apply]
  split <;> rfl

/-- The store with another metadata for one node. -/
def replaceMeta (store : MemoryStore) (id : String) (metadata : Dict String Value) :
    MemoryStore :=
  ⟨store.nodes.map fun node => if node.id = id then { node with metadata } else node, by
    rw [map_edge_replace]
    exact store.grounded⟩

/-- `update_meta` -/
def updateMeta (store : MemoryStore) (id : String) (patch : Dict String Value) :
    Except PyError MemoryStore :=
  (store.get id).map fun node =>
    store.replaceMeta id (patch.entries.foldl (fun m e => m.set e.1 e.2) node.metadata)

/-- The conflicts a node already lists. -/
def resultConflicts (node : Node) : List Value :=
  match node.metadata.get? "result_conflicts" with
  | some (.list conflicts) => conflicts
  | _ => []

/-- `_handle_existing` -/
def handleExisting (H : Hashing) (store : MemoryStore) (existing incoming : Node) :
    Except PyError MemoryStore :=
  if existing.identity ≠ incoming.identity then
    .error (.integrityError s!"node id collision for {incoming.id}")
  else
    match incoming.result with
    | none => .ok store
    | some result =>
        if incoming.resultText = existing.resultText then .ok store
        else
          let conflict := Value.dict
            [("result_digest", .str (H.result result.canonical)), ("result", result)]
          .ok (store.replaceMeta existing.id (existing.metadata.set "result_conflicts"
            (.list (resultConflicts existing ++ [conflict]))))

theorem find?_eq_none_iff {store : MemoryStore} {id : String} :
    store.find? id = none ↔ id ∉ Forest.keys store.edges := by
  simp [find?, Forest.keys, edges, Node.edge, Function.comp_def]

theorem mem_keys_iff {store : MemoryStore} {id : String} :
    id ∈ Forest.keys store.edges ↔ store.contains id = true := by
  rw [contains, Option.isSome_iff_ne_none, ne_eq, find?_eq_none_iff, not_not]

theorem grounded_cons {store : MemoryStore} {node : Node}
    (hparent : ∀ p ∈ node.parent, store.contains p = true)
    (hfind : store.find? node.id = none) :
    Forest.Grounded ((node :: store.nodes).map Node.edge) :=
  ⟨find?_eq_none_iff.mp hfind, fun p hp => mem_keys_iff.mpr (hparent p hp), store.grounded⟩

def put (H : Hashing) (store : MemoryStore) (node : Node) : Except PyError MemoryStore :=
  if node.id ≠ node.expectedId H then
    .error (.integrityError s!"node id does not match identity fields: {node.id}")
  else if node.kind = .root ∧ node.parent ≠ none then
    .error (.integrityError "root node cannot have a parent")
  else if hparent : ∀ p ∈ node.parent, store.contains p = true then
    match hfind : store.find? node.id with
    | some existing => store.handleExisting H existing node
    | none => .ok ⟨node :: store.nodes, grounded_cons hparent hfind⟩
  else .error (.keyError (node.parent.getD ""))

/-! ## What a write does -/

@[simp] theorem edges_replaceMeta (store : MemoryStore) (id : String)
    (metadata : Dict String Value) : (store.replaceMeta id metadata).edges = store.edges :=
  map_edge_replace store.nodes id metadata

@[simp] theorem ancestors_replaceMeta (store : MemoryStore) (id : String)
    (metadata : Dict String Value) (other : String) :
    (store.replaceMeta id metadata).ancestors other = store.ancestors other := by
  rw [ancestors, edges_replaceMeta, ancestors]

@[simp] theorem contains_replaceMeta (store : MemoryStore) (id : String)
    (metadata : Dict String Value) (other : String) :
    (store.replaceMeta id metadata).contains other = store.contains other := by
  rw [Bool.eq_iff_iff, ← mem_keys_iff, ← mem_keys_iff, edges_replaceMeta]

theorem mem_of_find? {store : MemoryStore} {id : String} {node : Node}
    (h : store.find? id = some node) : node ∈ store.nodes ∧ node.id = id :=
  ⟨List.mem_of_find?_eq_some h, by simpa using List.find?_some h⟩

theorem find?_of_mem {store : MemoryStore} {node : Node} (h : node ∈ store.nodes) :
    store.find? node.id = some node := by
  have hnodup : (store.nodes.map Node.id).Nodup := by
    have := store.grounded.nodup
    rwa [Forest.keys, List.map_map] at this
  unfold find?
  generalize store.nodes = nodes at h hnodup
  induction nodes with
  | nil => simp at h
  | cons first rest ih =>
      rw [List.map_cons, List.nodup_cons] at hnodup
      rcases List.mem_cons.mp h with rfl | h
      · simp
      · have hne : first.id ≠ node.id := fun heq => hnodup.1 (heq ▸ List.mem_map_of_mem h)
        rw [List.find?_cons_of_neg (by simpa using hne)]
        exact ih h hnodup.2

/-- No node is its own parent. -/
theorem parent_ne {store : MemoryStore} {node : Node} (h : node ∈ store.nodes) :
    node.parent ≠ some node.id := by
  have hgrounded := store.grounded
  generalize store.nodes = nodes at h hgrounded
  induction nodes with
  | nil => cases h
  | cons first rest ih =>
      obtain ⟨hfresh, hparent, hrest⟩ := hgrounded
      rcases List.mem_cons.mp h with rfl | h
      · exact fun hself => hfresh (hparent node.id hself)
      · exact ih h hrest

theorem contains_of_find? {store : MemoryStore} {id : String} {node : Node}
    (h : store.find? id = some node) : store.contains id = true := by
  rw [contains, h, Option.isSome_some]

theorem get_of_contains {store : MemoryStore} {id : String} (h : store.contains id = true) :
    ∃ node, store.get id = .ok node ∧ store.find? id = some node := by
  obtain ⟨node, hnode⟩ := Option.isSome_iff_exists.mp h
  exact ⟨node, by rw [get, hnode], hnode⟩

theorem mem_ancestors_self {store : MemoryStore} {id : String}
    (h : store.contains id = true) : id ∈ store.ancestors id :=
  Forest.mem_chain_self (mem_keys_iff.mpr h)

theorem contains_of_mem_ancestors {store : MemoryStore} {id other : String}
    (h : other ∈ store.ancestors id) : store.contains other = true :=
  mem_keys_iff.mp (Forest.mem_keys_of_mem_chain h)

/-- A store that got one more node, below one it held. -/
def Added (store : MemoryStore) (node : Node) (after : MemoryStore) : Prop :=
  store.find? node.id = none ∧ (∀ p ∈ node.parent, store.contains p = true) ∧
    after.nodes = node :: store.nodes

/-- A store whose node of an id got other metadata, the same but for its conflicts. -/
def Folded (store : MemoryStore) (node : Node) (after : MemoryStore) : Prop :=
  ∃ existing, store.find? node.id = some existing ∧ existing.identity = node.identity ∧
    (after = store ∨ ∃ metadata, after = store.replaceMeta node.id metadata ∧
      ∀ key, key ≠ "result_conflicts" → metadata.get? key = existing.metadata.get? key)

theorem put_cases {H : Hashing} {store after : MemoryStore} {node : Node}
    (h : store.put H node = .ok after) :
    store.Added node after ∨ store.Folded node after := by
  unfold put at h
  split at h
  · cases h
  · split at h
    · cases h
    · split at h
      · next hparent =>
          split at h
          · next existing hfind =>
              right
              unfold handleExisting at h
              split at h
              · cases h
              · next hsame =>
                  refine ⟨existing, hfind, not_not.mp hsame, ?_⟩
                  split at h
                  · cases h
                    exact .inl rfl
                  · split at h
                    · cases h
                      exact .inl rfl
                    · cases h
                      right
                      rw [(mem_of_find? hfind).2]
                      exact ⟨_, rfl, fun key hkey => Dict.get?_set_of_ne _ _ hkey.symm⟩
          · next hfind =>
              cases h
              exact .inl ⟨hfind, hparent, rfl⟩
      · cases h

/-- A well-named node below a stored one is stored, unless its id collides. -/
theorem put_ok {H : Hashing} {store : MemoryStore} {node : Node}
    (hid : node.id = node.expectedId H) (hroot : node.kind = .root → node.parent = none)
    (hparent : ∀ p ∈ node.parent, store.contains p = true)
    (hsame : ∀ existing ∈ store.find? node.id, existing.identity = node.identity) :
    ∃ after, store.put H node = .ok after := by
  unfold put
  rw [if_neg (not_not.mpr hid), if_neg (fun h => h.2 (hroot h.1)), dif_pos hparent]
  split
  · next existing hfind =>
      unfold handleExisting
      rw [if_neg (not_not.mpr (hsame existing hfind))]
      split
      · exact ⟨_, rfl⟩
      · split
        · exact ⟨_, rfl⟩
        · exact ⟨_, rfl⟩
  · exact ⟨_, rfl⟩

/-- A node without a result is stored, or it is there. -/
theorem put_without_result {H : Hashing} {store after : MemoryStore} {node : Node}
    (hresult : node.result = none) (h : store.put H node = .ok after) :
    store.Added node after ∨
      after = store ∧ ∃ existing ∈ store.find? node.id, existing.identity = node.identity := by
  unfold put at h
  split at h
  · cases h
  · split at h
    · cases h
    · split at h
      · next hparent =>
          split at h
          · next existing hfind =>
              unfold handleExisting at h
              split at h
              · cases h
              · next hsame =>
                  rw [hresult] at h
                  cases h
                  exact .inr ⟨rfl, existing, hfind, not_not.mp hsame⟩
          · next hfind =>
              cases h
              exact .inl ⟨hfind, hparent, rfl⟩
      · cases h

/-- No digest is empty, and no stored node shares its id with another identity. -/
structure CollisionFree (H : Hashing) (store : MemoryStore) : Prop where
  nonempty : ∀ identity, H.node identity ≠ ""
  unique : ∀ node ∈ store.nodes, ∀ identity, H.node identity = node.id → identity = node.identity

/-- A well-named node is no collision. -/
theorem CollisionFree.same {H : Hashing} {store : MemoryStore} {node : Node}
    (h : store.CollisionFree H) (hid : node.id = node.expectedId H) :
    ∀ existing ∈ store.find? node.id, existing.identity = node.identity := by
  intro existing hexisting
  obtain ⟨hmem, hsame⟩ := mem_of_find? hexisting
  exact (h.unique existing hmem node.identity (hsame ▸ hid.symm)).symm

section Added

variable {store after : MemoryStore} {node : Node}

theorem Added.edges (h : store.Added node after) : after.edges = node.edge :: store.edges := by
  rw [MemoryStore.edges, h.2.2, List.map_cons, MemoryStore.edges]

theorem Added.contains (h : store.Added node after) (id : String) :
    after.contains id = true ↔ id = node.id ∨ store.contains id = true := by
  rw [← mem_keys_iff, ← mem_keys_iff, h.edges]
  simp [Forest.keys, Node.edge]

theorem Added.ancestors_of_contains (h : store.Added node after) {id : String}
    (hid : store.contains id = true) : after.ancestors id = store.ancestors id := by
  rw [MemoryStore.ancestors, h.edges]
  exact Forest.chain_cons_of_mem (find?_eq_none_iff.mp h.1) (mem_keys_iff.mpr hid)

theorem Added.ancestors_self (h : store.Added node after) {p : String}
    (hp : node.parent = some p) : after.ancestors node.id = node.id :: store.ancestors p := by
  rw [MemoryStore.ancestors, h.edges, Node.edge, hp, Forest.chain_cons_self]
  rfl

theorem Added.find?_self (h : store.Added node after) : after.find? node.id = some node := by
  rw [find?, h.2.2, List.find?_cons_of_pos (by simp)]

theorem Added.find?_of_ne (h : store.Added node after) {id : String} (hne : id ≠ node.id) :
    after.find? id = store.find? id := by
  rw [find?, h.2.2, List.find?_cons_of_neg (by simpa using hne.symm), find?]

end Added

theorem find?_replaceMeta (store : MemoryStore) (id : String) (metadata : Dict String Value)
    (other : String) :
    (store.replaceMeta id metadata).find? other =
      (store.find? other).map fun node => if node.id = id then { node with metadata } else node := by
  unfold find? replaceMeta
  dsimp only
  induction store.nodes with
  | nil => rfl
  | cons node nodes ih =>
      rw [List.map_cons]
      by_cases hid : node.id = other
      · rw [List.find?_cons_of_pos, List.find?_cons_of_pos]
        · rfl
        · simpa using hid
        · split <;> simpa using hid
      · rw [List.find?_cons_of_neg, List.find?_cons_of_neg, ih]
        · simpa using hid
        · split <;> simpa using hid

/-! ## Walks -/

/-- The nodes at or below an anchor. -/
def subtree (store : MemoryStore) (anchor : String) : List Node :=
  store.nodes.filter fun node => anchor ∈ store.ancestors node.id

theorem children_perm (store : MemoryStore) (id : String) :
    (store.children id).Perm (Forest.childrenOf store.edges id) := by
  have hfilter : Forest.childrenOf store.edges id =
      (store.nodes.filter fun node => node.parent = some id).map Node.id := by
    rw [Forest.childrenOf, edges, List.filter_map, List.map_map]
    rfl
  rw [hfilter]
  exact (List.perm_insertionSort _ _).map _

theorem mapM_get {store : MemoryStore} {ids : List String}
    (h : ∀ id ∈ ids, store.contains id = true) :
    ids.mapM store.get = .ok (ids.filterMap store.find?) := by
  induction ids with
  | nil => rfl
  | cons id ids ih =>
      obtain ⟨node, hget, hfind⟩ := get_of_contains (h id List.mem_cons_self)
      rw [List.mapM_cons, hget, ih fun other ho => h other (List.mem_cons_of_mem _ ho),
        List.filterMap_cons_some hfind]
      rfl

/-- A walk from a stored node visits its subtree. -/
theorem walk_subtree {store : MemoryStore} {anchor : String}
    (h : store.contains anchor = true) :
    ∃ nodes, store.walk anchor = .ok nodes ∧ nodes.Perm (store.subtree anchor) := by
  have hids : (Forest.walk store.children (store.nodes.length + 1) [anchor]).Perm
      ((store.subtree anchor).map Node.id) := by
    have hbelow : Forest.below store.edges anchor = (store.subtree anchor).map Node.id := by
      rw [Forest.below, Forest.keys, edges, List.map_map, List.filter_map, subtree]
      rfl
    rw [← hbelow]
    exact Forest.walk_below store.grounded store.children_perm (mem_keys_iff.mpr h)
      (by simp)
  have hnodes : ((store.subtree anchor).map Node.id).filterMap store.find? =
      store.subtree anchor := by
    rw [List.filterMap_map]
    have hfind : ∀ node ∈ store.subtree anchor, (store.find? ∘ Node.id) node = some node :=
      fun node hnode => find?_of_mem (List.mem_filter.mp hnode).1
    rw [List.filterMap_congr hfind, List.filterMap_some]
  refine ⟨_, mapM_get ?_, ?_⟩
  · intro id hid
    obtain ⟨node, hnode, rfl⟩ := List.mem_map.mp (hids.mem_iff.mp hid)
    exact contains_of_find? (find?_of_mem (List.mem_filter.mp hnode).1)
  · rw [← hnodes]
    exact hids.filterMap _

theorem walk_of_not_contains {store : MemoryStore} {anchor : String}
    (h : store.contains anchor = false) : ∃ e, store.walk anchor = .error e := by
  have hget : store.get anchor = .error (.keyError anchor) := by
    rw [contains, Option.isSome_eq_false_iff, Option.isNone_iff_eq_none] at h
    rw [get, h]
  refine ⟨.keyError anchor, ?_⟩
  rw [walk, Forest.walk, List.mapM_cons, hget]
  rfl

end MemoryStore

end Pollard
