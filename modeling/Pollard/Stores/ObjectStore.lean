import Pollard.Stores.ObjectNodes
import Pollard.Store

/-!
# Stored nodes with any metadata

What `MemoryStore` and `HashRopeStore` do with their nodes: both apply a `put` and a patch of
metadata in the same way.
-/

namespace Pollard.Stores.ObjectStore

open Lib Lib.Fallible

abbrev Nodes := Dict String ObjectNode

/-! ## Reading -/

def get (nodes : Nodes) (id : String) : Except PyError ObjectNode :=
  match nodes.get? id with
  | some node => .ok node
  | none => .error (.keyError id)

/-- What `children` sorts by. -/
def sortKey (nodes : Nodes) (id : String) : String × String :=
  (((nodes.get? id).map fun node => node.kind.value).getD "", id)

def hasParent (nodes : Nodes) (parent id : String) : Bool :=
  (nodes.get? id).any fun node => node.parent = some parent

def children (nodes : Nodes) (nodeId : String) : List String :=
  (nodes.keys.filter (hasParent nodes nodeId)).insertionSort fun a b =>
    PairLE (sortKey nodes a) (sortKey nodes b)

/-- The ids `walk` visits. -/
def walkIds (nodes : Nodes) (rootId : String) : List String :=
  Forest.walk (children nodes) (nodes.entries.length + 1) [rootId]

def walk (nodes : Nodes) (rootId : String) : Except PyError (List ObjectNode) :=
  (walkIds nodes rootId).mapM (get nodes)

/-! ## Writing -/

/-- `list` -/
def pyList : Obj → Except PyError (List Obj)
  | .list items => .ok items
  | .str s => .ok (s.map fun c => .str [c])
  | .dict entries => .ok ((Assoc.keys entries).map Obj.ofKey)
  | _ => .error (.typeError "object is not iterable")

def conflictsKey : Key := .str (codes "result_conflicts")

/-- A node `replace`d with other metadata. -/
def setMeta (nodes : Nodes) (nodeId : String) (node : ObjectNode) (metadata : Dict Key Obj) :
    Except PyError Nodes :=
  (ObjectNode.checkFields node.kind node.parent node.payload node.attempt metadata).map fun _ =>
    nodes.set nodeId { node with metadata }

/-- An entry of `result_conflicts`. -/
def conflict (node : ObjectNode) (result : ResultText) : Obj :=
  .dict [(.str (codes "result_digest"), node.resultDigest.elim .none fun s => .str (codes s)),
    (.str (codes "result"), result.value)]

/-- `_handle_existing`: the nodes, if they change. -/
def handleExisting (nodes : Nodes) (existing incoming : ObjectNode) :
    Except PyError (Option Nodes) :=
  if existing.identity ≠ incoming.identity then
    .error (.integrityError s!"node id collision for {incoming.id}")
  else
    match incoming.result with
    | none => .ok none
    | some result =>
        if existing.result.map ResultText.text = some result.text then .ok none
        else
          (pyList (existing.metadata.getD conflictsKey (.list []))).bind fun conflicts =>
            (setMeta nodes existing.id existing (existing.metadata.set conflictsKey
              (.list (conflicts ++ [conflict incoming result])))).map some

section Store

variable (H : Hashing) (digest : Codes → String)

/-- `_apply_put`: the nodes, if they change. -/
def applyPut (nodes : Nodes) (node : ObjectNode) : Except PyError (Option Nodes) :=
  (ObjectNode.validateForPut H digest node).bind fun _ =>
    match node.parent.filter fun p => ¬ nodes.contains p with
    | some p => .error (.keyError p)
    | none =>
        match nodes.get? node.id with
        | some existing => handleExisting nodes existing node
        | none => .ok (some (nodes.set node.id node))

/-- `_apply_meta` -/
def applyMeta (nodes : Nodes) (nodeId : String) (patch : Dict Key Obj) : Except PyError Nodes :=
  match nodes.get? nodeId with
  | none => .error (.keyError nodeId)
  | some node =>
      setMeta nodes nodeId node (patch.entries.foldl (fun m e => m.set e.1 e.2) node.metadata)

end Store

/-! ## Well-formed stores -/

/-- The ids with their parents, newest first. -/
def edges (nodes : Nodes) : Forest.Edges String :=
  nodes.entries.reverse.map fun e => (e.1, e.2.parent)

/-- Built and valid nodes under their ids, each stored after its parent. -/
structure WellFormed (H : Hashing) (digest : Codes → String) (nodes : Nodes) : Prop where
  named : ∀ {id node}, nodes.get? id = some node → node.id = id
  built : ∀ {id node}, nodes.get? id = some node → node.Built
  valid : ∀ {id node}, nodes.get? id = some node → node.validateForPut H digest = .ok ()
  grounded : Forest.Grounded (edges nodes)

theorem keys_edges (nodes : Nodes) : Forest.keys (edges nodes) = nodes.keys.reverse := by
  rw [Forest.keys, edges, List.map_map, Dict.keys, Assoc.keys, ← List.map_reverse]
  rfl

theorem mem_edges_iff {nodes : Nodes} {id : String} {parent : Option String} :
    (id, parent) ∈ edges nodes ↔ ∃ node, nodes.get? id = some node ∧ node.parent = parent := by
  rw [edges, List.mem_map]
  simp only [List.mem_reverse, Prod.exists, Prod.mk.injEq]
  constructor
  · rintro ⟨_, node, hmem, rfl, hparent⟩
    exact ⟨node, Dict.mem_entries_iff.mp hmem, hparent⟩
  · rintro ⟨node, hget, hparent⟩
    exact ⟨id, node, Dict.mem_entries_iff.mpr hget, rfl, hparent⟩

theorem mem_keys_iff {nodes : Nodes} {id : String} :
    id ∈ nodes.keys ↔ ∃ node, nodes.get? id = some node := by
  rw [← not_iff_not, ← Dict.get?_eq_none_iff, ← Option.not_isSome_iff_eq_none,
    Option.isSome_iff_exists]

theorem contains_iff {nodes : Nodes} {id : String} :
    nodes.contains id = true ↔ ∃ node, nodes.get? id = some node := by
  rw [Dict.contains, Option.isSome_iff_exists]

theorem hasParent_iff {nodes : Nodes} {parent id : String} :
    hasParent nodes parent id = true ↔
      ∃ node, nodes.get? id = some node ∧ node.parent = some parent := by
  rw [hasParent, Option.any_eq_true]
  simp

theorem mem_children_iff {nodes : Nodes} {parent id : String} :
    id ∈ children nodes parent ↔
      ∃ node, nodes.get? id = some node ∧ node.parent = some parent := by
  rw [children, List.mem_insertionSort, List.mem_filter, hasParent_iff, mem_keys_iff]
  exact ⟨And.right, fun h => ⟨⟨h.choose, h.choose_spec.1⟩, h⟩⟩

theorem children_perm (nodes : Nodes) (id : String) :
    (children nodes id).Perm (Forest.childrenOf (edges nodes) id) := by
  have hnodup : (edges nodes).Nodup := by
    have hkeys : (Forest.keys (edges nodes)).Nodup := by
      rw [keys_edges, List.nodup_reverse]
      exact nodes.nodupKeys
    exact hkeys.of_map _
  refine (List.perm_insertionSort _ _).trans ((List.perm_ext_iff_of_nodup
    (nodes.nodupKeys.filter _) ?_).mpr fun other => ?_)
  · refine List.Nodup.map_on ?_ (hnodup.filter _)
    intro a ha b hb heq
    rw [List.mem_filter, decide_eq_true_iff] at ha hb
    exact Prod.ext heq (ha.2.trans hb.2.symm)
  · rw [List.mem_filter, hasParent_iff, Forest.childrenOf, List.mem_map]
    constructor
    · rintro ⟨-, h⟩
      exact ⟨(other, some id), List.mem_filter.mpr ⟨mem_edges_iff.mpr h, by simp⟩, rfl⟩
    · rintro ⟨⟨k, p⟩, he, rfl⟩
      obtain ⟨hmem, hp⟩ := List.mem_filter.mp he
      obtain rfl := of_decide_eq_true hp
      have hnode := mem_edges_iff.mp hmem
      exact ⟨mem_keys_iff.mpr ⟨hnode.choose, hnode.choose_spec.1⟩, hnode⟩

theorem sortKey_injective {nodes : Nodes} {a b : String} (h : sortKey nodes a = sortKey nodes b) :
    a = b := congrArg Prod.snd h

/-! ### Walks -/

namespace WellFormed

variable {H : Hashing} {digest : Codes → String} {nodes : Nodes} (h : WellFormed H digest nodes)

include h

theorem walkIds_perm {rootId : String} (hroot : rootId ∈ nodes.keys) :
    (walkIds nodes rootId).Perm (Forest.below (edges nodes) rootId) := by
  refine Forest.walk_below h.grounded (children_perm nodes) ?_ ?_
  · rw [keys_edges, List.mem_reverse]
    exact hroot
  · rw [edges, List.length_map, List.length_reverse]
    exact Nat.le_succ _

theorem nodup_walkIds {rootId : String} (hroot : rootId ∈ nodes.keys) :
    (walkIds nodes rootId).Nodup :=
  (h.walkIds_perm hroot).nodup_iff.mpr (h.grounded.nodup.filter _)

/-- The walk ends. -/
theorem length_walkIds {rootId : String} (hroot : rootId ∈ nodes.keys) :
    (walkIds nodes rootId).length < nodes.entries.length + 1 := by
  rw [(h.walkIds_perm hroot).length_eq, Nat.lt_succ_iff]
  have hle := List.length_filter_le (fun y => decide (rootId ∈ Forest.chain (edges nodes) y))
    (Forest.keys (edges nodes))
  rw [Forest.below]
  refine hle.trans ?_
  rw [Forest.keys, edges, List.length_map, List.length_map, List.length_reverse]

/-- Below a visited node everything is visited. -/
theorem mem_walkIds_of_child {rootId id child : String} (hroot : rootId ∈ nodes.keys)
    (hid : id ∈ walkIds nodes rootId) (hchild : child ∈ children nodes id) :
    child ∈ walkIds nodes rootId :=
  Forest.mem_walk_of_child (h.length_walkIds hroot) hid hchild

/-- The parent of where a walk starts is not visited. -/
theorem parent_not_mem_walkIds {rootId parent : String} (hroot : rootId ∈ nodes.keys)
    (hparent : ∃ node, nodes.get? rootId = some node ∧ node.parent = some parent) :
    parent ∉ walkIds nodes rootId := by
  intro hmem
  have hbelow := (h.walkIds_perm hroot).subset hmem
  exact Forest.not_mem_chain_parent h.grounded (mem_edges_iff.mpr hparent)
    (of_decide_eq_true (List.mem_filter.mp hbelow).2)

/-- A store with the same nodes at what a walk visits, and no others below, is walked in the
same order. -/
theorem walkIds_eq {rootId : String} (hroot : rootId ∈ nodes.keys) {other : Nodes}
    (hsame : ∀ id ∈ walkIds nodes rootId, ∃ node node', nodes.get? id = some node ∧
      other.get? id = some node' ∧ node'.kind = node.kind ∧ node'.parent = node.parent)
    (hclosed : ∀ id node parent, other.get? id = some node → node.parent = some parent →
      parent ∈ walkIds nodes rootId → id ∈ walkIds nodes rootId) :
    walkIds other rootId = walkIds nodes rootId := by
  have hchildren : ∀ id ∈ walkIds nodes rootId, children nodes id = children other id := by
    intro id hid
    have hkeys : ∀ a ∈ walkIds nodes rootId, sortKey other a = sortKey nodes a := by
      intro a ha
      obtain ⟨node, node', hnode, hnode', hkind, -⟩ := hsame a ha
      rw [sortKey, sortKey, hnode, hnode', Option.map_some, Option.map_some, hkind]
    have hmem : ∀ a, a ∈ nodes.keys.filter (hasParent nodes id) ↔
        a ∈ other.keys.filter (hasParent other id) := by
      intro a
      rw [List.mem_filter, List.mem_filter, hasParent_iff, hasParent_iff, mem_keys_iff,
        mem_keys_iff]
      constructor
      · rintro ⟨-, node, hnode, hparent⟩
        have ha := h.mem_walkIds_of_child hroot hid (mem_children_iff.mpr ⟨node, hnode, hparent⟩)
        obtain ⟨node₁, node', hnode₁, hnode', -, hsameParent⟩ := hsame a ha
        obtain rfl := Option.some.inj (hnode.symm.trans hnode₁)
        exact ⟨⟨node', hnode'⟩, node', hnode', hsameParent.trans hparent⟩
      · rintro ⟨-, node', hnode', hparent⟩
        obtain ⟨node, node₁, hnode, hnode₁, -, hsameParent⟩ :=
          hsame a (hclosed a node' id hnode' hparent hid)
        obtain rfl := Option.some.inj (hnode'.symm.trans hnode₁)
        exact ⟨⟨node, hnode⟩, node, hnode, hsameParent.symm.trans hparent⟩
    have hvisited : ∀ a ∈ other.keys.filter (hasParent other id), a ∈ walkIds nodes rootId := by
      intro a ha
      have hchild := (List.mem_insertionSort (r := fun a b =>
        PairLE (sortKey nodes a) (sortKey nodes b))).mpr ((hmem a).mpr ha)
      exact h.mem_walkIds_of_child hroot hid hchild
    have hperm : (nodes.keys.filter (hasParent nodes id)).Perm
        (other.keys.filter (hasParent other id)) :=
      (List.perm_ext_iff_of_nodup (nodes.nodupKeys.filter _) (other.nodupKeys.filter _)).mpr hmem
    rw [children, children, insertionSort_eq_of_perm
      (fun a _ b _ => @sortKey_injective nodes a b) hperm]
    exact insertionSort_congr fun a ha b hb => by
      rw [hkeys a (hvisited a ha), hkeys b (hvisited b hb)]
  have hlength : (walkIds nodes rootId).length < other.entries.length + 1 := by
    have hsub : walkIds nodes rootId ⊆ other.keys := by
      intro id hid
      obtain ⟨-, node', -, hnode', -⟩ := hsame id hid
      exact mem_keys_iff.mpr ⟨node', hnode'⟩
    have hle := (List.subperm_of_subset (h.nodup_walkIds hroot) hsub).length_le
    rw [Dict.keys, Assoc.keys, List.length_map] at hle
    exact Nat.lt_succ_of_le hle
  have hwalk := Forest.walk_fuel (h.length_walkIds hroot) hlength
  have hcongr : Forest.walk (children other) (other.entries.length + 1) [rootId] =
      Forest.walk (children nodes) (other.entries.length + 1) [rootId] :=
    Forest.walk_congr fun id hid => hchildren id (by rw [walkIds, ← hwalk]; exact hid)
  exact hcongr.trans hwalk

end WellFormed

/-! ### Writes keep stores well-formed -/

section Writes

variable {H : Hashing} {digest : Codes → String} {nodes after : Nodes}

theorem wellFormed_empty : WellFormed H digest (∅ : Nodes) :=
  ⟨(nomatch ·), (nomatch ·), (nomatch ·), trivial⟩

/-- A new node below a stored one, or at the top. -/
theorem WellFormed.set_new (h : WellFormed H digest nodes) {node : ObjectNode}
    (hbuilt : node.Built) (hvalid : node.validateForPut H digest = .ok ())
    (hparent : ∀ p ∈ node.parent, nodes.contains p = true)
    (hnew : nodes.get? node.id = none) : WellFormed H digest (nodes.set node.id node) := by
  have hedges : edges (nodes.set node.id node) = (node.id, node.parent) :: edges nodes := by
    rw [edges, Dict.entries_set_of_get?_none node hnew, List.reverse_append]
    rfl
  have hcases : ∀ {id other}, (nodes.set node.id node).get? id = some other →
      id = node.id ∧ other = node ∨ nodes.get? id = some other := by
    intro id other hget
    rw [Dict.get?_set] at hget
    split at hget
    · next heq => exact .inl ⟨heq.symm, (Option.some.inj hget).symm⟩
    · exact .inr hget
  refine ⟨fun hget => ?_, fun hget => ?_, fun hget => ?_, ?_⟩
  · rcases hcases hget with ⟨rfl, rfl⟩ | hold
    · rfl
    · exact h.named hold
  · rcases hcases hget with ⟨rfl, rfl⟩ | hold
    · exact hbuilt
    · exact h.built hold
  · rcases hcases hget with ⟨rfl, rfl⟩ | hold
    · exact hvalid
    · exact h.valid hold
  · rw [hedges]
    refine ⟨?_, fun p hp => ?_, h.grounded⟩
    · rw [keys_edges, List.mem_reverse, ← Dict.get?_eq_none_iff]
      exact hnew
    · rw [keys_edges, List.mem_reverse, mem_keys_iff]
      exact contains_iff.mp (hparent p hp)

/-- Another metadata of a stored node changes no edge. -/
theorem edges_set_metadata {id : String} {node : ObjectNode} (hget : nodes.get? id = some node)
    (metadata : Dict Key Obj) :
    edges (nodes.set id { node with metadata }) = edges nodes := by
  have hparents : (nodes.set id { node with metadata }).map ObjectNode.parent =
      nodes.map ObjectNode.parent := by
    refine Dict.ext_get? ?_ fun other => ?_
    · have hkeys : ∀ d : Nodes, (d.map ObjectNode.parent).keys = d.keys := fun d => by
        rw [Dict.keys, Dict.map, Assoc.keys, List.map_map]
        rfl
      rw [hkeys, hkeys, Dict.keys_set, if_pos (mem_keys_iff.mpr ⟨node, hget⟩)]
    · rw [Dict.get?_map, Dict.get?_map, Dict.get?_set]
      split
      · next heq => rw [← heq, hget]; rfl
      · rfl
  have hentries : ∀ d : Nodes, edges d = (d.map ObjectNode.parent).entries.reverse := fun d => by
    rw [edges, Dict.map, ← List.map_reverse]
  rw [hentries, hentries, hparents]

theorem WellFormed.setMeta (h : WellFormed H digest nodes) {id : String} {node : ObjectNode}
    (hget : nodes.get? id = some node) {metadata : Dict Key Obj}
    (hset : setMeta nodes id node metadata = .ok after) : WellFormed H digest after := by
  obtain ⟨⟨⟩, hcheck, rfl⟩ := map_ok_iff.mp hset
  have hcases : ∀ {other found}, (nodes.set id { node with metadata }).get? other = some found →
      other = id ∧ found = { node with metadata } ∨ nodes.get? other = some found := by
    intro other found hfound
    rw [Dict.get?_set] at hfound
    split at hfound
    · next heq => exact .inl ⟨heq.symm, (Option.some.inj hfound).symm⟩
    · exact .inr hfound
  refine ⟨fun hfound => ?_, fun hfound => ?_, fun hfound => ?_, ?_⟩
  · rcases hcases hfound with ⟨rfl, rfl⟩ | hold
    · exact @WellFormed.named _ _ _ h _ node hget
    · exact h.named hold
  · rcases hcases hfound with ⟨rfl, rfl⟩ | hold
    · exact ⟨hcheck, (h.built hget).object⟩
    · exact h.built hold
  · rcases hcases hfound with ⟨rfl, rfl⟩ | hold
    · exact @WellFormed.valid _ _ _ h _ node hget
    · exact h.valid hold
  · rw [edges_set_metadata hget]
    exact h.grounded

theorem WellFormed.applyMeta (h : WellFormed H digest nodes) {nodeId : String}
    {patch : Dict Key Obj} (happly : applyMeta nodes nodeId patch = .ok after) :
    WellFormed H digest after := by
  rw [ObjectStore.applyMeta] at happly
  cases hget : nodes.get? nodeId with
  | none =>
      rw [hget] at happly
      cases happly
  | some node =>
      rw [hget] at happly
      exact h.setMeta hget happly

theorem WellFormed.applyPut (h : WellFormed H digest nodes) {node : ObjectNode}
    (hbuilt : node.Built) (happly : applyPut H digest nodes node = .ok (some after)) :
    WellFormed H digest after := by
  obtain ⟨⟨⟩, hvalid, hrest⟩ := bind_ok_iff.mp happly
  split at hrest
  · cases hrest
  · next hstored =>
      cases hget : nodes.get? node.id with
      | none =>
          rw [hget] at hrest
          cases hrest
          refine h.set_new hbuilt hvalid (fun p hp => ?_) hget
          have hnot := Option.filter_eq_none_iff.mp hstored p hp
          simpa using hnot
      | some existing =>
          rw [hget] at hrest
          dsimp only [handleExisting] at hrest
          split at hrest
          · cases hrest
          · split at hrest
            · cases hrest
            · split at hrest
              · cases hrest
              · obtain ⟨conflicts, -, hset⟩ := bind_ok_iff.mp hrest
                obtain ⟨nodes', hnodes, heq⟩ := map_ok_iff.mp hset
                cases heq
                rw [h.named hget] at hnodes
                exact h.setMeta hget hnodes

end Writes

end Pollard.Stores.ObjectStore
