import Pollard.Rust.Nodes

/-!
# The memory store in Rust

`MemoryStore`, whose nodes every other store of the crate keeps in its own way.
-/

namespace Pollard.Rust

open Lib Fallible

/-- What two nodes of one id disagree on, as their metadata records it. -/
def Node.conflict (node : Node) : Json :=
  .object [("result_digest", .ofOption node.resultDigest), ("result", node.result.getD .null)]

/-- The conflicts that metadata records, if it can record any. -/
def Node.conflicts (node : Node) : Option (List Json) :=
  ((node.metadata.get? "result_conflicts").getD (.array [])).asArray

def Node.withConflicts (node : Node) (conflicts : List Json) : Node :=
  { node with metadata := node.metadata.insert "result_conflicts" (.array conflicts) }

/-- Another result of a node with this one's id. -/
def Node.differs (existing node : Node) : Bool :=
  node.resultText.isSome ∧ node.resultText ≠ existing.resultText

/-- The check of every `put` that the parent is there. -/
def Node.checkParent (has : String → Bool) (node : Node) : Except Error Unit :=
  match node.parent with
  | none => .ok ()
  | some parent => ensure (has parent) (.notFound parent)

/-- The error of `put` on two identities with one id. -/
def putCollision : Error := .integrity "node identity collision"

theorem Node.checkParent_ok_iff {has : String → Bool} {node : Node} :
    node.checkParent has = .ok () ↔ ∀ parent, node.parent = some parent → has parent = true := by
  unfold checkParent
  split
  · next hnone => exact iff_of_true rfl fun parent h => (by cases hnone.symm.trans h)
  · next parent hsome =>
      rw [ensure_ok_iff]
      constructor
      · intro h parent' hparent
        rw [← Option.some.inj (hsome.symm.trans hparent)]
        exact h
      · exact fun h => h parent hsome

theorem Node.checkParent_error {has : String → Bool} {node : Node} {error : Error}
    (h : node.checkParent has = .error error) :
    ∃ parent, node.parent = some parent ∧ error = .notFound parent := by
  unfold checkParent at h
  split at h
  · cases h
  · next parent hsome => exact ⟨parent, hsome, (ensure_eq h).2.symm⟩

/-- `MemoryStore` -/
structure MemoryStore where
  nodes : Dict String Node
  pending : List String
  childIndex : Dict String (List (String × String))
  revision : ℕ

namespace MemoryStore

def empty : MemoryStore := ⟨∅, [], ∅, 0⟩

def exists? (s : MemoryStore) (id : String) : Bool := s.nodes.contains id

def get (s : MemoryStore) (id : String) : Except Error Node :=
  match s.nodes.get? id with
  | some node => .ok node
  | none => .error (.notFound id)

theorem get_ok_iff {s : MemoryStore} {id : String} {node : Node} :
    s.get id = .ok node ↔ s.nodes.get? id = some node := by
  unfold get
  cases s.nodes.get? id <;> simp

/-- The ids of the children of a node by their kinds and ids. -/
def children (s : MemoryStore) (id : String) : List String :=
  ((s.childIndex.getD id []).insertionSort fun a b => PairLE a b).map Prod.snd

def runOf (node : Node) : String := ((node.payload.get? "run").bind Json.asStr).getD ""

def roots (s : MemoryStore) : List String :=
  ((s.nodes.values.filter fun node => node.parent.isNone).map fun node =>
    (runOf node, node.id)).insertionSort (fun a b => PairLE a b) |>.map Prod.snd

/-- The store after `node` was inserted under a new id. -/
def inserted (s : MemoryStore) (node : Node) : MemoryStore where
  nodes := s.nodes.set node.id node
  pending :=
    if node.state = some "pending" ∧ node.resultText = none ∧ node.id ∉ s.pending then
      node.id :: s.pending
    else s.pending
  childIndex :=
    match node.parent with
    | none => s.childIndex
    | some parent =>
        let siblings := s.childIndex.getD parent []
        if (node.kind.value, node.id) ∈ siblings then s.childIndex
        else s.childIndex.set parent ((node.kind.value, node.id) :: siblings)
  revision := s.revision + 1

/-- The store with another node under an id it has. -/
def replaced (s : MemoryStore) (node : Node) : MemoryStore :=
  { s with nodes := s.nodes.set node.id node, revision := s.revision + 1 }

section Library

variable (lib : Library)

/-- `put` of a node whose id the store has. -/
def putExisting (s : MemoryStore) (existing node : Node) : Except Error MemoryStore := do
  ensure (existing.sameIdentity node) putCollision
  if existing.differs node then
    match existing.conflicts with
    | none => .error (.integrity "invalid result_conflicts metadata")
    | some conflicts => .ok (s.replaced (existing.withConflicts (conflicts ++ [node.conflict])))
  else .ok s

/-- `put` -/
def put (s : MemoryStore) (node : Node) : Except Error MemoryStore := do
  node.validate lib
  node.checkParent s.exists?
  match s.nodes.get? node.id with
  | none => .ok (s.inserted node)
  | some existing => s.putExisting existing node

/-- `update_meta` -/
def updateMeta (s : MemoryStore) (id : String) (patch : Json) : Except Error MemoryStore :=
  match patch with
  | .object patch =>
      match s.nodes.get? id with
      | none => .error (.notFound id)
      | some node => .ok (s.replaced { node with metadata := node.metadata.extend patch })
  | _ => .error (.invalid "meta patch must be object")

/-- `apply_batch` -/
def applyBatch (s : MemoryStore) (nodes : List Node) (patches : List (String × Json)) :
    Except Error MemoryStore := do
  let staged ← nodes.foldlM (fun s node => s.put lib node) s
  patches.foldlM (fun s patch => s.updateMeta patch.1 patch.2) staged

/-- `drop_nodes` -/
def dropNodes (s : MemoryStore) (ids : List String) : Except Error MemoryStore := do
  ensure (¬ ∃ node ∈ s.nodes.values, node.id ∉ ids ∧ node.parent.any fun p => p ∈ ids)
    (.integrity "garbage collection would orphan a child")
  return {
    nodes := s.nodes.filter fun e => e.1 ∉ ids
    pending := s.pending.filter fun id => id ∉ ids
    childIndex := (s.childIndex.filter fun e => e.1 ∉ ids).map fun children =>
      children.filter fun child => child.2 ∉ ids
    revision := s.revision + 1 }

/-- `finalize` -/
def finalize (s : MemoryStore) (node : Node) : Except Error MemoryStore := do
  node.validate lib
  let old ← s.get node.id
  ensure (node.id ∈ s.pending ∧ old.state = some "pending" ∧ old.resultText = none ∧
      old.sameIdentity node)
    (.integrity "only the same pending identity may be finalized")
  ensure (node.state.getD "" ∈ ["completed", "failed"])
    (.integrity "finalized state must be completed or failed")
  return { s.replaced node with pending := s.pending.filter fun id => id ≠ node.id }

end Library

/-- The nodes that `walk` visits from these ids on, of which it has seen some. -/
def walkFrom (s : MemoryStore) : ℕ → List String → List String → Except Error (List Node)
  | _, [], _ => .ok []
  | 0, id :: _, _ => .error (.notFound id)
  | fuel + 1, id :: pending, seen => do
      ensure (id ∉ seen) (.integrity "cycle or duplicate in store traversal")
      let node ← s.get id
      let rest ← s.walkFrom fuel (s.children id ++ pending) (id :: seen)
      return node :: rest

/-- `walk`; it sees no more nodes than there are. -/
def walk (s : MemoryStore) (root : String) : Except Error (List Node) :=
  s.walkFrom (s.nodes.entries.length + 1) [root] []

end MemoryStore

end Pollard.Rust
