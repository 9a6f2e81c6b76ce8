import Pollard.Rust.Memory

/-!
# The nodes of the transactional key-value store in Rust

The bucket of nodes.  A document is held as the record its text spells, and a transaction runs
as one step.
-/

namespace Pollard.Rust

open Lib Fallible

/-- The bucket `nodes` of `TransactionalKvStore`. -/
structure KvNodes where
  documents : Dict String Record

namespace KvNodes

def empty : KvNodes := ⟨∅⟩

section Library

variable (lib : Library)

/-- `node_from_text`, whose errors are all of integrity. -/
def nodeFromText (record : Record) : Except Error Node :=
  (Node.fromStorage lib record).mapError fun error =>
    match error with
    | .invalid message => .integrity message
    | .integrity message => .integrity message
    | .notFound id => .integrity id

/-- `get` -/
def get (s : KvNodes) (id : String) : Except Error Node :=
  match s.documents.get? id with
  | some record => nodeFromText lib record
  | none => .error (.notFound id)

def tryExists (s : KvNodes) (id : String) : Except Error Bool := .ok (s.documents.contains id)

/-- `tx.put` of `node_text` -/
def write (s : KvNodes) (node : Node) : Except Error KvNodes := do
  let record ← node.record lib
  return ⟨s.documents.set node.id record⟩

/-- `put_node` of a node whose id the store has. -/
def putExisting (s : KvNodes) (existing node : Node) : Except Error KvNodes := do
  ensure (existing.sameIdentity node) putCollision
  if existing.differs node then
    match existing.conflicts with
    | none => .error (.integrity "invalid conflict metadata")
    | some conflicts =>
        if conflicts.any fun conflict => conflict.resultValuesEqual lib node.conflict then .ok s
        else s.write lib (existing.withConflicts (conflicts ++ [node.conflict]))
  else .ok s

/-- `put_node` -/
def put (s : KvNodes) (node : Node) : Except Error KvNodes := do
  node.validate lib
  node.checkParent s.documents.contains
  match s.documents.get? node.id with
  | none => s.write lib node
  | some record => do
      let existing ← nodeFromText lib record
      s.putExisting lib existing node

/-- `patch_node` -/
def updateMeta (s : KvNodes) (id : String) (patch : Json) : Except Error KvNodes :=
  match patch with
  | .object patch => do
      let node ← s.get lib id
      let patched := { node with metadata := node.metadata.extend patch }
      patched.metadata.validateFiniteJson lib
      let record ← patched.record lib
      return ⟨s.documents.set id record⟩
  | _ => .error (.invalid "metadata patch must be an object")

/-- `apply_batch`, in one transaction. -/
def applyBatch (s : KvNodes) (nodes : List Node) (patches : List (String × Json)) :
    Except Error KvNodes := do
  let staged ← nodes.foldlM (fun s node => s.put lib node) s
  patches.foldlM (fun s patch => s.updateMeta lib patch.1 patch.2) staged

theorem get_ok_iff {lib : Library} {s : KvNodes} {id : String} {node : Node} :
    s.get lib id = .ok node ↔
      ∃ record, s.documents.get? id = some record ∧ nodeFromText lib record = .ok node := by
  unfold KvNodes.get
  cases s.documents.get? id <;> simp

end Library

/-- `drop_nodes`, which asks nothing of the children. -/
def dropNodes (s : KvNodes) (ids : List String) : KvNodes :=
  ⟨ids.foldl (fun documents id => documents.erase id) s.documents⟩

end KvNodes

end Pollard.Rust
