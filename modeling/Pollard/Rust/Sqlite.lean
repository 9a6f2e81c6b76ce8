import Pollard.Rust.Memory
import Pollard.Stores.SharedSqlite

/-!
# The nodes of the SQLite store in Rust

The table of nodes over the tables of interned payloads.  The text of a node's metadata is held
as the value it spells, and a transaction runs as one step.
-/

namespace Pollard.Rust

open Lib Fallible

/-- The columns of `nodes` beside the payload and its literals. -/
structure Columns where
  parent : Option String
  kind : NodeKind
  attempt : ℕ
  result : Option String
  resultDigest : Option String
  metadata : Json

/-- `SQLiteStore`, as far as nodes go. -/
structure SqliteNodes where
  columns : Dict String Columns
  payloads : Stores.SharedSqlite.Tables

namespace SqliteNodes

def empty : SqliteNodes := ⟨∅, .empty⟩

section Library

variable (lib : Library)

/-- `get_optional` -/
def getOptional (s : SqliteNodes) (id : String) : Except Error (Option Node) :=
  match s.columns.get? id, s.payloads.rows.get? id with
  | some columns, some row => do
      let payload ← s.payloads.rustGet lib.sha row
      let node ← Node.fromStorage lib ⟨id, columns.parent, columns.kind, columns.attempt, payload,
        columns.result, columns.resultDigest, columns.metadata⟩
      return some node
  | _, _ => .ok none

/-- `get` -/
def get (s : SqliteNodes) (id : String) : Except Error Node := do
  match ← s.getOptional lib id with
  | some node => return node
  | none => .error (.notFound id)

def tryExists (s : SqliteNodes) (id : String) : Except Error Bool := .ok (s.columns.contains id)

/-- `patch_locked` -/
def updateMeta (s : SqliteNodes) (id : String) (patch : Json) : Except Error SqliteNodes :=
  match patch with
  | .object patch => do
      let node ← s.get lib id
      let _ ← encode (node.metadata.extend patch)
      match s.columns.get? id with
      | none => return s
      | some columns =>
          return { s with
            columns := s.columns.set id
              { columns with metadata := node.metadata.extend patch } }
  | _ => .error (.invalid "meta patch must be object")

/-- `put_locked` of a node whose id the store has. -/
def putExisting (s : SqliteNodes) (old node : Node) : Except Error SqliteNodes := do
  ensure (old.sameNode node) putCollision
  if old.differs node then
    match old.conflicts with
    | none => .error (.integrity "invalid result_conflicts metadata")
    | some conflicts =>
        s.updateMeta lib old.id (old.withConflicts (conflicts ++ [node.conflict])).metadata
  else .ok s

/-- `put_locked` -/
def put (settings : Stores.Interning.Settings) (s : SqliteNodes) (node : Node) :
    Except Error SqliteNodes := do
  node.validate lib
  node.checkParent s.columns.contains
  match ← s.getOptional lib node.id with
  | some old => s.putExisting lib old node
  | none => do
      let payloads ← s.payloads.rustPut lib.sha settings node.id node.payload
      let _ ← encode node.metadata
      return ⟨s.columns.set node.id ⟨node.parent, node.kind, node.attempt, node.resultText,
        node.resultDigest, node.metadata⟩, payloads⟩

/-- `apply_batch` in a transaction that is open. -/
def applyBatch (settings : Stores.Interning.Settings) (s : SqliteNodes) (nodes : List Node)
    (patches : List (String × Json)) : Except Error SqliteNodes := do
  let staged ← nodes.foldlM (fun s node => s.put lib settings node) s
  patches.foldlM (fun s patch => s.updateMeta lib patch.1 patch.2) staged

end Library

end SqliteNodes

end Pollard.Rust
