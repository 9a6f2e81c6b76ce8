import Pollard.Rust.Memory

/-!
# The hash rope store in Rust

A memory store with an append-only log.  A line of the log is held as the record its bytes
spell; staged nodes are in the memory store only.
-/

namespace Pollard.Rust

open Lib Fallible

/-- An operation of the log. -/
inductive Line where
  | put (record : Record)
  | patch (id : String) (patch : Json)

/-- `HashRopeStore` -/
structure HashRopeStore where
  inner : MemoryStore
  log : List Line
  staged : List String

namespace HashRopeStore

def new : HashRopeStore := ⟨.empty, [], []⟩

section Library

variable (lib : Library)

/-- `put_record` -/
def putRecord (node : Node) : Except Error Line := (node.record lib).map .put

/-- The value a line with a patch spells. -/
def patchRecord (id : String) (patch : Json) : Json :=
  .object [("id", .string id), ("op", .string "meta"), ("patch", patch)]

/-- One round of the loop of `from_bytes`. -/
def replayLine (inner : MemoryStore) : Line → Except Error MemoryStore
  | .put record => do
      let node ← Node.fromStorage lib record
      inner.put lib node
  | .patch id patch => do
      ensure (lib.reads (patchRecord id patch)) (.integrity "hashrope log line is not read")
      ensure patch.isObject (.integrity "invalid hashrope meta patch")
      patch.validateFiniteJson lib
      inner.updateMeta id patch

/-- `from_bytes` -/
def fromBytes (log : List Line) : Except Error HashRopeStore := do
  let inner ← log.foldlM (replayLine lib) .empty
  return ⟨inner, log, []⟩

/-- The lines `rewrite_log` writes. -/
def rewrittenLog (s : HashRopeStore) : Except Error (List Line) := do
  let lines ← s.inner.roots.mapM fun root => do
    let nodes ← s.inner.walk root
    (nodes.filter fun node => node.id ∉ s.staged).mapM (putRecord lib)
  return lines.flatten

/-- `put` -/
def put (s : HashRopeStore) (node : Node) : Except Error HashRopeStore := do
  ensure (node.id ∉ s.staged)
    (.integrity "cannot append an in-flight identity before finalization")
  let record ← putRecord lib node
  let inner ← s.inner.put lib node
  return { s with
    inner
    log := if s.inner.revision ≠ inner.revision then s.log ++ [record] else s.log }

/-- `update_meta` -/
def updateMeta (s : HashRopeStore) (id : String) (patch : Json) : Except Error HashRopeStore := do
  let spelled ← patch.spelled lib
  let inner ← s.inner.updateMeta id patch
  return { s with
    inner
    log := if id ∈ s.staged then s.log else s.log ++ [.patch id spelled] }

/-- `apply_batch` -/
def applyBatch (s : HashRopeStore) (nodes : List Node) (patches : List (String × Json)) :
    Except Error HashRopeStore := do
  let staged ← nodes.foldlM (fun s node => s.put lib node) s
  patches.foldlM (fun s patch => s.updateMeta lib patch.1 patch.2) staged

/-- `drop_nodes` -/
def dropNodes (s : HashRopeStore) (ids : List String) : Except Error HashRopeStore := do
  let inner ← s.inner.dropNodes ids
  let kept : HashRopeStore :=
    { s with inner, staged := s.staged.filter fun id => id ∉ ids }
  let log ← kept.rewrittenLog lib
  return { kept with log }

/-- `compact` -/
def compact (s : HashRopeStore) : Except Error HashRopeStore := do
  let log ← s.rewrittenLog lib
  return { s with log }

/-- `stage_pending` -/
def stagePending (s : HashRopeStore) (node : Node) : Except Error HashRopeStore := do
  ensure (¬ s.inner.exists? node.id ∧ node.result.isNone ∧ node.state = some "pending")
    (.integrity "hashrope stage requires a new pending identity")
  let inner ← s.inner.put lib node
  return { s with inner, staged := node.id :: s.staged }

/-- `finalize` -/
def finalize (s : HashRopeStore) (node : Node) : Except Error HashRopeStore := do
  ensure (node.id ∈ s.staged) (.integrity "hashrope identity was not staged")
  let record ← putRecord lib node
  let inner ← s.inner.finalize lib node
  return ⟨inner, s.log ++ [record], s.staged.filter fun id => id ≠ node.id⟩

end Library

end HashRopeStore

end Pollard.Rust
