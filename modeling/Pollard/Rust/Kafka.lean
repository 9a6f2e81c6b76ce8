import Pollard.Lib.Effect
import Pollard.Rust.Memory

/-!
# The Kafka store in Rust

A log of commands that every reader replays into a memory store; staged nodes are known to the
writer only.  A text in a record is held as the value it spells.  The transport delivers the
records of the log in order; a command that was retried stands in the log more than once.
-/

namespace Pollard.Rust.Kafka

open Lib Fallible Effect

/-- A command of the log with its body. -/
inductive Request where
  | put (record : Record)
  | patch (id : String) (patch : Json)
deriving DecidableEq

/-- SHA-256 of the bytes of a request, without and with the operation prefix. -/
structure Digests where
  request : Request → String
  operation : Request → String

/-- The envelope of a command, of version 1. -/
structure Envelope where
  storeId : String
  operationId : String
  request : Request
  requestDigest : String
deriving DecidableEq

/-- `Record` of the transport. -/
structure Delivered where
  offset : ℕ
  key : String
  envelope : Envelope

/-- `View`; of an operation it keeps the digest, the offset and what it came to. -/
structure View where
  nodes : MemoryStore
  operations : Dict String (String × ℕ × Except Error Unit)
  nextOffset : ℕ

def View.empty : View := ⟨.empty, ∅, 0⟩

section Library

variable (lib : Library) (D : Digests) (storeId : String)

/-- The request that the bytes of a request spell. -/
def Request.spelled : Request → Except Error Request
  | .put record => .ok (.put record)
  | .patch id body => (body.spelled lib).map (.patch id)

/-- `event` -/
def event (request : Request) : Except Error Envelope :=
  (request.spelled lib).map fun request =>
    ⟨storeId, D.operation request, request, D.request request⟩

/-- Whether the bytes of an envelope are read; those of a put spell few values in one another. -/
def Envelope.reads (e : Envelope) : Bool :=
  match e.request with
  | .put _ => true
  | .patch id patch => lib.reads (.object [
      ("body", .object [("id", .string id), ("patch", patch)]), ("operation", .string "meta"),
      ("operation_id", .string e.operationId), ("request_digest", .string e.requestDigest),
      ("store_id", .string e.storeId), ("version", .number "1")])

/-- `parse_node` -/
def parseNode (record : Record) : Except Error Node := do
  let node ← Node.fromStorage lib record
  node.validate lib
  return node

/-- What a command comes to in a store. -/
def Request.perform (nodes : MemoryStore) : Request → Except Error (Except Error MemoryStore)
  | .put record => (parseNode lib record).map fun node => nodes.put lib node
  | .patch id body => do
      ensure body.isObject (.integrity "Kafka log has invalid metadata patch")
      return nodes.updateMeta id body

/-- `View::apply` -/
def View.apply (view : View) (record : Delivered) : Except Error View := do
  let e := record.envelope
  ensure (record.offset = view.nextOffset)
    (.integrity s!"Kafka log has offset gap: expected {view.nextOffset}, received {record.offset}")
  ensure (record.key = storeId) (.integrity "Kafka log has wrong store key")
  ensure (e.reads lib) (.integrity "Kafka log is not JSON")
  ensure (e.storeId = storeId)
    (.integrity "Kafka log has invalid envelope fields or version/store ID")
  let expected ← event lib D storeId e.request
  ensure (e = expected) (.integrity "Kafka log failed canonical envelope validation")
  match view.operations.get? e.operationId with
  | some (previous, _) =>
      ensure (previous = e.requestDigest) (.integrity "Kafka operation ID collision")
      return { view with nextOffset := view.nextOffset + 1 }
  | none =>
      let result ← e.request.perform lib view.nodes
      return {
        nodes := result.toOption.getD view.nodes
        operations := view.operations.set e.operationId
          (e.requestDigest, record.offset, result.map fun _ => ())
        nextOffset := view.nextOffset + 1 }

/-- The view of a fresh reader. -/
def replay (log : List Delivered) : Except Error View := log.foldlM (View.apply lib D storeId) .empty

end Library

/-! ## The store -/

/-- `KafkaStore`, with the log that its transport writes to and reads. -/
structure KafkaStore where
  log : List Delivered
  view : View
  staged : Dict String Node

/-- How often a command was appended before and after the record whose offset was confirmed. -/
structure Delivery where
  earlier : ℕ
  later : ℕ

/-- The records of a command that is appended some times from an offset on. -/
def produced (storeId : String) (e : Envelope) (offset count : ℕ) : List Delivered :=
  (List.range count).map fun i => ⟨offset + i, storeId, e⟩

def display : Error → String
  | .invalid message => s!"invalid input: {message}"
  | .integrity message => s!"integrity error: {message}"
  | .notFound id => s!"not found: {id}"

namespace KafkaStore

def new : KafkaStore := ⟨[], .empty, ∅⟩

/-- `produce`, for all its retries -/
def produce (s : KafkaStore) (storeId : String) (e : Envelope) (count : ℕ) : KafkaStore :=
  { s with log := s.log ++ produced storeId e s.log.length count }

section Library

variable (lib : Library) (D : Digests) (storeId : String)

/-- `sync_to`: the records before this offset are read. -/
def syncTo (next : ℕ) : EStateM Error KafkaStore Unit := do
  let s ← get
  let view ← orRaise
    (((s.log.take next).drop s.view.nextOffset).foldlM (View.apply lib D storeId) s.view)
  modify fun s => { s with view }

/-- `sync` -/
def sync : EStateM Error KafkaStore Unit := do
  let s ← get
  syncTo lib D storeId s.log.length

/-- `reconnect`, after a command whose replay failed. -/
def reconnect (operationId : String) : EStateM Error KafkaStore Unit := do
  let s ← get
  match replay lib D storeId s.log with
  | .ok view => modify fun s => { s with view }
  | .error error =>
      throw (.integrity ("Kafka command was acknowledged but replay confirmation failed for " ++
        s!"{operationId}: {display error}"))

/-- `append` -/
def append (request : Request) (delivery : Delivery) : EStateM Error KafkaStore Unit := do
  sync lib D storeId
  let e ← orRaise (event lib D storeId request)
  let s ← get
  match s.view.operations.get? e.operationId with
  | some (_, _, outcome) => orRaise outcome
  | none =>
      modify fun s => s.produce storeId e (delivery.earlier + 1 + delivery.later)
      match ← attempt (syncTo lib D storeId (s.log.length + delivery.earlier + 1)) with
      | .ok _ => pure ()
      | .error _ => reconnect lib D storeId e.operationId
      let after ← get
      match after.view.operations.get? e.operationId with
      | some (_, _, outcome) => orRaise outcome
      | none =>
          throw (.integrity s!"Kafka acknowledged operation absent after replay: {e.operationId}")

/-- `node` of the session -/
def nodeOf (s : KafkaStore) (id : String) : Except Error Node :=
  match s.staged.get? id with
  | some node => .ok node
  | none => s.view.nodes.get id

/-- The check that the parent of a node is staged or recorded. -/
def checkParent (s : KafkaStore) (node : Node) : Except Error Unit :=
  match node.parent with
  | none => .ok ()
  | some parent => (s.nodeOf parent).map fun _ => ()

/-- `node_record` -/
def nodeRecord (node : Node) : Except Error Record := do
  node.validate lib
  node.record lib

/-- `put` -/
def put (node : Node) (delivery : Delivery) : EStateM Error KafkaStore Unit := do
  let record ← orRaise (nodeRecord lib node)
  sync lib D storeId
  let s ← get
  orRaise (ensure (s.staged.contains node.id = false)
    (.integrity "cannot put in-flight Kafka identity before finalization"))
  orRaise (s.checkParent node)
  append lib D storeId (.put record) delivery

/-- `update_meta` -/
def updateMeta (id : String) (patch : Json) (delivery : Delivery) :
    EStateM Error KafkaStore Unit := do
  orRaise (ensure patch.isObject (.invalid "Kafka metadata patch must be object"))
  let _ ← orRaise (patch.spelled lib)
  sync lib D storeId
  let s ← get
  match s.staged.get? id, patch with
  | some node, .object entries =>
      modify fun s => { s with
        staged := s.staged.set id { node with metadata := node.metadata.extend entries } }
  | _, _ =>
      let _ ← orRaise (s.nodeOf id)
      append lib D storeId (.patch id patch) delivery

/-- `stage_pending` -/
def stagePending (node : Node) : EStateM Error KafkaStore Unit := do
  orRaise (node.validate lib)
  sync lib D storeId
  let s ← get
  orRaise (ensure (node.result.isNone ∧ node.state = some "pending" ∧
      s.staged.contains node.id = false ∧ s.view.nodes.exists? node.id = false)
    (.integrity "Kafka stage requires a new pending identity"))
  orRaise (s.checkParent node)
  modify fun s => { s with staged := s.staged.set node.id node }

/-- `finalize` -/
def finalize (node : Node) (delivery : Delivery) : EStateM Error KafkaStore Unit := do
  let record ← orRaise (nodeRecord lib node)
  sync lib D storeId
  let s ← get
  match s.staged.get? node.id with
  | none => throw (.integrity "Kafka identity was not staged")
  | some pending =>
      orRaise (ensure (pending.sameIdentity node ∧ node.state.getD "" ∈ ["completed", "failed"])
        (.integrity "Kafka settlement identity/state mismatch"))
      append lib D storeId (.put record) delivery
      modify fun s => { s with staged := s.staged.erase node.id }

/-- `drop_nodes` -/
def dropNodes (ids : List String) : EStateM Error KafkaStore Unit := do
  sync lib D storeId
  let s ← get
  orRaise (ensure (∀ id ∈ ids, s.staged.contains id = true)
    (.integrity "Kafka audit history cannot be deleted or compacted"))
  orRaise (ensure (¬ ∃ node ∈ s.staged.values, node.id ∉ ids ∧ node.parent.any fun p => p ∈ ids)
    (.integrity "cannot remove a pending ancestor of retained Kafka nodes"))
  modify fun s => { s with staged := s.staged.filter fun e => e.1 ∉ ids }

end Library

end KafkaStore

end Pollard.Rust.Kafka
