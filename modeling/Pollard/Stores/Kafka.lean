import Pollard.Json
import Pollard.Store
import Pollard.Lib.Replay

/-!
# The Kafka store

A store whose source of truth is a log of commands.  Every instance replays the log into
a view, and a command is appended only if its operation id, which is derived from its
content, is not in the view.  A text in a record is held as the value it encodes.
-/

namespace Pollard.Stores.Kafka

open Lib

/-! ## Records -/

/-- `_node_record` -/
structure NodeRecord where
  id : String
  parent : Option String
  kind : String
  attempt : ℤ
  payload : Value
  result : Option Value
  resultDigest : Option String
  metadata : Dict String Value
deriving DecidableEq

/-- The operation of a command with its body. -/
inductive Request where
  | put (record : NodeRecord)
  | patch (nodeId : String) (patch : Dict String Value)
deriving DecidableEq

/-- SHA-256 of the bytes of a request, without and with the operation prefix. -/
structure Digests where
  request : Request → String
  operation : Request → String

/-- Requests as their own digests. -/
def Digests.plain : Digests :=
  let text := fun
    | Request.put record =>
        let result := (record.result.map Value.text).getD ""
        s!"put {record.id} {result} {(Value.dict record.metadata.entries).text}"
    | Request.patch nodeId patch => s!"patch {nodeId} {(Value.dict patch.entries).text}"
  ⟨text, text⟩

/-- A record of the log: its key and its envelope. -/
structure Event where
  key : String
  storeId : String
  operationId : String
  request : Request
  requestDigest : String
deriving DecidableEq

/-- What a command came to when it was replayed. -/
inductive Outcome where
  | ok
  | keyError (key : String)
  | integrityError (message : String)
deriving DecidableEq

/-- The view an instance has of its log. -/
structure View where
  store : MemoryStore
  operations : Dict String String
  outcomes : Dict String Outcome
deriving DecidableEq

def View.empty : View := ⟨.empty, ∅, ∅⟩

def View.finish (view : View) (operationId : String) (outcome : Outcome) : View :=
  { view with outcomes := view.outcomes.set operationId outcome }

section Store

variable (H : Hashing) (D : Digests) (storeId : String)

/-- `_event` -/
def event (request : Request) : Event :=
  ⟨storeId, storeId, D.operation request, request, D.request request⟩

def nodeRecord (node : Node) : NodeRecord :=
  ⟨node.id, node.parent, node.kind.value, node.attempt, node.payload.canonical,
    node.resultText, node.resultText.map H.result, jsonText node.metadata⟩

/-- `_node_from_record` -/
def nodeFromRecord (offset : ℕ) (record : NodeRecord) : Except PyError Node :=
  match Node.fromStorage record.id record.parent record.kind record.attempt record.payload
      record.result record.metadata with
  | .error _ => .error (.integrityError s!"Kafka log offset {offset} has an invalid node")
  | .ok node =>
      if validateForPut H node ≠ .ok () ∨
          record.result.isSome ∧ record.resultDigest ≠ record.result.map H.result then
        .error (.integrityError s!"Kafka log offset {offset} has an invalid node")
      else .ok node

/-! ## Applying a record -/

/-- The store after a result was put that the stored node may not have. -/
def foldResult (store : MemoryStore) (existing node : Node) : MemoryStore :=
  match node.result with
  | none => store
  | some result =>
      if node.resultText = existing.resultText then store
      else
        store.replaceMeta existing.id (existing.metadata.set "result_conflicts"
          (.list (MemoryStore.resultConflicts existing ++
            [.dict [("result_digest", .str (H.result result.canonical)), ("result", result)]])))

/-- `_apply_put` -/
def applyPut (operationId : String) (node : Node) (view : View) : Except PyError View :=
  (validateForPut H node).map fun _ =>
    if hparent : ∀ p ∈ node.parent, view.store.contains p = true then
      match hfind : view.store.find? node.id with
      | none =>
          { view with
            store := ⟨node :: view.store.nodes, MemoryStore.grounded_cons hparent hfind⟩ }.finish
              operationId .ok
      | some existing =>
          if existing.identity ≠ node.identity then
            view.finish operationId (.integrityError s!"node id collision for {node.id}")
          else
            { view with store := foldResult H view.store existing node }.finish operationId .ok
    else view.finish operationId (.keyError (node.parent.getD ""))

/-- `_apply_meta` -/
def applyPatch (operationId nodeId : String) (patch : Dict String Value) (view : View) : View :=
  match view.store.find? nodeId with
  | none => view.finish operationId (.keyError nodeId)
  | some node =>
      let metadata := patch.entries.foldl (fun m e => m.set e.1 e.2) node.metadata
      { view with store := view.store.replaceMeta nodeId metadata }.finish operationId .ok

/-- `_apply_message` -/
def applyMessage (offset : ℕ) (view : View) (e : Event) : Except PyError View :=
  if e.key ≠ storeId then
    .error (.integrityError s!"Kafka log offset {offset} has the wrong store key")
  else if e.storeId ≠ storeId then
    .error (.integrityError s!"Kafka log offset {offset} belongs to another store")
  else if e ≠ event D storeId e.request then
    .error (.integrityError s!"Kafka log offset {offset} failed envelope validation")
  else
    match view.operations.get? e.operationId with
    | some previous =>
        if previous ≠ e.requestDigest then
          .error (.integrityError
            s!"Kafka operation id collision at offset {offset}: {e.operationId}")
        else .ok view
    | none => do
        let view ← match e.request with
          | .put record => do
              let node ← nodeFromRecord H offset record
              applyPut H e.operationId node view
          | .patch nodeId patch => .ok (applyPatch e.operationId nodeId patch view)
        return { view with operations := view.operations.set e.operationId e.requestDigest }

/-- The view of a log. -/
def view (log : List Event) : Except PyError View :=
  Replay.replay (applyMessage H D storeId) 0 .empty log

/-! ## Commands -/

/-- `_append_command`: the log and the view the command leaves. -/
def appendCommand (log : List Event) (view : View) (request : Request) :
    Except PyError (List Event × View) :=
  let e := event D storeId request
  if view.operations.contains e.operationId then .ok (log, view)
  else (applyMessage H D storeId log.length view e).map fun view => (log ++ [e], view)

/-- `_raise_outcome` -/
def raiseOutcome (view : View) (operationId : String) : Except PyError Unit :=
  match view.outcomes.get? operationId with
  | none => .error (.integrityError s!"Kafka operation has no replay outcome: {operationId}")
  | some .ok => .ok ()
  | some (.keyError key) => .error (.keyError key)
  | some (.integrityError message) => .error (.integrityError message)

/-- The end of a command: it is appended unless it is known, and its outcome is raised. -/
def submit (log : List Event) (view : View) (request : Request) :
    Except PyError (List Event) := do
  let (log, view) ← appendCommand H D storeId log view request
  raiseOutcome view (D.operation request)
  return log

/-- `KafkaStore.put` -/
def put (log : List Event) (node : Node) : Except PyError (List Event) := do
  validateForPut H node
  let current ← view H D storeId log
  if ¬ ∀ p ∈ node.parent, current.store.contains p = true then
    throw (.keyError (node.parent.getD ""))
  else if (current.store.find? node.id).any fun existing =>
      existing.identity ≠ node.identity then
    throw (.integrityError s!"node id collision for {node.id}")
  else submit H D storeId log current (.put (nodeRecord H node))

/-- `KafkaStore.update_meta` -/
def updateMeta (log : List Event) (nodeId : String) (patch : Dict String Value) :
    Except PyError (List Event) :=
  if patch.values.any fun value => ¬ value.isJson then
    .error (.typeError "metadata patch is not JSON serializable")
  else do
    let current ← view H D storeId log
    if current.store.contains nodeId = false then throw (.keyError nodeId)
    else submit H D storeId log current (.patch nodeId (jsonText patch))

/-! ## Runs -/

/-- A command of the store protocol that writes. -/
inductive Command where
  | put (node : Node)
  | updateMeta (nodeId : String) (patch : Dict String Value)
deriving DecidableEq

def Command.execute (log : List Event) : Command → Except PyError (List Event)
  | .put node => Kafka.put H D storeId log node
  | .updateMeta nodeId patch => Kafka.updateMeta H D storeId log nodeId patch

/-- The same command on the in-memory store. -/
def Command.executeInMemory (store : MemoryStore) : Command → Except PyError MemoryStore
  | .put node => store.put H node
  | .updateMeta nodeId patch => store.updateMeta nodeId patch

/-- A command, and records of the log that come again after it. -/
structure Issued where
  command : Command
  again : List Event

/-- The log after a command. -/
def step (log : List Event) (issued : Issued) : Except PyError (List Event) :=
  (issued.command.execute H D storeId log).map fun after =>
    after ++ issued.again.filter fun e => e ∈ after

end Store

end Pollard.Stores.Kafka
