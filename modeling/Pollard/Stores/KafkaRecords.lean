import Pollard.Stores.ObjectNodes

/-!
# The records of the Kafka log

The bytes a command is written as, and what the parser makes of them when the log is opened
again.  The bytes of a request are held as the request of its texts; `Digests` are those of
the bytes.
-/

namespace Pollard.Stores.KafkaRecords

open Lib Lib.Fallible

/-- A command with its body. -/
inductive Request where
  | put (record : NodeRecord)
  | patch (nodeId : String) (patch : Obj)
deriving DecidableEq

structure Digests where
  request : Request → String
  operation : Request → String

/-- The bytes of an event, by its fields. -/
structure Event where
  version : ℤ
  storeId : String
  operationId : String
  request : Request
  requestDigest : String
deriving DecidableEq

namespace Request

/-- `_json_bytes` of a request. -/
def jsonBytes : Request → Except PyError Request
  | .put record => if record.utf8 then .ok (.put record) else .error .unicodeEncodeError
  | .patch nodeId body => body.jsonBytes.map (.patch nodeId)

/-- `json.loads` of the bytes of a request. -/
def loads : Request → Request
  | .put record => .put record
  | .patch nodeId body => .patch nodeId body.loads

end Request

section Log

variable (H : Hashing) (digest : Codes → String) (D : Digests) (storeId : String)

/-- `_event`, encoded. -/
def event (request : Request) : Except PyError Event :=
  request.jsonBytes.map fun bytes => ⟨1, storeId, D.operation bytes, bytes, D.request bytes⟩

/-- `_parse_event`: the command a record holds. -/
def parseEvent (offset : ℕ) (e : Event) : Except PyError Request :=
  if e.version ≠ 1 then
    .error (.integrityError s!"Kafka log offset {offset} has unknown event version")
  else if e.storeId ≠ storeId then
    .error (.integrityError s!"Kafka log offset {offset} belongs to another store")
  else
    (event D storeId e.request.loads).bind fun expected =>
      if e.operationId ≠ expected.operationId ∨ e.requestDigest ≠ expected.requestDigest then
        .error (.integrityError s!"Kafka log offset {offset} failed envelope validation")
      else if e ≠ expected then
        .error (.integrityError s!"Kafka log offset {offset} is not canonically encoded")
      else .ok e.request.loads

/-- The records of a log, parsed from an offset on. -/
def parseLog : ℕ → List Event → Except PyError (List Request)
  | _, [] => .ok []
  | offset, e :: log =>
      (parseEvent D storeId offset e).bind fun request =>
        (parseLog (offset + 1) log).map fun requests => request :: requests

/-- A node `put` takes, or a patch `update_meta` takes. -/
inductive Command where
  | put (node : ObjectNode) (built : node.Built)
  | updateMeta (nodeId : String) (patch : Dict Key Obj)

/-- The record a command appends, if its argument is accepted. -/
def Command.append : Command → Except PyError Event
  | .put node _ =>
      (ObjectNode.validateForPut H digest node).bind fun _ =>
        node.record.bind fun record => event D storeId (.put record)
  | .updateMeta nodeId patch =>
      (Obj.jsonBytes (.dict patch.entries)).bind fun _ =>
        event D storeId (.patch nodeId (.dict patch.entries))

/-- The record of a command is parsed at an offset, and decodes to the command in JSON form. -/
def Command.Survives (offset : ℕ) : Command → Prop
  | .put node built => ∃ e record,
      (put node built).append H digest D storeId = .ok e ∧
      parseEvent D storeId offset e = .ok (.put record) ∧
      ObjectNode.fromRecord digest record = .ok node.jsonForm ∧
      ObjectNode.validateForPut H digest node.jsonForm = .ok ()
  | .updateMeta nodeId patch => ∃ e,
      (updateMeta nodeId patch).append H digest D storeId = .ok e ∧
      parseEvent D storeId offset e = .ok (.patch nodeId (Obj.jsonForm (.dict patch.entries)))

/-- The keys of a patch are in the order of its text, in every dictionary of it. -/
def Command.InTextOrder : Command → Prop
  | .put _ _ => True
  | .updateMeta _ patch => Obj.InTextOrder (.dict patch.entries)

end Log

/-! ## What survives -/

section Survival

variable {H : Hashing} {digest : Codes → String} {D : Digests} {storeId : String} {offset : ℕ}

theorem event_ok_iff {request : Request} {e : Event} :
    event D storeId request = .ok e ↔ ∃ bytes, request.jsonBytes = .ok bytes ∧
      ⟨1, storeId, D.operation bytes, bytes, D.request bytes⟩ = e := map_ok_iff

/-- A record is parsed exactly if its body is written again as it was read. -/
theorem parseEvent_event {bytes read : Request} :
    parseEvent D storeId offset ⟨1, storeId, D.operation bytes, bytes, D.request bytes⟩ =
        .ok read ↔ bytes.loads.jsonBytes = .ok bytes ∧ read = bytes.loads := by
  rw [parseEvent, if_neg (by simp), if_neg (by simp), bind_ok_iff]
  constructor
  · rintro ⟨expected, hexpected, hread⟩
    obtain ⟨again, hagain, rfl⟩ := event_ok_iff.mp hexpected
    split at hread
    · cases hread
    · split at hread
      · cases hread
      · next hsame =>
          have hbytes := congrArg Event.request (not_not.mp hsame)
          dsimp only at hbytes
          rw [← hbytes] at hagain
          exact ⟨hagain, (Except.ok.inj hread).symm⟩
  · rintro ⟨hagain, rfl⟩
    refine ⟨_, event_ok_iff.mpr ⟨bytes, hagain, rfl⟩, ?_⟩
    rw [if_neg (by simp), if_neg (by simp)]

theorem put_survives {node : ObjectNode} {built : node.Built} {e : Event}
    (h : (Command.put node built).append H digest D storeId = .ok e) (offset : ℕ) :
    (Command.put node built).Survives H digest D storeId offset := by
  obtain ⟨u, hvalid, hrest⟩ := bind_ok_iff.mp h
  obtain ⟨record, hrecord, hevent⟩ := bind_ok_iff.mp hrest
  obtain ⟨bytes, hbytes, rfl⟩ := event_ok_iff.mp hevent
  have hsame : bytes = .put record := by
    rw [Request.jsonBytes] at hbytes
    split at hbytes
    · exact (Except.ok.inj hbytes).symm
    · cases hbytes
  rw [hsame] at h hbytes
  exact ⟨_, record, h, parseEvent_event.mpr ⟨hbytes, rfl⟩,
    ObjectNode.fromRecord_record built hvalid hrecord,
    ObjectNode.validateForPut_jsonForm hvalid⟩

/-- The record of a patch is parsed exactly if the keys of the patch are in text order. -/
theorem parseEvent_updateMeta {nodeId : String} {patch : Dict Key Obj} {e : Event}
    (h : (Command.updateMeta nodeId patch).append H digest D storeId = .ok e) {read : Request} :
    parseEvent D storeId offset e = .ok read ↔
      Obj.InTextOrder (.dict patch.entries) ∧
        read = .patch nodeId (Obj.jsonForm (.dict patch.entries)) := by
  obtain ⟨text, htext, hevent⟩ := bind_ok_iff.mp h
  obtain ⟨bytes, hbytes, rfl⟩ := event_ok_iff.mp hevent
  obtain ⟨again, hagain, rfl⟩ := map_ok_iff.mp hbytes
  obtain rfl := Except.ok.inj (hagain.symm.trans htext)
  obtain ⟨-, hdumped, -⟩ := Obj.jsonBytes_ok_iff.mp htext
  rw [parseEvent_event, ← Obj.jsonBytes_jsonForm_iff htext, Request.loads, hdumped,
    ← Obj.jsonForm, Request.jsonBytes, map_ok_iff, ← hdumped]
  refine and_congr_left fun _ => ⟨?_, fun h => ⟨_, h, rfl⟩⟩
  rintro ⟨bytes, hbytes, heq⟩
  cases heq
  exact hbytes

/-- The metadata patch `{"k": {2: None, 10: None}}`: `2` comes before `10`, but `"10"` before
`"2"`. -/
def numberedPatch : Command :=
  .updateMeta "id" (Dict.ofList
    [(.str (codes "k"), .dict [(.int 2, .none), (.int 10, .none)])])

def plainDigests : Digests := ⟨fun _ => "request", fun _ => "operation"⟩

theorem append_numberedPatch :
    ∃ e, numberedPatch.append Hashing.plain (fun _ => "digest") plainDigests "store" = .ok e := by
  have hok : (numberedPatch.append Hashing.plain (fun _ => "digest") plainDigests
    "store").isOk = true := by decide +kernel
  revert hok
  cases numberedPatch.append Hashing.plain (fun _ => "digest") plainDigests "store" with
  | error e => exact nofun
  | ok e => exact fun _ => ⟨e, rfl⟩

theorem numberedPatch_order : ¬ numberedPatch.InTextOrder := by
  rw [numberedPatch, Command.InTextOrder, ← Obj.dumped_loads_iff]
  decide +kernel

end Survival

end Pollard.Stores.KafkaRecords
