import Pollard.Lib.Fallible
import Pollard.Objects
import Pollard.Store

/-!
# Nodes with any metadata

A node whose metadata holds whatever `json.dumps` takes, and the record of its texts that
`KafkaStore` and `HashRopeStore` write.  The digest of a result text is a parameter.
-/

namespace Pollard.Stores

open Lib Lib.Fallible

/-- A result and its text.  In a record the value is the one the text spells. -/
structure ResultText where
  text : Codes
  value : Obj
deriving DecidableEq

namespace ResultText

/-- The result as its record holds it. -/
def dumped (result : ResultText) : ResultText := { result with value := result.value.dumped }

def loads (result : ResultText) : ResultText := { result with value := result.value.loads }

/-- The result as its record is read. -/
def jsonForm (result : ResultText) : ResultText := result.dumped.loads

end ResultText

structure ObjectNode where
  id : String
  parent : Option String
  kind : NodeKind
  attempt : ℤ
  payload : Value
  result : Option ResultText
  resultDigest : Option String
  metadata : Dict Key Obj
deriving DecidableEq

/-- `_node_record` -/
structure NodeRecord where
  id : String
  parent : Option String
  kind : String
  attempt : ℤ
  payload : Value
  result : Option ResultText
  resultDigest : Option String
  metadata : Obj
deriving DecidableEq

namespace ObjectNode

/-- The parts `identity_tuple` compares. -/
def identity (node : ObjectNode) : Identity :=
  ⟨node.attempt, node.kind, node.parent.getD "", node.payload.canonical⟩

/-- `expected_id` -/
def expectedId (H : Hashing) (node : ObjectNode) : String :=
  H.nodeId node.kind node.parent node.attempt node.payload

/-- What `__post_init__` checks.  Ids and digests are not checked for their format. -/
def checkFields (kind : NodeKind) (parent : Option String) (payload : Value) (attempt : ℤ)
    (metadata : Dict Key Obj) : Except PyError Unit :=
  (Node.checkFields kind parent payload attempt none ∅).bind fun _ =>
    if (Obj.dict metadata.entries).dumpable false then .ok ()
    else .error (.typeError "meta must be JSON serializable")

section Digest

variable (H : Hashing) (digest : Codes → String)

/-- `result_digest_from_text` -/
def resultDigestFromText (text : Codes) : Except PyError String :=
  if text.utf8 then .ok (digest text) else .error .unicodeEncodeError

/-- The result of a node has the digest it carries. -/
def checkResult (node : ObjectNode) : Except PyError Unit :=
  match node.result, node.resultDigest with
  | none, _ => .ok ()
  | some _, none => .error (.integrityError s!"node result digest missing: {node.id}")
  | some result, some stored =>
      (resultDigestFromText digest result.text).bind fun expected =>
        if stored = expected then .ok ()
        else .error (.integrityError s!"node result digest does not match result: {node.id}")

/-- `_validate_for_put` -/
def validateForPut (node : ObjectNode) : Except PyError Unit :=
  if node.id ≠ node.expectedId H then
    .error (.integrityError s!"node id does not match identity fields: {node.id}")
  else
    (checkResult digest node).bind fun _ =>
      if node.kind = .root ∧ node.parent ≠ none then
        .error (.integrityError "root node cannot have a parent")
      else .ok ()

/-- `_node_record` -/
def record (node : ObjectNode) : Except PyError NodeRecord :=
  (Obj.dumps (.dict node.metadata.entries)).map fun metadata =>
    ⟨node.id, node.parent, node.kind.value, node.attempt, node.payload.canonical,
      node.result.map ResultText.dumped, node.resultDigest, metadata⟩

/-- `Node.from_storage` of the texts of a record. -/
def fromRecord (record : NodeRecord) : Except PyError ObjectNode :=
  if record.payload.isDict = false then .error (.typeError "stored payload must be a JSON object")
  else
    match record.metadata.loads with
    | .dict entries =>
        let metadata := Dict.ofList entries
        match NodeKind.ofValue? record.kind with
        | none => .error (.valueError s!"unsupported node kind: {record.kind}")
        | some kind =>
            (checkFields kind record.parent record.payload record.attempt metadata).bind fun _ =>
              (match record.resultDigest, record.result with
                | none, some result => (resultDigestFromText digest result.text).map some
                | stored, _ => .ok stored).map fun resultDigest =>
              ⟨record.id, record.parent, kind, record.attempt, record.payload,
                record.result.map ResultText.loads,
                resultDigest, metadata⟩
    | _ => .error (.typeError "stored meta must be a JSON object")

end Digest

/-- A node as its constructor leaves it. -/
structure Built (node : ObjectNode) : Prop where
  checked : checkFields node.kind node.parent node.payload node.attempt node.metadata = .ok ()
  object : node.payload.isDict = true

/-- A node as its record is read. -/
def jsonForm (node : ObjectNode) : ObjectNode :=
  { node with
    payload := node.payload.canonical
    result := node.result.map ResultText.jsonForm
    metadata := Obj.jsonFormDict node.metadata }

/-! ### A record read back -/

section Reading

variable {H : Hashing} {digest : Codes → String}

theorem validateForPut_jsonForm {node : ObjectNode}
    (h : node.validateForPut H digest = .ok ()) :
    node.jsonForm.validateForPut H digest = .ok () := by
  rw [validateForPut] at h ⊢
  have hid : node.jsonForm.expectedId H = node.expectedId H := by
    rw [expectedId, jsonForm, Hashing.nodeId, Value.canonical_canonical]
    rfl
  have hcheck : checkResult digest node.jsonForm = checkResult digest node := by
    unfold checkResult
    cases hres : node.result with
    | none => simp [jsonForm, hres]
    | some result =>
        simp only [jsonForm, hres, Option.map_some]
        cases node.resultDigest <;> rfl
  rw [hid, hcheck]
  exact h

/-- The record of an accepted node is read as the node in JSON form. -/
theorem fromRecord_record {node : ObjectNode} {record : NodeRecord} (hbuilt : node.Built)
    (hvalid : node.validateForPut H digest = .ok ()) (hrecord : node.record = .ok record) :
    fromRecord digest record = .ok node.jsonForm := by
  obtain ⟨text, htext, rfl⟩ := map_ok_iff.mp hrecord
  obtain ⟨hdumpable, rfl⟩ := Obj.dumps_ok htext
  have hchecked : checkFields node.kind node.parent node.payload.canonical
      node.attempt (Obj.jsonFormDict node.metadata) = .ok () := by
    obtain ⟨u, hfields, -⟩ := bind_ok_iff.mp hbuilt.checked
    obtain ⟨hresult, hidentity, hroot, hattempt, hmeta⟩ := Node.checkFields_ok_iff.mp hfields
    refine bind_ok_iff.mpr
      ⟨(), Node.checkFields_ok_iff.mpr ⟨hresult, ?_, hroot, hattempt, hmeta⟩, ?_⟩
    · rw [Value.isIdentity_canonical]
      exact hidentity
    · rw [← Obj.jsonForm_dict, Obj.dumpable_jsonForm _ hdumpable]
      rfl
  have hdigest : ∀ result, node.result = some result → node.resultDigest ≠ none := by
    intro result hresult hnone
    rw [validateForPut] at hvalid
    split at hvalid
    · cases hvalid
    · obtain ⟨u, hcheck, -⟩ := bind_ok_iff.mp hvalid
      rw [checkResult, hresult, hnone] at hcheck
      cases hcheck
  have hloads : (Obj.dict node.metadata.entries).dumped.loads =
      .dict (Obj.jsonFormDict node.metadata).entries := Obj.jsonForm_dict _
  simp only [fromRecord, Value.isDict_canonical, hbuilt.object, hloads,
    Dict.ofList_entries, NodeKind.ofValue?_value, hchecked]
  simp only [Bool.true_eq_false, if_false, Except.bind]
  cases hres : node.result with
  | none => cases hstored : node.resultDigest <;>
      simp [Except.map, jsonForm, hres, hstored]
  | some result =>
      cases hstored : node.resultDigest with
      | none => exact absurd hstored (hdigest result hres)
      | some stored => simp [Except.map, jsonForm, ResultText.jsonForm, hres, hstored]

/-- What is read from a record is as the constructor of a node leaves it. -/
theorem built_of_fromRecord {record : NodeRecord} {node : ObjectNode}
    (h : fromRecord digest record = .ok node) : node.Built := by
  rw [fromRecord] at h
  split at h
  · cases h
  · next hobject =>
      split at h
      · split at h
        · cases h
        · obtain ⟨⟨⟩, hchecked, hrest⟩ := bind_ok_iff.mp h
          obtain ⟨resultDigest, -, rfl⟩ := map_ok_iff.mp hrest
          exact ⟨hchecked, by simpa using hobject⟩
      · cases h

end Reading

end ObjectNode

namespace NodeRecord

/-- The texts of a record have UTF-8 forms. -/
def utf8 (record : NodeRecord) : Bool :=
  record.metadata.utf8 && record.result.all fun result => Codes.utf8 result.text

end NodeRecord

end Pollard.Stores
