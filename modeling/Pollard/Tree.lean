import Pollard.Value

/-!
# Nodes of the execution tree

SHA-256 is a parameter: a digest is a function of the document it is taken of.
-/

namespace Pollard

open Lib

inductive NodeKind where
  | root
  | modelCall
  | toolCall
  | note
  | refusal
deriving DecidableEq, Repr

def NodeKind.value : NodeKind → String
  | root => "root"
  | modelCall => "model_call"
  | toolCall => "tool_call"
  | note => "note"
  | refusal => "refusal"

/-- `NodeKind(value)` -/
def NodeKind.ofValue? (value : String) : Option NodeKind :=
  [root, modelCall, toolCall, note, refusal].find? fun kind => kind.value = value

@[simp] theorem NodeKind.ofValue?_value (kind : NodeKind) : ofValue? kind.value = some kind := by
  cases kind <;> decide

/-- The identity document of a node, its payload in canonical form. -/
structure Identity where
  attempt : ℤ
  kind : NodeKind
  parent : String
  payload : Value
deriving DecidableEq

/-- The digests Pollard takes: of an identity document under the node domain, of a
result text under the result domain, of canonical bytes under the redaction domain, of
the canonical bytes of a payload, of the text of another JSON document. -/
structure Hashing where
  node : Identity → String
  result : Value → String
  redaction : Value → String
  payload : Value → String
  document : Value → String

namespace Hashing

/-- `node_id` -/
def nodeId (H : Hashing) (kind : NodeKind) (parent : Option String) (attempt : ℤ)
    (payload : Value) : String :=
  H.node ⟨attempt, kind, parent.getD "", payload.canonical⟩

/-- `digest_payload` -/
def digestPayload (H : Hashing) (payload : Value) : Except PyError String :=
  payload.canonicalBytes.map H.payload

/-- Documents as their own digests. -/
def plain : Hashing where
  node identity := s!"{identity.kind.value}{identity.attempt}{identity.payload.text}<{identity.parent}"
  result := Value.text
  redaction := Value.text
  payload := Value.text
  document := Value.text

end Hashing

structure Node where
  id : String
  parent : Option String
  kind : NodeKind
  attempt : ℤ
  payload : Value
  result : Option Value
  metadata : Dict String Value
deriving DecidableEq

namespace Node

/-- What `make` and `__post_init__` check.  Ids are digests here, so their format is
not checked. -/
def checkFields (kind : NodeKind) (parent : Option String) (payload : Value) (attempt : ℤ)
    (result : Option Value) (metadata : Dict String Value) : Except PyError Unit :=
  if result.any fun value => ¬ value.isJson then
    .error (.typeError "result is not JSON serializable")
  else
    payload.canonicalBytes.bind fun _ =>
      if kind = .root ∧ parent ≠ none then
        .error (.valueError "root nodes cannot have parents")
      else if kind ≠ .root ∧ parent = none then
        .error (.valueError "non-root nodes require a 64-hex parent id")
      else if attempt < 0 then .error (.valueError "attempt must be a non-negative int")
      else if metadata.values.any fun value => ¬ value.isJson then
        .error (.typeError "meta must be JSON serializable")
      else .ok ()

/-- `Node.make` -/
def make (H : Hashing) (kind : NodeKind) (parent : Option String) (payload : Value)
    (attempt : ℤ := 0) (result : Option Value := none)
    (metadata : Dict String Value := ∅) : Except PyError Node :=
  (checkFields kind parent payload attempt result metadata).map fun _ =>
    ⟨H.nodeId kind parent attempt payload, parent, kind, attempt, payload, result, metadata⟩

theorem checkFields_ok_iff {kind : NodeKind} {parent : Option String} {payload : Value}
    {attempt : ℤ} {result : Option Value} {metadata : Dict String Value} :
    checkFields kind parent payload attempt result metadata = .ok () ↔
      (∀ value ∈ result, value.isJson = true) ∧ payload.isIdentity = true ∧
        (kind = .root ↔ parent = none) ∧ 0 ≤ attempt ∧
          ∀ value ∈ metadata.values, value.isJson = true := by
  have hresult : (result.any fun value => ¬ value.isJson) = true ↔
      ¬ ∀ value ∈ result, value.isJson = true := by
    cases result <;> simp
  have hmeta : (metadata.values.any fun value => ¬ value.isJson) = true ↔
      ¬ ∀ value ∈ metadata.values, value.isJson = true := by
    simp
  unfold checkFields
  by_cases hr : ∀ value ∈ result, value.isJson = true
  · rw [if_neg (fun h => hresult.mp h hr)]
    by_cases hp : payload.isIdentity = true
    · rw [Value.canonicalBytes_ok hp]
      simp only [Except.bind]
      by_cases hm : ∀ value ∈ metadata.values, value.isJson = true
      · rw [if_neg (fun h => hmeta.mp h hm)]
        by_cases hroot : kind = .root ∧ parent ≠ none
        · rw [if_pos hroot]
          exact ⟨nofun, fun h => absurd (h.2.2.1.mp hroot.1) hroot.2⟩
        · rw [if_neg hroot]
          by_cases hother : kind ≠ .root ∧ parent = none
          · rw [if_pos hother]
            exact ⟨nofun, fun h => absurd (h.2.2.1.mpr hother.2) hother.1⟩
          · rw [if_neg hother]
            by_cases ha : attempt < 0
            · rw [if_pos ha]
              exact ⟨nofun, fun h => absurd ha (not_lt.mpr h.2.2.2.1)⟩
            · rw [if_neg ha]
              refine ⟨fun _ => ⟨hr, hp, ⟨fun h => ?_, fun h => ?_⟩, not_lt.mp ha, hm⟩, fun _ => rfl⟩
              · exact not_not.mp fun hne => hroot ⟨h, hne⟩
              · exact not_not.mp fun hne => hother ⟨hne, h⟩
      · refine ⟨fun h => ?_, fun h => absurd h.2.2.2.2 hm⟩
        rw [if_pos (hmeta.mpr hm)] at h
        split at h
        · cases h
        · split at h
          · cases h
          · split at h <;> cases h
    · refine ⟨fun h => ?_, fun h => absurd h.2.1 hp⟩
      cases hbytes : payload.canonicalBytes with
      | error e =>
          rw [hbytes] at h
          cases h
      | ok bytes =>
          obtain ⟨rfl, hidentity⟩ := Value.isIdentity_of_canonicalBytes hbytes
          rw [Value.isIdentity_canonical] at hidentity
          exact absurd hidentity hp
  · rw [if_pos (hresult.mpr hr)]
    exact ⟨nofun, fun h => absurd h.1 hr⟩

/-- `from_storage`, given the values its texts decode to. -/
def fromStorage (id : String) (parent : Option String) (kind : String) (attempt : ℤ)
    (payload : Value) (result : Option Value) (metadata : Dict String Value) :
    Except PyError Node :=
  if payload.isDict = false then .error (.typeError "stored payload must be a JSON object")
  else
    match NodeKind.ofValue? kind with
    | none => .error (.valueError s!"unsupported node kind: {kind}")
    | some kind =>
        (checkFields kind parent payload attempt result metadata).map fun _ =>
          ⟨id, parent, kind, attempt, payload, result, metadata⟩

/-- `expected_id` -/
def expectedId (H : Hashing) (node : Node) : String :=
  H.nodeId node.kind node.parent node.attempt node.payload

/-- The parts `identity_tuple` compares. -/
def identity (node : Node) : Identity :=
  ⟨node.attempt, node.kind, node.parent.getD "", node.payload.canonical⟩

/-- A result as its stored text. -/
def resultText (node : Node) : Option Value := node.result.map Value.canonical

section Make

variable {H : Hashing} {kind : NodeKind} {parent : Option String} {payload : Value}
  {attempt : ℤ} {result : Option Value} {metadata : Dict String Value} {node : Node}

theorem eq_of_make (h : make H kind parent payload attempt result metadata = .ok node) :
    node = ⟨H.nodeId kind parent attempt payload, parent, kind, attempt, payload, result,
      metadata⟩ := by
  unfold make at h
  cases hfields : checkFields kind parent payload attempt result metadata with
  | error e =>
      rw [hfields] at h
      cases h
  | ok u =>
      rw [hfields] at h
      cases h
      rfl

/-- A made node has a parent unless it is a root. -/
theorem root_of_make (h : make H kind parent payload attempt result metadata = .ok node) :
    kind = .root ↔ parent = none := by
  unfold make at h
  cases hfields : checkFields kind parent payload attempt result metadata with
  | error e =>
      rw [hfields] at h
      cases h
  | ok u =>
      unfold checkFields at hfields
      split at hfields
      · cases hfields
      · cases hbytes : payload.canonicalBytes with
        | error e =>
            rw [hbytes] at hfields
            cases hfields
        | ok value =>
            rw [hbytes] at hfields
            simp only [Except.bind] at hfields
            split at hfields
            · cases hfields
            · next hroot =>
                split at hfields
                · cases hfields
                · next hother =>
                    constructor
                    · exact fun hkind => not_not.mp fun hparent => hroot ⟨hkind, hparent⟩
                    · exact fun hparent => not_not.mp fun hkind => hother ⟨hkind, hparent⟩

theorem make_of_negative (h : attempt < 0) :
    ∃ e, make H kind parent payload attempt result metadata = .error e := by
  unfold make checkFields
  split
  · exact ⟨_, rfl⟩
  · cases payload.canonicalBytes with
    | error e => exact ⟨e, rfl⟩
    | ok value =>
        simp only [Except.bind]
        split
        · exact ⟨_, rfl⟩
        · split
          · exact ⟨_, rfl⟩
          · exact ⟨_, rfl⟩

theorem attempt_nonneg_of_make
    (h : make H kind parent payload attempt result metadata = .ok node) : 0 ≤ attempt := by
  by_contra hnegative
  obtain ⟨e, he⟩ : ∃ e, make H kind parent payload attempt result metadata = .error e :=
    make_of_negative (not_le.mp hnegative)
  rw [he] at h
  cases h

/-- A node below a parent, of an identity payload and JSON metadata, is made. -/
theorem make_ok {id : String} {value : Value} (hkind : kind ≠ .root)
    (hresult : ∀ v ∈ result, v.isJson) (hpayload : payload.canonicalBytes = .ok value)
    (hattempt : 0 ≤ attempt) (hmetadata : ∀ v ∈ metadata.values, v.isJson) :
    make H kind (some id) payload attempt result metadata =
      .ok ⟨H.nodeId kind (some id) attempt payload, some id, kind, attempt, payload, result,
        metadata⟩ := by
  have hres : ¬ (result.any fun value => ¬ value.isJson) = true := by
    cases result with
    | none => simp
    | some v => simpa using hresult v rfl
  have hmeta : ¬ (metadata.values.any fun value => ¬ value.isJson) = true := by
    simpa using hmetadata
  rw [make, checkFields, if_neg hres, hpayload]
  simp only [Except.bind]
  rw [if_neg (by simp [hkind]), if_neg (by simp), if_neg (not_lt.mpr hattempt), if_neg hmeta]
  rfl

end Make

end Node

end Pollard
