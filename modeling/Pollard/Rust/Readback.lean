import Pollard.Rust.Likeness
import Pollard.Rust.Memory

/-!
# Nodes read back in Rust

A node that is stored as a record is read back with the same identity, result text and digest,
and with a result and metadata like its own.
-/

namespace Pollard.Rust

open Lib Fallible

/-- A value whose text is read. -/
def Json.TextReads (lib : Library) (value : Json) : Prop :=
  ∀ text, value.spelled lib = .ok text → lib.reads text = true

namespace Node

variable {lib : Library}

/-- The values of a node as `serde_json` holds them. -/
structure WellFormed (node : Node) : Prop where
  payload : node.payload.wellFormed = true
  metadata : node.metadata.distinct = true
  result : ∀ result, node.result = some result → result.distinct = true

/-- A node that was valid when it was put; metadata may have been added since. -/
structure Fit (lib : Library) (node : Node) : Prop extends WellFormed node where
  hex : hex64 node.id = true
  parent : node.kind = .root ∧ node.parent = none ∨
    node.kind ≠ .root ∧ ∃ parent, node.parent = some parent ∧ hex64 parent = true
  payloadObject : node.payload.isObject = true
  metadataObject : node.metadata.isObject = true
  written : ∃ octets, node.payload.write = .ok octets
  digest : ∀ digest, node.resultDigest = some digest → hex64 digest = true
  expected : node.expectedId lib = .ok node.id
  validResult : node.validateResult lib = .ok ()

theorem fit_of_validate {node : Node} (hwell : node.WellFormed)
    (h : node.validate lib = .ok ()) : node.Fit lib where
  toWellFormed := hwell
  hex := (shaped_of_validate lib h).hex
  parent := (shaped_of_validate lib h).parent
  payloadObject := (shaped_of_validate lib h).payload
  metadataObject := (shaped_of_validate lib h).metadata
  written := (shaped_of_validate lib h).written
  digest := (shaped_of_validate lib h).digest
  expected := ((validate_ok_iff lib).mp h).2.1
  validResult := ((validate_ok_iff lib).mp h).2.2

/-- `read` is the node `live` as it is read back. -/
structure Reads (lib : Library) (live read : Node) : Prop where
  id : read.id = live.id
  parent : read.parent = live.parent
  kind : read.kind = live.kind
  attempt : read.attempt = live.attempt
  payload : read.payload = live.payload.respelled
  resultText : read.resultText = live.resultText
  resultDigest : read.resultDigest = live.resultDigest
  result : sameResult lib read.result live.result = true
  metadata : read.metadata.resultValuesEqual lib live.metadata = true

theorem Fit.identity {node : Node} (h : node.Fit lib) :
    node.payload.toValue.isIdentity = true := by
  obtain ⟨octets, hwritten⟩ := h.written
  exact (Json.write_eq_of_ok _ h.payload hwritten).1

/-- Results that are valid are absent, or read from their texts. -/
theorem validateResult_ok {node : Node} (h : node.validateResult lib = .ok ()) :
    (node.result = none ∧ node.resultText = none ∧ node.resultDigest = none) ∨
    ∃ result text parsed, node.result = some result ∧ node.resultText = some text ∧
      node.resultDigest = some (Json.resultDigestFromText lib text) ∧
      lib.fromStr text = some parsed ∧ result.resultValuesEqual lib parsed = true := by
  unfold validateResult at h
  split at h
  · next hresult htext hdigest => exact .inl ⟨hresult, htext, hdigest⟩
  · next result text digest hresult htext hdigest =>
      split at h
      · cases h
      · next heq =>
          rw [not_not.mp heq] at hdigest
          split at h
          · cases h
          · next parsed hparsed =>
              split at h
              · next hequal => exact .inr ⟨result, text, parsed, hresult, htext, hdigest, hparsed, hequal⟩
              · cases h
  · cases h

theorem validateResult_of_parsed (node : Node) {text : String} {parsed : Json}
    (hresult : node.result = some parsed) (htext : node.resultText = some text)
    (hdigest : node.resultDigest = some (Json.resultDigestFromText lib text))
    (hparsed : lib.fromStr text = some parsed)
    (hequal : parsed.resultValuesEqual lib parsed = true) :
    node.validateResult lib = .ok () := by
  unfold validateResult
  simp only [hresult, htext, hdigest, hparsed, hequal, if_true, ne_eq, not_true_eq_false, if_false]

/-- The result that is read from a text is valid, and like the one that was written. -/
theorem Fit.readResult (hlaw : lib.Lawful) {node : Node} (h : node.Fit lib) :
    ∃ result, parseResult lib node.resultText = .ok result ∧
      (∀ value, result = some value → value.distinct = true) ∧
      sameResult lib result node.result = true ∧
      ∀ read : Node, read.result = result → read.resultText = node.resultText →
        read.resultDigest = node.resultDigest → read.validateResult lib = .ok () := by
  rcases validateResult_ok h.validResult with
    ⟨hresult, htext, hdigest⟩ | ⟨result, text, parsed, hresult, htext, hdigest, hparsed, hequal⟩
  · refine ⟨none, by rw [htext]; rfl, nofun, by rw [hresult]; rfl, fun read hr ht hd => ?_⟩
    unfold validateResult
    rw [hr, ht, hd, htext, hdigest]
  · have hdistinct := hlaw.parsed hparsed
    have hback := Json.resultValuesEqual_symm (h.result result hresult) hdistinct hequal
    refine ⟨some parsed, ?_, ?_, ?_, fun read hr ht hd => ?_⟩
    · rw [htext, parseResult, hparsed]
    · rintro _ ⟨⟩
      exact hdistinct
    · rw [hresult]
      exact hback
    · exact validateResult_of_parsed read hr (ht.trans htext) (hd.trans hdigest) hparsed
        (Json.resultValuesEqual_refl hdistinct hback)

theorem expectedId_congr {a b : Node} (hkind : a.kind = b.kind) (hparent : a.parent = b.parent)
    (hattempt : a.attempt = b.attempt) (hpayload : a.payload.write = b.payload.write) :
    a.expectedId lib = b.expectedId lib := by
  rw [expectedId, expectedId, nodeId, nodeId, nodeIdBytes, nodeIdBytes, hkind, hparent, hattempt,
    hpayload]

/-- A stored node reads back. -/
theorem Fit.read (hlaw : lib.Lawful) {node : Node} (h : node.Fit lib) {record : Record}
    (hrecord : node.record lib = .ok record) (hpayload : lib.reads node.payload.respelled = true)
    (hmeta : node.metadata.TextReads lib) :
    ∃ read, fromStorage lib record = .ok read ∧ read.validate lib = .ok () ∧ read.Fit lib ∧
      Reads lib node read := by
  obtain ⟨octets, hwritten, hrecord⟩ := bind_ok_iff.mp hrecord
  obtain ⟨metadata, hmetadata, hrecord⟩ := bind_ok_iff.mp hrecord
  cases hrecord
  have hspells := Json.spells_of_spelled hlaw h.metadata hmetadata
  obtain ⟨result, hresult, hdistinct, hsame, hvalid⟩ := h.readResult hlaw
  obtain ⟨octets, hwritten⟩ := h.written
  let read : Node := ⟨node.id, node.parent, node.kind, node.attempt, node.payload.respelled,
    result, node.resultText, node.resultDigest, metadata⟩
  have hrewritten := Json.write_respelled h.payload hwritten
  have hobject : node.payload.respelled.isObject = true := by
    cases hpayload : node.payload with
    | object entries =>
        obtain ⟨others, hothers⟩ := @Json.isObject_respelled entries
        rw [hothers]
        rfl
    | _ =>
        have hpayloadObject := h.payloadObject
        rw [hpayload] at hpayloadObject
        cases hpayloadObject
  have hshaped : Shaped lib read :=
    ⟨h.hex, h.parent, hobject, hspells.isObject.trans h.metadataObject, ⟨octets, hrewritten⟩,
      hspells.finite, h.digest⟩
  have hshape := validateShape_of_shaped lib hshaped
  have hexpected : read.expectedId lib = .ok read.id :=
    (@expectedId_congr lib read node rfl rfl rfl (hrewritten.trans hwritten.symm)).trans h.expected
  have hread : read.validate lib = .ok () :=
    (validate_ok_iff lib).mpr ⟨hshape, hexpected, hvalid read rfl rfl rfl⟩
  refine ⟨read, ?_, hread, fit_of_validate ⟨?_, hspells.distinct, hdistinct⟩ hread,
    ⟨rfl, rfl, rfl, rfl, rfl, rfl, rfl, hsame, hspells.alike⟩⟩
  · unfold fromStorage
    rw [hresult]
    change (ensure _ _).bind _ = _
    rw [ensure_ok_iff.mpr ⟨hpayload, hmeta _ hmetadata⟩]
    change (read.validateShape lib).bind _ = _
    rw [hshape]
    rfl
  · exact Json.wellFormed_respelled h.payload h.identity

end Node

end Pollard.Rust
