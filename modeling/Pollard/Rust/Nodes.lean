import Pollard.Rust.Texts
import Pollard.Tree

/-!
# Nodes in Rust

The record every store of the crate keeps, and the checks it passes.
-/

namespace Pollard.Rust

open Lib Fallible

/-- `Node` -/
structure Node where
  id : String
  parent : Option String
  kind : NodeKind
  attempt : ℕ
  payload : Json
  result : Option Json
  resultText : Option String
  resultDigest : Option String
  metadata : Json

namespace Node

/-- The state a node's metadata names. -/
def state (node : Node) : Option String := (node.metadata.get? "state").bind Json.asStr

/-- `same_identity` of the key-value store, which the memory store spells out. -/
def sameIdentity (a b : Node) : Bool :=
  a.parent = b.parent ∧ a.kind = b.kind ∧ a.attempt = b.attempt ∧ a.payload.equal b.payload

/-- `same_identity` of the SQLite store and of merge. -/
def sameNode (a b : Node) : Bool := a.id = b.id ∧ a.sameIdentity b

section Library

variable (lib : Library)

/-- How `PartialEq` of `Node` compares results. -/
def sameResult : Option Json → Option Json → Bool
  | none, none => true
  | some left, some right => left.resultValuesEqual lib right
  | _, _ => false

/-- `PartialEq` of `Node` -/
def equal (a b : Node) : Bool :=
  a.id = b.id ∧ sameIdentity a b ∧ a.resultText = b.resultText ∧
    a.resultDigest = b.resultDigest ∧ sameResult lib a.result b.result ∧
    a.metadata.resultValuesEqual lib b.metadata

/-- `expected_id` -/
def expectedId (node : Node) : Except Error String :=
  nodeId lib.sha node.kind.value node.parent node.attempt node.payload

/-- `validate_shape` -/
def validateShape (node : Node) : Except Error Unit := do
  ensure (hex64 node.id) (.integrity "node id must be 64 lowercase hex characters")
  (if node.kind = .root then
      ensure (node.parent = none) (.integrity "root nodes cannot have parents")
    else ensure (node.parent.any hex64) (.integrity "non-root nodes require a 64-hex parent"))
  ensure (node.payload.isObject ∧ node.metadata.isObject)
    (.invalid "payload and meta must be JSON objects")
  let _ ← node.payload.canonicalBytes
  node.metadata.validateFiniteJson lib
  ensure (node.resultDigest.all hex64) (.integrity "invalid result digest")

/-- The result of a node against its text and digest. -/
def validateResult (node : Node) : Except Error Unit :=
  match node.result, node.resultText, node.resultDigest with
  | none, none, none => .ok ()
  | some result, some text, some digest =>
      if digest ≠ Json.resultDigestFromText lib text then
        .error (.integrity "result digest does not match stored result")
      else
        match lib.fromStr text with
        | none => .error (.integrity "result text is not JSON")
        | some parsed =>
            if result.resultValuesEqual lib parsed then .ok ()
            else .error (.integrity "result differs from stored result text")
  | _, _, _ =>
      .error (.integrity "result, result_text and result_digest must be present together")

/-- `validate` -/
def validate (node : Node) : Except Error Unit := do
  node.validateShape lib
  ensure (node.id = (← node.expectedId lib))
    (.integrity "node id does not match identity fields")
  node.validateResult lib

end Library

end Node

/-- A stored node.  Its texts of the payload and the metadata are held as the values they
spell. -/
structure Record where
  id : String
  parent : Option String
  kind : NodeKind
  attempt : ℕ
  payload : Json
  result : Option String
  resultDigest : Option String
  metadata : Json
deriving DecidableEq

namespace Node

section Library

variable (lib : Library)

/-- What is stored of a node: `put_record`, `node_text` and `node_record`. -/
def record (node : Node) : Except Error Record := do
  let _ ← node.payload.canonicalBytes
  let metadata ← node.metadata.spelled lib
  return ⟨node.id, node.parent, node.kind, node.attempt, node.payload.respelled,
    node.resultText, node.resultDigest, metadata⟩

/-- The result that a stored text spells. -/
def parseResult : Option String → Except Error (Option Json)
  | none => .ok none
  | some text =>
      match lib.fromStr text with
      | some value => .ok (some value)
      | none => .error (.invalid "result text is not JSON")

/-- `from_storage` -/
def fromStorage (record : Record) : Except Error Node := do
  let result ← parseResult lib record.result
  ensure (lib.reads record.payload ∧ lib.reads record.metadata) (.invalid "text is not read")
  let node : Node :=
    ⟨record.id, record.parent, record.kind, record.attempt, record.payload, result,
      record.result, record.resultDigest, record.metadata⟩
  node.validateShape lib
  return node

theorem validate_ok_iff {node : Node} :
    node.validate lib = .ok () ↔ node.validateShape lib = .ok () ∧
      node.expectedId lib = .ok node.id ∧ node.validateResult lib = .ok () := by
  unfold validate
  constructor
  · intro h
    obtain ⟨_, hshape, h⟩ := bind_ok_iff.mp h
    obtain ⟨expected, hexpected, h⟩ := bind_ok_iff.mp h
    obtain ⟨_, heq, h⟩ := bind_ok_iff.mp h
    rw [ensure_ok_iff.mp heq]
    exact ⟨hshape, hexpected, h⟩
  · rintro ⟨hshape, hexpected, hresult⟩
    rw [hshape, hexpected]
    change (ensure (node.id = node.id) _).bind _ = _
    rw [ensure_ok_iff.mpr rfl]
    exact hresult

/-- What the shape of a node promises. -/
structure Shaped (node : Node) : Prop where
  hex : hex64 node.id = true
  parent : node.kind = .root ∧ node.parent = none ∨
    node.kind ≠ .root ∧ ∃ parent, node.parent = some parent ∧ hex64 parent = true
  payload : node.payload.isObject = true
  metadata : node.metadata.isObject = true
  written : ∃ octets, node.payload.write = .ok octets
  finite : node.metadata.validateFiniteJson lib = .ok ()
  digest : ∀ digest, node.resultDigest = some digest → hex64 digest = true

theorem shaped_of_validateShape {node : Node} (h : node.validateShape lib = .ok ()) :
    Shaped lib node := by
  obtain ⟨_, hhex, h⟩ := bind_ok_iff.mp h
  obtain ⟨_, hparent, h⟩ := bind_ok_iff.mp h
  obtain ⟨_, hobjects, h⟩ := bind_ok_iff.mp h
  obtain ⟨octets, hwritten, h⟩ := bind_ok_iff.mp h
  obtain ⟨_, hfinite, h⟩ := bind_ok_iff.mp h
  obtain ⟨hpayload, hmetadata⟩ := ensure_ok_iff.mp hobjects
  refine ⟨ensure_ok_iff.mp hhex, ?_, hpayload, hmetadata,
    ⟨octets, Json.canonicalBytes_ok_iff.mp hwritten⟩, hfinite, fun digest hdigest => ?_⟩
  · split at hparent
    · next hroot => exact .inl ⟨hroot, ensure_ok_iff.mp hparent⟩
    · next hroot => exact .inr ⟨hroot, (Option.any_eq_true _ _).mp (ensure_ok_iff.mp hparent)⟩
  · have hall := ensure_ok_iff.mp h
    rw [hdigest] at hall
    exact hall

theorem validateShape_of_shaped {node : Node} (h : Shaped lib node) :
    node.validateShape lib = .ok () := by
  obtain ⟨octets, hwritten⟩ := h.written
  have hparent : (if node.kind = .root then
      ensure (node.parent = none) (Error.integrity "root nodes cannot have parents")
    else ensure (node.parent.any hex64 = true)
      (Error.integrity "non-root nodes require a 64-hex parent")) = .ok () := by
    rcases h.parent with ⟨hroot, hnone⟩ | ⟨hroot, parent, hsome, hhex⟩
    · rw [if_pos hroot, ensure_ok_iff.mpr hnone]
    · rw [if_neg hroot, ensure_ok_iff.mpr]
      rw [hsome]
      exact hhex
  have hdigest : node.resultDigest.all hex64 = true := by
    cases hdigest : node.resultDigest with
    | none => rfl
    | some digest => exact h.digest digest hdigest
  unfold validateShape
  rw [ensure_ok_iff.mpr h.hex, hparent, ensure_ok_iff.mpr ⟨h.payload, h.metadata⟩,
    Json.canonicalBytes_ok_iff.mpr hwritten, h.finite]
  exact ensure_ok_iff.mpr hdigest

theorem shaped_of_validate {node : Node} (h : node.validate lib = .ok ()) : Shaped lib node :=
  shaped_of_validateShape lib ((validate_ok_iff lib).mp h).1

end Library

/-! ## Ids -/

/-- The octets an id is the hash of. -/
def idOctets (node : Node) : List ℕ :=
  documentOctets node.kind node.parent node.attempt node.payload.toValue

theorem nodeIdBytes_eq {node : Node} {octets : List ℕ} (hwell : node.payload.wellFormed = true)
    (hwritten : node.payload.write = .ok octets) :
    node.payload.toValue.isIdentity = true ∧
      nodeIdBytes node.kind.value node.parent node.attempt node.payload = .ok node.idOctets := by
  obtain ⟨hidentity, hsame⟩ := Json.write_eq_of_ok _ hwell hwritten
  refine ⟨hidentity, ?_⟩
  rw [idOctets, ← rust_nodeIdBytes hidentity, nodeIdBytes, nodeIdBytes, hwritten, hsame]

variable {lib : Library}

theorem id_eq {node : Node} (hwell : node.payload.wellFormed = true)
    (h : node.validate lib = .ok ()) : node.id = lib.sha node.idOctets := by
  obtain ⟨octets, hwritten⟩ := (shaped_of_validate lib h).written
  have hexpected := ((validate_ok_iff lib).mp h).2.1
  rw [expectedId, nodeId, (nodeIdBytes_eq hwell hwritten).2] at hexpected
  exact (Except.ok.inj hexpected).symm

/-- Valid nodes with one id have one identity, if their octets have one hash only as one. -/
theorem same_of_id {a b : Node} (hwellA : a.payload.wellFormed = true)
    (hwellB : b.payload.wellFormed = true) (ha : a.validate lib = .ok ())
    (hb : b.validate lib = .ok ()) (hid : a.id = b.id)
    (hinjective : lib.sha a.idOctets = lib.sha b.idOctets → a.idOctets = b.idOctets) :
    a.parent = b.parent ∧ a.kind = b.kind ∧ a.attempt = b.attempt ∧
      Value.SameJson a.payload.toValue b.payload.toValue := by
  have hshapedA := shaped_of_validate lib ha
  have hshapedB := shaped_of_validate lib hb
  obtain ⟨octetsA, hwrittenA⟩ := hshapedA.written
  obtain ⟨octetsB, hwrittenB⟩ := hshapedB.written
  rw [id_eq hwellA ha, id_eq hwellB hb] at hid
  obtain ⟨hkind, hparent, hattempt, hpayload⟩ := documentOctets_inj
    (nodeIdBytes_eq hwellA hwrittenA).1 (nodeIdBytes_eq hwellB hwrittenB).1 (hinjective hid)
  refine ⟨?_, hkind, Nat.cast_inj.mp hattempt, hpayload⟩
  rcases hshapedA.parent with ⟨hroot, hnone⟩ | ⟨hroot, parent, hsome, -⟩ <;>
    rcases hshapedB.parent with ⟨hroot', hnone'⟩ | ⟨hroot', parent', hsome', -⟩
  · rw [hnone, hnone']
  · exact absurd (hkind ▸ hroot) hroot'
  · exact absurd (hkind ▸ hroot') hroot
  · rw [hsome, hsome', Option.getD_some, Option.getD_some] at hparent
    rw [hsome, hsome', hparent]

/-- The identities of valid nodes with one id compare equal exactly if their payloads spell
zeros alike. -/
theorem sameIdentity_iff {a b : Node} (hwellA : a.payload.wellFormed = true)
    (hwellB : b.payload.wellFormed = true) (ha : a.validate lib = .ok ())
    (hb : b.validate lib = .ok ()) (hid : a.id = b.id)
    (hinjective : lib.sha a.idOctets = lib.sha b.idOctets → a.idOctets = b.idOctets) :
    a.sameIdentity b = true ↔ Json.ZerosAlike a.payload b.payload := by
  obtain ⟨hparent, hkind, hattempt, hpayload⟩ := same_of_id hwellA hwellB ha hb hid hinjective
  obtain ⟨octets, hwritten⟩ := (shaped_of_validate lib ha).written
  rw [← Json.equal_iff_zerosAlike a.payload b.payload hwellA hwellB
    (nodeIdBytes_eq hwellA hwritten).1 hpayload]
  simp [sameIdentity, hparent, hkind, hattempt]

end Node

end Pollard.Rust
