import Pollard.Identity.Texts
import Pollard.Lib.Unicode
import Pollard.Seal
import Pollard.Store
import Mathlib.Data.List.Induction

/-!
# Ids and seals as commitments

With SHA-256 as a function on octets, an id is the digest of one octet string.  If the
function is injective, an id stands for one identity and one ancestry, and the digest of a
seal for one sequence of entries.
-/

namespace Pollard

open Lib

/-! ## Octets -/

/-- `str.encode("utf-8")` -/
def utf8Bytes (s : String) : List ℕ := (s.toList.map Char.toNat).flatMap Unicode.utf8

theorem utf8Bytes_injective : Function.Injective utf8Bytes := by
  intro a b heq
  have hcodes := Unicode.flatMap_utf8_injective heq
  exact String.toList_inj.mp ((List.map_injective_iff.mpr fun c d h => Char.toNat_inj.mp h) hcodes)

/-- The document whose canonical bytes `node_id` hashes. -/
def Identity.document (identity : Identity) : Value :=
  .dict [("a", .int identity.attempt), ("k", .str identity.kind.value),
    ("p", .str identity.parent), ("pl", identity.payload)]

/-- The digests as they are taken with a hash function on octets. -/
def Hashing.sha256 (sha : List ℕ → String) : Hashing where
  node identity := sha (utf8Bytes ("pollard/v1\n" ++ identity.document.jsonText))
  result value := sha (utf8Bytes ("pollard/v1:result\n" ++ value.jsonText))
  redaction value := sha (utf8Bytes ("pollard/v1:redact\n" ++ value.jsonText))
  payload value := sha (utf8Bytes value.jsonText)
  document value := sha (utf8Bytes value.jsonText)

/-- The digest of a seal record under `SEAL_DOMAIN`. -/
def sealDigest (sha : List ℕ → String) (record : Value) : String :=
  sha (utf8Bytes ("pollard/v1:seal\n" ++ record.jsonText))

theorem NodeKind.value_injective : Function.Injective NodeKind.value := by
  intro a b heq
  have h := congrArg NodeKind.ofValue? heq
  rw [NodeKind.ofValue?_value, NodeKind.ofValue?_value] at h
  exact Option.some.inj h

/-- Equal digests of identity values under one domain are digests of one value. -/
theorem canonical_of_digest {sha : List ℕ → String} (hinj : Function.Injective sha)
    {domain : String} {a b : Value} (ha : a.isIdentity = true) (hb : b.isIdentity = true)
    (heq : sha (utf8Bytes (domain ++ a.jsonText)) = sha (utf8Bytes (domain ++ b.jsonText))) :
    a.canonical = b.canonical := by
  have htext := congrArg String.toList (utf8Bytes_injective (hinj heq))
  rw [String.toList_append, String.toList_append] at htext
  exact Value.jsonText_injective ha hb (String.toList_inj.mp (List.append_cancel_left htext))

theorem get?_of_canonical {a b : Value} (h : a.canonical = b.canonical) (key : String) :
    (a.get? key).map Value.canonical = (b.get? key).map Value.canonical := by
  rw [← Value.get?_canonical, h, Value.get?_canonical]

/-! ## Nodes -/

namespace Node

/-- `Node.make` accepts the node, with some metadata. -/
def Accepted (H : Hashing) (node : Node) : Prop :=
  ∃ metadata, make H node.kind node.parent node.payload node.attempt node.result metadata =
    .ok { node with metadata }

/-- The nodes have one identity. -/
structure SameIdentity (a b : Node) : Prop where
  kind : a.kind = b.kind
  parent : a.parent = b.parent
  attempt : a.attempt = b.attempt
  payload : Value.SameJson a.payload b.payload

theorem Accepted.spec {H : Hashing} {node : Node} (h : node.Accepted H) :
    node.id = node.expectedId H ∧ node.payload.isIdentity = true ∧
      (node.kind = .root ↔ node.parent = none) := by
  obtain ⟨metadata, hmake⟩ := h
  have hid := congrArg Node.id (eq_of_make hmake)
  refine ⟨hid, ?_, root_of_make hmake⟩
  unfold make at hmake
  cases hfields : checkFields node.kind node.parent node.payload node.attempt node.result
      metadata with
  | error e =>
      rw [hfields] at hmake
      cases hmake
  | ok u => exact (checkFields_ok_iff.mp hfields).2.1

/-- A parent is told by its text in the identity and the kind. -/
theorem parent_of_getD {a b : Node} (ha : a.kind = .root ↔ a.parent = none)
    (hb : b.kind = .root ↔ b.parent = none) (hkind : a.kind = b.kind)
    (hparent : a.parent.getD "" = b.parent.getD "") : a.parent = b.parent := by
  rw [hkind, hb] at ha
  cases hpa : a.parent with
  | none => exact (ha.mpr hpa).symm
  | some p =>
      cases hpb : b.parent with
      | none =>
          rw [ha.mp hpb] at hpa
          cases hpa
      | some q =>
          rw [hpa, hpb] at hparent
          exact congrArg some hparent

theorem sameIdentity_of_id {sha : List ℕ → String} (hinj : Function.Injective sha) {a b : Node}
    (ha : a.Accepted (.sha256 sha)) (hb : b.Accepted (.sha256 sha)) (hid : a.id = b.id) :
    SameIdentity a b := by
  obtain ⟨hida, hpayloada, hroota⟩ := ha.spec
  obtain ⟨hidb, hpayloadb, hrootb⟩ := hb.spec
  rw [hida, hidb] at hid
  have hcanonical := canonical_of_digest hinj
    (a := (Node.identity a).document) (b := (Node.identity b).document)
    (by simp [Identity.document, Node.identity, Value.isIdentity, Value.isIdentityEntries,
      Value.isIdentity_canonical, hpayloada])
    (by simp [Identity.document, Node.identity, Value.isIdentity, Value.isIdentityEntries,
      Value.isIdentity_canonical, hpayloadb]) hid
  have hattempt := get?_of_canonical hcanonical "a"
  have hkind := get?_of_canonical hcanonical "k"
  have hparent := get?_of_canonical hcanonical "p"
  have hpayload := get?_of_canonical hcanonical "pl"
  simp [Identity.document, Node.identity, Value.get?, Assoc.lookup, Value.canonical,
    Value.canonical_canonical] at hattempt hkind hparent hpayload
  have hkind := NodeKind.value_injective hkind
  exact ⟨hkind, parent_of_getD hroota hrootb hkind hparent, hattempt, hpayload⟩

end Node

/-! ## Ancestries -/

/-- A node with its ancestors up to a root. -/
def Lineage : List Node → Prop
  | [] => False
  | [root] => root.parent = none
  | node :: above :: rest => node.parent = some above.id ∧ Lineage (above :: rest)

theorem lineage_of_id {sha : List ℕ → String} (hinj : Function.Injective sha) {as bs : List Node}
    (ha : ∀ node ∈ as, node.Accepted (.sha256 sha)) (hb : ∀ node ∈ bs, node.Accepted (.sha256 sha))
    (hlineage : Lineage as) (hlineage' : Lineage bs)
    (hid : as.head?.map Node.id = bs.head?.map Node.id) :
    List.Forall₂ Node.SameIdentity as bs := by
  induction as generalizing bs with
  | nil => exact hlineage.elim
  | cons a as ih =>
      cases bs with
      | nil => exact hlineage'.elim
      | cons b bs =>
          rw [List.forall_mem_cons] at ha hb
          have hsame := Node.sameIdentity_of_id hinj ha.1 hb.1 (Option.some.inj hid)
          refine .cons hsame ?_
          cases as with
          | nil =>
              cases bs with
              | nil => exact .nil
              | cons above bs =>
                  rw [Lineage, hsame.parent, hlineage'.1] at hlineage
                  cases hlineage
          | cons above as =>
              cases bs with
              | nil =>
                  rw [Lineage, ← hsame.parent, hlineage.1] at hlineage'
                  cases hlineage'
              | cons above' bs =>
                  have habove := hsame.parent
                  rw [hlineage.1, hlineage'.1] at habove
                  exact ih ha.2 hb.2 hlineage.2 hlineage'.2 habove

/-! ## Seals -/

namespace Seal

/-- What a seal covers of a node. -/
def coveredOf (H : Hashing) (node : Node) : Covered :=
  ⟨node.id, node.parent, node.kind.value, node.result.map fun result => H.result result.canonical⟩

/-- `_validate_node`; the digest of a result is taken of it here. -/
def validateNode (H : Hashing) (node : Node) : Except PyError Unit :=
  if node.id ≠ node.expectedId H then
    .error (.integrityError s!"node id does not match identity fields: {node.id}")
  else .ok ()

/-- `seal` -/
def sealStore (sha : List ℕ → String) (store : MemoryStore) (rootId : String) :
    Except PyError SealReport := do
  let nodes ← store.walk rootId
  nodes.forM (validateNode (.sha256 sha))
  return sealNodes (sealDigest sha) rootId (nodes.map (coveredOf (.sha256 sha)))

theorem sealFrom_append (digest : Value → String) (index : ℕ) (previous : String)
    (nodes : List Covered) (node : Covered) :
    (sealFrom digest index previous (nodes ++ [node])).2 =
      digest (record (index + nodes.length) node (sealFrom digest index previous nodes).2) := by
  induction nodes generalizing index previous with
  | nil => rfl
  | cons first nodes ih =>
      rw [List.cons_append, sealFrom, ih, sealFrom, List.length_cons, Nat.add_right_comm,
        Nat.add_assoc]

/-- A record tells its node, and what came before. -/
theorem record_binding {sha : List ℕ → String} (hinj : Function.Injective sha)
    (hne : ∀ bytes, sha bytes ≠ "") {i j : ℕ} {p q : String} {a b : Node}
    (ha : a.Accepted (.sha256 sha)) (hb : b.Accepted (.sha256 sha))
    (heq : sealDigest sha (record i (coveredOf (.sha256 sha) a) p) =
      sealDigest sha (record j (coveredOf (.sha256 sha) b) q)) :
    coveredOf (.sha256 sha) a = coveredOf (.sha256 sha) b ∧ p = q := by
  have hcanonical := canonical_of_digest hinj (by rfl) (by rfl) heq
  have hid := get?_of_canonical hcanonical "node_id"
  have hparent := get?_of_canonical hcanonical "parent_id"
  have hkind := get?_of_canonical hcanonical "kind"
  have hresult := get?_of_canonical hcanonical "result_digest"
  have hprevious := get?_of_canonical hcanonical "previous"
  simp [record, coveredOf, Value.get?, Assoc.lookup, Value.canonical] at hid hparent hkind
  simp [record, coveredOf, Value.get?, Assoc.lookup, Value.canonical] at hresult hprevious
  have hkind := NodeKind.value_injective hkind
  refine ⟨?_, hprevious⟩
  simp only [coveredOf, Covered.mk.injEq]
  refine ⟨hid, Node.parent_of_getD ha.spec.2.2 hb.spec.2.2 hkind hparent, by rw [hkind], ?_⟩
  cases hra : a.result with
  | none =>
      cases hrb : b.result with
      | none => rfl
      | some result =>
          rw [hra, hrb] at hresult
          exact absurd hresult.symm (hne _)
  | some result =>
      cases hrb : b.result with
      | none =>
          rw [hra, hrb] at hresult
          exact absurd hresult (hne _)
      | some other =>
          rw [hra, hrb] at hresult
          exact congrArg some hresult

theorem covered_of_digest {sha : List ℕ → String} (hinj : Function.Injective sha)
    (hne : ∀ bytes, sha bytes ≠ "") {as bs : List Node}
    (ha : ∀ node ∈ as, node.Accepted (.sha256 sha)) (hb : ∀ node ∈ bs, node.Accepted (.sha256 sha))
    (heq : (sealFrom (sealDigest sha) 0 "" (as.map (coveredOf (.sha256 sha)))).2 =
      (sealFrom (sealDigest sha) 0 "" (bs.map (coveredOf (.sha256 sha)))).2) :
    as.map (coveredOf (.sha256 sha)) = bs.map (coveredOf (.sha256 sha)) := by
  induction as using List.reverseRecOn generalizing bs with
  | nil =>
      induction bs using List.reverseRecOn with
      | nil => rfl
      | append_singleton bs b _ =>
          rw [List.map_append, List.map_singleton, sealFrom_append] at heq
          exact absurd heq.symm (hne _)
  | append_singleton as a ih =>
      induction bs using List.reverseRecOn with
      | nil =>
          rw [List.map_append, List.map_singleton, sealFrom_append] at heq
          exact absurd heq (hne _)
      | append_singleton bs b _ =>
          rw [List.forall_mem_append, List.forall_mem_singleton] at ha hb
          rw [List.map_append, List.map_singleton, List.map_append, List.map_singleton] at heq ⊢
          rw [sealFrom_append, sealFrom_append] at heq
          obtain ⟨hlast, hbefore⟩ := record_binding hinj hne ha.2 hb.2 heq
          rw [ih ha.1 hb.1 hbefore, hlast]

theorem sealStore_ok {sha : List ℕ → String} {store : MemoryStore} {rootId : String}
    {report : SealReport} (h : sealStore sha store rootId = .ok report) :
    ∃ nodes, store.walk rootId = .ok nodes ∧
      report = sealNodes (sealDigest sha) rootId (nodes.map (coveredOf (.sha256 sha))) := by
  unfold sealStore at h
  cases hwalk : store.walk rootId with
  | error e =>
      rw [hwalk] at h
      cases h
  | ok nodes =>
      rw [hwalk] at h
      refine ⟨nodes, rfl, ?_⟩
      simp only [bind, Except.bind] at h
      split at h
      · cases h
      · cases h
        rfl

theorem mem_of_walk {store : MemoryStore} {rootId : String} {nodes : List Node}
    (h : store.walk rootId = .ok nodes) {node : Node} (hnode : node ∈ nodes) :
    node ∈ store.nodes := by
  cases hroot : store.contains rootId with
  | false =>
      obtain ⟨e, he⟩ := MemoryStore.walk_of_not_contains hroot
      rw [he] at h
      cases h
  | true =>
      obtain ⟨walked, hwalk, hperm⟩ := MemoryStore.walk_subtree hroot
      rw [hwalk] at h
      cases h
      exact (List.mem_filter.mp (hperm.mem_iff.mp hnode)).1

end Seal

/-! ## Binding -/

/-- Nodes of one id have one identity and one ancestry, and seals of one digest have the same
entries. -/
theorem ids_and_seals_bind (sha : List ℕ → String) (hinj : Function.Injective sha)
    (hne : ∀ bytes, sha bytes ≠ "") :
    (∀ a b : Node, a.Accepted (.sha256 sha) → b.Accepted (.sha256 sha) → a.id = b.id →
      a.SameIdentity b) ∧
    (∀ as bs : List Node, (∀ node ∈ as, node.Accepted (.sha256 sha)) →
      (∀ node ∈ bs, node.Accepted (.sha256 sha)) → Lineage as → Lineage bs →
      as.head?.map Node.id = bs.head?.map Node.id → List.Forall₂ Node.SameIdentity as bs) ∧
    ∀ (s t : MemoryStore) (rootId otherId : String) (report other : Seal.SealReport),
      (∀ node ∈ s.nodes, node.Accepted (.sha256 sha)) →
      (∀ node ∈ t.nodes, node.Accepted (.sha256 sha)) →
      Seal.sealStore sha s rootId = .ok report → Seal.sealStore sha t otherId = .ok other →
      report.digest = other.digest →
      report.entries.map Seal.SealEntry.covered = other.entries.map Seal.SealEntry.covered := by
  refine ⟨fun a b => Node.sameIdentity_of_id hinj, fun as bs => lineage_of_id hinj, ?_⟩
  intro s t rootId otherId report other hs ht hreport hother hdigest
  obtain ⟨nodes, hwalk, rfl⟩ := Seal.sealStore_ok hreport
  obtain ⟨others, hwalk', rfl⟩ := Seal.sealStore_ok hother
  simp only [Seal.sealNodes, Seal.covered_sealFrom]
  exact Seal.covered_of_digest hinj hne (fun node h => hs node (Seal.mem_of_walk hwalk h))
    (fun node h => ht node (Seal.mem_of_walk hwalk' h)) hdigest

/-- Octets as their own digest. -/
def ownDigest (bytes : List ℕ) : String := "#" ++ (Value.list (bytes.map fun n : ℕ => .int n)).dumps

theorem ownDigest_injective : Function.Injective ownDigest := by
  intro a b heq
  have htext := congrArg String.toList heq
  simp only [ownDigest, String.toList_append] at htext
  have hidentity (bytes : List ℕ) :
      (Value.list (bytes.map fun n : ℕ => .int n)).isIdentity = true := by
    rw [Value.isIdentity_list]
    intro item hitem
    obtain ⟨n, -, rfl⟩ := List.mem_map.mp hitem
    rfl
  have hlists := Value.dumps_injective (hidentity a) (hidentity b)
    (String.toList_inj.mp (List.append_cancel_left htext))
  injection hlists with hitems
  refine List.map_injective_iff.mpr (fun n m h => ?_) hitems
  injection h with hint
  exact Int.ofNat_inj.mp hint

theorem ownDigest_ne_empty (bytes : List ℕ) : ownDigest bytes ≠ "" := by
  intro heq
  have htext := congrArg String.toList heq
  rw [ownDigest, String.toList_append] at htext
  exact absurd htext (List.cons_ne_nil _ _)

/-- A root whose payload holds one entry. -/
def rootOf (H : Hashing) (value : Value) : Node :=
  ⟨H.nodeId .root none 0 (.dict [("x", value)]), none, .root, 0, .dict [("x", value)], none, ∅⟩

theorem true_and_one_have_two_ids :
    (rootOf (.sha256 ownDigest) (.bool true)).id ≠ (rootOf (.sha256 ownDigest) (.int 1)).id := by
  intro heq
  have hsame := (ids_and_seals_bind ownDigest ownDigest_injective ownDigest_ne_empty).1
    (rootOf _ (.bool true)) (rootOf _ (.int 1)) ⟨∅, rfl⟩ ⟨∅, rfl⟩ heq
  exact absurd hsame.payload (by decide)

end Pollard
