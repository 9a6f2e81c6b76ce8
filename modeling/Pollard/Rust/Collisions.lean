import Pollard.Rust.HashRope
import Pollard.Rust.KeyValue
import Pollard.Rust.Merge
import Pollard.Rust.Sqlite

/-!
# Identity collisions in Rust

Ids are hashes of texts that write `-0` as `0`, while the stores compare the values the payloads
were parsed to.  A node collides with the node of its id that a store holds exactly if the two
spell their zeros differently.
-/

namespace Pollard.Rust

open Lib Fallible

/-! ## The stores -/

def MemoryStore.backend (lib : Library) : Backend MemoryStore where
  put := fun s node => s.put lib node
  get := fun s id => s.get id
  tryExists := fun s id => .ok (s.exists? id)
  applyBatch := fun s nodes patches => s.applyBatch lib nodes patches

def HashRopeStore.backend (lib : Library) : Backend HashRopeStore where
  put := fun s node => s.put lib node
  get := fun s id => s.inner.get id
  tryExists := fun s id => .ok (s.inner.exists? id)
  applyBatch := fun s nodes patches => s.applyBatch lib nodes patches

def KvNodes.backend (lib : Library) : Backend KvNodes where
  put := fun s node => s.put lib node
  get := fun s id => s.get lib id
  tryExists := fun s id => s.tryExists id
  applyBatch := fun s nodes patches => s.applyBatch lib nodes patches

def SqliteNodes.backend (lib : Library) (settings : Stores.Interning.Settings) :
    Backend SqliteNodes where
  put := fun s node => s.put lib settings node
  get := fun s id => s.get lib id
  tryExists := fun s id => s.tryExists id
  applyBatch := fun s nodes patches => s.applyBatch lib settings nodes patches

/-! ## What each store checks -/

def mergeCollision : Error := .integrity "node identity collision during merge"

def importConflict (id : String) : Error :=
  .integrity s!"destination conflicts with imported node {id}"

/-- A store finds the nodes it reads, and `put` collides with other identities only. -/
structure Backend.Checked {σ : Type} (lib : Library) (store : Backend σ) : Prop where
  found : ∀ {s id node}, store.get s id = .ok node → store.tryExists s id = .ok true
  same : ∀ {s node existing}, store.get s node.id = .ok existing → node.validate lib = .ok () →
    existing.sameNode node = true → store.put s node ≠ .error putCollision

theorem Error.IsInvalid.ne_integrity {error : Error} (h : error.IsInvalid) (message : String) :
    error ≠ .integrity message := by
  rintro rfl
  exact h

section Library

variable (lib : Library)

theorem Node.record_fails (node : Node) : FailsWith Error.IsInvalid (node.record lib) :=
  .bind (Json.canonicalBytes_fails _) fun _ => .bind (Json.spelled_fails lib _) fun _ => .ok _

variable {lib}

theorem Node.checkParent_ne_collision {has : String → Bool} {node : Node} :
    node.checkParent has ≠ .error putCollision := by
  intro h
  obtain ⟨parent, -, heq⟩ := Node.checkParent_error h
  cases heq

theorem MemoryStore.put_ne_collision {s : MemoryStore} {node existing : Node}
    (h : s.nodes.get? node.id = some existing) (hvalid : node.validate lib = .ok ())
    (hsame : existing.sameIdentity node = true) : s.put lib node ≠ .error putCollision := by
  have hput : s.put lib node =
      (node.checkParent s.exists?).bind fun _ => s.putExisting existing node := by
    unfold MemoryStore.put
    rw [hvalid, h]
    rfl
  rw [hput]
  refine bind_ne_error Node.checkParent_ne_collision fun _ => ?_
  unfold MemoryStore.putExisting
  rw [ensure_ok_iff.mpr hsame]
  change (if _ then _ else _) ≠ _
  split
  · split
    · exact fun heq => absurd (Except.error.inj heq) (by decide)
    · exact nofun
  · exact nofun

theorem MemoryStore.checked : (MemoryStore.backend lib).Checked lib where
  found := by
    intro s id node h
    have hnode := MemoryStore.get_ok_iff.mp h
    change Except.ok (s.nodes.get? id).isSome = _
    rw [hnode]
    rfl
  same := by
    intro s node existing h hvalid hsame
    simp only [Node.sameNode, decide_eq_true_eq] at hsame
    exact MemoryStore.put_ne_collision (MemoryStore.get_ok_iff.mp h) hvalid hsame.2

theorem HashRopeStore.checked : (HashRopeStore.backend lib).Checked lib where
  found := fun {s _ _} h => (@MemoryStore.checked lib).found (s := s.inner) h
  same := by
    intro s node existing h hvalid hsame
    simp only [Node.sameNode, decide_eq_true_eq] at hsame
    have hinner := MemoryStore.put_ne_collision (MemoryStore.get_ok_iff.mp h) hvalid hsame.2
    exact bind_ne_error (ensure_ne_error (by decide)) fun _ =>
      bind_ne_error (fun heq => ((Node.record_fails lib node).map _ heq).ne_integrity _ rfl)
        fun _ => bind_ne_error hinner fun _ => nofun

theorem KvNodes.write_fails (s : KvNodes) (node : Node) :
    FailsWith Error.IsInvalid (s.write lib node) :=
  .bind (Node.record_fails lib node) fun _ => .ok _

theorem KvNodes.checked : (KvNodes.backend lib).Checked lib where
  found := by
    intro s id node h
    obtain ⟨record, hrecord, -⟩ := KvNodes.get_ok_iff.mp h
    change Except.ok (s.documents.get? id).isSome = _
    rw [hrecord]
    rfl
  same := by
    intro s node existing h hvalid hsame
    simp only [Node.sameNode, decide_eq_true_eq] at hsame
    obtain ⟨record, hrecord, hexisting⟩ := KvNodes.get_ok_iff.mp h
    have hput : s.put lib node =
        (node.checkParent s.documents.contains).bind fun _ => s.putExisting lib existing node := by
      unfold KvNodes.put
      rw [hvalid, hrecord]
      change (node.checkParent _).bind (fun _ => (nodeFromText lib record).bind _) = _
      rw [hexisting]
      rfl
    change s.put lib node ≠ _
    rw [hput]
    refine bind_ne_error Node.checkParent_ne_collision fun _ => ?_
    unfold KvNodes.putExisting
    rw [ensure_ok_iff.mpr hsame.2]
    change (if _ then _ else _) ≠ _
    split
    · split
      · exact fun heq => absurd (Except.error.inj heq) (by decide)
      · split
        · exact nofun
        · exact fun heq => (KvNodes.write_fails s _ _ heq).ne_integrity _ rfl
    · exact nofun

theorem SqliteNodes.getOptional_of_get {s : SqliteNodes} {id : String} {node : Node}
    (h : s.get lib id = .ok node) : s.getOptional lib id = .ok (some node) := by
  unfold SqliteNodes.get at h
  obtain ⟨found, hfound, h⟩ := bind_ok_iff.mp h
  rw [hfound]
  cases found with
  | none => cases h
  | some found => rw [Except.ok.inj h]

theorem SqliteNodes.columns_of_getOptional {s : SqliteNodes} {id : String} {node : Node}
    (h : s.getOptional lib id = .ok (some node)) : ∃ columns, s.columns.get? id = some columns := by
  unfold SqliteNodes.getOptional at h
  split at h
  · next columns row hcolumns _ => exact ⟨columns, hcolumns⟩
  · cases h

theorem SqliteNodes.updateMeta_fails {s : SqliteNodes} {id : String} {node : Node}
    (h : s.get lib id = .ok node) (patch : Json) :
    FailsWith Error.IsInvalid (s.updateMeta lib id patch) := by
  unfold SqliteNodes.updateMeta
  split
  · rw [h]
    refine .bind (.ok _) fun _ => .bind (Json.encode_fails _) fun _ => ?_
    split <;> exact .ok _
  · exact .error trivial

theorem SqliteNodes.checked (settings : Stores.Interning.Settings) :
    (SqliteNodes.backend lib settings).Checked lib where
  found := by
    intro s id node h
    obtain ⟨columns, hcolumns⟩ :=
      SqliteNodes.columns_of_getOptional (SqliteNodes.getOptional_of_get h)
    change Except.ok (s.columns.get? id).isSome = _
    rw [hcolumns]
    rfl
  same := by
    intro s node existing h hvalid hsame
    have hid : existing.id = node.id := by
      simp only [Node.sameNode, decide_eq_true_eq] at hsame
      exact hsame.1
    have hput : s.put lib settings node =
        (node.checkParent s.columns.contains).bind fun _ => s.putExisting lib existing node := by
      unfold SqliteNodes.put
      rw [hvalid, SqliteNodes.getOptional_of_get h]
      rfl
    change s.put lib settings node ≠ _
    rw [hput]
    refine bind_ne_error Node.checkParent_ne_collision fun _ => ?_
    unfold SqliteNodes.putExisting
    rw [ensure_ok_iff.mpr hsame]
    change (if _ then _ else _) ≠ _
    split
    · split
      · exact fun heq => absurd (Except.error.inj heq) (by decide)
      · rw [hid]
        exact fun heq => (SqliteNodes.updateMeta_fails h _ _ heq).ne_integrity _ rfl
    · exact nofun

/-! ## Never colliding -/

/-- Whatever a store is asked to take `node` in, with other nodes or alone, no check of its
identity fails. -/
structure NeverCollides (lib : Library) {σ : Type} (store : Backend σ) (s : σ) (node : Node) :
    Prop where
  put : store.put s node ≠ .error putCollision
  merge : ∀ (nodes : List Node) (replay : Bool),
    mergePlan lib store s nodes replay = .error mergeCollision →
      ∃ other ∈ nodes, other ≠ node ∧
        ∃ plan, mergeNode lib store s replay plan other = .error mergeCollision
  importing : ∀ nodes : List Node,
    importPlan lib store s nodes = .error (importConflict node.id) →
      (∃ other ∈ nodes, other ≠ node ∧
        ∃ found, importNode lib store s found other = .error (importConflict node.id)) ∨
      ∃ existing, store.get s node.id = .ok existing ∧
        (existing.resultText ≠ node.resultText ∨ existing.resultDigest ≠ node.resultDigest)

section Backend

variable {σ : Type} {store : Backend σ} {s : σ} {node existing : Node}

theorem mergeExisting_collision {replay : Bool} {plan : MergePlan} :
    mergeExisting lib replay plan existing node = .error mergeCollision ↔
      existing.sameNode node = false := by
  unfold mergeExisting
  cases hsame : existing.sameNode node with
  | false => exact iff_of_true rfl rfl
  | true =>
      refine iff_of_false ?_ nofun
      refine bind_ne_error (fun h => (ensure_eq h).1 rfl) fun _ => ?_
      refine bind_ne_error (ensure_ne_error fun h => ?_) fun _ => ?_
      · have htext := congrArg String.toList (Error.integrity.inj h)
        rw [String.toList_append] at htext
        have hhead := congrArg List.head? htext
        rw [List.head?_append] at hhead
        exact absurd (Option.some.inj hhead) (by decide)
      · refine bind_ne_error (fun h => (mergeMeta_fails lib _ _ _ h).ne_integrity _ rfl) fun _ => ?_
        refine bind_ne_error (fun h => ?_) fun _ => nofun
        split at h
        · exact (union_fails lib _ _ _ h).ne_integrity _ rfl
        · cases h

theorem mergeNode_eq (hchecked : store.Checked lib) (hget : store.get s node.id = .ok existing)
    (hvalid : node.validate lib = .ok ()) (hstored : existing.validate lib = .ok ())
    (replay : Bool) (plan : MergePlan) :
    mergeNode lib store s replay plan node = mergeExisting lib replay plan existing node := by
  unfold mergeNode
  rw [hvalid, hchecked.found hget, hget]
  change (existing.validate lib).bind _ = _
  rw [hstored]
  rfl

theorem importNode_eq (hchecked : store.Checked lib) (hget : store.get s node.id = .ok existing)
    (hvalid : node.validate lib = .ok ()) (hstored : existing.validate lib = .ok ())
    (found : ℕ × List Node) :
    importNode lib store s found node =
      (ensure (existing.sameNode node = true ∧ existing.resultText = node.resultText ∧
        existing.resultDigest = node.resultDigest) (importConflict node.id)).bind fun _ =>
          .ok (found.1 + 1, found.2) := by
  unfold importNode
  rw [hvalid, hchecked.found hget, hget]
  change (existing.validate lib).bind _ = _
  rw [hstored]
  rfl

theorem neverCollides_iff (hchecked : store.Checked lib)
    (hget : store.get s node.id = .ok existing) (hvalid : node.validate lib = .ok ())
    (hstored : existing.validate lib = .ok ()) :
    NeverCollides lib store s node ↔ existing.sameNode node = true := by
  constructor
  · intro h
    by_contra hdiffers
    have hround := fun plan => (mergeNode_eq hchecked hget hvalid hstored false plan).trans
      (mergeExisting_collision.mpr (Bool.eq_false_iff.mpr hdiffers))
    obtain ⟨other, hother, hne, -⟩ := h.merge [node] false (by
      change (mergeNode lib store s false _ node).bind _ = _
      rw [hround]
      rfl)
    exact hne (List.mem_singleton.mp hother)
  · intro hsame
    refine ⟨hchecked.same hget hvalid hsame, fun nodes replay h => ?_, fun nodes h => ?_⟩
    · obtain ⟨other, hother, plan, hround⟩ := foldlM_error h
      refine ⟨other, hother, ?_, plan, hround⟩
      rintro rfl
      rw [mergeNode_eq hchecked hget hvalid hstored, mergeExisting_collision, hsame] at hround
      cases hround
    · obtain ⟨other, hother, found, hround⟩ := foldlM_error h
      by_cases heq : other = node
      · subst heq
        rw [importNode_eq hchecked hget hvalid hstored] at hround
        refine .inr ⟨existing, hget, ?_⟩
        by_contra hresults
        push Not at hresults
        rw [ensure_ok_iff.mpr ⟨hsame, hresults⟩] at hround
        cases hround
      · exact .inl ⟨other, hother, heq, found, hround⟩

end Backend

/-- A library whose hash is one text, and which reads no results. -/
def sampleLibrary : Library :=
  ⟨fun _ => "0123456789abcdef0123456789abcdef0123456789abcdef0123456789abcdef", fun _ => none,
    fun _ => true, fun _ => none, fun _ => ""⟩

def zeroNode (zero : String) : Node :=
  ⟨sampleLibrary.sha [], none, .root, 0, .object [("a", .number zero)], none, none, none,
    .object []⟩

theorem validate_zeroNode :
    (zeroNode "0").validate sampleLibrary = .ok () ∧
      (zeroNode "-0").validate sampleLibrary = .ok () := by decide +kernel

end Library

end Pollard.Rust
