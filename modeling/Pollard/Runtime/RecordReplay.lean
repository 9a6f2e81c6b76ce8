import Pollard.Runtime.Recording
import Pollard.Runtime.Replays

/-!
# Recording and replaying

What an operation that returned has recorded, replay finds again: on the store of the recording,
or on a later one, the same operation returns in replay mode and leaves its run at the same node.
-/

namespace Pollard

open Lib Effect

/-- The runtime in replay mode. -/
def Runtime.replaying (rt : Runtime) : Runtime := { rt with mode := .replay }

/-- Asked about a recording, no meter raises, nor does who wants its chunks. -/
structure CallEnv.Replays (env : CallEnv) : Prop where
  avoidedCharge : ∀ index, ∃ amount, env.avoidedCharge index = .ok amount
  onDelta : ∀ onDelta ∈ env.onDelta, ∀ index, onDelta index = .ok ()

section Runtime

variable {H : Hashing} {rt : Runtime} {env : CallEnv}

open MemoryStore

/-! ## Finding a recording -/

theorem verifyRecording_named {store : MemoryStore} (h : store.Named H) (id : String) :
    verifyRecording H store id = .ok () := by
  have hnone : ((store.ancestors id).filterMap store.find?).filter
      (fun node => node.id ≠ node.expectedId H) = [] := by
    apply List.filter_eq_nil_iff.mpr
    intro node hnode
    obtain ⟨other, -, hfind⟩ := List.mem_filterMap.mp hnode
    simpa using h node (mem_of_find? hfind).1
  unfold verifyRecording
  dsimp only
  rw [hnone]

theorem replayNodeOrMissing_named {store : MemoryStore} (h : store.Named H) {node stored : Node}
    (hfind : store.find? node.id = some stored) :
    replayNodeOrMissing H store node = .ok stored := by
  unfold replayNodeOrMissing
  rw [hfind]
  dsimp only
  rw [verifyRecording_named h]
  rfl

theorem chargeToDecimal_toJson (q : Decimal) :
    ∃ amount, chargeToDecimal (chargeToJson q) = .ok amount := by
  unfold chargeToJson
  split
  · exact ⟨_, rfl⟩
  · exact ⟨_, rfl⟩

/-- The charges are amounts, written as charges are. -/
def Amounts (charges : Dict String Value) : Prop :=
  ∀ value ∈ charges.values, ∃ amount, chargeToDecimal value = .ok amount

theorem avoidedCharges_ok (henv : env.Replays) (index : ℕ) (meters : List Meter)
    {charges : Dict String Value} (hcharges : Amounts charges) :
    ∃ avoided, avoidedCharges env index meters charges = .ok avoided ∧ Amounts avoided := by
  induction meters generalizing index charges with
  | nil => exact ⟨charges, rfl, hcharges⟩
  | cons meter meters ih =>
      obtain ⟨amount, hamount⟩ := henv.avoidedCharge index
      rw [avoidedCharges, hamount]
      apply ih
      split
      · exact hcharges
      · exact Dict.forall_values_set hcharges (chargeToDecimal_toJson amount)

theorem addAvoided_ok {charges : Dict String Value} (hcharges : Amounts charges) (s : Session) :
    ∃ t, addAvoided charges s = .ok () t ∧ t.store = s.store ∧ t.run.place = s.run.place := by
  have hframe : Frame fun s t : Session => t.store = s.store ∧ t.run.place = s.run.place :=
    ⟨fun _ => ⟨rfl, rfl⟩, fun h h' => ⟨h'.1.trans h.1, h'.2.trans h.2⟩⟩
  refine hframe.forM_ok (fun e he s => ?_) s
  obtain ⟨amount, hamount⟩ := hcharges e.2 (List.mem_map_of_mem he)
  dsimp only
  rw [bind_of_ok (get_apply s), hamount, bind_of_ok (orRaise_ok _ _)]
  exact ⟨_, rfl, rfl, rfl⟩

theorem reemitChunks_ok (henv : env.Replays) (node : Node) : reemitChunks env node = .ok () := by
  unfold reemitChunks
  split
  · next onDelta chunks hdelta _ =>
      generalize (chunks.filter Value.isDict).zipIdx = indexed
      induction indexed with
      | nil => rfl
      | cons e indexed ih =>
          change (onDelta e.2 >>= fun _ => indexed.forM fun e => onDelta e.2) = _
          rw [henv.onDelta onDelta hdelta e.2]
          exact ih
  · rfl

/-- A recording with a result is found, and the cursor moves to it. -/
theorem recordedNode_replays (henv : env.Replays) (hmode : rt.mode = .replay) {kind : NodeKind}
    {payload : Value} {attempt : ℤ} {s : Session} {node : Node}
    (hfields : Node.checkFields kind (some s.run.cursorId) payload attempt none ∅ = .ok ())
    (hnamed : s.store.Named H)
    (hfind : s.store.find? (H.nodeId kind (some s.run.cursorId) attempt payload) = some node)
    (hresult : node.result ≠ none) :
    ∃ t, recordedNode H rt env kind payload attempt s = .ok (some node) t ∧ t.store = s.store ∧
      t.run.place = (s.run.rootId, s.run.label, node.id) := by
  have hfound : recordedNodeOrMissing H rt s.store kind s.run.cursorId payload attempt =
      .ok (some node) := by
    unfold recordedNodeOrMissing
    rw [if_neg (by simp [hmode])]
    unfold Node.make
    rw [hfields]
    refine Fallible.bind_ok_iff.mpr ⟨_, rfl, ?_⟩
    dsimp only
    rw [hfind, hmode]
    dsimp only
    rw [if_neg hresult, if_pos rfl, verifyRecording_named hnamed]
    rfl
  have hnone : Amounts ∅ := by simp [Amounts, Dict.values]
  obtain ⟨avoided, havoided, hamounts⟩ := avoidedCharges_ok henv 0 rt.meters hnone
  obtain ⟨t, hadded, hstore, hplace⟩ := addAvoided_ok hamounts s
  refine ⟨{ t with run := { t.run with cursorId := node.id } }, ?_, hstore, ?_⟩
  · unfold recordedNode
    rw [bind_of_ok (get_apply s), hfound, bind_of_ok (orRaise_ok _ _)]
    dsimp only
    rw [havoided, bind_of_ok (orRaise_ok _ _), bind_of_ok hadded, hmode, if_neg (by decide)]
    rw [reemitChunks_ok henv]
    rfl
  · exact congrArg (fun place => (place.1, place.2.1, node.id)) hplace

/-! ## Recording -/

/-- A node is stored below another one, after the nodes of shared scopes. -/
structure Stored (H : Hashing) (kind : NodeKind) (payload : Value) (attempt : ℤ)
    (parentId : String) (before after : MemoryStore) : Prop where
  fields : Node.checkFields kind (some parentId) payload attempt none ∅ = .ok ()
  recorded : Recorded H before after
  found : ∃ node, after.find? (H.nodeId kind (some parentId) attempt payload) = some node ∧
    (before.Answered → kind.isCall = true → node.result ≠ none)

theorem fields_of_make {kind : NodeKind} {parent : Option String} {payload : Value} {attempt : ℤ}
    {result : Option Value} {metadata : Dict String Value} {node : Node}
    (h : Node.make H kind parent payload attempt result metadata = .ok node) :
    Node.checkFields kind parent payload attempt none ∅ = .ok () := by
  unfold Node.make at h
  obtain ⟨_, hfields, -⟩ := Fallible.map_ok_iff.mp h
  obtain ⟨-, hidentity, hroot, hattempt, -⟩ := Node.checkFields_ok_iff.mp hfields
  exact Node.checkFields_ok_iff.mpr
    ⟨by simp, hidentity, hroot, hattempt, by simp [Dict.values]⟩

/-- What a put stores below a node. -/
theorem stored_of_put {kind : NodeKind} {parentId : String} {payload : Value} {attempt : ℤ}
    {result : Option Value} {metadata : Dict String Value} {node : Node}
    {before store after : MemoryStore}
    (hmade : Node.make H kind (some parentId) payload attempt result metadata = .ok node)
    (hresult : kind.isCall = true → result ≠ none) (hbefore : Recorded H before store)
    (hput : store.put H node = .ok after) :
    Stored H kind payload attempt parentId before after := by
  have hnode := Node.eq_of_make hmade
  have hcall : node.kind.isCall = true → node.result ≠ none := by
    rw [hnode]
    exact hresult
  obtain ⟨hrecorded, stored, hfind, -, hanswered⟩ := recorded_put hput hcall
  refine ⟨fields_of_make hmade, hbefore.trans hrecorded, stored, ?_, fun hall hkind => ?_⟩
  · rw [← hfind, hnode]
  · apply hanswered (hbefore.answered hall)
    rw [hnode]
    exact hkind

theorem callWith_stored {flavor : Flavor} (hmode : rt.mode = .record) {kind : NodeKind}
    {payload : Value} {attempt : ℤ} {keepChunks : Bool}
    {action : Option (Bool × List (ℕ × Decision))} {s t : Session} {live : Node}
    (h : callWith H rt flavor env kind payload attempt keepChunks action s = .ok live t) :
    Stored H kind payload attempt s.run.cursorId s.store t.store ∧
      t.run.place = (s.run.rootId, s.run.label,
        H.nodeId kind (some s.run.cursorId) attempt payload) := by
  have hreplay : rt.mode ≠ .replay := by
    rw [hmode]
    decide
  unfold callWith at h
  obtain ⟨bytes, m, hpayload, h⟩ := bind_eq_ok h
  obtain ⟨hbytes, rfl⟩ := orRaise_eq_ok hpayload
  obtain ⟨rfl, hidentity⟩ := Value.isIdentity_of_canonicalBytes hbytes
  obtain ⟨found, m, hfound, h⟩ := bind_eq_ok h
  obtain ⟨rfl, rfl⟩ := recordedNode_record H rt env hmode hfound
  dsimp only at h
  obtain ⟨reservation, n, hpassed, h⟩ := bind_eq_ok h
  obtain ⟨hbound, hrun⟩ := precheck_recorded hpassed
  obtain ⟨node, result, metadata, hmade, hput, hplace⟩ := callReserved_moves hreplay h
  have hnode : node.id = H.nodeId kind (some n.run.cursorId) attempt payload := by
    rw [Node.eq_of_make hmade]
    unfold Hashing.nodeId
    rw [Value.canonical_canonical]
  obtain ⟨hfields, hrecorded, hstored⟩ := stored_of_put hmade (fun _ => by simp) hbound hput
  unfold Hashing.nodeId at hstored
  rw [Value.canonical_canonical] at hstored
  rw [hnode] at hplace
  rw [hrun] at hplace hstored hfields
  refine ⟨⟨?_, hrecorded, hstored⟩, hplace⟩
  obtain ⟨hnone, -, hroot, hattempt, hmeta⟩ := Node.checkFields_ok_iff.mp hfields
  rw [Value.isIdentity_canonical] at hidentity
  exact Node.checkFields_ok_iff.mpr ⟨hnone, hidentity, hroot, hattempt, hmeta⟩

theorem Stored.canonical {kind : NodeKind} {payload : Value} {attempt : ℤ} {parentId : String}
    {before after : MemoryStore} (h : Stored H kind payload attempt parentId before after) :
    payload.isIdentity = true ∧ Stored H kind payload.canonical attempt parentId before after := by
  obtain ⟨hnone, hidentity, hroot, hattempt, hmeta⟩ := Node.checkFields_ok_iff.mp h.fields
  refine ⟨hidentity, ?_, h.recorded, ?_⟩
  · rw [← Value.isIdentity_canonical] at hidentity
    exact Node.checkFields_ok_iff.mpr ⟨hnone, hidentity, hroot, hattempt, hmeta⟩
  · unfold Hashing.nodeId
    rw [Value.canonical_canonical]
    exact h.found

theorem dispatchRegistered_stored {flavor : Flavor} {spec : ActionSpec} {payload : Value}
    {attempt : ℤ} {consulted : List (ℕ × Decision)} {s t : Session} {live : Node}
    (hmode : rt.mode = .record) (hdry : rt.dryRun = false)
    (h : dispatchRegistered H rt flavor env spec payload attempt consulted s = .ok live t) :
    Stored H .toolCall payload attempt s.run.cursorId s.store t.store ∧
      t.run.place = (s.run.rootId, s.run.label,
        H.nodeId .toolCall (some s.run.cursorId) attempt payload) := by
  unfold dispatchRegistered at h
  obtain ⟨found, m, hfound, h⟩ := bind_eq_ok h
  obtain ⟨rfl, rfl⟩ := recordedNode_record H rt env hmode hfound
  dsimp only at h
  rw [if_neg (by simp [hdry])] at h
  split at h
  · exact absurd h (refusePolicy_ne_ok H rt env)
  · exact callWith_stored hmode h

/-- What a registered call that returned has passed. -/
theorem registeredToolCall_stored {flavor : Flavor} {registry : Registry} {name : String}
    {args : Value} {version : Option String} {attempt : ℤ} {s t : Session} {live : Node}
    (hmode : rt.mode = .record) (hdry : rt.dryRun = false)
    (h : registeredToolCall H rt flavor env registry name args version attempt s = .ok live t) :
    ∃ spec auditArgs, registry.specs.get? name = some spec ∧
      spec.redactArgs H args = .ok auditArgs ∧
      (version.any fun version => version ≠ spec.version) = false ∧
      spec.validateArgs args = .ok none ∧
      Stored H .toolCall (registeredPayload registry spec auditArgs) attempt s.run.cursorId
        s.store t.store ∧
      t.run.place = (s.run.rootId, s.run.label, H.nodeId .toolCall (some s.run.cursorId) attempt
        (registeredPayload registry spec auditArgs)) := by
  have hreplay : rt.mode ≠ .replay := by
    rw [hmode]
    decide
  unfold registeredToolCall at h
  cases hspec : registry.specs.get? name with
  | none =>
      rw [hspec] at h
      exact absurd h (refusePolicy_ne_ok H rt env)
  | some spec =>
      rw [hspec] at h
      obtain ⟨auditArgs, m, hargs, h⟩ := bind_eq_ok h
      obtain ⟨hredact, rfl⟩ := orRaise_eq_ok hargs
      dsimp only at h
      split at h
      · exact absurd h (refusePolicy_ne_ok H rt env)
      · next hversion =>
          obtain ⟨finding, m, hfinding, h⟩ := bind_eq_ok h
          obtain ⟨hvalid, rfl⟩ := orRaise_eq_ok hfinding
          cases finding with
          | some finding => exact absurd h (refusePolicy_ne_ok H rt env)
          | none =>
              dsimp only at h
              refine ⟨spec, auditArgs, rfl, hredact, Bool.eq_false_iff.mpr hversion, hvalid, ?_⟩
              have happroved : ∀ m : Session, (do
                  let approved ← checkDurableApprovals H rt env spec args
                  let consulted ← consultPolicies H rt env spec args
                    (registeredPayload registry spec auditArgs) attempt 0 rt.policies approved
                  dispatchRegistered H rt flavor env spec
                    (registeredPayload registry spec auditArgs) attempt consulted : RunM Node) m =
                    .ok live t →
                  ∃ consulted, dispatchRegistered H rt flavor env spec
                    (registeredPayload registry spec auditArgs) attempt consulted m =
                      .ok live t := by
                intro m h
                obtain ⟨approved, n, happroved, h⟩ := bind_eq_ok h
                obtain ⟨rfl, -⟩ := checkDurableApprovals_ok H rt env happroved
                obtain ⟨consulted, n, hconsulted, h⟩ := bind_eq_ok h
                obtain ⟨rfl, -⟩ := consultPolicies_ok H rt env hconsulted
                exact ⟨consulted, h⟩
              split at h
              · obtain ⟨found, m, hfound, h⟩ := bind_eq_ok h
                obtain ⟨rfl, rfl⟩ := recordedNode_record H rt env hmode hfound
                obtain ⟨consulted, h⟩ := happroved _ h
                exact dispatchRegistered_stored hmode hdry h
              · obtain ⟨consulted, h⟩ := happroved _ h
                exact dispatchRegistered_stored hmode hdry h

theorem note_stored {payload : Value} {attempt : ℤ} {s t : Session} {noted : Node}
    (hmode : rt.mode = .record) (h : note H rt env payload attempt s = .ok noted t) :
    Stored H .note payload attempt s.run.cursorId s.store t.store ∧
      t.run.place = (s.run.rootId, s.run.label,
        H.nodeId .note (some s.run.cursorId) attempt payload) := by
  have hreplay : rt.mode ≠ .replay := by
    rw [hmode]
    decide
  unfold note at h
  rw [bind_of_ok (get_apply s)] at h
  obtain ⟨node, m, hnode, h⟩ := bind_eq_ok h
  obtain ⟨hmade, rfl⟩ := orRaise_eq_ok hnode
  rw [if_neg hreplay] at h
  obtain ⟨reservation, m, hpassed, h⟩ := bind_eq_ok h
  obtain ⟨hbound, hrun⟩ := precheck_recorded hpassed
  obtain ⟨hput, hplace⟩ := record_moves hreplay h
  refine ⟨stored_of_put hmade (fun hcall => by cases hcall) hbound hput, ?_⟩
  rw [hplace, hrun, Node.eq_of_make hmade]

theorem branch_stored {attempt : ℤ} {budget : Option Budget} {s t : Session} {child : Run}
    (hmode : rt.mode = .record) (h : branch H rt env attempt budget s = .ok child t) :
    Stored H .note branchPayload attempt s.run.cursorId s.store t.store ∧ t.run = s.run ∧
      child = s.run.child (H.nodeId .note (some s.run.cursorId) attempt branchPayload) budget := by
  have hbranched := branch_ok H rt h
  refine ⟨?_, hbranched.run, hbranched.isChild⟩
  have hreplay : rt.mode ≠ .replay := by
    rw [hmode]
    decide
  unfold branch at h
  rw [bind_of_ok (get_apply s)] at h
  obtain ⟨anchor, m, hanchor, h⟩ := bind_eq_ok h
  obtain ⟨hmade, rfl⟩ := orRaise_eq_ok hanchor
  rw [if_neg hreplay] at h
  obtain ⟨reservation, m, hpassed, h⟩ := bind_eq_ok h
  obtain ⟨hbound, -⟩ := precheck_recorded hpassed
  obtain ⟨stored, n, hput, h⟩ := bind_eq_ok h
  rw [bind_of_ok (get_apply n)] at h
  cases h
  apply stored_of_put hmade (fun hcall => by cases hcall) hbound
  unfold onStore focus at hput
  rw [putNode_apply H rt anchor m.store hreplay] at hput
  cases hwrite : m.store.put H anchor with
  | error e =>
      rw [hwrite] at hput
      cases hput
  | ok after =>
      obtain ⟨found, hget, -, -⟩ := put_get hwrite
      rw [hwrite] at hput
      dsimp only at hput
      rw [hget] at hput
      cases hput
      rfl

/-- Where a rollback goes is a node that is stored, above the cursor. -/
theorem rollback_moves {nodeId : Option String} {steps : ℕ} {s t : Session} {node : Node}
    (h : rollback nodeId steps s = .ok node t) :
    ∃ target, (∀ id ∈ nodeId, id = target) ∧
      (nodeId = none → climb s.store steps s.run.cursorId = .ok target) ∧
      target ∈ s.store.ancestors s.run.cursorId ∧ t.store = s.store ∧
      t.run.place = (s.run.rootId, s.run.label, target) := by
  have htail : ∀ target, (do
      ensureAncestor target
      setCursor target
      orRaise (s.store.get target) : RunM Node) s = .ok node t →
      target ∈ s.store.ancestors s.run.cursorId ∧ t.store = s.store ∧
        t.run.place = (s.run.rootId, s.run.label, target) := by
    intro target h
    obtain ⟨_, m, hensure, h⟩ := bind_eq_ok h
    obtain ⟨rfl, hmem⟩ := ensureAncestor_ok hensure
    obtain ⟨_, m, hmove, h⟩ := bind_eq_ok h
    cases hmove
    obtain ⟨-, rfl⟩ := orRaise_eq_ok h
    exact ⟨hmem, rfl, rfl⟩
  unfold rollback at h
  rw [bind_of_ok (get_apply s)] at h
  cases nodeId with
  | some target => exact ⟨target, by simp, by simp, htail target h⟩
  | none =>
      obtain ⟨target, m, htarget, h⟩ := bind_eq_ok h
      obtain ⟨hclimb, rfl⟩ := orRaise_eq_ok htarget
      exact ⟨target, by simp, fun _ => hclimb, htail target h⟩

/-! ## Replaying -/

/-- A session stands where another one stood, on a store that is later than a third one's. -/
structure Revisits (H : Hashing) (s t revisit : Session) : Prop where
  answered : s.store.Answered
  recorded : Recorded H t.store revisit.store
  named : revisit.store.Named H
  place : revisit.run.place = s.run.place

/-- A computation returns, leaves the store and ends at a place. -/
def Reaches {α : Type} (x : RunM α) (s : Session) (place : String × String × String) : Prop :=
  ∃ a t, x s = .ok a t ∧ t.store = s.store ∧ t.run.place = place

namespace Revisits

variable {s t revisit : Session} {kind : NodeKind} {payload : Value} {attempt : ℤ}

theorem cursorId (h : Revisits H s t revisit) : revisit.run.cursorId = s.run.cursorId :=
  congrArg (fun place => place.2.2) h.place

theorem moved (h : Revisits H s t revisit) (id : String) :
    (revisit.run.rootId, revisit.run.label, id) = (s.run.rootId, s.run.label, id) :=
  congrArg (fun place => (place.1, place.2.1, id)) h.place

theorem recordedNode (h : Revisits H s t revisit) (hmode : rt.mode = .replay)
    (henv : env.Replays) (hcall : kind.isCall = true)
    (hstored : Stored H kind payload attempt s.run.cursorId s.store t.store) :
    ∃ node after, recordedNode H rt env kind payload attempt revisit = .ok (some node) after ∧
      after.store = revisit.store ∧ after.run.place = (s.run.rootId, s.run.label,
        H.nodeId kind (some s.run.cursorId) attempt payload) := by
  obtain ⟨node, hfind, hresult⟩ := hstored.found
  obtain ⟨metadata, hlater, -⟩ := h.recorded.kept _ node hfind
  rw [← h.cursorId] at hlater
  have hfields := hstored.fields
  rw [← h.cursorId] at hfields
  obtain ⟨after, hfound, hstore, hplace⟩ := recordedNode_replays henv hmode hfields h.named hlater
    (hresult h.answered hcall)
  refine ⟨_, after, hfound, hstore, hplace.trans ?_⟩
  have hid : node.id = H.nodeId kind (some s.run.cursorId) attempt payload :=
    (mem_of_find? hfind).2
  rw [← hid]
  exact h.moved node.id

/-- The node of a step is found again. -/
theorem putNode (h : Revisits H s t revisit) (hmode : rt.mode = .replay)
    (metadata : Dict String Value)
    (hmetadata : ∀ value ∈ metadata.values, value.isJson = true)
    (hstored : Stored H kind payload attempt s.run.cursorId s.store t.store) :
    ∃ node stored, Node.make H kind (some revisit.run.cursorId) payload attempt none metadata =
        .ok node ∧ onStore (putNode H rt node) revisit = .ok stored revisit ∧
      stored.id = H.nodeId kind (some s.run.cursorId) attempt payload := by
  obtain ⟨node, hfind, -⟩ := hstored.found
  obtain ⟨kept, hlater, -⟩ := h.recorded.kept _ node hfind
  obtain ⟨hnone, hidentity, hroot, hattempt, -⟩ := Node.checkFields_ok_iff.mp hstored.fields
  rw [h.cursorId]
  have hmade : Node.make H kind (some s.run.cursorId) payload attempt none metadata = .ok
      ⟨H.nodeId kind (some s.run.cursorId) attempt payload, some s.run.cursorId, kind, attempt,
        payload, none, metadata⟩ := by
    unfold Node.make
    rw [Node.checkFields_ok_iff.mpr ⟨hnone, hidentity, hroot, hattempt, hmetadata⟩]
    rfl
  refine ⟨_, { node with metadata := kept }, hmade, ?_, (mem_of_find? hfind).2⟩
  unfold onStore focus
  rw [putNode_replay H rt _ _ hmode, replayNodeOrMissing_named h.named hlater]
  rfl

theorem callWith_reaches (h : Revisits H s t revisit) (hmode : rt.mode = .replay)
    (henv : env.Replays) {flavor : Flavor} {keepChunks : Bool}
    {action : Option (Bool × List (ℕ × Decision))} (hcall : kind.isCall = true)
    (hstored : Stored H kind payload attempt s.run.cursorId s.store t.store) :
    Reaches (callWith H rt flavor env kind payload attempt keepChunks action) revisit
      (s.run.rootId, s.run.label, H.nodeId kind (some s.run.cursorId) attempt payload) := by
  obtain ⟨hidentity, hcanonical⟩ := hstored.canonical
  obtain ⟨node, after, hfound, hstore, hplace⟩ := h.recordedNode hmode henv hcall hcanonical
  refine ⟨node, after, ?_, hstore, hplace.trans ?_⟩
  · unfold callWith
    rw [Value.canonicalBytes_ok hidentity, bind_of_ok (orRaise_ok _ _), bind_of_ok hfound]
    rfl
  · unfold Hashing.nodeId
    rw [Value.canonical_canonical]

theorem note_reaches (h : Revisits H s t revisit) (hmode : rt.mode = .replay)
    (hstored : Stored H .note payload attempt s.run.cursorId s.store t.store) :
    Reaches (note H rt env payload attempt) revisit
      (s.run.rootId, s.run.label, H.nodeId .note (some s.run.cursorId) attempt payload) := by
  obtain ⟨node, stored, hmade, hput, hid⟩ := h.putNode hmode (createdAt env)
    (fun value hvalue => by
      obtain rfl := List.mem_singleton.mp hvalue
      rfl) hstored
  refine ⟨stored, { revisit with run := { revisit.run with cursorId := stored.id } }, ?_, rfl, ?_⟩
  · unfold note
    rw [bind_of_ok (get_apply revisit), hmade, bind_of_ok (orRaise_ok _ _), if_pos hmode]
    exact bind_of_ok hput _
  · rw [← hid]
    exact h.moved stored.id

theorem branch_reaches (h : Revisits H s t revisit) (hmode : rt.mode = .replay)
    (budget : Option Budget)
    (hstored : Stored H .note branchPayload attempt s.run.cursorId s.store t.store) :
    ∃ child, branch H rt env attempt budget revisit = .ok child revisit ∧ child.place =
      (s.run.rootId, s.run.label, H.nodeId .note (some s.run.cursorId) attempt branchPayload) := by
  obtain ⟨node, stored, hmade, hput, hid⟩ := h.putNode hmode (createdAt env)
    (fun value hvalue => by
      obtain rfl := List.mem_singleton.mp hvalue
      rfl) hstored
  refine ⟨revisit.run.child stored.id budget, ?_, ?_⟩
  · unfold branch
    rw [bind_of_ok (get_apply revisit), hmade, bind_of_ok (orRaise_ok _ _), if_pos hmode]
    exact bind_of_ok hput _
  · rw [← hid]
    exact h.moved stored.id

end Revisits

/-- A climb that ended in a store ends at the same node in a later one. -/
theorem climb_recorded {before after : MemoryStore} (h : Recorded H before after) {steps : ℕ}
    {id target : String} (hclimb : climb before steps id = .ok target) :
    climb after steps id = .ok target := by
  induction steps generalizing id with
  | zero => exact hclimb
  | succ steps ih =>
      rw [climb] at hclimb ⊢
      obtain ⟨node, hget, hclimb⟩ := Fallible.bind_ok_iff.mp hclimb
      unfold MemoryStore.get at hget ⊢
      cases hfind : before.find? id with
      | none =>
          rw [hfind] at hget
          cases hget
      | some found =>
          rw [hfind] at hget
          cases hget
          obtain ⟨metadata, hafter, -⟩ := h.kept id node hfind
          rw [hafter]
          refine Fallible.bind_ok_iff.mpr ⟨_, rfl, ?_⟩
          dsimp only
          cases hparent : node.parent with
          | none =>
              rw [hparent] at hclimb
              exact hclimb
          | some parent =>
              rw [hparent] at hclimb
              exact ih hclimb

theorem Revisits.rollback_reaches {s t revisit : Session} (h : Revisits H s t revisit)
    {nodeId : Option String} {steps : ℕ} {node : Node}
    (hrollback : rollback nodeId steps s = .ok node t) :
    Reaches (rollback nodeId steps) revisit t.run.place := by
  obtain ⟨target, hgiven, hclimb, hmem, hstore, hplace⟩ := rollback_moves hrollback
  have hlater := h.recorded
  rw [hstore] at hlater
  have hcursor : s.store.contains s.run.cursorId = true :=
    mem_keys_iff.mp (Forest.mem_keys_of_chain hmem)
  have hancestor : target ∈ revisit.store.ancestors revisit.run.cursorId := by
    rw [h.cursorId, hlater.ancestors _ hcursor]
    exact hmem
  obtain ⟨found, hget, -⟩ := get_of_contains (contains_of_mem_ancestors hancestor)
  have htail : (do
      ensureAncestor target
      setCursor target
      orRaise (revisit.store.get target) : RunM Node) revisit =
        .ok found { revisit with run := { revisit.run with cursorId := target } } := by
    unfold ensureAncestor
    rw [bind_assoc, bind_of_ok (get_apply revisit), if_pos hancestor, hget]
    rfl
  refine ⟨found, { revisit with run := { revisit.run with cursorId := target } }, ?_, rfl,
    (h.moved target).trans hplace.symm⟩
  unfold rollback
  rw [bind_of_ok (get_apply revisit)]
  cases nodeId with
  | some given =>
      obtain rfl := hgiven given rfl
      exact (bind_of_ok (pure_apply given revisit) _).trans htail
  | none =>
      rw [h.cursorId, climb_recorded hlater (hclimb rfl)]
      exact (bind_of_ok (orRaise_ok target revisit) _).trans htail

/-! ## Operations -/

/-- Replay repeats the operation: it neither needs a suspended call nor prunes. -/
def Op.repeats : Op → Bool
  | confirm _ => false
  | prune => false
  | _ => true

/-- An operation that returned keeps what is recorded, its run and the run it gives stand at
stored nodes, and it returns again on a later store. -/
structure Repeats (H : Hashing) (rt : Runtime) (flavor : Flavor) (op : Op) (child : Option Run)
    (s t : Session) : Prop where
  recorded : Recorded H s.store t.store
  stands : t.store.contains (child.getD t.run).cursorId = true
  again : ∀ {revisit : Session} {env : CallEnv}, Revisits H s t revisit → env.Replays →
    ∃ child' after, op.perform H rt.replaying flavor env revisit = .ok child' after ∧
      after.store = revisit.store ∧ after.run.place = t.run.place ∧
      child'.map Run.place = child.map Run.place

theorem Stored.stands {kind : NodeKind} {payload : Value} {attempt : ℤ} {parentId : String}
    {before after : MemoryStore} (h : Stored H kind payload attempt parentId before after)
    {run : Run} {rootId label : String}
    (hplace : run.place = (rootId, label, H.nodeId kind (some parentId) attempt payload)) :
    after.contains run.cursorId = true := by
  obtain ⟨node, hfind, -⟩ := h.found
  have hcursor : run.cursorId = H.nodeId kind (some parentId) attempt payload :=
    congrArg (fun place => place.2.2) hplace
  rw [hcursor]
  exact contains_of_find? hfind

/-- An operation that gives no run repeats where its computation reaches the same place. -/
theorem repeats_of_reaches {flavor : Flavor} {op : Op} {kind : NodeKind} {payload : Value}
    {attempt : ℤ} {s t : Session} {x : CallEnv → RunM Node}
    (hop : ∀ env, op.perform H rt.replaying flavor env = (x env >>= fun _ => pure none))
    (hstored : Stored H kind payload attempt s.run.cursorId s.store t.store)
    (hplace : t.run.place = (s.run.rootId, s.run.label,
      H.nodeId kind (some s.run.cursorId) attempt payload))
    (hreaches : ∀ {revisit : Session} {env : CallEnv}, Revisits H s t revisit → env.Replays →
      Reaches (x env) revisit (s.run.rootId, s.run.label,
        H.nodeId kind (some s.run.cursorId) attempt payload)) :
    Repeats H rt flavor op none s t := by
  refine ⟨hstored.recorded, hstored.stands hplace, fun hrevisit henv => ?_⟩
  obtain ⟨node, after, hx, hstore, hafter⟩ := hreaches hrevisit henv
  rw [hop]
  exact ⟨none, after, bind_of_ok hx _, hstore, hafter.trans hplace.symm, rfl⟩

theorem registeredToolCall_reaches {flavor : Flavor} {registry : Registry} {name : String}
    {args : Value} {version : Option String} {attempt : ℤ} {spec : ActionSpec} {auditArgs : Value}
    {s t revisit : Session} (hmode : rt.mode = .replay) (h : Revisits H s t revisit)
    (henv : env.Replays) (hspec : registry.specs.get? name = some spec)
    (hredact : spec.redactArgs H args = .ok auditArgs)
    (hversion : (version.any fun version => version ≠ spec.version) = false)
    (hvalid : spec.validateArgs args = .ok none)
    (hstored : Stored H .toolCall (registeredPayload registry spec auditArgs) attempt
      s.run.cursorId s.store t.store) :
    Reaches (registeredToolCall H rt flavor env registry name args version attempt) revisit
      (s.run.rootId, s.run.label, H.nodeId .toolCall (some s.run.cursorId) attempt
        (registeredPayload registry spec auditArgs)) := by
  obtain ⟨node, after, hfound, hstore, hplace⟩ := h.recordedNode hmode henv rfl hstored
  refine ⟨node, after, ?_, hstore, hplace⟩
  unfold registeredToolCall
  rw [hspec]
  dsimp only
  rw [hredact, bind_of_ok (orRaise_ok _ _), if_neg (Bool.eq_false_iff.mp hversion), hvalid,
    bind_of_ok (orRaise_ok _ _)]
  dsimp only
  rw [if_pos hmode, bind_of_ok hfound]
  rfl

theorem perform_repeats {flavor : Flavor} {op : Op} {s t : Session} {child : Option Run}
    (hmode : rt.mode = .record) (hdry : rt.dryRun = false) (hop : op.repeats = true)
    (h : op.perform H rt flavor env s = .ok child t) : Repeats H rt flavor op child s t := by
  cases op with
  | modelCall payload attempt keepChunks =>
      obtain ⟨node, m, hcall, h⟩ := bind_eq_ok h
      cases h
      obtain ⟨hstored, hplace⟩ := callWith_stored hmode hcall
      exact repeats_of_reaches (fun _ => rfl) hstored hplace fun hrevisit henv =>
        hrevisit.callWith_reaches rfl henv rfl hstored
  | toolCall name args passesFn version attempt =>
      obtain ⟨node, m, hcall, h⟩ := bind_eq_ok h
      cases h
      unfold toolCall at hcall
      cases hregistry : rt.registry with
      | some registry =>
          rw [hregistry] at hcall
          obtain ⟨spec, auditArgs, hspec, hredact, hversion, hvalid, hstored, hplace⟩ :=
            registeredToolCall_stored hmode hdry hcall
          refine repeats_of_reaches (fun _ => rfl) hstored hplace fun hrevisit henv => ?_
          unfold toolCall
          rw [show rt.replaying.registry = some registry from hregistry]
          exact registeredToolCall_reaches rfl hrevisit henv hspec hredact hversion hvalid hstored
      | none =>
          rw [hregistry] at hcall
          dsimp only at hcall
          split at hcall
          · next hfn =>
              obtain ⟨hstored, hplace⟩ := callWith_stored hmode hcall
              refine repeats_of_reaches (fun _ => rfl) hstored hplace fun hrevisit henv => ?_
              unfold toolCall
              rw [show rt.replaying.registry = none from hregistry]
              dsimp only
              rw [if_pos hfn]
              exact hrevisit.callWith_reaches rfl henv rfl hstored
          · cases hcall
  | note payload attempt =>
      obtain ⟨node, m, hnote, h⟩ := bind_eq_ok h
      cases h
      obtain ⟨hstored, hplace⟩ := note_stored hmode hnote
      exact repeats_of_reaches (fun _ => rfl) hstored hplace fun hrevisit _ =>
        hrevisit.note_reaches rfl hstored
  | branch attempt budget =>
      obtain ⟨run, m, hbranch, h⟩ := bind_eq_ok h
      cases h
      obtain ⟨hstored, hrun, hchild⟩ := branch_stored hmode hbranch
      have hplace : run.place = (s.run.rootId, s.run.label,
          H.nodeId .note (some s.run.cursorId) attempt branchPayload) := by
        rw [hchild]
        rfl
      have hreplay : rt.replaying.mode = .replay := rfl
      refine ⟨hstored.recorded, hstored.stands hplace, fun hrevisit _ => ?_⟩
      obtain ⟨child, hagain, hreached⟩ := hrevisit.branch_reaches hreplay budget hstored
      refine ⟨some child, _, bind_of_ok hagain _, rfl, ?_, ?_⟩
      · rw [hrevisit.place, hrun]
      · exact congrArg some (hreached.trans hplace.symm)
  | rollback nodeId steps =>
      obtain ⟨node, m, hrollback, h⟩ := bind_eq_ok h
      cases h
      obtain ⟨target, -, -, hmem, hstore, hplace⟩ := rollback_moves hrollback
      refine ⟨?_, ?_, fun hrevisit _ => ?_⟩
      · rw [hstore]
        exact .refl _
      · have hcursor : t.run.cursorId = target := congrArg (fun place => place.2.2) hplace
        change t.store.contains t.run.cursorId = true
        rw [hstore, hcursor]
        exact contains_of_mem_ancestors hmem
      · obtain ⟨found, after, hagain, hafter, hreached⟩ :=
          hrevisit.rollback_reaches hrollback
        exact ⟨none, after, bind_of_ok hagain _, hafter, hreached, rfl⟩
  | confirm token => cases hop
  | prune => cases hop

end Runtime

end Pollard
