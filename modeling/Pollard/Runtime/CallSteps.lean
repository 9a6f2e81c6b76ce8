import Pollard.Runtime.Quiet

/-!
# What a call does

A call that passed its precheck goes one of six ways, each with what it leaves in
the store, in the run and in the trace.
-/

namespace Pollard

open Lib Effect

/-- The session after some more events. -/
def Session.log (events : List Event) (s : Session) : Session :=
  { s with trace := events ++ s.trace }

@[simp] theorem Session.log_nil (s : Session) : s.log [] = s := rfl

theorem Session.log_log (events events' : List Event) (s : Session) :
    (s.log events).log events' = s.log (events' ++ events) := by
  simp [Session.log]

theorem emit_apply (event : Event) (s : Session) : emit event s = .ok () (s.log [event]) := rfl

section Runtime

variable (H : Hashing) (rt : Runtime) (flavor : Flavor) (env : CallEnv)

/-! ## Dispatch -/

/-- Whether the step function is invoked, and what the dispatch block leaves. -/
def dispatched (keepChunks : Bool) (reservation : Option Reservation) : Bool × Dispatched :=
  match startReservationLease rt env reservation with
  | .error error => (false, ⟨false, [], none, some error⟩)
  | .ok lease =>
      match startMeasurements env 0 rt.meters with
      | .error error => (false, ⟨lease, [], none, some error⟩)
      | .ok measurements =>
          (true,
            match env.produced.bind (flavor.consume env.onDelta keepChunks) with
            | .ok result =>
                ⟨lease, measurements, some result, stopMeasurements env measurements⟩
            | .error error => ⟨lease, measurements, none, some error⟩)

/-- The events of an invocation. -/
def invocation (invoked : Bool) (action : Option (Bool × List (ℕ × Decision))) : List Event :=
  if invoked then [.invoked action] else []

/-- The dispatch block does not raise. -/
theorem dispatch_apply (keepChunks : Bool) (action : Option (Bool × List (ℕ × Decision)))
    (reservation : Option Reservation) (s : Session) :
    dispatch rt env flavor keepChunks action reservation s =
      .ok (dispatched rt flavor env keepChunks reservation).2
        (s.log (invocation (dispatched rt flavor env keepChunks reservation).1 action)) := by
  unfold dispatch dispatched
  cases startReservationLease rt env reservation with
  | error error => rfl
  | ok lease =>
      dsimp only
      cases startMeasurements env 0 rt.meters with
      | error error => rfl
      | ok measurements =>
          dsimp only
          rw [bind_apply]
          unfold attempt invoke
          rw [bind_of_ok (emit_apply _ s), bind_apply]
          cases env.produced with
          | error error => rfl
          | ok produced =>
              rw [orRaise_ok]
              dsimp only [Except.bind]
              cases flavor.consume env.onDelta keepChunks produced <;> rfl

/-- The function was invoked, and gave a result or at least one chunk. -/
def Obtained (keepChunks : Bool) (reservation : Option Reservation) : Prop :=
  (dispatched rt flavor env keepChunks reservation).1 = true ∧
    ∃ produced, env.produced = .ok produced ∧ (flavor.obtains produced ∨
      ∃ result, flavor.consume env.onDelta keepChunks produced = .ok result)

/-- Without a result there is an exception, and after a chunk it is marked. -/
theorem dispatched_of_no_result {keepChunks : Bool} {reservation : Option Reservation}
    (h : (dispatched rt flavor env keepChunks reservation).2.result = none) :
    ∃ error, (dispatched rt flavor env keepChunks reservation).2.primaryError = some error ∧
      (Obtained rt flavor env keepChunks reservation →
        error.isPostDispatchOutcomeUnknown = true) := by
  unfold Obtained
  unfold dispatched at h ⊢
  split at h
  · exact ⟨_, rfl, fun hobtained => by cases hobtained.1⟩
  · split at h
    · exact ⟨_, rfl, fun hobtained => by cases hobtained.1⟩
    · dsimp only at h ⊢
      cases hproduced : env.produced with
      | error error => exact ⟨error, rfl, fun ⟨_, _, hok, _⟩ => by cases hok⟩
      | ok produced =>
          rw [hproduced] at h
          simp only [Except.bind] at h ⊢
          cases hconsume : flavor.consume env.onDelta keepChunks produced with
          | ok result =>
              rw [hconsume] at h
              cases h
          | error error =>
              refine ⟨error, rfl, ?_⟩
              rintro ⟨-, _, hproduced, hobtains⟩
              cases hproduced
              rcases hobtains with hobtains | ⟨result, hresult⟩
              · exact Flavor.consume_error hconsume hobtains
              · rw [hconsume] at hresult
                cases hresult

/-! ## Settling and releasing -/

/-- The id of the reservation the arbiter holds for a call. -/
def heldId (reservation : Option Reservation) : Option String :=
  if rt.transactional then reservation.bind Reservation.reservationId else none

/-- The settlement fails. -/
def SettleFails (reservation : Option Reservation) : Prop :=
  (heldId rt reservation).isSome ∧ ∃ error, env.settle = .error error

/-- The events of a settlement, newest first. -/
def settlement (reservation : Option Reservation) (scopes : List (Budget × String))
    (charges : Dict String Value) : List Event :=
  (match heldId rt reservation, env.settle with
    | some id, .ok _ => [.settled id charges]
    | _, _ => []) ++ [.charged scopes charges]

/-- The events of a release. -/
def releasing (reservation : Option Reservation) : List Event :=
  match heldId rt reservation, env.release with
  | some id, .ok _ => [.released id]
  | _, _ => []

theorem settleReservation_apply (reservation : Option Reservation)
    (charges : Dict String Value) (s : Session) :
    (¬ SettleFails rt env reservation ∧ settleReservation rt env reservation charges s =
        .ok () (s.log (settlement rt env reservation s.run.scopes charges))) ∨
    (SettleFails rt env reservation ∧ ∃ error, settleReservation rt env reservation charges s =
        .error error (s.log (settlement rt env reservation s.run.scopes charges))) := by
  unfold SettleFails settlement settleReservation heldId
  rw [bind_of_ok (get_apply s), bind_of_ok (emit_apply _ s)]
  cases reservation.bind Reservation.reservationId with
  | none => exact .inl (by simp)
  | some id =>
      cases rt.transactional with
      | false => exact .inl (by simp)
      | true =>
          cases env.settle with
          | ok u => exact .inl ⟨by simp, rfl⟩
          | error error => exact .inr ⟨by simp, error, rfl⟩

theorem attempt_releaseReservation (reservation : Option Reservation) (s : Session) :
    ∃ released, Effect.attempt (releaseReservation rt env reservation) s =
      .ok released (s.log (releasing rt env reservation)) := by
  unfold releasing releaseReservation heldId
  cases reservation.bind Reservation.reservationId with
  | none => exact ⟨.ok (), by simp [Effect.attempt]⟩
  | some id =>
      cases rt.transactional with
      | false => exact ⟨.ok (), by simp [Effect.attempt]⟩
      | true =>
          cases env.release with
          | ok u => exact ⟨.ok (), rfl⟩
          | error error => exact ⟨.error error, rfl⟩

/-! ## Recording -/

/-- The session after the cursor moved to a node of another store. -/
def Session.moved (s : Session) (store : MemoryStore) (id : String) : Session :=
  { s with store, run := { s.run with cursorId := id } }

/-- The session after the scopes were settled. -/
def Session.reviewed (s : Session) : Session :=
  let settled := settledScopes s.store s.run.budgetScopes
  { s with
    run := { s.run with budgetScopes := settled.1 }
    trace := (if settled.2 = none then [.reviewed s.run.scopes s.store] else []) ++ s.trace }

theorem after_settleScopes (s : Session) : after settleScopes s = s.reviewed := by
  unfold settleScopes Session.reviewed
  rw [after, bind_of_ok (get_apply s)]
  cases hsettled : settledScopes s.store s.run.budgetScopes with
  | mk scopes error =>
      dsimp only
      rw [bind_of_ok (modify_apply _ s)]
      cases error with
      | none => rfl
      | some error => simp [throw_apply]

/-- A record writes its node and moves the cursor to it, or raises and does nothing. -/
theorem record_apply (node : Node) (s : Session) (hmode : rt.mode ≠ .replay) :
    (∃ error, s.store.put H node = .error error ∧ record H rt node s = .error error s) ∨
    ∃ store stored, s.store.put H node = .ok store ∧ stored.id = node.id ∧
      record H rt node s = .ok stored (s.moved store node.id) := by
  unfold record
  rw [bind_apply]
  unfold onStore focus
  rw [putNode_apply H rt node s.store hmode]
  cases hput : s.store.put H node with
  | error error => exact .inl ⟨error, rfl, rfl⟩
  | ok store =>
      obtain ⟨stored, hget, hid, -⟩ := MemoryStore.put_get hput
      dsimp only
      rw [hget]
      refine .inr ⟨store, stored, rfl, hid, ?_⟩
      dsimp only
      rw [← hid]
      rfl

/-- A record and the settling of the scopes leave the node recorded, unless the store
rejects it. -/
theorem after_record_settleScopes (node : Node) (s : Session) (hmode : rt.mode ≠ .replay) :
    (∃ error, s.store.put H node = .error error ∧
      after (record H rt node >>= fun _ => settleScopes) s = s) ∨
    ∃ store, s.store.put H node = .ok store ∧
      after (record H rt node >>= fun _ => settleScopes) s =
        (s.moved store node.id).reviewed := by
  rcases record_apply H rt node s hmode with ⟨error, hput, hrecord⟩ |
    ⟨store, stored, hput, -, hrecord⟩
  · exact .inl ⟨error, hput, by rw [after_bind, hrecord]⟩
  · refine .inr ⟨store, hput, ?_⟩
    rw [after_bind, hrecord]
    exact after_settleScopes _

/-! ## The node of a call -/

/-- The identities a call may write: of its own node, and of its failure notes. -/
def callIdentities (kind : NodeKind) (payload : Value) (attempt : ℤ)
    (reservation : Option Reservation) (cursorId : String) : List Identity :=
  ⟨attempt, kind, cursorId, payload.canonical⟩ ::
    [Failure.outcomeUnknown, Failure.recordingFailed].map fun failure =>
      ⟨attempt, .note, cursorId,
        (failurePayload env failure kind reservation (H.payload payload.canonical)).canonical⟩

/-- A node of a call, with the charges of the call. -/
structure CallNode (kind : NodeKind) (payload : Value) (attempt : ℤ)
    (reservation : Option Reservation) (cursorId : String) (charges : Dict String Value)
    (node : Node) : Prop where
  named : node.id = node.expectedId H
  notRoot : node.kind ≠ .root
  parent : node.parent = some cursorId
  charged : node.charges = charges.entries
  identity : node.identity ∈ callIdentities H env kind payload attempt reservation cursorId

/-- The charges are those of the meters for a result, or the estimates. -/
def Priced (reservation : Option Reservation) (charges : Dict String Value) : Prop :=
  (∃ result fallbacks, meterCharges env result
    ((reservation.map Reservation.estimates).getD ∅) 0 rt.meters ∅ [] =
      .ok (charges, fallbacks)) ∨
  estimatedCharges reservation = .ok charges

/-- The dispatch, the end of the lease and the accounting of the call raise nothing. -/
def Completes (kind : NodeKind) (payload : Value) (attempt : ℤ) (keepChunks : Bool)
    (reservation : Option Reservation) (cursorId : String) : Prop :=
  let block := (dispatched rt flavor env keepChunks reservation).2
  block.primaryError = none ∧ (stopLease env block.lease).2 = none ∧
    ∃ result completed, block.result = some result ∧
      completedNode H rt env kind payload attempt reservation cursorId block.measurements
        result (stopLease env block.lease).1 = .ok completed

theorem charges_of_get? {node : Node} {charges : List (String × Value)}
    (h : node.metadata.get? "charges" = some (.dict charges)) : node.charges = charges := by
  rw [Node.charges, h]

theorem completedNode_ok {kind : NodeKind} {payload : Value} {attempt : ℤ}
    {reservation : Option Reservation} {cursorId : String} {measurements : List ℕ}
    {result : Value} {leaseLost : Option String} {charges : Dict String Value} {node : Node}
    (hkind : kind ≠ .root)
    (h : completedNode H rt env kind payload attempt reservation cursorId measurements result
      leaseLost = .ok (charges, node)) :
    Priced rt env reservation charges ∧
      CallNode H env kind payload attempt reservation cursorId charges node := by
  unfold completedNode at h
  cases hreadings : readingsMeta env measurements
      (.ofList [("created_at", .str env.now), ("duration_s", .float env.duration)]) with
  | error e => simp [hreadings, bind, Except.bind] at h
  | ok readings =>
      simp only [hreadings, bind, Except.bind] at h
      cases hcharges : meterCharges env result
          ((reservation.map Reservation.estimates).getD ∅) 0 rt.meters ∅ [] with
      | error e => simp [hcharges] at h
      | ok priced =>
          obtain ⟨priced, fallbacks⟩ := priced
          simp only [hcharges] at h
          split at h
          · cases h
          · next made hmade =>
              cases h
              refine ⟨.inl ⟨result, fallbacks, hcharges⟩, ?_⟩
              have hnode := Node.eq_of_make hmade
              refine ⟨by rw [hnode]; rfl, by rw [hnode]; exact hkind, by rw [hnode], ?_,
                by rw [hnode]; exact List.mem_cons_self⟩
              apply charges_of_get?
              rw [hnode]
              dsimp only
              rw [Dict.get?_foldl_set_of_forall_ne]
              · split
                · rw [Dict.get?_set_of_ne _ _ (by decide), Dict.get?_set_self]
                · rw [Dict.get?_set_self]
              · unfold leaseMeta
                cases leaseLost <;> simp

/-! ## Failure notes -/

theorem isJsonEntries_iff {entries : List (String × Value)} :
    Value.isJsonEntries entries = true ↔ ∀ e ∈ entries, e.2.isJson = true := by
  induction entries with
  | nil => simp [Value.isJsonEntries]
  | cons e entries ih => rw [Value.isJsonEntries, Bool.and_eq_true, ih, List.forall_mem_cons]

theorem isJson_toJson {estimate : Estimate} {json : Value} (h : estimate.toJson = .ok json) :
    json.isJson = true := by
  cases estimate with
  | infinite => cases h
  | finite q =>
      cases h
      unfold chargeToJson
      split <;> rfl

theorem isJson_foldlM_toJson {entries : List (String × Estimate)}
    {before after : Dict String Value}
    (h : entries.foldlM (fun charges e => e.2.toJson.map fun json => charges.set e.1 json)
      before = .ok after) (hbefore : ∀ v ∈ before.values, v.isJson = true) :
    ∀ v ∈ after.values, v.isJson = true := by
  induction entries generalizing before with
  | nil =>
      cases h
      exact hbefore
  | cons e entries ih =>
      rw [List.foldlM_cons] at h
      cases hjson : e.2.toJson with
      | error error =>
          rw [hjson] at h
          cases h
      | ok json =>
          rw [hjson] at h
          exact ih h (Dict.forall_values_set hbefore (isJson_toJson hjson))

theorem isJson_estimatedCharges {reservation : Option Reservation}
    {charges : Dict String Value} (h : estimatedCharges reservation = .ok charges) :
    (Value.dict charges.entries).isJson = true := by
  have hvalues : ∀ v ∈ charges.values, v.isJson = true := by
    cases reservation with
    | none =>
        cases h
        simp [Dict.values]
    | some reservation => exact isJson_foldlM_toJson h (by simp [Dict.values])
  rw [Value.isJson, isJsonEntries_iff]
  intro e he
  exact hvalues e.2 (List.mem_map_of_mem he)

section Failure

variable (failure : Failure) {reservation : Option Reservation} (error : PyError)
  {charges : Dict String Value} (leaseLost : Option String) (settlement : Option PyError)

theorem failureMeta_charges :
    (failureMeta env failure reservation error charges leaseLost settlement).get? "charges" =
      some (.dict charges.entries) := by
  unfold failureMeta Dict.ofList
  rw [List.foldl_append, List.foldl_append, List.foldl_append,
    Dict.get?_foldl_set_of_forall_ne, Dict.get?_foldl_set_of_forall_ne,
    Dict.get?_foldl_set_of_forall_ne]
  · simp [Dict.get?_set]
  · simp
  · unfold leaseMeta
    cases leaseLost <;> simp
  · simp

theorem failureMeta_isJson (hcharges : (Value.dict charges.entries).isJson = true) :
    ∀ v ∈ (failureMeta env failure reservation error charges leaseLost settlement).values,
      v.isJson = true := by
  unfold failureMeta
  have hentries : Value.isJsonEntries charges.entries = true := by
    rwa [Value.isJson] at hcharges
  refine Dict.forall_values_foldl_set (P := fun v => Value.isJson v = true) ?_ ?_
  · simp [Dict.values]
  unfold leaseMeta
  cases reservation.bind Reservation.reservationId <;> cases leaseLost <;> cases settlement <;>
    simp [hentries, Value.isJson, Value.isJsonEntries]

theorem failurePayload_canonicalBytes (reservation : Option Reservation) (kind : NodeKind) (digest : String) :
    ∃ bytes, (failurePayload env failure kind reservation digest).canonicalBytes = .ok bytes :=
  ⟨_, Value.canonicalBytes_ok (by simp [failurePayload, Value.isIdentity,
    Value.isIdentityEntries])⟩

/-- A failure note is made unless the attempt is negative. -/
theorem failureNote_made {kind : NodeKind} {digest cursorId : String} {attempt : ℤ}
    (hattempt : 0 ≤ attempt) (hcharges : (Value.dict charges.entries).isJson = true) :
    ∃ note, failureNote H env failure kind attempt reservation error charges leaseLost settlement
      cursorId digest = .ok note := by
  obtain ⟨bytes, hbytes⟩ := failurePayload_canonicalBytes env failure reservation kind digest
  exact ⟨_, Node.make_ok (by decide) (by simp) hbytes hattempt
    (failureMeta_isJson env failure error leaseLost settlement hcharges)⟩

end Failure

section Note

variable {failure : Failure} {kind : NodeKind} {payload : Value} {attempt : ℤ}
  {reservation : Option Reservation} {cursorId : String} {error : PyError}
  {charges : Dict String Value} {leaseLost : Option String} {settlement : Option PyError}
  {note : Node} (hfailure : failure = .outcomeUnknown ∨ failure = .recordingFailed)
  (h : failureNote H env failure kind attempt reservation error charges leaseLost settlement
    cursorId (H.payload payload.canonical) = .ok note)

include hfailure h

theorem failureNote_identity :
    note.identity ∈ (callIdentities H env kind payload attempt reservation cursorId).tail := by
  rw [Node.eq_of_make h]
  rcases hfailure with rfl | rfl
  · exact List.mem_cons_self
  · exact List.mem_cons_of_mem _ List.mem_cons_self

theorem failureNote_callNode :
    CallNode H env kind payload attempt reservation cursorId charges note := by
  have hnote := Node.eq_of_make h
  refine ⟨by rw [hnote]; rfl, by rw [hnote]; simp, by rw [hnote], ?_,
    List.mem_of_mem_tail (failureNote_identity H env hfailure h)⟩
  apply charges_of_get?
  rw [hnote]
  exact failureMeta_charges env failure error leaseLost settlement

end Note

/-! ## The six ways -/

section Ends

variable (kind : NodeKind) (payload : Value) (attempt : ℤ) (keepChunks : Bool)
  (action : Option (Bool × List (ℕ × Decision))) (reservation : Option Reservation)

/-- The identities of the failure notes of a call. -/
def failureIdentities (cursorId : String) : List Identity :=
  (callIdentities H env kind payload attempt reservation cursorId).tail

/-- A failed call is noted: its note can be made, and this is the note. -/
structure Noted (cursorId : String) (node : Node) : Prop where
  valid : 0 ≤ attempt
  priced : ∃ charges, estimatedCharges reservation = .ok charges
  identity : node.identity ∈ failureIdentities H env kind payload attempt reservation cursorId

/-- The session after the dispatch block and a settlement. -/
def Session.charged (s : Session) (charges : Dict String Value) : Session :=
  s.log (settlement rt env reservation s.run.scopes charges ++
    invocation (dispatched rt flavor env keepChunks reservation).1 action)

@[simp] theorem Session.charged_run (s : Session) (charges : Dict String Value) :
    (s.charged rt flavor env keepChunks action reservation charges).run = s.run := rfl

@[simp] theorem Session.charged_store (s : Session) (charges : Dict String Value) :
    (s.charged rt flavor env keepChunks action reservation charges).store = s.store := rfl

/-- How a call ends that passed its precheck. -/
inductive CallEnds (s : Session) : Session → Prop
  /-- No result was obtained, and the reservation is released. -/
  | released (hobtained : ¬ Obtained rt flavor env keepChunks reservation) :
      CallEnds s (s.log (releasing rt env reservation ++
        invocation (dispatched rt flavor env keepChunks reservation).1 action))
  /-- The call failed, and its estimates are no charges. -/
  | unpriced (hfails : ¬ Completes H rt flavor env kind payload attempt keepChunks reservation
        s.run.cursorId)
      (hpriced : ∃ error, estimatedCharges reservation = .error error) :
      CallEnds s (s.log
        (invocation (dispatched rt flavor env keepChunks reservation).1 action))
  /-- The call failed, and its failure note has no valid attempt. -/
  | unmade (charges : Dict String Value)
      (hfails : ¬ Completes H rt flavor env kind payload attempt keepChunks reservation
        s.run.cursorId)
      (hattempt : attempt < 0) (hpriced : Priced rt env reservation charges) :
      CallEnds s (s.charged rt flavor env keepChunks action reservation charges)
  /-- The call completed, and its settlement failed. -/
  | lost (charges : Dict String Value)
      (hcompletes : Completes H rt flavor env kind payload attempt keepChunks reservation
        s.run.cursorId)
      (hsettle : SettleFails rt env reservation)
      (hpriced : Priced rt env reservation charges) :
      CallEnds s (s.charged rt flavor env keepChunks action reservation charges)
  /-- The store rejected the node. -/
  | rejected (charges : Dict String Value) (node : Node)
      (hpriced : Priced rt env reservation charges)
      (hnode : CallNode H env kind payload attempt reservation s.run.cursorId charges node)
      (hput : ∃ error, s.store.put H node = .error error)
      (hfailed : ¬ Completes H rt flavor env kind payload attempt keepChunks reservation
        s.run.cursorId → Noted H env kind payload attempt reservation s.run.cursorId node) :
      CallEnds s (s.charged rt flavor env keepChunks action reservation charges)
  /-- The node is recorded. -/
  | recorded (charges : Dict String Value) (node : Node) (store : MemoryStore)
      (hpriced : Priced rt env reservation charges)
      (hnode : CallNode H env kind payload attempt reservation s.run.cursorId charges node)
      (hput : s.store.put H node = .ok store)
      (hsettle : Completes H rt flavor env kind payload attempt keepChunks reservation
        s.run.cursorId → ¬ SettleFails rt env reservation)
      (hfailed : ¬ Completes H rt flavor env kind payload attempt keepChunks reservation
        s.run.cursorId → Noted H env kind payload attempt reservation s.run.cursorId node) :
      CallEnds s (((s.charged rt flavor env keepChunks action reservation charges).moved store
        node.id).reviewed)

variable {kind payload attempt keepChunks action reservation}

/-- Recording a failure ends the call. -/
theorem ends_recordUnknownOutcome {failure : Failure} {error : PyError}
    {leaseLost : Option String} {s : Session} (hmode : rt.mode ≠ .replay)
    (hpayload : payload.isIdentity = true)
    (hfailure : failure = .outcomeUnknown ∨ failure = .recordingFailed)
    (hfails : ¬ Completes H rt flavor env kind payload attempt keepChunks reservation
      s.run.cursorId) :
    CallEnds H rt flavor env kind payload attempt keepChunks action reservation s
      (after (recordUnknownOutcome H rt env failure kind payload attempt reservation error
        leaseLost)
        (s.log (invocation (dispatched rt flavor env keepChunks reservation).1 action))) := by
  unfold recordUnknownOutcome
  rw [after_bind]
  cases hcharges : estimatedCharges reservation with
  | error e => exact .unpriced hfails ⟨e, hcharges⟩
  | ok charges =>
      rw [orRaise_ok]
      dsimp only
      have hpriced : Priced rt env reservation charges := .inr hcharges
      have hsettled : ∃ settled, Effect.attempt (settleReservation rt env reservation charges)
          (s.log (invocation (dispatched rt flavor env keepChunks reservation).1 action)) =
          .ok settled (s.charged rt flavor env keepChunks action reservation charges) := by
        unfold Effect.attempt
        rcases settleReservation_apply rt env reservation charges
          (s.log (invocation (dispatched rt flavor env keepChunks reservation).1 action)) with
          ⟨-, h⟩ | ⟨-, e, h⟩
        · rw [h]
          exact ⟨.ok (), by simp only [Session.log_log]; rfl⟩
        · rw [h]
          exact ⟨.error e, by simp only [Session.log_log]; rfl⟩
      obtain ⟨settled, hsettled⟩ := hsettled
      rw [after_bind, hsettled]
      dsimp only
      have hdigest : H.digestPayload payload = .ok (H.payload payload.canonical) := by
        rw [Hashing.digestPayload, Value.canonicalBytes_ok hpayload]
        rfl
      rw [hdigest, after_bind, orRaise_ok]
      dsimp only
      rw [after_bind, get_apply]
      dsimp only
      rw [after_bind, Session.charged_run]
      cases hnote : failureNote H env failure kind attempt reservation error charges leaseLost
          (raised settled) s.run.cursorId (H.payload payload.canonical) with
      | error e =>
          refine .unmade charges hfails ?_ hpriced
          by_contra hattempt
          obtain ⟨note, hmade⟩ := failureNote_made H env failure error leaseLost (raised settled)
            (not_lt.mp hattempt) (isJson_estimatedCharges hcharges)
          rw [hnote] at hmade
          cases hmade
      | ok note =>
          rw [orRaise_ok]
          dsimp only
          have hnode := failureNote_callNode H env hfailure hnote
          have hnoted : Noted H env kind payload attempt reservation s.run.cursorId note :=
            ⟨Node.attempt_nonneg_of_make hnote, ⟨charges, hcharges⟩,
              failureNote_identity H env hfailure hnote⟩
          rw [after_bind_of_id fun _ _ => rfl, after_attempt]
          rcases after_record_settleScopes H rt note
            (s.charged rt flavor env keepChunks action reservation charges) hmode with
            ⟨e, hput, hrecord⟩ | ⟨store, hput, hrecord⟩
          · rw [hrecord]
            exact .rejected charges note hpriced hnode ⟨e, hput⟩ fun _ => hnoted
          · rw [hrecord]
            exact .recorded charges note store hpriced hnode hput (fun h => absurd h hfails)
              fun _ => hnoted

theorem ends_finishFailed {primary : PyError} {s : Session} (hmode : rt.mode ≠ .replay)
    (hpayload : payload.isIdentity = true)
    (hprimary : (dispatched rt flavor env keepChunks reservation).2.primaryError =
      some primary) :
    CallEnds H rt flavor env kind payload attempt keepChunks action reservation s
      (after (finishFailed H rt env kind payload attempt reservation
        (dispatched rt flavor env keepChunks reservation).2 primary)
        (s.log (invocation (dispatched rt flavor env keepChunks reservation).1 action))) := by
  have hfails : ¬ Completes H rt flavor env kind payload attempt keepChunks reservation
      s.run.cursorId := by
    rintro ⟨hnone, -⟩
    rw [hprimary] at hnone
    cases hnone
  unfold finishFailed
  split
  · rw [after_bind_of_id fun _ _ => rfl]
    exact ends_recordUnknownOutcome H rt flavor env hmode hpayload (.inl rfl) hfails
  · next hmarked =>
      split
      · rw [after_bind_of_id fun _ _ => rfl]
        exact ends_recordUnknownOutcome H rt flavor env hmode hpayload (.inr rfl) hfails
      · next hresult =>
          obtain ⟨released, hrelease⟩ := attempt_releaseReservation rt env reservation
            (s.log (invocation (dispatched rt flavor env keepChunks reservation).1 action))
          rw [after_bind, hrelease]
          dsimp only
          rw [Session.log_log]
          refine .released fun hobtained => ?_
          have hnone : (dispatched rt flavor env keepChunks reservation).2.result = none := by
            simpa using hresult
          obtain ⟨error, herror, hmark⟩ := dispatched_of_no_result rt flavor env hnone
          rw [hprimary] at herror
          cases herror
          exact hmarked (hmark hobtained)

theorem ends_finishCompleted {result : Value} {s : Session} (hmode : rt.mode ≠ .replay)
    (hkind : kind ≠ .root) (hpayload : payload.isIdentity = true)
    (hprimary : (dispatched rt flavor env keepChunks reservation).2.primaryError = none)
    (hresult : (dispatched rt flavor env keepChunks reservation).2.result = some result) :
    CallEnds H rt flavor env kind payload attempt keepChunks action reservation s
      (after (finishCompleted H rt env kind payload attempt reservation
        (dispatched rt flavor env keepChunks reservation).2 result)
        (s.log (invocation (dispatched rt flavor env keepChunks reservation).1 action))) := by
  unfold finishCompleted
  generalize hstop : stopLease env (dispatched rt flavor env keepChunks reservation).2.lease =
    stopped
  obtain ⟨leaseLost, leaseError⟩ := stopped
  cases leaseError with
  | some error =>
      dsimp only
      rw [after_bind_of_id fun _ _ => rfl]
      refine ends_recordUnknownOutcome H rt flavor env hmode hpayload (.inr rfl) ?_
      rintro ⟨-, hlease, -⟩
      rw [hstop] at hlease
      cases hlease
  | none =>
      dsimp only
      rw [after_bind, get_apply]
      dsimp only
      cases hcompleted : completedNode H rt env kind payload attempt reservation s.run.cursorId
          (dispatched rt flavor env keepChunks reservation).2.measurements result leaseLost with
      | error error =>
          have hc : completedNode H rt env kind payload attempt reservation
              (s.log (invocation (dispatched rt flavor env keepChunks reservation).1
                action)).run.cursorId
              (dispatched rt flavor env keepChunks reservation).2.measurements result leaseLost =
                .error error := hcompleted
          rw [hc]
          dsimp only
          rw [after_bind_of_id fun _ _ => rfl]
          refine ends_recordUnknownOutcome H rt flavor env hmode hpayload (.inr rfl) ?_
          rintro ⟨-, -, other, completed, hother, hok⟩
          rw [hresult] at hother
          cases hother
          rw [hstop, hcompleted] at hok
          cases hok
      | ok completed =>
          obtain ⟨charges, node⟩ := completed
          have hc : completedNode H rt env kind payload attempt reservation
              (s.log (invocation (dispatched rt flavor env keepChunks reservation).1
                action)).run.cursorId
              (dispatched rt flavor env keepChunks reservation).2.measurements result leaseLost =
                .ok (charges, node) := hcompleted
          rw [hc]
          dsimp only
          have hcompletes : Completes H rt flavor env kind payload attempt keepChunks reservation
              s.run.cursorId :=
            ⟨hprimary, by rw [hstop], result, _, hresult, by rw [hstop]; exact hcompleted⟩
          obtain ⟨hpriced, hnode⟩ := completedNode_ok H rt env hkind hcompleted
          rw [after_bind]
          rcases settleReservation_apply rt env reservation charges
            (s.log (invocation (dispatched rt flavor env keepChunks reservation).1 action)) with
            ⟨hsettle, h⟩ | ⟨hsettle, e, h⟩
          · rw [h, Session.log_log]
            dsimp only
            have hreport : ∀ (n : Node) (m : Session), after (settleScopes >>= fun _ =>
                orRaise (reportLeaseLost leaseLost reservation n)) m = after settleScopes m :=
              fun n m => after_bind_of_id
                (fun _ _ => by cases reportLeaseLost leaseLost reservation n <;> rfl) m
            rw [after_bind_congr hreport]
            rcases after_record_settleScopes H rt node
              (s.charged rt flavor env keepChunks action reservation charges) hmode with
              ⟨e, hput, hrecord⟩ | ⟨store, hput, hrecord⟩
            · refine Eq.subst hrecord.symm ?_
              exact .rejected charges node hpriced hnode ⟨e, hput⟩ fun h => absurd hcompletes h
            · refine Eq.subst hrecord.symm ?_
              exact .recorded charges node store hpriced hnode hput (fun _ => hsettle)
                fun h => absurd hcompletes h
          · rw [h, Session.log_log]
            exact .lost charges hcompletes hsettle hpriced

/-- A call that passed its precheck ends in one of the six ways. -/
theorem ends_callReserved {s : Session} (hmode : rt.mode ≠ .replay) (hkind : kind ≠ .root)
    (hpayload : payload.isIdentity = true) :
    CallEnds H rt flavor env kind payload attempt keepChunks action reservation s
      (after (callReserved H rt flavor env kind payload attempt keepChunks action reservation)
        s) := by
  unfold callReserved
  rw [after_bind, dispatch_apply]
  dsimp only
  split
  · next hprimary => exact ends_finishFailed H rt flavor env hmode hpayload hprimary
  · next hprimary hresult =>
      exact ends_finishCompleted H rt flavor env hmode hkind hpayload hprimary hresult
  · next hprimary hresult =>
      obtain ⟨error, herror, -⟩ := dispatched_of_no_result rt flavor env hresult
      rw [hprimary] at herror
      cases herror

end Ends

end Runtime

end Pollard
