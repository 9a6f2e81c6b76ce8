import Pollard.Runtime.Governance
import Pollard.Runtime.Stream

/-!
# Calls

`Run._call` and `AsyncRun._acall`: reserve, dispatch, settle, record.  The chain of
cleanup errors an exception is raised from is left out.
-/

namespace Pollard

open Lib Effect

section Runtime

variable (H : Hashing) (rt : Runtime)

/-! ## Measurements and leases -/

/-- `_start_measurements`: the indices of the meters that measure, or the exception
of the first that fails. -/
def startMeasurements (env : CallEnv) : ℕ → List Meter → Except PyError (List ℕ)
  | _, [] => .ok []
  | index, meter :: meters =>
      if meter.measures then do
        env.startMeasurement index
        let rest ← startMeasurements env (index + 1) meters
        return index :: rest
      else startMeasurements env (index + 1) meters

/-- `_stop_measurements` -/
def stopMeasurements (env : CallEnv) (measurements : List ℕ) : Option PyError :=
  let errors := measurements.reverse.filterMap fun index =>
    match env.stopMeasurement index with
    | .ok _ => none
    | .error error => some error
  match errors with
  | [] => none
  | [error] => some error
  | _ => some .callCleanupError

/-- A lease runs while a shared reservation is held. -/
def leased (reservation : Option Reservation) : Bool :=
  rt.renewable && (reservation.bind Reservation.reservationId).isSome

/-- `_start_reservation_lease` -/
def startReservationLease (env : CallEnv) (reservation : Option Reservation) :
    Except PyError Bool :=
  if leased rt reservation then env.startLease.map fun _ => true else .ok false

/-- `_stop_lease`: what was lost, and the exception stopping raised. -/
def stopLease (env : CallEnv) (lease : Bool) : Option String × Option PyError :=
  if lease then
    match env.stopLease with
    | .ok lost => (lost, none)
    | .error error => (none, some error)
  else (none, none)

/-! ## Settling -/

/-- `_settle_reservation` -/
def settleReservation (env : CallEnv) (reservation : Option Reservation)
    (charges : Dict String Value) : RunM Unit := do
  let s ← get
  emit (.charged s.run.scopes charges)
  match reservation.bind Reservation.reservationId with
  | none => pure ()
  | some reservationId =>
      if rt.transactional then
        orRaise env.settle
        emit (.settled reservationId charges)
      else pure ()

/-- `_release_reservation` -/
def releaseReservation (env : CallEnv) (reservation : Option Reservation) : RunM Unit :=
  match reservation.bind Reservation.reservationId with
  | none => pure ()
  | some reservationId =>
      if rt.transactional then do
        orRaise env.release
        emit (.released reservationId)
      else pure ()

/-- `set.update` -/
def updateExhausted (exhausted added : List String) : List String :=
  exhausted ++ added.filter fun meter => meter ∉ exhausted

/-- The scopes after `_settle_scopes`, or the exception of the first whose total
cannot be read. -/
def settledScopes (store : MemoryStore) :
    List BudgetScope → List BudgetScope × Option PyError
  | [] => ([], none)
  | scope :: scopes =>
      match spentDecimal store scope.anchorId with
      | .error error => (scope :: scopes, some error)
      | .ok spent =>
          let (rest, error) := settledScopes store scopes
          ({ scope with exhausted :=
              updateExhausted scope.exhausted (exhaustedAfterSettle scope.budget spent) } :: rest,
            error)

/-- `_settle_scopes` -/
def settleScopes : RunM Unit := do
  let s ← get
  let (scopes, error) := settledScopes s.store s.run.budgetScopes
  modify fun s => { s with run := { s.run with budgetScopes := scopes } }
  match error with
  | none => emit (.reviewed s.run.scopes s.store)
  | some error => throw error

/-! ## Charges -/

/-- `_has_compatible_usage` -/
def hasCompatibleUsage (result : Value) : Bool :=
  match result.get? "usage" with
  | some (.dict usage) =>
      ["input_tokens", "output_tokens"].all fun name =>
        match Assoc.lookup usage name with
        | some (.int n) => 0 ≤ n
        | _ => false
  | _ => false

/-- `charge_to_json` of an amount that may be infinite. -/
def Estimate.toJson : Estimate → Except PyError Value
  | finite q => .ok (chargeToJson q)
  | infinite => .error .overflowError

/-- Why a charge of zero falls back to the estimate. -/
def fallbackReason (env : CallEnv) (index : ℕ) (meter : Meter) (result : Value)
    (amount : Decimal) (estimate : Option Estimate) : Option String :=
  if amount = 0 ∧ estimate.isSome ∧ meter.precheckIsEstimate then
    if hasCompatibleUsage result = false then some "missing_or_invalid_provider_usage"
    else (env.fallbackReason index).filter fun reason => reason ≠ ""
  else none

/-- The loop of `_charges`: the charges and the accounting fallbacks. -/
def meterCharges (env : CallEnv) (result : Value) (estimates : Dict String Estimate) :
    ℕ → List Meter → Dict String Value → List (String × Value) →
      Except PyError (Dict String Value × List (String × Value))
  | _, [], charges, fallbacks => .ok (charges, fallbacks)
  | index, meter :: meters, charges, fallbacks => do
      let amount ← env.charge index
      let estimate := estimates.get? meter.name
      let reason := fallbackReason env index meter result amount estimate
      let amount := if reason.isSome then estimate.getD (.finite amount) else .finite amount
      let fallbacks := fallbacks ++ reason.toList.map fun reason =>
        (meter.name, .dict [("reason", .str reason), ("source", .str "precheck_estimate")])
      if amount = .finite 0 then
        meterCharges env result estimates (index + 1) meters charges fallbacks
      else
        let json ← amount.toJson
        meterCharges env result estimates (index + 1) meters (charges.set meter.name json)
          fallbacks

/-- `_estimated_charges` -/
def estimatedCharges (reservation : Option Reservation) : Except PyError (Dict String Value) :=
  match reservation with
  | none => .ok ∅
  | some reservation =>
      ((sortedItems reservation.estimates).filter fun e =>
        e.1 ≠ "depth" ∧ e.2 ≠ .finite 0).foldlM
          (fun charges e => e.2.toJson.map fun json => charges.set e.1 json) ∅

/-! ## Failure notes -/

/-- How a call failed to be recorded: event, outcome and phase. -/
structure Failure where
  event : String
  outcome : String
  phase : String

/-- The defaults of `_record_unknown_outcome`. -/
def Failure.outcomeUnknown : Failure := ⟨"call_outcome_unknown", "unknown", "post_dispatch"⟩

def Failure.recordingFailed : Failure :=
  ⟨"call_recording_failed", "completed_unrecorded", "post_result_processing"⟩

/-- `{"status": "lost", "detail": lease_lost}` -/
def leaseMeta (leaseLost : Option String) : List (String × Value) :=
  leaseLost.toList.map fun detail =>
    ("reservation_lease", .dict [("status", .str "lost"), ("detail", .str detail)])

/-- The payload of a failure note. -/
def failurePayload (env : CallEnv) (failure : Failure) (kind : NodeKind)
    (reservation : Option Reservation) (payloadDigest : String) : Value :=
  .dict
    [("event", .str failure.event),
      ("event_id",
        .str ((reservation.bind Reservation.reservationId).getD env.eventUuid)),
      ("blocked_kind", .str kind.value), ("blocked_payload_digest", .str payloadDigest)]

/-- The metadata of a failure note. -/
def failureMeta (env : CallEnv) (failure : Failure) (reservation : Option Reservation)
    (error : PyError) (charges : Dict String Value) (leaseLost : Option String)
    (settlement : Option PyError) : Dict String Value :=
  .ofList <|
    [("created_at", .str env.now), ("duration_s", .float env.duration),
      ("charges", .dict charges.entries),
      ("failure", .dict
        [("outcome", .str failure.outcome), ("phase", .str failure.phase),
          ("error_type", .str error.typeName)])] ++
    ((reservation.bind Reservation.reservationId).toList.map fun id =>
      ("reservation_id", .str id)) ++
    leaseMeta leaseLost ++
    settlement.toList.map fun error =>
      ("settlement", .dict
        [("status", .str "uncertain"), ("error_type", .str error.typeName)])

/-- The note of a call that was not recorded. -/
def failureNote (env : CallEnv) (failure : Failure) (kind : NodeKind) (attempt : ℤ)
    (reservation : Option Reservation) (error : PyError) (charges : Dict String Value)
    (leaseLost : Option String) (settlement : Option PyError) (cursorId digest : String) :
    Except PyError Node :=
  Node.make H .note (some cursorId) (failurePayload env failure kind reservation digest) attempt
    none (failureMeta env failure reservation error charges leaseLost settlement)

/-- `_record_unknown_outcome`; the cleanup errors it returns are left out. -/
def recordUnknownOutcome (env : CallEnv) (failure : Failure) (kind : NodeKind)
    (payload : Value) (attempt : ℤ) (reservation : Option Reservation) (error : PyError)
    (leaseLost : Option String) : RunM Unit := do
  let charges ← orRaise (estimatedCharges reservation)
  let settled ← Effect.attempt (settleReservation rt env reservation charges)
  let digest ← orRaise (H.digestPayload payload)
  let s ← get
  let note ← orRaise (failureNote H env failure kind attempt reservation error charges leaseLost
    (raised settled) s.run.cursorId digest)
  let _ ← Effect.attempt (record H rt note >>= fun _ => settleScopes)
  return ()

/-! ## Dispatch -/

/-- What the block around the step function left. -/
structure Dispatched where
  lease : Bool
  measurements : List ℕ
  result : Option Value
  primaryError : Option PyError

/-- The step function and the consumption of what it returns. -/
def invoke (env : CallEnv) (flavor : Flavor) (keepChunks : Bool)
    (action : Option (Bool × List (ℕ × Decision))) : RunM Value := do
  emit (.invoked action)
  let produced ← orRaise env.produced
  orRaise (flavor.consume env.onDelta keepChunks produced)

/-- The `try` block of `_call` with its `finally`. -/
def dispatch (env : CallEnv) (flavor : Flavor) (keepChunks : Bool)
    (action : Option (Bool × List (ℕ × Decision))) (reservation : Option Reservation) :
    RunM Dispatched :=
  match startReservationLease rt env reservation with
  | .error error => pure ⟨false, [], none, some error⟩
  | .ok lease =>
      match startMeasurements env 0 rt.meters with
      | .error error => pure ⟨lease, [], none, some error⟩
      | .ok measurements => do
          let stopped := stopMeasurements env measurements
          match ← Effect.attempt (invoke env flavor keepChunks action) with
          | .ok result => pure ⟨lease, measurements, some result, stopped⟩
          | .error error => pure ⟨lease, measurements, none, some error⟩

/-- The exception a marked one stands for. -/
def originalError : PyError → PyError
  | .postDispatchOutcomeUnknown error => error
  | error => error

/-- The readings of all measurements, later ones over earlier ones. -/
def readingsMeta (env : CallEnv) :
    List ℕ → Dict String Value → Except PyError (Dict String Value)
  | [], metadata => .ok metadata
  | index :: indices, metadata => do
      let readings ← env.readings index
      readingsMeta env indices (readings.foldl (fun m e => m.set e.1 e.2) metadata)

/-- The charges and the node of a completed call. -/
def completedNode (env : CallEnv) (kind : NodeKind) (payload : Value) (attempt : ℤ)
    (reservation : Option Reservation) (cursorId : String) (measurements : List ℕ)
    (result : Value) (leaseLost : Option String) :
    Except PyError (Dict String Value × Node) := do
  let metadata ← readingsMeta env measurements
    (.ofList [("created_at", .str env.now), ("duration_s", .float env.duration)])
  let (charges, fallbacks) ← meterCharges env result
    ((reservation.map Reservation.estimates).getD ∅) 0 rt.meters ∅ []
  let metadata := if fallbacks.isEmpty then metadata
    else metadata.set "accounting_fallbacks" (.dict fallbacks)
  let metadata := metadata.set "charges" (.dict charges.entries)
  let metadata := match result.get? "usage" with
    | some (.dict usage) => metadata.set "usage" (.dict usage)
    | _ => metadata
  let metadata := (leaseMeta leaseLost).foldl (fun m e => m.set e.1 e.2) metadata
  let node ← Node.make H kind (some cursorId) payload attempt (some result) metadata
  return (charges, node)

/-- The branch of `_call` for an exception of the dispatch block. -/
def finishFailed (env : CallEnv) (kind : NodeKind) (payload : Value) (attempt : ℤ)
    (reservation : Option Reservation) (dispatched : Dispatched) (primary : PyError) :
    RunM Node := do
  let leaseLost := (stopLease env dispatched.lease).1
  if primary.isPostDispatchOutcomeUnknown then
    recordUnknownOutcome H rt env .outcomeUnknown kind payload attempt reservation
      (originalError primary) leaseLost
    throw (originalError primary)
  else if dispatched.result.isSome then
    recordUnknownOutcome H rt env .recordingFailed kind payload attempt reservation primary
      leaseLost
    throw primary
  else
    let _ ← Effect.attempt (releaseReservation rt env reservation)
    throw primary

/-- The end of `_call`: the node, unless the lease was lost. -/
def reportLeaseLost (leaseLost : Option String) (reservation : Option Reservation)
    (node : Node) : Except PyError Node :=
  match leaseLost, reservation with
  | some detail, some reservation =>
      .error (.reservationLeaseLost
        "shared reservation lease was lost while the call was running"
        (reservation.reservationId.getD "") node.id detail)
  | _, _ => .ok node

/-- The branch of `_call` for a result. -/
def finishCompleted (env : CallEnv) (kind : NodeKind) (payload : Value) (attempt : ℤ)
    (reservation : Option Reservation) (dispatched : Dispatched) (result : Value) :
    RunM Node := do
  let (leaseLost, leaseError) := stopLease env dispatched.lease
  match leaseError with
  | some error =>
      recordUnknownOutcome H rt env .recordingFailed kind payload attempt reservation error
        leaseLost
      throw error
  | none => do
      let s ← get
      match completedNode H rt env kind payload attempt reservation s.run.cursorId
          dispatched.measurements result leaseLost with
      | .error error =>
          recordUnknownOutcome H rt env .recordingFailed kind payload attempt reservation error
            leaseLost
          throw error
      | .ok (charges, node) => do
          settleReservation rt env reservation charges
          let node ← record H rt node
          settleScopes
          orRaise (reportLeaseLost leaseLost reservation node)

/-- What follows the precheck. -/
def callReserved (flavor : Flavor) (env : CallEnv) (kind : NodeKind) (payload : Value)
    (attempt : ℤ) (keepChunks : Bool) (action : Option (Bool × List (ℕ × Decision)))
    (reservation : Option Reservation) : RunM Node := do
  let dispatched ← dispatch rt env flavor keepChunks action reservation
  match dispatched.primaryError, dispatched.result with
  | some primary, _ =>
      finishFailed H rt env kind payload attempt reservation dispatched primary
  | none, some result =>
      finishCompleted H rt env kind payload attempt reservation dispatched result
  | none, none => throw (.runtimeError "assert result is not None")

/-- The body shared by `_call` and `_acall`. -/
def callWith (flavor : Flavor) (env : CallEnv) (kind : NodeKind) (payload : Value)
    (attempt : ℤ) (keepChunks : Bool) (action : Option (Bool × List (ℕ × Decision))) :
    RunM Node := do
  let payload ← orRaise payload.canonicalBytes
  match ← recordedNode H rt env kind payload attempt with
  | some node => return node
  | none => do
      let reservation ← precheck H rt env kind payload
      callReserved H rt flavor env kind payload attempt keepChunks action reservation

/-- `Run._call` -/
def call := callWith H rt .sync

/-- `AsyncRun._acall` -/
def acall := callWith H rt .async

end Runtime

end Pollard
