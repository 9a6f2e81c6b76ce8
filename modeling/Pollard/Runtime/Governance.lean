import Pollard.Runtime.Basic

/-!
# Recording, refusing and prechecking

The parts of `Run` that every operation goes through: writing a node, refusing,
looking a recording up, and the checks before a call.
-/

namespace Pollard

open Lib Effect

section Runtime

variable (H : Hashing) (rt : Runtime)

/-! ## Nodes -/

def setCursor (id : String) : RunM Unit :=
  modify fun s => { s with run := { s.run with cursorId := id } }

def emit (event : Event) : RunM Unit :=
  modify fun s => { s with trace := event :: s.trace }

/-- `{"created_at": _now_utc()}` -/
def createdAt (env : CallEnv) : Dict String Value := .ofList [("created_at", .str env.now)]

/-- `_raise_missing` -/
def missingRecording (candidate : Node) : Except PyError Node := do
  let summary ← payloadSummary H candidate.kind candidate.payload
  throw (.missingRecording s!"missing recording for {summary}: {candidate.id}" candidate.id
    summary)

/-- `_raise_duplicate` -/
def duplicateRecording (candidate : Node) : Except PyError (Option Node) := do
  let summary ← payloadSummary H candidate.kind candidate.payload
  let guidance :=
    "use a new attempt for a distinct retry or mode='hybrid' to reuse the recording" ++
      if candidate.kind = .modelCall then
        ", or use the revalidation API for a deliberate live model observation"
      else ""
  throw (.duplicateRecording
    s!"recording already exists for {summary} at attempt={candidate.attempt}: {candidate.id}; {guidance}"
    candidate.id summary candidate.attempt)

/-- `_verify_recording`: every node up to the root has the id of its identity. -/
def verifyRecording (store : MemoryStore) (id : String) : Except PyError Unit :=
  let nodes := (store.ancestors id).filterMap store.find?
  match nodes.filter fun node => node.id ≠ node.expectedId H with
  | [] => .ok ()
  | findings =>
      let details := "; ".intercalate (findings.map fun node =>
        s!"{node.id}: node id does not match identity fields")
      .error (.integrityError s!"recording integrity check failed: {details}")

/-- `replay_node_or_missing` -/
def replayNodeOrMissing (store : MemoryStore) (candidate : Node) : Except PyError Node :=
  match store.find? candidate.id with
  | none => missingRecording H candidate
  | some node => (verifyRecording H store node.id).map fun _ => node

/-- `Runtime._put`.  The callback on new nodes is left out: what it raises is dropped. -/
def putNode (node : Node) : StoreM Node := do
  let store ← get
  if rt.mode = .replay then orRaise (replayNodeOrMissing H store node)
  else
    let after ← orRaise (store.put H node)
    set after
    orRaise (after.get node.id)

/-- Write a node and move the cursor to it. -/
def record (node : Node) : RunM Node := do
  let node ← onStore (putNode H rt node)
  setCursor node.id
  return node

/-! ## Refusals -/

/-- `_refuse` -/
def refuse {α : Type} (env : CallEnv) (blockedKind : NodeKind) (blockedPayload : Value)
    (reason meter : String) (requested remaining detail : Option String) (estimated : Bool)
    (windowSeconds : Option ℚ) (auditMeta : Dict String Value) : RunM α := do
  let digest ← orRaise (H.digestPayload blockedPayload)
  let optional (key : String) (value : Option String) : List (String × Value) :=
    value.toList.map fun text => (key, .str text)
  let payload := Value.dict <|
    [("reason", .str reason), ("meter", .str meter), ("blocked_kind", .str blockedKind.value),
      ("blocked_payload_digest", .str digest)] ++
    optional "requested" requested ++ optional "remaining" remaining ++
    optional "detail" detail ++
    (if estimated then [("estimated", .str "true")] else []) ++
    windowSeconds.toList.map fun seconds =>
      ("window_seconds",
        if seconds.den = 1 then .int seconds.num else .str (decimalText seconds))
  let s ← get
  let metadata := auditMeta.entries.foldl (fun m e => m.set e.1 e.2) (createdAt env)
  let node ← orRaise (Node.make H .refusal (some s.run.cursorId) payload 0 none metadata)
  let node ← record H rt node
  throw (.budgetExceeded (detail.getD s!"budget exceeded for {meter}") node.id)

/-- `_refuse` on a failed budget or arbiter check. -/
def refuseCheck {α : Type} (env : CallEnv) (kind : NodeKind) (payload : Value)
    (reason : String) (meter : Option String) (requested : Estimate) (remaining : Decimal)
    (estimated : Bool) (windowSeconds : Option ℚ) : RunM α :=
  refuse H rt env kind payload reason (meter.getD "unknown") requested.text
    (decimalText remaining) none estimated windowSeconds ∅

/-- `_refuse_policy` -/
def refusePolicy {α : Type} (env : CallEnv) (detail : String) (blockedPayload : Value) :
    RunM α := do
  let digest ← orRaise (H.digestPayload blockedPayload)
  let payload := Value.dict <|
    [("reason", .str "policy"), ("detail", .str detail), ("blocked_kind", .str "tool_call"),
      ("blocked_payload_digest", .str digest)] ++
    rt.registry.toList.map fun registry => ("registry_digest", .str registry.registryDigest)
  let s ← get
  let node ← orRaise (Node.make H .refusal (some s.run.cursorId) payload 0 none (createdAt env))
  let node ← record H rt node
  throw (.policyViolation detail node.id)

/-! ## Shared configuration -/

/-- The node of a `SharedBudget`. -/
def SharedBudget.node (scope : SharedBudget) : Except PyError Node :=
  Node.make H .root none
    (.dict [("pollard_shared_budget", .int 1), ("name", .str scope.name)]) 0
    (some (.dict [("limits", .dict ((sortedItems scope.budget.limits).map fun e =>
      (e.1, .str (decimalText e.2))))]))

/-- `scope_id` -/
def SharedBudget.scopeId (scope : SharedBudget) : String :=
  H.nodeId .root none 0
    (.dict [("pollard_shared_budget", .int 1), ("name", .str scope.name)])

/-- The node `bind_window` expects. -/
def windowNode (name scope : String) (window : Window) : Except PyError Node :=
  Node.make H .root none
    (.dict [("pollard_shared_window", .int 1), ("name", .str name), ("scope", .str scope)]) 0
    (some (.dict
      [("limit", .str (decimalText window.limit)),
        ("window_seconds", .str (decimalText window.windowSeconds)),
        ("meter", window.configuration)]))

/-- `_bind_configuration` -/
def bindConfiguration (expected : Node) : StoreM Unit := do
  let store ← get
  if rt.mode = .replay then
    let actual ← orRaise (replayNodeOrMissing H store expected)
    if actual.resultText ≠ expected.resultText then
      throw (.integrityError s!"shared scope configuration does not match: {expected.id}")
  else
    let after ← orRaise
      (if store.contains expected.id then .ok store else store.put H expected)
    set after
    let actual ← orRaise (after.get expected.id)
    if verifyRecording H after actual.id ≠ .ok () ∨
        actual.resultText ≠ expected.resultText then
      throw (.integrityError s!"shared scope configuration does not match: {expected.id}")

/-- The meters with a named window, and its scope. -/
def scopedWindows : List (String × String × Window) :=
  rt.meters.filterMap fun meter =>
    meter.window.bind fun window => window.scope.map fun scope => (meter.name, scope, window)

/-- `_validate_shared_configuration` -/
def validateSharedConfiguration : StoreM Unit := do
  if rt.sharedBudgets.isEmpty ∧ (scopedWindows rt).isEmpty then pure ()
  else if rt.mode ≠ .replay ∧ rt.transactional = false then
    throw (.typeError "named budgets and windows require a transactional store")
  else
    rt.sharedBudgets.forM fun scope => do
      let node ← orRaise (scope.node H)
      bindConfiguration H rt node
    (scopedWindows rt).forM fun (name, scope, window) => do
      let node ← orRaise (windowNode H name scope window)
      bindConfiguration H rt node

/-! ## Precheck -/

/-- The keys a refusal's audit metadata may not use. -/
def precheckReservedMetaKeys : List String :=
  ["accounting_fallbacks", "avoided", "charges", "created_at", "duration_s",
    "reservation_id", "reservation_lease", "settlement", "usage"]

/-- `validated_audit_meta` -/
def MeterPrecheckRefusal.validatedAuditMeta (refusal : MeterPrecheckRefusal) :
    Except PyError (Dict String Value) :=
  match refusal.auditMeta with
  | none => .ok ∅
  | some auditMeta =>
      if auditMeta.any fun e => ¬ e.2.isJson then
        .error (.typeError "meter precheck audit_meta must be JSON serializable")
      else
        match (auditMeta.map Prod.fst).filter fun key => key ∈ precheckReservedMetaKeys with
        | [] => .ok (.ofList auditMeta)
        | conflicts =>
            let keys := ", ".intercalate (conflicts.insertionSort (· ≤ ·))
            .error (.valueError s!"meter precheck audit_meta cannot override runtime metadata: {keys}")

/-- The loop of `_estimates` over the meters: the estimates, and the meters whose
estimate is approximate. -/
def meterEstimates (env : CallEnv) (kind : NodeKind) (payload : Value) :
    ℕ → List Meter → Dict String Estimate → List String →
      RunM (Dict String Estimate × List String)
  | _, [], estimates, approximate => pure (estimates, approximate)
  | index, meter :: meters, estimates, approximate =>
      match env.precheckEstimate index with
      | .raises error => throw error
      | .refusal refusal => do
          let auditMeta ← orRaise refusal.validatedAuditMeta
          refuse H rt env kind payload refusal.reason meter.name refusal.requested
            refusal.remaining refusal.detail false none auditMeta
      | .estimate none => meterEstimates env kind payload (index + 1) meters estimates approximate
      | .estimate (some estimate) =>
          meterEstimates env kind payload (index + 1) meters (estimates.set meter.name estimate)
            (if meter.precheckIsEstimate then meter.name :: approximate else approximate)

/-- `_estimates` -/
def estimatesOf (env : CallEnv) (kind : NodeKind) (payload : Value) :
    RunM (Dict String Estimate × List String) := do
  let (estimates, approximate) ← meterEstimates H rt env kind payload 0 rt.meters ∅ []
  let s ← get
  let depth ← orRaise (s.store.depth s.run.cursorId)
  return (estimates.set "depth" (.finite (depth + 1)), approximate)

/-- The loop of `_precheck` over the scopes. -/
def checkScopes (env : CallEnv) (kind : NodeKind) (payload : Value)
    (estimates : Dict String Estimate) (approximate : List String) :
    List BudgetScope → RunM Unit
  | [] => pure ()
  | scope :: scopes => do
      let s ← get
      let spent ← orRaise (spentDecimal s.store scope.anchorId)
      let check := checkBudget scope.budget spent estimates scope.exhausted
      if check.ok then checkScopes env kind payload estimates approximate scopes
      else
        refuseCheck H rt env kind payload "budget" check.meter check.requested check.remaining
          (check.meter.any fun meter => meter ∈ approximate) none

/-- The estimates a reservation can hold.  An infinite one is on a meter without a
limit, or it has been refused. -/
def finiteEstimates (estimates : Dict String Estimate) : Dict String Decimal :=
  estimates.filterMap fun
    | .finite q => some q
    | .infinite => none

def budgetReservations (store : MemoryStore) (estimates : Dict String Estimate) :
    List BudgetScope → Except PyError (List BudgetReservation)
  | [] => .ok []
  | scope :: scopes => do
      let baseline ← spentDecimal store scope.anchorId
      let rest ← budgetReservations store estimates scopes
      return ⟨scope.anchorId, scope.budget.limits, baseline, finiteEstimates estimates⟩ :: rest

/-- `ledger_key` -/
def Window.ledgerKey (window : Window) (name rootId : String) : String :=
  H.document <| .dict <|
    match window.scope with
    | some scope =>
        [("name", .str name), ("pollard_shared_window", .int 1), ("scope", .str scope)]
    | none =>
        [("limit", .str (decimalText window.limit)), ("name", .str name),
          ("root_id", .str rootId),
          ("window_seconds", .str (decimalText window.windowSeconds))]

def windowReservations (env : CallEnv) (rootId : String) :
    ℕ → List Meter → Except PyError (List WindowReservation)
  | _, [] => .ok []
  | index, meter :: meters =>
      match meter.window with
      | none => windowReservations env rootId (index + 1) meters
      | some window => do
          let estimate ← env.windowEstimate index
          let rest ← windowReservations env rootId (index + 1) meters
          return ⟨window.ledgerKey H meter.name rootId, meter.name, window.limit,
            estimate.getD 0, window.windowSeconds⟩ :: rest

/-- `_precheck` -/
def precheck (env : CallEnv) (kind : NodeKind) (payload : Value) :
    RunM (Option Reservation) := do
  onStore (validateSharedConfiguration H rt)
  let (estimates, approximate) ← estimatesOf H rt env kind payload
  let s ← get
  checkScopes H rt env kind payload estimates approximate s.run.budgetScopes
  if kind ≠ .modelCall ∧ kind ≠ .toolCall then return none
  else if rt.transactional = false then return some ⟨none, estimates⟩
  else
    let s ← get
    let budgets ← orRaise (budgetReservations s.store estimates s.run.budgetScopes)
    let windows ← orRaise (windowReservations H env s.run.rootId 0 rt.meters)
    if budgets.isEmpty ∧ windows.isEmpty then return some ⟨none, estimates⟩
    else
      let check ← orRaise env.reserve
      if check.ok then
        emit (.reserved env.reservationUuid)
        return some ⟨some env.reservationUuid, estimates⟩
      else
        refuseCheck H rt env kind payload check.reason check.meter (.finite check.requested)
          check.remaining (check.meter.any fun meter => meter ∈ approximate)
          check.windowSeconds

/-! ## Recordings -/

/-- `recorded_node_or_missing` -/
def recordedNodeOrMissing (store : MemoryStore) (kind : NodeKind) (parentId : String)
    (payload : Value) (attempt : ℤ) : Except PyError (Option Node) :=
  if rt.mode = .record ∧ rt.refuseDuplicateRecordings = false then .ok none
  else do
    let candidate ← Node.make H kind (some parentId) payload attempt
    match store.find? candidate.id, rt.mode with
    | some _, .record => duplicateRecording H candidate
    | none, .record => return none
    | none, .replay => (missingRecording H candidate).map some
    | none, .hybrid => return none
    | some node, mode =>
        if node.result = none then
          if mode = .replay then (missingRecording H candidate).map some else return none
        else if mode = .replay then (verifyRecording H store node.id).map fun _ => some node
        else return some node

/-- `avoided_charges` -/
def avoidedCharges (env : CallEnv) :
    ℕ → List Meter → Dict String Value → Except PyError (Dict String Value)
  | _, [], charges => .ok charges
  | index, meter :: meters, charges => do
      let amount ← env.avoidedCharge index
      avoidedCharges env (index + 1) meters
        (if amount = 0 then charges else charges.set meter.name (chargeToJson amount))

/-- `_add_avoided` -/
def addAvoided (charges : Dict String Value) : RunM Unit :=
  charges.entries.forM fun (name, amount) => do
    let s ← get
    let amount ← orRaise (chargeToDecimal amount)
    let total := Binary64.shortest (s.run.avoided.getD name 0) + amount
    modify fun s =>
      { s with run := { s.run with avoided := s.run.avoided.set name (Binary64.round total) } }

/-- `record_avoided_charges` -/
def recordAvoidedCharges (nodeId : String) (charges : Dict String Value) : RunM Unit := do
  if charges.entries.isEmpty then pure ()
  else
    let s ← get
    let node ← orRaise (s.store.get nodeId)
    let existing := match node.metadata.get? "avoided" with
      | some (.dict totals) => totals
      | _ => []
    let totals ← orRaise (charges.entries.foldlM
      (fun totals e => do
        let before ← chargeToDecimal (totals.getD e.1 (.int 0))
        let amount ← chargeToDecimal e.2
        return totals.set e.1 (chargeToJson (before + amount))) (Dict.ofList existing))
    let store ← orRaise
      (s.store.updateMeta nodeId (.ofList [("avoided", .dict totals.entries)]))
    onStore (set store)

/-- `_reemit_chunks` -/
def reemitChunks (env : CallEnv) (node : Node) : Except PyError Unit :=
  match env.onDelta, node.result.bind fun result => result.get? "chunks" with
  | some onDelta, some (.list chunks) =>
      (chunks.filter Value.isDict).zipIdx.forM fun (_, index) => onDelta index
  | _, _ => .ok ()

/-- `_recorded_node` -/
def recordedNode (env : CallEnv) (kind : NodeKind) (payload : Value) (attempt : ℤ) :
    RunM (Option Node) := do
  let s ← get
  match ← orRaise (recordedNodeOrMissing H rt s.store kind s.run.cursorId payload attempt) with
  | none => return none
  | some node => do
      let charges ← orRaise (avoidedCharges env 0 rt.meters ∅)
      addAvoided charges
      if rt.mode = .hybrid then recordAvoidedCharges node.id charges
      setCursor node.id
      orRaise (reemitChunks env node)
      return some node

end Runtime

end Pollard
