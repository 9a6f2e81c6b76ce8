import Pollard.Runtime.Call

/-!
# Tool calls

Registered actions pass the durable approvals and then the other policies, in the
order of the configuration.  A policy that answers `confirm` suspends the call, and
`confirm` takes it up again.
-/

namespace Pollard

open Lib Effect

section Runtime

variable (H : Hashing) (rt : Runtime)

/-! ## Policies -/

/-- `policy.decide` of the policy at an index, with the counters of the report. -/
def decidePolicy (env : CallEnv) (index : ℕ) : RunM Decision := do
  let s ← get
  let _ ← orRaise (recomputeCharges s.store s.run.rootId)
  orRaise (env.decide index)

/-- The loop of `_check_durable_approvals`; returns who answered what. -/
def durableApprovals (env : CallEnv) (spec : ActionSpec) (args : Value) :
    ℕ → List Policy → List (ℕ × Decision) → RunM (List (ℕ × Decision))
  | _, [], consulted => pure consulted
  | index, policy :: policies, consulted =>
      if policy.durableApproval then do
        let decision ← decidePolicy env index
        if decision = .allow then
          durableApprovals env spec args (index + 1) policies (consulted ++ [(index, decision)])
        else do
          let auditArgs ← orRaise (spec.redactArgs H args)
          refusePolicy H rt env "durable approval is required for this action"
            (.dict [("tool", .str spec.name), ("version", .str spec.version),
              ("args", auditArgs)])
      else durableApprovals env spec args (index + 1) policies consulted

/-- `_check_durable_approvals` -/
def checkDurableApprovals (env : CallEnv) (spec : ActionSpec) (args : Value) :
    RunM (List (ℕ × Decision)) :=
  if rt.mode = .replay then pure []
  else durableApprovals H rt env spec args 0 rt.policies []

/-- A call is put aside under the id its node would have. -/
def suspend {α : Type} (spec : ActionSpec) (args payload : Value) (attempt : ℤ)
    (consulted : List (ℕ × Decision)) : RunM α := do
  let s ← get
  let prepared ← orRaise (Node.make H .toolCall (some s.run.cursorId) payload attempt)
  modify fun s => { s with run := { s.run with
    pendingToolCalls := s.run.pendingToolCalls.set prepared.id
      ⟨s.run.cursorId, payload, args, spec, attempt, consulted⟩ } }
  throw (.confirmationRequired "confirmation required by policy" prepared.id)

/-- The loop of `_registered_tool_call` over the policies. -/
def consultPolicies (env : CallEnv) (spec : ActionSpec) (args payload : Value)
    (attempt : ℤ) : ℕ → List Policy → List (ℕ × Decision) → RunM (List (ℕ × Decision))
  | _, [], consulted => pure consulted
  | index, policy :: policies, consulted =>
      if policy.durableApproval then
        consultPolicies env spec args payload attempt (index + 1) policies consulted
      else do
        let decision ← decidePolicy env index
        match decision with
        | .deny => refusePolicy H rt env "denied by policy" payload
        | .confirm => suspend H spec args payload attempt (consulted ++ [(index, decision)])
        | .allow =>
            consultPolicies env spec args payload attempt (index + 1) policies
              (consulted ++ [(index, decision)])
        | .other =>
            consultPolicies env spec args payload attempt (index + 1) policies
              (consulted ++ [(index, decision)])

/-! ## Registered actions -/

def dryRunCharges : Dict String Value := .ofList [("steps", .int 1)]

/-- The node of a dry run. -/
def dryRunNode (env : CallEnv) (payload : Value) (attempt : ℤ) (cursorId : String) :
    Except PyError Node :=
  Node.make H .toolCall (some cursorId) payload attempt none
    (.ofList [("created_at", .str env.now), ("dry_run", .bool true),
      ("charges", .dict dryRunCharges.entries)])

/-- A dry run records the call with a charge of one step, and nothing is invoked. -/
def dryRunCall (env : CallEnv) (payload : Value) (attempt : ℤ) : RunM Node := do
  let reservation ← precheck H rt env .toolCall payload
  settleReservation rt env reservation dryRunCharges
  let s ← get
  let node ← orRaise (dryRunNode H env payload attempt s.run.cursorId)
  let node ← record H rt node
  settleScopes
  return node

/-- The payload of a registered call. -/
def registeredPayload (registry : Registry) (spec : ActionSpec) (auditArgs : Value) : Value :=
  .dict
    [("tool", .str spec.name), ("version", .str spec.version), ("args", auditArgs),
      ("spec_digest", .str spec.specDigest), ("registry_digest", .str registry.registryDigest)]

/-- What a registered call does once its policies have let it through. -/
def dispatchRegistered (flavor : Flavor) (env : CallEnv) (spec : ActionSpec) (payload : Value)
    (attempt : ℤ) (consulted : List (ℕ × Decision)) : RunM Node := do
  match ← recordedNode H rt env .toolCall payload attempt with
  | some node => return node
  | none =>
      if rt.dryRun ∧ spec.sideEffects then dryRunCall H rt env payload attempt
      else if spec.hasHandler = false then
        refusePolicy H rt env "registered action has no handler" payload
      else
        callWith H rt flavor env .toolCall payload attempt false
          (some (spec.sideEffects, consulted))

/-- `_registered_tool_call` and `_aregistered_tool_call` -/
def registeredToolCall (flavor : Flavor) (env : CallEnv) (registry : Registry)
    (name : String) (args : Value) (version : Option String) (attempt : ℤ) : RunM Node :=
  match registry.specs.get? name with
  | none =>
      let requested := match version with
        | none => name
        | some version => s!"{name}@{version}"
      refusePolicy H rt env s!"unknown registered action: {requested}"
        (.dict [("tool", .str name), ("args", args)])
  | some spec => do
      let auditArgs ← orRaise (spec.redactArgs H args)
      let blockedPayload := Value.dict [("tool", .str name), ("args", auditArgs)]
      if version.any fun version => version ≠ spec.version then
        let requested := version.getD ""
        refusePolicy H rt env s!"unknown registered action: {name}@{requested}" blockedPayload
      else do
        let finding ← orRaise (spec.validateArgs args)
        match finding with
        | some finding =>
            refusePolicy H rt env s!"schema validation failed: {finding}" blockedPayload
        | none => do
            let payload := registeredPayload registry spec auditArgs
            if rt.mode = .replay then
              match ← recordedNode H rt env .toolCall payload attempt with
              | some node => return node
              | none => throw (.runtimeError "assert recorded is not None")
            else
              if rt.mode = .record ∧ rt.refuseDuplicateRecordings then
                match ← recordedNode H rt env .toolCall payload attempt with
                | some _ => throw (.runtimeError "assert recorded is None")
                | none => pure ()
              let approved ← checkDurableApprovals H rt env spec args
              let consulted ← consultPolicies H rt env spec args payload attempt 0 rt.policies
                approved
              dispatchRegistered H rt flavor env spec payload attempt consulted

/-- `Run.tool_call` and `AsyncRun.atool_call`.  Without a registry the caller passes
the step function, or not. -/
def toolCall (flavor : Flavor) (env : CallEnv) (name : String) (args : Value)
    (passesFn : Bool) (version : Option String) (attempt : ℤ) : RunM Node :=
  match rt.registry with
  | some registry => registeredToolCall H rt flavor env registry name args version attempt
  | none =>
      if passesFn then
        callWith H rt flavor env .toolCall (.dict [("tool", .str name), ("args", args)]) attempt
          false none
      else
        throw (.typeError (match flavor with
          | .sync => "unfenced tool_call requires fn"
          | .async => "unfenced atool_call requires fn"))

/-- `Run.confirm` and `AsyncRun.aconfirm` -/
def confirm (flavor : Flavor) (env : CallEnv) (token : String) : RunM Node := do
  let s ← get
  match s.run.pendingToolCalls.get? token with
  | none => throw (.keyError token)
  | some pending => do
      modify fun s => { s with run := { s.run with
        pendingToolCalls := s.run.pendingToolCalls.erase token } }
      if s.run.cursorId ≠ pending.parentId then
        throw (.valueError "cannot confirm after cursor moved")
      else
        let approved ← checkDurableApprovals H rt env pending.spec pending.args
        if pending.spec.hasHandler = false then
          refusePolicy H rt env "registered action has no handler" pending.payload
        else
          callWith H rt flavor env .toolCall pending.payload pending.attempt false
            (some (pending.spec.sideEffects, pending.consulted ++ approved))

end Runtime

end Pollard
