import Pollard.Governor
import Pollard.Json
import Pollard.Lib.Effect
import Pollard.Registry.Redaction

/-!
# Runtimes, runs and what surrounds a call

The configuration of a `Runtime`, the state of a `Run`, and the answers its
environment gives while one operation runs: what meters, step functions, leases,
policies and the arbiter return or raise.
-/

namespace Pollard

open Lib

inductive ReplayMode where
  | record
  | hybrid
  | replay
deriving DecidableEq, Repr

/-! ## Configuration -/

/-- The ceiling of a `WindowMeter`; `configuration` describes the meter it wraps. -/
structure Window where
  limit : Decimal
  windowSeconds : ℚ
  scope : Option String
  configuration : Value
deriving DecidableEq

structure Meter where
  name : String
  precheckIsEstimate : Bool
  /-- The meter has a callable `measure`. -/
  measures : Bool
  window : Option Window
deriving DecidableEq

/-- `StepMeter` -/
def stepMeter : Meter := ⟨"steps", false, false, none⟩

/-- What a policy answers; `other` is a value that is no `Decision`. -/
inductive Decision where
  | allow
  | deny
  | confirm
  | other
deriving DecidableEq, Repr

structure Policy where
  /-- `_pollard_durable_approval` -/
  durableApproval : Bool
deriving DecidableEq

structure Registry where
  registryDigest : String
  specs : Dict String ActionSpec

/-- A named budget: additive limits, at least one. -/
structure SharedBudget where
  name : String
  budget : Budget
  additive : budget.limits.entries ≠ [] ∧ budget.limits.get? "depth" = none

structure Runtime where
  mode : ReplayMode := .record
  meters : List Meter
  registry : Option Registry := none
  policies : List Policy := []
  dryRun : Bool := false
  refuseDuplicateRecordings : Bool := false
  reservationLeaseSeconds : ℚ := 60
  sharedBudgets : List SharedBudget := []
  /-- The store is a `TransactionalArbiter`. -/
  transactional : Bool := false
  /-- The store is a `RenewableArbiter`. -/
  renewable : Bool := false

/-! ## Runs -/

structure BudgetScope where
  budget : Budget
  anchorId : String
  exhausted : List String := []
deriving DecidableEq

/-- A call waiting for `confirm`.  `consulted` is not in the source and nothing reads
it: it keeps which policies had answered what when the call was suspended. -/
structure PendingToolCall where
  parentId : String
  payload : Value
  args : Value
  spec : ActionSpec
  attempt : ℤ
  consulted : List (ℕ × Decision)

structure Run where
  rootId : String
  cursorId : String
  label : String
  budgetScopes : List BudgetScope
  avoided : Dict String ℚ := ∅
  pendingToolCalls : Dict String PendingToolCall := ∅

structure Reservation where
  reservationId : Option String
  estimates : Dict String Estimate
deriving DecidableEq

/-! ## Events -/

/-- What an operation did to the outside. -/
inductive Event where
  /-- A step function was invoked; for a registered action, whether it has side
  effects and which policies had answered what. -/
  | invoked (action : Option (Bool × List (ℕ × Decision)))
  | reserved (reservationId : String)
  /-- A call was charged, under the scopes of its run. -/
  | charged (scopes : List (Budget × String)) (charges : Dict String Value)
  | settled (reservationId : String) (charges : Dict String Value)
  | released (reservationId : String)
  /-- The scopes of a run were compared with the totals of the store. -/
  | reviewed (scopes : List (Budget × String)) (store : MemoryStore)
deriving DecidableEq

/-- A run at work on its store, and what happened so far, newest first. -/
structure Session where
  store : MemoryStore
  run : Run
  trace : List Event

abbrev RunM := EStateM PyError Session

abbrev StoreM := EStateM PyError MemoryStore

def onStore {α : Type} : StoreM α → RunM α :=
  Effect.focus Session.store fun store s => { s with store }

/-- The budgets a run is under, and where they are anchored. -/
def Run.scopes (run : Run) : List (Budget × String) :=
  run.budgetScopes.map fun scope => (scope.budget, scope.anchorId)

/-! ## The environment of an operation -/

structure MeterPrecheckRefusal where
  reason : String
  detail : String
  auditMeta : Option (List (String × Value))
  requested : Option String
  remaining : Option String

/-- What `precheck_estimate` does. -/
inductive Precheck where
  | estimate (estimate : Option Estimate)
  | refusal (refusal : MeterPrecheckRefusal)
  | raises (error : PyError)

/-- What a step function returns, awaited if need be: a dictionary, an iterator of
chunks that ends or raises, or something else. -/
inductive Produced where
  | dict (entries : List (String × Value))
  | iterator (items : List Value) (ending : Option PyError)
  | asyncIterator (items : List Value) (ending : Option PyError)
  | other

/-- The answers of the environment, meters by their index. -/
structure CallEnv where
  now : String
  duration : ℚ
  reservationUuid : String
  eventUuid : String
  precheckEstimate : ℕ → Precheck
  windowEstimate : ℕ → Except PyError (Option Decimal)
  reserve : Except PyError ReservationCheck
  startLease : Except PyError Unit
  startMeasurement : ℕ → Except PyError Unit
  produced : Except PyError Produced
  onDelta : Option (ℕ → Except PyError Unit)
  stopMeasurement : ℕ → Except PyError Unit
  stopLease : Except PyError (Option String)
  readings : ℕ → Except PyError (List (String × Value))
  charge : ℕ → Except PyError Decimal
  fallbackReason : ℕ → Option String
  settle : Except PyError Unit
  release : Except PyError Unit
  avoidedCharge : ℕ → Except PyError Decimal
  decide : ℕ → Except PyError Decision

/-- Nothing raises, no meter says anything, and the step function returns `{}`. -/
def CallEnv.calm : CallEnv where
  now := "now"
  duration := 0
  reservationUuid := "reservation"
  eventUuid := "event"
  precheckEstimate _ := .estimate none
  windowEstimate _ := .ok none
  reserve := .ok { ok := true }
  startLease := .ok ()
  startMeasurement _ := .ok ()
  produced := .ok (.dict [])
  onDelta := none
  stopMeasurement _ := .ok ()
  stopLease := .ok none
  readings _ := .ok []
  charge _ := .ok 0
  fallbackReason _ := none
  settle := .ok ()
  release := .ok ()
  avoidedCharge _ := .ok 0
  decide _ := .ok .allow

/-- Every meter counts one, as a `StepMeter` counts a call. -/
def CallEnv.step : CallEnv :=
  { calm with precheckEstimate := fun _ => .estimate (some (.finite 1)), charge := fun _ => .ok 1 }

/-! ## Texts -/

def Estimate.text : Estimate → String
  | finite q => decimalText q
  | infinite => "Infinity"

/-- `payload_summary` -/
def payloadSummary (H : Hashing) (kind : NodeKind) (payload : Value) :
    Except PyError String := do
  let run := match kind, payload.get? "run" with
    | .root, some (.str run) => s!" run={run}"
    | _, _ => ""
  let model := match kind, payload.get? "model" with
    | .modelCall, some (.str model) => s!" model={model}"
    | _, _ => ""
  let tool := match kind, payload.get? "tool", payload.get? "version" with
    | .toolCall, some (.str tool), some (.str version) => s!" tool={tool}@{version}"
    | .toolCall, some (.str tool), _ => s!" tool={tool}"
    | _, _, _ => ""
  let digest ← H.digestPayload payload
  return s!"{kind.value}{run}{model}{tool} digest={digest}"

end Pollard
