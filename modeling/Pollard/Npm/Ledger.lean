import Pollard.Npm.Interning
import Pollard.Stores.SqliteSettlement
import Pollard.Lib.Fallible
import Pollard.Lib.Forest
import Pollard.Lib.Machine

/-!
# Calls against a shared ledger in the npm package

The runs of one label in any number of processes on one `SQLiteStore`.  A method of the store
or the arbiter is one step, and the inputs say who moves and what the callbacks do.
-/

namespace Pollard.Npm

open Lib Lib.Fallible Stores Stores.Transactional Stores.Sqlite

/-! ## Charges -/

/-- Charges that are safe integers. -/
abbrev Charges := Dict String ℕ

/-- `addCharges` of safe integers, or none where `chargeAmount` raises. -/
def addCharges (left right : ℕ) : Option ℕ :=
  if left + right ≤ maxSafeInteger then some (left + right) else none

/-- `chargeAt` -/
def chargeAt (values : Charges) (meter : String) : ℕ := values.getD meter 0

/-- The amounts as the arbiter takes them. -/
def Charges.amounts (charges : Charges) : Dict String Decimal :=
  Dict.map (fun n : ℕ => (n : ℚ)) charges

def Charges.safe (charges : Charges) : Bool := charges.values.all fun n => n ≤ maxSafeInteger

/-! ## Nodes -/

/-- `meta.state` -/
inductive CallState where
  | pending
  | completed
  | failed
deriving DecidableEq, Repr

/-- What accounting reads of a stored node. -/
structure CallNode where
  parent : Option String
  kind : NodeKind
  state : Option CallState := none
  reservationId : Option String := none
  charges : Option Charges := none
deriving DecidableEq

abbrev CallTree := Dict String CallNode

namespace CallTree

/-- `children` -/
def children (nodes : CallTree) (id : String) : List String :=
  ((nodes.entries.filter fun e => e.2.parent = some id).insertionSort fun a b =>
    PairLE (a.2.kind.value, a.1) (b.2.kind.value, b.1)).map Prod.fst

/-- `get` -/
def find (nodes : CallTree) (id : String) : Option (String × CallNode) :=
  (nodes.get? id).map fun node => (id, node)

/-- `walk`, or none where the root of the walk is missing. -/
def walk (nodes : CallTree) (rootId : String) : Option (List (String × CallNode)) :=
  (Forest.walk nodes.children (nodes.entries.length + 1) [rootId]).mapM nodes.find

/-- `put` of a node without a result. -/
def put (nodes : CallTree) (id : String) (node : CallNode) : Option CallTree :=
  if node.parent.all nodes.contains then
    if nodes.contains id then some nodes else some (nodes.set id node)
  else none

/-- `claim` -/
def claim (nodes : CallTree) (id : String) (node : CallNode) : Option CallTree :=
  if nodes.contains id then none else nodes.put id node

end CallTree

/-! ## Counters -/

/-- The charges of one node, added to a total. -/
def addNode (total : Charges) (node : String × CallNode) : Option Charges :=
  (node.2.charges.getD ∅).entries.foldlM
    (fun total e => (addCharges (chargeAt total e.1) e.2).map (total.set e.1)) total

/-- `excludeReservedPending` skips the node. -/
def CallNode.reservedPending (node : CallNode) : Bool :=
  node.state = some .pending ∧ node.reservationId.isSome

/-- `counters` of the nodes of a walk, or none where a total leaves the safe range. -/
def counters (nodes : List (String × CallNode)) (excludeReservedPending : Bool) :
    Option Charges :=
  (nodes.filter fun e => ¬ (excludeReservedPending ∧ e.2.reservedPending)).foldlM addNode ∅

/-! ## The arbiter -/

/-- `amount` -/
def amount (value : Decimal) : Except Error Unit :=
  ensure (0 ≤ value ∧ value ≤ maxSafeInteger)
    (.typeError (units "meter amount must be a nonnegative finite safe number"))

/-- The loop of `pollardReserve` over the budgets, up to the first limit that has no room. -/
def reserveBudgets (reservations : Dict ReservationKey ReservationRow) (now : Instant) :
    List BudgetRow → Dict LedgerKey Decimal →
      Except Error (Option ReservationCheck × Dict LedgerKey Decimal)
  | [], budgetState => .ok (none, budgetState)
  | row :: rows, budgetState => do
      amount row.limit
      amount row.baseline
      amount row.amount
      let settled := settledOf (budgetState.get? row.key) row.baseline
      let budgetState := budgetState.set row.key settled
      let active := activeAmount reservations now fun key =>
        key.kind = .budget ∧ key.scopeId = row.request.scopeId ∧ key.meter = row.meter
      let remaining := row.limit - settled - active
      if row.amount > remaining then
        return (some { ok := false, meter := row.meter, requested := row.amount, remaining },
          budgetState)
      else reserveBudgets reservations now rows budgetState

/-- The checks of the loop over the windows. -/
def checkWindow (request : WindowReservation) : Except Error Unit := do
  amount request.limit
  amount request.amount
  amount request.windowSeconds
  ensure (request.windowSeconds ≠ 0) (.typeError (units "windowSeconds must be positive"))

/-- The loop of `pollardReserve` over the windows is that of Python's arbiter, in the order of
the requests. -/
def reserveWindows (reservations : Dict ReservationKey ReservationRow) (now : Instant) :
    List WindowReservation → List SettledEvent →
      Except Error (Option ReservationCheck × List SettledEvent)
  | [], windowEvents => .ok (none, windowEvents)
  | request :: requests, windowEvents => do
      checkWindow request
      match Sqlite.reserveWindows reservations now [request] windowEvents with
      | (some refused, windowEvents) => return (some refused, windowEvents)
      | (none, windowEvents) => reserveWindows reservations now requests windowEvents

/-- What a statement of SQLite raises. -/
def sqliteError : PyError → Error
  | .integrityError message => .integrityError message
  | _ => .integrityError "UNIQUE constraint failed"

/-- `pollardReserve` of a store in a file. -/
def pollardReserve (now : Instant) (reservationId : String) (budgets : List BudgetReservation)
    (windows : List WindowReservation) (leaseSeconds : ℚ) (db : SqliteState) :
    Except Error (ReservationCheck × SqliteState) := do
  amount leaseSeconds
  ensure (leaseSeconds ≠ 0) (.typeError (units "leaseSeconds must be positive"))
  ensure (rowsOf reservationId db = []) (.integrityError "duplicate reservation id")
  match ← reserveBudgets db.reservations now (budgetRows budgets) db.budgetState with
  | (some refused, budgetState) => return (refused, { db with budgetState })
  | (none, budgetState) =>
      match ← reserveWindows db.reservations now windows db.windowEvents with
      | (some refused, windowEvents) => return (refused, { db with budgetState, windowEvents })
      | (none, windowEvents) => do
          let reservations ← (insertReservations reservationId (some (now + leaseSeconds))
            (reservationDetails budgets windows) db.reservations).mapError sqliteError
          return ({ ok := true }, ⟨budgetState, reservations, windowEvents⟩)

/-- `pollardSettle`, whose rows are settled as Python settles them. -/
def pollardSettle (now : Instant) (reservationId : String) (charges : Charges)
    (db : SqliteState) : Except Error SqliteState := do
  checkAll amount charges.amounts.values
  (Sqlite.settle now reservationId charges.amounts db).mapError sqliteError

/-- `pollardRelease` -/
def pollardRelease (reservationId : String) (db : SqliteState) : SqliteState :=
  dropRows reservationId db

/-- `pollardRenew` of a store in a file. -/
def pollardRenew (now : Instant) (reservationId : String) (leaseSeconds : ℚ)
    (db : SqliteState) : Bool × SqliteState :=
  Sqlite.renew false now reservationId leaseSeconds db

/-! ## Runs -/

/-- A budget and the node below which it counts. -/
structure Scope where
  anchorId : String
  limits : Dict String Decimal
deriving DecidableEq

/-- A call at the cursor of a run: the identity of its node, and what `#precheck` estimated. -/
structure Call where
  id : String
  parent : String
  kind : NodeKind
  estimates : Charges
deriving DecidableEq

/-- `#estimatedCharges` -/
def Call.estimatedCharges (call : Call) : Charges :=
  call.estimates.filter fun e => e.1 ≠ "depth" ∧ e.2 ≠ 0

/-- The node `#begin` claims. -/
def Call.pending (call : Call) (reservationId : Option String) : CallNode where
  parent := call.parent
  kind := call.kind
  state := some .pending
  reservationId := reservationId
  charges := some call.estimatedCharges

/-- What `#precheck` has read of one scope, with the baseline it counted. -/
structure Reading where
  scope : Scope
  nodes : List (String × CallNode)
  baseline : Charges
  counted : counters nodes true = some baseline
deriving DecidableEq

/-- One scope is walked and its baseline counted. -/
def readScope (nodes : CallTree) (scope : Scope) : Option Reading :=
  (nodes.walk scope.anchorId).bind fun walked =>
    match h : counters walked true with
    | some baseline => some ⟨scope, walked, baseline, h⟩
    | none => none

/-- The requests of the scopes that limit more than depth. -/
def budgetsOf (readings : List Reading) (estimates : Charges) : List BudgetReservation :=
  (readings.map fun reading =>
    ⟨reading.scope.anchorId, reading.scope.limits, reading.baseline.amounts,
      estimates.amounts⟩).filter fun request => request.limits.keys.any (· ≠ "depth")

/-- Where a run is in a call. -/
inductive Phase where
  | idle
  /-- `#precheck` reads the baselines of these scopes, and has these readings. -/
  | measuring (call : Call) (scopes : List Scope) (readings : List Reading)
  | reserved (call : Call) (reservationId : Option String)
  /-- `#begin` or `#dryRun` gives its reservation back. -/
  | releasing (reservationId : String)
  /-- The callback runs. -/
  | running (call : Call) (reservationId : Option String)
  /-- `#finish` has settled these charges. -/
  | finishing (call : Call) (reservationId : Option String) (charges : Charges)
  /-- `#fail` has found the node pending. -/
  | failing (call : Call) (reservationId : Option String)
  /-- `#fail` has marked the node. -/
  | failed (call : Call) (reservationId : Option String)
deriving DecidableEq

/-- The store that the runs share, and where each run is. -/
structure World where
  nodes : CallTree
  ledger : SqliteState
  runs : Dict ℕ Phase

/-- The step of one run; the rest of the world is as the others left it. -/
inductive Move where
  /-- A call begins in a run with these scopes below the root. -/
  | begin (call : Call) (inner : List Scope)
  | measure
  | reserve (now : Instant) (reservationId : String) (windows : List WindowReservation)
      (leaseSeconds : ℚ)
  /-- The signal aborts, or the store has the node already. -/
  | abandon
  | claim
  | dryRun
  | release
  | renew (now : Instant) (leaseSeconds : ℚ)
  /-- The callback returned, and the meters charge this. -/
  | settle (now : Instant) (charges : Charges)
  | finalize
  /-- Something was thrown. -/
  | fail
  | mark
  | settleFailed (now : Instant)
deriving DecidableEq

inductive Input where
  /-- `Runtime.run` -/
  | root
  /-- A note, a branch or a refusal, which carries no charges. -/
  | note (id parent : String) (kind : NodeKind)
  | move (run : ℕ) (move : Move)
deriving DecidableEq

namespace World

variable (root : String) (limits : Dict String Decimal)

def start : World := ⟨∅, .empty, ∅⟩

def phase (s : World) (run : ℕ) : Phase := s.runs.getD run .idle

/-- No call is in flight. -/
def idle (s : World) : Prop := ∀ phase ∈ s.runs.values, phase = .idle

instance (s : World) : Decidable s.idle := inferInstanceAs (Decidable (∀ _ ∈ _, _))

def goto (s : World) (run : ℕ) (phase : Phase) : World := { s with runs := s.runs.set run phase }

/-- A node is put, if the store takes it. -/
def put (s : World) (id : String) (node : CallNode) : World :=
  { s with nodes := (s.nodes.put id node).getD s.nodes }

/-- Where `#begin` goes when it cannot dispatch. -/
def abandoned : Option String → Phase
  | some reservationId => .releasing reservationId
  | none => .idle

/-- `#precheck` reserves, once every scope is read. -/
def reserve (s : World) (run : ℕ) (call : Call) (readings : List Reading) (now : Instant)
    (reservationId : String) (windows : List WindowReservation) (leaseSeconds : ℚ) : World :=
  let budgets := budgetsOf readings call.estimates
  if budgets = [] ∧ windows = [] then s.goto run (.reserved call none)
  else
    match pollardReserve now reservationId budgets windows leaseSeconds s.ledger with
    | .ok (check, ledger) =>
        { s with ledger }.goto run
          (if check.ok then .reserved call (some reservationId) else .idle)
    | .error _ => s.goto run .idle

/-- `pollardSettle`, if there is a reservation; an error leaves the ledger. -/
def settled (s : World) (now : Instant) (reservationId : Option String) (charges : Charges) :
    World :=
  match reservationId with
  | none => s
  | some reservationId =>
      { s with
        ledger := ((pollardSettle now reservationId charges s.ledger).toOption).getD s.ledger }

/-- `finalize`, after whose error `#fail` finds no pending node. -/
def finalize (s : World) (run : ℕ) (call : Call) (charges : Charges) : World :=
  match s.nodes.get? call.id with
  | some node =>
      if node.state = some .pending then
        { s with
          nodes := s.nodes.set call.id
            { node with state := some .completed, charges := some charges } }.goto run .idle
      else s.goto run .idle
  | none => s.goto run .idle

/-- `updateMeta` of `#fail` -/
def mark (s : World) (run : ℕ) (call : Call) (reservationId : Option String) : World :=
  match s.nodes.get? call.id with
  | some node =>
      { s with nodes := s.nodes.set call.id { node with state := some .failed } }.goto run
        (.failed call reservationId)
  | none => s.goto run .idle

/-- `#fail` looks at the state of the node. -/
def fail (s : World) (run : ℕ) (call : Call) (reservationId : Option String) : World :=
  if (s.nodes.get? call.id).any fun node => node.state = some .pending then
    s.goto run (.failing call reservationId)
  else s.goto run .idle

/-- One step of a run; a step that its phase does not have leaves the world. -/
def move (s : World) (run : ℕ) : Phase → Move → World
  | .idle, .begin call inner =>
      if call.estimates.safe then
        s.goto run (.measuring call (⟨root, limits⟩ :: inner) [])
      else s
  | .measuring call (scope :: scopes) readings, .measure =>
      match readScope s.nodes scope with
      | some reading => s.goto run (.measuring call scopes (readings ++ [reading]))
      | none => s.goto run .idle
  | .measuring call [] readings, .reserve now reservationId windows leaseSeconds =>
      s.reserve run call readings now reservationId windows leaseSeconds
  | .reserved _ reservationId, .abandon => s.goto run (abandoned reservationId)
  | .reserved call reservationId, .claim =>
      match s.nodes.claim call.id (call.pending reservationId) with
      | some nodes => { s with nodes }.goto run (.running call reservationId)
      | none => s.goto run (abandoned reservationId)
  | .reserved call reservationId, .dryRun =>
      (s.put call.id ⟨call.parent, call.kind, none, none, some ∅⟩).goto run
        (abandoned reservationId)
  | .releasing reservationId, .release =>
      { s with ledger := pollardRelease reservationId s.ledger }.goto run .idle
  | .running _ (some reservationId), .renew now leaseSeconds =>
      { s with ledger := (pollardRenew now reservationId leaseSeconds s.ledger).2 }
  | .running call reservationId, .settle now charges =>
      if charges.safe then
        (s.settled now reservationId charges).goto run (.finishing call reservationId charges)
      else s
  | .finishing call _ charges, .finalize => s.finalize run call charges
  | .running call reservationId, .fail => s.fail run call reservationId
  | .failing call reservationId, .mark => s.mark run call reservationId
  | .failed call reservationId, .settleFailed now =>
      (s.settled now reservationId call.estimatedCharges).goto run .idle
  | _, _ => s

/-- One step of the world. -/
def step (s : World) : Input → World
  | .root => s.put root ⟨none, .root, none, none, none⟩
  | .note id parent kind => s.put id ⟨parent, kind, none, none, none⟩
  | .move run move => s.move root limits run (s.phase run) move

end World

end Pollard.Npm
