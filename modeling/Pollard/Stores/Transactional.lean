import Pollard.Arbiter
import Pollard.Lib.Machine
import Mathlib.Algebra.Order.Ring.Rat

/-!
# The transactional key/value arbiter

The reserve, settle, release and renew transactions of `TransactionalKVStore`.
A bucket is a dictionary under the compound key of its entries; a record is kept
in decoded form.  A transaction that raises writes nothing.
-/

namespace Pollard.Stores.Transactional

open Lib

inductive DetailKind where
  | budget
  | window
deriving DecidableEq, Repr

inductive ReservationState where
  | active
  | settled
  | released
deriving DecidableEq, Repr

def ReservationState.text : ReservationState → String
  | active => "active"
  | settled => "settled"
  | released => "released"

/-- One entry of `details`; only a window detail stores `window_seconds`. -/
structure Detail where
  kind : DetailKind
  scopeId : String
  meter : String
  amount : Decimal
  windowSeconds : Option ℚ
deriving DecidableEq

/-- The canonical document of a reservation request. -/
structure RequestDocument where
  budgets : List (String × List (String × Decimal) × List (String × Decimal) ×
    List (String × Decimal))
  windows : List WindowReservation
  leaseSeconds : ℚ
deriving DecidableEq

abbrev ChargesDocument := List (String × Decimal)

/-- SHA-256 of the canonical bytes of the two documents. -/
structure Digests where
  request : RequestDocument → String
  charges : ChargesDocument → String

structure ReservationRecord where
  requestDigest : String
  request : RequestDocument
  state : ReservationState
  chargesDigest : Option String
  charges : Option ChargesDocument
  expiresAt : Instant
  createdAt : Instant
  completedAt : Option Instant
  details : List Detail
deriving DecidableEq

structure WindowEvent where
  scopeId : String
  meter : String
  amount : Decimal
  settledAt : Instant
  windowSeconds : ℚ
deriving DecidableEq

/-- The key of a budget row: scope and meter. -/
abbrev LedgerKey := String × String

/-- The buckets the arbiter reads and writes. -/
structure KVState where
  budget : Dict LedgerKey Decimal
  reservations : Dict String ReservationRecord
  windowEvents : Dict (String × ℕ) WindowEvent
deriving DecidableEq

def KVState.empty : KVState := ⟨∅, ∅, ∅⟩

/-- `_active_amount` -/
def activeAmount (reservations : List ReservationRecord) (kind : DetailKind)
    (scopeId meter : String) : Decimal :=
  (reservations.map fun reservation =>
    ((reservation.details.filter fun detail =>
      detail.kind = kind ∧ detail.scopeId = scopeId ∧ detail.meter = meter).map
        Detail.amount).sum).sum

/-- `_reservation_request` -/
def reservationRequest (budgets : List BudgetReservation)
    (windows : List WindowReservation) (leaseSeconds : ℚ) : RequestDocument where
  budgets := (budgets.insertionSort fun a b => a.scopeId ≤ b.scopeId).map fun request =>
    (request.scopeId, sortedItems request.limits, sortedItems request.baseline,
      sortedItems request.estimates)
  windows := windows.insertionSort fun a b => a.ledgerKey ≤ b.ledgerKey
  leaseSeconds := leaseSeconds

/-- `_reservation_charges` -/
def reservationCharges (charges : Dict String Decimal) : ChargesDocument :=
  sortedItems charges

/-! ## Reserve -/

structure BudgetRow where
  request : BudgetReservation
  meter : String
  limit : Decimal
deriving DecidableEq

namespace BudgetRow

def key (row : BudgetRow) : LedgerKey := (row.request.scopeId, row.meter)

def baseline (row : BudgetRow) : Decimal := row.request.baseline.getD row.meter 0

def amount (row : BudgetRow) : Decimal := row.request.estimates.getD row.meter 0

end BudgetRow

def budgetRows (budgets : List BudgetReservation) : List BudgetRow :=
  budgets.flatMap fun request =>
    (request.limits.entries.filter fun e => e.1 ≠ "depth").map fun e =>
      ⟨request, e.1, e.2⟩

/-- The reservations that still hold capacity. -/
def activeReservations (reservations : Dict String ReservationRecord) (now : Instant) :
    List ReservationRecord :=
  reservations.values.filter fun reservation =>
    reservation.state = .active ∧ reservation.expiresAt > now

/-- The settled total a row is checked against: the stored one, raised to the
baseline of the request. -/
def settledTotal (stored : Option Decimal) (baseline : Decimal) : Decimal :=
  if baseline > stored.getD 0 then baseline else stored.getD 0

/-- The budget rows of a request, in order.  A row that does not fit ends the
loop with its refusal; the totals written so far stay. -/
def reserveBudgetRows (active : List ReservationRecord) :
    List BudgetRow → Dict LedgerKey Decimal → Option ReservationCheck × Dict LedgerKey Decimal
  | [], budget => (none, budget)
  | row :: rows, budget =>
      let stored := budget.get? row.key
      let settled := settledTotal stored row.baseline
      let budget := if stored ≠ some settled then budget.set row.key settled else budget
      let reserved := activeAmount active .budget row.request.scopeId row.meter
      let remaining := row.limit - settled - reserved
      if row.amount > remaining then
        (some { ok := false, meter := row.meter, requested := row.amount, remaining },
          budget)
      else reserveBudgetRows active rows budget

/-- The events that are still inside their own window. -/
def pruneEvents (events : Dict (String × ℕ) WindowEvent) (now : Instant) :
    Dict (String × ℕ) WindowEvent :=
  events.filter fun e => ¬ e.2.settledAt ≤ now - e.2.windowSeconds

/-- What the stored events count against a window at an instant. -/
def windowSettled (events : List WindowEvent) (now : Instant)
    (request : WindowReservation) : Decimal :=
  ((events.filter fun event =>
    event.scopeId = request.ledgerKey ∧ event.meter = request.meter ∧
      event.settledAt > now - request.windowSeconds).map WindowEvent.amount).sum

/-- The windows of a request, in order, up to the first that does not fit. -/
def reserveWindows (active : List ReservationRecord) (events : List WindowEvent)
    (now : Instant) : List WindowReservation → Option ReservationCheck
  | [] => none
  | request :: requests =>
      let settled := windowSettled events now request
      let reserved := activeAmount active .window request.ledgerKey request.meter
      let remaining := request.limit - settled - reserved
      if request.amount > remaining then
        some
          { ok := false, reason := "window", meter := request.meter,
            requested := request.amount, remaining,
            windowSeconds := request.windowSeconds }
      else reserveWindows active events now requests

def budgetDetail (row : BudgetRow) : Detail :=
  ⟨.budget, row.request.scopeId, row.meter, row.amount, none⟩

def windowDetail (request : WindowReservation) : Detail :=
  ⟨.window, request.ledgerKey, request.meter, request.amount, some request.windowSeconds⟩

def reservationDetails (budgets : List BudgetReservation)
    (windows : List WindowReservation) : List Detail :=
  (budgetRows budgets).map budgetDetail ++ windows.map windowDetail

/-- `_reserve_once` on an id that already has a record. -/
def retryReserve (reservationId : String) (requestDigest : String) (now : Instant)
    (current : ReservationRecord) : Except PyError ReservationCheck :=
  if current.requestDigest ≠ requestDigest then
    .error (.integrityError s!"reservation retry changed request: {reservationId}")
  else if current.state ≠ .active then
    .error (.integrityError
      s!"reservation is already {current.state.text}: {reservationId}")
  else if current.expiresAt ≤ now then
    .error (.integrityError s!"reservation expired before retry: {reservationId}")
  else .ok { ok := true }

/-- `_reserve_once` -/
def reserveOnce (H : Digests) (now : Instant) (reservationId : String)
    (budgets : List BudgetReservation) (windows : List WindowReservation)
    (leaseSeconds : ℚ) (kv : KVState) : Except PyError (ReservationCheck × KVState) :=
  let request := reservationRequest budgets windows leaseSeconds
  match kv.reservations.get? reservationId with
  | some current =>
      (retryReserve reservationId (H.request request) now current).map fun check => (check, kv)
  | none =>
      let active := activeReservations kv.reservations now
      let rows := (budgetRows budgets).insertionSort fun a b => PairLE a.key b.key
      match reserveBudgetRows active rows kv.budget with
      | (some refused, budget) => .ok (refused, { kv with budget })
      | (none, budget) =>
          let windowEvents := pruneEvents kv.windowEvents now
          match reserveWindows active windowEvents.values now
              (windows.insertionSort fun a b => a.ledgerKey ≤ b.ledgerKey) with
          | some refused => .ok (refused, { kv with budget, windowEvents })
          | none =>
              let record : ReservationRecord :=
                { requestDigest := H.request request
                  request := request
                  state := .active
                  chargesDigest := none
                  charges := none
                  expiresAt := now + leaseSeconds
                  createdAt := now
                  completedAt := none
                  details := reservationDetails budgets windows }
              .ok ({ ok := true },
                ⟨budget, kv.reservations.set reservationId record, windowEvents⟩)

/-! ## Settle, release, renew -/

/-- One detail of a settlement: a budget total grows, a window gets an event. -/
def settleDetail (reservationId : String) (charges : Dict String Decimal) (now : Instant)
    (index : ℕ) (detail : Detail) (kv : KVState) : Except PyError KVState :=
  let actual := charges.getD detail.meter 0
  match detail.kind with
  | .budget =>
      match kv.budget.get? (detail.scopeId, detail.meter) with
      | none => .error (.integrityError "budget state missing during settlement")
      | some stored =>
          .ok { kv with
            budget := kv.budget.set (detail.scopeId, detail.meter) (stored + actual) }
  | .window =>
      if actual = 0 then .ok kv
      else
        match detail.windowSeconds with
        | none => .error (.integrityError "stored window_seconds must be a number")
        | some windowSeconds =>
            .ok { kv with
              windowEvents := kv.windowEvents.set (reservationId, index)
                ⟨detail.scopeId, detail.meter, actual, now, windowSeconds⟩ }

def settleDetails (reservationId : String) (charges : Dict String Decimal) (now : Instant) :
    ℕ → List Detail → KVState → Except PyError KVState
  | _, [], kv => .ok kv
  | index, detail :: details, kv =>
      (settleDetail reservationId charges now index detail kv).bind
        (settleDetails reservationId charges now (index + 1) details)

/-- `_settle_once` -/
def settleOnce (H : Digests) (now : Instant) (reservationId : String)
    (charges : Dict String Decimal) (kv : KVState) : Except PyError KVState :=
  let document := reservationCharges charges
  match kv.reservations.get? reservationId with
  | none => .error (.integrityError s!"unknown reservation: {reservationId}")
  | some current =>
      match current.state with
      | .settled =>
          if current.chargesDigest ≠ some (H.charges document) then
            .error (.integrityError
              s!"reservation retry used different charges: {reservationId}")
          else .ok kv
      | .released =>
          .error (.integrityError s!"reservation is already released: {reservationId}")
      | .active =>
          if current.details = [] then
            .error (.integrityError s!"reservation details are missing: {reservationId}")
          else
            (settleDetails reservationId charges now 0 current.details kv).map fun kv =>
              { kv with
                reservations := kv.reservations.set reservationId
                  { current with
                    state := .settled
                    chargesDigest := some (H.charges document)
                    charges := some document
                    completedAt := some now } }

/-- `_release_once` -/
def releaseOnce (now : Instant) (reservationId : String) (kv : KVState) :
    Except PyError KVState :=
  match kv.reservations.get? reservationId with
  | none => .ok kv
  | some current =>
      match current.state with
      | .released => .ok kv
      | .settled =>
          .error (.integrityError s!"reservation is already settled: {reservationId}")
      | .active =>
          .ok { kv with
            reservations := kv.reservations.set reservationId
              { current with state := .released, completedAt := some now } }

/-- The transaction of `_pollard_renew`. -/
def renewOnce (now : Instant) (reservationId : String) (leaseSeconds : ℚ) (kv : KVState) :
    Bool × KVState :=
  match kv.reservations.get? reservationId with
  | none => (false, kv)
  | some current =>
      if current.state ≠ .active ∨ current.expiresAt ≤ now then (false, kv)
      else
        (true, { kv with
          reservations := kv.reservations.set reservationId
            { current with expiresAt := now + leaseSeconds } })

/-! ## Runs of many clients -/

/-- A transaction some client issues. -/
inductive ClientCall where
  | reserve (reservationId : String) (budgets : List BudgetReservation)
      (windows : List WindowReservation) (leaseSeconds : ℚ)
  | settle (reservationId : String) (charges : Dict String Decimal)
  | release (reservationId : String)
  | renew (reservationId : String) (leaseSeconds : ℚ)
deriving DecidableEq

inductive Reply where
  | check (check : ReservationCheck)
  | done
  | renewed (ok : Bool)
deriving DecidableEq

def perform (H : Digests) (now : Instant) (kv : KVState) :
    ClientCall → Except PyError (Reply × KVState)
  | .reserve reservationId budgets windows leaseSeconds =>
      (reserveOnce H now reservationId budgets windows leaseSeconds kv).map fun r =>
        (.check r.1, r.2)
  | .settle reservationId charges =>
      (settleOnce H now reservationId charges kv).map fun kv => (.done, kv)
  | .release reservationId => (releaseOnce now reservationId kv).map fun kv => (.done, kv)
  | .renew reservationId leaseSeconds =>
      let r := renewOnce now reservationId leaseSeconds kv
      .ok (.renewed r.1, r.2)

/-- One store, the reading of its transaction clock, and every window event any
transaction ever wrote (the bucket itself is pruned). -/
structure Timeline where
  kv : KVState
  clock : Instant
  history : List WindowEvent
deriving DecidableEq

def Timeline.start (clock : Instant) : Timeline := ⟨.empty, clock, []⟩

/-- The window events a transaction added. -/
def newEvents (before after : KVState) : List WindowEvent :=
  (after.windowEvents.entries.filter fun e => ¬ before.windowEvents.contains e.1).map
    Prod.snd

/-- The transaction a client issues, with the reading of `tx.now`. -/
structure Issued where
  now : Instant
  call : ClientCall
deriving DecidableEq

def Timeline.step (H : Digests) (s : Timeline) (i : Issued) : Timeline :=
  match perform H i.now s.kv i.call with
  | .error _ => { s with clock := i.now }
  | .ok (_, kv) => ⟨kv, i.now, s.history ++ newEvents s.kv kv⟩

end Pollard.Stores.Transactional
