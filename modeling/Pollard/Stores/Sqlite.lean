import Pollard.Stores.TransactionalSteps

/-!
# The SQLite arbiter

The reserve, settle, release and renew transactions of `SQLiteStore`.  A table is a
dictionary under its primary key; a transaction that raises is rolled back.
-/

namespace Pollard.Stores.Sqlite

open Lib Transactional

/-- The primary key of `reservations`. -/
structure ReservationKey where
  reservationId : String
  kind : DetailKind
  scopeId : String
  meter : String
deriving DecidableEq

/-- A row of `reservations`; a store in memory holds it without an end. -/
structure ReservationRow where
  amount : Decimal
  expiresAt : Option Instant
  windowSeconds : Option ℚ
deriving DecidableEq

/-- A row of `window_events`. -/
structure SettledEvent where
  scopeId : String
  meter : String
  amount : Decimal
  settledAt : Instant
deriving DecidableEq

/-- The tables the arbiter reads and writes. -/
structure SqliteState where
  budgetState : Dict LedgerKey Decimal
  reservations : Dict ReservationKey ReservationRow
  windowEvents : List SettledEvent
deriving DecidableEq

def SqliteState.empty : SqliteState := ⟨∅, ∅, []⟩

/-- `expires_at > ?` -/
def ReservationRow.live (row : ReservationRow) (now : Instant) : Bool :=
  row.expiresAt.all fun expiresAt => now < expiresAt

/-! ## Reserve -/

/-- The sum of the live reservations a test selects. -/
def activeAmount (reservations : Dict ReservationKey ReservationRow) (now : Instant)
    (selects : ReservationKey → Bool) : Decimal :=
  ((reservations.entries.filter fun e => selects e.1 ∧ e.2.live now).map fun e =>
    e.2.amount).sum

/-- The limits of a request by meter. -/
def sortedRows (request : BudgetReservation) : List BudgetRow :=
  ((sortedItems request.limits).filter fun e => e.1 ≠ "depth").map fun e => ⟨request, e.1, e.2⟩

/-- The limits of a list of requests in the order they are checked. -/
def checkedRows (budgets : List BudgetReservation) : List BudgetRow :=
  (budgets.insertionSort fun a b => a.scopeId ≤ b.scopeId).flatMap sortedRows

/-- The settled total of a ledger, inserted if it is missing and raised to the baseline. -/
def settledOf (stored : Option Decimal) (baseline : Decimal) : Decimal :=
  match stored with
  | none => baseline
  | some settled => if baseline > settled then baseline else settled

/-- The loop over the budgets, up to the first limit that has no room. -/
def reserveBudgets (reservations : Dict ReservationKey ReservationRow) (now : Instant) :
    List BudgetRow → Dict LedgerKey Decimal → Option ReservationCheck × Dict LedgerKey Decimal
  | [], budgetState => (none, budgetState)
  | row :: rows, budgetState =>
      let settled := settledOf (budgetState.get? row.key) row.baseline
      let budgetState := budgetState.set row.key settled
      let active := activeAmount reservations now fun key =>
        key.kind = .budget ∧ key.scopeId = row.request.scopeId ∧ key.meter = row.meter
      let remaining := row.limit - settled - active
      if row.amount > remaining then
        (some { ok := false, meter := row.meter, requested := row.amount, remaining },
          budgetState)
      else reserveBudgets reservations now rows budgetState

/-- The loop over the windows, up to the first that has no room.  Events and
reservations count whatever their meter. -/
def reserveWindows (reservations : Dict ReservationKey ReservationRow) (now : Instant) :
    List WindowReservation → List SettledEvent → Option ReservationCheck × List SettledEvent
  | [], windowEvents => (none, windowEvents)
  | request :: requests, windowEvents =>
      let cutoff := now - request.windowSeconds
      let windowEvents := windowEvents.filter fun event =>
        ¬ (event.scopeId = request.ledgerKey ∧ event.settledAt ≤ cutoff)
      let settled := ((windowEvents.filter fun event =>
        event.scopeId = request.ledgerKey ∧ event.settledAt > cutoff).map
          SettledEvent.amount).sum
      let active := activeAmount reservations now fun key =>
        key.kind = .window ∧ key.scopeId = request.ledgerKey
      let remaining := request.limit - settled - active
      if request.amount > remaining then
        (some
          { ok := false, reason := "window", meter := request.meter,
            requested := request.amount, remaining,
            windowSeconds := request.windowSeconds }, windowEvents)
      else reserveWindows reservations now requests windowEvents

/-- The rows a request inserts: of each budget by meter, then of the windows. -/
def insertedDetails (budgets : List BudgetReservation) (windows : List WindowReservation) :
    List Detail :=
  (budgets.flatMap sortedRows).map budgetDetail ++ windows.map windowDetail

def reservationKey (reservationId : String) (detail : Detail) : ReservationKey :=
  ⟨reservationId, detail.kind, detail.scopeId, detail.meter⟩

/-- `INSERT INTO reservations`, which raises on a primary key that is there. -/
def insertReservations (reservationId : String) (expiresAt : Option Instant) :
    List Detail → Dict ReservationKey ReservationRow →
      Except PyError (Dict ReservationKey ReservationRow)
  | [], reservations => .ok reservations
  | detail :: details, reservations =>
      let key := reservationKey reservationId detail
      if (reservations.get? key).isSome then .error .sqliteIntegrityError
      else
        insertReservations reservationId expiresAt details
          (reservations.set key ⟨detail.amount, expiresAt, detail.windowSeconds⟩)

/-- `_pollard_reserve` -/
def reserve (inMemory : Bool) (now : Instant) (reservationId : String)
    (budgets : List BudgetReservation) (windows : List WindowReservation) (leaseSeconds : ℚ)
    (db : SqliteState) : Except PyError (ReservationCheck × SqliteState) :=
  match reserveBudgets db.reservations now (checkedRows budgets) db.budgetState with
  | (some refused, budgetState) => .ok (refused, { db with budgetState })
  | (none, budgetState) =>
      match reserveWindows db.reservations now
          (windows.insertionSort fun a b => a.ledgerKey ≤ b.ledgerKey) db.windowEvents with
      | (some refused, windowEvents) => .ok (refused, { db with budgetState, windowEvents })
      | (none, windowEvents) =>
          (insertReservations reservationId
            (if inMemory then none else some (now + leaseSeconds))
            (insertedDetails budgets windows) db.reservations).map fun reservations =>
              ({ ok := true }, ⟨budgetState, reservations, windowEvents⟩)

/-! ## Settle, release, renew -/

/-- The loop of `_pollard_settle` over the rows of a reservation. -/
def settleRows (charges : Dict String Decimal) (now : Instant) :
    List ReservationKey → SqliteState → Except PyError SqliteState
  | [], db => .ok db
  | key :: keys, db =>
      let actual := charges.getD key.meter 0
      match key.kind with
      | .budget =>
          match db.budgetState.get? (key.scopeId, key.meter) with
          | none => .error (.integrityError "budget state missing during settlement")
          | some settled =>
              settleRows charges now keys
                { db with
                  budgetState := db.budgetState.set (key.scopeId, key.meter) (settled + actual) }
      | .window =>
          settleRows charges now keys
            (if actual = 0 then db
            else
              { db with
                windowEvents := db.windowEvents ++ [⟨key.scopeId, key.meter, actual, now⟩] })

/-- The keys of the rows of a reservation. -/
def rowsOf (reservationId : String) (db : SqliteState) : List ReservationKey :=
  (db.reservations.entries.map Prod.fst).filter fun key => key.reservationId = reservationId

/-- `DELETE FROM reservations WHERE reservation_id = ?` -/
def dropRows (reservationId : String) (db : SqliteState) : SqliteState :=
  { db with reservations := db.reservations.filter fun e => e.1.reservationId ≠ reservationId }

/-- `_pollard_settle` -/
def settle (now : Instant) (reservationId : String) (charges : Dict String Decimal)
    (db : SqliteState) : Except PyError SqliteState :=
  (settleRows charges now (rowsOf reservationId db) db).map (dropRows reservationId)

/-- `_pollard_release` -/
def release (reservationId : String) (db : SqliteState) : SqliteState :=
  dropRows reservationId db

/-- The reservation has rows, and none of them has expired. -/
def renewable (now : Instant) (reservationId : String) (db : SqliteState) : Bool :=
  let rows := db.reservations.entries.filter fun e => e.1.reservationId = reservationId
  ¬ rows.isEmpty ∧ rows.all fun e => e.2.live now

/-- `_pollard_renew` -/
def renew (inMemory : Bool) (now : Instant) (reservationId : String) (leaseSeconds : ℚ)
    (db : SqliteState) : Bool × SqliteState :=
  if inMemory then (true, db)
  else if renewable now reservationId db then
    (true, { db with
      reservations := db.reservations.mapEntries fun key row =>
        if key.reservationId = reservationId then
          { row with expiresAt := some (now + leaseSeconds) }
        else row })
  else (false, db)

/-! ## Runs of many clients -/

def perform (inMemory : Bool) (now : Instant) (db : SqliteState) :
    ClientCall → Except PyError (Reply × SqliteState)
  | .reserve reservationId budgets windows leaseSeconds =>
      (reserve inMemory now reservationId budgets windows leaseSeconds db).map fun r =>
        (.check r.1, r.2)
  | .settle reservationId charges =>
      (settle now reservationId charges db).map fun db => (.done, db)
  | .release reservationId => .ok (.done, release reservationId db)
  | .renew reservationId leaseSeconds =>
      let r := renew inMemory now reservationId leaseSeconds db
      .ok (.renewed r.1, r.2)

/-- The tables after a transaction; one that raises leaves them. -/
def SqliteState.step (inMemory : Bool) (db : SqliteState) (i : Issued) : SqliteState :=
  match perform inMemory i.now db i.call with
  | .error _ => db
  | .ok (_, after) => after

end Pollard.Stores.Sqlite
