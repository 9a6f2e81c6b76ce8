import Pollard.Npm.RemoteLedgers

/-!
# The remote ledgers are never over-committed

What an operation does to the ledgers, and the bound of every limit over runs of many clients.
-/

namespace Pollard.Npm.Remote

open Lib Lib.Fallible Lib.LeasedCapacity Stores Stores.Transactional

/-! ## What an operation does to the ledgers -/

/-- The moves of the ledgers. -/
inductive Moves (now : Instant) (kv : KVState) : Operation → KVState → Prop
  | unchanged (operation : Operation) : Moves now kv operation kv
  | pruned (operation : Operation) :
      Moves now kv operation { kv with windowEvents := pruneEvents kv.windowEvents now }
  | refused {id : Option String} {budgets : Option (List (Option BudgetRequest))}
      {windows : Option (List (Option WindowRequest))} {leaseSeconds : Option ℚ}
      {request : Validated} {check : Option ReservationCheck} {budget : Dict LedgerKey Decimal}
      {windowEvents : Dict (String × ℕ) WindowEvent}
      (valid : validateRequests budgets windows leaseSeconds = .ok request)
      (rows : reserveBudgetRows (activeReservations kv.reservations now)
        (meterRows request.sorted.budgets) kv.budget = (check, budget))
      (events : windowEvents = kv.windowEvents ∨
        windowEvents = pruneEvents kv.windowEvents now) :
      Moves now kv (.pollardReserve id budgets windows leaseSeconds)
        { kv with budget, windowEvents }
  | admitted {id : Option String} {budgets : Option (List (Option BudgetRequest))}
      {windows : Option (List (Option WindowRequest))} {leaseSeconds : Option ℚ}
      {request : Validated} {budget : Dict LedgerKey Decimal} {key : String}
      {record : ReservationRecord}
      (valid : validateRequests budgets windows leaseSeconds = .ok request)
      (rows : reserveBudgetRows (activeReservations kv.reservations now)
        (meterRows request.sorted.budgets) kv.budget = (none, budget))
      (fresh : kv.reservations.get? key = none)
      (room : Transactional.reserveWindows (activeReservations kv.reservations now)
        (pruneEvents kv.windowEvents now).values now request.sorted.windows = none)
      (state : record.state = .active)
      (details : record.details = (meterRows request.sorted.budgets).map budgetDetail ++
        request.sorted.windows.map windowDetail) :
      Moves now kv (.pollardReserve id budgets windows leaseSeconds)
        ⟨budget, kv.reservations.set key record, pruneEvents kv.windowEvents now⟩
  | settled {key : String} {charges : Option (Dict String (Option ℚ))}
      {amounts : Dict String Decimal} {current record : ReservationRecord} {after : KVState}
      (valid : numericRecord charges "charges" = .ok amounts)
      (found : kv.reservations.get? key = some current) (active : current.state = .active)
      (loop : Transactional.settleDetails key amounts now 0 current.details kv = .ok after)
      (state : record.state = .settled) (details : record.details = current.details) :
      Moves now kv (.pollardSettle (some key) charges)
        { after with reservations := kv.reservations.set key record }
  | released {id : Option String} {key : String} {current record : ReservationRecord}
      (found : kv.reservations.get? key = some current) (active : current.state = .active)
      (state : record.state = .released) (details : record.details = current.details) :
      Moves now kv (.pollardRelease id)
        { kv with reservations := kv.reservations.set key record }
  | renewed {id : Option String} {lease : Option ℚ} {key : String} {leaseSeconds : ℚ}
      {current : ReservationRecord} (found : kv.reservations.get? key = some current)
      (active : current.state = .active) (live : now < current.expiresAt) :
      Moves now kv (.pollardRenew id lease)
        { kv with
          reservations := kv.reservations.set key
            { current with expiresAt := now + leaseSeconds } }

section Inversion

variable {lib : Library} {now : Instant} {state after : RemoteState}

theorem moves_of_reserve {id : Option String} {budgets : Option (List (Option BudgetRequest))}
    {windows : Option (List (Option WindowRequest))} {leaseSeconds : Option ℚ}
    {check : ReservationCheck}
    (h : reserve lib state id budgets windows leaseSeconds now = .ok (check, after)) :
    Moves now state.ledgers (.pollardReserve id budgets windows leaseSeconds) after.ledgers := by
  rw [reserve] at h
  obtain ⟨key, -, h⟩ := bind_ok_iff.mp h
  obtain ⟨request, valid, h⟩ := bind_ok_iff.mp h
  dsimp only at h
  split at h
  · obtain ⟨_, -, h⟩ := bind_ok_iff.mp h
    cases h
    exact .unchanged _
  · next fresh =>
      have hgrant : grant state key
          (lib.requestDigest request.sorted.budgets request.sorted.windows
            request.sorted.leaseSeconds) request.sorted now = (check, after) := Except.ok.inj h
      have hfresh : state.ledgers.reservations.get? key = none := by
        rw [get?_ledgers, fresh]
        rfl
      rw [grant] at hgrant
      simp only [reserveBudgets_eq, reserveWindows_eq, ← active_ledgers] at hgrant
      split at hgrant
      · next refused budget rows =>
          cases hgrant
          exact .refused valid rows (.inl rfl)
      · next budget rows =>
          split at hgrant
          · cases hgrant
            exact .refused valid rows (.inr rfl)
          · next room =>
              obtain ⟨-, rfl⟩ := Prod.mk.inj hgrant
              rw [ledgers_set]
              exact .admitted valid rows hfresh room rfl rfl

theorem moves_of_settle {id : Option String} {charges : Option (Dict String (Option ℚ))}
    (hvalid : validateState lib state = .ok ())
    (h : settle lib state id charges now = .ok after) :
    Moves now state.ledgers (.pollardSettle id charges) after.ledgers := by
  rw [settle] at h
  obtain ⟨key, hkey, h⟩ := bind_ok_iff.mp h
  obtain ⟨amounts, valid, h⟩ := bind_ok_iff.mp h
  rw [text_ok hkey]
  split at h
  · cases h
  · next current found =>
      split at h
      · obtain ⟨_, -, h⟩ := bind_ok_iff.mp h
        cases h
        exact .unchanged _
      · cases h
      · next active =>
          obtain ⟨middle, hloop, h⟩ := bind_ok_iff.mp h
          obtain ⟨loop, hreservations, -⟩ :=
            settleDetails_ledgers (lengths_of_valid hvalid found) hloop
          obtain rfl := Except.ok.inj h
          rw [ledgers_set, hreservations]
          exact .settled valid (found_ledgers found) active loop rfl rfl

theorem moves_of_release {id : Option String} (h : release state id now = .ok after) :
    Moves now state.ledgers (.pollardRelease id) after.ledgers := by
  rw [release] at h
  obtain ⟨key, -, h⟩ := bind_ok_iff.mp h
  split at h
  · cases h
    exact .unchanged _
  · next current found =>
      split at h
      · cases h
        exact .unchanged _
      · cases h
      · next active =>
          obtain rfl := Except.ok.inj h
          rw [ledgers_set]
          exact .released (found_ledgers found) active rfl rfl

theorem moves_of_renew {id : Option String} {lease : Option ℚ} {renewed : Bool}
    (h : renew state id lease now = .ok (renewed, after)) :
    Moves now state.ledgers (.pollardRenew id lease) after.ledgers := by
  rw [renew] at h
  obtain ⟨key, -, h⟩ := bind_ok_iff.mp h
  obtain ⟨leaseSeconds, -, h⟩ := bind_ok_iff.mp h
  split at h
  · cases h
    exact .unchanged _
  · next current found =>
      split at h
      · next hlive =>
          obtain ⟨-, rfl⟩ := Prod.mk.inj (Except.ok.inj h)
          rw [ledgers_set]
          exact .renewed (found_ledgers found) hlive.1 hlive.2
      · cases h
        exact .unchanged _

/-- Writes of nodes leave the ledgers. -/
theorem ledgers_of_put {record : Option StorageRecord} {owner : Option (Option String)}
    (h : put lib state record owner = .ok after) : after.ledgers = state.ledgers := by
  rw [put] at h
  obtain ⟨node, -, h⟩ := bind_ok_iff.mp h
  obtain ⟨_, -, h⟩ := bind_ok_iff.mp h
  split at h
  · obtain ⟨_, -, h⟩ := bind_ok_iff.mp h
    obtain ⟨_, -, h⟩ := bind_ok_iff.mp h
    obtain ⟨_, -, h⟩ := bind_ok_iff.mp h
    split at h
    · obtain ⟨_, -, h⟩ := bind_ok_iff.mp h
      obtain ⟨_, -, h⟩ := bind_ok_iff.mp h
      cases h
      rfl
    · cases h
      rfl
  · dsimp only at h
    split at h
    · split at h
      · obtain ⟨_, -, h⟩ := bind_ok_iff.mp h
        cases h
        rfl
      · cases h
        rfl
    · cases h
      rfl

theorem ledgers_of_updateMeta {id : Option String} {patch : Option (Dict Units JsValue)}
    (h : updateMeta lib state id patch = .ok after) : after.ledgers = state.ledgers := by
  rw [updateMeta] at h
  obtain ⟨_, -, h⟩ := bind_ok_iff.mp h
  obtain ⟨_, -, h⟩ := bind_ok_iff.mp h
  dsimp only at h
  split at h <;> cases h <;> rfl

theorem ledgers_of_dropNodes {ids : Option (List String)} (h : dropNodes state ids = .ok after) :
    after.ledgers = state.ledgers := by
  cases ids with
  | none => cases h
  | some ids =>
      obtain ⟨_, -, h⟩ := bind_ok_iff.mp h
      cases h
      rfl

theorem ledgers_of_claim {record : Option StorageRecord} {owner : Option String} {created : Bool}
    (h : claim lib state record owner = .ok (after, created)) : after.ledgers = state.ledgers := by
  rw [claim] at h
  obtain ⟨_, -, h⟩ := bind_ok_iff.mp h
  obtain ⟨_, -, h⟩ := bind_ok_iff.mp h
  obtain ⟨_, -, h⟩ := bind_ok_iff.mp h
  split at h
  · cases h
    rfl
  · obtain ⟨_, hput, h⟩ := bind_ok_iff.mp h
    cases h
    exact ledgers_of_put hput

theorem ledgers_of_finalize {record : Option StorageRecord} {owner : Option String}
    (h : finalize lib state record owner = .ok after) : after.ledgers = state.ledgers := by
  rw [finalize] at h
  obtain ⟨_, -, h⟩ := bind_ok_iff.mp h
  obtain ⟨_, -, h⟩ := bind_ok_iff.mp h
  obtain ⟨_, -, h⟩ := bind_ok_iff.mp h
  obtain ⟨_, -, h⟩ := bind_ok_iff.mp h
  obtain ⟨_, -, h⟩ := bind_ok_iff.mp h
  cases h
  rfl

/-- An operation that ran. -/
theorem applyOperation_ok {operation : Operation} {reply : Reply}
    (h : applyOperation lib state operation now = .ok (after, reply)) :
    validateState lib state = .ok () ∧ perform lib now state operation = .ok (after, reply) := by
  rw [applyOperation] at h
  obtain ⟨q, hnow, h⟩ := bind_ok_iff.mp h
  obtain ⟨_, hvalid, h⟩ := bind_ok_iff.mp h
  obtain ⟨applied, hperform, h⟩ := bind_ok_iff.mp h
  have hq : q = now := (Option.some.inj (finite_ok hnow).1).symm
  rw [hq] at hperform
  refine ⟨hvalid, ?_⟩
  dsimp only at h
  split at h
  · obtain ⟨_, -, h⟩ := bind_ok_iff.mp h
    rw [hperform, ← Except.ok.inj h]
  · rw [hperform, ← Except.ok.inj h]

theorem moves_of_applyOperation {operation : Operation} {reply : Reply}
    (h : applyOperation lib state operation now = .ok (after, reply)) :
    Moves now state.ledgers operation after.ledgers := by
  obtain ⟨hvalid, h⟩ := applyOperation_ok h
  have hread : after.ledgers = state.ledgers → Moves now state.ledgers operation after.ledgers :=
    fun hsame => hsame ▸ .unchanged operation
  cases operation with
  | snapshot | roots =>
      cases h
      exact .unchanged _
  | get | exists_ | children | walk =>
      obtain ⟨_, -, hafter⟩ := map_ok_iff.mp h
      obtain ⟨rfl, -⟩ := Prod.mk.inj hafter
      exact .unchanged _
  | put =>
      obtain ⟨_, hput, hafter⟩ := map_ok_iff.mp h
      obtain ⟨rfl, -⟩ := Prod.mk.inj hafter
      exact hread (ledgers_of_put hput)
  | claim =>
      obtain ⟨_, hclaim, hafter⟩ := map_ok_iff.mp h
      obtain ⟨rfl, -⟩ := Prod.mk.inj hafter
      exact hread (ledgers_of_claim hclaim)
  | finalize =>
      obtain ⟨_, hfinalize, hafter⟩ := map_ok_iff.mp h
      obtain ⟨rfl, -⟩ := Prod.mk.inj hafter
      exact hread (ledgers_of_finalize hfinalize)
  | updateMeta =>
      obtain ⟨_, hupdate, hafter⟩ := map_ok_iff.mp h
      obtain ⟨rfl, -⟩ := Prod.mk.inj hafter
      exact hread (ledgers_of_updateMeta hupdate)
  | pollardReserve =>
      obtain ⟨_, hreserve, hafter⟩ := map_ok_iff.mp h
      obtain ⟨rfl, -⟩ := Prod.mk.inj hafter
      exact moves_of_reserve hreserve
  | pollardSettle =>
      obtain ⟨_, hsettle, hafter⟩ := map_ok_iff.mp h
      obtain ⟨rfl, -⟩ := Prod.mk.inj hafter
      exact moves_of_settle hvalid hsettle
  | pollardRelease =>
      obtain ⟨_, hrelease, hafter⟩ := map_ok_iff.mp h
      obtain ⟨rfl, -⟩ := Prod.mk.inj hafter
      exact moves_of_release hrelease
  | pollardRenew =>
      obtain ⟨_, hrenew, hafter⟩ := map_ok_iff.mp h
      obtain ⟨rfl, -⟩ := Prod.mk.inj hafter
      exact moves_of_renew hrenew
  | dropNodes =>
      obtain ⟨_, hdrop, hafter⟩ := map_ok_iff.mp h
      obtain ⟨rfl, -⟩ := Prod.mk.inj hafter
      exact hread (ledgers_of_dropNodes hdrop)
  | compact =>
      cases h
      exact .pruned _

theorem pruneEvents_pruneEvents (events : Dict (String × ℕ) WindowEvent) (now : Instant) :
    pruneEvents (pruneEvents events now) now = pruneEvents events now := by
  rw [Dict.mk.injEq]
  exact (List.filter_filter ..).trans (List.filter_congr fun e _ => Bool.and_self _)

/-- What a batch holds at most prunes the ledgers. -/
theorem Moves.offline {kv kv' : KVState} {operation : Operation}
    (h : Moves now kv operation kv') (hoffline : operation.isOffline = true) :
    kv' = kv ∨ kv' = { kv with windowEvents := pruneEvents kv.windowEvents now } := by
  cases h with
  | unchanged => exact .inl rfl
  | pruned => exact .inr rfl
  | refused | admitted | settled | released | renewed => cases hoffline

theorem pruned_of_applyBatch {operations : List (Option Operation)} {replies : List Reply}
    (h : applyBatch lib now operations state = .ok (after, replies)) :
    after.ledgers = state.ledgers ∨ after.ledgers =
      { state.ledgers with windowEvents := pruneEvents state.ledgers.windowEvents now } := by
  induction operations generalizing state replies with
  | nil =>
      cases h
      exact .inl rfl
  | cons operation operations ih =>
      cases operation with
      | none => cases h
      | some operation =>
          rw [applyBatch] at h
          obtain ⟨_, hoffline, h⟩ := bind_ok_iff.mp h
          obtain ⟨applied, happly, h⟩ := bind_ok_iff.mp h
          obtain ⟨rest, hrest, h⟩ := bind_ok_iff.mp h
          obtain ⟨rfl, -⟩ := Prod.mk.inj (Except.ok.inj h)
          have hfirst := (moves_of_applyOperation happly).offline (ensure_ok_iff.mp hoffline)
          rcases ih hrest with hsecond | hsecond
          · rw [hsecond]
            exact hfirst
          · rw [hsecond]
            rcases hfirst with hfirst | hfirst
            · rw [hfirst]
              exact .inr rfl
            · rw [hfirst, pruneEvents_pruneEvents]
              exact .inr rfl

/-- The operation of a call; a batch does to the ledgers what `compact` does, or nothing. -/
def Call.ledgerOperation : Call → Operation
  | .operation asked => asked
  | _ => .compact

theorem moves_of_call {call : Call} {reply : Reply}
    (h : applyRemoteOperation lib state call now = .ok (after, reply)) :
    Moves now state.ledgers call.ledgerOperation after.ledgers := by
  cases call with
  | operation operation => exact moves_of_applyOperation h
  | unsupported method => cases h
  | commitBatch digest operations =>
      cases operations with
      | none =>
          rw [applyRemoteOperation] at h
          obtain ⟨_, -, h⟩ := bind_ok_iff.mp h
          obtain ⟨_, -, h⟩ := bind_ok_iff.mp h
          obtain ⟨_, -, h⟩ := bind_ok_iff.mp h
          cases h
      | some operations =>
          rw [applyRemoteOperation] at h
          obtain ⟨q, hnow, h⟩ := bind_ok_iff.mp h
          obtain ⟨_, -, h⟩ := bind_ok_iff.mp h
          obtain ⟨_, -, h⟩ := bind_ok_iff.mp h
          obtain ⟨applied, hbatch, h⟩ := bind_ok_iff.mp h
          obtain ⟨_, -, h⟩ := bind_ok_iff.mp h
          obtain ⟨rfl, -⟩ := Prod.mk.inj (Except.ok.inj h)
          have hq : q = now := (Option.some.inj (finite_ok hnow).1).symm
          rw [hq] at hbatch
          rcases pruned_of_applyBatch hbatch with hsame | hsame <;> rw [hsame]
          · exact .unchanged _
          · exact .pruned _

end Inversion

/-! ## Runs -/

/-- What a computation that succeeds gives satisfies a condition. -/
def OnOk {ε α : Type} (P : α → Prop) : Except ε α → Prop
  | .ok a => P a
  | .error _ => True

instance {ε α : Type} (P : α → Prop) [DecidablePred P] : ∀ x : Except ε α, Decidable (OnOk P x)
  | .ok a => inferInstanceAs (Decidable (P a))
  | .error _ => inferInstanceAs (Decidable True)

/-- The document, the time of its backend, and every window event a settlement ever wrote: the
document loses those that leave their windows. -/
structure Backend where
  state : RemoteState
  clock : Instant
  history : List WindowEvent

def Backend.start (clock : Instant) : Backend := ⟨createRemoteState, clock, []⟩

/-- A call of some client, and the time of the backend. -/
structure Received where
  now : Instant
  call : Call

/-- A call that raises leaves the document. -/
def Backend.step (lib : Library) (b : Backend) (r : Received) : Backend :=
  match applyRemoteOperation lib b.state r.call r.now with
  | .error _ => { b with clock := r.now }
  | .ok (state, _) => ⟨state, r.now, b.history ++ newEvents b.state.ledgers state.ledgers⟩

/-- What a reservation request owes: each ledger has its one limit, and no baseline is ahead of
what is settled. -/
def Validated.Disciplined (limit : DetailKind → LedgerKey → Decimal) (state : RemoteState)
    (request : Validated) : Prop :=
  (∀ row ∈ meterRows request.budgets, row.limit = limit .budget row.key ∧
    row.baseline ≤ state.budget.getD row.key 0) ∧
  ∀ window ∈ request.windows, window.limit = limit .window (windowKey window)

/-- What a settlement owes: it comes within the lease and within the reserved amounts. -/
def SettlesWithin (now : Instant) (amounts : Dict String Decimal)
    (current : RemoteReservation) : Prop :=
  current.state = .active → now < current.expiresAt ∧
    ∀ detail ∈ current.details, amounts.getD detail.meter 0 ≤ detail.amount

/-- What a call owes to the limits; the time does not go back. -/
def Disciplined (limit : DetailKind → LedgerKey → Decimal) (b : Backend) (r : Received) : Prop :=
  b.clock ≤ r.now ∧
  match r.call.ledgerOperation with
  | .pollardReserve _ budgets windows leaseSeconds =>
      OnOk (Validated.Disciplined limit b.state) (validateRequests budgets windows leaseSeconds)
  | .pollardSettle (some id) charges =>
      OnOk (fun amounts => ∀ current ∈ b.state.reservations.get? id,
        SettlesWithin r.now amounts current) (numericRecord charges "charges")
  | _ => True

/-- Each window ledger is requested with one length. -/
def OneLength (length : LedgerKey → ℚ) (_ : Backend) (r : Received) : Prop :=
  match r.call.ledgerOperation with
  | .pollardReserve _ budgets windows leaseSeconds =>
      OnOk (fun request => ∀ window ∈ request.windows,
        window.windowSeconds = length (windowKey window))
        (validateRequests budgets windows leaseSeconds)
  | _ => True

instance (limit : DetailKind → LedgerKey → Decimal) (state : RemoteState) :
    DecidablePred (Validated.Disciplined limit state) :=
  fun _ => inferInstanceAs (Decidable (_ ∧ _))

instance (now : Instant) (amounts : Dict String Decimal) :
    DecidablePred (SettlesWithin now amounts) :=
  fun _ => inferInstanceAs (Decidable (_ → _))

instance (limit : DetailKind → LedgerKey → Decimal) (b : Backend) (r : Received) :
    Decidable (Disciplined limit b r) := by
  unfold Disciplined
  cases r.call.ledgerOperation with
  | pollardSettle id => cases id <;> infer_instance
  | _ => infer_instance

instance (length : LedgerKey → ℚ) (b : Backend) (r : Received) :
    Decidable (OneLength length b r) := by
  unfold OneLength
  cases r.call.ledgerOperation <;> infer_instance

/-- What the events of a ledger that are still inside their windows come to. -/
def insideWindow (events : List WindowEvent) (ledger : LedgerKey) (t : Instant) : Decimal :=
  ((events.filter fun event =>
    event.ledger = ledger ∧ event.settledAt > t - event.windowSeconds).map
      WindowEvent.amount).sum

/-! ## The invariant -/

section Invariant

variable {lib : Library} {limit : DetailKind → LedgerKey → Decimal} {length : LedgerKey → ℚ}
  {now : Instant}

theorem mem_meterRows_sorted {request : Validated} {row : BudgetRow}
    (h : row ∈ meterRows request.sorted.budgets) : row ∈ meterRows request.budgets :=
  ((List.perm_insertionSort _ request.budgets).flatMap_right _).mem_iff.mp h

theorem mem_windows_sorted {request : Validated} {window : WindowReservation}
    (h : window ∈ request.sorted.windows) : window ∈ request.windows :=
  (List.mem_insertionSort _).mp h

/-- The reservations of the two readings settle within the same bounds. -/
theorem settlesWithin_of_ledgers {state : RemoteState} {key : String}
    {amounts : Dict String Decimal} {current : ReservationRecord}
    (h : ∀ current ∈ state.reservations.get? key, SettlesWithin now amounts current)
    (found : state.ledgers.reservations.get? key = some current)
    (active : current.state = .active) :
    now < current.expiresAt ∧
      ∀ detail ∈ current.details, amounts.getD detail.meter 0 ≤ detail.amount := by
  rw [get?_ledgers, Option.map_eq_some_iff] at found
  obtain ⟨reservation, hget, rfl⟩ := found
  exact h reservation hget active

section Budget

variable {kv : KVState} {rows : List BudgetRow} {budget : Dict LedgerKey Decimal}
  {check : Option ReservationCheck}

/-- Rows no baseline is ahead of keep every total. -/
theorem load_of_rows (hrows : ∀ row ∈ rows, row.baseline ≤ kv.total row.key)
    (loop : reserveBudgetRows (activeReservations kv.reservations now) rows kv.budget =
      (check, budget)) {after : KVState} (hafter : after.budget = budget) :
    budgetLoad after = budgetLoad kv := by
  funext ledger _
  have hspec := (reserveBudgetRows_spec (activeReservations kv.reservations now) rows kv.budget
    hrows).1 ledger
  rw [loop] at hspec
  rw [budgetLoad, KVState.total, hafter]
  exact hspec

/-- Rows that pass fit on each ledger they touch. -/
theorem fits_of_loop {limit : LedgerKey → Decimal} {windows : List WindowReservation}
    (hnodup : (rows.map BudgetRow.key).Nodup)
    (hrows : ∀ row ∈ rows, row.baseline ≤ kv.total row.key)
    (hlimit : ∀ row ∈ rows, row.limit = limit row.key)
    (loop : reserveBudgetRows (activeReservations kv.reservations now) rows kv.budget =
      (none, budget)) (ledger : LedgerKey)
    (hne : detailAmount .budget (rows.map budgetDetail ++ windows.map windowDetail) ledger ≠ 0) :
    budgetLoad kv ledger now
      + Transactional.activeAmount (activeReservations kv.reservations now) .budget ledger.1
        ledger.2
      + detailAmount .budget (rows.map budgetDetail ++ windows.map windowDetail) ledger
        ≤ limit ledger := by
  obtain ⟨row, hrow, rfl, hamount⟩ := row_of_detailAmount_ne_zero hnodup hne
  have hspec := (reserveBudgetRows_spec (activeReservations kv.reservations now) rows kv.budget
    hrows).2 (by rw [loop]) row hrow
  rw [hamount, ← hlimit row hrow]
  exact hspec

end Budget

/-- A disciplined operation is a move of the budget book. -/
theorem budget_move {b : Backend} {r : Received} {after : KVState}
    (hmoves : Moves r.now b.state.ledgers r.call.ledgerOperation after)
    (hdiscipline : Disciplined limit b r) :
    Step (limit .budget) r.now (book .budget (budgetLoad b.state.ledgers) b.state.ledgers)
      (book .budget (budgetLoad after) after) := by
  obtain ⟨-, hcall⟩ := hdiscipline
  generalize r.call.ledgerOperation = operation at hmoves hcall
  cases hmoves with
  | unchanged => exact .idle
  | pruned => exact .idle
  | @refused _ _ _ _ request _ _ _ valid rows events =>
      dsimp only at hcall
      rw [valid] at hcall
      have hbaseline : ∀ row ∈ meterRows request.sorted.budgets,
          row.baseline ≤ b.state.ledgers.total row.key :=
        fun row hrow => (hcall.1 row (mem_meterRows_sorted hrow)).2
      refine move_of_same_load (load_of_rows hbaseline rows rfl) ?_
      exact .idle
  | @admitted _ _ _ _ request _ _ _ valid rows fresh room state details =>
      dsimp only at hcall
      rw [valid] at hcall
      have hbaseline : ∀ row ∈ meterRows request.sorted.budgets,
          row.baseline ≤ b.state.ledgers.total row.key :=
        fun row hrow => (hcall.1 row (mem_meterRows_sorted hrow)).2
      have hlimit : ∀ row ∈ meterRows request.sorted.budgets,
          row.limit = limit .budget row.key :=
        fun row hrow => (hcall.1 row (mem_meterRows_sorted hrow)).1
      refine move_of_same_load (load_of_rows hbaseline rows rfl) ?_
      refine move_of_admitted rfl fresh state ?_ ?_
      · intro detail hdetail hkind
        rw [details] at hdetail
        obtain ⟨row, hrow, rfl⟩ := mem_budgetDetails hdetail hkind
        exact (wellFormed_sorted valid).estimates row hrow
      · rw [details]
        exact fits_of_loop (wellFormed_sorted valid).rows hbaseline hlimit rows
  | settled valid found active loop state details =>
      dsimp only at hcall
      rw [valid] at hcall
      obtain ⟨hlive, hcharges⟩ := settlesWithin_of_ledgers hcall found active
      refine move_of_settled rfl found active state hlive ?_ (fun _ _ _ _ _ => le_rfl)
      intro ledger t _
      calc
        _ = b.state.ledgers.total ledger + chargeOn .budget _ _ ledger :=
          settleDetails_total loop ledger
        _ ≤ b.state.ledgers.total ledger + detailAmount .budget _ ledger :=
          add_le_add_right (detailSum_le (fun detail hdetail _ => hcharges detail hdetail) ledger) _
  | released found active state details => exact move_of_released found active state
  | renewed found active live => exact move_of_renewed found active live

/-- The document as a timeline of the arbiter. -/
def Backend.timeline (b : Backend) : Timeline := ⟨b.state.ledgers, b.clock, b.history⟩

/-- A disciplined operation keeps the windows. -/
theorem windowLog_move {b : Backend} {r : Received} {after : KVState}
    (hs : WindowLog (limit .window) length b.timeline)
    (hmoves : Moves r.now b.state.ledgers r.call.ledgerOperation after)
    (hdiscipline : Disciplined limit b r) (hlength : OneLength length b r) :
    WindowLog (limit .window) length
      ⟨after, r.now, b.history ++ newEvents b.state.ledgers after⟩ := by
  obtain ⟨hnow, hcall⟩ := hdiscipline
  rw [OneLength] at hlength
  generalize r.call.ledgerOperation = operation at hmoves hcall hlength
  cases hmoves with
  | unchanged => exact hs.quiet hnow hs.owned (.inl rfl) hs.details .idle
  | pruned =>
      exact hs.quiet hnow (hs.owned.of_subset (fun _ _ h => get?_of_pruneEvents h)
        fun _ _ h _ => h) (.inr rfl) hs.details .idle
  | refused valid rows events =>
      refine hs.quiet hnow (hs.owned.of_subset (fun key event hevent => ?_) fun _ _ h _ => h)
        events hs.details .idle
      rcases events with rfl | rfl
      · exact hevent
      · exact get?_of_pruneEvents hevent
  | admitted valid rows fresh room state details =>
      dsimp only at hcall hlength
      rw [valid] at hcall hlength
      have huniform := fun window hwindow =>
        And.intro (hcall.2 window (mem_windows_sorted hwindow))
          (hlength window (mem_windows_sorted hwindow))
      refine hs.quiet hnow (hs.owned.of_subset (fun _ _ h => get?_of_pruneEvents h)
        (settled_kept fun _ hcurrent => nomatch fresh.symm.trans hcurrent))
        (.inr rfl) (details_set hs ?_) (move_of_admitted rfl fresh state ?_ ?_)
      · rw [details]
        exact lengthsFrom_details huniform
      · intro detail hdetail hkind
        rw [details] at hdetail
        rcases List.mem_append.mp hdetail with hdetail | hdetail
        · obtain ⟨row, -, rfl⟩ := List.mem_map.mp hdetail
          cases hkind
        · obtain ⟨window, hwindow, rfl⟩ := List.mem_map.mp hdetail
          exact (wellFormed_sorted valid).amounts window hwindow
      · rw [details]
        exact fits_of_windows hs hnow (wellFormed_sorted valid).windows huniform
          (reserveWindows_fits room)
  | settled valid found active loop state details =>
      dsimp only at hcall
      rw [valid] at hcall
      obtain ⟨hlive, hcharges⟩ := settlesWithin_of_ledgers hcall found active
      exact hs.settle hnow found active loop state details hlive
        (fun detail hdetail _ => hcharges detail hdetail)
        fun detail _ _ => numericRecord_nonneg valid detail.meter
  | released found active state details =>
      exact hs.quiet hnow (hs.owned.of_subset (fun _ _ h => h)
        (settled_kept_of_active found active)) (.inl rfl)
        (details_set hs (details ▸ hs.details _ _ found)) (move_of_released found active state)
  | renewed found active live =>
      have hlengths := hs.details _ _ found
      exact hs.quiet hnow (hs.owned.of_subset (fun _ _ h => h)
        (settled_kept_of_active found active)) (.inl rfl) (details_set hs hlengths)
        (move_of_renewed found active live)

/-- What every state of a disciplined run satisfies. -/
structure InBounds (limit : DetailKind → LedgerKey → Decimal) (length : LedgerKey → ℚ)
    (b : Backend) : Prop where
  budget : Sound (limit .budget) b.clock
    (book .budget (budgetLoad b.state.ledgers) b.state.ledgers)
  window : WindowLog (limit .window) length b.timeline
  lengths : ∀ event ∈ b.history, event.windowSeconds = length event.ledger

theorem mem_values_of_newEvents {before after : KVState} {event : WindowEvent}
    (h : event ∈ newEvents before after) : event ∈ after.windowEvents.values := by
  obtain ⟨e, he, rfl⟩ := List.mem_map.mp h
  exact List.mem_map_of_mem (List.mem_filter.mp he).1

theorem InBounds.step {b : Backend} {r : Received} (hb : InBounds limit length b)
    (hdiscipline : Disciplined limit b r ∧ OneLength length b r) :
    InBounds limit length (b.step lib r) := by
  unfold Backend.step
  split
  · exact ⟨hb.budget.later hdiscipline.1.1, hb.window.later hdiscipline.1.1, hb.lengths⟩
  · next happly =>
      have hmoves := moves_of_call happly
      have hwindow := windowLog_move hb.window hmoves hdiscipline.1 hdiscipline.2
      refine ⟨hb.budget.step hdiscipline.1.1 (budget_move hmoves hdiscipline.1), hwindow,
        fun event hevent => ?_⟩
      rcases List.mem_append.mp hevent with hevent | hevent
      · exact hb.lengths event hevent
      · exact hwindow.lengths event (mem_values_of_newEvents hevent)

theorem inBounds_start (hlimit : ∀ kind ledger, 0 ≤ limit kind ledger) (clock : Instant) :
    InBounds limit length (Backend.start clock) :=
  ⟨budget_start (hlimit .budget) clock, windowLog_start (hlimit .window) clock, nofun⟩

/-- Events that have the lengths of their ledgers. -/
theorem insideWindow_eq {events : List WindowEvent}
    (h : ∀ event ∈ events, event.windowSeconds = length event.ledger) (ledger : LedgerKey)
    (t : Instant) : insideWindow events ledger t = windowLoad length events ledger t := by
  rw [insideWindow, windowLoad]
  congr 2
  apply List.filter_congr
  intro event hevent
  rw [decide_eq_decide, h event hevent]
  constructor
  · rintro ⟨rfl, hinside⟩
    exact ⟨rfl, hinside⟩
  · rintro ⟨rfl, hinside⟩
    exact ⟨rfl, hinside⟩

theorem activeAmount_ledgers (state : RemoteState) (kind : DetailKind) (ledger : LedgerKey)
    (t : Instant) :
    Transactional.activeAmount (activeReservations state.ledgers.reservations t) kind ledger.1
      ledger.2 = activeAmount (active state t) kind ledger.1 ledger.2 := by
  rw [active_ledgers, activeAmount_map]

/-- Settled amounts and unexpired active reservations stay within the limits. -/
theorem within_limits (hlimit : ∀ kind ledger, 0 ≤ limit kind ledger) {clock : Instant}
    {received : List Received}
    (hrun : Machine.Along (Backend.step lib)
      (fun b r => Disciplined limit b r ∧ OneLength length b r) (.start clock) received)
    (ledger : LedgerKey) {t : Instant}
    (ht : (Machine.run (Backend.step lib) (.start clock) received).clock ≤ t) :
    let b := Machine.run (Backend.step lib) (.start clock) received
    b.state.budget.getD ledger 0 + activeAmount (active b.state t) .budget ledger.1 ledger.2
        ≤ limit .budget ledger ∧
      insideWindow b.history ledger t +
        activeAmount (active b.state t) .window ledger.1 ledger.2 ≤ limit .window ledger := by
  intro b
  have hb : InBounds limit length b := Machine.invariant_run (InBounds limit length)
    (fun _ _ hb hr => hb.step hr) (inBounds_start hlimit clock) hrun
  have hbudget := hb.budget.within ledger t ht
  have hwindow := hb.window.sound.within ledger t ht
  rw [held_book] at hbudget hwindow
  rw [insideWindow_eq hb.lengths, ← activeAmount_ledgers, ← activeAmount_ledgers]
  exact ⟨hbudget, hwindow⟩

end Invariant

end Pollard.Npm.Remote
