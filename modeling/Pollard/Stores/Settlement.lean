import Pollard.Stores.TransactionalSteps
import Mathlib.Data.List.Count
import Mathlib.Tactic.Ring

/-!
# Settling an accepted reservation

What a reserve transaction writes is what the first settlement of its id will
need: the record keeps its details and every budget ledger of the request keeps
its row.  Settlement then fails only for a record without details.
-/

namespace Pollard.Stores.Transactional

open Lib

/-! ## What a reservation leaves behind -/

/-- The record of a reservation holds these details, and the ledger of each budget
detail has a row. -/
structure Backed (reservationId : String) (details : List Detail) (kv : KVState) : Prop where
  recorded : ∃ record, kv.reservations.get? reservationId = some record ∧
    record.details = details
  rows : ∀ detail ∈ details, detail.kind = .budget →
    (kv.budget.get? (detail.scopeId, detail.meter)).isSome

theorem settleDetail_present {reservationId : String} {charges : Dict String Decimal}
    {now : Instant} {index : ℕ} {detail : Detail} {kv after : KVState}
    (h : settleDetail reservationId charges now index detail kv = .ok after)
    {ledger : LedgerKey} (hpresent : (kv.budget.get? ledger).isSome) :
    (after.budget.get? ledger).isSome := by
  obtain ⟨kind, scopeId, meter, amount, windowSeconds⟩ := detail
  cases kind with
  | budget =>
      simp only [settleDetail] at h
      split at h
      · cases h
      · cases h
        dsimp only
        rw [Dict.get?_set]
        split
        · rfl
        · exact hpresent
  | window =>
      simp only [settleDetail] at h
      split at h
      · cases h
        exact hpresent
      · split at h
        · cases h
        · cases h
          exact hpresent

theorem settleDetails_present {reservationId : String} {charges : Dict String Decimal}
    {now : Instant} {index : ℕ} {details : List Detail} {kv after : KVState}
    (h : settleDetails reservationId charges now index details kv = .ok after)
    {ledger : LedgerKey} (hpresent : (kv.budget.get? ledger).isSome) :
    (after.budget.get? ledger).isSome := by
  induction details generalizing index kv with
  | nil =>
      cases h
      exact hpresent
  | cons detail details ih =>
      obtain ⟨middle, hd, hrest⟩ := settleDetails_cons_ok h
      exact ih hrest (settleDetail_present hd hpresent)

/-- Overwriting a record by one with the same details keeps what is recorded. -/
theorem recorded_set {kv : KVState} {reservationId other : String} {details : List Detail}
    {record current : ReservationRecord}
    (h : ∃ record, kv.reservations.get? reservationId = some record ∧
      record.details = details)
    (found : kv.reservations.get? other = some current)
    (hdetails : record.details = current.details) :
    ∃ r, (kv.reservations.set other record).get? reservationId = some r ∧
      r.details = details := by
  obtain ⟨r, hr, hd⟩ := h
  rw [Dict.get?_set]
  split
  · next heq =>
      subst heq
      rw [found, Option.some.injEq] at hr
      exact ⟨record, rfl, by rw [hdetails, hr, hd]⟩
  · exact ⟨r, hr, hd⟩

/-- No transaction takes the backing of a reservation away. -/
theorem Backed.commits {H : Digests} {now : Instant} {kv after : KVState}
    {call : ClientCall} {reservationId : String} {details : List Detail}
    (h : Backed reservationId details kv) (hcommits : Commits H now kv call after) :
    Backed reservationId details after := by
  have hloop : ∀ {rows : List BudgetRow} {check : Option ReservationCheck}
      {budget : Dict LedgerKey Decimal},
      reserveBudgetRows (activeReservations kv.reservations now) rows kv.budget =
        (check, budget) → ∀ detail ∈ details, detail.kind = .budget →
          (budget.get? (detail.scopeId, detail.meter)).isSome := by
    intro rows check budget hrows detail hdetail hkind
    have hkeep := (reserveBudgetRows_present (activeReservations kv.reservations now) rows
      kv.budget).1 _ (h.rows detail hdetail hkind)
    rwa [hrows] at hkeep
  cases hcommits with
  | unchanged => exact h
  | refusedByBudget rows => exact ⟨h.recorded, hloop rows⟩
  | refusedByWindow rows => exact ⟨h.recorded, hloop rows⟩
  | admitted fresh rows room state hdetails =>
      refine ⟨?_, hloop rows⟩
      obtain ⟨r, hr, hd⟩ := h.recorded
      refine ⟨r, ?_, hd⟩
      rw [Dict.get?_set_of_ne, hr]
      rintro rfl
      rw [fresh] at hr
      cases hr
  | settled found active nonempty loop state hdetails =>
      exact ⟨recorded_set h.recorded found hdetails, fun detail hdetail hkind =>
        settleDetails_present loop (h.rows detail hdetail hkind)⟩
  | released found active state hdetails =>
      exact ⟨recorded_set h.recorded found hdetails, h.rows⟩
  | renewed found active live =>
      exact ⟨recorded_set h.recorded found rfl, h.rows⟩

theorem reserveBudgetRows_refused {active : List ReservationRecord} {rows : List BudgetRow}
    {budget budget' : Dict LedgerKey Decimal} {refused : ReservationCheck}
    (h : reserveBudgetRows active rows budget = (some refused, budget')) :
    refused.ok = false := by
  induction rows generalizing budget with
  | nil => cases h
  | cons row rows ih =>
      simp only [reserveBudgetRows] at h
      split at h
      · cases h
        rfl
      · exact ih h

theorem reserveWindows_refused {active : List ReservationRecord} {events : List WindowEvent}
    {now : Instant} {windows : List WindowReservation} {refused : ReservationCheck}
    (h : reserveWindows active events now windows = some refused) : refused.ok = false := by
  induction windows with
  | nil => cases h
  | cons request requests ih =>
      simp only [reserveWindows] at h
      split at h
      · cases h
        rfl
      · exact ih h

/-- A fresh reservation that is accepted is backed. -/
theorem backed_of_reserveOnce {H : Digests} {now : Instant} {reservationId : String}
    {budgets : List BudgetReservation} {windows : List WindowReservation} {leaseSeconds : ℚ}
    {kv after : KVState} {check : ReservationCheck}
    (hfresh : kv.reservations.get? reservationId = none)
    (h : reserveOnce H now reservationId budgets windows leaseSeconds kv = .ok (check, after))
    (hok : check.ok = true) :
    Backed reservationId (reservationDetails budgets windows) after := by
  simp only [reserveOnce, hfresh] at h
  split at h
  · next rows =>
      cases h
      rw [reserveBudgetRows_refused rows] at hok
      cases hok
  · next rows =>
      split at h
      · next room =>
          cases h
          rw [reserveWindows_refused room] at hok
          cases hok
      · cases h
        refine ⟨⟨_, Dict.get?_set_self _ _ _, rfl⟩, fun detail hdetail hkind => ?_⟩
        rcases List.mem_append.mp hdetail with hdetail | hdetail
        · obtain ⟨row, hrow, rfl⟩ := List.mem_map.mp hdetail
          have hpresent := (reserveBudgetRows_present _ _ _).2 (by rw [rows]) row
            ((List.mem_insertionSort _).mpr hrow)
          rwa [rows] at hpresent
        · obtain ⟨request, -, rfl⟩ := List.mem_map.mp hdetail
          cases hkind

/-! ## What a settlement adds -/

/-- The sum of the stored events of a window. -/
def KVState.windowTotal (kv : KVState) (ledger : LedgerKey) : Decimal :=
  ((kv.windowEvents.values.filter fun event => event.ledger = ledger).map
    WindowEvent.amount).sum

/-- Every window detail names its length. -/
def Timed (details : List Detail) : Prop :=
  ∀ detail ∈ details, detail.kind = .window → detail.windowSeconds.isSome

theorem timed_reservationDetails (budgets : List BudgetReservation)
    (windows : List WindowReservation) : Timed (reservationDetails budgets windows) := by
  intro detail hdetail hkind
  rcases List.mem_append.mp hdetail with hdetail | hdetail
  · obtain ⟨row, -, rfl⟩ := List.mem_map.mp hdetail
    cases hkind
  · obtain ⟨request, -, rfl⟩ := List.mem_map.mp hdetail
    rfl

/-- With the rows in place the loop cannot raise. -/
theorem settleDetails_returns (reservationId : String) (charges : Dict String Decimal)
    (now : Instant) {details : List Detail} (htimed : Timed details) {kv : KVState}
    (hrows : ∀ detail ∈ details, detail.kind = .budget →
      (kv.budget.get? (detail.scopeId, detail.meter)).isSome) (index : ℕ) :
    ∃ after, settleDetails reservationId charges now index details kv = .ok after := by
  induction details generalizing index kv with
  | nil => exact ⟨kv, rfl⟩
  | cons detail details ih =>
      have hhead : ∃ middle,
          settleDetail reservationId charges now index detail kv = .ok middle := by
        obtain ⟨kind, scopeId, meter, amount, windowSeconds⟩ := detail
        cases kind with
        | budget =>
            obtain ⟨stored, hstored⟩ :=
              Option.isSome_iff_exists.mp (hrows _ List.mem_cons_self rfl)
            simp only [settleDetail, hstored]
            exact ⟨_, rfl⟩
        | window =>
            obtain ⟨seconds, hseconds⟩ :=
              Option.isSome_iff_exists.mp (htimed _ List.mem_cons_self rfl)
            dsimp only at hseconds
            simp only [settleDetail, hseconds]
            split
            · exact ⟨_, rfl⟩
            · exact ⟨_, rfl⟩
      obtain ⟨middle, hmiddle⟩ := hhead
      have hpresent : ∀ d ∈ details, d.kind = .budget →
          (middle.budget.get? (d.scopeId, d.meter)).isSome := fun d hd hkind =>
        settleDetail_present hmiddle (hrows d (List.mem_cons_of_mem _ hd) hkind)
      obtain ⟨after, hafter⟩ := ih (fun d hd => htimed d (List.mem_cons_of_mem _ hd)) hpresent
        (index + 1)
      refine ⟨after, ?_⟩
      rw [settleDetails, hmiddle]
      exact hafter

/-- The events of a settlement add up to its charges. -/
theorem sum_settlementEvents (reservationId : String) (charges : Dict String Decimal)
    (now : Instant) {details : List Detail} (htimed : Timed details) (index : ℕ)
    (ledger : LedgerKey) :
    ((((settlementEvents reservationId charges now index details).map Prod.snd).filter
      fun event => event.ledger = ledger).map WindowEvent.amount).sum =
        chargeOn .window charges details ledger := by
  induction details generalizing index with
  | nil => simp [settlementEvents, chargeOn, detailSum]
  | cons detail details ih =>
      have htail := ih (fun d hd => htimed d (List.mem_cons_of_mem _ hd)) (index + 1)
      have hseconds := htimed detail List.mem_cons_self
      obtain ⟨kind, scopeId, meter, amount, windowSeconds⟩ := detail
      rw [chargeOn, detailSum_cons, detailSum_singleton, ← chargeOn, ← htail]
      cases kind with
      | budget => simp [settlementEvents]
      | window =>
          obtain ⟨seconds, hseconds⟩ := Option.isSome_iff_exists.mp (hseconds rfl)
          dsimp only at hseconds
          subst hseconds
          by_cases hzero : charges.getD meter 0 = 0
          · simp [settlementEvents, hzero]
          · by_cases hledger : scopeId = ledger.1 ∧ meter = ledger.2
            · obtain ⟨rfl, rfl⟩ := hledger
              simp [settlementEvents, hzero, WindowEvent.ledger]
            · have hne : ¬ (scopeId, meter) = ledger := fun h => hledger (h ▸ ⟨rfl, rfl⟩)
              simp [settlementEvents, hzero, hledger, hne, WindowEvent.ledger]

/-- The first settlement of a backed reservation: it raises exactly on a record
without details, and otherwise charges each of its details. -/
theorem settleOnce_of_backed (H : Digests) (now : Instant) {reservationId : String}
    {details : List Detail} {kv : KVState} (hbacked : Backed reservationId details kv)
    (howned : EventsOwned kv) (htimed : Timed details) {current : ReservationRecord}
    (found : kv.reservations.get? reservationId = some current)
    (active : current.state = .active) (charges : Dict String Decimal) :
    (details = [] → settleOnce H now reservationId charges kv = .error
      (.integrityError s!"reservation details are missing: {reservationId}")) ∧
    (details ≠ [] → ∃ after, settleOnce H now reservationId charges kv = .ok after ∧
      (∀ ledger, after.total ledger =
        kv.total ledger + chargeOn .budget charges details ledger) ∧
      ∀ ledger, after.windowTotal ledger =
        kv.windowTotal ledger + chargeOn .window charges details ledger) := by
  obtain ⟨record, hrecord, hdetails⟩ := hbacked.recorded
  rw [found, Option.some.injEq] at hrecord
  subst hrecord
  subst hdetails
  refine ⟨fun hempty => by simp [settleOnce, found, active, hempty], fun hne => ?_⟩
  obtain ⟨middle, hmiddle⟩ := settleDetails_returns reservationId charges now htimed
    hbacked.rows 0
  have hsettle : settleOnce H now reservationId charges kv = .ok { middle with
      reservations := middle.reservations.set reservationId { current with
        state := .settled
        chargesDigest := some (H.charges (reservationCharges charges))
        charges := some (reservationCharges charges)
        completedAt := some now } } := by
    simp only [settleOnce, found, active, if_neg hne, hmiddle]
    rfl
  refine ⟨_, hsettle, fun ledger => settleDetails_total hmiddle ledger, fun ledger => ?_⟩
  have hentries := settled_events howned found active hmiddle
  simp only [KVState.windowTotal, Dict.values, hentries, List.map_append, List.filter_append,
    List.sum_append]
  rw [sum_settlementEvents reservationId charges now htimed 0 ledger]

/-! ## Every accepted request -/

/-- Entries of equal weight add up to a multiple of it. -/
theorem sum_filter_key_const {α : Type} {key : α → LedgerKey} {weight : α → Decimal}
    {ledger : LedgerKey} {w : Decimal} {l : List α}
    (hweight : ∀ x ∈ l, key x = ledger → weight x = w) :
    ((l.filter fun x => key x = ledger).map weight).sum = (l.map key).count ledger * w := by
  induction l with
  | nil => simp
  | cons x l ih =>
      have htail := ih fun y hy => hweight y (List.mem_cons_of_mem _ hy)
      by_cases hkey : key x = ledger
      · rw [List.filter_cons_of_pos (by simpa using hkey), List.map_cons, List.sum_cons, htail,
          hweight x List.mem_cons_self hkey, List.map_cons, hkey, List.count_cons_self]
        push_cast
        ring
      · rw [List.filter_cons_of_neg (by simpa using hkey), htail, List.map_cons,
          List.count_cons_of_ne hkey]

theorem chargeOn_budgets (charges : Dict String Decimal) (budgets : List BudgetReservation)
    (windows : List WindowReservation) (ledger : LedgerKey) :
    chargeOn .budget charges (reservationDetails budgets windows) ledger =
      ((budgetRows budgets).map BudgetRow.key).count ledger * charges.getD ledger.2 0 := by
  rw [chargeOn, detailSum_budgets]
  apply sum_filter_key_const
  rintro row - rfl
  rfl

theorem chargeOn_windows (charges : Dict String Decimal) (budgets : List BudgetReservation)
    (windows : List WindowReservation) (ledger : LedgerKey) :
    chargeOn .window charges (reservationDetails budgets windows) ledger =
      (windows.map windowKey).count ledger * charges.getD ledger.2 0 := by
  rw [chargeOn, detailSum_windows]
  apply sum_filter_key_const
  rintro request - rfl
  rfl

/-- The settlement returns, and adds the charges once to each ledger and each window
the request reserved. -/
def SettlesOnce (H : Digests) (now : Instant) (reservationId : String)
    (budgets : List BudgetReservation) (windows : List WindowReservation) (kv : KVState)
    (charges : Dict String Decimal) : Prop :=
  ∃ after, settleOnce H now reservationId charges kv = .ok after ∧
    (∀ ledger, after.total ledger = kv.total ledger +
      if ledger ∈ (budgetRows budgets).map BudgetRow.key then charges.getD ledger.2 0 else 0) ∧
    ∀ ledger, after.windowTotal ledger = kv.windowTotal ledger +
      if ledger ∈ windows.map windowKey then charges.getD ledger.2 0 else 0

/-- A request that names at least one ledger, and none twice. -/
structure Settleable (budgets : List BudgetReservation) (windows : List WindowReservation) :
    Prop where
  named : reservationDetails budgets windows ≠ []
  rows : ((budgetRows budgets).map BudgetRow.key).Nodup
  windows : (windows.map windowKey).Nodup

theorem count_mul_of_nodup {l : List LedgerKey} (h : l.Nodup) (ledger : LedgerKey)
    (w : Decimal) : (l.count ledger : Decimal) * w = if ledger ∈ l then w else 0 := by
  split
  · next hmem => rw [List.count_eq_one_of_mem h hmem, Nat.cast_one, one_mul]
  · next hmem => rw [List.count_eq_zero_of_not_mem hmem, Nat.cast_zero, zero_mul]

/-- A charge of one tells how often a ledger is named. -/
theorem nodup_of_unit_charges {l : List LedgerKey}
    (h : ∀ ledger : LedgerKey,
      (l.count ledger : Decimal) * (Dict.ofList [(ledger.2, (1 : Decimal))]).getD ledger.2 0 =
        if ledger ∈ l then (Dict.ofList [(ledger.2, (1 : Decimal))]).getD ledger.2 0 else 0) :
    l.Nodup := by
  rw [List.nodup_iff_count_le_one]
  intro ledger
  have hcount := h ledger
  have hone : (Dict.ofList [(ledger.2, (1 : Decimal))]).getD ledger.2 0 = 1 := by
    simp [Dict.ofList, Dict.getD]
  rw [hone, mul_one] at hcount
  split at hcount
  · exact le_of_eq (by exact_mod_cast hcount)
  · have hzero : l.count ledger = 0 := by exact_mod_cast hcount
    omega

/-- A backed request settles once for all charges exactly if it is settleable. -/
theorem settlesOnce_iff {H : Digests} {now : Instant} {reservationId : String}
    {budgets : List BudgetReservation} {windows : List WindowReservation} {kv : KVState}
    (hbacked : Backed reservationId (reservationDetails budgets windows) kv)
    (howned : EventsOwned kv) {current : ReservationRecord}
    (found : kv.reservations.get? reservationId = some current)
    (active : current.state = .active) :
    (∀ charges : Dict String Decimal, (∀ e ∈ charges.entries, 0 ≤ e.2) →
      SettlesOnce H now reservationId budgets windows kv charges) ↔
    Settleable budgets windows := by
  have hsettle := settleOnce_of_backed H now hbacked howned
    (timed_reservationDetails budgets windows) found active
  constructor
  · intro h
    have hnamed : reservationDetails budgets windows ≠ [] := by
      intro hempty
      obtain ⟨after, hafter, -⟩ := h ∅ (by simp)
      rw [(hsettle ∅).1 hempty] at hafter
      cases hafter
    have hcharged : ∀ ledger : LedgerKey,
        SettlesOnce H now reservationId budgets windows kv (.ofList [(ledger.2, 1)]) ∧
        ∃ after, settleOnce H now reservationId (.ofList [(ledger.2, 1)]) kv = .ok after ∧
          after.total ledger = kv.total ledger + chargeOn .budget (.ofList [(ledger.2, 1)])
            (reservationDetails budgets windows) ledger ∧
          after.windowTotal ledger = kv.windowTotal ledger + chargeOn .window
            (.ofList [(ledger.2, 1)]) (reservationDetails budgets windows) ledger := by
      intro ledger
      obtain ⟨after, hafter, htotal, hwindow⟩ := (hsettle (.ofList [(ledger.2, 1)])).2 hnamed
      exact ⟨h _ (by simp [Dict.ofList, Dict.set, Assoc.upsert]), after, hafter,
        htotal ledger, hwindow ledger⟩
    refine ⟨hnamed, nodup_of_unit_charges fun ledger => ?_,
      nodup_of_unit_charges fun ledger => ?_⟩
    · obtain ⟨⟨after, hafter, htotal, -⟩, after', hafter', htotal', -⟩ := hcharged ledger
      rw [hafter, Except.ok.injEq] at hafter'
      subst hafter'
      rw [htotal ledger, chargeOn_budgets, add_right_inj] at htotal'
      exact htotal'.symm
    · obtain ⟨⟨after, hafter, -, hwindow⟩, after', hafter', -, hwindow'⟩ := hcharged ledger
      rw [hafter, Except.ok.injEq] at hafter'
      subst hafter'
      rw [hwindow ledger, chargeOn_windows, add_right_inj] at hwindow'
      exact hwindow'.symm
  · intro h charges _
    obtain ⟨after, hafter, htotal, hwindow⟩ := (hsettle charges).2 h.named
    refine ⟨after, hafter, fun ledger => ?_, fun ledger => ?_⟩
    · rw [htotal, chargeOn_budgets, count_mul_of_nodup h.rows]
    · rw [hwindow, chargeOn_windows, count_mul_of_nodup h.windows]

/-- Reserving under a new id does not raise. -/
theorem reserveOnce_returns (H : Digests) (now : Instant) {reservationId : String}
    (budgets : List BudgetReservation) (windows : List WindowReservation) (leaseSeconds : ℚ)
    {kv : KVState} (hfresh : kv.reservations.get? reservationId = none) :
    ∃ check after,
      reserveOnce H now reservationId budgets windows leaseSeconds kv = .ok (check, after) := by
  simp only [reserveOnce, hfresh]
  split
  · exact ⟨_, _, rfl⟩
  · split
    · exact ⟨_, _, rfl⟩
    · exact ⟨_, _, rfl⟩

/-- Whatever transactions follow, an accepted reservation stays backed. -/
theorem backed_after {H : Digests} {clock : Instant} {before : List Issued} {now : Instant}
    {reservationId : String} {budgets : List BudgetReservation}
    {windows : List WindowReservation} {leaseSeconds : ℚ} {check : ReservationCheck}
    {accepted : KVState}
    (hfresh : (Machine.run (Timeline.step H) (.start clock) before).kv.reservations.get?
      reservationId = none)
    (haccepted : reserveOnce H now reservationId budgets windows leaseSeconds
      (Machine.run (Timeline.step H) (.start clock) before).kv = .ok (check, accepted))
    (hok : check.ok = true) (after : List Issued) :
    Backed reservationId (reservationDetails budgets windows)
      (Machine.run (Timeline.step H) (.start clock) (before ++
        ⟨now, .reserve reservationId budgets windows leaseSeconds⟩ :: after)).kv ∧
    EventsOwned (Machine.run (Timeline.step H) (.start clock) (before ++
      ⟨now, .reserve reservationId budgets windows leaseSeconds⟩ :: after)).kv := by
  rw [Machine.run_append, Machine.run_cons]
  have hperform : Timeline.step H (Machine.run (Timeline.step H) (.start clock) before)
      ⟨now, .reserve reservationId budgets windows leaseSeconds⟩ =
        ⟨accepted, now, (Machine.run (Timeline.step H) (.start clock) before).history ++
          newEvents (Machine.run (Timeline.step H) (.start clock) before).kv accepted⟩ := by
    simp only [Timeline.step, perform, haccepted, Except.map]
  have hbacked : Backed reservationId (reservationDetails budgets windows) accepted :=
    backed_of_reserveOnce hfresh haccepted hok
  have howned : EventsOwned accepted := by
    have hbefore : EventsOwned (Machine.run (Timeline.step H) (.start clock) before).kv :=
      kept_by_run (fun hc h => EventsOwned.commits h hc) eventsOwned_empty before
    exact hbefore.commits (commits_of_reserveOnce haccepted)
  rw [hperform]
  exact ⟨kept_by_run (fun hc h => Backed.commits h hc) hbacked after,
    kept_by_run (fun hc h => EventsOwned.commits h hc) howned after⟩

/-- A request with distinct scopes and at least one row is checked without an error.
Once it is accepted, and while it is active, its settlement adds the charges once to
each of its ledgers. -/
theorem charged_once (H : Digests) (clock : Instant) (before : List Issued) (now : Instant)
    {reservationId : String} {budgets : List BudgetReservation}
    {windows : List WindowReservation} (leaseSeconds : ℚ)
    (hfresh : (Machine.run (Timeline.step H) (.start clock) before).kv.reservations.get?
      reservationId = none)
    (hscopes : (budgets.map BudgetReservation.scopeId).Nodup)
    (hnamed : reservationDetails budgets windows ≠ []) :
    ∃ check accepted,
      reserveOnce H now reservationId budgets windows leaseSeconds
        (Machine.run (Timeline.step H) (.start clock) before).kv = .ok (check, accepted) ∧
      (check.ok = true → ∀ (after : List Issued) (kv : KVState) (current : ReservationRecord),
        kv = (Machine.run (Timeline.step H) (.start clock) (before ++
          ⟨now, .reserve reservationId budgets windows leaseSeconds⟩ :: after)).kv →
        kv.reservations.get? reservationId = some current → current.state = .active →
        ∀ settledAt charges, ∃ settled,
          settleOnce H settledAt reservationId charges kv = .ok settled ∧
          ∀ ledger, settled.total ledger = kv.total ledger +
            if ledger ∈ (budgetRows budgets).map BudgetRow.key then charges.getD ledger.2 0
            else 0) := by
  obtain ⟨check, accepted, haccepted⟩ := reserveOnce_returns H now budgets windows leaseSeconds
    hfresh
  refine ⟨check, accepted, haccepted, ?_⟩
  rintro hok after kv current rfl hcurrent hactive settledAt charges
  obtain ⟨hbacked, howned⟩ := backed_after hfresh haccepted hok after
  obtain ⟨settled, hsettled, htotal, -⟩ := (settleOnce_of_backed H settledAt hbacked howned
    (timed_reservationDetails budgets windows) hcurrent hactive charges).2 hnamed
  refine ⟨settled, hsettled, fun ledger => ?_⟩
  rw [htotal, chargeOn_budgets, count_mul_of_nodup (nodup_keys_budgetRows hscopes)]

/-- A budget on steps and a window, reserved by one request. -/
def stepsBudget : BudgetReservation :=
  ⟨"root", .ofList [("steps", 3), ("depth", 2)], ∅, .ofList [("steps", 1)]⟩

def callsWindow : WindowReservation := ⟨"window", "calls", 3, 1, 10⟩

/-- A scope whose budget names only `depth`. -/
def depthBudget : BudgetReservation := ⟨"root", .ofList [("depth", 2)], ∅, ∅⟩

end Pollard.Stores.Transactional
