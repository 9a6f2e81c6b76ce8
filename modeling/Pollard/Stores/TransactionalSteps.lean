import Pollard.Stores.Transactional
import Mathlib.Algebra.Order.BigOperators.Group.List
import Mathlib.Tactic.Linarith

/-!
# What an arbiter transaction can do

One inversion of `perform`, and one specification for each loop a transaction
runs.  Later modules use these and never open a transaction again.
-/

namespace Pollard.Stores.Transactional

open Lib

/-! ## Inversion -/

/-- The effects of a transaction that commits. -/
inductive Commits (H : Digests) (now : Instant) (kv : KVState) : ClientCall → KVState → Prop
  | unchanged (call : ClientCall) : Commits H now kv call kv
  | refusedByBudget {reservationId : String} {budgets : List BudgetReservation}
      {windows : List WindowReservation} {leaseSeconds : ℚ} {refused : ReservationCheck}
      {budget : Dict LedgerKey Decimal}
      (rows : reserveBudgetRows (activeReservations kv.reservations now)
        ((budgetRows budgets).insertionSort fun a b => PairLE a.key b.key) kv.budget =
          (some refused, budget)) :
      Commits H now kv (.reserve reservationId budgets windows leaseSeconds)
        { kv with budget }
  | refusedByWindow {reservationId : String} {budgets : List BudgetReservation}
      {windows : List WindowReservation} {leaseSeconds : ℚ}
      {budget : Dict LedgerKey Decimal}
      (rows : reserveBudgetRows (activeReservations kv.reservations now)
        ((budgetRows budgets).insertionSort fun a b => PairLE a.key b.key) kv.budget =
          (none, budget)) :
      Commits H now kv (.reserve reservationId budgets windows leaseSeconds)
        { kv with budget, windowEvents := pruneEvents kv.windowEvents now }
  | admitted {reservationId : String} {budgets : List BudgetReservation}
      {windows : List WindowReservation} {leaseSeconds : ℚ}
      {budget : Dict LedgerKey Decimal} {record : ReservationRecord}
      (fresh : kv.reservations.get? reservationId = none)
      (rows : reserveBudgetRows (activeReservations kv.reservations now)
        ((budgetRows budgets).insertionSort fun a b => PairLE a.key b.key) kv.budget =
          (none, budget))
      (room : reserveWindows (activeReservations kv.reservations now)
        (pruneEvents kv.windowEvents now).values now
        (windows.insertionSort fun a b => a.ledgerKey ≤ b.ledgerKey) = none)
      (state : record.state = .active)
      (details : record.details = reservationDetails budgets windows) :
      Commits H now kv (.reserve reservationId budgets windows leaseSeconds)
        ⟨budget, kv.reservations.set reservationId record, pruneEvents kv.windowEvents now⟩
  | settled {reservationId : String} {charges : Dict String Decimal}
      {current record : ReservationRecord} {after : KVState}
      (found : kv.reservations.get? reservationId = some current)
      (active : current.state = .active) (nonempty : current.details ≠ [])
      (loop : settleDetails reservationId charges now 0 current.details kv = .ok after)
      (state : record.state = .settled) (details : record.details = current.details) :
      Commits H now kv (.settle reservationId charges)
        { after with reservations := kv.reservations.set reservationId record }
  | released {reservationId : String} {current record : ReservationRecord}
      (found : kv.reservations.get? reservationId = some current)
      (active : current.state = .active)
      (state : record.state = .released) (details : record.details = current.details) :
      Commits H now kv (.release reservationId)
        { kv with reservations := kv.reservations.set reservationId record }
  | renewed {reservationId : String} {leaseSeconds : ℚ} {current : ReservationRecord}
      (found : kv.reservations.get? reservationId = some current)
      (active : current.state = .active) (live : now < current.expiresAt) :
      Commits H now kv (.renew reservationId leaseSeconds)
        { kv with
          reservations := kv.reservations.set reservationId
            { current with expiresAt := now + leaseSeconds } }

theorem settleDetail_reservations {reservationId : String} {charges : Dict String Decimal}
    {now : Instant} {index : ℕ} {detail : Detail} {kv after : KVState}
    (h : settleDetail reservationId charges now index detail kv = .ok after) :
    after.reservations = kv.reservations := by
  obtain ⟨kind, scopeId, meter, amount, windowSeconds⟩ := detail
  cases kind with
  | budget =>
      simp only [settleDetail] at h
      split at h
      · cases h
      · cases h
        rfl
  | window =>
      simp only [settleDetail] at h
      split at h
      · cases h
        rfl
      · split at h
        · cases h
        · cases h
          rfl

theorem settleDetails_cons_ok {reservationId : String} {charges : Dict String Decimal}
    {now : Instant} {index : ℕ} {detail : Detail} {details : List Detail}
    {kv after : KVState}
    (h : settleDetails reservationId charges now index (detail :: details) kv = .ok after) :
    ∃ middle, settleDetail reservationId charges now index detail kv = .ok middle ∧
      settleDetails reservationId charges now (index + 1) details middle = .ok after := by
  rw [settleDetails] at h
  cases hd : settleDetail reservationId charges now index detail kv with
  | error e =>
      rw [hd] at h
      cases h
  | ok middle =>
      rw [hd] at h
      exact ⟨middle, rfl, h⟩

theorem settleDetails_reservations {reservationId : String} {charges : Dict String Decimal}
    {now : Instant} {index : ℕ} {details : List Detail} {kv after : KVState}
    (h : settleDetails reservationId charges now index details kv = .ok after) :
    after.reservations = kv.reservations := by
  induction details generalizing index kv with
  | nil =>
      cases h
      rfl
  | cons detail details ih =>
      obtain ⟨middle, hd, hrest⟩ := settleDetails_cons_ok h
      rw [ih hrest, settleDetail_reservations hd]

theorem commits_of_reserveOnce {H : Digests} {now : Instant} {reservationId : String}
    {budgets : List BudgetReservation} {windows : List WindowReservation} {leaseSeconds : ℚ}
    {kv after : KVState} {check : ReservationCheck}
    (h : reserveOnce H now reservationId budgets windows leaseSeconds kv =
      .ok (check, after)) :
    Commits H now kv (.reserve reservationId budgets windows leaseSeconds) after := by
  unfold reserveOnce at h
  dsimp only at h
  split at h
  · next current _ =>
      cases hr : retryReserve reservationId
          (H.request (reservationRequest budgets windows leaseSeconds)) now current with
      | error e =>
          rw [hr] at h
          cases h
      | ok check =>
          rw [hr] at h
          cases h
          exact .unchanged _
  · next fresh =>
      split at h
      · next rows =>
          cases h
          exact .refusedByBudget rows
      · next rows =>
          split at h
          · cases h
            exact .refusedByWindow rows
          · next room =>
              cases h
              exact .admitted fresh rows room rfl rfl

theorem commits_of_settleOnce {H : Digests} {now : Instant} {reservationId : String}
    {charges : Dict String Decimal} {kv after : KVState}
    (h : settleOnce H now reservationId charges kv = .ok after) :
    Commits H now kv (.settle reservationId charges) after := by
  unfold settleOnce at h
  dsimp only at h
  split at h
  · cases h
  · next current found =>
      split at h
      · split at h
        · cases h
        · cases h
          exact .unchanged _
      · cases h
      · next active =>
          split at h
          · cases h
          · next nonempty =>
              cases hloop : settleDetails reservationId charges now 0 current.details kv with
              | error e =>
                  rw [hloop] at h
                  cases h
              | ok middle =>
                  rw [hloop] at h
                  cases h
                  dsimp only
                  rw [settleDetails_reservations hloop]
                  exact .settled found active nonempty hloop rfl rfl

theorem commits_of_releaseOnce {H : Digests} {now : Instant} {reservationId : String}
    {kv after : KVState} (h : releaseOnce now reservationId kv = .ok after) :
    Commits H now kv (.release reservationId) after := by
  unfold releaseOnce at h
  split at h
  · cases h
    exact .unchanged _
  · next current found =>
      split at h
      · cases h
        exact .unchanged _
      · cases h
      · next active =>
          cases h
          exact .released found active rfl rfl

theorem commits_of_renewOnce {H : Digests} {now : Instant} {reservationId : String}
    {leaseSeconds : ℚ} {kv : KVState} :
    Commits H now kv (.renew reservationId leaseSeconds)
      (renewOnce now reservationId leaseSeconds kv).2 := by
  unfold renewOnce
  split
  · exact .unchanged _
  · next current found =>
      split
      · exact .unchanged _
      · next hlive =>
          rw [not_or, not_not, not_le] at hlive
          exact .renewed found hlive.1 hlive.2

theorem commits_of_perform {H : Digests} {now : Instant} {kv after : KVState}
    {call : ClientCall} {reply : Reply} (h : perform H now kv call = .ok (reply, after)) :
    Commits H now kv call after := by
  cases call with
  | reserve reservationId budgets windows leaseSeconds =>
      cases hr : reserveOnce H now reservationId budgets windows leaseSeconds kv with
      | error e => simp [perform, hr, Except.map] at h
      | ok r =>
          simp only [perform, hr, Except.map, Except.ok.injEq, Prod.mk.injEq] at h
          rw [← h.2]
          exact commits_of_reserveOnce hr
  | settle reservationId charges =>
      cases hr : settleOnce H now reservationId charges kv with
      | error e => simp [perform, hr, Except.map] at h
      | ok r =>
          simp only [perform, hr, Except.map, Except.ok.injEq, Prod.mk.injEq] at h
          rw [← h.2]
          exact commits_of_settleOnce hr
  | release reservationId =>
      cases hr : releaseOnce now reservationId kv with
      | error e => simp [perform, hr, Except.map] at h
      | ok r =>
          simp only [perform, hr, Except.map, Except.ok.injEq, Prod.mk.injEq] at h
          rw [← h.2]
          exact commits_of_releaseOnce hr
  | renew reservationId leaseSeconds =>
      simp only [perform, Except.ok.injEq, Prod.mk.injEq] at h
      rw [← h.2]
      exact commits_of_renewOnce

/-! ## Totals and holds -/

/-- The settled total of a budget ledger; a missing row counts as zero. -/
def KVState.total (kv : KVState) (ledger : LedgerKey) : Decimal := kv.budget.getD ledger 0

/-- The sum of a weight over the details of one kind on one ledger. -/
def detailSum (kind : DetailKind) (weight : Detail → Decimal) (details : List Detail)
    (ledger : LedgerKey) : Decimal :=
  ((details.filter fun detail =>
    detail.kind = kind ∧ detail.scopeId = ledger.1 ∧ detail.meter = ledger.2).map weight).sum

/-- What a reservation sets aside on a ledger. -/
def detailAmount (kind : DetailKind) (details : List Detail) (ledger : LedgerKey) : Decimal :=
  detailSum kind Detail.amount details ledger

/-- What a settlement charges a ledger. -/
def chargeOn (kind : DetailKind) (charges : Dict String Decimal) (details : List Detail)
    (ledger : LedgerKey) : Decimal :=
  detailSum kind (fun detail => charges.getD detail.meter 0) details ledger

theorem detailSum_le {kind : DetailKind} {weight weight' : Detail → Decimal}
    {details : List Detail}
    (h : ∀ detail ∈ details, detail.kind = kind → weight detail ≤ weight' detail)
    (ledger : LedgerKey) :
    detailSum kind weight details ledger ≤ detailSum kind weight' details ledger := by
  apply List.sum_le_sum
  intro detail hmem
  obtain ⟨hmem, hkind⟩ := List.mem_filter.mp hmem
  simp only [decide_eq_true_eq] at hkind
  exact h detail hmem hkind.1

theorem detailSum_nonneg {kind : DetailKind} {weight : Detail → Decimal}
    {details : List Detail} (h : ∀ detail ∈ details, detail.kind = kind → 0 ≤ weight detail)
    (ledger : LedgerKey) : 0 ≤ detailSum kind weight details ledger := by
  have hle : detailSum kind (fun _ => 0) details ledger ≤ detailSum kind weight details ledger :=
    detailSum_le h ledger
  have hzero : detailSum kind (fun _ => 0) details ledger = 0 := by simp [detailSum]
  rwa [hzero] at hle

theorem detailSum_cons (kind : DetailKind) (weight : Detail → Decimal) (detail : Detail)
    (details : List Detail) (ledger : LedgerKey) :
    detailSum kind weight (detail :: details) ledger =
      detailSum kind weight [detail] ledger + detailSum kind weight details ledger := by
  simp only [detailSum, List.filter_cons, List.filter_nil]
  split <;> simp

theorem detailSum_singleton (kind : DetailKind) (weight : Detail → Decimal) (detail : Detail)
    (ledger : LedgerKey) :
    detailSum kind weight [detail] ledger =
      if detail.kind = kind ∧ detail.scopeId = ledger.1 ∧ detail.meter = ledger.2 then
        weight detail
      else 0 := by
  simp only [detailSum, List.filter_cons, List.filter_nil, decide_eq_true_eq]
  split <;> simp

/-! ## The details of a request -/

/-- The ledger a window request draws on. -/
def windowKey (request : WindowReservation) : LedgerKey := (request.ledgerKey, request.meter)

def WindowEvent.ledger (event : WindowEvent) : LedgerKey := (event.scopeId, event.meter)

theorem detailSum_rows (weight : Detail → Decimal) (rows : List BudgetRow)
    (windows : List WindowReservation) (ledger : LedgerKey) :
    detailSum .budget weight (rows.map budgetDetail ++ windows.map windowDetail) ledger =
      ((rows.filter fun row => row.key = ledger).map (weight ∘ budgetDetail)).sum := by
  simp only [detailSum, List.filter_append, List.map_append, List.sum_append, List.filter_map,
    List.map_map]
  have hwindows : windows.filter ((fun detail : Detail => decide (detail.kind = .budget ∧
      detail.scopeId = ledger.1 ∧ detail.meter = ledger.2)) ∘ windowDetail) = [] := by
    simp [windowDetail]
  rw [hwindows, List.map_nil, List.sum_nil, add_zero]
  congr 2
  apply List.filter_congr
  intro row _
  rw [Function.comp_apply, decide_eq_decide]
  simp [budgetDetail, BudgetRow.key, Prod.ext_iff]

theorem detailSum_requests (weight : Detail → Decimal) (rows : List BudgetRow)
    (windows : List WindowReservation) (ledger : LedgerKey) :
    detailSum .window weight (rows.map budgetDetail ++ windows.map windowDetail) ledger =
      ((windows.filter fun request => windowKey request = ledger).map
        (weight ∘ windowDetail)).sum := by
  simp only [detailSum, List.filter_append, List.map_append, List.sum_append, List.filter_map,
    List.map_map]
  have hrows : rows.filter ((fun detail : Detail => decide (detail.kind = .window ∧
      detail.scopeId = ledger.1 ∧ detail.meter = ledger.2)) ∘ budgetDetail) = [] := by
    simp [budgetDetail]
  rw [hrows, List.map_nil, List.sum_nil, zero_add]
  congr 2
  apply List.filter_congr
  intro request _
  rw [Function.comp_apply, decide_eq_decide]
  simp [windowDetail, windowKey, Prod.ext_iff]

theorem detailSum_budgets (weight : Detail → Decimal) (budgets : List BudgetReservation)
    (windows : List WindowReservation) (ledger : LedgerKey) :
    detailSum .budget weight (reservationDetails budgets windows) ledger =
      (((budgetRows budgets).filter fun row => row.key = ledger).map
        (weight ∘ budgetDetail)).sum :=
  detailSum_rows weight (budgetRows budgets) windows ledger

theorem detailSum_windows (weight : Detail → Decimal) (budgets : List BudgetReservation)
    (windows : List WindowReservation) (ledger : LedgerKey) :
    detailSum .window weight (reservationDetails budgets windows) ledger =
      ((windows.filter fun request => windowKey request = ledger).map
        (weight ∘ windowDetail)).sum :=
  detailSum_requests weight (budgetRows budgets) windows ledger

/-- Among entries with distinct keys, a key selects one entry. -/
theorem sum_filter_key {α : Type} {key : α → LedgerKey} {l : List α}
    (hnodup : (l.map key).Nodup) {x : α} (hx : x ∈ l) (weight : α → Decimal) :
    ((l.filter fun y => key y = key x).map weight).sum = weight x := by
  have hfilter : l.filter (fun y => key y = key x) = [x] := by
    induction l with
    | nil => simp at hx
    | cons y l ih =>
        rw [List.map_cons, List.nodup_cons] at hnodup
        rcases List.mem_cons.mp hx with rfl | hx
        · have hrest : l.filter (fun y => decide (key y = key x)) = [] := by
            rw [List.filter_eq_nil_iff]
            intro y hy
            have hne : key y ≠ key x := fun h => hnodup.1 (h ▸ List.mem_map_of_mem hy)
            simpa using hne
          simp [hrest]
        · have hne : key y ≠ key x := fun h => hnodup.1 (h ▸ List.mem_map_of_mem hx)
          rw [List.filter_cons_of_neg (by simpa using hne)]
          exact ih hnodup.2 hx
  simp [hfilter]

theorem sum_filter_key_of_not_mem {α : Type} {key : α → LedgerKey} {l : List α}
    {ledger : LedgerKey} (h : ledger ∉ l.map key) (weight : α → Decimal) :
    ((l.filter fun y => key y = ledger).map weight).sum = 0 := by
  have hfilter : l.filter (fun y => decide (key y = ledger)) = [] := by
    rw [List.filter_eq_nil_iff]
    intro y hy
    have hne : key y ≠ ledger := fun hk => h (hk ▸ List.mem_map_of_mem hy)
    simpa using hne
  simp [hfilter]

theorem nodup_keys_budgetRows {budgets : List BudgetReservation}
    (h : (budgets.map BudgetReservation.scopeId).Nodup) :
    ((budgetRows budgets).map BudgetRow.key).Nodup := by
  induction budgets with
  | nil => simp [budgetRows]
  | cons request budgets ih =>
      rw [List.map_cons, List.nodup_cons] at h
      have hrows : budgetRows (request :: budgets) =
          ((request.limits.entries.filter fun e => e.1 ≠ "depth").map fun e =>
            (⟨request, e.1, e.2⟩ : BudgetRow)) ++ budgetRows budgets := rfl
      rw [hrows, List.map_append]
      refine List.Nodup.append ?_ (ih h.2) ?_
      · have hsub : (request.limits.entries.filter fun e => e.1 ≠ "depth").map Prod.fst
            |>.Nodup := (request.limits.filter fun e => e.1 ≠ "depth").nodupKeys
        have hmap := hsub.map (f := fun m => ((request.scopeId, m) : LedgerKey))
          (fun a b hab => (Prod.mk.inj hab).2)
        simpa [BudgetRow.key, Function.comp_def] using hmap
      · rw [List.disjoint_left]
        intro key hleft hright
        obtain ⟨row, hrow, rfl⟩ := List.mem_map.mp hleft
        obtain ⟨e, -, rfl⟩ := List.mem_map.mp hrow
        obtain ⟨other, hother, hkey⟩ := List.mem_map.mp hright
        obtain ⟨request', hrequest', hother⟩ := List.mem_flatMap.mp hother
        obtain ⟨e', -, rfl⟩ := List.mem_map.mp hother
        have hscope : request'.scopeId = request.scopeId := (Prod.mk.inj hkey).1
        exact h.1 (hscope ▸ List.mem_map_of_mem hrequest')

/-! ## The budget loop -/

theorem settledTotal_of_le {stored : Option Decimal} {baseline : Decimal}
    (h : baseline ≤ stored.getD 0) : settledTotal stored baseline = stored.getD 0 := by
  rw [settledTotal, if_neg (not_lt.mpr h)]

/-- Where no baseline is ahead of its ledger, the loop changes no total, and it
passes only if each row fits beside the active reservations. -/
theorem reserveBudgetRows_spec (active : List ReservationRecord) (rows : List BudgetRow)
    (budget : Dict LedgerKey Decimal)
    (hbase : ∀ row ∈ rows, row.baseline ≤ budget.getD row.key 0) :
    (∀ key, (reserveBudgetRows active rows budget).2.getD key 0 = budget.getD key 0) ∧
    ((reserveBudgetRows active rows budget).1 = none → ∀ row ∈ rows,
      budget.getD row.key 0 + activeAmount active .budget row.request.scopeId row.meter
        + row.amount ≤ row.limit) := by
  induction rows generalizing budget with
  | nil => simp [reserveBudgetRows]
  | cons row rows ih =>
      have hrow : settledTotal (budget.get? row.key) row.baseline = budget.getD row.key 0 :=
        settledTotal_of_le (hbase row (by simp))
      -- The write of this row leaves every total as it was.
      have hkeep : ∀ key, (if budget.get? row.key ≠ some (budget.getD row.key 0) then
          budget.set row.key (budget.getD row.key 0) else budget).getD key 0 =
            budget.getD key 0 := by
        intro key
        split
        · rw [Dict.getD_set]
          split
          · next hk => rw [hk]
          · rfl
        · rfl
      obtain ⟨ihtotal, ihfits⟩ := ih (if budget.get? row.key ≠ some (budget.getD row.key 0) then
          budget.set row.key (budget.getD row.key 0) else budget) (by
        intro r hr
        rw [hkeep]
        exact hbase r (List.mem_cons_of_mem _ hr))
      simp only [reserveBudgetRows, hrow]
      by_cases hfit : row.amount > row.limit - budget.getD row.key 0
          - activeAmount active .budget row.request.scopeId row.meter
      · simp only [if_pos hfit]
        exact ⟨hkeep, by simp⟩
      · simp only [if_neg hfit]
        refine ⟨fun key => (ihtotal key).trans (hkeep key), fun hnone r hr => ?_⟩
        rcases List.mem_cons.mp hr with rfl | hr
        · linarith [not_lt.mp hfit]
        · have h := ihfits hnone r hr
          rwa [hkeep] at h

/-- The loop keeps every row it finds and leaves a row for each ledger it passes. -/
theorem reserveBudgetRows_present (active : List ReservationRecord) (rows : List BudgetRow)
    (budget : Dict LedgerKey Decimal) :
    (∀ key, (budget.get? key).isSome →
      ((reserveBudgetRows active rows budget).2.get? key).isSome) ∧
    ((reserveBudgetRows active rows budget).1 = none → ∀ row ∈ rows,
      ((reserveBudgetRows active rows budget).2.get? row.key).isSome) := by
  induction rows generalizing budget with
  | nil => simp [reserveBudgetRows]
  | cons row rows ih =>
      simp only [reserveBudgetRows]
      generalize hwritten : (if budget.get? row.key ≠
          some (settledTotal (budget.get? row.key) row.baseline) then
          budget.set row.key (settledTotal (budget.get? row.key) row.baseline)
          else budget) = written
      have hkeep : ∀ key, (budget.get? key).isSome → (written.get? key).isSome := by
        intro key hkey
        rw [← hwritten]
        split
        · rw [Dict.get?_set]
          split
          · rfl
          · exact hkey
        · exact hkey
      have hself : (written.get? row.key).isSome := by
        rw [← hwritten]
        split
        · rw [Dict.get?_set_self]
          rfl
        · next hstored =>
            rw [not_not.mp hstored]
            rfl
      obtain ⟨ihkeep, ihrows⟩ := ih written
      split
      · exact ⟨hkeep, by simp⟩
      · refine ⟨fun key hkey => ihkeep key (hkeep key hkey), fun hnone r hr => ?_⟩
        rcases List.mem_cons.mp hr with rfl | hr
        · exact ihkeep _ hself
        · exact ihrows hnone r hr

/-! ## The window loop -/

theorem reserveWindows_fits {active : List ReservationRecord} {events : List WindowEvent}
    {now : Instant} {windows : List WindowReservation}
    (h : reserveWindows active events now windows = none) :
    ∀ request ∈ windows,
      windowSettled events now request
        + activeAmount active .window request.ledgerKey request.meter + request.amount
          ≤ request.limit := by
  induction windows with
  | nil => simp
  | cons request requests ih =>
      simp only [reserveWindows] at h
      split at h
      · cases h
      · next hfit =>
          intro r hr
          rcases List.mem_cons.mp hr with rfl | hr
          · linarith [not_lt.mp hfit]
          · exact ih h r hr

/-! ## The settlement loop -/

theorem settleDetail_total {reservationId : String} {charges : Dict String Decimal}
    {now : Instant} {index : ℕ} {detail : Detail} {kv after : KVState}
    (h : settleDetail reservationId charges now index detail kv = .ok after)
    (ledger : LedgerKey) :
    after.total ledger = kv.total ledger + chargeOn .budget charges [detail] ledger := by
  obtain ⟨kind, scopeId, meter, amount, windowSeconds⟩ := detail
  cases kind with
  | budget =>
      simp only [settleDetail] at h
      split at h
      · cases h
      · next stored hstored =>
          cases h
          simp only [KVState.total, Dict.getD_set, chargeOn, detailSum]
          by_cases hk : (scopeId, meter) = ledger
          · subst hk
            simp [Dict.getD, hstored]
          · have hne : ¬ (scopeId = ledger.1 ∧ meter = ledger.2) := by
              rintro ⟨rfl, rfl⟩
              exact hk rfl
            simp [hk, hne]
  | window =>
      have hbudget : after.budget = kv.budget := by
        simp only [settleDetail] at h
        split at h
        · cases h
          rfl
        · split at h
          · cases h
          · cases h
            rfl
      simp [KVState.total, hbudget, chargeOn, detailSum]

/-- A settlement adds to each budget ledger the charge of each detail on it. -/
theorem settleDetails_total {reservationId : String} {charges : Dict String Decimal}
    {now : Instant} {index : ℕ} {details : List Detail} {kv after : KVState}
    (h : settleDetails reservationId charges now index details kv = .ok after)
    (ledger : LedgerKey) :
    after.total ledger = kv.total ledger + chargeOn .budget charges details ledger := by
  induction details generalizing index kv with
  | nil =>
      cases h
      simp [chargeOn, detailSum]
  | cons detail details ih =>
      obtain ⟨middle, hd, hrest⟩ := settleDetails_cons_ok h
      rw [ih hrest, settleDetail_total hd, chargeOn, chargeOn, chargeOn,
        detailSum_cons _ _ detail details, add_assoc]

/-- The window events a settlement writes, under their keys. -/
def settlementEvents (reservationId : String) (charges : Dict String Decimal)
    (now : Instant) : ℕ → List Detail → List ((String × ℕ) × WindowEvent)
  | _, [] => []
  | index, detail :: details =>
      let rest := settlementEvents reservationId charges now (index + 1) details
      match detail.kind, detail.windowSeconds with
      | .window, some windowSeconds =>
          if charges.getD detail.meter 0 = 0 then rest
          else
            ((reservationId, index), ⟨detail.scopeId, detail.meter,
              charges.getD detail.meter 0, now, windowSeconds⟩) :: rest
      | _, _ => rest

theorem settlementEvents_key {reservationId : String} {charges : Dict String Decimal}
    {now : Instant} {index : ℕ} {details : List Detail}
    {e : (String × ℕ) × WindowEvent}
    (h : e ∈ settlementEvents reservationId charges now index details) :
    e.1.1 = reservationId ∧ index ≤ e.1.2 := by
  induction details generalizing index with
  | nil => simp [settlementEvents] at h
  | cons detail details ih =>
      have hrest : e ∈ settlementEvents reservationId charges now (index + 1) details →
          e.1.1 = reservationId ∧ index ≤ e.1.2 := fun h =>
        ⟨(ih h).1, Nat.le_of_succ_le (ih h).2⟩
      simp only [settlementEvents] at h
      split at h
      · split at h
        · exact hrest h
        · rcases List.mem_cons.mp h with rfl | h
          · exact ⟨rfl, le_rfl⟩
          · exact hrest h
      · exact hrest h

/-- Into a bucket without entries of the reservation, a settlement appends its
events. -/
theorem settleDetails_events {reservationId : String} {charges : Dict String Decimal}
    {now : Instant} {index : ℕ} {details : List Detail} {kv after : KVState}
    (h : settleDetails reservationId charges now index details kv = .ok after)
    (hfresh : ∀ j, index ≤ j → kv.windowEvents.get? (reservationId, j) = none) :
    after.windowEvents.entries = kv.windowEvents.entries ++
      settlementEvents reservationId charges now index details := by
  induction details generalizing index kv with
  | nil =>
      cases h
      simp [settlementEvents]
  | cons detail details ih =>
      obtain ⟨middle, hd, hrest⟩ := settleDetails_cons_ok h
      have hlater : ∀ j, index + 1 ≤ j → kv.windowEvents.get? (reservationId, j) = none :=
        fun j hj => hfresh j (Nat.le_of_succ_le hj)
      obtain ⟨kind, scopeId, meter, amount, windowSeconds⟩ := detail
      cases kind with
      | budget =>
          have hevents : middle.windowEvents = kv.windowEvents := by
            simp only [settleDetail] at hd
            split at hd
            · cases hd
            · cases hd
              rfl
          rw [ih hrest (by rw [hevents]; exact hlater), hevents]
          simp [settlementEvents]
      | window =>
          simp only [settleDetail] at hd
          split at hd
          · next hzero =>
              cases hd
              rw [ih hrest hlater]
              cases windowSeconds <;> simp [settlementEvents, hzero]
          · next hnonzero =>
              split at hd
              · cases hd
              · next seconds =>
                  cases hd
                  have hnew := Dict.entries_set_of_get?_none
                    (⟨scopeId, meter, charges.getD meter 0, now, seconds⟩ : WindowEvent)
                    (hfresh index le_rfl)
                  rw [ih hrest ?_, hnew]
                  · simp [settlementEvents, hnonzero]
                  · intro j hj
                    have hne : (reservationId, index) ≠ (reservationId, j) := by
                      rintro ⟨⟩
                      exact Nat.not_succ_le_self index hj
                    exact (Dict.get?_set_of_ne kv.windowEvents _ hne).trans (hlater j hj)

/-! ## Window events belong to settled reservations -/

/-- Every stored window event was written by the settlement of its reservation. -/
def EventsOwned (kv : KVState) : Prop :=
  ∀ key event, kv.windowEvents.get? key = some event →
    ∃ record, kv.reservations.get? key.1 = some record ∧ record.state = .settled

theorem EventsOwned.fresh {kv : KVState} (h : EventsOwned kv) {reservationId : String}
    {current : ReservationRecord} (found : kv.reservations.get? reservationId = some current)
    (active : current.state = .active) (j : ℕ) :
    kv.windowEvents.get? (reservationId, j) = none := by
  cases hevent : kv.windowEvents.get? (reservationId, j) with
  | none => rfl
  | some event =>
      obtain ⟨record, hrecord, hsettled⟩ := h _ event hevent
      rw [found, Option.some.injEq] at hrecord
      subst hrecord
      rw [active] at hsettled
      cases hsettled

/-- What a settlement of an active reservation appends to the bucket. -/
theorem settled_events {reservationId : String} {charges : Dict String Decimal}
    {now : Instant} {kv after : KVState} {current : ReservationRecord}
    (howned : EventsOwned kv) (found : kv.reservations.get? reservationId = some current)
    (active : current.state = .active)
    (loop : settleDetails reservationId charges now 0 current.details kv = .ok after) :
    after.windowEvents.entries = kv.windowEvents.entries ++
      settlementEvents reservationId charges now 0 current.details :=
  settleDetails_events loop fun j _ => howned.fresh found active j

/-- A transaction that leaves no event behind keeps the events owned, as long as
settled reservations stay settled. -/
theorem EventsOwned.of_subset {kv after : KVState} (h : EventsOwned kv)
    (hevents : ∀ key event, after.windowEvents.get? key = some event →
      kv.windowEvents.get? key = some event)
    (hrecords : ∀ key record, kv.reservations.get? key = some record →
      record.state = .settled → after.reservations.get? key = some record) :
    EventsOwned after := by
  intro key event hevent
  obtain ⟨record, hrecord, hsettled⟩ := h key event (hevents key event hevent)
  exact ⟨record, hrecords _ record hrecord hsettled, hsettled⟩

theorem get?_of_pruneEvents {events : Dict (String × ℕ) WindowEvent} {now : Instant}
    {key : String × ℕ} {event : WindowEvent}
    (h : (pruneEvents events now).get? key = some event) : events.get? key = some event := by
  rw [pruneEvents, Dict.get?_filter, Option.filter_eq_some_iff] at h
  exact h.1

/-- Overwriting a record that is not settled keeps the settled ones. -/
theorem settled_kept {kv : KVState} {reservationId : String} {record : ReservationRecord}
    (h : ∀ current, kv.reservations.get? reservationId = some current →
      current.state ≠ .settled) :
    ∀ key r, kv.reservations.get? key = some r → r.state = .settled →
      (kv.reservations.set reservationId record).get? key = some r := by
  intro key r hr hsettled
  rw [Dict.get?_set_of_ne, hr]
  rintro rfl
  exact h r hr hsettled

theorem eventsOwned_empty : EventsOwned KVState.empty := by
  intro key event h
  cases h

/-- Overwriting an active record keeps the settled ones. -/
theorem settled_kept_of_active {kv : KVState} {reservationId : String}
    {current record : ReservationRecord}
    (found : kv.reservations.get? reservationId = some current)
    (active : current.state = .active) :
    ∀ key r, kv.reservations.get? key = some r → r.state = .settled →
      (kv.reservations.set reservationId record).get? key = some r := by
  apply settled_kept
  intro other hother
  rw [found, Option.some.injEq] at hother
  rw [← hother, active]
  simp

theorem EventsOwned.settle {now : Instant} {kv after : KVState} {reservationId : String}
    {charges : Dict String Decimal} {current record : ReservationRecord} (h : EventsOwned kv)
    (found : kv.reservations.get? reservationId = some current)
    (active : current.state = .active)
    (loop : settleDetails reservationId charges now 0 current.details kv = .ok after)
    (state : record.state = .settled) :
    EventsOwned { after with reservations := kv.reservations.set reservationId record } := by
  intro key event hevent
  have hmem := Dict.mem_entries_iff.mpr hevent
  have hentries := settled_events h found active loop
  dsimp only at hmem
  rw [hentries, List.mem_append] at hmem
  rcases hmem with hmem | hmem
  · obtain ⟨r, hr, hsettled⟩ := h key event (Dict.mem_entries_iff.mp hmem)
    exact ⟨r, settled_kept_of_active found active _ r hr hsettled, hsettled⟩
  · refine ⟨record, ?_, state⟩
    rw [(settlementEvents_key hmem).1]
    exact Dict.get?_set_self _ _ _

theorem EventsOwned.commits {H : Digests} {now : Instant} {kv after : KVState}
    {call : ClientCall} (h : EventsOwned kv) (hcommits : Commits H now kv call after) :
    EventsOwned after := by
  cases hcommits with
  | unchanged => exact h
  | refusedByBudget rows => exact h.of_subset (fun _ _ h => h) (fun _ _ h _ => h)
  | refusedByWindow rows =>
      exact h.of_subset (fun _ _ h => get?_of_pruneEvents h) (fun _ _ h _ => h)
  | admitted fresh rows room state details =>
      exact h.of_subset (fun _ _ h => get?_of_pruneEvents h)
        (settled_kept fun current hcurrent => by rw [fresh] at hcurrent; cases hcurrent)
  | settled found active nonempty loop state details => exact h.settle found active loop state
  | released found active state details =>
      exact h.of_subset (fun _ _ h => h) (settled_kept_of_active found active)
  | renewed found active live =>
      exact h.of_subset (fun _ _ h => h) (settled_kept_of_active found active)

/-! ## The events a transaction adds -/

theorem newEvents_of_subset {kv after : KVState}
    (h : ∀ key event, after.windowEvents.get? key = some event →
      kv.windowEvents.get? key = some event) : newEvents kv after = [] := by
  rw [newEvents, List.map_eq_nil_iff, List.filter_eq_nil_iff]
  rintro ⟨key, event⟩ hmem
  have hget := h key event (Dict.mem_entries_iff.mp hmem)
  simp [Dict.contains, hget]

theorem newEvents_of_append {kv after : KVState}
    {added : List ((String × ℕ) × WindowEvent)}
    (hentries : after.windowEvents.entries = kv.windowEvents.entries ++ added)
    (hfresh : ∀ e ∈ added, kv.windowEvents.get? e.1 = none) :
    newEvents kv after = added.map Prod.snd := by
  have hold : kv.windowEvents.entries.filter
      (fun e => decide ¬ kv.windowEvents.contains e.1) = [] := by
    rw [List.filter_eq_nil_iff]
    rintro ⟨key, event⟩ hmem
    simp [Dict.contains, Dict.mem_entries_iff.mp hmem]
  have hnew : added.filter (fun e => decide ¬ kv.windowEvents.contains e.1) = added := by
    rw [List.filter_eq_self]
    intro e he
    simp [Dict.contains, hfresh e he]
  rw [newEvents, hentries, List.filter_append, hold, hnew, List.nil_append]

/-- What every transaction that commits keeps, a run keeps. -/
theorem kept_by_run {H : Digests} {Kept : KVState → Prop}
    (h : ∀ {now kv call after}, Commits H now kv call after → Kept kv → Kept after)
    {s : Timeline} (hs : Kept s.kv) (issued : List Issued) :
    Kept (Machine.run (Timeline.step H) s issued).kv := by
  refine Machine.preserved_run (fun s : Timeline => Kept s.kv) (fun s i hs => ?_) hs issued
  unfold Timeline.step
  split
  · exact hs
  · next hperform => exact h (commits_of_perform hperform) hs

end Pollard.Stores.Transactional
