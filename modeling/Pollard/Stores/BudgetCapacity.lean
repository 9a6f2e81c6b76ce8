import Pollard.Stores.ArbiterBook

/-!
# Cumulative limits are never over-committed

The load of a budget ledger is its settled total.  Every transaction of a
disciplined run is a move of the book of leased capacity.
-/

namespace Pollard.Stores.Transactional

open Lib
open Lib.LeasedCapacity

/-- What a step of a run owes a cumulative limit: the clock does not go back; the
scopes of a request are distinct, each of its rows uses the limit of its ledger, a
nonnegative amount, and a baseline that is not ahead of the settled total; an
active reservation is settled before its lease ends, for no more than it holds. -/
def BudgetDiscipline (limit : LedgerKey → Decimal) (s : Timeline) (i : Issued) : Prop :=
  s.clock ≤ i.now ∧
  match i.call with
  | .reserve _ budgets _ _ =>
      (budgets.map BudgetReservation.scopeId).Nodup ∧
      ∀ row ∈ budgetRows budgets, row.limit = limit row.key ∧ 0 ≤ row.amount ∧
        row.baseline ≤ s.kv.total row.key
  | .settle reservationId charges =>
      ∀ current ∈ s.kv.reservations.get? reservationId, current.state = .active →
        i.now < current.expiresAt ∧
        ∀ detail ∈ current.details, detail.kind = .budget →
          charges.getD detail.meter 0 ≤ detail.amount
  | .release _ => True
  | .renew _ _ => True

instance (limit : LedgerKey → Decimal) (s : Timeline) (i : Issued) :
    Decidable (BudgetDiscipline limit s i) := by
  obtain ⟨now, call⟩ := i
  cases call <;> unfold BudgetDiscipline <;> infer_instance

/-- The load of a budget ledger does not depend on the instant. -/
def budgetLoad (kv : KVState) (ledger : LedgerKey) (_ : Instant) : Decimal := kv.total ledger

theorem mem_budgetDetails {rows : List BudgetRow} {windows : List WindowReservation}
    {detail : Detail} (h : detail ∈ rows.map budgetDetail ++ windows.map windowDetail)
    (hkind : detail.kind = .budget) : ∃ row ∈ rows, budgetDetail row = detail := by
  rcases List.mem_append.mp h with h | h
  · exact List.mem_map.mp h
  · obtain ⟨request, -, rfl⟩ := List.mem_map.mp h
    cases hkind

/-- A ledger a request touches is the ledger of one of its rows. -/
theorem row_of_detailAmount_ne_zero {rows : List BudgetRow} {windows : List WindowReservation}
    {ledger : LedgerKey} (hnodup : (rows.map BudgetRow.key).Nodup)
    (h : detailAmount .budget (rows.map budgetDetail ++ windows.map windowDetail) ledger ≠ 0) :
    ∃ row ∈ rows, row.key = ledger ∧
      detailAmount .budget (rows.map budgetDetail ++ windows.map windowDetail) ledger =
        row.amount := by
  rw [detailAmount, detailSum_rows] at h
  by_cases hmem : ledger ∈ rows.map BudgetRow.key
  · obtain ⟨row, hrow, rfl⟩ := List.mem_map.mp hmem
    refine ⟨row, hrow, rfl, ?_⟩
    rw [detailAmount, detailSum_rows]
    exact sum_filter_key hnodup hrow _
  · exact absurd (sum_filter_key_of_not_mem hmem _) h

section Reserve

variable {limit : LedgerKey → Decimal} {now : Instant} {kv : KVState}
  {budgets : List BudgetReservation} {budget : Dict LedgerKey Decimal}
  {check : Option ReservationCheck}

/-- Rows no baseline is ahead of keep every total. -/
theorem budgetLoad_of_rows
    (hrows : ∀ row ∈ budgetRows budgets, row.limit = limit row.key ∧ 0 ≤ row.amount ∧
      row.baseline ≤ kv.total row.key)
    (loop : reserveBudgetRows (activeReservations kv.reservations now)
      ((budgetRows budgets).insertionSort fun a b => PairLE a.key b.key) kv.budget =
        (check, budget)) {after : KVState} (hafter : after.budget = budget) :
    budgetLoad after = budgetLoad kv := by
  funext ledger _
  have hspec := (reserveBudgetRows_spec (activeReservations kv.reservations now)
    ((budgetRows budgets).insertionSort fun a b => PairLE a.key b.key) kv.budget
    (fun row hrow => (hrows row ((List.mem_insertionSort _).mp hrow)).2.2)).1 ledger
  rw [loop] at hspec
  rw [budgetLoad, KVState.total, hafter]
  exact hspec

/-- A request whose rows pass fits on each ledger it touches. -/
theorem fits_of_rows {windows : List WindowReservation}
    (hscopes : (budgets.map BudgetReservation.scopeId).Nodup)
    (hrows : ∀ row ∈ budgetRows budgets, row.limit = limit row.key ∧ 0 ≤ row.amount ∧
      row.baseline ≤ kv.total row.key)
    (loop : reserveBudgetRows (activeReservations kv.reservations now)
      ((budgetRows budgets).insertionSort fun a b => PairLE a.key b.key) kv.budget =
        (none, budget)) (ledger : LedgerKey)
    (hne : detailAmount .budget (reservationDetails budgets windows) ledger ≠ 0) :
    budgetLoad kv ledger now
      + activeAmount (activeReservations kv.reservations now) .budget ledger.1 ledger.2
      + detailAmount .budget (reservationDetails budgets windows) ledger ≤ limit ledger := by
  obtain ⟨row, hrow, rfl, hamount⟩ :=
    row_of_detailAmount_ne_zero (nodup_keys_budgetRows hscopes) hne
  have hspec := (reserveBudgetRows_spec (activeReservations kv.reservations now)
    ((budgetRows budgets).insertionSort fun a b => PairLE a.key b.key) kv.budget
    (fun row hrow => (hrows row ((List.mem_insertionSort _).mp hrow)).2.2)).2
      (by rw [loop]) row ((List.mem_insertionSort _).mpr hrow)
  rw [reservationDetails, hamount, ← (hrows row hrow).1]
  exact hspec

theorem move_of_same_load {after : KVState} (hload : budgetLoad after = budgetLoad kv)
    (h : Step limit now (book .budget (budgetLoad kv) kv)
      (book .budget (budgetLoad kv) after)) :
    Step limit now (book .budget (budgetLoad kv) kv)
      (book .budget (budgetLoad after) after) := by
  rw [hload]
  exact h

end Reserve

/-- A disciplined transaction is a move of the budget book. -/
theorem budget_move {H : Digests} {limit : LedgerKey → Decimal} {s : Timeline} {i : Issued}
    {after : KVState} (hcommits : Commits H i.now s.kv i.call after)
    (hdiscipline : BudgetDiscipline limit s i) :
    Step limit i.now (book .budget (budgetLoad s.kv) s.kv)
      (book .budget (budgetLoad after) after) := by
  obtain ⟨kv, clock, history⟩ := s
  obtain ⟨now, call⟩ := i
  obtain ⟨-, hcall⟩ := hdiscipline
  dsimp only at hcommits hcall ⊢
  cases hcommits with
  | unchanged => exact .idle
  | refusedByBudget rows =>
      refine move_of_same_load (budgetLoad_of_rows hcall.2 rows rfl) ?_
      exact .idle
  | refusedByWindow rows =>
      refine move_of_same_load (budgetLoad_of_rows hcall.2 rows rfl) ?_
      exact .idle
  | admitted fresh rows room state details =>
      refine move_of_same_load (budgetLoad_of_rows hcall.2 rows rfl) ?_
      refine move_of_admitted rfl fresh state ?_ ?_
      · intro detail hdetail hkind
        rw [details] at hdetail
        obtain ⟨row, hrow, rfl⟩ := mem_budgetDetails hdetail hkind
        exact (hcall.2 row hrow).2.1
      · rw [details]
        exact fits_of_rows hcall.1 hcall.2 rows
  | settled found active nonempty loop state details =>
      obtain ⟨hlive, hcharges⟩ := hcall _ found active
      refine move_of_settled rfl found active state hlive ?_ (fun _ _ _ _ _ => le_rfl)
      intro ledger t _
      have htotal := settleDetails_total loop ledger
      calc
        _ = kv.total ledger + chargeOn .budget _ _ ledger := htotal
        _ ≤ kv.total ledger + detailAmount .budget _ ledger :=
          add_le_add_right (detailSum_le hcharges ledger) _
  | released found active state details => exact move_of_released found active state
  | renewed found active live => exact move_of_renewed found active live

/-- One disciplined step keeps the budget book sound. -/
theorem budget_step (H : Digests) {limit : LedgerKey → Decimal} (s : Timeline) (i : Issued)
    (hs : Sound limit s.clock (book .budget (budgetLoad s.kv) s.kv))
    (hdiscipline : BudgetDiscipline limit s i) :
    Sound limit (s.step H i).clock
      (book .budget (budgetLoad (s.step H i).kv) (s.step H i).kv) := by
  unfold Timeline.step
  split
  · exact hs.later hdiscipline.1
  · next hperform =>
      exact hs.step hdiscipline.1 (budget_move (commits_of_perform hperform) hdiscipline)

theorem budget_start {limit : LedgerKey → Decimal} (hlimit : ∀ ledger, 0 ≤ limit ledger)
    (clock : Instant) :
    Sound limit clock (book .budget (budgetLoad (Timeline.start clock).kv)
      (Timeline.start clock).kv) where
  aging _ _ _ _ _ := le_rfl
  nonneg _ _ h := by cases h
  within ledger t _ := by
    have hempty : (book .budget (budgetLoad (Timeline.start clock).kv)
        (Timeline.start clock).kv).load ledger t + (book .budget
          (budgetLoad (Timeline.start clock).kv) (Timeline.start clock).kv).held ledger t = 0 :=
      add_zero 0
    rw [hempty]
    exact hlimit ledger

/-- In every state of a disciplined run, the settled total of a budget ledger and
its unexpired active reservations stay within its limit. -/
theorem budget_never_overcommitted (H : Digests) (limit : LedgerKey → Decimal)
    (hlimit : ∀ ledger, 0 ≤ limit ledger) (clock : Instant) (issued : List Issued)
    (hrun : Machine.Along (Timeline.step H) (BudgetDiscipline limit) (.start clock) issued)
    (ledger : LedgerKey) (t : Instant)
    (ht : (Machine.run (Timeline.step H) (.start clock) issued).clock ≤ t) :
    (Machine.run (Timeline.step H) (.start clock) issued).kv.total ledger +
      activeAmount (activeReservations
        (Machine.run (Timeline.step H) (.start clock) issued).kv.reservations t)
        .budget ledger.1 ledger.2 ≤ limit ledger := by
  have hsound := Machine.invariant_run
    (fun s => Sound limit s.clock (book .budget (budgetLoad s.kv) s.kv))
    (fun s i hs hi => budget_step H s i hs hi) (budget_start hlimit clock) hrun
  have hwithin := hsound.within ledger t ht
  rwa [held_book] at hwithin

/-- Two clients draw on one scope; the second is refused while the lease of the
first is live, and served once it is settled. -/
def sharedScopeRun : List Issued :=
  let request (amount : Decimal) : BudgetReservation :=
    ⟨"scope", .ofList [("steps", 3)], ∅, .ofList [("steps", amount)]⟩
  [⟨0, .reserve "first" [request 2] [] 60⟩,
    ⟨1, .reserve "second" [request 2] [] 60⟩,
    ⟨2, .renew "first" 60⟩,
    ⟨3, .settle "first" (.ofList [("steps", 1)])⟩,
    ⟨4, .reserve "second" [request 2] [] 60⟩]

theorem budget_never_overcommitted_sharedScopeRun :
    let s := Machine.run (Timeline.step ⟨fun _ => "", fun _ => ""⟩) (.start 0) sharedScopeRun
    s.kv.total ("scope", "steps") +
      activeAmount (activeReservations s.kv.reservations 5) .budget "scope" "steps" ≤ 3 :=
  budget_never_overcommitted _ (fun _ => 3) (fun _ => by norm_num) 0 sharedScopeRun
    (by decide +kernel) ("scope", "steps") 5 (by decide +kernel)

end Pollard.Stores.Transactional
