import Pollard.Stores.SqliteSettlement

/-!
# The loops of the two arbiters

The SQLite arbiter keeps one row for each detail of an open reservation, the
transactional arbiter one record with all of them.  Where the rows are those of the
active records, the loops of a reserve transaction take the same decisions.
-/

namespace Pollard.Stores.Sqlite

open Lib Transactional

/-! ## The order of the checks -/

theorem pairwise_checkedRows {budgets : List BudgetReservation}
    (hscopes : (budgets.map BudgetReservation.scopeId).Nodup) :
    (checkedRows budgets).Pairwise fun a b => PairLE a.key b.key := by
  rw [checkedRows, List.pairwise_flatMap]
  constructor
  · intro request _
    have hsorted : (sortedItems request.limits).Pairwise fun a b => a.1 ≤ b.1 :=
      List.pairwise_insertionSort (fun a b : String × Decimal => a.1 ≤ b.1) _
    rw [sortedRows, List.pairwise_map]
    exact (hsorted.filter _).imp fun h => .inr ⟨rfl, h⟩
  · have hsorted : (budgets.insertionSort fun a b => a.scopeId ≤ b.scopeId).Pairwise
        fun a b => a.scopeId ≤ b.scopeId :=
      List.pairwise_insertionSort (fun a b : BudgetReservation => a.scopeId ≤ b.scopeId) _
    have hdistinct : (budgets.insertionSort fun a b => a.scopeId ≤ b.scopeId).Pairwise
        fun a b => a.scopeId ≠ b.scopeId := by
      rw [← List.pairwise_map]
      exact ((List.perm_insertionSort _ budgets).map _).nodup_iff.mpr hscopes
    refine (hsorted.and hdistinct).imp fun hand x hx y hy => ?_
    obtain ⟨_, -, rfl⟩ := List.mem_map.mp hx
    obtain ⟨_, -, rfl⟩ := List.mem_map.mp hy
    exact .inl (lt_of_le_of_ne hand.1 hand.2)

/-- With distinct scopes both arbiters check the same rows in the same order. -/
theorem insertionSort_budgetRows {budgets : List BudgetReservation}
    (hscopes : (budgets.map BudgetReservation.scopeId).Nodup) :
    (budgetRows budgets).insertionSort (fun a b => PairLE a.key b.key) =
      checkedRows budgets := by
  have hperm : (budgetRows budgets).Perm (checkedRows budgets) :=
    (perm_budgetRows budgets).symm.trans
      ((List.perm_insertionSort _ budgets).flatMap_right sortedRows).symm
  have hkeys : ∀ a ∈ budgetRows budgets, ∀ b ∈ budgetRows budgets, a.key = b.key → a = b :=
    fun a ha b hb => (List.inj_on_of_nodup_map (nodup_keys_budgetRows hscopes)) ha hb
  rw [insertionSort_eq_of_perm hkeys hperm]
  exact List.Pairwise.insertionSort_eq (pairwise_checkedRows hscopes)

/-- A request inserts the rows of its details. -/
theorem perm_insertedDetails (budgets : List BudgetReservation)
    (windows : List WindowReservation) :
    (insertedDetails budgets windows).Perm (reservationDetails budgets windows) :=
  ((perm_budgetRows budgets).map budgetDetail).append_right _

/-! ## Open reservations -/

/-- The row of a detail. -/
def detailRow (expiresAt : Option Instant) (reservationId : String) (detail : Detail) :
    ReservationKey × ReservationRow :=
  (reservationKey reservationId detail, ⟨detail.amount, expiresAt, detail.windowSeconds⟩)

/-- The rows the SQLite arbiter holds for a record of the transactional one. -/
def recordRows (inMemory : Bool) (e : String × ReservationRecord) :
    List (ReservationKey × ReservationRow) :=
  if e.2.state = .active then
    e.2.details.map (detailRow (if inMemory then none else some e.2.expiresAt) e.1)
  else []

theorem recordRows_active {inMemory : Bool} {e : String × ReservationRecord}
    (h : e.2.state = .active) : recordRows inMemory e =
      e.2.details.map (detailRow (if inMemory then none else some e.2.expiresAt) e.1) :=
  if_pos h

theorem recordRows_closed {inMemory : Bool} {e : String × ReservationRecord}
    (h : e.2.state ≠ .active) : recordRows inMemory e = [] :=
  if_neg h

theorem reservationId_of_mem_recordRows {inMemory : Bool} {e : String × ReservationRecord}
    {row : ReservationKey × ReservationRow} (h : row ∈ recordRows inMemory e) :
    row.1.reservationId = e.1 := by
  rw [recordRows] at h
  split at h
  · obtain ⟨detail, -, rfl⟩ := List.mem_map.mp h
    rfl
  · cases h

/-- The rows of the SQLite table are those of the active records. -/
def SameRows (inMemory : Bool) (reservations : Dict ReservationKey ReservationRow)
    (records : Dict String ReservationRecord) : Prop :=
  reservations.entries.Perm (records.entries.flatMap (recordRows inMemory))

/-- No active record has outlived its lease. -/
def Unexpired (records : Dict String ReservationRecord) (now : Instant) : Prop :=
  ∀ record ∈ records.values, record.state = .active → now < record.expiresAt

/-- The amounts held by the details that a test on keys selects. -/
theorem activeAmount_eq_sum {inMemory : Bool}
    {reservations : Dict ReservationKey ReservationRow}
    {records : Dict String ReservationRecord} (h : SameRows inMemory reservations records)
    {now : Instant} (hlive : inMemory = true → Unexpired records now)
    {selects : ReservationKey → Bool} {selected : Detail → Bool}
    (hselects : ∀ e ∈ records.entries, ∀ detail ∈ e.2.details,
      selects (reservationKey e.1 detail) = selected detail) :
    activeAmount reservations now selects =
      ((activeReservations records now).map fun reservation =>
        ((reservation.details.filter selected).map Detail.amount).sum).sum := by
  have hsum : activeAmount reservations now selects =
      (((records.entries.flatMap (recordRows inMemory)).filter fun e =>
        selects e.1 ∧ e.2.live now).map fun e => e.2.amount).sum :=
    ((h.filter _).map _).sum_eq
  rw [hsum, activeReservations, Dict.values]
  have hlive' : inMemory = true → ∀ e ∈ records.entries, e.2.state = .active →
      now < e.2.expiresAt := fun hmemory e he =>
    hlive hmemory e.2 (List.mem_map_of_mem he)
  clear hsum hlive h
  generalize records.entries = entries at hselects hlive' ⊢
  induction entries with
  | nil => rfl
  | cons e entries ih =>
      rw [List.forall_mem_cons] at hselects
      have htail := ih hselects.2 fun hmemory e he => hlive' hmemory e (List.mem_cons_of_mem _ he)
      rw [List.flatMap_cons, List.filter_append, List.map_append, List.sum_append, htail,
        List.map_cons, List.filter_cons]
      by_cases hactive : e.2.state = .active
      · rw [recordRows_active hactive]
        by_cases hunexpired : now < e.2.expiresAt
        · have hrows : (e.2.details.map (detailRow
              (if inMemory then none else some e.2.expiresAt) e.1)).filter (fun row =>
                selects row.1 ∧ row.2.live now) = (e.2.details.filter selected).map
                  (detailRow (if inMemory then none else some e.2.expiresAt) e.1) := by
            rw [List.filter_map]
            congr 1
            refine List.filter_congr fun detail hdetail => ?_
            cases inMemory <;>
              simp [detailRow, ReservationRow.live, hunexpired, hselects.1 detail hdetail]
          have hopen : decide (e.2.state = .active ∧ e.2.expiresAt > now) = true :=
            decide_eq_true ⟨hactive, hunexpired⟩
          rw [hrows, if_pos hopen, List.map_cons, List.sum_cons, List.map_map]
          rfl
        · have hdisk : inMemory = false := by
            cases inMemory with
            | false => rfl
            | true => exact absurd (hlive' rfl e List.mem_cons_self hactive) hunexpired
          have hnone : (e.2.details.map (detailRow
              (if inMemory then none else some e.2.expiresAt) e.1)).filter (fun row =>
                selects row.1 ∧ row.2.live now) = [] := by
            rw [List.filter_eq_nil_iff]
            rintro row hrow
            obtain ⟨detail, -, rfl⟩ := List.mem_map.mp hrow
            simp [detailRow, ReservationRow.live, hdisk, hunexpired]
          have hover : ¬ decide (e.2.state = .active ∧ e.2.expiresAt > now) = true := fun h =>
            hunexpired (of_decide_eq_true h).2
          rw [hnone, if_neg hover, List.map_nil, List.sum_nil, zero_add]
      · have hclosed : ¬ decide (e.2.state = .active ∧ e.2.expiresAt > now) = true := fun h =>
          hactive (of_decide_eq_true h).1
        rw [recordRows_closed hactive, if_neg hclosed, List.filter_nil, List.map_nil,
          List.sum_nil, zero_add]

/-- Both arbiters see the same amount held on a budget ledger. -/
theorem activeAmount_budget {inMemory : Bool}
    {reservations : Dict ReservationKey ReservationRow}
    {records : Dict String ReservationRecord} (h : SameRows inMemory reservations records)
    {now : Instant} (hlive : inMemory = true → Unexpired records now)
    (scopeId meter : String) :
    activeAmount reservations now (fun key =>
        key.kind = .budget ∧ key.scopeId = scopeId ∧ key.meter = meter) =
      Transactional.activeAmount (activeReservations records now) .budget scopeId meter :=
  activeAmount_eq_sum h hlive fun _ _ _ _ => rfl

/-! ## The budget loop -/

theorem settledOf_eq {stored stored' : Option Decimal} {baseline : Decimal}
    (h : stored.getD 0 = stored'.getD 0) (hbase : 0 ≤ baseline) :
    settledOf stored baseline = settledTotal stored' baseline := by
  rw [settledTotal, ← h]
  cases stored with
  | some settled => rfl
  | none =>
      rw [settledOf, Option.getD_none]
      split
      · rfl
      · next hle => exact le_antisymm (not_lt.mp hle) hbase

/-- On equal totals the budget loops decide alike, and leave equal totals. -/
theorem reserveBudgets_agree {inMemory : Bool}
    {reservations : Dict ReservationKey ReservationRow}
    {records : Dict String ReservationRecord} (h : SameRows inMemory reservations records)
    {now : Instant} (hlive : inMemory = true → Unexpired records now) (rows : List BudgetRow)
    (hbase : ∀ row ∈ rows, 0 ≤ row.baseline) {budgetState budget : Dict LedgerKey Decimal}
    (htotals : ∀ ledger, budgetState.getD ledger 0 = budget.getD ledger 0) :
    (reserveBudgets reservations now rows budgetState).1 =
      (reserveBudgetRows (activeReservations records now) rows budget).1 ∧
    ∀ ledger, (reserveBudgets reservations now rows budgetState).2.getD ledger 0 =
      (reserveBudgetRows (activeReservations records now) rows budget).2.getD ledger 0 := by
  induction rows generalizing budgetState budget with
  | nil => exact ⟨rfl, htotals⟩
  | cons row rows ih =>
      rw [List.forall_mem_cons] at hbase
      have hsettled : settledOf (budgetState.get? row.key) row.baseline =
          settledTotal (budget.get? row.key) row.baseline :=
        settledOf_eq (htotals row.key) hbase.1
      -- one arbiter always writes the total, the other only a new one
      have hwritten : ∀ ledger, (budgetState.set row.key
          (settledOf (budgetState.get? row.key) row.baseline)).getD ledger 0 =
            (if budget.get? row.key ≠ some (settledTotal (budget.get? row.key) row.baseline) then
              budget.set row.key (settledTotal (budget.get? row.key) row.baseline)
            else budget).getD ledger 0 := by
        intro ledger
        rw [hsettled, Dict.getD_set, htotals]
        by_cases hstored : budget.get? row.key =
            some (settledTotal (budget.get? row.key) row.baseline)
        · rw [if_neg (not_not.mpr hstored)]
          split
          · next heq =>
              subst heq
              exact (congrArg (Option.getD · 0) hstored).symm
          · rfl
        · rw [if_pos hstored, Dict.getD_set]
      simp only [reserveBudgets, reserveBudgetRows]
      rw [activeAmount_budget h hlive]
      simp only [hsettled] at hwritten ⊢
      split
      · exact ⟨rfl, hwritten⟩
      · exact ih hbase.2 hwritten

/-! ## The window loop -/

/-- What the stored events count against a window at an instant. -/
def windowSum (events : List SettledEvent) (now : Instant) (request : WindowReservation) :
    Decimal :=
  ((events.filter fun event =>
    event.scopeId = request.ledgerKey ∧ event.settledAt > now - request.windowSeconds).map
      SettledEvent.amount).sum

/-- Requests that name one ledger key agree on its meter, limit and length. -/
def Consistent (requests : List WindowReservation) : Prop :=
  ∀ a ∈ requests, ∀ b ∈ requests, a.ledgerKey = b.ledgerKey →
    a.meter = b.meter ∧ a.limit = b.limit ∧ a.windowSeconds = b.windowSeconds

/-- The two arbiters count the same for each of these windows from an instant on. -/
def SameSums (requests : List WindowReservation) (clock : Instant)
    (events : List SettledEvent) (events' : List WindowEvent) : Prop :=
  ∀ request ∈ requests, ∀ t, clock ≤ t →
    windowSum events t request = windowSettled events' t request

/-- Events that one of the windows has outlived count for none of them any more. -/
theorem windowSum_filter {all : List WindowReservation} (hall : Consistent all)
    {request other : WindowReservation} (hrequest : request ∈ all) (hother : other ∈ all)
    {now t : Instant} (ht : now ≤ t) (events : List SettledEvent) :
    windowSum (events.filter fun event =>
      ¬ (event.scopeId = request.ledgerKey ∧ event.settledAt ≤ now - request.windowSeconds))
        t other = windowSum events t other := by
  rw [windowSum, windowSum, List.filter_filter]
  congr 2
  refine List.filter_congr fun event _ => ?_
  rw [Bool.and_eq_left_iff_imp, decide_eq_true_eq, decide_eq_true_eq]
  rintro ⟨hscope, hrecent⟩ ⟨hsame, hold⟩
  have hlength := (hall request hrequest other hother (hsame.symm.trans hscope)).2.2
  rw [hlength] at hold
  linarith

/-- On equal sums the window loops decide alike, and dropping events changes no sum. -/
theorem reserveWindows_agree {all : List WindowReservation} (hall : Consistent all)
    {reservations : Dict ReservationKey ReservationRow} {active : List ReservationRecord}
    {now : Instant}
    (hactive : ∀ request ∈ all, activeAmount reservations now (fun key =>
        key.kind = .window ∧ key.scopeId = request.ledgerKey) =
      Transactional.activeAmount active .window request.ledgerKey request.meter)
    {events' : List WindowEvent} {requests : List WindowReservation}
    (hrequests : ∀ request ∈ requests, request ∈ all) {events : List SettledEvent}
    (hsums : SameSums all now events events') :
    (reserveWindows reservations now requests events).1 =
      Transactional.reserveWindows active events' now requests ∧
    SameSums all now (reserveWindows reservations now requests events).2 events' := by
  induction requests generalizing events with
  | nil => exact ⟨rfl, hsums⟩
  | cons request requests ih =>
      rw [List.forall_mem_cons] at hrequests
      have hkept : SameSums all now (events.filter fun event =>
          ¬ (event.scopeId = request.ledgerKey ∧
            event.settledAt ≤ now - request.windowSeconds)) events' :=
        fun other hother t ht => (windowSum_filter hall hrequests.1 hother ht events).trans
          (hsums other hother t ht)
      have hsettled := hkept request hrequests.1 now le_rfl
      rw [windowSum] at hsettled
      simp only [reserveWindows, Transactional.reserveWindows]
      rw [hactive request hrequests.1, hsettled]
      split
      · exact ⟨rfl, hkept⟩
      · exact ih hrequests.2 hkept

/-- Pruning drops only events that their windows have outlived. -/
theorem windowSettled_pruneEvents {events : Dict (String × ℕ) WindowEvent}
    {request : WindowReservation}
    (hlength : ∀ event ∈ events.values, event.scopeId = request.ledgerKey →
      event.windowSeconds = request.windowSeconds) {now t : Instant} (ht : now ≤ t) :
    windowSettled (pruneEvents events now).values t request =
      windowSettled events.values t request := by
  rw [windowSettled, windowSettled, pruneEvents, Dict.values, Dict.values, Dict.filter,
    List.filter_map, List.filter_map, List.filter_filter]
  congr 3
  refine List.filter_congr fun e he => ?_
  rw [Bool.and_eq_left_iff_imp, Function.comp_apply, decide_eq_true_eq, decide_eq_true_eq]
  rintro ⟨hscope, -, hrecent⟩ hold
  rw [hlength e.2 (List.mem_map_of_mem he) hscope] at hold
  linarith

end Pollard.Stores.Sqlite
