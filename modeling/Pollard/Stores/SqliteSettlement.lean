import Pollard.Stores.Sqlite
import Pollard.Stores.Settlement
import Pollard.Lib.Machine

/-!
# Settling a reservation of the SQLite arbiter

A request whose rows have pairwise distinct keys is inserted without an error.  Its rows
stay what they are until it is settled, and the settlement adds each charge once.
-/

namespace Pollard.Stores.Sqlite

open Lib Transactional

def SqliteState.total (db : SqliteState) (ledger : LedgerKey) : Decimal :=
  db.budgetState.getD ledger 0

/-- The tables hold these rows for a reservation, and the ledgers of its budget rows. -/
structure Held (reservationId : String) (details : List Detail) (db : SqliteState) : Prop where
  rows : rowsOf reservationId db = details.map (reservationKey reservationId)
  ledgers : ∀ detail ∈ details, detail.kind = .budget →
    (db.budgetState.get? (detail.scopeId, detail.meter)).isSome

/-! ## Reserving -/

theorem reserveBudgets_present (reservations : Dict ReservationKey ReservationRow)
    (now : Instant) (rows : List BudgetRow) (budgetState : Dict LedgerKey Decimal) :
    (∀ ledger, (budgetState.get? ledger).isSome →
      ((reserveBudgets reservations now rows budgetState).2.get? ledger).isSome) ∧
    ((reserveBudgets reservations now rows budgetState).1 = none → ∀ row ∈ rows,
      ((reserveBudgets reservations now rows budgetState).2.get? row.key).isSome) := by
  induction rows generalizing budgetState with
  | nil => exact ⟨fun _ h => h, by simp⟩
  | cons row rows ih =>
      have hset : ∀ (settled : Decimal) ledger, (budgetState.get? ledger).isSome →
          ((budgetState.set row.key settled).get? ledger).isSome := by
        intro settled ledger h
        rw [Dict.get?_set]
        split
        · rfl
        · exact h
      rw [reserveBudgets]
      split
      · exact ⟨fun ledger h => hset _ ledger h, fun h => by cases h⟩
      · obtain ⟨hkept, hmade⟩ := ih (budgetState.set row.key
          (settledOf (budgetState.get? row.key) row.baseline))
        refine ⟨fun ledger h => hkept ledger (hset _ ledger h), fun hnone other hother => ?_⟩
        rcases List.mem_cons.mp hother with rfl | hother
        · exact hkept _ (by simp)
        · exact hmade hnone other hother

theorem insertReservations_ok {reservationId : String} {expiresAt : Option Instant}
    {details : List Detail} {reservations after : Dict ReservationKey ReservationRow}
    (h : insertReservations reservationId expiresAt details reservations = .ok after) :
    after.entries.map Prod.fst =
      reservations.entries.map Prod.fst ++ details.map (reservationKey reservationId) := by
  induction details generalizing reservations with
  | nil =>
      cases h
      simp
  | cons detail details ih =>
      rw [insertReservations] at h
      split at h
      · cases h
      · next hfresh =>
          rw [Option.isSome_iff_ne_none, not_not] at hfresh
          rw [ih h, Dict.entries_set_of_get?_none _ hfresh]
          simp

/-- Rows with new and pairwise distinct keys are inserted. -/
theorem insertReservations_returns {reservationId : String} {expiresAt : Option Instant}
    {details : List Detail} {reservations : Dict ReservationKey ReservationRow}
    (hnodup : (details.map (reservationKey reservationId)).Nodup)
    (hfresh : ∀ detail ∈ details,
      reservations.get? (reservationKey reservationId detail) = none) :
    ∃ after, insertReservations reservationId expiresAt details reservations = .ok after := by
  induction details generalizing reservations with
  | nil => exact ⟨reservations, rfl⟩
  | cons detail details ih =>
      rw [List.map_cons, List.nodup_cons] at hnodup
      rw [List.forall_mem_cons] at hfresh
      rw [insertReservations]
      rw [if_neg (by simp [hfresh.1])]
      refine ih hnodup.2 fun other hother => ?_
      rw [Dict.get?_set_of_ne, hfresh.2 other hother]
      intro heq
      exact hnodup.1 (heq ▸ List.mem_map_of_mem hother)

/-- A reservation without rows has none of these keys. -/
theorem get?_of_rowsOf_nil {reservationId : String} {db : SqliteState}
    (h : rowsOf reservationId db = []) (detail : Detail) :
    db.reservations.get? (reservationKey reservationId detail) = none := by
  by_contra hsome
  obtain ⟨row, hrow⟩ := Option.ne_none_iff_exists'.mp hsome
  have hmem : reservationKey reservationId detail ∈ rowsOf reservationId db :=
    List.mem_filter.mpr
      ⟨List.mem_map_of_mem (f := Prod.fst) (Dict.mem_entries_iff.mpr hrow), by
        simp [reservationKey]⟩
  rw [h] at hmem
  cases hmem

/-- Reserving does not raise for rows with pairwise distinct keys. -/
theorem reserve_returns (inMemory : Bool) (now : Instant) {reservationId : String}
    {budgets : List BudgetReservation} {windows : List WindowReservation} (leaseSeconds : ℚ)
    {db : SqliteState} (hfresh : rowsOf reservationId db = [])
    (hnodup : ((insertedDetails budgets windows).map (reservationKey reservationId)).Nodup) :
    ∃ check after,
      reserve inMemory now reservationId budgets windows leaseSeconds db = .ok (check, after) := by
  unfold reserve
  split
  · exact ⟨_, _, rfl⟩
  · split
    · exact ⟨_, _, rfl⟩
    · have hinserted : ∃ reservations, insertReservations reservationId
          (if inMemory then none else some (now + leaseSeconds))
          (insertedDetails budgets windows) db.reservations = .ok reservations :=
        insertReservations_returns hnodup fun detail _ => get?_of_rowsOf_nil hfresh detail
      obtain ⟨reservations, h⟩ := hinserted
      rw [h]
      exact ⟨_, _, rfl⟩

theorem mem_checkedRows {budgets : List BudgetReservation} {row : BudgetRow} :
    row ∈ checkedRows budgets ↔ row ∈ budgets.flatMap sortedRows := by
  simp [checkedRows, List.mem_flatMap, List.mem_insertionSort]

theorem reserveBudgets_refused {reservations : Dict ReservationKey ReservationRow}
    {now : Instant} {rows : List BudgetRow} {budgetState after : Dict LedgerKey Decimal}
    {refused : ReservationCheck}
    (h : reserveBudgets reservations now rows budgetState = (some refused, after)) :
    refused.ok = false := by
  induction rows generalizing budgetState with
  | nil => cases h
  | cons row rows ih =>
      rw [reserveBudgets] at h
      split at h
      · cases h
        rfl
      · exact ih h

theorem reserveWindows_refused {reservations : Dict ReservationKey ReservationRow}
    {now : Instant} {requests : List WindowReservation} {events after : List SettledEvent}
    {refused : ReservationCheck}
    (h : reserveWindows reservations now requests events = (some refused, after)) :
    refused.ok = false := by
  induction requests generalizing events with
  | nil => cases h
  | cons request requests ih =>
      rw [reserveWindows] at h
      split at h
      · cases h
        rfl
      · exact ih h

/-- An accepted reservation is held. -/
theorem held_of_reserve {inMemory : Bool} {now : Instant} {reservationId : String}
    {budgets : List BudgetReservation} {windows : List WindowReservation} {leaseSeconds : ℚ}
    {db after : SqliteState} {check : ReservationCheck}
    (hfresh : rowsOf reservationId db = [])
    (h : reserve inMemory now reservationId budgets windows leaseSeconds db =
      .ok (check, after)) (hok : check.ok = true) :
    Held reservationId (insertedDetails budgets windows) after := by
  unfold reserve at h
  split at h
  · next hbudgets =>
      cases h
      rw [reserveBudgets_refused hbudgets] at hok
      cases hok
  · next budgetState hbudgets =>
      split at h
      · next hwindows =>
          cases h
          rw [reserveWindows_refused hwindows] at hok
          cases hok
      · next windowEvents hwindows =>
          cases hinsert : insertReservations reservationId
              (if inMemory then none else some (now + leaseSeconds))
              (insertedDetails budgets windows) db.reservations with
          | error e =>
              rw [hinsert] at h
              cases h
          | ok reservations =>
              rw [hinsert] at h
              cases h
              constructor
              · have hall : ((insertedDetails budgets windows).map
                    (reservationKey reservationId)).filter
                      (fun key => key.reservationId = reservationId) =
                    (insertedDetails budgets windows).map (reservationKey reservationId) := by
                  rw [List.filter_eq_self]
                  intro key hkey
                  obtain ⟨detail, -, rfl⟩ := List.mem_map.mp hkey
                  simp [reservationKey]
                rw [rowsOf, insertReservations_ok hinsert, List.filter_append, hall]
                rw [rowsOf] at hfresh
                rw [hfresh, List.nil_append]
              · intro detail hdetail hkind
                rcases List.mem_append.mp hdetail with hdetail | hdetail
                · obtain ⟨row, hrow, rfl⟩ := List.mem_map.mp hdetail
                  have hmade := (reserveBudgets_present db.reservations now
                    (checkedRows budgets) db.budgetState).2 (by rw [hbudgets]) row
                      (mem_checkedRows.mpr hrow)
                  rw [hbudgets] at hmade
                  exact hmade
                · obtain ⟨request, -, rfl⟩ := List.mem_map.mp hdetail
                  cases hkind

/-! ## Other transactions -/

theorem reserve_ok {inMemory : Bool} {now : Instant} {reservationId : String}
    {budgets : List BudgetReservation} {windows : List WindowReservation} {leaseSeconds : ℚ}
    {db after : SqliteState} {check : ReservationCheck}
    (h : reserve inMemory now reservationId budgets windows leaseSeconds db =
      .ok (check, after)) :
    after.budgetState =
      (reserveBudgets db.reservations now (checkedRows budgets) db.budgetState).2 ∧
    (after.reservations = db.reservations ∨ ∃ expiresAt,
      insertReservations reservationId expiresAt (insertedDetails budgets windows)
        db.reservations = .ok after.reservations) := by
  unfold reserve at h
  split at h
  · next hbudgets =>
      cases h
      exact ⟨by rw [hbudgets], .inl rfl⟩
  · next hbudgets =>
      split at h
      · cases h
        exact ⟨by rw [hbudgets], .inl rfl⟩
      · cases hinsert : insertReservations reservationId
            (if inMemory then none else some (now + leaseSeconds))
            (insertedDetails budgets windows) db.reservations with
        | error e =>
            rw [hinsert] at h
            cases h
        | ok reservations =>
            rw [hinsert] at h
            cases h
            exact ⟨by rw [hbudgets], .inr ⟨_, hinsert⟩⟩

theorem settleRows_ok {charges : Dict String Decimal} {now : Instant}
    {keys : List ReservationKey} {db after : SqliteState}
    (h : settleRows charges now keys db = .ok after) :
    after.reservations = db.reservations ∧ ∀ ledger,
      (db.budgetState.get? ledger).isSome → (after.budgetState.get? ledger).isSome := by
  induction keys generalizing db with
  | nil =>
      cases h
      exact ⟨rfl, fun _ h => h⟩
  | cons key keys ih =>
      rw [settleRows] at h
      split at h
      · split at h
        · cases h
        · obtain ⟨hreservations, hkept⟩ := ih h
          refine ⟨hreservations, fun ledger hledger => hkept ledger ?_⟩
          dsimp only
          rw [Dict.get?_set]
          split
          · rfl
          · exact hledger
      · obtain ⟨hreservations, hkept⟩ := ih h
        split at hreservations
        · next hzero => exact ⟨hreservations, by simpa only [if_pos hzero] using hkept⟩
        · next hzero => exact ⟨hreservations, by simpa only [if_neg hzero] using hkept⟩

theorem rowsOf_dropRows {reservationId other : String} (hne : other ≠ reservationId)
    (db : SqliteState) : rowsOf reservationId (dropRows other db) = rowsOf reservationId db := by
  simp only [rowsOf, dropRows, Dict.filter, List.filter_map, List.filter_filter]
  congr 1
  refine List.filter_congr fun e _ => ?_
  by_cases hrow : e.1.reservationId = reservationId
  · simp [hrow, hne.symm]
  · simp [hrow]

/-- The rows of a reservation stay when another one is inserted. -/
theorem rowsOf_insertReservations {reservationId other : String} (hne : other ≠ reservationId)
    {expiresAt : Option Instant} {details : List Detail} {db after : SqliteState}
    (h : insertReservations other expiresAt details db.reservations =
      .ok after.reservations) : rowsOf reservationId after = rowsOf reservationId db := by
  have hnone : (details.map (reservationKey other)).filter
      (fun key => key.reservationId = reservationId) = [] := by
    rw [List.filter_eq_nil_iff]
    intro key hkey
    obtain ⟨detail, -, rfl⟩ := List.mem_map.mp hkey
    simp [reservationKey, hne]
  rw [rowsOf, insertReservations_ok h, List.filter_append, hnone, List.append_nil]
  rfl

/-- The transaction is about another reservation, or extends a lease. -/
def Elsewhere (reservationId : String) : ClientCall → Prop
  | .reserve other _ _ _ => other ≠ reservationId
  | .settle other _ => other ≠ reservationId
  | .release other => other ≠ reservationId
  | .renew _ _ => True

/-- Other transactions leave a reservation held. -/
theorem Held.step {reservationId : String} {details : List Detail} {db : SqliteState}
    (h : Held reservationId details db) (inMemory : Bool) {i : Issued}
    (hcall : Elsewhere reservationId i.call) :
    Held reservationId details (db.step inMemory i) := by
  obtain ⟨now, call⟩ := i
  have hheld : ∀ after : SqliteState, rowsOf reservationId after = rowsOf reservationId db →
      (∀ ledger, (db.budgetState.get? ledger).isSome →
        (after.budgetState.get? ledger).isSome) → Held reservationId details after :=
    fun after hrows hkept => ⟨hrows.trans h.rows, fun detail hdetail hkind =>
      hkept _ (h.ledgers detail hdetail hkind)⟩
  unfold SqliteState.step
  cases call with
  | reserve other budgets windows leaseSeconds =>
      simp only [perform]
      cases hreserve : reserve inMemory now other budgets windows leaseSeconds db with
      | error e => exact h
      | ok reply =>
          obtain ⟨check, after⟩ := reply
          obtain ⟨hbudgets, hreservations⟩ := reserve_ok hreserve
          refine hheld after ?_ fun ledger hledger => ?_
          · rcases hreservations with hsame | ⟨expiresAt, hinsert⟩
            · rw [rowsOf, hsame, ← rowsOf]
            · exact rowsOf_insertReservations hcall hinsert
          · rw [hbudgets]
            exact (reserveBudgets_present db.reservations now _ db.budgetState).1 ledger hledger
  | settle other charges =>
      simp only [perform, settle]
      cases hsettle : settleRows charges now (rowsOf other db) db with
      | error e => exact h
      | ok after =>
          obtain ⟨hreservations, hkept⟩ := settleRows_ok hsettle
          change Held reservationId details (dropRows other after)
          refine hheld _ ?_ hkept
          rw [rowsOf_dropRows hcall, rowsOf, hreservations, ← rowsOf]
  | release other => exact hheld _ (rowsOf_dropRows hcall db) fun _ hledger => hledger
  | renew other leaseSeconds =>
      simp only [perform, renew]
      split
      · exact h
      · split
        · refine hheld _ ?_ fun _ hledger => hledger
          simp [rowsOf, Dict.mapEntries, Function.comp_def]
        · exact h

/-! ## Settling -/

/-- The ledgers of the budget rows. -/
def budgetLedgers (keys : List ReservationKey) : List LedgerKey :=
  (keys.filter fun key => key.kind = .budget).map fun key => (key.scopeId, key.meter)

/-- With the ledgers in place the loop cannot raise, and it adds the charge of each
budget row to its ledger. -/
theorem settleRows_returns (charges : Dict String Decimal) (now : Instant)
    (keys : List ReservationKey) (db : SqliteState)
    (h : ∀ ledger ∈ budgetLedgers keys, (db.budgetState.get? ledger).isSome) :
    ∃ after, settleRows charges now keys db = .ok after ∧ ∀ ledger, after.total ledger =
      db.total ledger + (budgetLedgers keys).count ledger * charges.getD ledger.2 0 := by
  induction keys generalizing db with
  | nil => exact ⟨db, rfl, by simp [budgetLedgers]⟩
  | cons key keys ih =>
      obtain ⟨reservationId, kind, scopeId, meter⟩ := key
      cases kind with
      | budget =>
          have hledgers : budgetLedgers (⟨reservationId, .budget, scopeId, meter⟩ :: keys) =
              (scopeId, meter) :: budgetLedgers keys := rfl
          rw [hledgers, List.forall_mem_cons] at h
          obtain ⟨settled, hsettled⟩ := Option.isSome_iff_exists.mp h.1
          obtain ⟨after, hafter, htotal⟩ := ih { db with
              budgetState := db.budgetState.set (scopeId, meter)
                (settled + charges.getD meter 0) } fun ledger hledger => by
            dsimp only
            rw [Dict.get?_set]
            split
            · rfl
            · exact h.2 ledger hledger
          refine ⟨after, by simpa only [settleRows, hsettled] using hafter, fun ledger => ?_⟩
          rw [htotal, hledgers, SqliteState.total, SqliteState.total, Dict.getD_set]
          split
          · next heq =>
              subst heq
              have hbefore : db.budgetState.getD (scopeId, meter) 0 = settled := by
                rw [Dict.getD, hsettled, Option.getD_some]
              rw [hbefore, List.count_cons_self]
              push_cast
              ring
          · next hne => rw [List.count_cons_of_ne hne]
      | window =>
          have hledgers : budgetLedgers (⟨reservationId, .window, scopeId, meter⟩ :: keys) =
              budgetLedgers keys := rfl
          rw [hledgers] at h ⊢
          rw [settleRows]
          dsimp only
          split
          · exact ih db h
          · exact ih _ h

/-- Settling a reservation that is held adds the charges once to each of its ledgers. -/
theorem Held.settles {reservationId : String} {details : List Detail} {db : SqliteState}
    (h : Held reservationId details db) (now : Instant) (charges : Dict String Decimal) :
    ∃ after, settle now reservationId charges db = .ok after ∧ ∀ ledger, after.total ledger =
      db.total ledger +
        (budgetLedgers (details.map (reservationKey reservationId))).count ledger *
          charges.getD ledger.2 0 := by
  obtain ⟨after, hafter, htotal⟩ := settleRows_returns charges now
    (rowsOf reservationId db) db fun ledger hledger => by
      rw [h.rows] at hledger
      obtain ⟨key, hkey, rfl⟩ := List.mem_map.mp hledger
      obtain ⟨hkey, hkind⟩ := List.mem_filter.mp hkey
      obtain ⟨detail, hdetail, rfl⟩ := List.mem_map.mp hkey
      exact h.ledgers detail hdetail (of_decide_eq_true hkind)
  refine ⟨dropRows reservationId after, by rw [settle, hafter]; rfl, fun ledger => ?_⟩
  rw [← h.rows, ← htotal ledger]
  rfl

/-! ## Requests with distinct scopes -/

theorem perm_budgetRows (budgets : List BudgetReservation) :
    (budgets.flatMap sortedRows).Perm (budgetRows budgets) := by
  refine List.Perm.flatMap_left budgets fun request _ => ?_
  exact (((List.perm_insertionSort _ request.limits.entries).filter _).map _)

theorem nodup_reservationKeys (reservationId : String) {budgets : List BudgetReservation}
    {windows : List WindowReservation} (hscopes : (budgets.map BudgetReservation.scopeId).Nodup)
    (hwindows : (windows.map windowKey).Nodup) :
    ((insertedDetails budgets windows).map (reservationKey reservationId)).Nodup := by
  rw [insertedDetails, List.map_append, List.map_map, List.map_map, List.nodup_append]
  refine ⟨?_, ?_, ?_⟩
  · have hrows : ((budgets.flatMap sortedRows).map BudgetRow.key).Nodup :=
      ((perm_budgetRows budgets).map _).nodup_iff.mpr (nodup_keys_budgetRows hscopes)
    have hkeys := hrows.map
      (f := fun ledger => ReservationKey.mk reservationId .budget ledger.1 ledger.2)
      fun a b hab => Prod.ext (congrArg ReservationKey.scopeId hab)
        (congrArg ReservationKey.meter hab)
    simpa [Function.comp_def, reservationKey, budgetDetail, BudgetRow.key] using hkeys
  · have hkeys := hwindows.map
      (f := fun ledger => ReservationKey.mk reservationId .window ledger.1 ledger.2)
      fun a b hab => Prod.ext (congrArg ReservationKey.scopeId hab)
        (congrArg ReservationKey.meter hab)
    simpa [Function.comp_def, reservationKey, windowDetail, windowKey] using hkeys
  · rintro key hbudget other hwindow rfl
    obtain ⟨row, -, rfl⟩ := List.mem_map.mp hbudget
    obtain ⟨request, -, heq⟩ := List.mem_map.mp hwindow
    cases congrArg ReservationKey.kind heq

theorem budgetLedgers_insertedDetails (reservationId : String)
    (budgets : List BudgetReservation) (windows : List WindowReservation) :
    budgetLedgers ((insertedDetails budgets windows).map (reservationKey reservationId)) =
      (budgets.flatMap sortedRows).map BudgetRow.key := by
  have hrows : ∀ rows : List BudgetRow, budgetLedgers
      ((rows.map budgetDetail).map (reservationKey reservationId)) =
        rows.map BudgetRow.key := by
    intro rows
    simp [budgetLedgers, List.filter_map, Function.comp_def, reservationKey, budgetDetail,
      BudgetRow.key]
  have hwindows : budgetLedgers
      ((windows.map windowDetail).map (reservationKey reservationId)) = [] := by
    simp [budgetLedgers, reservationKey, windowDetail]
  rw [insertedDetails, List.map_append, budgetLedgers, List.filter_append, List.map_append,
    ← budgetLedgers, ← budgetLedgers, hrows, hwindows, List.append_nil]

/-- A request with distinct scopes and windows is checked without an error.  Once it is
accepted, and whatever else the store does, its settlement adds the charges once to
each of its ledgers. -/
theorem charged_once (inMemory : Bool) (now : Instant) {reservationId : String}
    {budgets : List BudgetReservation} {windows : List WindowReservation} (leaseSeconds : ℚ)
    {db : SqliteState} (hfresh : rowsOf reservationId db = [])
    (hscopes : (budgets.map BudgetReservation.scopeId).Nodup)
    (hwindows : (windows.map windowKey).Nodup) :
    ∃ check accepted,
      reserve inMemory now reservationId budgets windows leaseSeconds db =
        .ok (check, accepted) ∧
      (check.ok = true → ∀ after : List Issued, (∀ i ∈ after, Elsewhere reservationId i.call) →
        ∀ settledAt charges, ∃ settled,
          settle settledAt reservationId charges
            (Machine.run (SqliteState.step inMemory) accepted after) = .ok settled ∧
          ∀ ledger, settled.total ledger =
            (Machine.run (SqliteState.step inMemory) accepted after).total ledger +
              if ledger ∈ (budgetRows budgets).map BudgetRow.key then charges.getD ledger.2 0
              else 0) := by
  obtain ⟨check, accepted, hreserve⟩ := reserve_returns inMemory now leaseSeconds hfresh
    (nodup_reservationKeys reservationId hscopes hwindows)
  refine ⟨check, accepted, hreserve, fun hok after hafter settledAt charges => ?_⟩
  have hheld : Held reservationId (insertedDetails budgets windows)
      (Machine.run (SqliteState.step inMemory) accepted after) :=
    Machine.invariant_run _ (fun _ _ h hi => h.step inMemory hi)
      (held_of_reserve hfresh hreserve hok) (Machine.along_of_forall hafter accepted)
  obtain ⟨settled, hsettled, htotal⟩ := hheld.settles settledAt charges
  refine ⟨settled, hsettled, fun ledger => ?_⟩
  have hrows := (perm_budgetRows budgets).map BudgetRow.key
  rw [htotal, budgetLedgers_insertedDetails, hrows.count_eq,
    count_mul_of_nodup (nodup_keys_budgetRows hscopes)]

end Pollard.Stores.Sqlite
