import Pollard.Stores.SqliteLoops
import Pollard.Stores.Retries

/-!
# The two arbiter families agree

The SQLite arbiter and the transactional one run the same trace of client calls.  A
simulation relation between their stores, kept by every call, gives the same answer to
every reserve call and the same totals and window sums at the end.
-/

namespace Pollard.Stores.Sqlite

open Lib Transactional

/-! ## Rows of one reservation -/

section Rows

variable {inMemory : Bool} {reservations : Dict ReservationKey ReservationRow}
  {records : Dict String ReservationRecord} {reservationId : String}

/-- The rows of other records carry other ids. -/
theorem filter_recordRows {entries : List (String × ReservationRecord)}
    (h : ∀ e ∈ entries, e.1 ≠ reservationId) :
    (entries.flatMap (recordRows inMemory)).filter
      (fun row => row.1.reservationId = reservationId) = [] := by
  rw [List.filter_eq_nil_iff]
  intro row hrow
  obtain ⟨e, he, hrow⟩ := List.mem_flatMap.mp hrow
  rw [decide_eq_true_eq, reservationId_of_mem_recordRows hrow]
  exact h e he

theorem filter_recordRows_self (record : ReservationRecord) :
    (recordRows inMemory (reservationId, record)).filter
      (fun row => row.1.reservationId = reservationId) =
        recordRows inMemory (reservationId, record) := by
  rw [List.filter_eq_self]
  intro row hrow
  rw [decide_eq_true_eq, reservationId_of_mem_recordRows hrow]

/-- The rows under an id are those of its record. -/
theorem SameRows.found (h : SameRows inMemory reservations records)
    {current : ReservationRecord} (found : records.get? reservationId = some current) :
    (reservations.entries.filter fun row => row.1.reservationId = reservationId).Perm
      (recordRows inMemory (reservationId, current)) := by
  obtain ⟨pre, post, hentries, -, hne⟩ := Dict.entries_set_of_get?_some current found
  have hpre := @filter_recordRows inMemory reservationId pre
    fun e he => hne e (List.mem_append_left post he)
  have hpost := @filter_recordRows inMemory reservationId post
    fun e he => hne e (List.mem_append_right pre he)
  refine (h.filter _).trans (List.Perm.of_eq ?_)
  rw [hentries, List.flatMap_append, List.flatMap_cons, List.filter_append, List.filter_append,
    hpre, hpost, filter_recordRows_self, List.nil_append, List.append_nil]

theorem SameRows.missing (h : SameRows inMemory reservations records)
    (missing : records.get? reservationId = none) :
    (reservations.entries.filter fun row => row.1.reservationId = reservationId) = [] := by
  have hnone := @filter_recordRows inMemory reservationId records.entries fun e he heq =>
      Dict.get?_eq_none_iff.mp missing (heq ▸ List.mem_map_of_mem he)
  have hperm := h.filter fun row => row.1.reservationId = reservationId
  rw [hnone] at hperm
  exact hperm.eq_nil

/-- A record that is not active has no rows. -/
theorem SameRows.closed (h : SameRows inMemory reservations records)
    {current : ReservationRecord} (found : records.get? reservationId = some current)
    (hclosed : current.state ≠ .active) :
    (reservations.entries.filter fun row => row.1.reservationId = reservationId) = [] := by
  have hperm := h.found found
  rw [recordRows_closed hclosed] at hperm
  exact hperm.eq_nil

/-- Closing a record is dropping its rows. -/
theorem SameRows.close (h : SameRows inMemory reservations records)
    {current record : ReservationRecord} (found : records.get? reservationId = some current)
    (hclosed : record.state ≠ .active) :
    SameRows inMemory (reservations.filter fun row => row.1.reservationId ≠ reservationId)
      (records.set reservationId record) := by
  obtain ⟨pre, post, hentries, hset, hne⟩ := Dict.entries_set_of_get?_some record found
  have hkept : ∀ entries : List (String × ReservationRecord), (∀ e ∈ entries,
      e.1 ≠ reservationId) → (entries.flatMap (recordRows inMemory)).filter
        (fun row => row.1.reservationId ≠ reservationId) =
          entries.flatMap (recordRows inMemory) := by
    intro entries hall
    rw [List.filter_eq_self]
    intro row hrow
    obtain ⟨e, he, hrow⟩ := List.mem_flatMap.mp hrow
    rw [decide_eq_true_eq, reservationId_of_mem_recordRows hrow]
    exact hall e he
  have hdropped : (recordRows inMemory (reservationId, current)).filter
      (fun row => row.1.reservationId ≠ reservationId) = [] := by
    rw [List.filter_eq_nil_iff]
    intro row hrow
    rw [reservationId_of_mem_recordRows hrow]
    simp
  refine (h.filter _).trans (List.Perm.of_eq ?_)
  rw [hentries, hset, List.flatMap_append, List.flatMap_cons, List.flatMap_append,
    List.flatMap_cons, List.filter_append, List.filter_append, hdropped,
    recordRows_closed hclosed, hkept pre fun e he => hne e (List.mem_append_left post he),
    hkept post fun e he => hne e (List.mem_append_right pre he)]

/-- Inserting the rows of a new record. -/
theorem SameRows.insert (h : SameRows inMemory reservations records)
    {record : ReservationRecord} (fresh : records.get? reservationId = none)
    (hactive : record.state = .active) {details : List Detail}
    (hdetails : details.Perm record.details) {after : Dict ReservationKey ReservationRow}
    (hafter : after.entries = reservations.entries ++ details.map
      (detailRow (if inMemory then none else some record.expiresAt) reservationId)) :
    SameRows inMemory after (records.set reservationId record) := by
  rw [SameRows, hafter, Dict.entries_set_of_get?_none record fresh, List.flatMap_append,
    List.flatMap_singleton, recordRows_active hactive]
  exact List.Perm.append h (hdetails.map _)

/-- Extending the lease of a record on disk. -/
theorem SameRows.renew (h : SameRows false reservations records)
    {current : ReservationRecord} (found : records.get? reservationId = some current)
    (hactive : current.state = .active) (expiresAt : Instant) :
    SameRows false
      (reservations.mapEntries fun key row =>
        if key.reservationId = reservationId then { row with expiresAt := some expiresAt }
        else row)
      (records.set reservationId { current with expiresAt }) := by
  obtain ⟨pre, post, hentries, hset, hne⟩ :=
    Dict.entries_set_of_get?_some { current with expiresAt } found
  have hkept : ∀ entries : List (String × ReservationRecord), (∀ e ∈ entries,
      e.1 ≠ reservationId) → (entries.flatMap (recordRows false)).map
        (fun e => (e.1, if e.1.reservationId = reservationId then
          { e.2 with expiresAt := some expiresAt } else e.2)) =
          entries.flatMap (recordRows false) := by
    intro entries hall
    refine (List.map_congr_left fun row hrow => ?_).trans (List.map_id _)
    obtain ⟨e, he, hrow⟩ := List.mem_flatMap.mp hrow
    have hother : row.1.reservationId ≠ reservationId :=
      reservationId_of_mem_recordRows hrow ▸ hall e he
    rw [if_neg hother]
    rfl
  have hrenewed : (recordRows false (reservationId, current)).map
      (fun e => (e.1, if e.1.reservationId = reservationId then
        { e.2 with expiresAt := some expiresAt } else e.2)) =
        recordRows false (reservationId, { current with expiresAt }) := by
    rw [recordRows_active hactive, recordRows_active (by exact hactive), List.map_map]
    refine List.map_congr_left fun detail _ => ?_
    simp [detailRow, reservationKey]
  refine (h.map _).trans (List.Perm.of_eq ?_)
  rw [hentries, hset, List.flatMap_append, List.flatMap_cons, List.flatMap_append,
    List.flatMap_cons, List.map_append, List.map_append, hrenewed,
    hkept pre fun e he => hne e (List.mem_append_left post he),
    hkept post fun e he => hne e (List.mem_append_right pre he)]

/-- In memory a lease has no end to extend. -/
theorem SameRows.renew_inMemory (h : SameRows true reservations records)
    {current : ReservationRecord} (found : records.get? reservationId = some current)
    (expiresAt : Instant) :
    SameRows true reservations (records.set reservationId { current with expiresAt }) := by
  obtain ⟨pre, post, hentries, hset, -⟩ :=
    Dict.entries_set_of_get?_some { current with expiresAt } found
  refine h.trans (List.Perm.of_eq ?_)
  rw [hentries, hset, List.flatMap_append, List.flatMap_cons, List.flatMap_append,
    List.flatMap_cons]
  rfl

end Rows

theorem entries_insertReservations {reservationId : String} {expiresAt : Option Instant}
    {details : List Detail} {reservations after : Dict ReservationKey ReservationRow}
    (h : insertReservations reservationId expiresAt details reservations = .ok after) :
    after.entries = reservations.entries ++
      details.map (detailRow expiresAt reservationId) := by
  induction details generalizing reservations with
  | nil =>
      cases h
      simp
  | cons detail details ih =>
      rw [insertReservations] at h
      split at h
      · cases h
      · next hfresh =>
          rw [Option.isSome_iff_ne_none, not_not] at hfresh
          rw [ih h, Dict.entries_set_of_get?_none _ hfresh, List.append_assoc]
          rfl

/-! ## Window sums of a settlement -/

/-- What a settlement charges the windows of a ledger key. -/
def chargedWindow (charges : Dict String Decimal) (keys : List ReservationKey)
    (ledgerKey : String) : Decimal :=
  ((keys.filter fun key => key.kind = .window ∧ key.scopeId = ledgerKey).map fun key =>
    charges.getD key.meter 0).sum

theorem windowSum_append (events added : List SettledEvent) (t : Instant)
    (request : WindowReservation) :
    windowSum (events ++ added) t request =
      windowSum events t request + windowSum added t request := by
  rw [windowSum, List.filter_append, List.map_append, List.sum_append]
  rfl

/-- A settlement adds the charge of each window row, as long as its instant counts. -/
theorem windowSum_settleRows {charges : Dict String Decimal} {now : Instant}
    {keys : List ReservationKey} {db after : SqliteState}
    (h : settleRows charges now keys db = .ok after) (t : Instant)
    (request : WindowReservation) :
    windowSum after.windowEvents t request = windowSum db.windowEvents t request +
      if t - request.windowSeconds < now then chargedWindow charges keys request.ledgerKey
      else 0 := by
  induction keys generalizing db with
  | nil =>
      cases h
      simp [chargedWindow]
  | cons key keys ih =>
      obtain ⟨reservationId, kind, scopeId, meter⟩ := key
      cases kind with
      | budget =>
          have hcharged : chargedWindow charges (⟨reservationId, .budget, scopeId, meter⟩ :: keys)
              request.ledgerKey = chargedWindow charges keys request.ledgerKey := rfl
          rw [settleRows] at h
          dsimp only at h
          split at h
          · cases h
          · rw [ih h, hcharged]
      | window =>
          rw [settleRows] at h
          dsimp only at h
          have hone : windowSum (if charges.getD meter 0 = 0 then db
              else { db with windowEvents := db.windowEvents ++
                [⟨scopeId, meter, charges.getD meter 0, now⟩] }).windowEvents t request =
              windowSum db.windowEvents t request + if t - request.windowSeconds < now then
                (if scopeId = request.ledgerKey then charges.getD meter 0 else 0) else 0 := by
            by_cases hzero : charges.getD meter 0 = 0
            · simp [hzero]
            · rw [if_neg hzero, windowSum_append]
              congr 1
              by_cases hscope : scopeId = request.ledgerKey
              · by_cases hrecent : t - request.windowSeconds < now
                · simp [windowSum, hscope, hrecent]
                · simp [windowSum, hrecent]
              · simp [windowSum, hscope]
          have hcharged : chargedWindow charges (⟨reservationId, .window, scopeId, meter⟩ :: keys)
              request.ledgerKey = (if scopeId = request.ledgerKey then charges.getD meter 0
                else 0) + chargedWindow charges keys request.ledgerKey := by
            by_cases hscope : scopeId = request.ledgerKey
            · simp [chargedWindow, hscope]
            · simp [chargedWindow, hscope]
          rw [ih h, hone, hcharged, add_assoc]
          split
          · rfl
          · rw [add_zero]

theorem windowSettled_append (events added : List WindowEvent) (t : Instant)
    (request : WindowReservation) :
    windowSettled (events ++ added) t request =
      windowSettled events t request + windowSettled added t request := by
  rw [windowSettled, List.filter_append, List.map_append, List.sum_append]
  rfl

theorem settledAt_settlementEvents {reservationId : String} {charges : Dict String Decimal}
    {now : Instant} {index : ℕ} {details : List Detail} {e : (String × ℕ) × WindowEvent}
    (h : e ∈ settlementEvents reservationId charges now index details) :
    e.2.settledAt = now ∧ ∃ detail ∈ details, detail.kind = .window ∧
      e.2.scopeId = detail.scopeId ∧ e.2.meter = detail.meter ∧
      detail.windowSeconds = some e.2.windowSeconds := by
  induction details generalizing index with
  | nil => cases h
  | cons detail details ih =>
      have hrest : e ∈ settlementEvents reservationId charges now (index + 1) details →
          e.2.settledAt = now ∧ ∃ other ∈ detail :: details, other.kind = .window ∧
            e.2.scopeId = other.scopeId ∧ e.2.meter = other.meter ∧
            other.windowSeconds = some e.2.windowSeconds := by
        intro h
        obtain ⟨hnow, other, hother, hwritten⟩ := ih h
        exact ⟨hnow, other, List.mem_cons_of_mem _ hother, hwritten⟩
      simp only [settlementEvents] at h
      split at h
      · next windowSeconds hkind hseconds =>
          split at h
          · exact hrest h
          · rcases List.mem_cons.mp h with rfl | h
            · exact ⟨rfl, detail, List.mem_cons_self, hkind, rfl, rfl, hseconds⟩
            · exact hrest h
      · exact hrest h

/-- The transactional arbiter adds the charge of each window detail. -/
theorem windowSettled_settlementEvents (reservationId : String)
    (charges : Dict String Decimal) (now : Instant) {details : List Detail}
    (htimed : Timed details) (index : ℕ) (t : Instant) (request : WindowReservation) :
    windowSettled ((settlementEvents reservationId charges now index details).map Prod.snd) t
      request = if t - request.windowSeconds < now then
        chargeOn .window charges details (windowKey request) else 0 := by
  split
  · next hrecent =>
      rw [← sum_settlementEvents reservationId charges now htimed index, windowSettled]
      congr 2
      refine List.filter_congr fun event hevent => ?_
      obtain ⟨e, he, rfl⟩ := List.mem_map.mp hevent
      rw [(settledAt_settlementEvents he).1]
      simp [WindowEvent.ledger, windowKey, hrecent]
  · next hold =>
      have hnone : ((settlementEvents reservationId charges now index details).map
          Prod.snd).filter (fun event => event.scopeId = request.ledgerKey ∧
            event.meter = request.meter ∧ event.settledAt > t - request.windowSeconds) = [] := by
        rw [List.filter_eq_nil_iff]
        intro event hevent
        obtain ⟨e, he, rfl⟩ := List.mem_map.mp hevent
        rw [(settledAt_settlementEvents he).1]
        simp [hold]
      rw [windowSettled, hnone, List.map_nil, List.sum_nil]

/-! ## The simulation relation -/

/-- The window details are those of requests for some of these windows. -/
def Requested (all : List WindowReservation) (details : List Detail) : Prop :=
  ∀ detail ∈ details, detail.kind = .window → ∃ request ∈ all,
    detail.scopeId = request.ledgerKey ∧ detail.meter = request.meter ∧
      detail.windowSeconds = some request.windowSeconds

/-- What the settlement of a record will need. -/
structure Ready (all : List WindowReservation) (db : SqliteState) (kv : KVState)
    (details : List Detail) : Prop where
  named : details ≠ []
  windows : Requested all details
  budgets : ∀ detail ∈ details, detail.kind = .budget →
    (db.budgetState.get? (detail.scopeId, detail.meter)).isSome ∧
      (kv.budget.get? (detail.scopeId, detail.meter)).isSome

/-- The two stores stand for the same ledgers, the same open reservations and the same
window sums from an instant on. -/
structure Agree (inMemory : Bool) (all : List WindowReservation) (clock : Instant)
    (db : SqliteState) (kv : KVState) : Prop where
  rows : SameRows inMemory db.reservations kv.reservations
  totals : ∀ ledger, db.total ledger = kv.total ledger
  sums : SameSums all clock db.windowEvents kv.windowEvents.values
  records : ∀ record ∈ kv.reservations.values, Ready all db kv record.details
  events : ∀ event ∈ kv.windowEvents.values, ∃ request ∈ all,
    event.scopeId = request.ledgerKey ∧ event.meter = request.meter ∧
      event.windowSeconds = request.windowSeconds
  owned : EventsOwned kv

theorem agree_empty (inMemory : Bool) (all : List WindowReservation) (clock : Instant) :
    Agree inMemory all clock .empty .empty where
  rows := List.Perm.refl _
  totals _ := rfl
  sums _ _ _ _ := rfl
  records _ h := by cases h
  events _ h := by cases h
  owned := eventsOwned_empty

theorem Requested.timed {all : List WindowReservation} {details : List Detail}
    (h : Requested all details) : Timed details := by
  intro detail hdetail hkind
  obtain ⟨request, -, -, -, hseconds⟩ := h detail hdetail hkind
  rw [hseconds]
  rfl

theorem requested_reservationDetails {all windows : List WindowReservation}
    (budgets : List BudgetReservation) (h : ∀ request ∈ windows, request ∈ all) :
    Requested all (reservationDetails budgets windows) := by
  intro detail hdetail hkind
  rcases List.mem_append.mp hdetail with hdetail | hdetail
  · obtain ⟨row, -, rfl⟩ := List.mem_map.mp hdetail
    cases hkind
  · obtain ⟨request, hrequest, rfl⟩ := List.mem_map.mp hdetail
    exact ⟨request, h request hrequest, rfl, rfl, rfl⟩

/-- Under consistent requests the ledger key of a window detail tells its meter. -/
theorem Requested.meter {all : List WindowReservation} (hall : Consistent all)
    {details : List Detail} (h : Requested all details) {detail : Detail}
    (hdetail : detail ∈ details) (hkind : detail.kind = .window)
    {request : WindowReservation} (hrequest : request ∈ all)
    (hscope : detail.scopeId = request.ledgerKey) : detail.meter = request.meter := by
  obtain ⟨other, hother, hkey, hmeter, -⟩ := h detail hdetail hkind
  rw [hmeter]
  exact (hall other hother request hrequest (hkey.symm.trans hscope)).1

theorem Ready.mono {all : List WindowReservation} {db db' : SqliteState} {kv kv' : KVState}
    {details : List Detail} (h : Ready all db kv details)
    (hdb : ∀ ledger, (db.budgetState.get? ledger).isSome →
      (db'.budgetState.get? ledger).isSome)
    (hkv : ∀ ledger, (kv.budget.get? ledger).isSome → (kv'.budget.get? ledger).isSome) :
    Ready all db' kv' details :=
  ⟨h.named, h.windows, fun detail hdetail hkind =>
    ⟨hdb _ (h.budgets detail hdetail hkind).1, hkv _ (h.budgets detail hdetail hkind).2⟩⟩

section Calls

variable {inMemory : Bool} {all : List WindowReservation} {clock now : Instant}
  {db : SqliteState} {kv : KVState} {reservationId : String}

/-- Time passes. -/
theorem Agree.later (h : Agree inMemory all clock db kv) (hclock : clock ≤ now) :
    Agree inMemory all now db kv :=
  { h with sums := fun request hrequest t ht => h.sums request hrequest t (hclock.trans ht) }

/-- Both arbiters see the same amount held on a window. -/
theorem Agree.activeAmount_window (h : Agree inMemory all clock db kv)
    (hall : Consistent all) (hlive : inMemory = true → Unexpired kv.reservations now)
    {request : WindowReservation} (hrequest : request ∈ all) :
    activeAmount db.reservations now (fun key =>
        key.kind = .window ∧ key.scopeId = request.ledgerKey) =
      Transactional.activeAmount (activeReservations kv.reservations now) .window
        request.ledgerKey request.meter := by
  refine activeAmount_eq_sum h.rows hlive fun e he detail hdetail => ?_
  have hrequested := (h.records e.2 (List.mem_map_of_mem he)).windows
  rw [decide_eq_decide]
  constructor
  · rintro ⟨hkind, hscope⟩
    exact ⟨hkind, hscope, hrequested.meter hall hdetail hkind hrequest hscope⟩
  · rintro ⟨hkind, hscope, -⟩
    exact ⟨hkind, hscope⟩

/-! ## Reserve -/

/-- A request names a ledger, no scope and no window twice, and no negative baseline. -/
structure WellFormedRequest (budgets : List BudgetReservation)
    (windows : List WindowReservation) : Prop where
  scopes : (budgets.map BudgetReservation.scopeId).Nodup
  ledgerKeys : (windows.map WindowReservation.ledgerKey).Nodup
  named : reservationDetails budgets windows ≠ []
  baselines : ∀ request ∈ budgets, ∀ e ∈ request.baseline.entries, 0 ≤ e.2

theorem WellFormedRequest.baseline_nonneg {budgets : List BudgetReservation}
    {windows : List WindowReservation} (h : WellFormedRequest budgets windows)
    {row : BudgetRow} (hrow : row ∈ checkedRows budgets) : 0 ≤ row.baseline := by
  obtain ⟨request, hrequest, hrow⟩ := List.mem_flatMap.mp (mem_checkedRows.mp hrow)
  obtain ⟨limit, -, rfl⟩ := List.mem_map.mp hrow
  rw [BudgetRow.baseline, Dict.getD]
  cases hget : request.baseline.get? limit.1 with
  | none => exact le_rfl
  | some baseline => exact h.baselines request hrequest _ (Dict.mem_entries_iff.mpr hget)

theorem WellFormedRequest.nodup_reservationKeys {budgets : List BudgetReservation}
    {windows : List WindowReservation} (h : WellFormedRequest budgets windows) :
    ((insertedDetails budgets windows).map (reservationKey reservationId)).Nodup := by
  refine Sqlite.nodup_reservationKeys reservationId h.scopes ?_
  have hkeys : (windows.map windowKey).map Prod.fst =
      windows.map WindowReservation.ledgerKey := by
    rw [List.map_map]
    rfl
  exact List.Nodup.of_map Prod.fst (hkeys ▸ h.ledgerKeys)

/-- A new reservation gets the same answer from both. -/
theorem Agree.reserve (h : Agree inMemory all clock db kv) (hall : Consistent all)
    (hclock : clock ≤ now) (hlive : inMemory = true → Unexpired kv.reservations now)
    {budgets : List BudgetReservation} {windows : List WindowReservation}
    (hrequest : WellFormedRequest budgets windows)
    (hwindows : ∀ request ∈ windows, request ∈ all) (H : Digests) (leaseSeconds : ℚ)
    (fresh : kv.reservations.get? reservationId = none) :
    ∃ check db' kv',
      Sqlite.reserve inMemory now reservationId budgets windows leaseSeconds db =
        .ok (check, db') ∧
      reserveOnce H now reservationId budgets windows leaseSeconds kv = .ok (check, kv') ∧
      Agree inMemory all now db' kv' := by
  obtain ⟨hcheck, htotals⟩ := reserveBudgets_agree h.rows hlive (checkedRows budgets)
    (fun row hrow => hrequest.baseline_nonneg hrow) h.totals
  have hdb := reserveBudgets_present db.reservations now (checkedRows budgets) db.budgetState
  have hkv := reserveBudgetRows_present (activeReservations kv.reservations now)
    (checkedRows budgets) kv.budget
  have hlength : ∀ request ∈ all, ∀ event ∈ kv.windowEvents.values,
      event.scopeId = request.ledgerKey → event.windowSeconds = request.windowSeconds := by
    intro request hrequest event hevent hscope
    obtain ⟨other, hother, hkey, -, hseconds⟩ := h.events event hevent
    rw [hseconds]
    exact (hall other hother request hrequest (hkey.symm.trans hscope)).2.2
  have hpruned : SameSums all now db.windowEvents (pruneEvents kv.windowEvents now).values :=
    fun request hrequest t ht => (h.sums request hrequest t (hclock.trans ht)).trans
      (windowSettled_pruneEvents (hlength request hrequest) ht).symm
  have hsorted : ∀ request ∈ windows.insertionSort fun a b => a.ledgerKey ≤ b.ledgerKey,
      request ∈ all := fun request hmem => hwindows request ((List.mem_insertionSort _).mp hmem)
  obtain ⟨hwindow, hsums⟩ := reserveWindows_agree hall
    (fun request hrequest => h.activeAmount_window hall hlive hrequest) hsorted hpruned
  have hevents : ∀ event ∈ (pruneEvents kv.windowEvents now).values, ∃ request ∈ all,
      event.scopeId = request.ledgerKey ∧ event.meter = request.meter ∧
        event.windowSeconds = request.windowSeconds := by
    intro event hevent
    obtain ⟨key, hkey⟩ := Dict.exists_get?_of_mem_values hevent
    exact h.events event (Dict.mem_values_of_get? (get?_of_pruneEvents hkey))
  unfold Sqlite.reserve
  simp only [reserveOnce, fresh, insertionSort_budgetRows hrequest.scopes]
  rcases hd : reserveBudgets db.reservations now (checkedRows budgets) db.budgetState with
    ⟨check, budgetState⟩
  rcases hk : reserveBudgetRows (activeReservations kv.reservations now) (checkedRows budgets)
    kv.budget with ⟨check', budget⟩
  rw [hd, hk] at hcheck htotals
  rw [hd] at hdb
  rw [hk] at hkv
  dsimp only at hcheck htotals hdb hkv
  subst hcheck
  cases check with
  | some refused =>
      refine ⟨refused, _, _, rfl, rfl, h.rows, htotals,
        (h.later hclock).sums, fun record hrecord =>
          (h.records record hrecord).mono hdb.1 hkv.1, h.events, ?_⟩
      exact h.owned.of_subset (fun _ _ h => h) (fun _ _ h _ => h)
  | none =>
      dsimp only
      rcases hw : reserveWindows db.reservations now
        (windows.insertionSort fun a b => a.ledgerKey ≤ b.ledgerKey) db.windowEvents with
        ⟨check, windowEvents⟩
      rw [hw] at hwindow hsums
      rw [← hwindow]
      cases check with
      | some refused =>
          refine ⟨refused, _, _, rfl, rfl, h.rows, htotals, hsums, fun record hrecord =>
            (h.records record hrecord).mono hdb.1 hkv.1, hevents, ?_⟩
          exact h.owned.of_subset (fun _ _ h => get?_of_pruneEvents h) (fun _ _ h _ => h)
      | none =>
          have hrows : rowsOf reservationId db = [] := by
            rw [rowsOf, List.filter_map]
            exact congrArg _ (h.rows.missing fresh)
          obtain ⟨after, hafter⟩ : ∃ after, insertReservations reservationId
              (if inMemory then none else some (now + leaseSeconds))
              (insertedDetails budgets windows) db.reservations = .ok after :=
            insertReservations_returns hrequest.nodup_reservationKeys fun detail _ =>
              get?_of_rowsOf_nil hrows detail
          dsimp only
          rw [hafter]
          refine ⟨{ ok := true }, _, _, rfl, rfl, ?_, htotals, hsums, ?_, hevents, ?_⟩
          · exact h.rows.insert fresh rfl (perm_insertedDetails budgets windows)
              (entries_insertReservations hafter)
          · refine Dict.forall_values_set (fun record hrecord =>
              (h.records record hrecord).mono hdb.1 hkv.1) ⟨hrequest.named,
                requested_reservationDetails budgets hwindows, fun detail hdetail hkind => ?_⟩
            rcases List.mem_append.mp hdetail with hdetail | hdetail
            · obtain ⟨row, hrow, rfl⟩ := List.mem_map.mp hdetail
              have hchecked : row ∈ checkedRows budgets :=
                mem_checkedRows.mpr ((perm_budgetRows budgets).mem_iff.mpr hrow)
              exact ⟨hdb.2 rfl row hchecked, hkv.2 rfl row hchecked⟩
            · obtain ⟨request, -, rfl⟩ := List.mem_map.mp hdetail
              cases hkind
          · exact h.owned.of_subset (fun _ _ h => get?_of_pruneEvents h)
              (settled_kept fun current hcurrent => by rw [fresh] at hcurrent; cases hcurrent)

/-! ## Settle and release -/

theorem rowsOf_nil (h : (db.reservations.entries.filter fun row =>
    row.1.reservationId = reservationId) = []) : rowsOf reservationId db = [] := by
  rw [rowsOf, List.filter_map]
  exact congrArg _ h

theorem dropRows_nil (h : (db.reservations.entries.filter fun row =>
    row.1.reservationId = reservationId) = []) : dropRows reservationId db = db := by
  have hsame : (db.reservations.filter fun e => e.1.reservationId ≠ reservationId) =
      db.reservations := by
    apply Dict.ext
    refine List.filter_eq_self.mpr fun row hrow => ?_
    have hother := List.filter_eq_nil_iff.mp h row hrow
    simpa using hother
  rw [dropRows, hsame]

/-- Settling or releasing a reservation without rows does nothing. -/
theorem settle_nil (h : (db.reservations.entries.filter fun row =>
    row.1.reservationId = reservationId) = []) (charges : Dict String Decimal) :
    settle now reservationId charges db = .ok db := by
  rw [settle, rowsOf_nil h, settleRows]
  exact congrArg Except.ok (dropRows_nil h)

/-- The rows of an active record. -/
theorem Agree.rowsOf_active (h : Agree inMemory all clock db kv)
    {current : ReservationRecord} (found : kv.reservations.get? reservationId = some current)
    (active : current.state = .active) :
    (rowsOf reservationId db).Perm (current.details.map (reservationKey reservationId)) := by
  have hrows := (h.rows.found found).map Prod.fst
  rw [recordRows_active active, List.map_map] at hrows
  rw [rowsOf, List.filter_map]
  exact hrows

/-- Both settlements charge a window alike. -/
theorem Agree.chargedWindow_eq (h : Agree inMemory all clock db kv) (hall : Consistent all)
    {current : ReservationRecord} (found : kv.reservations.get? reservationId = some current)
    (active : current.state = .active) (charges : Dict String Decimal)
    {request : WindowReservation} (hrequest : request ∈ all) :
    chargedWindow charges (rowsOf reservationId db) request.ledgerKey =
      chargeOn .window charges current.details (windowKey request) := by
  have hrequested := (h.records current (Dict.mem_values_of_get? found)).windows
  have hsum : chargedWindow charges (rowsOf reservationId db) request.ledgerKey =
      chargedWindow charges (current.details.map (reservationKey reservationId))
        request.ledgerKey := (((h.rowsOf_active found active).filter _).map _).sum_eq
  rw [hsum, chargedWindow, chargeOn, detailSum, List.filter_map, List.map_map]
  refine congrArg (fun l : List Detail =>
    (l.map fun detail => charges.getD detail.meter 0).sum) ?_
  refine List.filter_congr fun detail hdetail => ?_
  rw [Function.comp_apply, decide_eq_decide]
  constructor
  · rintro ⟨hkind, hscope⟩
    exact ⟨hkind, hscope, hrequested.meter hall hdetail hkind hrequest hscope⟩
  · rintro ⟨hkind, hscope, -⟩
    exact ⟨hkind, hscope⟩

/-- Both settlements charge a budget ledger alike. -/
theorem chargeOn_budget_eq_count (reservationId : String) (charges : Dict String Decimal)
    (details : List Detail) (ledger : LedgerKey) : chargeOn .budget charges details ledger =
      (budgetLedgers (details.map (reservationKey reservationId))).count ledger *
        charges.getD ledger.2 0 := by
  have hledgers : budgetLedgers (details.map (reservationKey reservationId)) =
      (details.filter fun detail => detail.kind = .budget).map fun detail =>
        (detail.scopeId, detail.meter) := by
    rw [budgetLedgers, List.filter_map, List.map_map]
    rfl
  have hconst := @sum_filter_key_const Detail (fun detail => (detail.scopeId, detail.meter))
    (fun detail => charges.getD detail.meter 0) ledger (charges.getD ledger.2 0)
    (details.filter fun detail => detail.kind = .budget) (by rintro detail - rfl; rfl)
  rw [hledgers, chargeOn, detailSum, ← hconst, List.filter_filter]
  congr 3
  funext detail
  by_cases hkind : detail.kind = .budget
  · simp [hkind, Prod.ext_iff]
  · simp [hkind]

/-- An active reservation is settled alike by both. -/
theorem Agree.settle (h : Agree inMemory all clock db kv) (hall : Consistent all)
    (hclock : clock ≤ now) (H : Digests) (charges : Dict String Decimal)
    {current : ReservationRecord} (found : kv.reservations.get? reservationId = some current)
    (active : current.state = .active) :
    ∃ db' kv', Sqlite.settle now reservationId charges db = .ok db' ∧
      settleOnce H now reservationId charges kv = .ok kv' ∧
      Agree inMemory all now db' kv' := by
  have hready := h.records current (Dict.mem_values_of_get? found)
  have hperm := h.rowsOf_active found active
  obtain ⟨middle, hmiddle⟩ := settleDetails_returns reservationId charges now
    hready.windows.timed (fun detail hdetail hkind => (hready.budgets detail hdetail hkind).2) 0
  obtain ⟨after, hafter, htotal⟩ := settleRows_returns charges now (rowsOf reservationId db) db
    (by
      intro ledger hledger
      obtain ⟨key, hkey, rfl⟩ := List.mem_map.mp hledger
      obtain ⟨hkey, hkind⟩ := List.mem_filter.mp hkey
      obtain ⟨detail, hdetail, rfl⟩ := List.mem_map.mp (hperm.mem_iff.mp hkey)
      exact (hready.budgets detail hdetail (of_decide_eq_true hkind)).1)
  have hsettle : settleOnce H now reservationId charges kv = .ok { middle with
      reservations := middle.reservations.set reservationId { current with
        state := .settled
        chargesDigest := some (H.charges (reservationCharges charges))
        charges := some (reservationCharges charges)
        completedAt := some now } } := by
    simp only [settleOnce, found, active, if_neg hready.named, hmiddle]
    rfl
  have hreservations : middle.reservations = kv.reservations :=
    settleDetails_reservations hmiddle
  have hentries := settled_events h.owned found active hmiddle
  have hvalues : middle.windowEvents.values = kv.windowEvents.values ++
      (settlementEvents reservationId charges now 0 current.details).map Prod.snd := by
    rw [Dict.values, hentries, List.map_append]
    rfl
  obtain ⟨hsame, hkept⟩ := settleRows_ok hafter
  refine ⟨dropRows reservationId after, _, ?_, hsettle, ?_, ?_, ?_, ?_, ?_, ?_⟩
  · rw [Sqlite.settle, hafter]
    rfl
  · dsimp only [dropRows]
    rw [hsame, hreservations]
    exact h.rows.close found (by rintro ⟨⟩)
  · intro ledger
    change after.total ledger = middle.total ledger
    have hcount : (budgetLedgers (rowsOf reservationId db)).count ledger =
        (budgetLedgers (current.details.map (reservationKey reservationId))).count ledger :=
      ((hperm.filter _).map _).count_eq ledger
    rw [htotal, settleDetails_total hmiddle, h.totals,
      chargeOn_budget_eq_count reservationId, hcount]
  · intro request hrequest t ht
    change windowSum after.windowEvents t request = _
    rw [windowSum_settleRows hafter, h.chargedWindow_eq hall found active charges hrequest,
      h.sums request hrequest t (hclock.trans ht), hvalues, windowSettled_append,
      windowSettled_settlementEvents reservationId charges now hready.windows.timed]
  · dsimp only
    rw [hreservations]
    have hmono : ∀ {details : List Detail}, Ready all db kv details →
        Ready all (dropRows reservationId after) { middle with
          reservations := kv.reservations.set reservationId { current with
            state := .settled
            chargesDigest := some (H.charges (reservationCharges charges))
            charges := some (reservationCharges charges)
            completedAt := some now } } details :=
      fun hdetails => hdetails.mono hkept fun ledger hledger =>
        settleDetails_present hmiddle hledger
    exact Dict.forall_values_set (fun record hrecord => hmono (h.records record hrecord))
      (hmono hready)
  · dsimp only
    rw [hvalues]
    intro event hevent
    rcases List.mem_append.mp hevent with hevent | hevent
    · exact h.events event hevent
    · obtain ⟨e, he, rfl⟩ := List.mem_map.mp hevent
      obtain ⟨-, detail, hdetail, hkind, hscope, hmeter, hseconds⟩ :=
        settledAt_settlementEvents he
      obtain ⟨request, hrequest, hkey, hname, hlength⟩ :=
        hready.windows detail hdetail hkind
      rw [hseconds, Option.some.injEq] at hlength
      exact ⟨request, hrequest, hscope.trans hkey, hmeter.trans hname, hlength⟩
  · exact h.owned.commits (commits_of_settleOnce hsettle)

/-- A record written over by one with the same details leaves what the records need. -/
theorem Agree.records_set (h : Agree inMemory all clock db kv)
    {current record : ReservationRecord}
    (found : kv.reservations.get? reservationId = some current) {db' : SqliteState}
    {kv' : KVState} (hdb : db'.budgetState = db.budgetState) (hkv : kv'.budget = kv.budget)
    (hdetails : record.details = current.details) :
    ∀ r ∈ (kv.reservations.set reservationId record).values, Ready all db' kv' r.details := by
  have hready : ∀ {details : List Detail}, Ready all db kv details →
      Ready all db' kv' details := fun hdetails =>
    hdetails.mono (fun ledger hledger => hdb ▸ hledger) fun ledger hledger => hkv ▸ hledger
  exact Dict.forall_values_set (fun r hr => hready (h.records r hr))
    (hdetails ▸ hready (h.records current (Dict.mem_values_of_get? found)))

/-- Releasing a reservation drops its rows and closes its record. -/
theorem Agree.release (h : Agree inMemory all clock db kv) (hclock : clock ≤ now)
    {current : ReservationRecord} (found : kv.reservations.get? reservationId = some current)
    (active : current.state = .active) :
    Agree inMemory all now (Sqlite.release reservationId db) { kv with
      reservations := kv.reservations.set reservationId
        { current with state := .released, completedAt := some now } } where
  rows := h.rows.close found nofun
  totals := h.totals
  sums := (h.later hclock).sums
  records := h.records_set found rfl rfl (by rfl)
  events := h.events
  owned := by
    refine h.owned.of_subset (fun _ _ h => h) (settled_kept fun record hrecord => ?_)
    cases found.symm.trans hrecord
    rw [active]
    nofun

/-! ## Renew -/

theorem renewable_iff : renewable now reservationId db = true ↔
    (db.reservations.entries.filter fun e => e.1.reservationId = reservationId) ≠ [] ∧
    ∀ e ∈ db.reservations.entries.filter (fun e => e.1.reservationId = reservationId),
      e.2.live now = true := by
  rw [renewable]
  simp only [decide_eq_true_eq, List.isEmpty_iff, List.all_eq_true, ne_eq]

theorem renewable_nil (h : (db.reservations.entries.filter fun row =>
    row.1.reservationId = reservationId) = []) : renewable now reservationId db = false := by
  rw [Bool.eq_false_iff, Ne, renewable_iff]
  exact fun hrenewable => hrenewable.1 h

/-- On disk a reservation is renewable exactly while its record is. -/
theorem Agree.renewable_iff_live (h : Agree false all clock db kv)
    {current : ReservationRecord} (found : kv.reservations.get? reservationId = some current)
    (active : current.state = .active) :
    renewable now reservationId db = true ↔ now < current.expiresAt := by
  have hnamed := (h.records current (Dict.mem_values_of_get? found)).named
  have hrows := h.rows.found found
  rw [recordRows_active active] at hrows
  have hlive : ∀ detail, (detailRow (if false = true then none else some current.expiresAt)
      reservationId detail).2.live now = true ↔ now < current.expiresAt := by
    intro detail
    simp [detailRow, ReservationRow.live]
  rw [renewable_iff]
  constructor
  · rintro ⟨-, hall⟩
    obtain ⟨detail, details, hdetails⟩ := List.exists_cons_of_ne_nil hnamed
    refine (hlive detail).mp (hall _ (hrows.mem_iff.mpr ?_))
    exact List.mem_map_of_mem (hdetails ▸ List.mem_cons_self)
  · intro hunexpired
    refine ⟨fun hnil => ?_, fun e he => ?_⟩
    · rw [hnil] at hrows
      exact hnamed (List.map_eq_nil_iff.mp hrows.symm.eq_nil)
    · obtain ⟨detail, -, rfl⟩ := List.mem_map.mp (hrows.mem_iff.mp he)
      exact (hlive detail).mpr hunexpired

/-- Renewing keeps the stores in agreement. -/
theorem Agree.renew (h : Agree inMemory all clock db kv) (hclock : clock ≤ now)
    (leaseSeconds : ℚ) :
    Agree inMemory all now (Sqlite.renew inMemory now reservationId leaseSeconds db).2
      (renewOnce now reservationId leaseSeconds kv).2 := by
  have hlater := h.later hclock
  -- a record that cannot be renewed has no live row on disk
  have hsame : (inMemory = false → renewable now reservationId db = false) →
      (Sqlite.renew inMemory now reservationId leaseSeconds db).2 = db := by
    intro hfalse
    cases inMemory with
    | true => rfl
    | false => simp [Sqlite.renew, hfalse rfl]
  unfold renewOnce
  split
  · next missing =>
      rw [hsame fun _ => renewable_nil (h.rows.missing missing)]
      exact hlater
  · next current found =>
      split
      · next hlost =>
          rw [hsame]
          · exact hlater
          · rintro rfl
            by_cases hactive : current.state = .active
            · rw [Bool.eq_false_iff, Ne, h.renewable_iff_live found hactive]
              exact not_lt.mpr (hlost.resolve_left (not_not.mpr hactive))
            · exact renewable_nil (h.rows.closed found hactive)
      · next hheld =>
          rw [not_or, not_not, not_le] at hheld
          have howned : EventsOwned { kv with
              reservations := kv.reservations.set reservationId
                { current with expiresAt := now + leaseSeconds } } := by
            refine h.owned.of_subset (fun _ _ h => h) (settled_kept fun record hrecord => ?_)
            cases found.symm.trans hrecord
            rw [hheld.1]
            rintro ⟨⟩
          cases inMemory with
          | true => exact ⟨h.rows.renew_inMemory found _, h.totals, hlater.sums,
              h.records_set found rfl rfl (by rfl), h.events, howned⟩
          | false =>
              have hrenewable := (h.renewable_iff_live found hheld.1).mpr hheld.2
              simp only [Sqlite.renew, hrenewable]
              exact ⟨h.rows.renew found hheld.1 _, h.totals, hlater.sums,
                h.records_set found rfl rfl (by rfl), h.events, howned⟩

end Calls

/-! ## Traces -/

/-- The reservation a reserve call makes. -/
def reservedId : ClientCall → Option String
  | .reserve reservationId _ _ _ => some reservationId
  | _ => none

/-- The windows a reserve call asks for. -/
def requestedWindows : ClientCall → List WindowReservation
  | .reserve _ _ windows _ => windows
  | _ => []

/-- The request of a reserve call is well formed. -/
def WellFormedCall : ClientCall → Prop
  | .reserve _ budgets windows _ => WellFormedRequest budgets windows
  | _ => True

/-- What clients keep to: no clock reading goes back, no id is reserved twice, requests
are well formed, and a window ledger key always stands for the same window. -/
structure WellFormed (trace : List Issued) : Prop where
  clock : trace.Pairwise fun a b => a.now ≤ b.now
  reservedOnce : (trace.filterMap fun i => reservedId i.call).Nodup
  calls : ∀ i ∈ trace, WellFormedCall i.call
  windows : Consistent (trace.flatMap fun i => requestedWindows i.call)

/-- A reserve call to a SQLite store in memory, whose rows never expire, meets no
reservation that has outlived its lease. -/
def NoneOutlived (inMemory : Bool) (s : Timeline) (i : Issued) : Prop :=
  inMemory = true → (reservedId i.call).isSome → Unexpired s.kv.reservations i.now

/-- Both arbiters answer a call with the same check. -/
def SameCheck (H : Digests) (inMemory : Bool) (db : SqliteState) (kv : KVState)
    (i : Issued) : Prop :=
  ∃ check, (perform inMemory i.now db i.call).map Prod.fst = .ok (.check check) ∧
    (Transactional.perform H i.now kv i.call).map Prod.fst = .ok (.check check)

/-- Other calls do not record a reservation. -/
theorem get?_step_of_ne {H : Digests} {s : Timeline} {i : Issued} {reservationId : String}
    (hnone : s.kv.reservations.get? reservationId = none)
    (hne : reservedId i.call ≠ some reservationId) :
    (s.step H i).kv.reservations.get? reservationId = none := by
  obtain ⟨now, call⟩ := i
  unfold Timeline.step
  split
  · exact hnone
  · next reply kv hperform =>
      have hset : ∀ {other : String} {current record : ReservationRecord},
          s.kv.reservations.get? other = some current →
            (s.kv.reservations.set other record).get? reservationId = none := by
        intro other current record found
        rw [Dict.get?_set_of_ne, hnone]
        rintro rfl
        rw [hnone] at found
        cases found
      cases commits_of_perform hperform with
      | unchanged => exact hnone
      | refusedByBudget => exact hnone
      | refusedByWindow => exact hnone
      | admitted fresh =>
          rw [Dict.get?_set_of_ne, hnone]
          rintro rfl
          exact hne rfl
      | settled found => exact hset found
      | released found => exact hset found
      | renewed found => exact hset found

section Simulation

variable {inMemory : Bool} {all : List WindowReservation} {clock : Instant}
  {db : SqliteState} {s : Timeline}

/-- A well-formed reserve call of a new reservation gets the same check. -/
theorem Agree.step_reserve (h : Agree inMemory all clock db s.kv) (hall : Consistent all)
    (H : Digests) {now : Instant} {reservationId : String} {budgets : List BudgetReservation}
    {windows : List WindowReservation} {leaseSeconds : ℚ} (hclock : clock ≤ now)
    (hrequest : WellFormedRequest budgets windows)
    (hwindows : ∀ request ∈ windows, request ∈ all)
    (fresh : s.kv.reservations.get? reservationId = none)
    (hlive : inMemory = true → Unexpired s.kv.reservations now) :
    let i : Issued := ⟨now, .reserve reservationId budgets windows leaseSeconds⟩
    SameCheck H inMemory db s.kv i ∧
      Agree inMemory all now (db.step inMemory i) (s.step H i).kv := by
  intro i
  obtain ⟨check, db', kv', hdb, hkv, hagree⟩ :=
    h.reserve hall hclock hlive hrequest hwindows H leaseSeconds fresh
  have hperform : perform inMemory now db i.call = .ok (.check check, db') := by
    simp only [perform, i, hdb, Except.map]
  have hperform' : Transactional.perform H now s.kv i.call = .ok (.check check, kv') := by
    simp only [Transactional.perform, i, hkv, Except.map]
  refine ⟨⟨check, by rw [hperform]; rfl, by rw [hperform']; rfl⟩, ?_⟩
  rw [SqliteState.step, hperform, Timeline.step, hperform']
  exact hagree

theorem Agree.step_settle (h : Agree inMemory all clock db s.kv) (hall : Consistent all)
    (H : Digests) {now : Instant} (reservationId : String) (charges : Dict String Decimal)
    (hclock : clock ≤ now) :
    Agree inMemory all now (db.step inMemory ⟨now, .settle reservationId charges⟩)
      (s.step H ⟨now, .settle reservationId charges⟩).kv := by
  have hdb : ∀ {db'}, Sqlite.settle now reservationId charges db = .ok db' →
      db.step inMemory ⟨now, .settle reservationId charges⟩ = db' := by
    intro db' hsettle
    simp only [SqliteState.step, perform, hsettle, Except.map]
  cases hget : s.kv.reservations.get? reservationId with
  | none =>
      rw [hdb (settle_nil (h.rows.missing hget) charges)]
      simp only [Timeline.step, Transactional.perform, settleOnce, hget, Except.map]
      exact h.later hclock
  | some current =>
      by_cases hactive : current.state = .active
      · obtain ⟨db', kv', hsettle, hsettle', hagree⟩ :=
          h.settle hall hclock H charges hget hactive
        rw [hdb hsettle]
        simp only [Timeline.step, Transactional.perform, hsettle', Except.map]
        exact hagree
      · -- a closed record answers or raises without a write
        have hsame : (s.step H ⟨now, .settle reservationId charges⟩).kv = s.kv := by
          simp only [Timeline.step, Transactional.perform, settleOnce, hget]
          cases hstate : current.state with
          | active => exact absurd hstate hactive
          | settled =>
              dsimp only
              by_cases hdigest :
                  current.chargesDigest ≠ some (H.charges (reservationCharges charges))
              · rw [if_pos hdigest]
                rfl
              · rw [if_neg hdigest]
                rfl
          | released => rfl
        rw [hdb (settle_nil (h.rows.closed hget hactive) charges), hsame]
        exact h.later hclock

theorem Agree.step_release (h : Agree inMemory all clock db s.kv) (H : Digests)
    {now : Instant} (reservationId : String) (hclock : clock ≤ now) :
    Agree inMemory all now (db.step inMemory ⟨now, .release reservationId⟩)
      (s.step H ⟨now, .release reservationId⟩).kv := by
  change Agree inMemory all now (Sqlite.release reservationId db) _
  cases hget : s.kv.reservations.get? reservationId with
  | none =>
      rw [Sqlite.release, dropRows_nil (h.rows.missing hget)]
      simp only [Timeline.step, Transactional.perform, releaseOnce, hget, Except.map]
      exact h.later hclock
  | some current =>
      simp only [Timeline.step, Transactional.perform, releaseOnce, hget]
      cases hstate : current.state with
      | active => exact h.release hclock hget hstate
      | settled =>
          rw [Sqlite.release, dropRows_nil (h.rows.closed hget (by rw [hstate]; rintro ⟨⟩))]
          exact h.later hclock
      | released =>
          rw [Sqlite.release, dropRows_nil (h.rows.closed hget (by rw [hstate]; rintro ⟨⟩))]
          exact h.later hclock

/-- Every call keeps the stores in agreement. -/
theorem Agree.step (h : Agree inMemory all clock db s.kv) (hall : Consistent all)
    (H : Digests) {i : Issued} (hclock : clock ≤ i.now) (hcall : WellFormedCall i.call)
    (hwindows : ∀ request ∈ requestedWindows i.call, request ∈ all)
    (hfresh : ∀ reservationId, reservedId i.call = some reservationId →
      s.kv.reservations.get? reservationId = none)
    (hlive : NoneOutlived inMemory s i) :
    Agree inMemory all i.now (db.step inMemory i) (s.step H i).kv := by
  obtain ⟨now, call⟩ := i
  cases call with
  | reserve reservationId budgets windows leaseSeconds =>
      exact (h.step_reserve hall H hclock hcall hwindows (hfresh _ rfl)
        fun hmemory => hlive hmemory rfl).2
  | settle reservationId charges => exact h.step_settle hall H reservationId charges hclock
  | release reservationId => exact h.step_release H reservationId hclock
  | renew reservationId leaseSeconds => exact h.renew hclock leaseSeconds

/-- A run keeps the stores in agreement, and leaves the reservations of what follows
unrecorded. -/
theorem Agree.run (h : Agree inMemory all clock db s.kv) (hall : Consistent all)
    (H : Digests) {before rest : List Issued} {horizon : Instant}
    (hsorted : before.Pairwise fun a b => a.now ≤ b.now)
    (hclock : ∀ i ∈ before, clock ≤ i.now) (hhorizon : ∀ i ∈ before, i.now ≤ horizon)
    (hend : clock ≤ horizon) (hcalls : ∀ i ∈ before, WellFormedCall i.call)
    (hwindows : ∀ i ∈ before, ∀ request ∈ requestedWindows i.call, request ∈ all)
    (hnodup : ((before ++ rest).filterMap fun i => reservedId i.call).Nodup)
    (hfresh : ∀ i ∈ before ++ rest, ∀ reservationId, reservedId i.call = some reservationId →
      s.kv.reservations.get? reservationId = none)
    (hlive : Machine.Along (Timeline.step H) (NoneOutlived inMemory) s before) :
    Agree inMemory all horizon (Machine.run (SqliteState.step inMemory) db before)
      (Machine.run (Timeline.step H) s before).kv ∧
    ∀ i ∈ rest, ∀ reservationId, reservedId i.call = some reservationId →
      (Machine.run (Timeline.step H) s before).kv.reservations.get? reservationId = none := by
  induction before generalizing s db clock with
  | nil => exact ⟨h.later hend, hfresh⟩
  | cons i before ih =>
      rw [List.pairwise_cons] at hsorted
      rw [List.forall_mem_cons] at hclock hhorizon hcalls hwindows
      rw [List.cons_append, List.forall_mem_cons] at hfresh
      have hagree := h.step hall H hclock.1 hcalls.1 hwindows.1 hfresh.1 hlive.1
      refine ih hagree hsorted.2 hsorted.1 hhorizon.2 hhorizon.1 hcalls.2 hwindows.2 ?_ ?_
        hlive.2
      · rw [List.cons_append] at hnodup
        exact hnodup.sublist ((List.sublist_cons_self i _).filterMap _)
      · intro j hj reservationId hid
        refine get?_step_of_ne (hfresh.2 j hj reservationId hid) fun hsame => ?_
        simp only [List.cons_append, List.filterMap_cons, hsame, List.nodup_cons] at hnodup
        exact hnodup.1 (List.mem_filterMap.mpr ⟨j, hj, hid⟩)

end Simulation

/-- A prefix of a well-formed trace leaves the stores in agreement. -/
theorem agree_after_calls (H : Digests) {inMemory : Bool} {start horizon : Instant}
    {before rest : List Issued} (h : WellFormed (before ++ rest))
    (hlive : Machine.Along (Timeline.step H) (NoneOutlived inMemory) (.start start)
      (before ++ rest))
    (hhorizon : ∀ i ∈ before, i.now ≤ horizon) :
    Agree inMemory ((before ++ rest).flatMap fun i => requestedWindows i.call) horizon
      (Machine.run (SqliteState.step inMemory) .empty before)
      (Machine.run (Timeline.step H) (.start start) before).kv ∧
    ∀ i ∈ rest, ∀ reservationId, reservedId i.call = some reservationId →
      (Machine.run (Timeline.step H) (.start start) before).kv.reservations.get?
        reservationId = none := by
  have hsorted : before.Pairwise fun a b => a.now ≤ b.now :=
    (List.pairwise_append.mp h.clock).1
  obtain ⟨clock, hclock, hend⟩ : ∃ clock, (∀ i ∈ before, clock ≤ i.now) ∧ clock ≤ horizon := by
    cases before with
    | nil => exact ⟨horizon, by simp, le_rfl⟩
    | cons i before =>
        refine ⟨i.now, fun j hj => ?_, hhorizon i List.mem_cons_self⟩
        rcases List.mem_cons.mp hj with rfl | hj
        · exact le_rfl
        · exact (List.pairwise_cons.mp hsorted).1 j hj
  exact (agree_empty inMemory _ clock).run h.windows H hsorted hclock hhorizon hend
    (fun i hi => h.calls i (List.mem_append_left rest hi))
    (fun i hi request hrequest =>
      List.mem_flatMap.mpr ⟨i, List.mem_append_left rest hi, hrequest⟩)
    h.reservedOnce (fun _ _ _ _ => rfl) (Machine.along_append.mp hlive).1

theorem wellFormedRequest_stepsBudget : WellFormedRequest [stepsBudget] [callsWindow] where
  scopes := by decide
  ledgerKeys := by decide
  named := by decide +kernel
  baselines := by decide +kernel

/-- One client settles, another is refused. -/
def settledTrace : List Issued :=
  [⟨0, .reserve "first" [stepsBudget] [callsWindow] 60⟩,
    ⟨1, .settle "first" (.ofList [("steps", 3), ("calls", 2)])⟩,
    ⟨2, .reserve "second" [stepsBudget] [callsWindow] 60⟩]

theorem wellFormed_settledTrace : WellFormed settledTrace where
  clock := by decide +kernel
  reservedOnce := by decide
  calls := by
    intro i hi
    simp only [settledTrace, List.mem_cons, List.not_mem_nil, or_false] at hi
    obtain rfl | rfl | rfl := hi
    · exact wellFormedRequest_stepsBudget
    · trivial
    · exact wellFormedRequest_stepsBudget
  windows := by
    unfold Consistent
    decide +kernel

end Pollard.Stores.Sqlite
