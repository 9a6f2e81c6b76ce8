import Pollard.Stores.ArbiterBook

/-!
# Sliding windows are never over-committed

The load of a window at an instant is what was settled within its length before
that instant.  It counts every event ever written; the bucket, which is pruned,
counts the same from the present on.
-/

namespace Pollard.Stores.Transactional

open Lib
open Lib.LeasedCapacity

/-- What the events of a ledger still weigh at an instant. -/
def windowLoad (length : LedgerKey → ℚ) (events : List WindowEvent) (ledger : LedgerKey)
    (t : Instant) : Decimal :=
  ((events.filter fun event =>
    event.ledger = ledger ∧ event.settledAt > t - length ledger).map WindowEvent.amount).sum

/-- What was settled on a ledger in the window that ends at an instant. -/
def windowSum (length : LedgerKey → ℚ) (events : List WindowEvent) (ledger : LedgerKey)
    (t : Instant) : Decimal :=
  ((events.filter fun event =>
    event.ledger = ledger ∧ t - length ledger < event.settledAt ∧
      event.settledAt ≤ t).map WindowEvent.amount).sum

/-! ## Disciplined runs -/

/-- The clock does not go back, every window request uses the limit and the length
of its ledger, and an active reservation is settled before its lease ends for no
more than it holds. -/
def WindowUniform (limit : LedgerKey → Decimal) (length : LedgerKey → ℚ) (s : Timeline)
    (i : Issued) : Prop :=
  s.clock ≤ i.now ∧
  match i.call with
  | .reserve _ _ windows _ =>
      ∀ request ∈ windows, request.limit = limit (windowKey request) ∧
        request.windowSeconds = length (windowKey request)
  | .settle reservationId charges =>
      ∀ current ∈ s.kv.reservations.get? reservationId, current.state = .active →
        i.now < current.expiresAt ∧
        ∀ detail ∈ current.details, detail.kind = .window →
          charges.getD detail.meter 0 ≤ detail.amount
  | .release _ => True
  | .renew _ _ => True

/-- The windows of one request are distinct and nothing is negative. -/
def WindowOrderly (s : Timeline) (i : Issued) : Prop :=
  match i.call with
  | .reserve _ _ windows _ =>
      (windows.map windowKey).Nodup ∧ ∀ request ∈ windows, 0 ≤ request.amount
  | .settle reservationId charges =>
      ∀ current ∈ s.kv.reservations.get? reservationId, current.state = .active →
        ∀ detail ∈ current.details, detail.kind = .window →
          0 ≤ charges.getD detail.meter 0
  | .release _ => True
  | .renew _ _ => True

def WindowDiscipline (limit : LedgerKey → Decimal) (length : LedgerKey → ℚ) (s : Timeline)
    (i : Issued) : Prop :=
  WindowUniform limit length s i ∧ WindowOrderly s i

instance (limit : LedgerKey → Decimal) (length : LedgerKey → ℚ) (s : Timeline)
    (i : Issued) : Decidable (WindowUniform limit length s i) :=
  match i with
  | ⟨now, .reserve _ _ windows _⟩ => inferInstanceAs (Decidable (s.clock ≤ now ∧
      ∀ request ∈ windows, request.limit = limit (windowKey request) ∧
        request.windowSeconds = length (windowKey request)))
  | ⟨now, .settle reservationId charges⟩ => inferInstanceAs (Decidable (s.clock ≤ now ∧
      ∀ current ∈ s.kv.reservations.get? reservationId, current.state = .active →
        now < current.expiresAt ∧
        ∀ detail ∈ current.details, detail.kind = .window →
          charges.getD detail.meter 0 ≤ detail.amount))
  | ⟨now, .release _⟩ => inferInstanceAs (Decidable (s.clock ≤ now ∧ True))
  | ⟨now, .renew _ _⟩ => inferInstanceAs (Decidable (s.clock ≤ now ∧ True))

instance (s : Timeline) (i : Issued) : Decidable (WindowOrderly s i) :=
  match i with
  | ⟨_, .reserve _ _ windows _⟩ => inferInstanceAs (Decidable
      ((windows.map windowKey).Nodup ∧ ∀ request ∈ windows, 0 ≤ request.amount))
  | ⟨_, .settle reservationId charges⟩ => inferInstanceAs (Decidable
      (∀ current ∈ s.kv.reservations.get? reservationId, current.state = .active →
        ∀ detail ∈ current.details, detail.kind = .window →
          0 ≤ charges.getD detail.meter 0))
  | ⟨_, .release _⟩ => .isTrue trivial
  | ⟨_, .renew _ _⟩ => .isTrue trivial

instance (limit : LedgerKey → Decimal) (length : LedgerKey → ℚ) (s : Timeline)
    (i : Issued) : Decidable (WindowDiscipline limit length s i) :=
  inferInstanceAs (Decidable (_ ∧ _))

/-! ## The load of a list of events -/

section Load

variable {length : LedgerKey → ℚ} {events : List WindowEvent} {ledger : LedgerKey}

theorem windowLoad_append (events added : List WindowEvent) (ledger : LedgerKey)
    (t : Instant) :
    windowLoad length (events ++ added) ledger t =
      windowLoad length events ledger t + windowLoad length added ledger t := by
  simp only [windowLoad, List.filter_append, List.map_append, List.sum_append]

theorem windowLoad_cons (event : WindowEvent) (events : List WindowEvent)
    (ledger : LedgerKey) (t : Instant) :
    windowLoad length (event :: events) ledger t =
      (if event.ledger = ledger ∧ event.settledAt > t - length ledger then event.amount
        else 0) + windowLoad length events ledger t := by
  simp only [windowLoad, List.filter_cons, decide_eq_true_eq]
  split <;> simp

/-- Events only age out of a window. -/
theorem windowLoad_anti (hnonneg : ∀ event ∈ events, 0 ≤ event.amount) {t u : Instant}
    (htu : t ≤ u) : windowLoad length events ledger u ≤ windowLoad length events ledger t := by
  induction events with
  | nil => simp [windowLoad]
  | cons event events ih =>
      rw [windowLoad_cons, windowLoad_cons]
      refine add_le_add ?_ (ih fun e he => hnonneg e (List.mem_cons_of_mem _ he))
      split
      · next hu =>
          rw [if_pos ⟨hu.1, by linarith [hu.2]⟩]
      · split
        · exact hnonneg event List.mem_cons_self
        · exact le_rfl

/-- From the last event on, a window holds the events that have not aged out. -/
theorem windowSum_eq_windowLoad {t : Instant} (hpast : ∀ event ∈ events, event.settledAt ≤ t) :
    windowSum length events ledger t = windowLoad length events ledger t := by
  rw [windowSum, windowLoad]
  congr 2
  apply List.filter_congr
  intro event hevent
  have hle := hpast event hevent
  simp [hle]

/-- Events after an instant do not count at it. -/
theorem windowSum_append_of_later {added : List WindowEvent} {t : Instant}
    (hlater : ∀ event ∈ added, t < event.settledAt) :
    windowSum length (events ++ added) ledger t = windowSum length events ledger t := by
  have hnone : added.filter (fun event => decide (event.ledger = ledger ∧
      t - length ledger < event.settledAt ∧ event.settledAt ≤ t)) = [] := by
    rw [List.filter_eq_nil_iff]
    intro event hevent
    simp [not_le.mpr (hlater event hevent)]
  simp only [windowSum, List.filter_append, List.map_append, List.sum_append, hnone,
    List.map_nil, List.sum_nil, add_zero]

end Load

/-! ## What the source reads and writes -/

/-- Pruning keeps what counts from now on. -/
theorem windowLoad_prune {length : LedgerKey → ℚ} {events : Dict (String × ℕ) WindowEvent}
    (hlength : ∀ event ∈ events.values, event.windowSeconds = length event.ledger)
    (ledger : LedgerKey) {now t : Instant} (ht : now ≤ t) :
    windowLoad length (pruneEvents events now).values ledger t =
      windowLoad length events.values ledger t := by
  obtain ⟨entries, hnodup⟩ := events
  change ∀ event ∈ entries.map Prod.snd, event.windowSeconds = length event.ledger at hlength
  change windowLoad length ((entries.filter fun e =>
    decide ¬ e.2.settledAt ≤ now - e.2.windowSeconds).map Prod.snd) ledger t =
      windowLoad length (entries.map Prod.snd) ledger t
  clear hnodup
  induction entries with
  | nil => rfl
  | cons entry entries ih =>
      have htail := ih fun event hevent => hlength event (List.mem_cons_of_mem _ hevent)
      have hhead : entry.2.windowSeconds = length entry.2.ledger :=
        hlength _ List.mem_cons_self
      by_cases hold : entry.2.settledAt ≤ now - entry.2.windowSeconds
      · have hgone : ¬ (entry.2.ledger = ledger ∧ entry.2.settledAt > t - length ledger) := by
          rintro ⟨rfl, hin⟩
          linarith
        rw [List.filter_cons_of_neg (by simpa using hold), htail, List.map_cons,
          windowLoad_cons, if_neg hgone, zero_add]
      · rw [List.filter_cons_of_pos (by simpa using hold), List.map_cons, List.map_cons,
          windowLoad_cons, windowLoad_cons, htail]

theorem windowSettled_eq_windowLoad {length : LedgerKey → ℚ} (events : List WindowEvent)
    (now : Instant) {request : WindowReservation}
    (hlength : request.windowSeconds = length (windowKey request)) :
    windowSettled events now request = windowLoad length events (windowKey request) now := by
  rw [windowSettled, windowLoad, hlength]
  congr 2
  apply List.filter_congr
  intro event _
  rw [decide_eq_decide]
  simp [WindowEvent.ledger, windowKey, and_assoc]

/-- The details of a reservation name the lengths of their ledgers. -/
def LengthsFrom (length : LedgerKey → ℚ) (details : List Detail) : Prop :=
  ∀ detail ∈ details, detail.kind = .window →
    detail.windowSeconds = some (length (detail.scopeId, detail.meter))

theorem lengthsFrom_details {limit : LedgerKey → Decimal} {length : LedgerKey → ℚ}
    {rows : List BudgetRow} {windows : List WindowReservation}
    (h : ∀ request ∈ windows, request.limit = limit (windowKey request) ∧
      request.windowSeconds = length (windowKey request)) :
    LengthsFrom length (rows.map budgetDetail ++ windows.map windowDetail) := by
  intro detail hdetail hkind
  rcases List.mem_append.mp hdetail with hdetail | hdetail
  · obtain ⟨row, -, rfl⟩ := List.mem_map.mp hdetail
    cases hkind
  · obtain ⟨request, hrequest, rfl⟩ := List.mem_map.mp hdetail
    exact congrArg some (h request hrequest).2

theorem mem_settlementEvents {reservationId : String} {charges : Dict String Decimal}
    {now : Instant} {index : ℕ} {details : List Detail} {e : (String × ℕ) × WindowEvent}
    (h : e ∈ settlementEvents reservationId charges now index details) :
    ∃ detail ∈ details, detail.kind = .window ∧ e.2.ledger = (detail.scopeId, detail.meter) ∧
      detail.windowSeconds = some e.2.windowSeconds ∧ e.2.settledAt = now ∧
      e.2.amount = charges.getD detail.meter 0 := by
  induction details generalizing index with
  | nil => simp [settlementEvents] at h
  | cons detail details ih =>
      have hrest : e ∈ settlementEvents reservationId charges now (index + 1) details →
          ∃ d ∈ detail :: details, d.kind = .window ∧ e.2.ledger = (d.scopeId, d.meter) ∧
            d.windowSeconds = some e.2.windowSeconds ∧ e.2.settledAt = now ∧
            e.2.amount = charges.getD d.meter 0 := by
        intro h
        obtain ⟨d, hd, hspec⟩ := ih h
        exact ⟨d, List.mem_cons_of_mem _ hd, hspec⟩
      simp only [settlementEvents] at h
      split at h
      · next hkind hseconds =>
          split at h
          · exact hrest h
          · rcases List.mem_cons.mp h with rfl | h
            · exact ⟨detail, List.mem_cons_self, hkind, rfl, hseconds, rfl, rfl⟩
            · exact hrest h
      · exact hrest h

/-- The events of a settlement weigh at most its charges. -/
theorem windowLoad_settlementEvents {length : LedgerKey → ℚ} {reservationId : String}
    {charges : Dict String Decimal} {now : Instant} {details : List Detail}
    (hnonneg : ∀ detail ∈ details, detail.kind = .window → 0 ≤ charges.getD detail.meter 0)
    (index : ℕ) (ledger : LedgerKey) (t : Instant) :
    windowLoad length ((settlementEvents reservationId charges now index details).map
        Prod.snd) ledger t ≤ chargeOn .window charges details ledger := by
  induction details generalizing index with
  | nil => simp [settlementEvents, windowLoad, chargeOn, detailSum]
  | cons detail details ih =>
      have hhead : ∀ d ∈ [detail], d.kind = .window → 0 ≤ charges.getD d.meter 0 := by
        intro d hd
        rw [List.mem_singleton.mp hd]
        exact hnonneg detail List.mem_cons_self
      have hzero := detailSum_nonneg hhead ledger
      have htail := ih (fun d hd => hnonneg d (List.mem_cons_of_mem _ hd)) (index + 1)
      rw [chargeOn] at htail ⊢
      rw [detailSum_cons]
      simp only [settlementEvents]
      split
      · next hkind hseconds =>
          split
          · linarith
          · rw [List.map_cons, windowLoad_cons]
            refine add_le_add ?_ htail
            split
            · next hin =>
                obtain ⟨rfl, -⟩ := hin
                simp [detailSum, WindowEvent.ledger, hkind]
            · exact hzero
      · linarith

/-! ## The invariant -/

/-- What every state of a disciplined run satisfies. -/
structure WindowLog (limit : LedgerKey → Decimal) (length : LedgerKey → ℚ) (s : Timeline) :
    Prop where
  sound : Sound limit s.clock (book .window (windowLoad length s.history) s.kv)
  bucket : ∀ ledger t, s.clock ≤ t →
    windowLoad length s.kv.windowEvents.values ledger t = windowLoad length s.history ledger t
  lengths : ∀ event ∈ s.kv.windowEvents.values, event.windowSeconds = length event.ledger
  details : ∀ reservationId record, s.kv.reservations.get? reservationId = some record →
    LengthsFrom length record.details
  owned : EventsOwned s.kv
  past : ∀ event ∈ s.history, event.settledAt ≤ s.clock
  nonneg : ∀ event ∈ s.history, 0 ≤ event.amount
  within : ∀ ledger t, windowSum length s.history ledger t ≤ limit ledger

section Step

variable {H : Digests} {limit : LedgerKey → Decimal} {length : LedgerKey → ℚ}
  {s : Timeline} {i : Issued} {after : KVState}

/-- The clock moves on and the store stays as it is. -/
theorem WindowLog.later (hs : WindowLog limit length s) {now : Instant}
    (hnow : s.clock ≤ now) : WindowLog limit length { s with clock := now } where
  sound := hs.sound.later hnow
  bucket ledger t ht := hs.bucket ledger t (hnow.trans ht)
  lengths := hs.lengths
  details := hs.details
  owned := hs.owned
  past event hevent := (hs.past event hevent).trans hnow
  nonneg := hs.nonneg
  within := hs.within

/-- A transaction that writes no event keeps the invariant. -/
theorem WindowLog.quiet (hs : WindowLog limit length s) {now : Instant}
    (hnow : s.clock ≤ now) (howned : EventsOwned after)
    (hevents : after.windowEvents = s.kv.windowEvents ∨
      after.windowEvents = pruneEvents s.kv.windowEvents now)
    (hdetails : ∀ reservationId record, after.reservations.get? reservationId = some record →
      LengthsFrom length record.details)
    (hmove : Step limit now (book .window (windowLoad length s.history) s.kv)
      (book .window (windowLoad length s.history) after)) :
    WindowLog limit length ⟨after, now, s.history ++ newEvents s.kv after⟩ := by
  have hsubset : ∀ key event, after.windowEvents.get? key = some event →
      s.kv.windowEvents.get? key = some event := by
    intro key event hevent
    rcases hevents with h | h <;> rw [h] at hevent
    · exact hevent
    · exact get?_of_pruneEvents hevent
  have hvalues : ∀ event ∈ after.windowEvents.values, event ∈ s.kv.windowEvents.values := by
    intro event hevent
    obtain ⟨key, hkey⟩ := Dict.exists_get?_of_mem_values hevent
    exact Dict.mem_values_of_get? (hsubset key event hkey)
  have hload : ∀ ledger t, now ≤ t → windowLoad length after.windowEvents.values ledger t =
      windowLoad length s.kv.windowEvents.values ledger t := by
    intro ledger t ht
    rcases hevents with h | h <;> rw [h]
    exact windowLoad_prune hs.lengths ledger ht
  have hlater := hs.later hnow
  rw [newEvents_of_subset hsubset, List.append_nil]
  exact
    { sound := hs.sound.step hnow hmove
      bucket := fun ledger t ht => (hload ledger t ht).trans (hlater.bucket ledger t ht)
      lengths := fun event hevent => hs.lengths event (hvalues event hevent)
      details := hdetails
      owned := howned
      past := hlater.past
      nonneg := hs.nonneg
      within := hs.within }

/-- Overwriting one record keeps the lengths of all. -/
theorem details_set (hs : WindowLog limit length s) {reservationId : String}
    {record : ReservationRecord} (hrecord : LengthsFrom length record.details) :
    ∀ key r, (s.kv.reservations.set reservationId record).get? key = some r →
      LengthsFrom length r.details := by
  intro key r hr
  rw [Dict.get?_set] at hr
  split at hr
  · cases hr
    exact hrecord
  · exact hs.details key r hr

/-- A request whose windows pass fits on each ledger it touches. -/
theorem fits_of_windows (hs : WindowLog limit length s) {now : Instant}
    (hnow : s.clock ≤ now) {rows : List BudgetRow} {windows : List WindowReservation}
    (hnodup : (windows.map windowKey).Nodup)
    (huniform : ∀ request ∈ windows, request.limit = limit (windowKey request) ∧
      request.windowSeconds = length (windowKey request))
    (room : ∀ request ∈ windows,
      windowSettled (pruneEvents s.kv.windowEvents now).values now request
        + activeAmount (activeReservations s.kv.reservations now) .window request.ledgerKey
          request.meter + request.amount ≤ request.limit)
    (ledger : LedgerKey)
    (hne : detailAmount .window (rows.map budgetDetail ++ windows.map windowDetail) ledger ≠ 0) :
    windowLoad length s.history ledger now
      + activeAmount (activeReservations s.kv.reservations now) .window ledger.1 ledger.2
      + detailAmount .window (rows.map budgetDetail ++ windows.map windowDetail) ledger
        ≤ limit ledger := by
  rw [detailAmount, detailSum_requests] at hne ⊢
  by_cases hmem : ledger ∈ windows.map windowKey
  · obtain ⟨request, hrequest, rfl⟩ := List.mem_map.mp hmem
    have hfits := room request hrequest
    rw [windowSettled_eq_windowLoad _ _ (huniform request hrequest).2,
      windowLoad_prune hs.lengths _ le_rfl, hs.bucket _ _ hnow,
      (huniform request hrequest).1] at hfits
    rw [sum_filter_key hnodup hrequest]
    exact hfits
  · exact absurd (sum_filter_key_of_not_mem hmem _) hne

/-- A settlement turns its hold into events. -/
theorem WindowLog.settle (hs : WindowLog limit length s) {now : Instant}
    (hnow : s.clock ≤ now) {reservationId : String} {charges : Dict String Decimal}
    {current record : ReservationRecord}
    (found : s.kv.reservations.get? reservationId = some current)
    (active : current.state = .active)
    (loop : settleDetails reservationId charges now 0 current.details s.kv = .ok after)
    (state : record.state = .settled) (details : record.details = current.details)
    (hlive : now < current.expiresAt)
    (hcharges : ∀ detail ∈ current.details, detail.kind = .window →
      charges.getD detail.meter 0 ≤ detail.amount)
    (hnonneg : ∀ detail ∈ current.details, detail.kind = .window →
      0 ≤ charges.getD detail.meter 0) :
    WindowLog limit length
      ⟨{ after with reservations := s.kv.reservations.set reservationId record }, now,
        s.history ++ newEvents s.kv
          { after with reservations := s.kv.reservations.set reservationId record }⟩ := by
  have hentries := settled_events hs.owned found active loop
  generalize hadded : settlementEvents reservationId charges now 0 current.details = added
    at hentries
  have hfresh : ∀ e ∈ added, s.kv.windowEvents.get? e.1 = none := by
    intro e he
    rw [← hadded] at he
    have hkey : e.1 = (reservationId, e.1.2) := Prod.ext (settlementEvents_key he).1 rfl
    rw [hkey]
    exact hs.owned.fresh found active e.1.2
  have hspec : ∀ e ∈ added, e.2.settledAt = now ∧ 0 ≤ e.2.amount ∧
      e.2.windowSeconds = length e.2.ledger := by
    intro e he
    rw [← hadded] at he
    obtain ⟨detail, hdetail, hkind, hledger, hseconds, hat, hamount⟩ := mem_settlementEvents he
    have hlength := hs.details _ _ found detail hdetail hkind
    rw [hseconds, ← hledger, Option.some.injEq] at hlength
    exact ⟨hat, hamount ▸ hnonneg detail hdetail hkind, hlength⟩
  have hnew : newEvents s.kv
      { after with reservations := s.kv.reservations.set reservationId record } =
      added.map Prod.snd := newEvents_of_append hentries hfresh
  have hvalues : after.windowEvents.values =
      s.kv.windowEvents.values ++ added.map Prod.snd := by
    simp only [Dict.values, hentries, List.map_append]
  have hpast : ∀ event ∈ s.history ++ added.map Prod.snd, event.settledAt ≤ now := by
    intro event hevent
    rcases List.mem_append.mp hevent with hevent | hevent
    · exact (hs.past event hevent).trans hnow
    · obtain ⟨e, he, rfl⟩ := List.mem_map.mp hevent
      exact (hspec e he).1.le
  have hpositive : ∀ event ∈ s.history ++ added.map Prod.snd, 0 ≤ event.amount := by
    intro event hevent
    rcases List.mem_append.mp hevent with hevent | hevent
    · exact hs.nonneg event hevent
    · obtain ⟨e, he, rfl⟩ := List.mem_map.mp hevent
      exact (hspec e he).2.1
  rw [hnew]
  have hsound : Sound limit now
      (book .window (windowLoad length (s.history ++ added.map Prod.snd))
        { after with reservations := s.kv.reservations.set reservationId record }) := by
    refine hs.sound.step hnow (move_of_settled rfl found active state hlive ?_ ?_)
    · intro ledger t _
      have hcost : windowLoad length (added.map Prod.snd) ledger t ≤
          detailAmount .window current.details ledger := by
        rw [← hadded]
        exact (windowLoad_settlementEvents hnonneg 0 ledger t).trans
          (detailSum_le hcharges ledger)
      rw [windowLoad_append]
      exact add_le_add_right hcost _
    · intro ledger t u _ htu
      exact windowLoad_anti hpositive htu
  exact
    { sound := hsound
      bucket := by
        intro ledger t ht
        dsimp only
        rw [hvalues, windowLoad_append, windowLoad_append, hs.bucket ledger t (hnow.trans ht)]
      lengths := by
        intro event hevent
        dsimp only at hevent
        rw [hvalues] at hevent
        rcases List.mem_append.mp hevent with hevent | hevent
        · exact hs.lengths event hevent
        · obtain ⟨e, he, rfl⟩ := List.mem_map.mp hevent
          exact (hspec e he).2.2
      details := details_set hs (details ▸ hs.details _ _ found)
      owned := hs.owned.settle found active loop state
      past := hpast
      nonneg := hpositive
      within := by
        intro ledger t
        by_cases ht : now ≤ t
        · -- The bound on load and holds covers the load alone.
          have hload := hsound.within ledger t ht
          have hheld := held_nonneg hsound.nonneg ledger t
          dsimp only
          rw [windowSum_eq_windowLoad fun event hevent => (hpast event hevent).trans ht]
          exact (le_add_of_nonneg_right hheld).trans hload
        · dsimp only
          rw [windowSum_append_of_later]
          · exact hs.within ledger t
          · intro event hevent
            obtain ⟨e, he, rfl⟩ := List.mem_map.mp hevent
            rw [(hspec e he).1]
            exact not_le.mp ht }

/-- A disciplined transaction keeps the invariant. -/
theorem WindowLog.commits (hs : WindowLog limit length s)
    (hcommits : Commits H i.now s.kv i.call after)
    (hdiscipline : WindowDiscipline limit length s i) :
    WindowLog limit length ⟨after, i.now, s.history ++ newEvents s.kv after⟩ := by
  obtain ⟨now, call⟩ := i
  obtain ⟨⟨hnow, huniform⟩, horderly⟩ := hdiscipline
  simp only [WindowOrderly] at horderly
  dsimp only at hcommits hnow huniform ⊢
  have howned := hs.owned.commits hcommits
  cases hcommits with
  | unchanged => exact hs.quiet hnow howned (.inl rfl) hs.details .idle
  | refusedByBudget rows => exact hs.quiet hnow howned (.inl rfl) hs.details .idle
  | refusedByWindow rows => exact hs.quiet hnow howned (.inr rfl) hs.details .idle
  | admitted fresh rows room state details =>
      refine hs.quiet hnow howned (.inr rfl) (details_set hs ?_)
        (move_of_admitted rfl fresh state ?_ ?_)
      · rw [details]
        exact lengthsFrom_details huniform
      · intro detail hdetail hkind
        rw [details] at hdetail
        rcases List.mem_append.mp hdetail with hdetail | hdetail
        · obtain ⟨row, -, rfl⟩ := List.mem_map.mp hdetail
          cases hkind
        · obtain ⟨request, hrequest, rfl⟩ := List.mem_map.mp hdetail
          exact horderly.2 request hrequest
      · rw [details]
        exact fits_of_windows hs hnow horderly.1 huniform fun request hrequest =>
          reserveWindows_fits room request ((List.mem_insertionSort _).mpr hrequest)
  | settled found active nonempty loop state details =>
      obtain ⟨hlive, hcharges⟩ := huniform _ found active
      exact hs.settle hnow found active loop state details hlive hcharges
        (horderly _ found active)
  | released found active state details =>
      exact hs.quiet hnow howned (.inl rfl) (details_set hs (details ▸ hs.details _ _ found))
        (move_of_released found active state)
  | renewed found active live =>
      have hlengths := hs.details _ _ found
      exact hs.quiet hnow howned (.inl rfl) (details_set hs hlengths)
        (move_of_renewed found active live)

theorem WindowLog.step (hs : WindowLog limit length s)
    (hdiscipline : WindowDiscipline limit length s i) :
    WindowLog limit length (s.step H i) := by
  unfold Timeline.step
  split
  · exact hs.later hdiscipline.1.1
  · next hperform => exact hs.commits (commits_of_perform hperform) hdiscipline

end Step

theorem windowLog_start {limit : LedgerKey → Decimal} {length : LedgerKey → ℚ}
    (hlimit : ∀ ledger, 0 ≤ limit ledger) (clock : Instant) :
    WindowLog limit length (Timeline.start clock) where
  sound :=
    { aging := fun _ _ _ _ _ => le_rfl
      nonneg := fun _ _ h => by cases h
      within := fun ledger t _ => (add_zero (0 : Decimal)).le.trans (hlimit ledger) }
  bucket _ _ _ := rfl
  lengths _ h := by cases h
  details _ _ h := by cases h
  owned := eventsOwned_empty
  past _ h := by cases h
  nonneg _ h := by cases h
  within ledger _ := hlimit ledger

/-- In every state of a disciplined run, what was settled in any window of a ledger
stays within its limit, and so does the present window together with the unexpired
active reservations. -/
theorem window_never_overcommitted (H : Digests) (limit : LedgerKey → Decimal)
    (length : LedgerKey → ℚ) (hlimit : ∀ ledger, 0 ≤ limit ledger) (clock : Instant)
    (issued : List Issued)
    (hrun : Machine.Along (Timeline.step H) (WindowDiscipline limit length) (.start clock)
      issued) (ledger : LedgerKey) (t : Instant) :
    let s := Machine.run (Timeline.step H) (.start clock) issued
    windowSum length s.history ledger t ≤ limit ledger ∧
      (s.clock ≤ t → windowSum length s.history ledger t +
        activeAmount (activeReservations s.kv.reservations t) .window ledger.1 ledger.2
          ≤ limit ledger) := by
  intro s
  have hlog : WindowLog limit length s := Machine.invariant_run (WindowLog limit length)
    (fun s i hs hi => hs.step hi) (windowLog_start hlimit clock) hrun
  refine ⟨hlog.within ledger t, fun ht => ?_⟩
  have hwithin := hlog.sound.within ledger t ht
  rw [held_book] at hwithin
  rw [windowSum_eq_windowLoad fun event hevent => (hlog.past event hevent).trans ht]
  exact hwithin

/-- A reservation made in one window position and settled in another; the second
client is refused until the event has left the window. -/
def slidingRun : List Issued :=
  let request (amount : Decimal) : WindowReservation := ⟨"window", "calls", 3, amount, 10⟩
  [⟨0, .reserve "first" [] [request 2] 8⟩,
    ⟨5, .renew "first" 8⟩,
    ⟨12, .settle "first" (.ofList [("calls", 2)])⟩,
    ⟨21, .reserve "second" [] [request 2] 8⟩,
    ⟨22, .reserve "second" [] [request 2] 8⟩]

theorem window_never_overcommitted_slidingRun :
    let s := Machine.run (Timeline.step ⟨fun _ => "", fun _ => ""⟩) (.start 0) slidingRun
    windowSum (fun _ => 10) s.history ("window", "calls") 15 ≤ 3 ∧
      windowSum (fun _ => 10) s.history ("window", "calls") 22 +
        activeAmount (activeReservations s.kv.reservations 22) .window "window" "calls" ≤ 3 :=
  ⟨(window_never_overcommitted _ (fun _ => 3) (fun _ => 10) (fun _ => by norm_num) 0 slidingRun
      (by decide +kernel) ("window", "calls") 15).1,
    (window_never_overcommitted _ (fun _ => 3) (fun _ => 10) (fun _ => by norm_num) 0 slidingRun
      (by decide +kernel) ("window", "calls") 22).2 (by decide +kernel)⟩

/-- What the active reservations and the settled events of the window come to after
a run in which every request uses one limit and one length of ten seconds. -/
def occupied (issued : List Issued) (t : Instant) : Decimal :=
  let s := Machine.run (Timeline.step ⟨fun _ => "", fun _ => ""⟩) (.start 0) issued
  windowSum (fun _ => 10) s.history ("window", "calls") t +
    activeAmount (activeReservations s.kv.reservations t) .window "window" "calls"

def windowRequest (amount : Decimal) : WindowReservation := ⟨"window", "calls", 3, amount, 10⟩

/-- One request names the window twice. -/
def repeatedWindowRun : List Issued :=
  [⟨0, .reserve "first" [] [windowRequest 2, windowRequest 2] 60⟩]

/-- A negative amount makes room that its release takes away. -/
def negativeAmountRun : List Issued :=
  [⟨0, .reserve "first" [] [windowRequest (-5)] 60⟩,
    ⟨1, .reserve "second" [] [windowRequest 8] 60⟩,
    ⟨2, .release "first"⟩]

/-- A negative charge makes room that ends when its event leaves the window. -/
def negativeChargeRun : List Issued :=
  [⟨0, .reserve "first" [] [windowRequest 0] 60⟩,
    ⟨1, .settle "first" (.ofList [("calls", -5)])⟩,
    ⟨2, .reserve "second" [] [windowRequest 8] 60⟩,
    ⟨12, .renew "second" 60⟩]

/-- Uniform limits and lengths and settlements within the holds are not enough: the
windows of a request have to be distinct, its amounts and charges nonnegative. -/
theorem window_overcommitted_by_repeats_and_negatives :
    let step := Timeline.step ⟨fun _ => "", fun _ => ""⟩
    let uniform := Machine.Along step (WindowUniform (fun _ => 3) fun _ => 10) (.start 0)
    (uniform repeatedWindowRun ∧ 3 < occupied repeatedWindowRun 0) ∧
    (uniform negativeAmountRun ∧ 3 < occupied negativeAmountRun 2) ∧
    (uniform negativeChargeRun ∧ 3 < occupied negativeChargeRun 12) ∧
    ∃ limit : Decimal, limit < 0 ∧ limit < occupied [] 0 := by
  refine ⟨by decide +kernel, by decide +kernel, by decide +kernel, -1, ?_⟩
  decide +kernel

end Pollard.Stores.Transactional
