import Pollard.Lib.LeasedCapacity
import Pollard.Stores.TransactionalSteps

/-!
# The arbiter as a book of leased capacity

An active reservation is a hold: it sets its details aside until its lease ends.
Opening, settling, releasing and renewing one is then a move of the book, whatever
counts as load.
-/

namespace Pollard.Stores.Transactional

open Lib
open Lib.LeasedCapacity

/-- The hold an active reservation stands for. -/
def holdOf (kind : DetailKind) (reservation : ReservationRecord) :
    Option (Hold LedgerKey Instant Decimal) :=
  if reservation.state = .active then
    some ⟨reservation.expiresAt, detailAmount kind reservation.details⟩
  else none

/-- The book of one kind of ledger, for a given notion of load. -/
def book (kind : DetailKind) (load : LedgerKey → Instant → Decimal) (kv : KVState) :
    Book LedgerKey String Instant Decimal :=
  ⟨load, kv.reservations.filterMap (holdOf kind)⟩

theorem holdOf_active {kind : DetailKind} {reservation : ReservationRecord}
    (h : reservation.state = .active) :
    holdOf kind reservation =
      some ⟨reservation.expiresAt, detailAmount kind reservation.details⟩ := by
  rw [holdOf, if_pos h]

theorem holdOf_closed {kind : DetailKind} {reservation : ReservationRecord}
    (h : reservation.state ≠ .active) : holdOf kind reservation = none := by
  rw [holdOf, if_neg h]

/-- The holds of the book weigh what the source's active reservations weigh. -/
theorem held_book (kind : DetailKind) (load : LedgerKey → Instant → Decimal) (kv : KVState)
    (ledger : LedgerKey) (now : Instant) :
    (book kind load kv).held ledger now =
      activeAmount (activeReservations kv.reservations now) kind ledger.1 ledger.2 := by
  obtain ⟨budget, ⟨entries, hnodup⟩, windowEvents⟩ := kv
  change (((entries.filterMap fun e => (holdOf kind e.2).map fun w => (e.1, w)).map
      Prod.snd).map fun h : Hold LedgerKey Instant Decimal => h.live ledger now).sum =
    (((entries.map Prod.snd).filter fun reservation : ReservationRecord =>
      decide (reservation.state = .active ∧ reservation.expiresAt > now)).map
        fun reservation => detailAmount kind reservation.details ledger).sum
  clear hnodup
  induction entries with
  | nil => rfl
  | cons entry rest ih =>
      obtain ⟨key, reservation⟩ := entry
      by_cases hactive : reservation.state = .active
      · by_cases hlive : now < reservation.expiresAt
        · simp only [List.filterMap_cons, holdOf_active hactive, Option.map_some,
            List.map_cons, List.sum_cons, ih]
          simp [Hold.live, hlive, hactive]
        · simp only [List.filterMap_cons, holdOf_active hactive, Option.map_some,
            List.map_cons, List.sum_cons, ih]
          simp [Hold.live, hlive]
      · simp only [List.filterMap_cons, holdOf_closed hactive, Option.map_none, ih]
        simp [hactive]

theorem hold_found {kind : DetailKind} {load : LedgerKey → Instant → Decimal} {kv : KVState}
    {reservationId : String} {current : ReservationRecord}
    (found : kv.reservations.get? reservationId = some current)
    (active : current.state = .active) :
    (book kind load kv).holds.get? reservationId =
      some ⟨current.expiresAt, detailAmount kind current.details⟩ := by
  change (kv.reservations.filterMap (holdOf kind)).get? reservationId = _
  rw [Dict.get?_filterMap, found]
  exact holdOf_active active

/-! ## Each transaction is a move -/

section Moves

variable {kind : DetailKind} {load : LedgerKey → Instant → Decimal}
  {limit : LedgerKey → Decimal} {now : Instant} {kv : KVState}

theorem move_of_admitted {reservationId : String} {after : KVState}
    {record : ReservationRecord}
    (hafter : after.reservations = kv.reservations.set reservationId record)
    (fresh : kv.reservations.get? reservationId = none) (state : record.state = .active)
    (hnonneg : ∀ detail ∈ record.details, detail.kind = kind → 0 ≤ detail.amount)
    (hfits : ∀ ledger, detailAmount kind record.details ledger ≠ 0 →
      load ledger now
        + activeAmount (activeReservations kv.reservations now) kind ledger.1 ledger.2
        + detailAmount kind record.details ledger ≤ limit ledger) :
    Step limit now (book kind load kv) (book kind load after) := by
  have hbook : book kind load after = ⟨load, (book kind load kv).holds.set reservationId
      ⟨record.expiresAt, detailAmount kind record.details⟩⟩ := by
    rw [book, hafter, Dict.filterMap_set_of_get?_none fresh (holdOf_active state)]
    rfl
  rw [hbook]
  refine .grant reservationId _ ?_ ?_ ?_
  · change (kv.reservations.filterMap (holdOf kind)).get? reservationId = none
    rw [Dict.get?_filterMap, fresh]
    rfl
  · exact detailSum_nonneg hnonneg
  · intro ledger hne
    rw [held_book]
    exact hfits ledger hne

theorem move_of_settled {load' : LedgerKey → Instant → Decimal} {reservationId : String}
    {current record : ReservationRecord} {after : KVState}
    (hafter : after.reservations = kv.reservations.set reservationId record)
    (found : kv.reservations.get? reservationId = some current)
    (active : current.state = .active) (state : record.state = .settled)
    (hlive : now < current.expiresAt)
    (hcharged : ∀ ledger t, now ≤ t →
      load' ledger t ≤ load ledger t + detailAmount kind current.details ledger)
    (haging : ∀ ledger t u, now ≤ t → t ≤ u → load' ledger u ≤ load' ledger t) :
    Step limit now (book kind load kv) (book kind load' after) := by
  have hclosed : holdOf kind record = none := holdOf_closed (by simp [state])
  have hbook : book kind load' after =
      ⟨load', (book kind load kv).holds.erase reservationId⟩ := by
    rw [book, hafter, Dict.filterMap_set_of_none hclosed]
    rfl
  rw [hbook]
  exact .settle reservationId _ load' (hold_found found active) hlive hcharged haging

theorem move_of_released {reservationId : String} {current record : ReservationRecord}
    (found : kv.reservations.get? reservationId = some current)
    (active : current.state = .active) (state : record.state = .released) :
    Step limit now (book kind load kv) (book kind load
      { kv with reservations := kv.reservations.set reservationId record }) := by
  have hclosed : holdOf kind record = none := holdOf_closed (by simp [state])
  have hbook : book kind load { kv with
      reservations := kv.reservations.set reservationId record } =
      ⟨load, (book kind load kv).holds.erase reservationId⟩ := by
    rw [book, Dict.filterMap_set_of_none hclosed]
    rfl
  rw [hbook]
  exact .drop reservationId _ (hold_found found active)

theorem move_of_renewed {reservationId : String} {leaseSeconds : ℚ}
    {current : ReservationRecord}
    (found : kv.reservations.get? reservationId = some current)
    (active : current.state = .active) (live : now < current.expiresAt) :
    Step limit now (book kind load kv) (book kind load
      { kv with
        reservations := kv.reservations.set reservationId
          { current with expiresAt := now + leaseSeconds } }) := by
  have hbook : book kind load
        { kv with
          reservations := kv.reservations.set reservationId
            { current with expiresAt := now + leaseSeconds } } =
      ⟨load, (book kind load kv).holds.set reservationId
        ⟨now + leaseSeconds, detailAmount kind current.details⟩⟩ := by
    have hrenewed : holdOf kind { current with expiresAt := now + leaseSeconds } =
        some ⟨now + leaseSeconds, detailAmount kind current.details⟩ := holdOf_active active
    rw [book, Dict.filterMap_set_of_get?_some found (holdOf_active active) hrenewed]
    rfl
  rw [hbook]
  exact .extend reservationId _ _ (hold_found found active) live

end Moves

end Pollard.Stores.Transactional
