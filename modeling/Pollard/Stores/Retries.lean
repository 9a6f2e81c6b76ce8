import Pollard.Stores.Settlement
import Pollard.Lib.Fallible

/-!
# Reissuing a transaction

A client whose transaction committed without an answer issues it again.  In the
meantime any transactions of any clients may have committed.  The record under a
reservation id answers the retry: its request never changes, and once it is settled
or released it is never written again.
-/

namespace Pollard.Stores.Transactional

open Lib Lib.Fallible

/-! ## The life of a record -/

/-- What later transactions leave of a record. -/
structure Descends (before after : ReservationRecord) : Prop where
  request : after.requestDigest = before.requestDigest
  closed : before.state ≠ .active → after = before

theorem Descends.refl (record : ReservationRecord) : Descends record record :=
  ⟨rfl, fun _ => rfl⟩

theorem Descends.trans {a b c : ReservationRecord} (hab : Descends a b)
    (hbc : Descends b c) : Descends a c := by
  refine ⟨hbc.request.trans hab.request, fun hclosed => ?_⟩
  have hb : b = a := hab.closed hclosed
  rw [hbc.closed (hb ▸ hclosed), hb]

/-- The only writes to the bucket of reservations: a new record, or a new version of
an active one. -/
inductive RecordWrite (kv after : KVState) : Prop
  | none (same : after.reservations = kv.reservations)
  | created {reservationId : String} {record : ReservationRecord}
      (fresh : kv.reservations.get? reservationId = none)
      (written : after.reservations = kv.reservations.set reservationId record)
  | updated {reservationId : String} {current record : ReservationRecord}
      (found : kv.reservations.get? reservationId = some current)
      (active : current.state = .active)
      (written : after.reservations = kv.reservations.set reservationId record)
      (request : record.requestDigest = current.requestDigest)

theorem recordWrite_of_reserveOnce {H : Digests} {now : Instant} {reservationId : String}
    {budgets : List BudgetReservation} {windows : List WindowReservation} {leaseSeconds : ℚ}
    {kv after : KVState} {check : ReservationCheck}
    (h : reserveOnce H now reservationId budgets windows leaseSeconds kv =
      .ok (check, after)) : RecordWrite kv after := by
  cases commits_of_reserveOnce h with
  | unchanged => exact .none rfl
  | refusedByBudget rows => exact .none rfl
  | refusedByWindow rows => exact .none rfl
  | admitted fresh => exact .created fresh rfl

theorem recordWrite_of_settleOnce {H : Digests} {now : Instant} {reservationId : String}
    {charges : Dict String Decimal} {kv after : KVState}
    (h : settleOnce H now reservationId charges kv = .ok after) : RecordWrite kv after := by
  unfold settleOnce at h
  dsimp only at h
  split at h
  · cases h
  · next current found =>
      split at h
      · split at h
        · cases h
        · cases h
          exact .none rfl
      · cases h
      · next active =>
          split at h
          · cases h
          · obtain ⟨middle, hloop, rfl⟩ := map_ok_iff.mp h
            have hsame : middle.reservations = kv.reservations :=
              settleDetails_reservations hloop
            refine @RecordWrite.updated _ _ _ _ { current with
              state := .settled
              chargesDigest := some (H.charges (reservationCharges charges))
              charges := some (reservationCharges charges)
              completedAt := some now } found active ?_ rfl
            rw [hsame]

theorem recordWrite_of_releaseOnce {now : Instant} {reservationId : String}
    {kv after : KVState} (h : releaseOnce now reservationId kv = .ok after) :
    RecordWrite kv after := by
  unfold releaseOnce at h
  split at h
  · cases h
    exact .none rfl
  · next current found =>
      split at h
      · cases h
        exact .none rfl
      · cases h
      · next active =>
          cases h
          exact .updated found active rfl rfl

theorem recordWrite_of_renewOnce (now : Instant) (reservationId : String) (leaseSeconds : ℚ)
    (kv : KVState) : RecordWrite kv (renewOnce now reservationId leaseSeconds kv).2 := by
  unfold renewOnce
  split
  · exact .none rfl
  · next current found =>
      split
      · exact .none rfl
      · next hlive =>
          rw [not_or, not_not, not_le] at hlive
          exact .updated found hlive.1 rfl rfl

theorem recordWrite_of_perform {H : Digests} {now : Instant} {kv after : KVState}
    {call : ClientCall} {reply : Reply} (h : perform H now kv call = .ok (reply, after)) :
    RecordWrite kv after := by
  cases call with
  | reserve reservationId budgets windows leaseSeconds =>
      obtain ⟨r, hr, heq⟩ := map_ok_iff.mp h
      obtain ⟨-, rfl⟩ := Prod.mk.inj heq
      exact recordWrite_of_reserveOnce hr
  | settle reservationId charges =>
      obtain ⟨r, hr, heq⟩ := map_ok_iff.mp h
      obtain ⟨-, rfl⟩ := Prod.mk.inj heq
      exact recordWrite_of_settleOnce hr
  | release reservationId =>
      obtain ⟨r, hr, heq⟩ := map_ok_iff.mp h
      obtain ⟨-, rfl⟩ := Prod.mk.inj heq
      exact recordWrite_of_releaseOnce hr
  | renew reservationId leaseSeconds =>
      simp only [perform, Except.ok.injEq, Prod.mk.injEq] at h
      rw [← h.2]
      exact recordWrite_of_renewOnce now reservationId leaseSeconds kv

theorem RecordWrite.descends {kv after : KVState} (h : RecordWrite kv after)
    {reservationId : String} {record : ReservationRecord}
    (hrecord : kv.reservations.get? reservationId = some record) :
    ∃ later, after.reservations.get? reservationId = some later ∧ Descends record later := by
  cases h with
  | none same => exact ⟨record, by rw [same, hrecord], .refl record⟩
  | @created other created fresh written =>
      have hne : reservationId ≠ other := by
        rintro rfl
        rw [hrecord] at fresh
        cases fresh
      exact ⟨record, by rw [written, Dict.get?_set_of_ne _ _ (Ne.symm hne), hrecord], .refl record⟩
  | @updated other current version found active written request =>
      by_cases heq : reservationId = other
      · subst heq
        rw [hrecord, Option.some.injEq] at found
        subst found
        exact ⟨version, by rw [written, Dict.get?_set_self],
          request, fun hclosed => absurd active hclosed⟩
      · exact ⟨record, by rw [written, Dict.get?_set_of_ne _ _ (Ne.symm heq), hrecord], .refl record⟩

/-- A record descends along every run. -/
theorem descends_run (H : Digests) {s : Timeline} {reservationId : String}
    {record : ReservationRecord} (others : List Issued)
    (hrecord : s.kv.reservations.get? reservationId = some record) :
    ∃ later, (Machine.run (Timeline.step H) s others).kv.reservations.get? reservationId =
      some later ∧ Descends record later := by
  refine Machine.preserved_run (fun s : Timeline => ∃ later,
    s.kv.reservations.get? reservationId = some later ∧ Descends record later) ?_
    ⟨record, hrecord, .refl record⟩ others
  rintro s i ⟨later, hlater, hdescends⟩
  unfold Timeline.step
  split
  · exact ⟨later, hlater, hdescends⟩
  · next reply kv hperform =>
      obtain ⟨last, hlast, hfrom⟩ := (recordWrite_of_perform hperform).descends hlater
      exact ⟨last, hlast, hdescends.trans hfrom⟩

/-! ## What a committed call leaves on record -/

/-- An accepted reserve transaction has its request on record. -/
theorem recorded_of_reserveOnce {H : Digests} {now : Instant} {reservationId : String}
    {budgets : List BudgetReservation} {windows : List WindowReservation} {leaseSeconds : ℚ}
    {kv after : KVState} {check : ReservationCheck}
    (h : reserveOnce H now reservationId budgets windows leaseSeconds kv =
      .ok (check, after)) (hok : check.ok = true) :
    ∃ record, after.reservations.get? reservationId = some record ∧
      record.requestDigest = H.request (reservationRequest budgets windows leaseSeconds) := by
  unfold reserveOnce at h
  dsimp only at h
  split at h
  · next current found =>
      obtain ⟨check, hretry, heq⟩ := map_ok_iff.mp h
      obtain ⟨-, rfl⟩ := Prod.mk.inj heq
      refine ⟨current, found, ?_⟩
      by_contra hdigest
      rw [retryReserve, if_pos hdigest] at hretry
      cases hretry
  · split at h
    · next rows =>
        cases h
        rw [reserveBudgetRows_refused rows] at hok
        cases hok
    · split at h
      · next room =>
          cases h
          rw [reserveWindows_refused room] at hok
          cases hok
      · cases h
        exact ⟨_, Dict.get?_set_self _ _ _, rfl⟩

/-- A settle transaction that returned has its charges on record. -/
theorem recorded_of_settleOnce {H : Digests} {now : Instant} {reservationId : String}
    {charges : Dict String Decimal} {kv after : KVState}
    (h : settleOnce H now reservationId charges kv = .ok after) :
    ∃ record, after.reservations.get? reservationId = some record ∧
      record.state = .settled ∧
      record.chargesDigest = some (H.charges (reservationCharges charges)) := by
  unfold settleOnce at h
  dsimp only at h
  split at h
  · cases h
  · next current found =>
      split at h
      · next hstate =>
          split at h
          · cases h
          · next hdigest =>
              cases h
              exact ⟨current, found, hstate, not_not.mp hdigest⟩
      · cases h
      · split at h
        · cases h
        · obtain ⟨middle, -, rfl⟩ := map_ok_iff.mp h
          exact ⟨_, Dict.get?_set_self _ _ _, rfl, rfl⟩

/-- Releasing a known reservation leaves it released. -/
theorem recorded_of_releaseOnce {now : Instant} {reservationId : String} {kv after : KVState}
    (h : releaseOnce now reservationId kv = .ok after)
    (hknown : (kv.reservations.get? reservationId).isSome) :
    ∃ record, after.reservations.get? reservationId = some record ∧
      record.state = .released := by
  obtain ⟨current, found⟩ := Option.isSome_iff_exists.mp hknown
  simp only [releaseOnce, found] at h
  split at h
  · next hstate =>
      cases h
      exact ⟨current, found, hstate⟩
  · cases h
  · cases h
    exact ⟨_, Dict.get?_set_self _ _ _, rfl⟩

/-! ## Reissuing -/

/-- The transaction returns this reply and writes nothing. -/
def Confirms (H : Digests) (s : Timeline) (i : Issued) (reply : Reply) : Prop :=
  perform H i.now s.kv i.call = .ok (reply, s.kv)

/-- The transaction raises, and the store stays as it is. -/
def Rejects (H : Digests) (s : Timeline) (i : Issued) : Prop :=
  (∃ e, perform H i.now s.kv i.call = .error e) ∧ (s.step H i).kv = s.kv

/-- The transaction committed with this reply. -/
def Committed (H : Digests) (s : Timeline) (i : Issued) (reply : Reply) : Prop :=
  ∃ kv, perform H i.now s.kv i.call = .ok (reply, kv)

/-- The reservation is active and its lease has not run out. -/
def Holding (kv : KVState) (reservationId : String) (now : Instant) : Prop :=
  ∃ record, kv.reservations.get? reservationId = some record ∧ record.state = .active ∧
    now < record.expiresAt

/-- The store that a retry of `i` meets after the transactions of `others`. -/
def meanwhile (H : Digests) (s : Timeline) (i : Issued) (others : List Issued) : Timeline :=
  Machine.run (Timeline.step H) (s.step H i) others

theorem rejects_of_error {H : Digests} {s : Timeline} {i : Issued} {e : PyError}
    (h : perform H i.now s.kv i.call = .error e) : Rejects H s i := by
  refine ⟨⟨e, h⟩, ?_⟩
  rw [Timeline.step, h]

/-- The record a committed call left has descendants in the store of the retry. -/
theorem descends_meanwhile {H : Digests} {s : Timeline} {i : Issued} {reply : Reply}
    {kv : KVState} (h : perform H i.now s.kv i.call = .ok (reply, kv)) {reservationId : String}
    {record : ReservationRecord} (hrecord : kv.reservations.get? reservationId = some record)
    (others : List Issued) :
    ∃ later, (meanwhile H s i others).kv.reservations.get? reservationId = some later ∧
      Descends record later := by
  have hstep : (s.step H i).kv = kv := by rw [Timeline.step, h]
  exact descends_run H others (hstep ▸ hrecord)

/-- On a recorded id a reserve transaction is the retry check alone. -/
theorem perform_reserve_recorded (H : Digests) (now : Instant) {reservationId : String}
    (budgets : List BudgetReservation) (windows : List WindowReservation) (leaseSeconds : ℚ)
    {kv : KVState} {current : ReservationRecord}
    (found : kv.reservations.get? reservationId = some current) :
    perform H now kv (.reserve reservationId budgets windows leaseSeconds) =
      (retryReserve reservationId (H.request (reservationRequest budgets windows leaseSeconds))
        now current).map fun check => (.check check, kv) := by
  simp only [perform, reserveOnce, found]
  cases retryReserve reservationId (H.request (reservationRequest budgets windows leaseSeconds))
    now current with
  | error e => rfl
  | ok check => rfl

/-- The retry check of the recorded request passes if the reservation still holds. -/
theorem retryReserve_cases {reservationId digest : String} {now : Instant}
    {current : ReservationRecord} (hdigest : current.requestDigest = digest) :
    (current.state = .active ∧ now < current.expiresAt ∧
      retryReserve reservationId digest now current = .ok { ok := true }) ∨
    (¬ (current.state = .active ∧ now < current.expiresAt) ∧
      ∃ e, retryReserve reservationId digest now current = .error e) := by
  rw [retryReserve, if_neg (not_not.mpr hdigest)]
  split
  · next hstate => exact .inr ⟨fun h => hstate h.1, _, rfl⟩
  · next hstate =>
      split
      · next hexpired => exact .inr ⟨fun h => not_lt.mpr hexpired h.2, _, rfl⟩
      · next hlive => exact .inl ⟨not_not.mp hstate, not_le.mp hlive, rfl⟩

/-- A retried reserve call succeeds again exactly while the reservation holds. -/
theorem reserve_retried {H : Digests} {s : Timeline} {now : Instant} {reservationId : String}
    {budgets : List BudgetReservation} {windows : List WindowReservation} {leaseSeconds : ℚ}
    (h : Committed H s ⟨now, .reserve reservationId budgets windows leaseSeconds⟩
      (.check { ok := true })) (others : List Issued) (again : Instant) :
    let call := ClientCall.reserve reservationId budgets windows leaseSeconds
    let later := meanwhile H s ⟨now, call⟩ others
    (Holding later.kv reservationId again →
      Confirms H later ⟨again, call⟩ (.check { ok := true })) ∧
    (¬ Holding later.kv reservationId again → Rejects H later ⟨again, call⟩) ∧
    ∀ budgets' windows' leaseSeconds',
      H.request (reservationRequest budgets' windows' leaseSeconds') ≠
        H.request (reservationRequest budgets windows leaseSeconds) →
      Rejects H later ⟨again, .reserve reservationId budgets' windows' leaseSeconds'⟩ := by
  intro call later
  obtain ⟨kv, hperform⟩ := h
  obtain ⟨⟨check, accepted⟩, hreserve, heq⟩ := map_ok_iff.mp hperform
  obtain ⟨hcheck, rfl⟩ := Prod.mk.inj heq
  cases Reply.check.inj hcheck
  obtain ⟨record, hrecord, hdigest⟩ := recorded_of_reserveOnce hreserve rfl
  obtain ⟨current, hcurrent, hdescends⟩ := descends_meanwhile hperform hrecord others
  have hrequest : current.requestDigest =
      H.request (reservationRequest budgets windows leaseSeconds) :=
    hdescends.request.trans hdigest
  have hretry := perform_reserve_recorded H again budgets windows leaseSeconds hcurrent
  have hholding : Holding later.kv reservationId again ↔
      current.state = .active ∧ again < current.expiresAt := by
    constructor
    · rintro ⟨held, hheld, hactive, hlive⟩
      cases hcurrent.symm.trans hheld
      exact ⟨hactive, hlive⟩
    · rintro ⟨hactive, hlive⟩
      exact ⟨current, hcurrent, hactive, hlive⟩
  refine ⟨fun hheld => ?_, fun hlost => ?_, fun budgets' windows' leaseSeconds' hdifferent => ?_⟩
  · obtain ⟨-, -, hok⟩ | ⟨hlost, -⟩ := retryReserve_cases hrequest
    · rw [Confirms, hretry, hok]
      rfl
    · exact absurd (hholding.mp hheld) hlost
  · obtain ⟨hactive, hlive, -⟩ | ⟨-, e, herror⟩ := retryReserve_cases hrequest
    · exact absurd (hholding.mpr ⟨hactive, hlive⟩) hlost
    · exact rejects_of_error (hretry.trans (by rw [herror]; rfl))
  · refine rejects_of_error (e := .integrityError
      s!"reservation retry changed request: {reservationId}") ?_
    rw [perform_reserve_recorded H again budgets' windows' leaseSeconds' hcurrent,
      retryReserve, if_pos fun heq => hdifferent (heq.symm.trans hrequest)]
    rfl

/-- A retried settle call returns again, whatever happened in between. -/
theorem settle_retried {H : Digests} {s : Timeline} {now : Instant} {reservationId : String}
    {charges : Dict String Decimal}
    (h : Committed H s ⟨now, .settle reservationId charges⟩ .done) (others : List Issued)
    (again : Instant) :
    let call := ClientCall.settle reservationId charges
    let later := meanwhile H s ⟨now, call⟩ others
    Confirms H later ⟨again, call⟩ .done ∧
    ∀ charges', H.charges (reservationCharges charges') ≠
        H.charges (reservationCharges charges) →
      Rejects H later ⟨again, .settle reservationId charges'⟩ := by
  intro call later
  obtain ⟨kv, hperform⟩ := h
  obtain ⟨settled, hsettle, heq⟩ := map_ok_iff.mp hperform
  obtain ⟨-, rfl⟩ := Prod.mk.inj heq
  obtain ⟨record, hrecord, hstate, hdigest⟩ := recorded_of_settleOnce hsettle
  obtain ⟨current, hcurrent, hdescends⟩ := descends_meanwhile hperform hrecord others
  cases hdescends.closed (by rw [hstate]; decide)
  refine ⟨?_, fun charges' hdifferent => ?_⟩
  · simp only [Confirms, perform, settleOnce, later, call, hcurrent, hstate]
    rw [if_neg (not_not.mpr hdigest)]
    rfl
  · refine rejects_of_error (e := .integrityError
      s!"reservation retry used different charges: {reservationId}") ?_
    simp only [perform, settleOnce, later, call, hcurrent, hstate]
    rw [if_pos (fun heq => hdifferent (Option.some.inj (heq.symm.trans hdigest)))]
    rfl

/-- A retried release of a known reservation returns again.  The release of an unknown
one did nothing: its retry is its only execution, and raises exactly if the reservation
was made and settled in between. -/
theorem release_retried {H : Digests} {s : Timeline} {now : Instant} {reservationId : String}
    (h : Committed H s ⟨now, .release reservationId⟩ .done) (others : List Issued)
    (again : Instant) :
    let call := ClientCall.release reservationId
    let later := meanwhile H s ⟨now, call⟩ others
    ((s.kv.reservations.get? reservationId).isSome → Confirms H later ⟨again, call⟩ .done) ∧
    (s.kv.reservations.get? reservationId = none →
      (s.step H ⟨now, call⟩).kv = s.kv ∧
      (Rejects H later ⟨again, call⟩ ↔
        (later.kv.reservations.get? reservationId).map ReservationRecord.state =
          some .settled)) := by
  intro call later
  obtain ⟨kv, hperform⟩ := h
  obtain ⟨released, hrelease, heq⟩ := map_ok_iff.mp hperform
  obtain ⟨-, rfl⟩ := Prod.mk.inj heq
  refine ⟨fun hknown => ?_, fun hunknown => ⟨?_, ?_⟩⟩
  · obtain ⟨record, hrecord, hstate⟩ := recorded_of_releaseOnce hrelease hknown
    obtain ⟨current, hcurrent, hdescends⟩ := descends_meanwhile hperform hrecord others
    cases hdescends.closed (by rw [hstate]; decide)
    simp only [Confirms, perform, releaseOnce, later, call, hcurrent, hstate]
    rfl
  · simp only [Timeline.step, call, perform, releaseOnce, hunknown, Except.map]
  · constructor
    · rintro ⟨⟨e, herror⟩, -⟩
      simp only [call, perform, releaseOnce] at herror
      split at herror
      · cases herror
      · next current found =>
          split at herror
          · cases herror
          · next hstate => rw [found, Option.map_some, hstate]
          · cases herror
    · intro hsettled
      obtain ⟨current, found, hstate⟩ := Option.map_eq_some_iff.mp hsettled
      refine rejects_of_error (e := .integrityError
        s!"reservation is already settled: {reservationId}") ?_
      simp only [call, perform, releaseOnce, found, hstate]
      rfl

/-- A committed call can be issued again after any transactions of others.  Settling
and releasing return again and write nothing; a reserve call does so while its
reservation holds, and raises once it was settled, released or left to expire. -/
theorem retry_safe (H : Digests) (s : Timeline) (now : Instant) (reservationId : String)
    (others : List Issued) (again : Instant) :
    (∀ budgets windows leaseSeconds,
      let call := ClientCall.reserve reservationId budgets windows leaseSeconds
      let later := meanwhile H s ⟨now, call⟩ others
      Committed H s ⟨now, call⟩ (.check { ok := true }) →
        (Holding later.kv reservationId again →
          Confirms H later ⟨again, call⟩ (.check { ok := true })) ∧
        (¬ Holding later.kv reservationId again → Rejects H later ⟨again, call⟩) ∧
        ∀ budgets' windows' leaseSeconds',
          H.request (reservationRequest budgets' windows' leaseSeconds') ≠
            H.request (reservationRequest budgets windows leaseSeconds) →
          Rejects H later ⟨again, .reserve reservationId budgets' windows' leaseSeconds'⟩) ∧
    (∀ charges,
      let call := ClientCall.settle reservationId charges
      let later := meanwhile H s ⟨now, call⟩ others
      Committed H s ⟨now, call⟩ .done →
        Confirms H later ⟨again, call⟩ .done ∧
        ∀ charges', H.charges (reservationCharges charges') ≠
            H.charges (reservationCharges charges) →
          Rejects H later ⟨again, .settle reservationId charges'⟩) ∧
    (let call := ClientCall.release reservationId
      let later := meanwhile H s ⟨now, call⟩ others
      Committed H s ⟨now, call⟩ .done →
        ((s.kv.reservations.get? reservationId).isSome →
          Confirms H later ⟨again, call⟩ .done) ∧
        (s.kv.reservations.get? reservationId = none →
          (s.step H ⟨now, call⟩).kv = s.kv ∧
          (Rejects H later ⟨again, call⟩ ↔
            (later.kv.reservations.get? reservationId).map ReservationRecord.state =
              some .settled))) :=
  ⟨fun _ _ _ h => reserve_retried h others again, fun _ h => settle_retried h others again,
    fun h => release_retried h others again⟩

/-- A digest that tells leases and numbers of charges apart. -/
def sampleDigests : Digests where
  request document := if document.leaseSeconds = 60 then "60" else "other"
  charges document := if document = [] then "none" else "some"

/-- Another client fills the limit between a reserve call and its retry. -/
def fillingOthers : List Issued :=
  [⟨1, .reserve "other" [stepsBudget] [] 60⟩, ⟨2, .renew "call" 60⟩]

theorem retry_safe_fillingOthers :
    let call := ClientCall.reserve "call" [stepsBudget] [callsWindow] 60
    let later := meanwhile sampleDigests (.start 0) ⟨0, call⟩ fillingOthers
    Confirms sampleDigests later ⟨3, call⟩ (.check { ok := true }) ∧
    Rejects sampleDigests later ⟨3, .reserve "call" [stepsBudget] [callsWindow] 30⟩ :=
  let call := ClientCall.reserve "call" [stepsBudget] [callsWindow] 60
  have hsafe := (retry_safe sampleDigests (.start 0) 0 "call" fillingOthers 3).1
    [stepsBudget] [callsWindow] 60
  have hcommitted : Committed sampleDigests (.start 0) ⟨0, call⟩ (.check { ok := true }) :=
    ⟨((Timeline.start 0).step sampleDigests ⟨0, call⟩).kv, by decide +kernel⟩
  have hholding : Holding (meanwhile sampleDigests (.start 0) ⟨0, call⟩ fillingOthers).kv
      "call" 3 :=
    ⟨⟨"60", reservationRequest [stepsBudget] [callsWindow] 60, .active, none, none, 62, 0,
      none, reservationDetails [stepsBudget] [callsWindow]⟩, by decide +kernel,
      by decide +kernel, by decide +kernel⟩
  ⟨(hsafe hcommitted).1 hholding,
    (hsafe hcommitted).2.2 [stepsBudget] [callsWindow] 30 (by decide +kernel)⟩

/-- The reservation runs out before its reserve call is retried: the retry raises. -/
theorem expired_reserve_not_retried :
    let call := ClientCall.reserve "call" [stepsBudget] [] 60
    let later := meanwhile sampleDigests (.start 0) ⟨0, call⟩
      [⟨70, .reserve "other" [stepsBudget] [] 60⟩]
    (perform sampleDigests 0 KVState.empty call).map Prod.fst = .ok (.check { ok := true }) ∧
    perform sampleDigests 70 later.kv call =
      .error (.integrityError "reservation expired before retry: call") := by
  decide +kernel

end Pollard.Stores.Transactional
