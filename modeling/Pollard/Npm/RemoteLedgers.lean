import Pollard.Npm.RemoteState
import Pollard.Stores.WindowCapacity
import Pollard.Stores.BudgetCapacity

/-!
# The ledgers of the remote state machine

The ledgers of a document are those of the transactional arbiter, which has the same loops over
them.  What an operation does to them is one move.
-/

namespace Pollard.Npm.Remote

open Lib Lib.Fallible Stores Stores.Transactional

/-! ## The document as a state of the arbiter -/

/-- A reservation as a record of the arbiter, which also keeps the two documents. -/
def RemoteReservation.record (reservation : RemoteReservation) : ReservationRecord where
  requestDigest := reservation.requestDigest
  request := ⟨[], [], 0⟩
  state := reservation.state
  chargesDigest := reservation.chargesDigest
  charges := none
  expiresAt := reservation.expiresAt
  createdAt := reservation.createdAt
  completedAt := reservation.completedAt
  details := reservation.details

def RemoteState.ledgers (state : RemoteState) : KVState :=
  ⟨state.budget, state.reservations.map RemoteReservation.record, state.windowEvents⟩

theorem upsert_map {κ α β : Type} [DecidableEq κ] (f : α → β) (entries : List (κ × α)) (key : κ)
    (value : α) : (Assoc.upsert entries key value).map (fun e => (e.1, f e.2)) =
      Assoc.upsert (entries.map fun e => (e.1, f e.2)) key (f value) := by
  induction entries with
  | nil => rfl
  | cons e entries ih =>
      obtain ⟨k, v⟩ := e
      by_cases hk : k = key
      · simp [Assoc.upsert, hk]
      · simp [Assoc.upsert, hk, ih]

theorem map_set (f : RemoteReservation → ReservationRecord)
    (reservations : Dict String RemoteReservation) (id : String)
    (reservation : RemoteReservation) :
    (reservations.set id reservation).map f = (reservations.map f).set id (f reservation) := by
  rw [Dict.mk.injEq]
  exact upsert_map f reservations.entries id reservation

theorem ledgers_set (nodes : Dict String StorageRecord) (owners : Dict String String)
    (budget : Dict LedgerKey Decimal) (reservations : Dict String RemoteReservation)
    (windowEvents : Dict (String × ℕ) WindowEvent) (id : String)
    (reservation : RemoteReservation) :
    RemoteState.ledgers ⟨nodes, owners, budget, reservations.set id reservation, windowEvents⟩ =
      ⟨budget, (reservations.map RemoteReservation.record).set id reservation.record,
        windowEvents⟩ := by
  rw [RemoteState.ledgers, map_set]

theorem get?_ledgers (state : RemoteState) (id : String) :
    state.ledgers.reservations.get? id =
      (state.reservations.get? id).map RemoteReservation.record :=
  Dict.get?_map _ _ _

theorem found_ledgers {state : RemoteState} {id : String} {reservation : RemoteReservation}
    (h : state.reservations.get? id = some reservation) :
    state.ledgers.reservations.get? id = some reservation.record := by
  rw [get?_ledgers, h]
  rfl

/-- The reservations that hold capacity, in either reading. -/
theorem active_ledgers (state : RemoteState) (now : Instant) :
    activeReservations state.ledgers.reservations now =
      (active state now).map RemoteReservation.record := by
  have hvalues : state.ledgers.reservations.values =
      state.reservations.values.map RemoteReservation.record := by
    change (state.reservations.entries.map _).map _ = (state.reservations.entries.map _).map _
    rw [List.map_map, List.map_map]
    rfl
  rw [activeReservations, hvalues, List.filter_map]
  rfl

theorem activeAmount_map (reservations : List RemoteReservation) (kind : DetailKind)
    (scope meter : String) :
    Transactional.activeAmount (reservations.map RemoteReservation.record) kind scope meter =
      activeAmount reservations kind scope meter := by
  induction reservations with
  | nil => rfl
  | cons reservation reservations ih =>
      rw [activeAmount] at ih ⊢
      rw [List.flatMap_cons, List.filter_append, List.map_append, List.sum_append, ← ih]
      rfl

/-! ## The loops -/

theorem set_of_get? {budget : Dict LedgerKey Decimal} {key : LedgerKey} {amount : Decimal}
    (h : budget.get? key = some amount) : budget.set key amount = budget := by
  rw [Dict.mk.injEq]
  exact Assoc.upsert_of_lookup h

/-- The loops over the budgets are those of the arbiter. -/
theorem reserveBudgets_eq (holding : List RemoteReservation) (rows : List BudgetRow)
    (budget : Dict LedgerKey Decimal) :
    reserveBudgets holding rows budget =
      reserveBudgetRows (holding.map RemoteReservation.record) rows budget := by
  induction rows generalizing budget with
  | nil => rfl
  | cons row rows ih =>
      have hwrite : (if budget.get? row.key ≠
          some (settledTotal (budget.get? row.key) row.baseline) then
          budget.set row.key (settledTotal (budget.get? row.key) row.baseline) else budget) =
            budget.set row.key (settledTotal (budget.get? row.key) row.baseline) := by
        split
        · rfl
        · next hstored => exact (set_of_get? (not_not.mp hstored)).symm
      rw [reserveBudgets, reserveBudgetRows]
      simp only [hwrite, activeAmount_map, ih]
      rfl

theorem reserveWindows_eq (holding : List RemoteReservation) (events : List WindowEvent)
    (now : Instant) (windows : List WindowReservation) :
    reserveWindows holding events now windows =
      Transactional.reserveWindows (holding.map RemoteReservation.record) events now windows := by
  induction windows with
  | nil => rfl
  | cons request windows ih =>
      rw [reserveWindows, Transactional.reserveWindows]
      simp only [activeAmount_map, ih]
      rfl

/-- A settlement is one of the arbiter where each window detail has its length. -/
theorem settleDetails_ledgers {id : String} {charges : Dict String Decimal} {now : Instant}
    {index : ℕ} {details : List Detail} {state after : RemoteState}
    (hlengths : ∀ detail ∈ details, detail.kind = .window → detail.windowSeconds.isSome)
    (h : settleDetails id charges now index details state = .ok after) :
    Transactional.settleDetails id charges now index details state.ledgers =
        .ok after.ledgers ∧
      after.reservations = state.reservations ∧ after.nodes = state.nodes ∧
      after.owners = state.owners := by
  induction details generalizing index state with
  | nil =>
      cases h
      exact ⟨rfl, rfl, rfl, rfl⟩
  | cons detail details ih =>
      rw [List.forall_mem_cons] at hlengths
      rw [settleDetails] at h
      obtain ⟨middle, hmiddle, h⟩ := bind_ok_iff.mp h
      obtain ⟨hrest, hreservations, hnodes, howners⟩ := ih hlengths.2 h
      have hone : Transactional.settleDetail id charges now index detail state.ledgers =
          .ok middle.ledgers ∧ middle.reservations = state.reservations ∧
          middle.nodes = state.nodes ∧ middle.owners = state.owners := by
        obtain ⟨kind, scopeId, meter, amount, windowSeconds⟩ := detail
        cases kind with
        | budget =>
            simp only [settleDetail] at hmiddle
            cases hprior : state.budget.get? (scopeId, meter) with
            | none =>
                rw [hprior] at hmiddle
                cases hmiddle
            | some prior =>
                rw [hprior] at hmiddle
                cases hmiddle
                refine ⟨?_, rfl, rfl, rfl⟩
                simp only [Transactional.settleDetail, RemoteState.ledgers, hprior]
        | window =>
            obtain ⟨seconds, hseconds⟩ := Option.isSome_iff_exists.mp (hlengths.1 rfl)
            dsimp only at hseconds
            subst hseconds
            simp only [settleDetail] at hmiddle
            simp only [Transactional.settleDetail, RemoteState.ledgers]
            split at hmiddle
            · next hzero =>
                cases hmiddle
                rw [if_pos hzero]
                exact ⟨rfl, rfl, rfl, rfl⟩
            · next hzero =>
                cases hmiddle
                rw [if_neg hzero]
                exact ⟨rfl, rfl, rfl, rfl⟩
      rw [Transactional.settleDetails, hone.1]
      exact ⟨hrest, hreservations.trans hone.2.1, hnodes.trans hone.2.2.1,
        howners.trans hone.2.2.2⟩

/-! ## What the checks give -/

theorem finite_ok {value : Option ℚ} {label : String} {positive : Bool} {q : ℚ}
    (h : finite value label positive = .ok q) : value = some q ∧ isFinite q positive = true := by
  cases value with
  | none => cases h
  | some value =>
      rw [finite] at h
      split at h
      · next hfinite =>
          cases h
          exact ⟨rfl, hfinite⟩
      · cases h

theorem nonneg_of_isFinite {q : ℚ} {positive : Bool} (h : isFinite q positive = true) : 0 ≤ q := by
  simp only [isFinite, decide_eq_true_eq] at h
  exact h.1

theorem text_ok {value : Option String} {label s : String} (h : text value label = .ok s) :
    value = some s := by
  cases value with
  | none => cases h
  | some value =>
      rw [text] at h
      split at h
      · cases h
      · cases h
        rfl

/-- The amounts of a record that passes are nonnegative. -/
theorem numericRecord_nonneg {value : Option (Dict String (Option ℚ))} {label : String}
    {amounts : Dict String Decimal} (h : numericRecord value label = .ok amounts)
    (meter : String) : 0 ≤ amounts.getD meter 0 := by
  rw [numericRecord] at h
  obtain ⟨record, -, h⟩ := bind_ok_iff.mp h
  obtain ⟨_, hall, h⟩ := bind_ok_iff.mp h
  cases h
  rw [checkAll_ok_iff] at hall
  rw [Dict.getD, Dict.get?_map]
  cases hget : record.get? meter with
  | none => exact le_rfl
  | some amount =>
      have hcheck := hall (meter, amount) (Dict.mem_entries_iff.mpr hget)
      obtain ⟨_, -, hcheck⟩ := bind_ok_iff.mp hcheck
      obtain ⟨q, hfinite, -⟩ := bind_ok_iff.mp hcheck
      obtain ⟨hvalue, hq⟩ := finite_ok hfinite
      dsimp only at hvalue
      rw [hvalue]
      exact nonneg_of_isFinite hq

theorem addKeys_ok {label : String} {added keys all : List LedgerKey}
    (h : addKeys label added keys = .ok all) (hkeys : keys.Nodup) :
    all.Nodup ∧ ∀ key, key ∈ all ↔ key ∈ added ∨ key ∈ keys := by
  induction added generalizing keys with
  | nil =>
      cases h
      exact ⟨hkeys, fun key => by simp⟩
  | cons key added ih =>
      rw [addKeys] at h
      split at h
      · cases h
      · next hfresh =>
          obtain ⟨hnodup, hmem⟩ := ih h (List.nodup_cons.mpr ⟨hfresh, hkeys⟩)
          refine ⟨hnodup, fun other => ?_⟩
          rw [hmem, List.mem_cons, List.mem_cons]
          tauto

/-- Keys that are added were not there. -/
theorem addKeys_fresh {label : String} {added keys all : List LedgerKey}
    (h : addKeys label added keys = .ok all) : added.Disjoint keys := by
  induction added generalizing keys with
  | nil => exact List.disjoint_nil_left keys
  | cons key added ih =>
      rw [addKeys] at h
      split at h
      · cases h
      · next hfresh =>
          rw [List.disjoint_cons_left]
          exact ⟨hfresh, (List.disjoint_cons_right.mp (ih h)).2⟩

/-- The ledgers a budget request names. -/
def namedLedgers (request : BudgetReservation) : List LedgerKey :=
  request.limits.keys.map fun meter => (request.scopeId, meter)

theorem validateBudgets_ok {requests : List (Option BudgetRequest)} {keys : List LedgerKey}
    {budgets : List BudgetReservation} (h : validateBudgets requests keys = .ok budgets)
    (hkeys : keys.Nodup) :
    budgets.Pairwise (fun a b => (namedLedgers a).Disjoint (namedLedgers b)) ∧
      (∀ request ∈ budgets, (namedLedgers request).Disjoint keys) ∧
      ∀ request ∈ budgets, ∀ meter, 0 ≤ request.estimates.getD meter 0 := by
  induction requests generalizing keys budgets with
  | nil =>
      cases h
      simp
  | cons request requests ih =>
      rw [validateBudgets] at h
      obtain ⟨request, -, h⟩ := bind_ok_iff.mp h
      obtain ⟨scopeId, -, h⟩ := bind_ok_iff.mp h
      obtain ⟨limits, -, h⟩ := bind_ok_iff.mp h
      obtain ⟨baseline, -, h⟩ := bind_ok_iff.mp h
      obtain ⟨estimates, hestimates, h⟩ := bind_ok_iff.mp h
      obtain ⟨all, hadd, h⟩ := bind_ok_iff.mp h
      obtain ⟨rest, hrest, h⟩ := bind_ok_iff.mp h
      cases h
      obtain ⟨hnodup, hmem⟩ := addKeys_ok hadd hkeys
      obtain ⟨hpairwise, hdisjoint, hnonneg⟩ := ih hrest hnodup
      refine ⟨List.pairwise_cons.mpr ⟨fun other hother => ?_, hpairwise⟩,
        List.forall_mem_cons.mpr ⟨addKeys_fresh hadd, fun other hother => ?_⟩,
        List.forall_mem_cons.mpr ⟨numericRecord_nonneg hestimates, hnonneg⟩⟩
      · exact fun key hkey hin => hdisjoint other hother hin ((hmem key).mpr (.inl hkey))
      · exact fun key hkey hin => hdisjoint other hother hkey ((hmem key).mpr (.inr hin))

theorem validateWindows_ok {requests : List (Option WindowRequest)} {keys : List LedgerKey}
    {windows : List WindowReservation} (h : validateWindows requests keys = .ok windows)
    (hkeys : keys.Nodup) :
    (windows.map windowKey).Nodup ∧ (∀ request ∈ windows, windowKey request ∉ keys) ∧
      ∀ request ∈ windows, 0 ≤ request.amount := by
  induction requests generalizing keys windows with
  | nil =>
      cases h
      simp
  | cons request requests ih =>
      rw [validateWindows] at h
      obtain ⟨request, -, h⟩ := bind_ok_iff.mp h
      obtain ⟨ledgerKey, -, h⟩ := bind_ok_iff.mp h
      obtain ⟨meter, -, h⟩ := bind_ok_iff.mp h
      obtain ⟨limit, -, h⟩ := bind_ok_iff.mp h
      obtain ⟨amount, hamount, h⟩ := bind_ok_iff.mp h
      obtain ⟨windowSeconds, -, h⟩ := bind_ok_iff.mp h
      obtain ⟨all, hadd, h⟩ := bind_ok_iff.mp h
      obtain ⟨rest, hrest, h⟩ := bind_ok_iff.mp h
      cases h
      obtain ⟨hnodup, hmem⟩ := addKeys_ok hadd hkeys
      obtain ⟨hrestNodup, hfresh, hnonneg⟩ := ih hrest hnodup
      refine ⟨?_, List.forall_mem_cons.mpr ⟨?_, fun other hother hin => ?_⟩,
        List.forall_mem_cons.mpr ⟨nonneg_of_isFinite (finite_ok hamount).2, hnonneg⟩⟩
      · rw [List.map_cons, List.nodup_cons]
        refine ⟨fun hin => ?_, hrestNodup⟩
        obtain ⟨other, hother, hkey⟩ := List.mem_map.mp hin
        refine hfresh other hother ((hmem _).mpr (.inl ?_))
        rw [hkey]
        exact List.mem_cons_self
      · exact (List.disjoint_cons_left.mp (addKeys_fresh hadd)).1
      · exact hfresh other hother ((hmem _).mpr (.inr hin))

/-- What the rows and the windows of a request satisfy that was validated. -/
structure Validated.WellFormed (request : Validated) : Prop where
  rows : ((meterRows request.budgets).map BudgetRow.key).Nodup
  windows : (request.windows.map windowKey).Nodup
  estimates : ∀ row ∈ meterRows request.budgets, 0 ≤ row.amount
  amounts : ∀ window ∈ request.windows, 0 ≤ window.amount

theorem mem_meterRows {budgets : List BudgetReservation} {row : BudgetRow}
    (h : row ∈ meterRows budgets) :
    row.request ∈ budgets ∧ row.key ∈ namedLedgers row.request := by
  obtain ⟨request, hrequest, h⟩ := List.mem_flatMap.mp h
  obtain ⟨e, he, rfl⟩ := List.mem_map.mp h
  have hmem : e ∈ request.limits.entries :=
    (List.mem_insertionSort _).mp (List.mem_filter.mp he).1
  exact ⟨hrequest, List.mem_map_of_mem (List.mem_map_of_mem hmem)⟩

/-- The meters of requests on distinct ledgers have distinct ledgers. -/
theorem nodup_meterRows {budgets : List BudgetReservation}
    (h : budgets.Pairwise fun a b => (namedLedgers a).Disjoint (namedLedgers b)) :
    ((meterRows budgets).map BudgetRow.key).Nodup := by
  induction budgets with
  | nil => exact List.nodup_nil
  | cons request budgets ih =>
      rw [List.pairwise_cons] at h
      have hsplit : meterRows (request :: budgets) =
          meterRows [request] ++ meterRows budgets := by
        simp [meterRows]
      rw [hsplit, List.map_append]
      refine List.Nodup.append ?_ (ih h.2) ?_
      · have hperm : ((request.limits.entries.insertionSort fun a b => a.1 ≤ b.1).map
            Prod.fst).Nodup :=
          ((List.perm_insertionSort _ request.limits.entries).map _).nodup_iff.mpr
            request.limits.nodupKeys
        have hkeys := (hperm.sublist (List.Sublist.map Prod.fst
          (List.filter_sublist (p := fun e => decide (e.1 ≠ "depth"))))).map
            (f := fun meter => ((request.scopeId, meter) : LedgerKey))
            fun _ _ h => (Prod.mk.inj h).2
        simpa [meterRows, BudgetRow.key, Function.comp_def] using hkeys
      · rw [List.disjoint_left]
        intro key hleft hright
        obtain ⟨row, hrow, rfl⟩ := List.mem_map.mp hleft
        obtain ⟨other, hother, hkey⟩ := List.mem_map.mp hright
        obtain ⟨hone, hnamed⟩ := mem_meterRows hrow
        rw [List.mem_singleton.mp hone] at hnamed
        obtain ⟨hin, hnamed'⟩ := mem_meterRows hother
        rw [hkey] at hnamed'
        exact h.1 other.request hin hnamed hnamed'

theorem wellFormed_sorted {budgets : Option (List (Option BudgetRequest))}
    {windows : Option (List (Option WindowRequest))} {leaseSeconds : Option ℚ}
    {request : Validated} (h : validateRequests budgets windows leaseSeconds = .ok request) :
    request.sorted.WellFormed := by
  unfold validateRequests at h
  split at h
  · obtain ⟨lease, -, h⟩ := bind_ok_iff.mp h
    obtain ⟨budgets, hbudgets, h⟩ := bind_ok_iff.mp h
    obtain ⟨windows, hwindows, h⟩ := bind_ok_iff.mp h
    cases h
    obtain ⟨hpairwise, -, hestimates⟩ := validateBudgets_ok hbudgets List.nodup_nil
    obtain ⟨hnodup, -, hamounts⟩ := validateWindows_ok hwindows List.nodup_nil
    have hperm := List.perm_insertionSort (fun a b : BudgetReservation => a.scopeId ≤ b.scopeId)
      budgets
    exact
      { rows := nodup_meterRows ((hperm.pairwise_iff fun h => h.symm).mpr hpairwise)
        windows := ((List.perm_insertionSort _ windows).map windowKey).nodup_iff.mpr hnodup
        estimates := fun row hrow =>
          hestimates row.request (hperm.mem_iff.mp (mem_meterRows hrow).1) row.meter
        amounts := fun window hwindow => hamounts window ((List.mem_insertionSort _).mp hwindow) }
  · cases h

/-- In a document that was validated, each window detail has its length. -/
theorem lengths_of_valid {lib : Library} {state : RemoteState}
    (h : validateState lib state = .ok ()) {id : String} {reservation : RemoteReservation}
    (found : state.reservations.get? id = some reservation) :
    ∀ detail ∈ reservation.details, detail.kind = .window → detail.windowSeconds.isSome := by
  rw [validateState] at h
  obtain ⟨_, -, h⟩ := bind_ok_iff.mp h
  obtain ⟨_, -, h⟩ := bind_ok_iff.mp h
  obtain ⟨_, -, h⟩ := bind_ok_iff.mp h
  obtain ⟨_, hall, -⟩ := bind_ok_iff.mp h
  have hone := checkAll_ok_iff.mp hall reservation (Dict.mem_values_of_get? found)
  rw [validateReservation] at hone
  obtain ⟨_, -, hone⟩ := bind_ok_iff.mp hone
  obtain ⟨_, -, hone⟩ := bind_ok_iff.mp hone
  obtain ⟨_, -, hone⟩ := bind_ok_iff.mp hone
  obtain ⟨_, -, hone⟩ := bind_ok_iff.mp hone
  obtain ⟨_, -, hone⟩ := bind_ok_iff.mp hone
  intro detail hdetail hkind
  have hcheck := checkAll_ok_iff.mp hone detail hdetail
  rw [validateDetail] at hcheck
  obtain ⟨_, -, hcheck⟩ := bind_ok_iff.mp hcheck
  obtain ⟨_, -, hcheck⟩ := bind_ok_iff.mp hcheck
  obtain ⟨_, -, hcheck⟩ := bind_ok_iff.mp hcheck
  rw [hkind] at hcheck
  obtain ⟨seconds, hseconds, -⟩ := bind_ok_iff.mp hcheck
  rw [(finite_ok hseconds).1]
  rfl

end Pollard.Npm.Remote
