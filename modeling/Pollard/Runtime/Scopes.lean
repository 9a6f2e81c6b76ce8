import Pollard.Runtime.Reservations
import Pollard.Stores.SqliteSettlement

/-!
# The scopes of a run

A run passes its scopes to the arbiter in one request.  As long as every branch with a
budget starts at an anchor that is new to the run, the scopes of every run have distinct
anchors, and both arbiters charge each of them once.
-/

namespace Pollard

open Lib Effect

/-- The nodes the scopes of a run are anchored at. -/
def Run.anchors (run : Run) : List String := run.scopes.map Prod.snd

/-! ## Scopes are kept -/

theorem scopes_settledScopes (store : MemoryStore) (scopes : List BudgetScope) :
    (settledScopes store scopes).1.map (fun scope => (scope.budget, scope.anchorId)) =
      scopes.map fun scope => (scope.budget, scope.anchorId) := by
  induction scopes with
  | nil => rfl
  | cons scope scopes ih =>
      rw [settledScopes]
      cases spentDecimal store scope.anchorId with
      | error e => rfl
      | ok spent => exact congrArg ((scope.budget, scope.anchorId) :: ·) ih

theorem Session.scopes_reviewed (s : Session) : s.reviewed.run.scopes = s.run.scopes :=
  scopes_settledScopes s.store s.run.budgetScopes

theorem Quiet.scopes_eq {s t : Session} (h : Quiet s t) : t.run.scopes = s.run.scopes := by
  rw [Run.scopes, h.scopes, ← Run.scopes]

section Runtime

variable {H : Hashing} {rt : Runtime} {flavor : Flavor} {env : CallEnv}

theorem CallEnds.scopes {kind : NodeKind} {payload : Value} {attempt : ℤ} {keepChunks : Bool}
    {action : Option (Bool × List (ℕ × Decision))} {reservation : Option Reservation}
    {s t : Session}
    (h : CallEnds H rt flavor env kind payload attempt keepChunks action reservation s t) :
    t.run.scopes = s.run.scopes := by
  cases h with
  | recorded charges node store hpriced hnode hput hsettle hfailed =>
      exact Session.scopes_reviewed _
  | _ => rfl

theorem DryRunEnds.scopes {payload : Value} {attempt : ℤ} {reservation : Option Reservation}
    {s t : Session} (h : DryRunEnds H rt env payload attempt reservation s t) :
    t.run.scopes = s.run.scopes := by
  cases h with
  | unrecorded hwhy => rfl
  | recorded node store hnode hput => exact Session.scopes_reviewed _

/-- No operation changes the scopes of its run. -/
theorem OpEnds.scopes {op : Op} {s t : Session} (h : OpEnds H rt env flavor op s t) :
    t.run.scopes = s.run.scopes := by
  cases h with
  | quiet hquiet => exact hquiet.scopes_eq
  | suspended id pending approved hregistry hop happroved hsuspension => rfl
  | dry hbefore hmode hcall hdry hpassed hends =>
      rw [hends.scopes, (precheck_ok H rt env hpassed).1.run, hbefore.quiet.scopes_eq]
  | called hbefore hmode hcall haction hpassed hends =>
      rw [hends.scopes, (precheck_ok H rt env hpassed).1.run, hbefore.quiet.scopes_eq]

/-! ## Distinct anchors -/

variable (H rt)

/-- The identity of the node of a shared budget. -/
def SharedBudget.identity (scope : SharedBudget) : Identity :=
  ⟨0, .root, "",
    (Value.dict [("pollard_shared_budget", .int 1), ("name", .str scope.name)]).canonical⟩

/-- No other node has the id of a shared budget. -/
def SharedIdsUnique : Prop :=
  ∀ scope ∈ rt.sharedBudgets, ∀ identity, H.node identity = scope.scopeId H →
    identity = scope.identity

theorem SharedBudget.identity_name {a b : SharedBudget} (h : a.identity = b.identity) :
    a.name = b.name := by
  simpa [identity, Value.canonical, Value.canonicalEntries] using h

variable {H rt} in
/-- The scopes of a run that was just opened have distinct anchors. -/
theorem Opened.anchors_nodup {label : String} {budget : Option Budget} {attempt : ℤ} {run : Run}
    {store : MemoryStore} (hopened : Opened H rt label budget attempt run store)
    (hnames : (rt.sharedBudgets.map SharedBudget.name).Nodup) (hunique : SharedIdsUnique H rt) :
    run.anchors.Nodup := by
  have hanchors : run.anchors =
      rt.sharedBudgets.map (SharedBudget.scopeId H) ++ budget.toList.map fun _ => run.rootId := by
    rw [Run.anchors, Run.scopes, hopened.scopes, openedScopes]
    simp [Function.comp_def]
  rw [hanchors, List.nodup_append]
  refine ⟨?_, ?_, ?_⟩
  · refine List.Nodup.map_on (fun a ha b hb hid => ?_) (List.Nodup.of_map _ hnames)
    exact List.inj_on_of_nodup_map hnames ha hb
      (SharedBudget.identity_name (hunique b hb a.identity hid))
  · cases budget <;> simp
  · rintro anchorId hshared other hroot rfl
    obtain ⟨scope, hscope, hid⟩ := List.mem_map.mp hshared
    obtain ⟨-, -, rfl⟩ := List.mem_map.mp hroot
    rw [hopened.root] at hid
    have hsame := congrArg Identity.payload (hunique scope hscope _ hid.symm)
    simp [SharedBudget.identity, Value.canonical, Value.canonicalEntries] at hsame

/-- A branch with a budget is made where the run has no scope yet. -/
def BranchesAnew (w : World) : Input → Prop
  | .acted index _ _ (.branch attempt (some _)) =>
      ∀ handle ∈ w.handles[index]?,
        H.nodeId .note (some handle.run.cursorId) attempt branchPayload ∉ handle.run.anchors
  | _ => True

instance (w : World) : (input : Input) → Decidable (BranchesAnew H w input)
  | .acted index _ _ (.branch attempt (some _)) => inferInstanceAs (Decidable
      (∀ handle ∈ w.handles[index]?,
        H.nodeId .note (some handle.run.cursorId) attempt branchPayload ∉ handle.run.anchors))
  | .acted _ _ _ (.branch _ none) => inferInstanceAs (Decidable True)
  | .acted _ _ _ (.modelCall _ _ _) => inferInstanceAs (Decidable True)
  | .acted _ _ _ (.toolCall _ _ _ _ _) => inferInstanceAs (Decidable True)
  | .acted _ _ _ (.confirm _) => inferInstanceAs (Decidable True)
  | .acted _ _ _ (.note _ _) => inferInstanceAs (Decidable True)
  | .acted _ _ _ (.rollback _ _) => inferInstanceAs (Decidable True)
  | .acted _ _ _ .prune => inferInstanceAs (Decidable True)
  | .opened _ _ _ _ => inferInstanceAs (Decidable True)

/-- The scopes of every run have distinct anchors. -/
def Distinct (w : World) : Prop := ∀ handle ∈ w.handles, handle.run.anchors.Nodup

theorem Branched.anchors_nodup {attempt : ℤ} {budget : Option Budget} {s t : Session}
    {child : Run} (h : Branched H attempt budget s child t) (hs : s.run.anchors.Nodup)
    (hnew : budget.isSome →
      H.nodeId .note (some s.run.cursorId) attempt branchPayload ∉ s.run.anchors) :
    child.anchors.Nodup := by
  rw [h.isChild]
  cases budget with
  | none => simpa [Run.anchors, Run.scopes, Run.child] using hs
  | some budget =>
      have hanchors : (s.run.child (H.nodeId .note (some s.run.cursorId) attempt branchPayload)
          (some budget)).anchors =
          s.run.anchors ++ [H.nodeId .note (some s.run.cursorId) attempt branchPayload] := by
        simp [Run.anchors, Run.scopes, Run.child]
      rw [hanchors]
      exact List.Nodup.append hs (List.nodup_singleton _) (by simpa using hnew rfl)

theorem distinct_step (hnames : (rt.sharedBudgets.map SharedBudget.name).Nodup)
    (hunique : SharedIdsUnique H rt) (w : World) (input : Input) (hw : Distinct w)
    (hinput : BranchesAnew H w input) : Distinct (w.step H rt input) := by
  have hstep := stepped H rt w input
  generalize w.step H rt input = after at hstep
  cases hstep with
  | opened hgrown hopened =>
      intro handle hhandle
      rcases List.mem_append.mp hhandle with hhandle | hhandle
      · exact hw handle hhandle
      · rw [List.mem_singleton.mp hhandle]
        exact hopened.anchors_nodup hnames hunique
  | failed hgrown => exact hw
  | idle => exact hw
  | @acted index flavor env op handle s child hhandle hends hchild =>
      have hbefore := hw handle (List.mem_of_getElem? hhandle)
      have hsame : s.run.anchors = handle.run.anchors :=
        congrArg (List.map Prod.snd) hends.scopes
      intro other hother
      rcases mem_afterOp hother with hother | rfl | ⟨run, hrun, rfl⟩
      · exact hw other hother
      · exact hsame ▸ hbefore
      · obtain ⟨attempt, budget, rfl, hbranched⟩ := hchild run hrun
        refine hbranched.anchors_nodup H hbefore fun hsome => ?_
        obtain ⟨budget, rfl⟩ := Option.isSome_iff_exists.mp hsome
        exact hinput handle hhandle

/-! ## Charging the scopes of a run -/

theorem scopeIds_budgetReservations {store : MemoryStore} {estimates : Dict String Estimate}
    {scopes : List BudgetScope} {budgets : List BudgetReservation}
    (h : budgetReservations store estimates scopes = .ok budgets) :
    budgets.map BudgetReservation.scopeId = scopes.map BudgetScope.anchorId := by
  induction scopes generalizing budgets with
  | nil =>
      cases h
      rfl
  | cons scope scopes ih =>
      rw [budgetReservations] at h
      cases hspent : spentDecimal store scope.anchorId with
      | error e =>
          rw [hspent] at h
          cases h
      | ok baseline =>
          cases hrest : budgetReservations store estimates scopes with
          | error e =>
              rw [hspent, hrest] at h
              cases h
          | ok rest =>
              rw [hspent, hrest] at h
              cases h
              rw [List.map_cons, List.map_cons, ih hrest]

/-- Both arbiters take a request without an error, and settle it once it is accepted:
each charge is added once to each ledger of the request, whatever other transactions
come before and between. -/
structure ChargedOnce (budgets : List BudgetReservation) (windows : List WindowReservation) :
    Prop where
  sqlite : (windows.map Stores.Transactional.windowKey).Nodup →
    ∀ (inMemory : Bool) (now : Instant) (reservationId : String) (leaseSeconds : ℚ)
      (db : Stores.Sqlite.SqliteState), Stores.Sqlite.rowsOf reservationId db = [] →
    ∃ check accepted,
      Stores.Sqlite.reserve inMemory now reservationId budgets windows leaseSeconds db =
        .ok (check, accepted) ∧
      (check.ok = true → ∀ after : List Stores.Transactional.Issued,
        (∀ i ∈ after, Stores.Sqlite.Elsewhere reservationId i.call) →
        ∀ settledAt charges, ∃ settled,
          Stores.Sqlite.settle settledAt reservationId charges
            (Machine.run (Stores.Sqlite.SqliteState.step inMemory) accepted after) =
              .ok settled ∧
          ∀ ledger, settled.total ledger =
            (Machine.run (Stores.Sqlite.SqliteState.step inMemory) accepted after).total ledger +
              if ledger ∈ (Stores.Transactional.budgetRows budgets).map
                Stores.Transactional.BudgetRow.key then charges.getD ledger.2 0 else 0)
  keyValue : Stores.Transactional.reservationDetails budgets windows ≠ [] →
    ∀ (D : Stores.Transactional.Digests) (clock : Instant)
      (before : List Stores.Transactional.Issued) (now : Instant) (reservationId : String)
      (leaseSeconds : ℚ),
      (Machine.run (Stores.Transactional.Timeline.step D) (.start clock)
        before).kv.reservations.get? reservationId = none →
    ∃ check accepted,
      Stores.Transactional.reserveOnce D now reservationId budgets windows leaseSeconds
        (Machine.run (Stores.Transactional.Timeline.step D) (.start clock) before).kv =
          .ok (check, accepted) ∧
      (check.ok = true → ∀ (after : List Stores.Transactional.Issued)
        (kv : Stores.Transactional.KVState) (current : Stores.Transactional.ReservationRecord),
        kv = (Machine.run (Stores.Transactional.Timeline.step D) (.start clock) (before ++
          ⟨now, .reserve reservationId budgets windows leaseSeconds⟩ :: after)).kv →
        kv.reservations.get? reservationId = some current → current.state = .active →
        ∀ settledAt charges, ∃ settled,
          Stores.Transactional.settleOnce D settledAt reservationId charges kv = .ok settled ∧
          ∀ ledger, settled.total ledger = kv.total ledger +
            if ledger ∈ (Stores.Transactional.budgetRows budgets).map
              Stores.Transactional.BudgetRow.key then charges.getD ledger.2 0 else 0)

end Runtime

/-! ## Branching again -/

/-- A run with a budget and two branches of it, one of them without a budget. -/
def branchedInputs : List Input :=
  [.opened false "r" (some { steps := some 3 }) 0,
    .acted 0 .sync .step (.branch 0 (some .twoSteps)),
    .acted 1 .sync .step (.note (.dict []) 0),
    .acted 1 .sync .step (.branch 0 (some .oneStep)),
    .acted 2 .sync .step (.branch 0 none)]

/-- A branch that goes back to where it came from and is branched off again. -/
def rebranchedInputs : List Input :=
  [.opened false "r" none 0, .acted 0 .sync .step (.branch 0 (some .twoSteps)),
    .acted 1 .sync .step (.rollback none 1),
    .acted 1 .sync .step (.branch 0 (some .twoSteps))]

end Pollard
