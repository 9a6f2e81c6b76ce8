import Pollard.Runtime.CallSteps
import Pollard.Runtime.Approvals

/-!
# What an operation does

An operation of a run is quiet, suspends a tool call, records a dry run, or passes a
precheck and makes a call.
-/

namespace Pollard

open Lib Effect

section Runtime

variable (H : Hashing) (rt : Runtime) (env : CallEnv)

/-! ## Passing a precheck -/

/-- The estimates of meters from an index on, if none refuses. -/
def declaredEstimates : ℕ → List Meter → Dict String Estimate → Dict String Estimate
  | _, [], estimates => estimates
  | index, meter :: meters, estimates =>
      declaredEstimates (index + 1) meters
        (match env.precheckEstimate index with
          | .estimate (some estimate) => estimates.set meter.name estimate
          | _ => estimates)

/-- The estimate of a call on a meter. -/
def estimateOn (meter : String) : Option Estimate :=
  (declaredEstimates env 0 rt.meters ∅).get? meter

theorem meterEstimates_ok {kind : NodeKind} {payload : Value} {index : ℕ}
    {meters : List Meter} {estimates : Dict String Estimate} {approximate : List String}
    {s t : Session} {found : Dict String Estimate × List String}
    (h : meterEstimates H rt env kind payload index meters estimates approximate s =
      .ok found t) : s = t ∧ found.1 = declaredEstimates env index meters estimates := by
  induction meters generalizing index estimates approximate with
  | nil =>
      cases h
      exact ⟨rfl, rfl⟩
  | cons meter meters ih =>
      rw [meterEstimates] at h
      rw [declaredEstimates]
      cases hestimate : env.precheckEstimate index with
      | raises error =>
          rw [hestimate] at h
          cases h
      | refusal refusal =>
          rw [hestimate] at h
          obtain ⟨_, _, -, h⟩ := bind_eq_ok h
          exact absurd h (refuse_ne_ok H rt env)
      | estimate estimate =>
          rw [hestimate] at h
          cases estimate with
          | none => exact ih h
          | some estimate => exact ih h

theorem checkScopes_ok {kind : NodeKind} {payload : Value} {estimates : Dict String Estimate}
    {approximate : List String} {scopes : List BudgetScope} {s t : Session} {u : Unit}
    (h : checkScopes H rt env kind payload estimates approximate scopes s = .ok u t) :
    s = t ∧ ∀ scope ∈ scopes, ∃ spent, spentDecimal s.store scope.anchorId = .ok spent ∧
      (checkBudget scope.budget spent estimates scope.exhausted).ok = true := by
  induction scopes with
  | nil =>
      cases h
      exact ⟨rfl, by simp⟩
  | cons scope scopes ih =>
      rw [checkScopes, bind_of_ok (get_apply s)] at h
      obtain ⟨spent, m, hspent, h⟩ := bind_eq_ok h
      obtain ⟨hread, rfl⟩ := orRaise_eq_ok hspent
      dsimp only at h
      split at h
      · next hcheck =>
          obtain ⟨rfl, hscopes⟩ := ih h
          refine ⟨rfl, fun other hother => ?_⟩
          rcases List.mem_cons.mp hother with rfl | hother
          · exact ⟨spent, hread, hcheck⟩
          · exact hscopes other hother
      · exact absurd h (refuse_ne_ok H rt env)

/-- Every additive limit of a scope has room for the estimate, and is not known to be
exhausted. -/
def Allows (store : MemoryStore) (scope : BudgetScope) : Prop :=
  ∀ meter limit, meter ≠ "depth" → scope.budget.limits.get? meter = some limit →
    meter ∉ scope.exhausted ∧ ∀ estimate, estimateOn rt env meter = some estimate →
      ¬ estimate.exceeds (limit - viaFloat (store.total scope.anchorId meter))

/-- A precheck returned a reservation. -/
structure Passed (s : Session) (reservation : Option Reservation) (t : Session) : Prop where
  store : MemoryStore.Configured s.store t.store
  run : t.run = s.run
  trace : t.trace =
    ((reservation.bind Reservation.reservationId).map Event.reserved).toList ++ s.trace
  allows : ∀ scope ∈ s.run.budgetScopes, Allows rt env t.store scope
  estimates : ∀ r ∈ reservation, ∃ depth,
    r.estimates = (declaredEstimates env 0 rt.meters ∅).set "depth" depth
  arbiter : rt.transactional = false → reservation.bind Reservation.reservationId = none
  unshared : rt.transactional = false → rt.mode ≠ .replay → t.store = s.store

variable {rt env} in
theorem Passed.quiet {s t : Session} {reservation : Option Reservation}
    (h : Passed rt env s reservation t) : Quiet s t := by
  refine ⟨h.store.toGrown, ?_, by rw [h.run], by rw [h.run], fun _ _ hcall => h.run ▸ hcall,
    _, h.trace, ?_⟩
  · rw [h.run]
    exact fun hcursor => (h.store.kept _ hcursor).1
  · cases reservation.bind Reservation.reservationId <;> simp [Event.quiet]

theorem estimatesOf_ok {kind : NodeKind} {payload : Value} {s t : Session}
    {found : Dict String Estimate × List String}
    (h : estimatesOf H rt env kind payload s = .ok found t) :
    s = t ∧ ∃ depth, found.1 = (declaredEstimates env 0 rt.meters ∅).set "depth" depth := by
  unfold estimatesOf at h
  obtain ⟨⟨estimates, approximate⟩, m, hmeters, h⟩ := bind_eq_ok h
  obtain ⟨rfl, hestimates⟩ := meterEstimates_ok H rt env hmeters
  dsimp only at h
  rw [bind_of_ok (get_apply _)] at h
  obtain ⟨depth, m, hdepth, h⟩ := bind_eq_ok h
  obtain ⟨-, rfl⟩ := orRaise_eq_ok hdepth
  cases h
  exact ⟨rfl, _, by rw [← hestimates]⟩

/-- Without an arbiter nothing shared is configured. -/
theorem validateSharedConfiguration_unshared {store after : MemoryStore} {u : Unit}
    (htransactional : rt.transactional = false) (hmode : rt.mode ≠ .replay)
    (h : validateSharedConfiguration H rt store = .ok u after) : after = store := by
  unfold validateSharedConfiguration at h
  split at h
  · cases h
    rfl
  · rw [if_pos ⟨hmode, htransactional⟩] at h
    cases h

theorem precheck_ok {kind : NodeKind} {payload : Value} {s t : Session}
    {reservation : Option Reservation}
    (h : precheck H rt env kind payload s = .ok reservation t) :
    Passed rt env s reservation t ∧
      (kind = .modelCall ∨ kind = .toolCall → reservation.isSome) := by
  unfold precheck at h
  obtain ⟨_, m, hvalid, h⟩ := bind_eq_ok h
  have hconfigured : MemoryStore.Configured s.store m.store ∧
      m = { s with store := m.store } ∧
      (rt.transactional = false → rt.mode ≠ .replay → m.store = s.store) := by
    unfold onStore focus at hvalid
    cases hrun : validateSharedConfiguration H rt s.store with
    | error e store =>
        rw [hrun] at hvalid
        cases hvalid
    | ok u store =>
        rw [hrun] at hvalid
        cases hvalid
        exact ⟨(configured_validateSharedConfiguration H rt).of_ok hrun, rfl,
          fun htransactional hmode =>
            validateSharedConfiguration_unshared H rt htransactional hmode hrun⟩
  obtain ⟨found, n, hfound, h⟩ := bind_eq_ok h
  obtain ⟨rfl, depth, hestimates⟩ := estimatesOf_ok H rt env hfound
  obtain ⟨estimates, approximate⟩ := found
  dsimp only at h hestimates
  rw [bind_of_ok (get_apply _)] at h
  obtain ⟨_, n, hscopes, h⟩ := bind_eq_ok h
  obtain ⟨rfl, hchecked⟩ := checkScopes_ok H rt env hscopes
  have hallows : ∀ scope ∈ m.run.budgetScopes, Allows rt env m.store scope := by
    intro scope hscope meter limit hmeter hlimit
    obtain ⟨spent, hspent, hok⟩ := hchecked scope hscope
    obtain ⟨hexhausted, hexceeds⟩ := checkBudget_ok.mp hok
    constructor
    · intro hmem
      rw [hexhausted meter hmem] at hlimit
      cases hlimit
    · intro estimate hestimate
      rw [← spentDecimal_getD hspent]
      exact hexceeds meter estimate limit
        (by rw [hestimates, Dict.get?_set_of_ne _ _ hmeter.symm, ← estimateOn, hestimate]) hlimit
  obtain ⟨hstore, hrun, hunshared⟩ := hconfigured
  have hpassed : ∀ reservationId : Option String,
      (rt.transactional = false → reservationId = none) →
      Passed rt env s (some ⟨reservationId, estimates⟩)
        (m.log (reservationId.map Event.reserved).toList) := by
    intro reservationId harbiter
    refine ⟨hstore, by rw [hrun]; rfl, ?_, by rw [hrun] at hallows ⊢; exact hallows, ?_,
      fun hfalse => harbiter hfalse, hunshared⟩
    · rw [Session.log, hrun]
      rfl
    · intro r hr
      cases hr
      exact ⟨depth, hestimates⟩
  split at h
  · next hkind =>
      cases h
      refine ⟨⟨hstore, by rw [hrun], by rw [hrun]; rfl, by rw [hrun] at hallows ⊢; exact hallows,
        by simp, fun _ => rfl, hunshared⟩, ?_⟩
      rintro (rfl | rfl) <;> simp at hkind
  · split at h
    · cases h
      exact ⟨hpassed none fun _ => rfl, fun _ => rfl⟩
    · next htransactional =>
        rw [bind_of_ok (get_apply _)] at h
        obtain ⟨budgets, k, hbudgets, h⟩ := bind_eq_ok h
        obtain ⟨-, rfl⟩ := orRaise_eq_ok hbudgets
        obtain ⟨windows, k, hwindows, h⟩ := bind_eq_ok h
        obtain ⟨-, rfl⟩ := orRaise_eq_ok hwindows
        split at h
        · cases h
          exact ⟨hpassed none fun _ => rfl, fun _ => rfl⟩
        · obtain ⟨check, k, hcheck, h⟩ := bind_eq_ok h
          obtain ⟨-, rfl⟩ := orRaise_eq_ok hcheck
          split at h
          · rw [bind_of_ok (emit_apply _ _)] at h
            cases h
            exact ⟨hpassed (some env.reservationUuid) fun hfalse =>
              absurd hfalse htransactional, fun _ => rfl⟩
          · exact absurd h (refuse_ne_ok H rt env)

/-! ## Calls -/

theorem recordedNodeOrMissing_none {store : MemoryStore} {kind : NodeKind}
    {parentId : String} {payload : Value} {attempt : ℤ}
    (h : recordedNodeOrMissing H rt store kind parentId payload attempt = .ok none) :
    rt.mode ≠ .replay := by
  intro hmode
  unfold recordedNodeOrMissing at h
  rw [if_neg (by simp [hmode])] at h
  cases hmake : Node.make H kind (some parentId) payload attempt with
  | error e =>
      rw [hmake] at h
      cases h
  | ok candidate =>
      simp only [hmake, bind, Except.bind, hmode] at h
      have hmissing : (missingRecording H candidate).map some ≠ .ok none := by
        cases missingRecording H candidate <;> simp [Except.map]
      cases hfind : store.find? candidate.id with
      | none =>
          rw [hfind] at h
          exact hmissing h
      | some node =>
          rw [hfind] at h
          dsimp only at h
          rw [if_pos rfl, if_pos rfl] at h
          split at h
          · exact hmissing h
          · cases hverify : verifyRecording H store node.id <;> simp [hverify, Except.map] at h

theorem recordedNode_none {kind : NodeKind} {payload : Value} {attempt : ℤ} {s t : Session}
    (h : recordedNode H rt env kind payload attempt s = .ok none t) :
    s = t ∧ rt.mode ≠ .replay := by
  unfold recordedNode at h
  rw [bind_of_ok (get_apply s)] at h
  obtain ⟨found, m, hfound, hrest⟩ := bind_eq_ok h
  obtain ⟨hrecorded, rfl⟩ := orRaise_eq_ok hfound
  cases found with
  | none =>
      cases hrest
      exact ⟨rfl, recordedNodeOrMissing_none H rt hrecorded⟩
  | some node =>
      obtain ⟨_, _, -, hrest⟩ := bind_eq_ok hrest
      obtain ⟨_, _, -, hrest⟩ := bind_eq_ok hrest
      split at hrest
      · obtain ⟨_, _, -, hrest⟩ := bind_eq_ok hrest
        obtain ⟨_, _, -, hrest⟩ := bind_eq_ok hrest
        obtain ⟨_, _, -, hrest⟩ := bind_eq_ok hrest
        cases hrest
      · obtain ⟨_, _, -, hrest⟩ := bind_eq_ok hrest
        obtain ⟨_, _, -, hrest⟩ := bind_eq_ok hrest
        cases hrest

section Call

variable (flavor : Flavor) {kind : NodeKind} {payload : Value} {attempt : ℤ}
  {keepChunks : Bool} {action : Option (Bool × List (ℕ × Decision))}

/-- A call keeps what looking its recording up and a failing precheck keep, or it passes
its precheck and ends in one of the six ways. -/
theorem callWith_cases {R : Session → Session → Prop} (hR : Frame R)
    (hrecorded : ∀ payload, Keeps R (recordedNode H rt env kind payload attempt))
    (hprecheck : ∀ payload, Raising R (precheck H rt env kind payload)) (hkind : kind ≠ .root)
    (s : Session) :
    R s (after (callWith H rt flavor env kind payload attempt keepChunks action) s) ∨
    ∃ reservation t, rt.mode ≠ .replay ∧ payload.canonical.isIdentity = true ∧
      precheck H rt env kind payload.canonical s = .ok reservation t ∧
      CallEnds H rt flavor env kind payload.canonical attempt keepChunks action reservation t
        (after (callWith H rt flavor env kind payload attempt keepChunks action) s) := by
  unfold callWith
  rw [after_bind]
  cases hpayload : payload.canonicalBytes with
  | error e => exact .inl (hR.refl s)
  | ok bytes =>
      obtain ⟨rfl, hidentity⟩ := Value.isIdentity_of_canonicalBytes hpayload
      rw [orRaise_ok]
      dsimp only
      rw [after_bind]
      cases hfound : recordedNode H rt env kind payload.canonical attempt s with
      | error e t => exact .inl ((hrecorded _).of_error hfound)
      | ok found t =>
          cases found with
          | some node => exact .inl ((hrecorded _).of_ok hfound)
          | none =>
              obtain ⟨rfl, hmode⟩ := recordedNode_none H rt env hfound
              dsimp only
              rw [after_bind]
              cases hpassed : precheck H rt env kind payload.canonical s with
              | error e t => exact .inl (hprecheck _ s e t hpassed)
              | ok reservation t =>
                  exact .inr ⟨reservation, t, hmode, hidentity, rfl,
                    ends_callReserved H rt flavor env hmode hkind hidentity⟩

end Call

/-! ## Dry runs -/

/-- How a dry run ends that passed its precheck. -/
inductive DryRunEnds (payload : Value) (attempt : ℤ) (reservation : Option Reservation)
    (s : Session) : Session → Prop
  | unrecorded (h : SettleFails rt env reservation ∨ attempt < 0 ∨
        ∃ node error, CallNode H env .toolCall payload attempt reservation s.run.cursorId
          dryRunCharges node ∧ s.store.put H node = .error error) :
      DryRunEnds payload attempt reservation s
        (s.log (settlement rt env reservation s.run.scopes dryRunCharges))
  | recorded (node : Node) (store : MemoryStore)
      (hnode : CallNode H env .toolCall payload attempt reservation s.run.cursorId
        dryRunCharges node)
      (hput : s.store.put H node = .ok store) :
      DryRunEnds payload attempt reservation s
        (((s.log (settlement rt env reservation s.run.scopes dryRunCharges)).moved store
          node.id).reviewed)

theorem dryRunNode_callNode {payload : Value} {attempt : ℤ} {cursorId : String} {node : Node}
    {reservation : Option Reservation}
    (h : dryRunNode H env payload attempt cursorId = .ok node) :
    CallNode H env .toolCall payload attempt reservation cursorId dryRunCharges node := by
  have hnode := Node.eq_of_make h
  refine ⟨by rw [hnode]; rfl, by rw [hnode]; simp, by rw [hnode], ?_,
    by rw [hnode]; exact List.mem_cons_self⟩
  apply charges_of_get?
  rw [hnode]
  rfl

theorem dryRunNode_made {payload : Value} {attempt : ℤ} (cursorId : String)
    (hattempt : 0 ≤ attempt) (hpayload : payload.isIdentity = true) :
    ∃ node, dryRunNode H env payload attempt cursorId = .ok node := by
  refine ⟨_, Node.make_ok (by decide) (by simp) (Value.canonicalBytes_ok hpayload) hattempt ?_⟩
  refine Dict.forall_values_foldl_set (P := fun v => Value.isJson v = true) ?_ ?_
  · simp [Dict.values]
  · simp [Value.isJson, dryRunCharges, Dict.ofList, Dict.set, Assoc.upsert,
      Value.isJsonEntries]

/-- A dry run is quiet, or it passes its precheck and is charged. -/
theorem dryRunCall_cases {payload : Value} {attempt : ℤ} (hmode : rt.mode ≠ .replay)
    (hpayload : payload.isIdentity = true) (s : Session) :
    Quiet s (after (dryRunCall H rt env payload attempt) s) ∨
    ∃ reservation t, precheck H rt env .toolCall payload s = .ok reservation t ∧
      DryRunEnds H rt env payload attempt reservation t
        (after (dryRunCall H rt env payload attempt) s) := by
  unfold dryRunCall
  rw [after_bind]
  have hprecheck := quiet_precheck H rt env .toolCall payload
  cases hpassed : precheck H rt env .toolCall payload s with
  | error e t => exact .inl (hprecheck.of_error hpassed)
  | ok reservation t =>
      refine .inr ⟨reservation, t, rfl, ?_⟩
      dsimp only
      rw [after_bind]
      rcases settleReservation_apply rt env reservation dryRunCharges t with
        ⟨-, h⟩ | ⟨hsettle, e, h⟩
      · rw [h]
        dsimp only
        rw [after_bind, get_apply]
        dsimp only
        rw [after_bind]
        cases hnode : dryRunNode H env payload attempt
            (t.log (settlement rt env reservation t.run.scopes dryRunCharges)).run.cursorId with
        | error e =>
            refine .unrecorded (.inr (.inl ?_))
            by_contra hattempt
            obtain ⟨node, hmade⟩ := dryRunNode_made H env
              (t.log (settlement rt env reservation t.run.scopes dryRunCharges)).run.cursorId
              (not_lt.mp hattempt) hpayload
            rw [hnode] at hmade
            cases hmade
        | ok node =>
            have hcall : CallNode H env .toolCall payload attempt reservation t.run.cursorId
                dryRunCharges node := dryRunNode_callNode H env hnode
            rw [orRaise_ok]
            dsimp only
            have htail : ∀ (n : Node) (m : Session),
                after (settleScopes >>= fun _ => pure n) m = after settleScopes m :=
              fun n m => after_bind_of_id (fun _ _ => rfl) m
            rw [after_bind_congr htail]
            rcases after_record_settleScopes H rt node
              (t.log (settlement rt env reservation t.run.scopes dryRunCharges)) hmode with
              ⟨e, hput, hrecord⟩ | ⟨store, hput, hrecord⟩
            · refine Eq.subst hrecord.symm ?_
              exact .unrecorded (.inr (.inr ⟨node, e, hcall, hput⟩))
            · refine Eq.subst hrecord.symm ?_
              exact .recorded node store hcall hput
      · rw [h]
        exact .unrecorded (.inl hsettle)

/-! ## Operations -/

/-- The call an operation is about: its kind, payload and attempt. -/
def Op.call? (run : Run) : Op → Option (NodeKind × Value × ℤ)
  | modelCall payload attempt _ => some (.modelCall, payload, attempt)
  | toolCall name args _ _ attempt =>
      match rt.registry with
      | none => some (.toolCall, .dict [("tool", .str name), ("args", args)], attempt)
      | some registry => (registry.specs.get? name).bind fun spec =>
          (spec.redactArgs H args).toOption.map fun auditArgs =>
            (.toolCall, registeredPayload registry spec auditArgs, attempt)
  | confirm token => (run.pendingToolCalls.get? token).map fun pending =>
      (.toolCall, pending.payload, pending.attempt)
  | _ => none

/-- Why a step function may be invoked: it is not registered, or all policies were
asked, or a suspended call is confirmed. -/
inductive Authorised (op : Op) (s : Session) : Option (Bool × List (ℕ × Decision)) → Prop
  | unregistered : Authorised op s none
  | registered (spec : ActionSpec) (answers : List (ℕ × Decision))
      (hop : ∃ name args passesFn version attempt,
        op = .toolCall name args passesFn version attempt)
      (hdry : ¬ (rt.dryRun = true ∧ spec.sideEffects = true))
      (hanswers : Further [] answers) (happroved : DurablyApproved 0 rt.policies answers)
      (hconsulted : Consulted 0 rt.policies answers) :
      Authorised op s (some (spec.sideEffects, answers))
  | confirmed (token : String) (pending : PendingToolCall) (approved : List (ℕ × Decision))
      (hop : op = .confirm token)
      (hpending : s.run.pendingToolCalls.get? token = some pending)
      (hcursor : s.run.cursorId = pending.parentId)
      (hhandler : pending.spec.hasHandler = true)
      (hanswers : Further [] approved) (happroved : DurablyApproved 0 rt.policies approved) :
      Authorised op s (some (pending.spec.sideEffects, pending.consulted ++ approved))

/-- The session in which an operation makes its call. -/
structure Before (s m : Session) : Prop where
  quiet : Quiet s m
  store : m.store = s.store
  cursor : m.run.cursorId = s.run.cursorId

theorem Before.refl (s : Session) : Before s s := ⟨.refl s, rfl, rfl⟩

/-- How an operation ends. -/
inductive OpEnds (flavor : Flavor) (op : Op) (s : Session) : Session → Prop
  | quiet {t : Session} (h : Quiet s t) : OpEnds flavor op s t
  | suspended (id : String) (pending : PendingToolCall) (approved : List (ℕ × Decision))
      (hregistry : rt.registry ≠ none)
      (hop : ∃ name args passesFn version attempt,
        op = .toolCall name args passesFn version attempt)
      (happroved : Further [] approved)
      (hsuspension : Suspension env 0 rt.policies approved pending) :
      OpEnds flavor op s (s.suspended id pending)
  | dry {m t t' : Session} {payload : Value} {attempt : ℤ} {reservation : Option Reservation}
      (hbefore : Before s m) (hmode : rt.mode ≠ .replay)
      (hcall : op.call? H rt s.run = some (.toolCall, payload, attempt))
      (hdry : rt.dryRun = true)
      (hpassed : precheck H rt env .toolCall payload m = .ok reservation t)
      (hends : DryRunEnds H rt env payload attempt reservation t t') : OpEnds flavor op s t'
  | called {m t t' : Session} {kind : NodeKind} {payload : Value} {attempt : ℤ}
      {keepChunks : Bool} {action : Option (Bool × List (ℕ × Decision))}
      {reservation : Option Reservation}
      (hbefore : Before s m) (hmode : rt.mode ≠ .replay)
      (hcall : op.call? H rt s.run = some (kind, payload, attempt))
      (haction : Authorised rt op s action)
      (hpassed : precheck H rt env kind payload.canonical m = .ok reservation t)
      (hends : CallEnds H rt flavor env kind payload.canonical attempt keepChunks action
        reservation t t') : OpEnds flavor op s t'

section Perform

variable (flavor : Flavor) {op : Op}

theorem ends_callWith {s m : Session} {kind : NodeKind} {payload : Value} {attempt : ℤ}
    {keepChunks : Bool} {action : Option (Bool × List (ℕ × Decision))} (hbefore : Before s m)
    (hkind : kind ≠ .root) (hcall : op.call? H rt s.run = some (kind, payload, attempt))
    (haction : rt.mode ≠ .replay → Authorised rt op s action) :
    OpEnds H rt env flavor op s
      (after (callWith H rt flavor env kind payload attempt keepChunks action) m) := by
  rcases callWith_cases H rt env flavor quiet
    (fun payload => quiet_recordedNode H rt env kind payload attempt)
    (fun payload => (quiet_precheck H rt env kind payload).raising) hkind m with hquiet |
    ⟨reservation, t, hmode, -, hpassed, hends⟩
  · exact .quiet (hbefore.quiet.trans hquiet)
  · exact .called hbefore hmode hcall (haction hmode) hpassed hends

theorem isIdentity_registeredPayload {registry : Registry} {spec : ActionSpec}
    {auditArgs : Value} (h : auditArgs.isIdentity = true) :
    (registeredPayload registry spec auditArgs).isIdentity = true := by
  simp [registeredPayload, Value.isIdentity, Value.isIdentityEntries, h]

/-- A registered call that its policies let through. -/
theorem ends_dispatchRegistered {s : Session} {registry : Registry} {spec : ActionSpec}
    {auditArgs : Value} {attempt : ℤ} {answers : List (ℕ × Decision)}
    (hmode : rt.mode ≠ .replay)
    (hop : ∃ name args passesFn version attempt,
      op = .toolCall name args passesFn version attempt)
    (hcall : op.call? H rt s.run =
      some (.toolCall, registeredPayload registry spec auditArgs, attempt))
    (haudit : auditArgs.isIdentity = true) (hanswers : Further [] answers)
    (happroved : DurablyApproved 0 rt.policies answers)
    (hconsulted : Consulted 0 rt.policies answers) :
    OpEnds H rt env flavor op s (after (dispatchRegistered H rt flavor env spec
      (registeredPayload registry spec auditArgs) attempt answers) s) := by
  unfold dispatchRegistered
  rw [after_bind]
  have hquiet := quiet_recordedNode H rt env .toolCall (registeredPayload registry spec auditArgs)
    attempt
  cases hrecorded : recordedNode H rt env .toolCall (registeredPayload registry spec auditArgs)
      attempt s with
  | error e t => exact .quiet (hquiet.of_error hrecorded)
  | ok found t =>
      cases found with
      | some node => exact .quiet (hquiet.of_ok hrecorded)
      | none =>
          obtain ⟨rfl, -⟩ := recordedNode_none H rt env hrecorded
          dsimp only
          split
          · next hdry =>
              rcases dryRunCall_cases H rt env hmode (isIdentity_registeredPayload haudit) s with
                hdone | ⟨reservation, t, hpassed, hends⟩
              · exact .quiet hdone
              · exact .dry (.refl s) hmode hcall hdry.1 hpassed hends
          · next hdry =>
              split
              · exact .quiet (quiet_refusePolicy H rt env _ _ s)
              · exact ends_callWith H rt env flavor (.refl s) (by decide) hcall
                  fun _ => .registered spec answers hop hdry hanswers happroved hconsulted

/-- The policies of a registered call, and what follows. -/
theorem ends_policies {s : Session} {registry : Registry} {spec : ActionSpec}
    (args : Value) {auditArgs : Value} {attempt : ℤ} (hregistry : rt.registry ≠ none) (hmode : rt.mode ≠ .replay)
    (hop : ∃ name args passesFn version attempt,
      op = .toolCall name args passesFn version attempt)
    (hcall : op.call? H rt s.run =
      some (.toolCall, registeredPayload registry spec auditArgs, attempt))
    (haudit : auditArgs.isIdentity = true) :
    OpEnds H rt env flavor op s (after (do
      let approved ← checkDurableApprovals H rt env spec args
      let consulted ← consultPolicies H rt env spec args (registeredPayload registry spec auditArgs)
        attempt 0 rt.policies approved
      dispatchRegistered H rt flavor env spec (registeredPayload registry spec auditArgs) attempt
        consulted) s) := by
  rw [after_bind]
  have hdurable := quiet_checkDurableApprovals H rt env spec args
  cases hcheck : checkDurableApprovals H rt env spec args s with
  | error e t => exact .quiet (hdurable.of_error hcheck)
  | ok approved t =>
      obtain ⟨rfl, hfurther, happroved⟩ := checkDurableApprovals_ok H rt env hcheck
      dsimp only
      rw [after_bind]
      cases hconsult : consultPolicies H rt env spec args (registeredPayload registry spec auditArgs)
          attempt 0 rt.policies approved s with
      | error e t =>
          have hafter : after (consultPolicies H rt env spec args
              (registeredPayload registry spec auditArgs) attempt 0 rt.policies approved) s = t := by
            rw [after, hconsult]
          dsimp only
          rcases consultPolicies_after H rt env s with hquiet |
            ⟨id, pending, hsuspended, -, hsuspension⟩
          · exact .quiet (hafter ▸ hquiet)
          · rw [← hafter, hsuspended]
            exact .suspended id pending approved hregistry hop hfurther hsuspension
      | ok answers t =>
          obtain ⟨rfl, hanswers, hconsulted⟩ := consultPolicies_ok H rt env hconsult
          exact ends_dispatchRegistered H rt env flavor hmode hop hcall haudit
            (hfurther.trans hanswers)
            (fun j policy hpolicy hyes => hanswers.kept _ (happroved hmode j policy hpolicy hyes))
            hconsulted

theorem ends_registeredToolCall {s : Session} {registry : Registry} {name : String}
    {args : Value} {version : Option String} {attempt : ℤ} (hregistry : rt.registry = some registry)
    {passesFn : Bool} (hop : op = .toolCall name args passesFn version attempt) :
    OpEnds H rt env flavor op s
      (after (registeredToolCall H rt flavor env registry name args version attempt) s) := by
  unfold registeredToolCall
  cases hspec : registry.specs.get? name with
  | none => exact .quiet (quiet_refusePolicy H rt env _ _ s)
  | some spec =>
      dsimp only
      rw [after_bind]
      cases hredact : spec.redactArgs H args with
      | error error => exact .quiet (.refl s)
      | ok auditArgs =>
          dsimp only [orRaise_ok, pure_apply]
          split
          · exact .quiet (quiet_refusePolicy H rt env _ _ s)
          · rw [after_bind]
            cases hargs : spec.validateArgs args with
            | error error => exact .quiet (.refl s)
            | ok finding =>
                cases finding with
                | some finding => exact .quiet (quiet_refusePolicy H rt env _ _ s)
                | none =>
                    have haudit := ActionSpec.isIdentity_redactArgs
                      (ActionSpec.isIdentity_of_validateArgs hargs) hredact
                    have hcall : op.call? H rt s.run =
                        some (.toolCall, registeredPayload registry spec auditArgs, attempt) := by
                      rw [hop, Op.call?, hregistry]
                      simp [hspec, hredact, Except.toOption]
                    have hrecorded := quiet_recordedNode H rt env .toolCall
                      (registeredPayload registry spec auditArgs) attempt
                    dsimp only [orRaise_ok, pure_apply]
                    split
                    · exact .quiet (quiet.bind hrecorded (fun found => by
                        cases found <;> first | exact quiet.pure _ | exact quiet.throw _) s)
                    · next hmode =>
                        have hpolicies := ends_policies H rt env flavor args
                          (by simp [hregistry]) hmode
                          ⟨name, args, passesFn, version, attempt, hop⟩ hcall haudit
                        split
                        · rw [after_bind]
                          cases hrun : recordedNode H rt env .toolCall
                              (registeredPayload registry spec auditArgs) attempt s with
                          | error e t => exact .quiet (hrecorded.of_error hrun)
                          | ok found t =>
                              cases found with
                              | some node => exact .quiet (hrecorded.of_ok hrun)
                              | none =>
                                  obtain ⟨rfl, -⟩ := recordedNode_none H rt env hrun
                                  exact hpolicies
                        · exact hpolicies

theorem before_erase (s : Session) (token : String) :
    Before s { s with run := { s.run with
      pendingToolCalls := s.run.pendingToolCalls.erase token } } := by
  refine ⟨⟨.refl s.store, fun h => h, rfl, rfl, fun other call hcall => ?_, [], rfl, by simp⟩,
    rfl, rfl⟩
  rw [Dict.erase, Dict.get?_filter, Option.filter_eq_some_iff] at hcall
  exact hcall.1

theorem ends_confirm {s : Session} {token : String} (hop : op = .confirm token) :
    OpEnds H rt env flavor op s (after (confirm H rt flavor env token) s) := by
  unfold confirm
  rw [after_bind, get_apply]
  dsimp only
  cases hpending : s.run.pendingToolCalls.get? token with
  | none => exact .quiet (.refl s)
  | some pending =>
      have herase := before_erase s token
      have hcall : op.call? H rt s.run = some (.toolCall, pending.payload, pending.attempt) := by
        rw [hop, Op.call?, hpending]
        rfl
      dsimp only
      rw [after_bind, modify_apply]
      dsimp only
      split
      · exact .quiet herase.quiet
      · next hcursor =>
          rw [after_bind]
          have hdurable := quiet_checkDurableApprovals H rt env pending.spec pending.args
          cases hcheck : checkDurableApprovals H rt env pending.spec pending.args
              { s with run := { s.run with
                pendingToolCalls := s.run.pendingToolCalls.erase token } } with
          | error e t => exact .quiet (herase.quiet.trans (hdurable.of_error hcheck))
          | ok approved t =>
              obtain ⟨rfl, hfurther, happroved⟩ := checkDurableApprovals_ok H rt env hcheck
              dsimp only
              split
              · exact .quiet (herase.quiet.trans (quiet_refusePolicy H rt env _ _ _))
              · next hhandler =>
                  exact ends_callWith H rt env flavor herase (by decide) hcall fun hmode =>
                    .confirmed token pending approved hop hpending (not_not.mp hcursor)
                      (by simpa using hhandler) hfurther (happroved hmode)

/-- An operation ends in one of these ways. -/
theorem ends_perform (op : Op) (s : Session) :
    OpEnds H rt env flavor op s (after (op.perform H rt flavor env) s) := by
  have hnone : ∀ {α : Type} (x : RunM α), after (x >>= fun _ => pure (none : Option Run)) s =
      after x s := fun x => after_bind_of_id (fun _ _ => rfl) s
  cases op with
  | modelCall payload attempt keepChunks =>
      rw [Op.perform, hnone]
      exact ends_callWith H rt env flavor (.refl s) (by decide) rfl fun _ => .unregistered
  | toolCall name args passesFn version attempt =>
      rw [Op.perform, hnone]
      unfold toolCall
      cases hregistry : rt.registry with
      | some registry => exact ends_registeredToolCall H rt env flavor hregistry rfl
      | none =>
          dsimp only
          split
          · refine ends_callWith H rt env flavor (.refl s) (by decide) ?_ fun _ => .unregistered
            simp [Op.call?, hregistry]
          · exact .quiet (.refl s)
  | confirm token =>
      rw [Op.perform, hnone]
      exact ends_confirm H rt env flavor rfl
  | note payload attempt =>
      rw [Op.perform, hnone]
      exact .quiet (quiet_note H rt env payload attempt s)
  | branch attempt budget =>
      rw [Op.perform, after_bind_of_id fun _ _ => rfl]
      exact .quiet (quiet_branch H rt env attempt budget s)
  | rollback nodeId steps =>
      rw [Op.perform, hnone]
      exact .quiet (quiet_rollback nodeId steps s)
  | prune =>
      rw [Op.perform, hnone]
      exact .quiet (quiet_prune rt s)

end Perform

/-! ## Operations that return -/

section Return

variable {flavor : Flavor}

theorem recordedNode_record {kind : NodeKind} {payload : Value} {attempt : ℤ} {s t : Session}
    {found : Option Node} (hmode : rt.mode = .record)
    (h : recordedNode H rt env kind payload attempt s = .ok found t) : found = none ∧ s = t := by
  cases found with
  | none => exact ⟨rfl, (recordedNode_none H rt env h).1⟩
  | some node =>
      unfold recordedNode at h
      rw [bind_of_ok (get_apply s)] at h
      obtain ⟨found, m, hfound, hrest⟩ := bind_eq_ok h
      obtain ⟨hrecorded, rfl⟩ := orRaise_eq_ok hfound
      cases found with
      | none => cases hrest
      | some other =>
          unfold recordedNodeOrMissing at hrecorded
          split at hrecorded
          · cases hrecorded
          · cases hmake : Node.make H kind (some s.run.cursorId) payload attempt with
            | error e =>
                rw [hmake] at hrecorded
                cases hrecorded
            | ok candidate =>
                simp only [hmake, bind, Except.bind, hmode] at hrecorded
                cases hfind : s.store.find? candidate.id with
                | none =>
                    rw [hfind] at hrecorded
                    cases hrecorded
                | some existing =>
                    rw [hfind] at hrecorded
                    dsimp only at hrecorded
                    unfold duplicateRecording at hrecorded
                    cases hsummary : payloadSummary H candidate.kind candidate.payload with
                    | error e =>
                        rw [hsummary] at hrecorded
                        cases hrecorded
                    | ok summary =>
                        rw [hsummary] at hrecorded
                        cases hrecorded

theorem callWith_passes {kind : NodeKind} {payload : Value} {attempt : ℤ} {keepChunks : Bool}
    {action : Option (Bool × List (ℕ × Decision))} {s t : Session} {node : Node}
    (hmode : rt.mode = .record)
    (h : callWith H rt flavor env kind payload attempt keepChunks action s = .ok node t) :
    ∃ payload reservation t', precheck H rt env kind payload s = .ok reservation t' := by
  unfold callWith at h
  obtain ⟨bytes, m, hbytes, hrest⟩ := bind_eq_ok h
  obtain ⟨-, rfl⟩ := orRaise_eq_ok hbytes
  obtain ⟨found, m, hfound, hrest⟩ := bind_eq_ok hrest
  obtain ⟨rfl, rfl⟩ := recordedNode_record H rt env hmode hfound
  obtain ⟨reservation, m, hprecheck, -⟩ := bind_eq_ok hrest
  exact ⟨bytes, reservation, m, hprecheck⟩

theorem dispatchRegistered_passes {spec : ActionSpec} {payload : Value} {attempt : ℤ}
    {answers : List (ℕ × Decision)} {s t : Session} {node : Node} (hmode : rt.mode = .record)
    (h : dispatchRegistered H rt flavor env spec payload attempt answers s = .ok node t) :
    ∃ payload reservation t', precheck H rt env .toolCall payload s = .ok reservation t' := by
  unfold dispatchRegistered at h
  obtain ⟨found, m, hfound, hrest⟩ := bind_eq_ok h
  obtain ⟨rfl, rfl⟩ := recordedNode_record H rt env hmode hfound
  dsimp only at hrest
  split at hrest
  · unfold dryRunCall at hrest
    obtain ⟨reservation, m, hprecheck, -⟩ := bind_eq_ok hrest
    exact ⟨payload, reservation, m, hprecheck⟩
  · split at hrest
    · exact absurd hrest (refusePolicy_ne_ok H rt env)
    · exact callWith_passes H rt env hmode hrest

theorem registeredToolCall_passes {registry : Registry} {name : String} {args : Value}
    {version : Option String} {attempt : ℤ} {s t : Session} {node : Node}
    (hmode : rt.mode = .record)
    (h : registeredToolCall H rt flavor env registry name args version attempt s =
      .ok node t) :
    ∃ payload reservation t', precheck H rt env .toolCall payload s = .ok reservation t' := by
  unfold registeredToolCall at h
  cases hspec : registry.specs.get? name with
  | none =>
      rw [hspec] at h
      exact absurd h (refusePolicy_ne_ok H rt env)
  | some spec =>
      rw [hspec] at h
      obtain ⟨auditArgs, m, hredact, h⟩ := bind_eq_ok h
      obtain ⟨-, rfl⟩ := orRaise_eq_ok hredact
      dsimp only at h
      split at h
      · exact absurd h (refusePolicy_ne_ok H rt env)
      · obtain ⟨finding, m, hargs, h⟩ := bind_eq_ok h
        obtain ⟨-, rfl⟩ := orRaise_eq_ok hargs
        cases finding with
        | some finding => exact absurd h (refusePolicy_ne_ok H rt env)
        | none =>
            dsimp only at h
            rw [if_neg (by simp [hmode])] at h
            have htail : ∀ m, (do
                let approved ← checkDurableApprovals H rt env spec args
                let consulted ← consultPolicies H rt env spec args
                  (registeredPayload registry spec auditArgs) attempt 0 rt.policies approved
                dispatchRegistered H rt flavor env spec
                  (registeredPayload registry spec auditArgs) attempt consulted) m = .ok node t →
                ∃ payload reservation t',
                  precheck H rt env .toolCall payload m = .ok reservation t' := by
              intro m h
              obtain ⟨approved, n, hcheck, hrest⟩ := bind_eq_ok h
              obtain ⟨rfl, -⟩ := checkDurableApprovals_ok H rt env hcheck
              obtain ⟨answers, n, hconsult, hrest⟩ := bind_eq_ok hrest
              obtain ⟨rfl, -⟩ := consultPolicies_ok H rt env hconsult
              exact dispatchRegistered_passes H rt env hmode hrest
            split at h
            · obtain ⟨found, m, hfound, hrest⟩ := bind_eq_ok h
              obtain ⟨rfl, rfl⟩ := recordedNode_record H rt env hmode hfound
              exact htail _ hrest
            · exact htail _ h

/-- In record mode, an operation that may call returns only if a precheck passed. -/
theorem perform_passes {op : Op} {s t : Session} {child : Option Run}
    (hmode : rt.mode = .record) (hcalls : op.calls = true)
    (h : op.perform H rt flavor env s = .ok child t) :
    ∃ m kind payload reservation t', Before s m ∧
      precheck H rt env kind payload m = .ok reservation t' := by
  cases op with
  | modelCall payload attempt keepChunks =>
      obtain ⟨node, m, hcall, -⟩ := bind_eq_ok h
      obtain ⟨payload, reservation, t', hpassed⟩ := callWith_passes H rt env hmode hcall
      exact ⟨s, _, payload, reservation, t', .refl s, hpassed⟩
  | toolCall name args passesFn version attempt =>
      obtain ⟨node, m, hcall, -⟩ := bind_eq_ok h
      unfold toolCall at hcall
      cases hregistry : rt.registry with
      | some registry =>
          rw [hregistry] at hcall
          obtain ⟨payload, reservation, t', hpassed⟩ :=
            registeredToolCall_passes H rt env hmode hcall
          exact ⟨s, _, payload, reservation, t', .refl s, hpassed⟩
      | none =>
          rw [hregistry] at hcall
          dsimp only at hcall
          split at hcall
          · obtain ⟨payload, reservation, t', hpassed⟩ := callWith_passes H rt env hmode hcall
            exact ⟨s, _, payload, reservation, t', .refl s, hpassed⟩
          · cases hcall
  | confirm token =>
      obtain ⟨node, m, hconfirm, -⟩ := bind_eq_ok h
      unfold confirm at hconfirm
      rw [bind_of_ok (get_apply s)] at hconfirm
      cases hpending : s.run.pendingToolCalls.get? token with
      | none =>
          rw [hpending] at hconfirm
          cases hconfirm
      | some pending =>
          rw [hpending] at hconfirm
          dsimp only at hconfirm
          rw [bind_of_ok (modify_apply _ s)] at hconfirm
          split at hconfirm
          · cases hconfirm
          · obtain ⟨approved, n, hcheck, hrest⟩ := bind_eq_ok hconfirm
            obtain ⟨rfl, -⟩ := checkDurableApprovals_ok H rt env hcheck
            split at hrest
            · exact absurd hrest (refusePolicy_ne_ok H rt env)
            · obtain ⟨payload, reservation, t', hpassed⟩ := callWith_passes H rt env hmode hrest
              exact ⟨_, _, payload, reservation, t', before_erase s token, hpassed⟩
  | note payload attempt => cases hcalls
  | branch attempt budget => cases hcalls
  | rollback nodeId steps => cases hcalls
  | prune => cases hcalls

end Return

end Runtime

end Pollard
