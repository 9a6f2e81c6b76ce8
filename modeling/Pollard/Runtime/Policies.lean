import Pollard.Runtime.Runs

/-!
# Handlers and policies

When the handler of a registered action is invoked: which policies have been asked
by then, and what a dry run invokes.
-/

namespace Pollard

open Lib Effect

section Runtime

variable (H : Hashing) (rt : Runtime)

/-! ## What an operation invokes -/

theorem mem_reviewed {s : Session} {e : Event} (h : e ∈ s.reviewed.trace) :
    e ∈ s.trace ∨ ∃ scopes store, e = .reviewed scopes store := by
  rcases List.mem_append.mp h with h | h
  · split at h
    · rw [List.mem_singleton] at h
      exact .inr ⟨_, _, h⟩
    · cases h
  · exact .inl h

theorem invoked_of_settlement {env : CallEnv} {reservation : Option Reservation}
    {scopes : List (Budget × String)} {charges : Dict String Value}
    {action : Option (Bool × List (ℕ × Decision))} :
    .invoked action ∉ settlement rt env reservation scopes charges := by
  unfold settlement
  split <;> simp

theorem invoked_of_releasing {env : CallEnv} {reservation : Option Reservation}
    {action : Option (Bool × List (ℕ × Decision))} :
    .invoked action ∉ releasing rt env reservation := by
  unfold releasing
  split <;> simp

theorem invoked_of_invocation {invoked : Bool}
    {action action' : Option (Bool × List (ℕ × Decision))}
    (h : .invoked action' ∈ invocation invoked action) : action' = action := by
  unfold invocation at h
  split at h
  · simpa using h
  · cases h

/-- A call invokes its own action only, and leaves the suspended calls. -/
theorem CallEnds.invoked {flavor : Flavor} {env : CallEnv} {kind : NodeKind} {payload : Value}
    {attempt : ℤ} {keepChunks : Bool} {action : Option (Bool × List (ℕ × Decision))}
    {reservation : Option Reservation} {s t : Session}
    (h : CallEnds H rt flavor env kind payload attempt keepChunks action reservation s t) :
    (∀ action', .invoked action' ∈ t.trace →
      .invoked action' ∈ s.trace ∨ action' = action) ∧
    t.run.pendingToolCalls = s.run.pendingToolCalls := by
  have hcharged : ∀ charges action',
      .invoked action' ∈ (s.charged rt flavor env keepChunks action reservation charges).trace →
      .invoked action' ∈ s.trace ∨ action' = action := by
    intro charges action' hmem
    rcases List.mem_append.mp hmem with hmem | hmem
    · rcases List.mem_append.mp hmem with hmem | hmem
      · exact absurd hmem (invoked_of_settlement rt)
      · exact .inr (invoked_of_invocation hmem)
    · exact .inl hmem
  cases h with
  | released hobtained =>
      refine ⟨fun action' hmem => ?_, rfl⟩
      rcases List.mem_append.mp hmem with hmem | hmem
      · rcases List.mem_append.mp hmem with hmem | hmem
        · exact absurd hmem (invoked_of_releasing rt)
        · exact .inr (invoked_of_invocation hmem)
      · exact .inl hmem
  | unpriced hfails hpriced =>
      refine ⟨fun action' hmem => ?_, rfl⟩
      rcases List.mem_append.mp hmem with hmem | hmem
      · exact .inr (invoked_of_invocation hmem)
      · exact .inl hmem
  | unmade charges hfails hattempt hpriced => exact ⟨hcharged charges, rfl⟩
  | lost charges hcompletes hsettle hpriced => exact ⟨hcharged charges, rfl⟩
  | rejected charges node hpriced hnode hput hfailed => exact ⟨hcharged charges, rfl⟩
  | recorded charges node store hpriced hnode hput hsettle hfailed =>
      refine ⟨fun action' hmem => ?_, rfl⟩
      rcases mem_reviewed hmem with hmem | ⟨scopes, store, heq⟩
      · exact hcharged charges action' hmem
      · cases heq

/-- A dry run invokes nothing, and leaves the suspended calls. -/
theorem DryRunEnds.invoked {env : CallEnv} {payload : Value} {attempt : ℤ}
    {reservation : Option Reservation} {s t : Session}
    (h : DryRunEnds H rt env payload attempt reservation s t) :
    (∀ action, .invoked action ∈ t.trace → .invoked action ∈ s.trace) ∧
    t.run.pendingToolCalls = s.run.pendingToolCalls := by
  cases h with
  | unrecorded hwhy =>
      refine ⟨fun action hmem => ?_, rfl⟩
      rcases List.mem_append.mp hmem with hmem | hmem
      · exact absurd hmem (invoked_of_settlement rt)
      · exact hmem
  | recorded node store hnode hput =>
      refine ⟨fun action hmem => ?_, rfl⟩
      rcases mem_reviewed hmem with hmem | ⟨scopes, store, heq⟩
      · rcases List.mem_append.mp hmem with hmem | hmem
        · exact absurd hmem (invoked_of_settlement rt)
        · exact hmem
      · cases heq

theorem Quiet.invoked {s t : Session} (h : Quiet s t)
    {action : Option (Bool × List (ℕ × Decision))} (hmem : .invoked action ∈ t.trace) :
    .invoked action ∈ s.trace := by
  obtain ⟨events, htrace, hevents⟩ := h.trace
  rw [htrace] at hmem
  rcases List.mem_append.mp hmem with hmem | hmem
  · cases hevents _ hmem
  · exact hmem

/-- What an operation invokes is authorised, and what it suspends was asked about. -/
theorem OpEnds.authorised {flavor : Flavor} {env : CallEnv} {op : Op} {s t : Session}
    (h : OpEnds H rt env flavor op s t) :
    (∀ action, .invoked action ∈ t.trace →
      .invoked action ∈ s.trace ∨ Authorised rt op s action) ∧
    ∀ token pending, t.run.pendingToolCalls.get? token = some pending →
      s.run.pendingToolCalls.get? token = some pending ∨
      (rt.registry ≠ none ∧ ∃ name args passesFn version attempt,
        op = .toolCall name args passesFn version attempt) ∧
      ∃ approved, Further [] approved ∧ Suspension env 0 rt.policies approved pending := by
  cases h with
  | quiet hquiet =>
      exact ⟨fun _ hmem => .inl (hquiet.invoked hmem), fun _ _ h => .inl (hquiet.pending _ _ h)⟩
  | suspended id suspended approved hregistry hop happroved hsuspension =>
      refine ⟨fun _ hmem => .inl hmem, fun token pending hpending => ?_⟩
      change (s.run.pendingToolCalls.set id suspended).get? token = some pending at hpending
      rw [Dict.get?_set] at hpending
      split at hpending
      · cases hpending
        exact .inr ⟨⟨hregistry, hop⟩, approved, happroved, hsuspension⟩
      · exact .inl hpending
  | dry hbefore hmode hcall hdry hpassed hends =>
      have hquiet := hbefore.quiet.trans (precheck_ok H rt env hpassed).1.quiet
      obtain ⟨hinvoked, hsame⟩ := hends.invoked
      refine ⟨fun _ hmem => .inl (hquiet.invoked (hinvoked _ hmem)), fun _ _ h => ?_⟩
      rw [hsame] at h
      exact .inl (hquiet.pending _ _ h)
  | called hbefore hmode hcall haction hpassed hends =>
      have hquiet := hbefore.quiet.trans (precheck_ok H rt env hpassed).1.quiet
      obtain ⟨hinvoked, hsame⟩ := hends.invoked
      refine ⟨fun action hmem => ?_, fun _ _ h => ?_⟩
      · rcases hinvoked action hmem with hmem | rfl
        · exact .inl (hquiet.invoked hmem)
        · exact .inr haction
      · rw [hsame] at h
        exact .inl (hquiet.pending _ _ h)

/-! ## Every policy is asked -/

/-- Every policy answered, and none denied. -/
def FailsClosed (policies : List Policy) (answers : List (ℕ × Decision)) : Prop :=
  (∀ i < policies.length, ∃ decision, (i, decision) ∈ answers) ∧ ∀ e ∈ answers, e.2 ≠ .deny

instance (policies : List Policy) (answers : List (ℕ × Decision)) :
    Decidable (FailsClosed policies answers) :=
  haveI : ∀ i, Decidable (∃ decision, (i, decision) ∈ answers) := fun i =>
    decidable_of_iff (∃ e ∈ answers, e.1 = i)
      ⟨fun ⟨e, he, hi⟩ => ⟨e.2, hi ▸ he⟩, fun ⟨_, h⟩ => ⟨_, h, rfl⟩⟩
  inferInstanceAs (Decidable (_ ∧ _))

/-- An invoked handler is one that every policy let through. -/
def Event.failsClosed (policies : List Policy) : Event → Prop
  | .invoked (some (_, answers)) => FailsClosed policies answers
  | _ => True

/-- No policy that asks for confirmation stands before one that is not durable. -/
def AsksAll (_ : World) : Input → Prop
  | .acted _ _ env (.toolCall _ _ _ _ _) =>
      rt.registry.isSome → hidesPolicy env 0 rt.policies = false
  | _ => True

instance (w : World) : (input : Input) → Decidable (AsksAll rt w input)
  | .acted _ _ env (.toolCall _ _ _ _ _) =>
      inferInstanceAs (Decidable (_ → hidesPolicy env 0 rt.policies = false))
  | .acted _ _ _ (.modelCall _ _ _) => inferInstanceAs (Decidable True)
  | .acted _ _ _ (.confirm _) => inferInstanceAs (Decidable True)
  | .acted _ _ _ (.note _ _) => inferInstanceAs (Decidable True)
  | .acted _ _ _ (.branch _ _) => inferInstanceAs (Decidable True)
  | .acted _ _ _ (.rollback _ _) => inferInstanceAs (Decidable True)
  | .acted _ _ _ .prune => inferInstanceAs (Decidable True)
  | .opened _ _ _ _ => inferInstanceAs (Decidable True)

theorem failsClosed_of_answers {policies : List Policy} {answers : List (ℕ × Decision)}
    (happroved : DurablyApproved 0 policies answers) (hconsulted : Consulted 0 policies answers)
    (hdeny : ∀ e ∈ answers, e.2 ≠ .deny) : FailsClosed policies answers := by
  refine ⟨fun i hi => ?_, hdeny⟩
  have hpolicy : policies[i]? = some policies[i] := List.getElem?_eq_getElem hi
  cases hdurable : policies[i].durableApproval with
  | true => exact ⟨.allow, by simpa using happroved i _ hpolicy hdurable⟩
  | false => simpa using hconsulted i _ hpolicy hdurable

/-- All that happened fails closed, and a suspended call has been put before all
policies that are not durable. -/
structure PoliciesAsked (w : World) : Prop where
  events : ∀ e ∈ w.trace, e.failsClosed rt.policies
  pending : ∀ handle ∈ w.handles, ∀ token pending,
    handle.run.pendingToolCalls.get? token = some pending →
      Consulted 0 rt.policies pending.consulted ∧ ∀ e ∈ pending.consulted, e.2 ≠ .deny

theorem failsClosed_of_authorised {w : World} (hw : PoliciesAsked rt w) {handle : Handle}
    (hhandle : handle ∈ w.handles) {op : Op} {action : Option (Bool × List (ℕ × Decision))}
    (h : Authorised rt op (w.session handle) action) :
    (Event.invoked action).failsClosed rt.policies := by
  have hnone : ∀ {answers : List (ℕ × Decision)}, Further [] answers →
      ∀ e ∈ answers, e.2 ≠ .deny := fun hfurther e he =>
    (hfurther.added e he).resolve_left (by simp)
  cases h with
  | unregistered => trivial
  | registered spec answers hop hdry hanswers happroved hconsulted =>
      exact failsClosed_of_answers happroved hconsulted (hnone hanswers)
  | confirmed token pending approved hop hpending hcursor hhandler hanswers happroved =>
      obtain ⟨hconsulted, hdeny⟩ := hw.pending handle hhandle token pending hpending
      refine failsClosed_of_answers ?_ ?_ ?_
      · exact fun j policy hpolicy hyes =>
          List.mem_append_right _ (happroved j policy hpolicy hyes)
      · intro j policy hpolicy hno
        obtain ⟨decision, hmem⟩ := hconsulted j policy hpolicy hno
        exact ⟨decision, List.mem_append_left _ hmem⟩
      · intro e he
        rcases List.mem_append.mp he with he | he
        · exact hdeny e he
        · exact hnone hanswers e he

theorem policiesAsked_step (w : World) (input : Input) (hw : PoliciesAsked rt w)
    (hinput : AsksAll rt w input) : PoliciesAsked rt (w.step H rt input) := by
  have hstep := stepped H rt w input
  generalize w.step H rt input = after at hstep
  cases hstep with
  | opened hgrown hopened =>
      refine ⟨hw.events, fun handle hhandle token pending hpending => ?_⟩
      rcases List.mem_append.mp hhandle with hhandle | hhandle
      · exact hw.pending handle hhandle token pending hpending
      · rw [List.mem_singleton.mp hhandle, hopened.pending] at hpending
        cases hpending
  | failed hgrown => exact ⟨hw.events, hw.pending⟩
  | idle => exact hw
  | @acted index flavor env op handle s child hhandle hends hchild =>
      have hmem := List.mem_of_getElem? hhandle
      obtain ⟨hinvoked, hpending⟩ := hends.authorised
      constructor
      · intro e he
        rcases List.mem_append.mp he with he | he
        · cases e with
          | invoked action =>
              rcases hinvoked action he with hold | haction
              · cases hold
              · exact failsClosed_of_authorised rt hw hmem haction
          | _ => trivial
        · exact hw.events e he
      · intro other hother token pending hget
        rcases mem_afterOp hother with hother | rfl | ⟨run, hrun, rfl⟩
        · exact hw.pending other hother token pending hget
        · rcases hpending token pending hget with hold | ⟨hop, approved, hfurther, hsuspension⟩
          · exact hw.pending handle hmem token pending hold
          · obtain ⟨hregistry, name, args, passesFn, version, attempt, rfl⟩ := hop
            refine ⟨hsuspension.consulted (hinput (Option.isSome_iff_ne_none.mpr hregistry)),
              fun e he => ?_⟩
            exact ((hfurther.trans hsuspension.further).added e he).resolve_left (by simp)
        · obtain ⟨attempt, budget, -, hbranched⟩ := hchild run hrun
          rw [hbranched.isChild] at hget
          cases hget

/-- Handlers run only after every policy was asked and none denied, in every run in
which a policy that asks for confirmation is asked last. -/
theorem handlers_fail_closed (store : MemoryStore) (inputs : List Input)
    (h : Machine.Along (World.step H rt) (AsksAll rt) { store } inputs) :
    ∀ e ∈ (World.run H rt { store } inputs).trace, e.failsClosed rt.policies :=
  (Machine.invariant_run (PoliciesAsked rt) (policiesAsked_step H rt)
    ⟨by simp, by simp⟩ h).events

/-! ## Dry runs -/

/-- A handler with side effects is invoked. -/
def Event.hasSideEffects : Event → Bool
  | .invoked (some (sideEffects, _)) => sideEffects
  | _ => false

/-- What is confirmed where it was suspended has no handler with side effects. -/
def ConfirmsHarmless (w : World) : Input → Prop
  | .acted index _ _ (.confirm token) =>
      ∀ handle ∈ w.handles[index]?, ∀ pending ∈ handle.run.pendingToolCalls.get? token,
        handle.run.cursorId = pending.parentId → pending.spec.hasHandler = true →
          pending.spec.sideEffects = false
  | _ => True

instance (w : World) : (input : Input) → Decidable (ConfirmsHarmless w input)
  | .acted index _ _ (.confirm token) => inferInstanceAs (Decidable (∀ handle ∈ w.handles[index]?,
      ∀ pending ∈ handle.run.pendingToolCalls.get? token, _ → _ → _ = _))
  | .acted _ _ _ (.toolCall _ _ _ _ _) => inferInstanceAs (Decidable True)
  | .acted _ _ _ (.modelCall _ _ _) => inferInstanceAs (Decidable True)
  | .acted _ _ _ (.note _ _) => inferInstanceAs (Decidable True)
  | .acted _ _ _ (.branch _ _) => inferInstanceAs (Decidable True)
  | .acted _ _ _ (.rollback _ _) => inferInstanceAs (Decidable True)
  | .acted _ _ _ .prune => inferInstanceAs (Decidable True)
  | .opened _ _ _ _ => inferInstanceAs (Decidable True)

theorem harmless_of_authorised (hdry : rt.dryRun = true) {w : World} {index : ℕ}
    {flavor : Flavor} {env : CallEnv} {op : Op} {handle : Handle}
    (hhandle : w.handles[index]? = some handle)
    (hinput : ConfirmsHarmless w (.acted index flavor env op))
    {action : Option (Bool × List (ℕ × Decision))}
    (h : Authorised rt op (w.session handle) action) :
    (Event.invoked action).hasSideEffects = false := by
  cases h with
  | unregistered => rfl
  | registered spec answers hop hspec hanswers happroved hconsulted =>
      cases hside : spec.sideEffects with
      | false => rfl
      | true => exact absurd ⟨hdry, hside⟩ hspec
  | confirmed token pending approved hop hpending hcursor hhandler hanswers happroved =>
      subst hop
      exact hinput handle hhandle pending hpending hcursor hhandler

theorem harmless_step (hdry : rt.dryRun = true) (w : World) (input : Input)
    (hw : ∀ e ∈ w.trace, e.hasSideEffects = false) (hinput : ConfirmsHarmless w input) :
    ∀ e ∈ (w.step H rt input).trace, e.hasSideEffects = false := by
  have hstep := stepped H rt w input
  generalize w.step H rt input = after at hstep
  cases hstep with
  | opened hgrown hopened => exact hw
  | failed hgrown => exact hw
  | idle => exact hw
  | acted hhandle hends hchild =>
      intro e he
      rcases List.mem_append.mp he with he | he
      · cases e with
        | invoked action =>
            rcases hends.authorised.1 action he with hold | haction
            · cases hold
            · exact harmless_of_authorised rt hdry hhandle hinput haction
        | _ => rfl
      · exact hw e he

/-- A dry run invokes no handler with side effects, in every run that confirms no
call of one. -/
theorem dry_run_is_harmless (hdry : rt.dryRun = true) (store : MemoryStore)
    (inputs : List Input)
    (h : Machine.Along (World.step H rt) ConfirmsHarmless { store } inputs) :
    ∀ e ∈ (World.run H rt { store } inputs).trace, e.hasSideEffects = false :=
  Machine.invariant_run _ (harmless_step H rt hdry) (by simp) h

end Runtime

/-! ## Confirmed calls -/

/-- An action with side effects. -/
def sendSpec : ActionSpec where
  name := "send"
  version := "1"
  schema := .dict [("type", .str "object")]
  sideEffects := true
  hasHandler := true
  specDigest := "send"
  accepted := by decide +kernel

/-- A runtime whose policies are not durable. -/
def sendRuntime (policies : ℕ) (dryRun : Bool) : Runtime where
  meters := [stepMeter]
  registry := some ⟨"registry", .ofList [("send", sendSpec)]⟩
  policies := List.replicate policies ⟨false⟩
  dryRun := dryRun

/-- Every call is a step, and the policies answer from a list. -/
def sendEnv (decisions : List Decision) : CallEnv :=
  { CallEnv.step with decide := fun index => .ok (decisions.getD index .allow) }

/-- A call that its first policy suspends and the caller confirms. -/
def confirmedSend (decisions : List Decision) : List Input :=
  [.opened false "r" none 0,
    .acted 0 .sync (sendEnv decisions) (.toolCall "send" (.dict []) false none 0),
    .acted 0 .sync (sendEnv decisions) (.confirm
      "tool_call0(args=(),registry_digest=registry,spec_digest=send,tool=send,version=1,)<root0(run=r,)<")]

theorem handlers_fail_closed_confirmedSend :
    (World.run .plain (sendRuntime 2 false) { store := .empty }
      (confirmedSend [.allow, .confirm])).trace.Forall
        (Event.failsClosed (sendRuntime 2 false).policies) :=
  List.forall_iff_forall_mem.mpr (handlers_fail_closed .plain (sendRuntime 2 false) .empty
    (confirmedSend [.allow, .confirm]) (by decide +kernel))

/-- A policy that asks for confirmation hides one that would deny. -/
theorem confirmed_handler_escapes_denial :
    ¬ ∀ (rt : Runtime) (inputs : List Input),
      ∀ e ∈ (World.run .plain rt { store := .empty } inputs).trace, e.failsClosed rt.policies := by
  intro h
  have hsend := h (sendRuntime 2 false) (confirmedSend [.confirm, .deny])
    (.invoked (some (true, [(0, .confirm)]))) (by decide +kernel)
  revert hsend
  change ¬ FailsClosed (sendRuntime 2 false).policies [(0, .confirm)]
  decide

theorem dry_run_is_harmless_allowedSend :
    (World.run .plain (sendRuntime 1 true) { store := .empty }
      (confirmedSend [.allow])).trace.Forall fun e => e.hasSideEffects = false :=
  List.forall_iff_forall_mem.mpr (dry_run_is_harmless .plain (sendRuntime 1 true) rfl .empty
    (confirmedSend [.allow]) (by decide +kernel))

/-- A confirmed call invokes its handler in a dry run. -/
theorem dry_run_sends_confirmed :
    ¬ ∀ (rt : Runtime) (inputs : List Input), rt.dryRun = true →
      ∀ e ∈ (World.run .plain rt { store := .empty } inputs).trace,
        e.hasSideEffects = false := by
  intro h
  have hsend := h (sendRuntime 1 true) (confirmedSend [.confirm]) rfl
    (.invoked (some (true, [(0, .confirm)]))) (by decide +kernel)
  cases hsend

end Pollard
