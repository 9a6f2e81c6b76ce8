import Pollard.Runtime.Policies

/-!
# Exhausted scopes

Each run keeps its own record of the meters a scope has overspent.  A run that
compared its scopes with the totals after the excess refuses from then on, and so does
every run branched off from it later.
-/

namespace Pollard

open Lib Effect

/-! ## What a run has seen -/

/-- A comparison that shows a scope over its limit on a meter. -/
def Event.shows (budget : Budget) (anchorId meter : String) : Event → Bool
  | .reviewed scopes store =>
      (budget, anchorId) ∈ scopes ∧ (budget.limits.get? meter).any fun limit =>
        limit < viaFloat (store.total anchorId meter)
  | _ => false

/-- A run holds a scope as exhausted on a meter. -/
def Run.Knows (run : Run) (budget : Budget) (anchorId meter : String) : Prop :=
  ∃ scope ∈ run.budgetScopes, scope.budget = budget ∧ scope.anchorId = anchorId ∧
    meter ∈ scope.exhausted

/-- Scopes of which no meter is forgotten. -/
def Remembered (before after : List BudgetScope) : Prop :=
  ∀ scope ∈ before, ∃ scope' ∈ after, scope'.budget = scope.budget ∧
    scope'.anchorId = scope.anchorId ∧ ∀ meter ∈ scope.exhausted, meter ∈ scope'.exhausted

theorem Remembered.refl (scopes : List BudgetScope) : Remembered scopes scopes :=
  fun scope hscope => ⟨scope, hscope, rfl, rfl, fun _ h => h⟩

theorem Run.Knows.remembered {before after : Run} {budget : Budget} {anchorId meter : String}
    (h : before.Knows budget anchorId meter)
    (hscopes : Remembered before.budgetScopes after.budgetScopes) :
    after.Knows budget anchorId meter := by
  obtain ⟨scope, hscope, rfl, rfl, hmeter⟩ := h
  obtain ⟨scope', hscope', hbudget, hanchor, hkept⟩ := hscopes scope hscope
  exact ⟨scope', hscope', hbudget, hanchor, hkept meter hmeter⟩

theorem mem_updateExhausted {exhausted added : List String} {meter : String} :
    meter ∈ updateExhausted exhausted added ↔ meter ∈ exhausted ∨ meter ∈ added := by
  unfold updateExhausted
  rw [List.mem_append, List.mem_filter]
  by_cases h : meter ∈ exhausted <;> simp [h]

theorem mem_exhaustedAfterSettle {budget : Budget} {spent : Dict String Decimal}
    {meter : String} {limit : Decimal} (hlimit : budget.limits.get? meter = some limit)
    (hspent : limit < spent.getD meter 0) : meter ∈ exhaustedAfterSettle budget spent :=
  List.mem_map.mpr ⟨(meter, limit), List.mem_filter.mpr
    ⟨Dict.mem_entries_iff.mpr hlimit, by simpa using hspent⟩, rfl⟩

/-- Settling the scopes forgets nothing, and finds what is over its limit if it reads
every total. -/
theorem settledScopes_spec (store : MemoryStore) (scopes : List BudgetScope) :
    Remembered scopes (settledScopes store scopes).1 ∧
    ((settledScopes store scopes).2 = none → ∀ scope ∈ scopes, ∀ meter limit,
      scope.budget.limits.get? meter = some limit →
      limit < viaFloat (store.total scope.anchorId meter) →
      ∃ scope' ∈ (settledScopes store scopes).1, scope'.budget = scope.budget ∧
        scope'.anchorId = scope.anchorId ∧ meter ∈ scope'.exhausted) := by
  induction scopes with
  | nil => exact ⟨.refl _, by simp⟩
  | cons scope scopes ih =>
      rw [settledScopes]
      cases hspent : spentDecimal store scope.anchorId with
      | error e => exact ⟨.refl _, by simp⟩
      | ok spent =>
          obtain ⟨hremembered, hfound⟩ := ih
          constructor
          · intro other hother
            rcases List.mem_cons.mp hother with rfl | hother
            · exact ⟨_, List.mem_cons_self, rfl, rfl, fun meter hmeter =>
                mem_updateExhausted.mpr (.inl hmeter)⟩
            · obtain ⟨scope', hscope', h⟩ := hremembered other hother
              exact ⟨scope', List.mem_cons_of_mem _ hscope', h⟩
          · intro hnone other hother meter limit hlimit hover
            rcases List.mem_cons.mp hother with rfl | hother
            · refine ⟨_, List.mem_cons_self, rfl, rfl, mem_updateExhausted.mpr (.inr ?_)⟩
              exact mem_exhaustedAfterSettle hlimit (by rwa [spentDecimal_getD hspent])
            · obtain ⟨scope', hscope', h⟩ := hfound hnone other hother meter limit hlimit hover
              exact ⟨scope', List.mem_cons_of_mem _ hscope', h⟩

/-- A comparison leaves the run knowing what it shows. -/
theorem knows_of_reviewed {s : Session} {e : Event} (he : e ∈ s.reviewed.trace) :
    e ∈ s.trace ∨ ∀ budget anchorId meter, e.shows budget anchorId meter = true →
      s.reviewed.run.Knows budget anchorId meter := by
  rcases List.mem_append.mp he with he | he
  · split at he
    · next hnone =>
        right
        rw [List.mem_singleton] at he
        subst he
        intro budget anchorId meter hshows
        simp only [Event.shows, decide_eq_true_eq, Option.any_eq_true] at hshows
        obtain ⟨hmem, limit, hlimit, hover⟩ := hshows
        obtain ⟨scope, hscope, heq⟩ := List.mem_map.mp hmem
        cases heq
        exact (settledScopes_spec s.store s.run.budgetScopes).2 hnone scope hscope meter limit
          hlimit (by simpa using hover)
    · cases he
  · exact .inl he

section Runtime

variable (H : Hashing) (rt : Runtime)

/-! ## What an operation sees -/

/-- A session that went on and forgot nothing, and knows what it has seen since. -/
structure Attentive (s t : Session) : Prop where
  remembered : Remembered s.run.budgetScopes t.run.budgetScopes
  seen : ∀ e ∈ t.trace, e ∈ s.trace ∨ ∀ budget anchorId meter,
    e.shows budget anchorId meter = true → t.run.Knows budget anchorId meter

theorem Attentive.of_quiet {s t : Session} (h : Quiet s t) : Attentive s t := by
  refine ⟨by rw [h.scopes]; exact .refl _, fun e he => ?_⟩
  obtain ⟨events, htrace, hevents⟩ := h.trace
  rw [htrace] at he
  rcases List.mem_append.mp he with he | he
  · refine .inr fun budget anchorId meter hshows => ?_
    have hquiet := hevents e he
    cases e with
    | reviewed scopes store => cases hquiet
    | _ => cases hshows
  · exact .inl he

theorem Attentive.log {s : Session} {events : List Event}
    (h : ∀ e ∈ events, ∀ scopes store, e ≠ .reviewed scopes store) :
    Attentive s (s.log events) := by
  refine ⟨.refl _, fun e he => ?_⟩
  rcases List.mem_append.mp he with he | he
  · refine .inr fun budget anchorId meter hshows => ?_
    cases e with
    | reviewed scopes store => exact absurd rfl (h _ he scopes store)
    | _ => cases hshows
  · exact .inl he

theorem Attentive.reviewed {s m : Session} (h : Attentive s m) {store : MemoryStore}
    {id : String} : Attentive s (m.moved store id).reviewed := by
  have hsettled := settledScopes_spec store m.run.budgetScopes
  constructor
  · intro scope hscope
    obtain ⟨scope', hscope', hbudget, hanchor, hkept⟩ := h.remembered scope hscope
    obtain ⟨scope'', hscope'', hbudget', hanchor', hkept'⟩ := hsettled.1 scope' hscope'
    exact ⟨scope'', hscope'', hbudget'.trans hbudget, hanchor'.trans hanchor,
      fun meter hmeter => hkept' meter (hkept meter hmeter)⟩
  · intro e he
    rcases knows_of_reviewed he with he | hknows
    · rcases h.seen e he with he | hknows
      · exact .inl he
      · exact .inr fun budget anchorId meter hshows =>
          (hknows budget anchorId meter hshows).remembered hsettled.1
    · exact .inr hknows

theorem Attentive.trans {s m t : Session} (h : Quiet s m) (h' : Attentive m t) :
    Attentive s t := by
  refine ⟨by rw [← h.scopes]; exact h'.remembered, fun e he => ?_⟩
  rcases h'.seen e he with he | hknows
  · rcases (Attentive.of_quiet h).seen e he with he | hknows
    · exact .inl he
    · exact .inr fun budget anchorId meter hshows =>
        (hknows budget anchorId meter hshows).remembered h'.remembered
  · exact .inr hknows

theorem reviewed_of_settlement {env : CallEnv} {reservation : Option Reservation}
    {scopes : List (Budget × String)} {charges : Dict String Value} :
    ∀ e ∈ settlement rt env reservation scopes charges, ∀ scopes store,
      e ≠ .reviewed scopes store := by
  unfold settlement
  split <;> simp

theorem reviewed_of_invocation {invoked : Bool}
    {action : Option (Bool × List (ℕ × Decision))} :
    ∀ e ∈ invocation invoked action, ∀ scopes store, e ≠ .reviewed scopes store := by
  unfold invocation
  split <;> simp

theorem reviewed_of_releasing {env : CallEnv} {reservation : Option Reservation} :
    ∀ e ∈ releasing rt env reservation, ∀ scopes store, e ≠ .reviewed scopes store := by
  unfold releasing
  split <;> simp

theorem Attentive.charged {flavor : Flavor} {env : CallEnv} {keepChunks : Bool}
    {action : Option (Bool × List (ℕ × Decision))} {reservation : Option Reservation}
    {s : Session} {charges : Dict String Value} :
    Attentive s (s.charged rt flavor env keepChunks action reservation charges) := by
  apply Attentive.log
  intro e he
  rcases List.mem_append.mp he with he | he
  · exact reviewed_of_settlement rt e he
  · exact reviewed_of_invocation e he

theorem CallEnds.attentive {flavor : Flavor} {env : CallEnv} {kind : NodeKind}
    {payload : Value} {attempt : ℤ} {keepChunks : Bool}
    {action : Option (Bool × List (ℕ × Decision))} {reservation : Option Reservation}
    {s t : Session}
    (h : CallEnds H rt flavor env kind payload attempt keepChunks action reservation s t) :
    Attentive s t := by
  cases h with
  | released hobtained =>
      apply Attentive.log
      intro e he
      rcases List.mem_append.mp he with he | he
      · exact reviewed_of_releasing rt e he
      · exact reviewed_of_invocation e he
  | unpriced hfails hpriced => exact .log reviewed_of_invocation
  | unmade charges hfails hattempt hpriced => exact .charged rt
  | lost charges hcompletes hsettle hpriced => exact .charged rt
  | rejected charges node hpriced hnode hput hfailed => exact .charged rt
  | recorded charges node store hpriced hnode hput hsettle hfailed => exact (Attentive.charged rt).reviewed

theorem DryRunEnds.attentive {env : CallEnv} {payload : Value} {attempt : ℤ}
    {reservation : Option Reservation} {s t : Session}
    (h : DryRunEnds H rt env payload attempt reservation s t) : Attentive s t := by
  cases h with
  | unrecorded hwhy => exact .log (reviewed_of_settlement rt)
  | recorded node store hnode hput => exact (Attentive.log (reviewed_of_settlement rt)).reviewed

theorem OpEnds.attentive {flavor : Flavor} {env : CallEnv} {op : Op} {s t : Session}
    (h : OpEnds H rt env flavor op s t) : Attentive s t := by
  cases h with
  | quiet hquiet => exact .of_quiet hquiet
  | suspended id pending approved hregistry hop happroved hsuspension =>
      exact ⟨.refl _, fun e he => .inl he⟩
  | dry hbefore hmode hcall hdry hpassed hends =>
      exact .trans (hbefore.quiet.trans (precheck_ok H rt env hpassed).1.quiet) hends.attentive
  | called hbefore hmode hcall haction hpassed hends =>
      exact .trans (hbefore.quiet.trans (precheck_ok H rt env hpassed).1.quiet) hends.attentive

/-! ## What a run knows -/

/-- Every run knows what it has seen. -/
def KnowsSeen (w : World) : Prop :=
  ∀ handle ∈ w.handles, ∀ e ∈ handle.heard, ∀ budget anchorId meter,
    e.shows budget anchorId meter = true → handle.run.Knows budget anchorId meter

theorem remembered_child (run : Run) (anchorId : String) (budget : Option Budget) :
    Remembered run.budgetScopes (run.child anchorId budget).budgetScopes := fun scope hscope =>
  ⟨scope, List.mem_append_left _ hscope, rfl, rfl, fun _ h => h⟩

theorem knowsSeen_step (w : World) (input : Input) (hw : KnowsSeen w) :
    KnowsSeen (w.step H rt input) := by
  have hstep := stepped H rt w input
  generalize w.step H rt input = after at hstep
  cases hstep with
  | opened hgrown hopened =>
      intro handle hhandle e he
      rcases List.mem_append.mp hhandle with hhandle | hhandle
      · exact hw handle hhandle e he
      · rw [List.mem_singleton.mp hhandle] at he
        cases he
  | failed hgrown => exact hw
  | idle => exact hw
  | @acted index flavor env op handle s child hhandle hends hchild =>
      have hattentive := hends.attentive
      have hknows : ∀ e ∈ s.trace ++ handle.heard, ∀ budget anchorId meter,
          e.shows budget anchorId meter = true → s.run.Knows budget anchorId meter := by
        intro e he budget anchorId meter hshows
        rcases List.mem_append.mp he with he | he
        · exact ((hattentive.seen e he).resolve_left (by simp [World.session])) budget anchorId
            meter hshows
        · exact (hw handle (List.mem_of_getElem? hhandle) e he budget anchorId meter
            hshows).remembered hattentive.remembered
      intro other hother e he budget anchorId meter hshows
      rcases mem_afterOp hother with hother | rfl | ⟨run, hrun, rfl⟩
      · exact hw other hother e he budget anchorId meter hshows
      · exact hknows e he budget anchorId meter hshows
      · obtain ⟨attempt, branchBudget, -, hbranched⟩ := hchild run hrun
        have hsame : s.run = handle.run := hbranched.run
        have hknown := hknows e he budget anchorId meter hshows
        rw [hbranched.isChild]
        rw [hsame] at hknown
        exact hknown.remembered (remembered_child _ _ _)

/-! ## Refusing -/

/-- A scope is over its limit on a meter that is not the depth. -/
def Overspent (store : MemoryStore) (scope : BudgetScope) (meter : String) (limit : Decimal) :
    Prop :=
  meter ≠ "depth" ∧ scope.budget.limits.get? meter = some limit ∧
    limit < store.total scope.anchorId meter

/-- The run has seen the excess, or the meter declares an estimate that exceeds what
is left. -/
def Noticed (env : CallEnv) (w : World) (handle : Handle) (scope : BudgetScope)
    (meter : String) (limit : Decimal) : Prop :=
  (∃ e ∈ handle.heard, e.shows scope.budget scope.anchorId meter = true) ∨
    (estimateOn rt env meter).any (fun estimate => decide (estimate.exceeds
      (limit - viaFloat (w.store.total scope.anchorId meter)))) = true

instance (env : CallEnv) (w : World) (handle : Handle) (scope : BudgetScope)
    (meter : String) (limit : Decimal) : Decidable (Noticed rt env w handle scope meter limit) :=
  inferInstanceAs (Decidable (_ ∨ _))

/-- No precheck passes in a session with an overspent scope that was noticed. -/
theorem precheck_refuses {env : CallEnv} {w : World} {handle : Handle} (hw : KnowsSeen w)
    (hhandle : handle ∈ w.handles) {scope : BudgetScope}
    (hscope : scope ∈ handle.run.budgetScopes) {meter : String} {limit : Decimal}
    (hover : Overspent w.store scope meter limit)
    (hnoticed : Noticed rt env w handle scope meter limit) {m t : Session} {kind : NodeKind}
    {payload : Value} {reservation : Option Reservation} (hbefore : Before (w.session handle) m) :
    precheck H rt env kind payload m ≠ .ok reservation t := by
  intro hpassed
  obtain ⟨hmeter, hlimit, -⟩ := hover
  have hallows := (precheck_ok H rt env hpassed).1.allows
  have hstore := (precheck_ok H rt env hpassed).1.store
  have hscopes : m.run.budgetScopes = handle.run.budgetScopes := hbefore.quiet.scopes
  rw [hscopes] at hallows
  rcases hnoticed with ⟨e, he, hshows⟩ | hestimates
  · obtain ⟨scope', hscope', hbudget, hanchor, hexhausted⟩ :=
      hw handle hhandle e he _ _ _ hshows
    exact (hallows scope' hscope' meter limit hmeter (by rw [hbudget, hlimit])).1 hexhausted
  · rw [Option.any_eq_true] at hestimates
    obtain ⟨estimate, hestimate, hexceeds⟩ := hestimates
    have hnot := (hallows scope hscope meter limit hmeter hlimit).2 estimate hestimate
    rw [hstore.total, hbefore.store] at hnot
    have hexceeds' : estimate.exceeds
        (limit - viaFloat (w.store.total scope.anchorId meter)) := by simpa using hexceeds
    exact hnot hexceeds'

/-- An operation none of whose prechecks pass invokes nothing. -/
theorem OpEnds.invokes_nothing {flavor : Flavor} {env : CallEnv} {op : Op} {s t : Session}
    (h : OpEnds H rt env flavor op s t)
    (hrefuses : ∀ m, Before s m → ∀ kind payload reservation t,
      precheck H rt env kind payload m ≠ .ok reservation t)
    {action : Option (Bool × List (ℕ × Decision))} (hmem : .invoked action ∈ t.trace) :
    .invoked action ∈ s.trace := by
  cases h with
  | quiet hquiet => exact hquiet.invoked hmem
  | suspended id pending approved hregistry hop happroved hsuspension => exact hmem
  | dry hbefore hmode hcall hdry hpassed hends => exact absurd hpassed (hrefuses _ hbefore _ _ _ _)
  | called hbefore hmode hcall haction hpassed hends =>
      exact absurd hpassed (hrefuses _ hbefore _ _ _ _)

/-- Whoever calls under an overspent scope has noticed the excess. -/
def NoticesExcess (w : World) : Input → Prop
  | .acted index _ env op =>
      op.calls = true → ∀ handle ∈ w.handles[index]?, ∀ scope ∈ handle.run.budgetScopes,
        ∀ e ∈ scope.budget.limits.entries, e.1 ≠ "depth" →
          e.2 < w.store.total scope.anchorId e.1 → Noticed rt env w handle scope e.1 e.2
  | .opened _ _ _ _ => True

instance (w : World) : (input : Input) → Decidable (NoticesExcess rt w input)
  | .acted index _ env _ => inferInstanceAs (Decidable (_ → ∀ handle ∈ w.handles[index]?,
      ∀ scope ∈ handle.run.budgetScopes, ∀ e ∈ scope.budget.limits.entries, _ → _ →
        Noticed rt env w handle scope e.1 e.2))
  | .opened _ _ _ _ => inferInstanceAs (Decidable True)

/-- A call under an overspent scope invokes nothing, and it raises unless a recording
is reused. -/
def RefusesOverspent (w : World) : Input → Prop
  | .acted index flavor env op =>
      op.calls = true → ∀ handle ∈ w.handles[index]?,
        (∃ scope ∈ handle.run.budgetScopes, ∃ meter limit,
          Overspent w.store scope meter limit) →
        (∀ action, .invoked action ∉
          (after (op.perform H rt flavor env) (w.session handle)).trace) ∧
        (rt.mode = .record → ∃ error,
          outcome (op.perform H rt flavor env) (w.session handle) = .error error)
  | .opened _ _ _ _ => True

theorem refusesOverspent_of_noticed (w : World) (input : Input) (hw : KnowsSeen w)
    (hinput : NoticesExcess rt w input) : RefusesOverspent H rt w input := by
  cases input with
  | opened resumes label budget attempt => trivial
  | acted index flavor env op =>
      rintro hcalls handle hhandle ⟨scope, hscope, meter, limit, hover⟩
      have hnoticed := hinput hcalls handle hhandle scope hscope (meter, limit)
        (Dict.mem_entries_iff.mpr hover.2.1) hover.1 hover.2.2
      have hrefuses : ∀ m, Before (w.session handle) m → ∀ kind payload reservation t,
          precheck H rt env kind payload m ≠ .ok reservation t := fun m hbefore _ _ _ _ =>
        precheck_refuses H rt hw (List.mem_of_getElem? hhandle) hscope hover hnoticed hbefore
      constructor
      · intro action hmem
        cases (ends_perform H rt env flavor op (w.session handle)).invokes_nothing H rt hrefuses
          hmem
      · intro hmode
        unfold outcome
        cases hrun : op.perform H rt flavor env (w.session handle) with
        | error error t => exact ⟨error, rfl⟩
        | ok child t =>
            obtain ⟨m, kind, payload, reservation, t', hbefore, hpassed⟩ :=
              perform_passes H rt env hmode hcalls hrun
            exact absurd hpassed (hrefuses m hbefore kind payload reservation t')

end Runtime

/-! ## Runs of one tree -/

/-- A runtime with a meter that declares no estimate. -/
def tokensRuntime : Runtime where
  meters := [⟨"tokens", false, false, none⟩]

/-- Every call takes five tokens. -/
def tokensEnv : CallEnv :=
  { CallEnv.calm with charge := fun _ => .ok 5 }

def tokensBudget : Budget := { tokens := some 3 }

/-- A call, and another one by the run of an index. -/
def tokenCalls (index : ℕ) : List Input :=
  [.opened false "r" tokensBudget 0, .opened false "r" tokensBudget 0,
    .acted 0 .sync tokensEnv (.modelCall (.dict []) 0 false),
    .acted index .sync tokensEnv (.modelCall (.dict []) 1 false)]

end Pollard
