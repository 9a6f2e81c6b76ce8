import Pollard.Runtime.Quiet

/-!
# What policies have answered

A tool call goes on with the answers of all policies, or it is refused, or it is
suspended with the answers so far.
-/

namespace Pollard

open Lib Effect

section Runtime

variable (H : Hashing) (rt : Runtime) (env : CallEnv)

theorem refuse_ne_ok {α : Type} {kind : NodeKind} {payload : Value} {reason meter : String}
    {requested remaining detail : Option String} {estimated : Bool} {windowSeconds : Option ℚ}
    {auditMeta : Dict String Value} {s t : Session} {a : α} :
    refuse H rt env kind payload reason meter requested remaining detail estimated
      windowSeconds auditMeta s ≠ .ok a t := by
  intro h
  unfold refuse at h
  obtain ⟨_, _, -, h⟩ := bind_eq_ok h
  obtain ⟨_, _, -, h⟩ := bind_eq_ok h
  obtain ⟨_, _, -, h⟩ := bind_eq_ok h
  obtain ⟨_, _, -, h⟩ := bind_eq_ok h
  cases h

theorem refusePolicy_ne_ok {α : Type} {detail : String} {payload : Value} {s t : Session}
    {a : α} : refusePolicy H rt env detail payload s ≠ .ok a t := by
  intro h
  unfold refusePolicy at h
  obtain ⟨_, _, -, h⟩ := bind_eq_ok h
  obtain ⟨_, _, -, h⟩ := bind_eq_ok h
  obtain ⟨_, _, -, h⟩ := bind_eq_ok h
  obtain ⟨_, _, -, h⟩ := bind_eq_ok h
  cases h

theorem decidePolicy_ok {index : ℕ} {decision : Decision} {s t : Session}
    (h : decidePolicy env index s = .ok decision t) :
    s = t ∧ env.decide index = .ok decision := by
  unfold decidePolicy at h
  rw [bind_of_ok (get_apply s)] at h
  obtain ⟨_, m, hcounters, hrest⟩ := bind_eq_ok h
  obtain ⟨-, rfl⟩ := orRaise_eq_ok hcounters
  obtain ⟨hdecide, rfl⟩ := orRaise_eq_ok hrest
  exact ⟨rfl, hdecide⟩

/-! ## Durable approvals -/

/-- The durable policies of a list, counted from an index, have allowed an action. -/
def DurablyApproved (index : ℕ) (policies : List Policy) (answers : List (ℕ × Decision)) :
    Prop :=
  ∀ j policy, policies[j]? = some policy → policy.durableApproval = true →
    (index + j, .allow) ∈ answers

/-- The other policies of a list, counted from an index, have been asked. -/
def Consulted (index : ℕ) (policies : List Policy) (answers : List (ℕ × Decision)) : Prop :=
  ∀ j policy, policies[j]? = some policy → policy.durableApproval = false →
    ∃ decision, (index + j, decision) ∈ answers

/-- Answers with more answers, none of which denies. -/
structure Further (before after : List (ℕ × Decision)) : Prop where
  kept : ∀ e ∈ before, e ∈ after
  added : ∀ e ∈ after, e ∈ before ∨ e.2 ≠ .deny

theorem Further.refl (answers : List (ℕ × Decision)) : Further answers answers :=
  ⟨fun _ h => h, fun _ h => .inl h⟩

theorem Further.trans {a b c : List (ℕ × Decision)} (h : Further a b) (h' : Further b c) :
    Further a c := by
  refine ⟨fun e he => h'.kept e (h.kept e he), fun e he => ?_⟩
  rcases h'.added e he with hb | hne
  · exact h.added e hb
  · exact .inr hne

theorem Further.append {answers : List (ℕ × Decision)} {index : ℕ} {decision : Decision}
    (h : decision ≠ .deny) : Further answers (answers ++ [(index, decision)]) := by
  refine ⟨fun e he => List.mem_append_left _ he, fun e he => ?_⟩
  rcases List.mem_append.mp he with he | he
  · exact .inl he
  · rw [List.mem_singleton] at he
    exact .inr (he ▸ h)

theorem durableApprovals_ok {spec : ActionSpec} {args : Value} {index : ℕ}
    {policies : List Policy} {before answers : List (ℕ × Decision)} {s t : Session}
    (h : durableApprovals H rt env spec args index policies before s = .ok answers t) :
    s = t ∧ Further before answers ∧ DurablyApproved index policies answers := by
  induction policies generalizing index before s with
  | nil =>
      cases h
      exact ⟨rfl, .refl _, by simp [DurablyApproved]⟩
  | cons policy policies ih =>
      rw [durableApprovals] at h
      split at h
      · obtain ⟨decision, m, hdecide, hrest⟩ := bind_eq_ok h
        obtain ⟨rfl, -⟩ := decidePolicy_ok env hdecide
        split at hrest
        · next hallow =>
            obtain ⟨rfl, hfurther, happroved⟩ := ih hrest
            refine ⟨rfl, (Further.append (by simp [hallow])).trans hfurther, ?_⟩
            rintro (_ | j) other hother hdurable
            · rw [← hallow]
              exact hfurther.kept _ (List.mem_append_right _ List.mem_cons_self)
            · have := happroved j other hother hdurable
              rwa [show index + 1 + j = index + (j + 1) by omega] at this
        · obtain ⟨auditArgs, n, -, hrefuse⟩ := bind_eq_ok hrest
          exact absurd hrefuse (refusePolicy_ne_ok H rt env)
      · next hpolicy =>
          obtain ⟨rfl, hfurther, happroved⟩ := ih h
          refine ⟨rfl, hfurther, ?_⟩
          rintro (_ | j) other hother hdurable
          · cases hother
            exact absurd hdurable hpolicy
          · have := happroved j other hother hdurable
            rwa [show index + 1 + j = index + (j + 1) by omega] at this

theorem checkDurableApprovals_ok {spec : ActionSpec} {args : Value}
    {answers : List (ℕ × Decision)} {s t : Session}
    (h : checkDurableApprovals H rt env spec args s = .ok answers t) :
    s = t ∧ Further [] answers ∧
      (rt.mode ≠ .replay → DurablyApproved 0 rt.policies answers) := by
  unfold checkDurableApprovals at h
  split at h
  · next hmode =>
      cases h
      exact ⟨rfl, .refl _, fun hne => absurd hmode hne⟩
  · obtain ⟨rfl, hfurther, happroved⟩ := durableApprovals_ok H rt env h
    exact ⟨rfl, hfurther, fun _ => happroved⟩

/-! ## The other policies -/

/-- A policy asks for confirmation before another one was asked. -/
def hidesPolicy : ℕ → List Policy → Bool
  | _, [] => false
  | index, policy :: policies =>
      if policy.durableApproval then hidesPolicy (index + 1) policies
      else
        match env.decide index with
        | .ok .confirm => policies.any fun policy => policy.durableApproval = false
        | .ok .allow => hidesPolicy (index + 1) policies
        | .ok .other => hidesPolicy (index + 1) policies
        | .ok .deny => false
        | .error _ => false

/-- The session after a call was put aside. -/
def Session.suspended (s : Session) (id : String) (pending : PendingToolCall) : Session :=
  { s with run := { s.run with pendingToolCalls := s.run.pendingToolCalls.set id pending } }

/-- The policies have been asked up to one that asks for confirmation. -/
structure Suspension (index : ℕ) (policies : List Policy) (before : List (ℕ × Decision))
    (pending : PendingToolCall) : Prop where
  further : Further before pending.consulted
  consulted : hidesPolicy env index policies = false →
    Consulted index policies pending.consulted

theorem consultPolicies_ok {spec : ActionSpec} {args payload : Value} {attempt : ℤ}
    {index : ℕ} {policies : List Policy} {before answers : List (ℕ × Decision)}
    {s t : Session}
    (h : consultPolicies H rt env spec args payload attempt index policies before s =
      .ok answers t) :
    s = t ∧ Further before answers ∧ Consulted index policies answers := by
  induction policies generalizing index before s with
  | nil =>
      cases h
      exact ⟨rfl, .refl _, by simp [Consulted]⟩
  | cons policy policies ih =>
      have hgo : ∀ {decision : Decision}, decision ≠ .deny →
          consultPolicies H rt env spec args payload attempt (index + 1) policies
            (before ++ [(index, decision)]) s = .ok answers t →
          s = t ∧ Further before answers ∧ Consulted index (policy :: policies) answers := by
        intro decision hdecision hrest
        obtain ⟨rfl, hfurther, hconsulted⟩ := ih hrest
        refine ⟨rfl, (Further.append hdecision).trans hfurther, ?_⟩
        rintro (_ | j) other hother hdurable
        · exact ⟨decision, hfurther.kept _ (List.mem_append_right _ List.mem_cons_self)⟩
        · have := hconsulted j other hother hdurable
          rwa [show index + 1 + j = index + (j + 1) by omega] at this
      rw [consultPolicies] at h
      split at h
      · next hpolicy =>
          obtain ⟨rfl, hfurther, hconsulted⟩ := ih h
          refine ⟨rfl, hfurther, ?_⟩
          rintro (_ | j) other hother hdurable
          · cases hother
            rw [hpolicy] at hdurable
            cases hdurable
          · have := hconsulted j other hother hdurable
            rwa [show index + 1 + j = index + (j + 1) by omega] at this
      · obtain ⟨decision, m, hdecide, hrest⟩ := bind_eq_ok h
        obtain ⟨rfl, -⟩ := decidePolicy_ok env hdecide
        cases decision with
        | deny => exact absurd hrest (refusePolicy_ne_ok H rt env)
        | confirm =>
            unfold suspend at hrest
            obtain ⟨_, _, -, hrest⟩ := bind_eq_ok hrest
            obtain ⟨_, _, -, hrest⟩ := bind_eq_ok hrest
            obtain ⟨_, _, -, hrest⟩ := bind_eq_ok hrest
            cases hrest
        | allow => exact hgo (by decide) hrest
        | other => exact hgo (by decide) hrest

/-- A loop over policies is quiet, or it suspends the call. -/
theorem consultPolicies_after {spec : ActionSpec} {args payload : Value} {attempt : ℤ}
    {index : ℕ} {policies : List Policy} {before : List (ℕ × Decision)} (s : Session) :
    Quiet s (after (consultPolicies H rt env spec args payload attempt index policies before)
      s) ∨
    ∃ id pending, after (consultPolicies H rt env spec args payload attempt index policies
        before) s = s.suspended id pending ∧ pending.spec = spec ∧
      Suspension env index policies before pending := by
  induction policies generalizing index before with
  | nil => exact .inl (Quiet.refl s)
  | cons policy policies ih =>
      have hstep : ∀ {pending : PendingToolCall} {answers : List (ℕ × Decision)},
          policy.durableApproval = true ∨ (∃ decision, (index, decision) ∈ answers) →
          (hidesPolicy env index (policy :: policies) = false →
            hidesPolicy env (index + 1) policies = false) →
          Further before answers → Suspension env (index + 1) policies answers pending →
          Suspension env index (policy :: policies) before pending := by
        intro pending answers hpolicy hhides hfurther hsuspension
        refine ⟨hfurther.trans hsuspension.further, fun hnone => ?_⟩
        rintro (_ | j) other hother hdurable
        · cases hother
          rcases hpolicy with hpolicy | ⟨decision, hmem⟩
          · rw [hpolicy] at hdurable
            cases hdurable
          · exact ⟨decision, hsuspension.further.kept _ hmem⟩
        · have := hsuspension.consulted (hhides hnone) j other hother hdurable
          rwa [show index + 1 + j = index + (j + 1) by omega] at this
      rw [consultPolicies]
      split
      · next hpolicy =>
          rcases @ih (index + 1) before with hquiet |
            ⟨id, pending, hafter, hspec, hsuspension⟩
          · exact .inl hquiet
          · refine .inr ⟨id, pending, hafter, hspec, hstep (.inl hpolicy) ?_ (.refl _)
              hsuspension⟩
            rw [hidesPolicy, if_pos hpolicy]
            exact fun h => h
      · next hpolicy =>
          rw [after_bind]
          have hquiet := quiet_decidePolicy env index
          cases hdecide : decidePolicy env index s with
          | error e t => exact .inl (hquiet.of_error hdecide)
          | ok decision t =>
              obtain ⟨rfl, hanswer⟩ := decidePolicy_ok env hdecide
              have hgo : decision ≠ .deny →
                  (hidesPolicy env index (policy :: policies) =
                    hidesPolicy env (index + 1) policies) →
                  Quiet s (after (consultPolicies H rt env spec args payload attempt (index + 1)
                    policies (before ++ [(index, decision)])) s) ∨
                  ∃ id pending, after (consultPolicies H rt env spec args payload attempt
                      (index + 1) policies (before ++ [(index, decision)])) s =
                        s.suspended id pending ∧ pending.spec = spec ∧
                    Suspension env index (policy :: policies) before pending := by
                intro hdecision hhides
                rcases @ih (index + 1) (before ++ [(index, decision)]) with hquiet | ⟨id, pending, hafter, hspec, hsuspension⟩
                · exact .inl hquiet
                · exact .inr ⟨id, pending, hafter, hspec, hstep
                    (.inr ⟨decision, List.mem_append_right _ List.mem_cons_self⟩)
                    (fun h => hhides ▸ h) (.append hdecision) hsuspension⟩
              dsimp only
              cases decision with
              | deny => exact .inl (quiet_refusePolicy H rt env _ _ s)
              | allow => exact hgo (by decide) (by rw [hidesPolicy, if_neg hpolicy, hanswer])
              | other => exact hgo (by decide) (by rw [hidesPolicy, if_neg hpolicy, hanswer])
              | confirm =>
                  dsimp only
                  unfold suspend
                  rw [after_bind, get_apply]
                  dsimp only
                  rw [after_bind]
                  cases Node.make H .toolCall (some s.run.cursorId) payload attempt with
                  | error e => exact .inl (Quiet.refl s)
                  | ok prepared =>
                      refine .inr ⟨prepared.id, _, rfl, rfl, .append (by decide), ?_⟩
                      rw [hidesPolicy, if_neg hpolicy, hanswer]
                      intro hnone
                      rintro (_ | j) other hother hdurable
                      · exact ⟨.confirm, List.mem_append_right _ List.mem_cons_self⟩
                      · dsimp only at hnone
                        rw [List.any_eq_false] at hnone
                        exact absurd (by simpa using hdurable)
                          (hnone other (List.mem_of_getElem? hother))

end Runtime

end Pollard
