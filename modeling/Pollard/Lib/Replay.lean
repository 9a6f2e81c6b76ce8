import Mathlib.Data.List.Basic

/-!
# Replaying a log

A view is built from a log record by record, each under its offset.  A step that
absorbs what was applied before gives the same view however often a record that is
already in the log is delivered again.
-/

namespace Pollard.Lib.Replay

variable {σ ρ δ : Type}

/-- The view after the records of a log, from an offset on. -/
def replay (step : ℕ → σ → ρ → Except δ σ) : ℕ → σ → List ρ → Except δ σ
  | _, s, [] => .ok s
  | offset, s, r :: rs => (step offset s r).bind fun s => replay step (offset + 1) s rs

/-- A record that was applied stays applied, and applying it again changes nothing. -/
structure Absorbing (step : ℕ → σ → ρ → Except δ σ) (applied : σ → ρ → Prop) : Prop where
  applies : ∀ {offset s r t}, step offset s r = .ok t → applied t r
  kept : ∀ {offset s r t r'}, step offset s r = .ok t → applied s r' → applied t r'
  absorbs : ∀ {s r} offset, applied s r → step offset s r = .ok s

variable {step : ℕ → σ → ρ → Except δ σ}

theorem replay_cons_ok {offset : ℕ} {s t : σ} {r : ρ} {rs : List ρ}
    (h : replay step offset s (r :: rs) = .ok t) :
    ∃ m, step offset s r = .ok m ∧ replay step (offset + 1) m rs = .ok t := by
  rw [replay] at h
  cases hstep : step offset s r with
  | error e =>
      rw [hstep] at h
      cases h
  | ok m =>
      rw [hstep] at h
      exact ⟨m, rfl, h⟩

theorem replay_append (offset : ℕ) (s : σ) (rs rs' : List ρ) :
    replay step offset s (rs ++ rs') =
      (replay step offset s rs).bind fun m => replay step (offset + rs.length) m rs' := by
  induction rs generalizing offset s with
  | nil => rfl
  | cons r rs ih =>
      rw [List.cons_append, replay, replay]
      cases step offset s r with
      | error e => rfl
      | ok m =>
          have hoffset : offset + (r :: rs).length = offset + 1 + rs.length := by
            rw [List.length_cons]
            omega
          rw [hoffset]
          exact ih (offset + 1) m

namespace Absorbing

variable {applied : σ → ρ → Prop} (h : Absorbing step applied)

include h

theorem kept_by_replay {offset : ℕ} {s t : σ} {rs : List ρ} {r : ρ}
    (hreplay : replay step offset s rs = .ok t) (hr : applied s r) : applied t r := by
  induction rs generalizing offset s with
  | nil =>
      cases hreplay
      exact hr
  | cons first rs ih =>
      obtain ⟨m, hstep, hrest⟩ := replay_cons_ok hreplay
      exact ih hrest (h.kept hstep hr)

/-- Every record of a log is applied in its view. -/
theorem applied_of_replay {offset : ℕ} {s t : σ} {rs : List ρ}
    (hreplay : replay step offset s rs = .ok t) : ∀ r ∈ rs, applied t r := by
  induction rs generalizing offset s with
  | nil => simp
  | cons first rs ih =>
      obtain ⟨m, hstep, hrest⟩ := replay_cons_ok hreplay
      intro r hr
      rcases List.mem_cons.mp hr with rfl | hr
      · exact h.kept_by_replay hrest (h.applies hstep)
      · exact ih hrest r hr

theorem replay_applied {offset : ℕ} {s : σ} {rs : List ρ} (hrs : ∀ r ∈ rs, applied s r) :
    replay step offset s rs = .ok s := by
  induction rs generalizing offset with
  | nil => rfl
  | cons r rs ih =>
      rw [List.forall_mem_cons] at hrs
      rw [replay, h.absorbs offset hrs.1]
      exact ih hrs.2

/-- Records of a log that come again change nothing. -/
theorem replay_again {offset : ℕ} {s t : σ} {rs again : List ρ}
    (hreplay : replay step offset s rs = .ok t) (hagain : ∀ r ∈ again, r ∈ rs) :
    replay step offset s (rs ++ again) = .ok t := by
  rw [replay_append, hreplay]
  exact h.replay_applied fun r hr => h.applied_of_replay hreplay r (hagain r hr)

end Absorbing

end Pollard.Lib.Replay
