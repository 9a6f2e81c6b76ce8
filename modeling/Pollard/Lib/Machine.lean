/-!
# Machines driven by inputs

A deterministic machine reads one input at a time.  Whatever its environment
decides (who moves next, at what time, with what outcome) is part of the input,
so a statement about every list of inputs is a statement about every run.
-/

namespace Pollard.Lib.Machine

variable {σ ι : Type}

/-- The state after reading a list of inputs. -/
def run (step : σ → ι → σ) : σ → List ι → σ
  | s, [] => s
  | s, i :: is => run step (step s i) is

/-- Every input of the run meets a condition in the state that reads it. -/
def Along (step : σ → ι → σ) (P : σ → ι → Prop) : σ → List ι → Prop
  | _, [] => True
  | s, i :: is => P s i ∧ Along step P (step s i) is

instance Along.decidable (step : σ → ι → σ) (P : σ → ι → Prop)
    [∀ s i, Decidable (P s i)] : ∀ s is, Decidable (Along step P s is)
  | _, [] => inferInstanceAs (Decidable True)
  | s, i :: is =>
      haveI := Along.decidable step P (step s i) is
      inferInstanceAs (Decidable (P s i ∧ Along step P (step s i) is))

variable {step : σ → ι → σ} {P Q : σ → ι → Prop}

@[simp] theorem run_nil (s : σ) : run step s [] = s := rfl

@[simp] theorem run_cons (s : σ) (i : ι) (is : List ι) :
    run step s (i :: is) = run step (step s i) is := rfl

theorem run_append (s : σ) (is js : List ι) :
    run step s (is ++ js) = run step (run step s is) js := by
  induction is generalizing s with
  | nil => rfl
  | cons i is ih => exact ih (step s i)

theorem along_append {s : σ} {is js : List ι} :
    Along step P s (is ++ js) ↔ Along step P s is ∧ Along step P (run step s is) js := by
  induction is generalizing s with
  | nil => simp [Along]
  | cons i is ih => simp [Along, ih, and_assoc]

theorem Along.mono {s : σ} {is : List ι} (h : ∀ s i, P s i → Q s i)
    (hrun : Along step P s is) : Along step Q s is := by
  induction is generalizing s with
  | nil => trivial
  | cons i is ih => exact ⟨h s i hrun.1, ih hrun.2⟩

/-- A condition on every input holds along the run. -/
theorem along_of_forall {R : ι → Prop} {is : List ι} (hall : ∀ i ∈ is, R i) (s : σ) :
    Along step (fun _ i => R i) s is := by
  induction is generalizing s with
  | nil => trivial
  | cons i is ih =>
      rw [List.forall_mem_cons] at hall
      exact ⟨hall.1, ih hall.2 (step s i)⟩

/-- A condition on every input joins one along the run. -/
theorem Along.and_inputs {R : ι → Prop} {s : σ} {is : List ι} (hall : ∀ i ∈ is, R i)
    (hrun : Along step P s is) : Along step (fun s i => R i ∧ P s i) s is := by
  induction is generalizing s with
  | nil => trivial
  | cons i is ih =>
      rw [List.forall_mem_cons] at hall
      exact ⟨⟨hall.1, hrun.1⟩, ih hall.2 hrun.2⟩

/-- What holds at the start and is preserved by each admitted step holds after
the run. -/
theorem invariant_run (Inv : σ → Prop) (hstep : ∀ s i, Inv s → P s i → Inv (step s i))
    {s : σ} {is : List ι} (hs : Inv s) (hrun : Along step P s is) : Inv (run step s is) := by
  induction is generalizing s with
  | nil => exact hs
  | cons i is ih => exact ih (hstep s i hs hrun.1) hrun.2

/-- What an invariant and the condition of a step give holds of every step of a run. -/
theorem along_of_invariant (Inv : σ → Prop) (hstep : ∀ s i, Inv s → P s i → Inv (step s i))
    (hgives : ∀ s i, Inv s → P s i → Q s i) {s : σ} {is : List ι} (hs : Inv s)
    (hrun : Along step P s is) : Along step Q s is := by
  induction is generalizing s with
  | nil => trivial
  | cons i is ih => exact ⟨hgives s i hs hrun.1, ih (hstep s i hs hrun.1) hrun.2⟩

/-- What every step preserves, a run preserves. -/
theorem preserved_run (Inv : σ → Prop) (hstep : ∀ s i, Inv s → Inv (step s i)) {s : σ}
    (hs : Inv s) (is : List ι) : Inv (run step s is) := by
  induction is generalizing s with
  | nil => exact hs
  | cons i is ih => exact ih (hstep s i hs)

end Pollard.Lib.Machine
