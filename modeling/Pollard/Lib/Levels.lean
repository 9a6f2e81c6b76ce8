import Mathlib.Data.List.Forall2

/-!
# Recursion with so many levels

A fallible computation whose calls may lie only so deep in each other: it is out of levels, it
fails or it returns a value.
-/

namespace Pollard.Lib.Levels

variable {ε α β : Type} {x y : ExceptT ε Option α} {f g : α → ExceptT ε Option β}

theorem run_bind : (x >>= f).run = match x.run with
    | none => none
    | some (.error e) => some (.error e)
    | some (.ok a) => (f a).run := by
  rcases hrun : x.run with _ | _ | a <;>
    simp [ExceptT.run_bind, hrun]

/-! ## Enough levels -/

/-- The levels are enough. -/
def Ends (x : ExceptT ε Option α) : Prop := x.run ≠ none

namespace Ends

theorem pure (a : α) : Ends (Pure.pure a : ExceptT ε Option α) := nofun

theorem throw (e : ε) : Ends (throw e : ExceptT ε Option α) := nofun

theorem lift (z : Except ε α) : Ends (ExceptT.mk (some z)) := nofun

theorem bind (hx : Ends x) (hf : ∀ a, x.run = some (.ok a) → Ends (f a)) : Ends (x >>= f) := by
  unfold Ends
  rw [run_bind]
  rcases hrun : x.run with _ | e | a
  · exact absurd hrun hx
  · exact nofun
  · exact hf a hrun

theorem mapM {l : List α} (h : ∀ a ∈ l, Ends (f a)) : Ends (l.mapM f) := by
  induction l with
  | nil => exact .pure []
  | cons a l ih =>
      rw [List.forall_mem_cons] at h
      rw [List.mapM_cons]
      exact h.1.bind fun _ _ => (ih h.2).bind fun _ _ => .pure _

end Ends

/-! ## Results -/

/-- A value returned meets a condition, and where the computation fails another holds. -/
structure Yields (P : α → Prop) (Q : Prop) (x : ExceptT ε Option α) : Prop where
  value : ∀ a, x.run = some (.ok a) → P a
  error : ∀ e, x.run = some (.error e) → Q

namespace Yields

variable {P : α → Prop} {Q : Prop} {R : β → Prop}

theorem out : Yields P Q (ExceptT.mk none : ExceptT ε Option α) := ⟨nofun, nofun⟩

theorem pure {a : α} (h : P a) : Yields P Q (Pure.pure a : ExceptT ε Option α) := by
  refine ⟨?_, nofun⟩
  rintro _ ⟨⟩
  exact h

theorem throw {e : ε} (h : Q) : Yields P Q (throw e : ExceptT ε Option α) := ⟨nofun, fun _ _ => h⟩

theorem lift {z : Except ε α} (hvalue : ∀ a, z = .ok a → P a) (herror : ∀ e, z = .error e → Q) :
    Yields P Q (ExceptT.mk (some z)) :=
  ⟨fun a h => hvalue a (Option.some.inj h), fun e h => herror e (Option.some.inj h)⟩

theorem bind (hx : Yields P Q x) (hf : ∀ a, P a → Yields R Q (f a)) : Yields R Q (x >>= f) := by
  constructor
  · intro b hb
    rw [run_bind] at hb
    rcases hrun : x.run with _ | e | a <;> rw [hrun] at hb
    · cases hb
    · cases hb
    · exact (hf a (hx.value a hrun)).value b hb
  · intro error herror
    rw [run_bind] at herror
    rcases hrun : x.run with _ | e | a <;> rw [hrun] at herror
    · cases herror
    · exact hx.error e hrun
    · exact (hf a (hx.value a hrun)).error error herror

theorem mono {P' : α → Prop} {Q' : Prop} (hx : Yields P Q x) (hvalue : ∀ a, P a → P' a)
    (herror : Q → Q') : Yields P' Q' x :=
  ⟨fun a h => hvalue a (hx.value a h), fun e h => herror (hx.error e h)⟩

theorem mapM {R : α → β → Prop} {l : List α} (h : ∀ a ∈ l, Yields (R a) Q (f a)) :
    Yields (List.Forall₂ R l) Q (l.mapM f) := by
  induction l with
  | nil => exact .pure .nil
  | cons a l ih =>
      rw [List.forall_mem_cons] at h
      rw [List.mapM_cons]
      exact h.1.bind fun _ hfirst => (ih h.2).bind fun _ hrest => .pure (.cons hfirst hrest)

end Yields

/-! ## More levels -/

/-- With more levels it does the same, if it had enough. -/
def Grows (x y : ExceptT ε Option α) : Prop := ∀ r, x.run = some r → y.run = some r

namespace Grows

theorem out : Grows (ExceptT.mk none) x := nofun

theorem refl : Grows x x := fun _ h => h

theorem bind (hx : Grows x y) (hf : ∀ a, Grows (f a) (g a)) : Grows (x >>= f) (y >>= g) := by
  intro r hr
  rw [run_bind] at hr ⊢
  rcases hrun : x.run with _ | e | a <;> rw [hrun] at hr
  · cases hr
  · rw [hx _ hrun]
    exact hr
  · rw [hx _ hrun]
    exact hf a r hr

theorem mapM {l : List α} (h : ∀ a ∈ l, Grows (f a) (g a)) : Grows (l.mapM f) (l.mapM g) := by
  induction l with
  | nil => exact .refl
  | cons a l ih =>
      rw [List.forall_mem_cons] at h
      rw [List.mapM_cons, List.mapM_cons]
      exact h.1.bind fun _ => (ih h.2).bind fun _ => .refl

end Grows

end Pollard.Lib.Levels
