/-!
# Computations that may raise

`EStateM` keeps what a computation did before it raised.  Two kinds of rules: what
a sequence that ran has done, and which relations between the state before and the
state after a computation are kept, however it ends.
-/

namespace Pollard.Lib.Effect

variable {σ ε α β : Type}

/-- The state a computation leaves, whether it returns or raises. -/
def after (x : EStateM ε σ α) (s : σ) : σ :=
  match x s with
  | .ok _ s => s
  | .error _ s => s

/-- The value or the exception a computation ends with. -/
def outcome (x : EStateM ε σ α) (s : σ) : Except ε α :=
  match x s with
  | .ok a _ => .ok a
  | .error e _ => .error e

def orRaise : Except ε α → EStateM ε σ α
  | .ok a => pure a
  | .error e => throw e

/-- Run a computation and catch whatever it raises. -/
def attempt (x : EStateM ε σ α) : EStateM ε σ (Except ε α) := fun s =>
  match x s with
  | .ok a s => .ok (.ok a) s
  | .error e s => .ok (.error e) s

/-- The computation returns, with a condition on its value and the state it leaves. -/
def Returns (x : EStateM ε σ α) (s : σ) (P : α → σ → Prop) : Prop :=
  match x s with
  | .ok a t => P a t
  | .error _ _ => False

instance (x : EStateM ε σ α) (s : σ) (P : α → σ → Prop) [∀ a t, Decidable (P a t)] :
    Decidable (Returns x s P) :=
  match h : x s with
  | .ok a t => decidable_of_iff (P a t) (by rw [Returns, h])
  | .error _ _ => isFalse (by rw [Returns, h]; exact not_false)

/-- The exception something ended with, if it did. -/
def raised : Except ε α → Option ε
  | .ok _ => none
  | .error e => some e

/-- Run a computation on a part of the state. -/
def focus {τ : Type} (part : σ → τ) (update : τ → σ → σ) (x : EStateM ε τ α) :
    EStateM ε σ α := fun s =>
  match x (part s) with
  | .ok a t => .ok a (update t s)
  | .error e t => .error e (update t s)

/-! ## What a computation did -/

@[simp] theorem pure_apply (a : α) (s : σ) : (pure a : EStateM ε σ α) s = .ok a s := rfl

@[simp] theorem throw_apply (e : ε) (s : σ) : (throw e : EStateM ε σ α) s = .error e s := rfl

@[simp] theorem get_apply (s : σ) : (get : EStateM ε σ σ) s = .ok s s := rfl

@[simp] theorem modify_apply (f : σ → σ) (s : σ) :
    (modify f : EStateM ε σ PUnit) s = .ok ⟨⟩ (f s) := rfl

theorem bind_apply (x : EStateM ε σ α) (f : α → EStateM ε σ β) (s : σ) :
    (x >>= f) s = match x s with
      | .ok a s => f a s
      | .error e s => .error e s := by
  change EStateM.bind x f s = _
  rw [EStateM.bind]
  cases x s <;> rfl

theorem bind_of_ok {x : EStateM ε σ α} {s s' : σ} {a : α} (h : x s = .ok a s')
    (f : α → EStateM ε σ β) : (x >>= f) s = f a s' := by
  rw [bind_apply, h]

theorem bind_of_error {x : EStateM ε σ α} {s s' : σ} {e : ε} (h : x s = .error e s')
    (f : α → EStateM ε σ β) : (x >>= f) s = .error e s' := by
  rw [bind_apply, h]

@[simp] theorem orRaise_ok (a : α) (s : σ) :
    (orRaise (.ok a) : EStateM ε σ α) s = .ok a s := rfl

@[simp] theorem orRaise_error (e : ε) (s : σ) :
    (orRaise (.error e) : EStateM ε σ α) s = .error e s := rfl

theorem bind_eq_ok {x : EStateM ε σ α} {f : α → EStateM ε σ β} {s s' : σ} {b : β}
    (h : (x >>= f) s = .ok b s') : ∃ a m, x s = .ok a m ∧ f a m = .ok b s' := by
  rw [bind_apply] at h
  split at h
  · next a m hx => exact ⟨a, m, hx, h⟩
  · cases h

theorem bind_eq_error {x : EStateM ε σ α} {f : α → EStateM ε σ β} {s s' : σ} {e : ε}
    (h : (x >>= f) s = .error e s') :
    x s = .error e s' ∨ ∃ a m, x s = .ok a m ∧ f a m = .error e s' := by
  rw [bind_apply] at h
  split at h
  · next a m hx => exact .inr ⟨a, m, hx, h⟩
  · next e' m hx =>
      cases h
      exact .inl hx

theorem after_bind (x : EStateM ε σ α) (f : α → EStateM ε σ β) (s : σ) :
    after (x >>= f) s = match x s with
      | .ok a m => after (f a) m
      | .error _ m => m := by
  rw [after, bind_apply]
  cases x s <;> rfl

theorem after_bind_congr {x : EStateM ε σ α} {f : α → EStateM ε σ β} {γ : Type}
    {g : α → EStateM ε σ γ} (h : ∀ a m, after (f a) m = after (g a) m) (s : σ) :
    after (x >>= f) s = after (x >>= g) s := by
  rw [after_bind, after_bind]
  cases x s with
  | ok a m => exact h a m
  | error e m => rfl

/-- What does nothing afterwards does not matter. -/
theorem after_bind_of_id {x : EStateM ε σ α} {f : α → EStateM ε σ β}
    (h : ∀ a m, after (f a) m = m) (s : σ) : after (x >>= f) s = after x s := by
  rw [after_bind, after]
  cases x s with
  | ok a m => exact h a m
  | error e m => rfl

theorem after_attempt (x : EStateM ε σ α) (s : σ) : after (attempt x) s = after x s := by
  unfold after attempt
  cases x s <;> rfl

theorem Returns.exists {x : EStateM ε σ α} {s : σ} {P : α → σ → Prop} (h : Returns x s P) :
    ∃ a t, x s = .ok a t ∧ P a t := by
  unfold Returns at h
  split at h
  · next a t hx => exact ⟨a, t, hx, h⟩
  · cases h

theorem orRaise_eq_ok {x : Except ε α} {s s' : σ} {a : α}
    (h : (orRaise x : EStateM ε σ α) s = .ok a s') : x = .ok a ∧ s = s' := by
  cases x with
  | ok b =>
      cases h
      exact ⟨rfl, rfl⟩
  | error e => cases h

/-! ## Relations between before and after -/

/-- A relation that holds of doing nothing and of one thing after another. -/
structure Frame (R : σ → σ → Prop) : Prop where
  refl : ∀ s, R s s
  trans : ∀ {a b c}, R a b → R b c → R a c

/-- However the computation ends, the relation holds of the states around it. -/
def Keeps (R : σ → σ → Prop) (x : EStateM ε σ α) : Prop := ∀ s, R s (after x s)

theorem Keeps.of_ok {R : σ → σ → Prop} {x : EStateM ε σ α} (h : Keeps R x) {s s' : σ} {a : α}
    (hx : x s = .ok a s') : R s s' := by
  have hs := h s
  rwa [after, hx] at hs

theorem Keeps.of_error {R : σ → σ → Prop} {x : EStateM ε σ α} (h : Keeps R x) {s s' : σ}
    {e : ε} (hx : x s = .error e s') : R s s' := by
  have hs := h s
  rwa [after, hx] at hs

section Frame

variable {R : σ → σ → Prop}

theorem Frame.pure (hR : Frame R) (a : α) : Keeps R (Pure.pure a : EStateM ε σ α) :=
  fun s => hR.refl s

theorem Frame.throw (hR : Frame R) (e : ε) : Keeps R (MonadExcept.throw e : EStateM ε σ α) :=
  fun s => hR.refl s

theorem Frame.get (hR : Frame R) : Keeps R (MonadState.get : EStateM ε σ σ) :=
  fun s => hR.refl s

theorem Frame.orRaise (hR : Frame R) (x : Except ε α) :
    Keeps R (Effect.orRaise x : EStateM ε σ α) := by
  intro s
  cases x <;> exact hR.refl s

theorem Frame.bind (hR : Frame R) {x : EStateM ε σ α} {f : α → EStateM ε σ β}
    (hx : Keeps R x) (hf : ∀ a, Keeps R (f a)) : Keeps R (x >>= f) := by
  intro s
  rw [after, bind_apply]
  cases h : x s with
  | ok a m =>
      have hm := hf a m
      exact hR.trans (hx.of_ok h) hm
  | error e m => exact hx.of_error h

/-- The rule for a sequence from one state, with what the first part returned. -/
theorem Frame.bind_at (hR : Frame R) {x : EStateM ε σ α} {f : α → EStateM ε σ β} {s : σ}
    (hx : R s (after x s)) (hf : ∀ a m, x s = .ok a m → R m (after (f a) m)) :
    R s (after (x >>= f) s) := by
  rw [after, bind_apply]
  rw [after] at hx
  cases h : x s with
  | ok a m =>
      rw [h] at hx
      exact hR.trans hx (hf a m h)
  | error e m =>
      rw [h] at hx
      exact hx

theorem Frame.bind_orRaise (hR : Frame R) {x : Except ε α} {f : α → EStateM ε σ β}
    (hf : ∀ a, x = .ok a → Keeps R (f a)) : Keeps R (Effect.orRaise x >>= f) := by
  intro s
  cases x with
  | ok a => exact hf a rfl s
  | error e => exact hR.refl s

theorem keeps_modify {f : σ → σ} (h : ∀ s, R s (f s)) :
    Keeps R (modify f : EStateM ε σ PUnit) := h

theorem Keeps.attempt {x : EStateM ε σ α} (hx : Keeps R x) : Keeps R (attempt x) := by
  intro s
  rw [after, Effect.attempt]
  cases h : x s with
  | ok a m => exact hx.of_ok h
  | error e m => exact hx.of_error h

theorem Keeps.focus {τ : Type} {Q : τ → τ → Prop} {part : σ → τ} {update : τ → σ → σ}
    {x : EStateM ε τ α} (hx : Keeps Q x) (h : ∀ s t, Q (part s) t → R s (update t s)) :
    Keeps R (focus part update x) := by
  intro s
  rw [after, Effect.focus]
  cases hrun : x (part s) with
  | ok a t => exact h s t (hx.of_ok hrun)
  | error e t => exact h s t (hx.of_error hrun)

theorem Frame.forM_mem (hR : Frame R) {f : α → EStateM ε σ PUnit} {l : List α}
    (hf : ∀ a ∈ l, Keeps R (f a)) : Keeps R (l.forM f) := by
  induction l with
  | nil => exact hR.pure _
  | cons a l ih =>
      obtain ⟨ha, hl⟩ := List.forall_mem_cons.mp hf
      exact hR.bind ha fun _ => ih hl

theorem Frame.forM (hR : Frame R) {f : α → EStateM ε σ PUnit} (hf : ∀ a, Keeps R (f a))
    (l : List α) : Keeps R (l.forM f) :=
  hR.forM_mem fun a _ => hf a

theorem Frame.discard (hR : Frame R) {x : EStateM ε σ α} (hx : Keeps R x) :
    Keeps R (Functor.discard x) :=
  hR.bind hx fun _ => hR.pure _

theorem Frame.forM_ok (hR : Frame R) {f : α → EStateM ε σ PUnit} {l : List α}
    (hf : ∀ a ∈ l, ∀ s, ∃ t, f a s = .ok ⟨⟩ t ∧ R s t) (s : σ) :
    ∃ t, l.forM f s = .ok ⟨⟩ t ∧ R s t := by
  induction l generalizing s with
  | nil => exact ⟨s, rfl, hR.refl s⟩
  | cons a l ih =>
      obtain ⟨ha, hl⟩ := List.forall_mem_cons.mp hf
      obtain ⟨m, hm, hsm⟩ := ha s
      obtain ⟨t, ht, hmt⟩ := ih hl m
      exact ⟨t, (bind_of_ok hm _).trans ht, hR.trans hsm hmt⟩

/-- What every turn of a loop establishes and no later turn undoes holds when it is through. -/
theorem Frame.forM_eq_ok (hR : Frame R) {P : α → σ → Prop} {f : α → EStateM ε σ PUnit}
    (hP : ∀ {a : α} {s t : σ}, P a s → R s t → P a t)
    (hf : ∀ {a : α} {s t : σ} {u : PUnit}, f a s = .ok u t → R s t ∧ P a t)
    {l : List α} {s t : σ} {u : PUnit} (h : l.forM f s = .ok u t) : R s t ∧ ∀ a ∈ l, P a t := by
  induction l generalizing s with
  | nil =>
      cases h
      exact ⟨hR.refl _, by simp⟩
  | cons a l ih =>
      obtain ⟨_, m, ha, hl⟩ := bind_eq_ok h
      obtain ⟨hsm, hPa⟩ := hf ha
      obtain ⟨hmt, hPl⟩ := ih hl
      exact ⟨hR.trans hsm hmt, List.forall_mem_cons.mpr ⟨hP hPa hmt, hPl⟩⟩

theorem forM_unchanged {f : α → EStateM ε σ PUnit} {l : List α} {s : σ}
    (hf : ∀ a ∈ l, f a s = .ok ⟨⟩ s) : l.forM f s = .ok ⟨⟩ s := by
  induction l with
  | nil => rfl
  | cons a l ih =>
      obtain ⟨ha, hl⟩ := List.forall_mem_cons.mp hf
      exact (bind_of_ok ha _).trans (ih hl)

/-- Where the computation raises, the relation holds of the states around it. -/
def Raising (R : σ → σ → Prop) (x : EStateM ε σ α) : Prop :=
  ∀ s e t, x s = .error e t → R s t

theorem Keeps.raising {x : EStateM ε σ α} (hx : Keeps R x) : Raising R x :=
  fun _ _ _ h => hx.of_error h

theorem Frame.bind_raising (hR : Frame R) {x : EStateM ε σ α} {f : α → EStateM ε σ β}
    (hx : Keeps R x) (hf : ∀ a, Raising R (f a)) : Raising R (x >>= f) := by
  intro s e t h
  rcases bind_eq_error h with h | ⟨a, m, h, h'⟩
  · exact hx.of_error h
  · exact hR.trans (hx.of_ok h) (hf a m e t h')

end Frame

end Pollard.Lib.Effect
