import Pollard.Lib.Machine
import Pollard.Lib.Program

/-!
# Clients of one state

Any number of clients run programs over one state, one operation at a time, and others change
the state in between.  What a program ensures whatever the others do, it has ensured wherever it
ends, and when it runs alone.
-/

namespace Pollard.Lib

namespace Program

variable {Op : Type} {Ans : Op → Type} {ε α β σ : Type}

section Ensures

variable (perform : (o : Op) → σ → Ans o × σ) (rely : σ → σ → Prop)

/-- Whatever others do before, between and after the operations, as long as they keep to `rely`,
the program ends only with an outcome of which `Q` holds. -/
def Ensures (Q : Except ε α → σ → Prop) : Program Op Ans ε α → σ → Prop
  | .ret a, s => ∀ t, rely s t → Q (.ok a) t
  | .raise e, s => ∀ t, rely s t → Q (.error e) t
  | .op o next, s => ∀ t, rely s t → (next (perform o t).1).Ensures Q (perform o t).2

/-- What has to hold of the outcome of a program that others follow. -/
def Followed (f : α → Program Op Ans ε β) (Q : Except ε β → σ → Prop) : Except ε α → σ → Prop
  | .ok a, s => (f a).Ensures perform rely Q s
  | .error e, s => Q (.error e) s

variable {perform rely} {Q R : Except ε α → σ → Prop} {p : Program Op Ans ε α} {s t : σ}

theorem Ensures.after (htrans : ∀ a b c, rely a b → rely b c → rely a c)
    (h : p.Ensures perform rely Q s) (hrely : rely s t) : p.Ensures perform rely Q t := by
  cases p with
  | ret a => exact fun u hu => h u (htrans s t u hrely hu)
  | raise e => exact fun u hu => h u (htrans s t u hrely hu)
  | op o next => exact fun u hu => h u (htrans s t u hrely hu)

theorem Ensures.mono (h : p.Ensures perform rely Q s)
    (himp : ∀ outcome t, Q outcome t → R outcome t) : p.Ensures perform rely R s := by
  induction p generalizing s with
  | ret a => exact fun t ht => himp _ t (h t ht)
  | raise e => exact fun t ht => himp _ t (h t ht)
  | op o next ih => exact fun t ht => ih _ (h t ht)

theorem Ensures.and (h : p.Ensures perform rely Q s) (h' : p.Ensures perform rely R s) :
    p.Ensures perform rely (fun outcome t => Q outcome t ∧ R outcome t) s := by
  induction p generalizing s with
  | ret a => exact fun t ht => ⟨h t ht, h' t ht⟩
  | raise e => exact fun t ht => ⟨h t ht, h' t ht⟩
  | op o next ih => exact fun t ht => ih _ (h t ht) (h' t ht)

theorem Ensures.bind {f : α → Program Op Ans ε β} {Q : Except ε β → σ → Prop}
    (hrefl : ∀ s, rely s s) (h : p.Ensures perform rely (Followed perform rely f Q) s) :
    (p.bind f).Ensures perform rely Q s := by
  induction p generalizing s with
  | ret a => exact h s (hrefl s)
  | raise e => exact h
  | op o next ih => exact fun t ht => ih _ (h t ht)

/-- What nobody ends still holds wherever the program ends. -/
theorem ensures_of_kept {P : σ → Prop} (hrely : ∀ s t, rely s t → P s → P t)
    (hperform : ∀ o s, P s → P (perform o s).2) (p : Program Op Ans ε α) (hs : P s) :
    p.Ensures perform rely (fun _ => P) s := by
  induction p generalizing s with
  | ret a => exact fun t ht => hrely s t ht hs
  | raise e => exact fun t ht => hrely s t ht hs
  | op o next ih => exact fun t ht => ih _ (hperform o t (hrely s t ht hs))

/-- What nobody ends holds at the end as well. -/
theorem Ensures.kept {P : σ → Prop} (hrely : ∀ s t, rely s t → P s → P t)
    (hperform : ∀ o s, P s → P (perform o s).2) (h : p.Ensures perform rely Q s) (hs : P s) :
    p.Ensures perform rely (fun outcome t => Q outcome t ∧ P t) s := by
  induction p generalizing s with
  | ret a => exact fun t ht => ⟨h t ht, hrely s t ht hs⟩
  | raise e => exact fun t ht => ⟨h t ht, hrely s t ht hs⟩
  | op o next ih => exact fun t ht => ih _ (h t ht) (hperform o t (hrely s t ht hs))

end Ensures

/-- How a program has ended. -/
def outcome? : Program Op Ans ε α → Option (Except ε α)
  | .ret a => some (.ok a)
  | .raise e => some (.error e)
  | .op _ _ => none

theorem Ensures.outcome {perform : (o : Op) → σ → Ans o × σ} {rely : σ → σ → Prop}
    {Q : Except ε α → σ → Prop} {p : Program Op Ans ε α} {s : σ} {outcome : Except ε α}
    (hrefl : ∀ s, rely s s) (h : p.Ensures perform rely Q s) (hp : p.outcome? = some outcome) :
    Q outcome s := by
  cases p with
  | ret a =>
      cases hp
      exact h s (hrefl s)
  | raise e =>
      cases hp
      exact h s (hrefl s)
  | op o next => cases hp

/-! ## Alone -/

section Alone

variable {perform : (o : Op) → σ → Ans o × σ} {p : Program Op Ans ε α}
  {f : α → Program Op Ans ε β} {s t : σ}

/-- What a program ensures among others, it ensures alone. -/
theorem Ensures.run {rely : σ → σ → Prop} {Q : Except ε α → σ → Prop} (hrefl : ∀ s, rely s s)
    (h : p.Ensures perform rely Q s) : Q (p.run perform s).1 (p.run perform s).2 := by
  induction p generalizing s with
  | ret a => exact h s (hrefl s)
  | raise e => exact h s (hrefl s)
  | op o next ih => exact ih _ (h s (hrefl s))

theorem run_bind_ok {a : α} (h : p.run perform s = (.ok a, t)) :
    (p.bind f).run perform s = (f a).run perform t := by
  induction p generalizing s with
  | ret b =>
      cases h
      rfl
  | raise e => cases h
  | op o next ih => exact ih _ h

theorem run_bind_error {e : ε} (h : p.run perform s = (.error e, t)) :
    (p.bind f).run perform s = (.error e, t) := by
  induction p generalizing s with
  | ret b => cases h
  | raise e =>
      cases h
      rfl
  | op o next ih => exact ih _ h

/-- Every operation of the program is one of these. -/
def Asks (P : Op → Prop) : Program Op Ans ε α → Prop
  | .ret _ => True
  | .raise _ => True
  | .op o next => P o ∧ ∀ a, (next a).Asks P

theorem Asks.bind {P : Op → Prop} (h : p.Asks P) (hf : ∀ a, (f a).Asks P) :
    (p.bind f).Asks P := by
  induction p with
  | ret a => exact hf a
  | raise e => trivial
  | op o next ih => exact ⟨h.1, fun a => ih a (h.2 a)⟩

/-- A program that only reads leaves the state as it was. -/
theorem Asks.run_state {P : Op → Prop} (hP : ∀ o, P o → ∀ s, (perform o s).2 = s) (h : p.Asks P)
    (s : σ) : (p.run perform s).2 = s := by
  induction p generalizing s with
  | ret a => rfl
  | raise e => rfl
  | op o next ih =>
      rw [Program.run, ih _ (h.2 _)]
      exact hP o h.1 s

end Alone

end Program

/-! ## Runs -/

structure Clients (Op : Type) (Ans : Op → Type) (ε α σ : Type) where
  state : σ
  programs : List (Program Op Ans ε α)

/-- Whose turn it is. -/
inductive Turn (Act : Type) where
  | client (i : ℕ)
  | other (act : Act)

namespace Clients

variable {Op : Type} {Ans : Op → Type} {ε α σ Act : Type}

/-- How the program of a client has ended. -/
def outcome? (w : Clients Op Ans ε α σ) (i : ℕ) : Option (Except ε α) :=
  w.programs[i]?.bind Program.outcome?

section Step

variable (perform : (o : Op) → σ → Ans o × σ) (change : Act → σ → σ)

def step (w : Clients Op Ans ε α σ) : Turn Act → Clients Op Ans ε α σ
  | .client i =>
      match w.programs[i]? with
      | some (.op o next) =>
          ⟨(perform o w.state).2, w.programs.set i (next (perform o w.state).1)⟩
      | some (.ret _) => w
      | some (.raise _) => w
      | none => w
  | .other act => { w with state := change act w.state }

/-- Whoever's turn it is, one after the other. -/
def run : Clients Op Ans ε α σ → List (Turn Act) → Clients Op Ans ε α σ :=
  Machine.run (step perform change)

end Step

section Runs

variable {perform : (o : Op) → σ → Ans o × σ} {change : Act → σ → σ} {rely : σ → σ → Prop}

/-- Every client ensures what it is to ensure. -/
def Ensure (perform : (o : Op) → σ → Ans o × σ) (rely : σ → σ → Prop)
    (Q : ℕ → Except ε α → σ → Prop) (w : Clients Op Ans ε α σ) : Prop :=
  ∀ (i : ℕ) (p : Program Op Ans ε α), w.programs[i]? = some p →
    p.Ensures perform rely (Q i) w.state

/-- The operation of one client is one of the others to the rest. -/
theorem Ensure.step {Q : ℕ → Except ε α → σ → Prop} (hrefl : ∀ s, rely s s)
    (htrans : ∀ a b c, rely a b → rely b c → rely a c)
    (hperform : ∀ o s, rely s (perform o s).2) (hchange : ∀ act s, rely s (change act s))
    {w : Clients Op Ans ε α σ} (h : w.Ensure perform rely Q) (turn : Turn Act) :
    rely w.state (w.step perform change turn).state ∧
      (w.step perform change turn).Ensure perform rely Q := by
  cases turn with
  | other act =>
      exact ⟨hchange act _, fun i p hp => (h i p hp).after htrans (hchange act _)⟩
  | client i =>
      unfold Clients.step
      dsimp only
      split
      · next o next hi =>
          refine ⟨hperform o _, fun j p hp => ?_⟩
          rw [List.getElem?_set] at hp
          split at hp
          · next heq =>
              split at hp
              · cases hp
                exact heq ▸ h i _ hi w.state (hrefl _)
              · cases hp
          · exact (h j p hp).after htrans (hperform o _)
      all_goals exact ⟨hrefl _, h⟩

theorem Ensure.run {Q : ℕ → Except ε α → σ → Prop} (hrefl : ∀ s, rely s s)
    (htrans : ∀ a b c, rely a b → rely b c → rely a c)
    (hperform : ∀ o s, rely s (perform o s).2) (hchange : ∀ act s, rely s (change act s))
    {w : Clients Op Ans ε α σ} (h : w.Ensure perform rely Q) (turns : List (Turn Act)) :
    rely w.state (w.run perform change turns).state ∧
      (w.run perform change turns).Ensure perform rely Q := by
  induction turns generalizing w with
  | nil => exact ⟨hrefl _, h⟩
  | cons turn turns ih =>
      obtain ⟨hstep, hensure⟩ := h.step hrefl htrans hperform hchange turn
      obtain ⟨hrun, hrest⟩ := ih hensure
      exact ⟨htrans _ _ _ hstep hrun, hrest⟩

/-- Wherever a client has ended, it has ensured what it was to. -/
theorem Ensure.outcome {Q : ℕ → Except ε α → σ → Prop} (hrefl : ∀ s, rely s s)
    {w : Clients Op Ans ε α σ} (h : w.Ensure perform rely Q) {i : ℕ} {outcome : Except ε α}
    (hi : w.outcome? i = some outcome) : Q i outcome w.state := by
  obtain ⟨p, hp, houtcome⟩ := Option.bind_eq_some_iff.mp hi
  exact (h i p hp).outcome hrefl houtcome

/-- How often it is a client's turn. -/
def turnsOf (i : ℕ) (turns : List (Turn Act)) : ℕ :=
  turns.countP fun turn => match turn with
    | .client j => j = i
    | .other _ => false

theorem within_step {w : Clients Op Ans ε α σ} {i n : ℕ} {p : Program Op Ans ε α}
    (hp : w.programs[i]? = some p) (h : p.Within n) (turn : Turn Act) :
    ∃ p', (w.step perform change turn).programs[i]? = some p' ∧
      p'.Within (n - turnsOf i [turn]) := by
  cases turn with
  | other act => exact ⟨p, hp, h⟩
  | client j =>
      have hcount : turnsOf i ([.client j] : List (Turn Act)) = if j = i then 1 else 0 := by
        by_cases heq : j = i <;> simp [turnsOf, heq]
      rw [hcount]
      by_cases heq : j = i
      · subst heq
        rw [if_pos rfl]
        unfold Clients.step
        dsimp only
        rw [hp]
        cases p with
        | ret a => exact ⟨_, hp, Program.within_ret _ a⟩
        | raise e => exact ⟨_, hp, Program.within_raise _ e⟩
        | op o next =>
            refine ⟨_, List.getElem?_set_self ?_, (h.next _).2⟩
            exact (List.getElem?_eq_some_iff.mp hp).1
      · rw [if_neg heq]
        refine ⟨p, ?_, h⟩
        unfold Clients.step
        dsimp only
        split
        · rw [List.getElem?_set_ne heq]
          exact hp
        all_goals exact hp

/-- A client that had as many turns as its program may take has ended. -/
theorem ended_of_turns {w : Clients Op Ans ε α σ} {i n : ℕ} {p : Program Op Ans ε α}
    (hp : w.programs[i]? = some p) (h : p.Within n) {turns : List (Turn Act)}
    (hturns : n ≤ turnsOf i turns) : ((w.run perform change turns).outcome? i).isSome = true := by
  have hrun : ∃ p', (w.run perform change turns).programs[i]? = some p' ∧
      p'.Within (n - turnsOf i turns) := by
    clear hturns
    induction turns generalizing w p n with
    | nil => exact ⟨p, hp, h⟩
    | cons turn turns ih =>
        have hstep : ∃ p', (w.step perform change turn).programs[i]? = some p' ∧
            p'.Within (n - turnsOf i [turn]) := within_step hp h turn
        obtain ⟨p', hp', hwithin⟩ := hstep
        obtain ⟨p'', hp'', hrest⟩ := ih hp' hwithin
        refine ⟨p'', hp'', ?_⟩
        have hsum : turnsOf i (turn :: turns) = turnsOf i [turn] + turnsOf i turns := by
          rw [turnsOf, turnsOf, turnsOf, ← List.countP_append, List.singleton_append]
        rwa [hsum, ← Nat.sub_sub]
  obtain ⟨p', hp', hwithin⟩ := hrun
  rw [Nat.sub_eq_zero_of_le hturns] at hwithin
  rw [outcome?, hp']
  cases p' with
  | ret a => rfl
  | raise e => rfl
  | op o next => exact hwithin.elim

end Runs

end Clients

end Pollard.Lib
