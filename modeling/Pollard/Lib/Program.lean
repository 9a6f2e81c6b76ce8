import Mathlib.Data.Nat.Notation

/-!
# Programs as trees of operations

A program asks for one operation at a time and goes on with the answer, until it returns or
raises.  What an operation does is left to whoever runs the program: on a state of its own, or
between the operations of other programs.
-/

namespace Pollard.Lib

/-- A program over operations `Op`, whose answers have the types `Ans`. -/
inductive Program (Op : Type) (Ans : Op → Type) (ε α : Type) where
  | ret (value : α)
  | raise (error : ε)
  | op (o : Op) (next : Ans o → Program Op Ans ε α)

namespace Program

variable {Op : Type} {Ans : Op → Type} {ε α β γ σ : Type}

/-- One operation. -/
def ask (o : Op) : Program Op Ans ε (Ans o) := .op o .ret

def bind : Program Op Ans ε α → (α → Program Op Ans ε β) → Program Op Ans ε β
  | .ret a, f => f a
  | .raise e, _ => .raise e
  | .op o next, f => .op o fun a => (next a).bind f

instance : Monad (Program Op Ans ε) where
  pure := .ret
  bind := bind

/-- Run a program alone, on a state that the operations read and change. -/
def run (perform : (o : Op) → σ → Ans o × σ) : Program Op Ans ε α → σ → Except ε α × σ
  | .ret a, s => (.ok a, s)
  | .raise e, s => (.error e, s)
  | .op o next, s => run perform (next (perform o s).1) (perform o s).2

/-- Operations that answer alike on related states keep a program's runs related. -/
theorem run_related {τ : Type} {perform : (o : Op) → σ → Ans o × σ}
    {perform' : (o : Op) → τ → Ans o × τ} {R : σ → τ → Prop}
    (hperform : ∀ o s t, R s t →
      (perform o s).1 = (perform' o t).1 ∧ R (perform o s).2 (perform' o t).2)
    (p : Program Op Ans ε α) {s : σ} {t : τ} (h : R s t) :
    (p.run perform s).1 = (p.run perform' t).1 ∧
      R (p.run perform s).2 (p.run perform' t).2 := by
  induction p generalizing s t with
  | ret a => exact ⟨rfl, h⟩
  | raise e => exact ⟨rfl, h⟩
  | op o next ih =>
      obtain ⟨hanswer, hnext⟩ := hperform o s t h
      rw [run, run, hanswer]
      exact ih _ hnext

/-! ## Among others -/

/-- The program returns or raises after at most this many operations. -/
def Within : ℕ → Program Op Ans ε α → Prop
  | _, .ret _ => True
  | _, .raise _ => True
  | 0, .op _ _ => False
  | n + 1, .op _ next => ∀ a, (next a).Within n

theorem within_ret (n : ℕ) (a : α) : (ret a : Program Op Ans ε α).Within n := by
  cases n <;> trivial

theorem within_raise (n : ℕ) (e : ε) : (raise e : Program Op Ans ε α).Within n := by
  cases n <;> trivial

theorem Within.mono {p : Program Op Ans ε α} {m n : ℕ} (h : p.Within m) (hle : m ≤ n) :
    p.Within n := by
  induction p generalizing m n with
  | ret a => exact within_ret n a
  | raise e => exact within_raise n e
  | op o next ih =>
      obtain _ | m := m
      · exact h.elim
      · obtain _ | n := n
        · omega
        · exact fun a => ih a (h a) (by omega)

theorem Within.next {o : Op} {next : Ans o → Program Op Ans ε α} {n : ℕ}
    (h : (op o next).Within n) (a : Ans o) : 0 < n ∧ (next a).Within (n - 1) := by
  obtain _ | n := n
  · exact h.elim
  · exact ⟨Nat.succ_pos n, h a⟩

theorem Within.bind {p : Program Op Ans ε α} {f : α → Program Op Ans ε β} {m n : ℕ}
    (h : p.Within m) (hf : ∀ a, (f a).Within n) : (p.bind f).Within (m + n) := by
  induction p generalizing m with
  | ret a => exact (hf a).mono (by omega)
  | raise e => exact within_raise _ e
  | op o next ih =>
      obtain _ | m := m
      · exact h.elim
      · rw [Nat.succ_add]
        exact fun a => ih a (h a)

section Safe

variable (perform : (o : Op) → σ → Ans o × σ) (rely : σ → σ → Prop)

/-- Whatever others do before, between and after the operations, as long as they keep to
`rely`, the program returns only where `Q` holds. -/
def Safe (Q : α → σ → Prop) : Program Op Ans ε α → σ → Prop
  | .ret a, s => ∀ t, rely s t → Q a t
  | .raise _, _ => True
  | .op o next, s => ∀ t, rely s t → (next (perform o t).1).Safe Q (perform o t).2

variable {perform rely} {Q : α → σ → Prop} {R : β → σ → Prop}

theorem Safe.after (htrans : ∀ a b c, rely a b → rely b c → rely a c)
    {p : Program Op Ans ε α} {s t : σ} (h : p.Safe perform rely Q s) (hrely : rely s t) :
    p.Safe perform rely Q t := by
  cases p with
  | ret a => exact fun u hu => h u (htrans s t u hrely hu)
  | raise e => trivial
  | op o next => exact fun u hu => h u (htrans s t u hrely hu)

theorem Safe.bind (hrefl : ∀ s, rely s s) {p : Program Op Ans ε α}
    {f : α → Program Op Ans ε β} {s : σ} (h : p.Safe perform rely Q s)
    (hf : ∀ a t, Q a t → (f a).Safe perform rely R t) : (p.bind f).Safe perform rely R s := by
  induction p generalizing s with
  | ret a => exact hf a s (h s (hrefl s))
  | raise e => trivial
  | op o next ih => exact fun t ht => ih _ (h t ht)

/-- What nobody ends still holds at the end. -/
theorem safe_of_kept {P : σ → Prop} (hrely : ∀ s t, rely s t → P s → P t)
    (hperform : ∀ o s, P s → P (perform o s).2) (p : Program Op Ans ε α) {s : σ} (h : P s) :
    p.Safe perform rely (fun _ => P) s := by
  induction p generalizing s with
  | ret a => exact fun t ht => hrely s t ht h
  | raise e => trivial
  | op o next ih => exact fun t ht => ih _ (hperform o t (hrely s t ht h))

end Safe

end Program

end Pollard.Lib
