import Pollard.Lib.Binary64

/-!
# Decimal arithmetic of a precision

A sum is rounded to the significant digits of the context, ties to even.  A running sum of
nonnegative numbers is exact where it fits in the digits.
-/

namespace Pollard.Lib.DecimalContext

open Binary64

variable (digits : ℕ)

/-- Addition in the context. -/
def add (a b : ℚ) : ℚ := decimal digits (a + b)

/-- The running sum from zero. -/
def total (amounts : List ℚ) : ℚ := amounts.foldl (add digits) 0

example : total 28 [10 ^ 28, 1] = 10 ^ 28 := by decide +kernel

/-- The numbers are natural multiples of a power of ten, and their sum fits in the digits. -/
def Exact (amounts : List ℚ) : Prop :=
  ∃ e : ℤ, (∀ a ∈ amounts, ∃ n : ℕ, a = n * 10 ^ e) ∧ amounts.sum < 10 ^ (digits + e : ℤ)

variable {digits}

theorem decimal_of_fits {n : ℕ} {e : ℤ} (h : (n : ℚ) * 10 ^ e < 10 ^ (digits + e : ℤ)) :
    decimal digits (n * 10 ^ e) = n * 10 ^ e := by
  rcases Nat.eq_zero_or_pos n with rfl | hn
  · simp
  have hpos : (0 : ℚ) < n * 10 ^ e := mul_pos (Nat.cast_pos.mpr hn) (zpow_pos (by norm_num) e)
  have hlog : Int.log 10 (n * 10 ^ e : ℚ) < digits + e :=
    (Int.lt_zpow_iff_log_lt (by norm_num) hpos).mp (by exact_mod_cast h)
  obtain ⟨k, hk⟩ : ∃ k : ℕ, e = (Int.log 10 (n * 10 ^ e : ℚ) + 1 - digits) + k :=
    ⟨(e - (Int.log 10 (n * 10 ^ e : ℚ) + 1 - digits)).toNat, by omega⟩
  rw [decimal, abs_of_pos hpos]
  generalize Int.log 10 (n * 10 ^ e : ℚ) + 1 - digits = u at hk
  subst hk
  have hmultiple : (n : ℚ) * 10 ^ (u + k : ℤ) = ((n * 10 ^ k : ℕ) : ℤ) * 10 ^ u := by
    rw [zpow_add₀ (by norm_num), zpow_natCast]
    push_cast
    ring
  rw [hmultiple]
  exact roundTo_of_multiple (zpow_ne_zero _ (by norm_num)) _

theorem foldl_add_of_exact {e : ℤ} {amounts : List ℚ} (start : ℕ)
    (hmultiples : ∀ a ∈ amounts, ∃ n : ℕ, a = n * 10 ^ e)
    (hfits : start * 10 ^ e + amounts.sum < (10 : ℚ) ^ (digits + e : ℤ)) :
    amounts.foldl (add digits) (start * 10 ^ e) = start * 10 ^ e + amounts.sum := by
  induction amounts generalizing start with
  | nil => simp
  | cons a amounts ih =>
      rw [List.forall_mem_cons] at hmultiples
      obtain ⟨⟨n, rfl⟩, hmultiples⟩ := hmultiples
      rw [List.sum_cons, ← add_assoc] at hfits ⊢
      have hstep : (start : ℚ) * 10 ^ e + n * 10 ^ e = (start + n : ℕ) * 10 ^ e := by
        push_cast
        ring
      have hrest : 0 ≤ amounts.sum := by
        refine List.sum_nonneg fun a ha => ?_
        obtain ⟨m, rfl⟩ := hmultiples a ha
        exact mul_nonneg m.cast_nonneg (zpow_nonneg (by norm_num) e)
      rw [hstep] at hfits ⊢
      rw [List.foldl_cons, add, hstep, decimal_of_fits (by linarith)]
      exact ih (start + n) hmultiples hfits

/-- Where it is exact, the running sum is the sum. -/
theorem total_of_exact {amounts : List ℚ} (h : Exact digits amounts) :
    total digits amounts = amounts.sum := by
  obtain ⟨e, hmultiples, hfits⟩ := h
  have hsum := foldl_add_of_exact 0 hmultiples (by simpa using hfits)
  simpa [total] using hsum

/-- Some of the numbers fit if all of them do. -/
theorem Exact.sublist {amounts some : List ℚ} (h : Exact digits amounts)
    (hsublist : some.Sublist amounts) : Exact digits some := by
  obtain ⟨e, hmultiples, hfits⟩ := h
  refine ⟨e, fun a ha => hmultiples a (hsublist.subset ha), lt_of_le_of_lt ?_ hfits⟩
  refine hsublist.sum_le_sum fun a ha => ?_
  obtain ⟨n, rfl⟩ := hmultiples a ha
  exact mul_nonneg n.cast_nonneg (zpow_nonneg (by norm_num) e)

end Pollard.Lib.DecimalContext
