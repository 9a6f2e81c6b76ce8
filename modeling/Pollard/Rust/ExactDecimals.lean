import Pollard.Rust.Decimals

/-!
# Exact or refused

`i128` and the digit by digit arithmetic end in the same search for a form that fits: zeros
come off the end while the coefficient or the scale is too large.  What that search finds is
the number itself, and it finds nothing only if the format has no form of the number.
-/

namespace Pollard.Rust.Exact

open Lib

section Signs

theorem natAbs_signed (negative : Bool) (n : ℕ) : (signed negative n).natAbs = n := by
  cases negative <;> simp [signed]

theorem signed_neg (negative : Bool) (n : ℕ) : signed (!negative) n = -signed negative n := by
  cases negative <;> simp [signed]

theorem signed_mul (a b : Bool) (m n : ℕ) :
    signed (decide (a ≠ b)) (m * n) = signed a m * signed b n := by
  cases a <;> cases b <;> simp [signed]

theorem signed_mul_natCast (negative : Bool) (m n : ℕ) :
    signed negative (m * n) = signed negative m * n := by
  cases negative <;> simp [signed]

theorem signed_natAbs (c : ℤ) : signed (decide (c < 0)) c.natAbs = c := by
  unfold signed
  by_cases hneg : c < 0
  · rw [decide_eq_true hneg, if_pos rfl]
    omega
  · rw [decide_eq_false hneg, if_neg Bool.false_ne_true]
    omega

end Signs

/-! ## Forms of a number -/

/-- A result that is the number, or none as the number has no form. -/
structure IsExact (result : Option Decimal) (q : ℚ) : Prop where
  isSome_iff : result.isSome = true ↔ Representable q
  value_eq : ∀ d ∈ result, d.value = q

theorem IsExact.ofSome {result : Option Decimal} {q : ℚ} {d : Decimal} (h : result = some d)
    (hvalue : d.value = q) : IsExact result q where
  isSome_iff := by
    rw [h]
    exact ⟨fun _ => ⟨d, hvalue⟩, fun _ => rfl⟩
  value_eq := by
    rw [h]
    rintro e ⟨⟩
    exact hvalue

theorem IsExact.ofNone {result : Option Decimal} {q : ℚ} (h : result = none)
    (hnone : ¬ Representable q) : IsExact result q where
  isSome_iff := by
    rw [h]
    exact ⟨fun hsome => absurd hsome Bool.false_ne_true, fun hq => absurd hq hnone⟩
  value_eq := by
    rw [h]
    rintro e ⟨⟩

theorem div_pow_eq_iff (a b : ℤ) (s t : ℕ) :
    (a : ℚ) / 10 ^ s = b / 10 ^ t ↔ a * 10 ^ t = b * 10 ^ s := by
  rw [div_eq_div_iff (by positivity) (by positivity)]
  exact_mod_cast Iff.rfl

/-- The number has a form of the format if it has one with its own sign. -/
theorem representable_iff (c : ℤ) (s : ℕ) :
    Representable ((c : ℚ) / 10 ^ s) ↔
      ∃ c' s', c' ≤ maxCoefficient ∧ s' ≤ maxScale ∧ c' * 10 ^ s = c.natAbs * 10 ^ s' := by
  constructor
  · rintro ⟨d, hd⟩
    rw [Decimal.value, div_pow_eq_iff] at hd
    refine ⟨d.coefficient, d.scale, d.coefficient_le, d.scale_le, ?_⟩
    have habs := congrArg Int.natAbs hd
    rw [Int.natAbs_mul, Int.natAbs_mul, Int.natAbs_pow, Int.natAbs_pow, Decimal.mantissa,
      natAbs_signed] at habs
    exact habs
  · rintro ⟨c', s', hc', hs', heq⟩
    refine ⟨⟨decide (c < 0), c', s', hc', hs'⟩, ?_⟩
    rw [Decimal.value, div_pow_eq_iff, Decimal.mantissa]
    calc signed (decide (c < 0)) c' * 10 ^ s
        = signed (decide (c < 0)) (c' * 10 ^ s) := by rw [signed_mul_natCast]; push_cast; rfl
      _ = signed (decide (c < 0)) c.natAbs * 10 ^ s' := by
          rw [heq, signed_mul_natCast]; push_cast; rfl
      _ = c * 10 ^ s' := by rw [signed_natAbs]

/-! ## From a coefficient of `i128` -/

theorem tmod_ten_eq_zero_iff (c : ℤ) : c.tmod 10 = 0 ↔ c.natAbs % 10 = 0 := by
  rw [← Int.dvd_iff_tmod_eq_zero, ← Nat.dvd_iff_mod_eq_zero, ← Int.natAbs_dvd_natAbs]
  rfl

theorem shrinkCoefficient_eq (c : ℤ) (s : ℕ) :
    (shrinkCoefficient c s).1.natAbs = (Digits.shrink 10 maxCoefficient maxScale c.natAbs s).1 ∧
      (shrinkCoefficient c s).2 = (Digits.shrink 10 maxCoefficient maxScale c.natAbs s).2 ∧
      (shrinkCoefficient c s).1 * 10 ^ s = c * 10 ^ (shrinkCoefficient c s).2 := by
  induction s generalizing c with
  | zero => exact ⟨rfl, rfl, rfl⟩
  | succ s ih =>
      rw [shrinkCoefficient, Digits.shrink]
      by_cases hshrinks : (maxCoefficient < c.natAbs ∨ maxScale < s + 1) ∧ c.tmod 10 = 0
      · rw [if_pos hshrinks, if_pos ⟨hshrinks.1, (tmod_ten_eq_zero_iff c).mp hshrinks.2⟩]
        obtain ⟨habs, hscale, hvalue⟩ := ih (c.tdiv 10)
        rw [Int.natAbs_tdiv] at habs hscale
        refine ⟨habs, hscale, ?_⟩
        have hdvd : c.tdiv 10 * 10 = c := Int.tdiv_mul_cancel (Int.dvd_of_tmod_eq_zero hshrinks.2)
        calc (shrinkCoefficient (c.tdiv 10) s).1 * 10 ^ (s + 1)
            = (shrinkCoefficient (c.tdiv 10) s).1 * 10 ^ s * 10 := by ring
          _ = c.tdiv 10 * 10 * 10 ^ (shrinkCoefficient (c.tdiv 10) s).2 := by rw [hvalue]; ring
          _ = c * 10 ^ (shrinkCoefficient (c.tdiv 10) s).2 := by rw [hdvd]
      · rw [if_neg hshrinks, if_neg (by rwa [← tmod_ten_eq_zero_iff])]
        exact ⟨rfl, rfl, rfl⟩

section Library

variable {lib : Library}

theorem fromCoefficient_isExact (hlib : lib.Correct) (c : ℤ) (s : ℕ) :
    IsExact (fromCoefficient lib c s) (c / 10 ^ s) := by
  obtain ⟨habs, hscale, hvalue⟩ := shrinkCoefficient_eq c s
  have hbuilt := hlib.tryFromI128WithScale (shrinkCoefficient c s).1 (shrinkCoefficient c s).2
  have hfits := Digits.shrink_fits_iff (by norm_num : 1 < 10) maxCoefficient maxScale c.natAbs s
  rw [← habs, ← hscale, ← representable_iff] at hfits
  by_cases hin : (shrinkCoefficient c s).1.natAbs ≤ maxCoefficient ∧
      (shrinkCoefficient c s).2 ≤ maxScale
  · rw [if_pos hin] at hbuilt
    obtain ⟨d, hd, hdvalue⟩ := hbuilt
    refine .ofSome hd ?_
    rw [hdvalue, div_pow_eq_iff, hvalue]
  · rw [if_neg hin] at hbuilt
    exact .ofNone hbuilt (hfits.not.mp hin)

end Library

end Pollard.Rust.Exact
