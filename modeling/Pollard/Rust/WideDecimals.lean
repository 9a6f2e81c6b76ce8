import Pollard.Lib.PlainNotation
import Pollard.Rust.DecimalTexts
import Mathlib.Tactic.Positivity

/-!
# Sums, differences and costs

Digit by digit no operation loses a digit, so that the number of a `Wide` is the exact one, and
only the last step, back to a decimal, can refuse.
-/

namespace Pollard.Rust.Exact

open Lib

namespace Wide

/-- The number without its scale. -/
def coefficient (w : Wide) : ℤ := signed w.negative (Nat.ofDigits 10 w.digits)

def value (w : Wide) : ℚ := w.coefficient / 10 ^ w.scale

/-- What the operations keep of the digits. -/
structure Valid (w : Wide) : Prop where
  digits_ne : w.digits ≠ []
  proper : Digits.Proper 10 w.digits

theorem digit_ofChar {n : ℕ} (h : n < 10) : (Char.ofNat (48 + n)).isDigit = true ∧
    cell (Char.ofNat (48 + n)) = n := by
  interval_cases n <;> exact ⟨rfl, rfl⟩

/-! ## Reading the text back -/

/-- The digits as the text has them. -/
def digitText (w : Wide) : List Char := w.digits.reverse.map fun n => Char.ofNat (48 + n)

theorem digitText_isDigit {w : Wide} (h : w.Valid) : ∀ c ∈ w.digitText, c.isDigit = true := by
  intro c hc
  obtain ⟨n, hn, rfl⟩ := List.mem_map.mp hc
  exact (digit_ofChar (h.proper n (List.mem_reverse.mp hn))).1

theorem number_digitText {w : Wide} (h : w.Valid) :
    number w.digitText = Nat.ofDigits 10 w.digits := by
  have hcells : w.digitText.map cell = w.digits.reverse := by
    rw [digitText, List.map_map]
    conv_rhs => rw [← List.map_id w.digits.reverse]
    refine List.map_congr_left fun n hn => ?_
    exact (digit_ofChar (h.proper n (List.mem_reverse.mp hn))).2
  rw [number_eq_ofDigits, hcells, List.reverse_reverse]

theorem digitText_ne_nil {w : Wide} (h : w.Valid) : w.digitText ≠ [] := by
  rw [digitText, Ne, List.map_eq_nil_iff, List.reverse_eq_nil_iff]
  exact h.digits_ne

end Wide

theorem readDigits_eq {ds : List Char} (h : ∀ c ∈ ds, c.isDigit = true) (front : List Char)
    (fractional : ℤ) : readDigits ds false front fractional = some (front ++ ds, fractional) := by
  induction ds generalizing front with
  | nil => rw [readDigits, List.append_nil]
  | cons c ds ih =>
      rw [readDigits, if_pos (h c List.mem_cons_self), if_neg Bool.false_ne_true,
        ih (fun x hx => h x (List.mem_cons_of_mem _ hx)), List.append_assoc]
      rfl

theorem number_toString (n : ℕ) : number (toString n).toList = n := by
  rw [number, Nat.toString_eq_ofList_toDigits, String.toList_ofList, Nat.ofDigitChars_ten_toDigits]

theorem toString_isDigit (n : ℕ) : ∀ c ∈ (toString n).toList, c.isDigit = true := by
  rw [Nat.toString_eq_ofList_toDigits, String.toList_ofList]
  exact fun c hc => Nat.isDigit_of_mem_toDigits (by decide) (by decide) hc

theorem toString_ne_nil (n : ℕ) : (toString n).toList ≠ [] := by
  rw [Nat.toString_eq_ofList_toDigits, String.toList_ofList]
  exact Nat.toDigits_ne_nil

/-- An exponent of an `i64` is read as it was written. -/
theorem parseI64_neg {n : ℕ} (h : n < 2 ^ 63) :
    parseI64 ('-' :: (toString n).toList) = some (-n : ℤ) := by
  have hall : (toString n).toList.all Char.isDigit = true :=
    List.all_eq_true.mpr (toString_isDigit n)
  rw [parseI64]
  simp only [List.head?_cons, List.tail_cons, true_or, if_true, hall, toString_ne_nil,
    Bool.true_eq_false, or_false, if_false, number_toString]
  rw [checkedI64, if_pos (by constructor <;> omega)]

section Library

variable {lib : Library}

/-- Where the text is in scientific notation, what is in front of the mark and behind it is
read apart. -/
theorem parseDecimalExact_scientific (negative : Bool) {ds : List Char} {scale : ℕ}
    (hdigits : ∀ c ∈ ds, c.isDigit = true) (hne : ds ≠ []) (hscale : scale < 2 ^ 63) :
    parseDecimalExact lib (String.ofList ((if negative then ['-'] else []) ++ ds ++
      "e-".toList ++ (toString scale).toList)) = finishParse lib negative ds scale := by
  obtain ⟨front, hfront⟩ : ∃ front, front = (if negative then ['-'] else []) ++ ds := ⟨_, rfl⟩
  have htext : front ++ "e-".toList ++ (toString scale).toList =
      front ++ 'e' :: '-' :: (toString scale).toList := by
    rw [List.append_assoc]
    rfl
  have hmarked : ∀ c ∈ front, (decide (¬ (c = 'e' || c = 'E') = true)) = true := by
    intro c hc
    have hor : c = '-' ∨ c.isDigit = true := by
      rw [hfront] at hc
      rcases List.mem_append.mp hc with hc | hc
      · cases negative with
        | true => exact .inl (List.mem_singleton.mp hc)
        | false => cases hc
      · exact .inr (hdigits c hc)
    rcases hor with rfl | hdigit
    · decide
    · have he := PlainNotation.ne_of_isDigit hdigit (by decide : 'e'.isDigit = false)
      have hE := PlainNotation.ne_of_isDigit hdigit (by decide : 'E'.isDigit = false)
      simp [he, hE]
  have hany : (front ++ 'e' :: '-' :: (toString scale).toList).any
      (fun c => c = 'e' || c = 'E') = true := by
    rw [List.any_append, List.any_cons]
    simp
  rw [← hfront, htext, parseDecimalExact]
  dsimp only
  rw [String.toList_ofList, List.takeWhile_append_of_pos hmarked,
    List.dropWhile_append_of_pos hmarked, hany, if_pos rfl, if_pos rfl]
  have htake : ('e' :: '-' :: (toString scale).toList).takeWhile
      (fun c => decide (¬ (c = 'e' || c = 'E') = true)) = [] := rfl
  have hdrop : (('e' :: '-' :: (toString scale).toList).dropWhile
      (fun c => decide (¬ (c = 'e' || c = 'E') = true))).drop 1 =
        '-' :: (toString scale).toList := rfl
  rw [htake, hdrop, parseI64_neg hscale, List.append_nil]
  dsimp only
  have hhead : ds.head? ≠ some '-' ∧ ds.head? ≠ some '+' := by
    cases ds with
    | nil => exact absurd rfl hne
    | cons c ds =>
        have hdigit := hdigits c List.mem_cons_self
        rw [List.head?_cons, ne_eq, Option.some.injEq, ne_eq, Option.some.injEq]
        exact ⟨PlainNotation.ne_of_isDigit hdigit rfl, PlainNotation.ne_of_isDigit hdigit rfl⟩
  have hsign : decide (front.head? = some '-') = negative := by
    rw [hfront]
    cases negative with
    | true => rfl
    | false => exact decide_eq_false hhead.1
  have hunsigned : (if front.head? = some '-' ∨ front.head? = some '+' then front.tail
      else front) = ds := by
    rw [hfront]
    cases negative with
    | true => rfl
    | false => exact if_neg (not_or.mpr hhead)
  have hscaled : checkedI64 (0 - -(scale : ℤ)) = some (scale : ℤ) := by
    rw [checkedI64, if_pos (by constructor <;> omega)]
    congr 1
    ring
  rw [hunsigned, readDigits_eq hdigits, List.nil_append]
  dsimp only
  rw [if_neg hne, hscaled, hsign]

namespace Wide

theorem finish_isExact (hlib : lib.Correct) {w : Wide} (h : w.Valid) (hscale : w.scale < 2 ^ 63) :
    IsExact (w.finish lib) w.value := by
  rw [finish, text, ← digitText, parseDecimalExact_scientific w.negative (digitText_isDigit h)
    (digitText_ne_nil h) hscale, value, coefficient, ← number_digitText h]
  exact finishParse_isExact hlib w.negative (digitText_isDigit h) w.scale

end Wide

end Library

/-! ## The operations -/

namespace Wide

theorem coefficient_ofDecimal (d : Decimal) : (ofDecimal d).coefficient = d.mantissa := by
  have hdigits : (ofDecimal d).digits = ((toString d.coefficient).toList.map cell).reverse :=
    List.map_reverse
  rw [coefficient, hdigits, ← number_eq_ofDigits, number_toString]
  rfl

theorem value_ofDecimal (d : Decimal) : (ofDecimal d).value = d.value := by
  rw [value, coefficient_ofDecimal]
  rfl

theorem valid_ofDecimal (d : Decimal) : (ofDecimal d).Valid := by
  have hdigits : (ofDecimal d).digits = ((toString d.coefficient).toList.map cell).reverse :=
    List.map_reverse
  constructor
  · rw [hdigits, Ne, List.reverse_eq_nil_iff, List.map_eq_nil_iff]
    exact toString_ne_nil _
  · rw [hdigits]
    intro n hn
    exact proper_cells (toString_isDigit _) n (List.mem_reverse.mp hn)

theorem coefficient_trim (w : Wide) : w.trim.coefficient = w.coefficient := by
  have hvalue := Digits.value_trim 10 w.digits
  rw [coefficient, trim]
  dsimp only
  split
  · next hzero =>
      rw [hzero, Nat.ofDigits_singleton] at hvalue
      rw [hzero, coefficient, ← hvalue]
      cases w.negative <;> rfl
  · rw [hvalue]
    rfl

theorem valid_trim {w : Wide} (h : w.Valid) : w.trim.Valid :=
  ⟨Digits.trim_ne_nil h.digits_ne, Digits.proper_trim h.proper⟩

theorem coefficient_align (w : Wide) (scale : ℕ) :
    (w.align scale).coefficient = w.coefficient * 10 ^ (scale - w.scale) := by
  rw [align]
  split
  · rw [coefficient, coefficient, Nat.ofDigits_append, Nat.ofDigits_replicate_zero,
      List.length_replicate, Nat.zero_add, Nat.mul_comm, signed_mul_natCast]
    push_cast
    rfl
  · next hle => rw [Nat.sub_eq_zero_of_le (not_lt.mp hle), pow_zero, mul_one]

theorem scale_align {w : Wide} {scale : ℕ} (h : w.scale ≤ scale) : (w.align scale).scale = scale := by
  rw [align]
  split
  · rfl
  · omega

theorem valid_align {w : Wide} (h : w.Valid) (scale : ℕ) : (w.align scale).Valid := by
  rw [align]
  split
  · refine ⟨by simp [h.digits_ne], fun d hd => ?_⟩
    rcases List.mem_append.mp hd with hd | hd
    · rw [List.eq_of_mem_replicate hd]
      norm_num
    · exact h.proper d hd
  · exact h

theorem value_aligned {w : Wide} {scale : ℕ} (h : w.scale ≤ scale) :
    (w.align scale).trim.value = w.value := by
  have htrim : (w.align scale).trim.scale = scale := scale_align h
  rw [value, value, coefficient_trim, htrim, coefficient_align, div_pow_eq_iff, mul_assoc,
    ← pow_add, Nat.sub_add_cancel h]

theorem signed_add (negative : Bool) (m n : ℕ) :
    signed negative (m + n) = signed negative m + signed negative n := by
  cases negative
  · simp [signed]
  · simp only [signed, if_true]
    omega

theorem signed_sub {a b : Bool} (hne : a ≠ b) {m n : ℕ} (hle : n ≤ m) :
    signed a (m - n) = signed a m + signed b n := by
  obtain rfl : b = !a := Bool.eq_not.mpr hne.symm
  rw [signed_neg]
  cases a <;> simp only [signed, if_true, Bool.false_eq_true, if_false] <;> omega

/-- The greater number gives the sign, and nothing is borrowed from it in the end. -/
theorem coefficient_sub {left right : Wide} (hl : left.Valid) (hr : right.Valid)
    (hne : left.negative ≠ right.negative)
    (hlength : right.digits.length ≤ left.digits.length)
    (hle : Nat.ofDigits 10 right.digits ≤ Nat.ofDigits 10 left.digits) :
    let digits := (Digits.subFrom 10 left.digits right.digits 0).1
    coefficient { left with digits } = left.coefficient + right.coefficient ∧
      Valid { left with digits } := by
  dsimp only
  refine ⟨?_, ?_, Digits.subFrom_proper (by norm_num) _ _ _⟩
  · rw [coefficient]
    dsimp only
    rw [Digits.value_sub (by norm_num) hl.proper hr.proper hlength hle]
    exact signed_sub hne hle
  · have hnil := hl.digits_ne
    dsimp only
    cases hdigits : left.digits with
    | nil => exact absurd hdigits hnil
    | cons d ds => exact List.cons_ne_nil _ _

theorem add_spec {left right : Wide} (hl : left.Valid) (hr : right.Valid) :
    (left.add right).value = left.value + right.value ∧ (left.add right).Valid ∧
      (left.add right).scale = max left.scale right.scale := by
  obtain ⟨scale, hscale⟩ : ∃ scale, scale = max left.scale right.scale := ⟨_, rfl⟩
  obtain ⟨l, hleft⟩ : ∃ l, l = (left.align scale).trim := ⟨_, rfl⟩
  obtain ⟨r, hright⟩ : ∃ r, r = (right.align scale).trim := ⟨_, rfl⟩
  have hlvalid : l.Valid := by rw [hleft]; exact valid_trim (valid_align hl _)
  have hrvalid : r.Valid := by rw [hright]; exact valid_trim (valid_align hr _)
  have hltrim : Digits.Trimmed l.digits := by rw [hleft]; exact Digits.trimmed_trim _
  have hrtrim : Digits.Trimmed r.digits := by rw [hright]; exact Digits.trimmed_trim _
  have hlscale : l.scale = scale := by rw [hleft]; exact scale_align (by omega)
  have hrscale : r.scale = scale := by rw [hright]; exact scale_align (by omega)
  have hlvalue : l.value = left.value := by rw [hleft]; exact value_aligned (by omega)
  have hrvalue : r.value = right.value := by rw [hright]; exact value_aligned (by omega)
  -- It is enough to add the aligned numbers.
  have hsum : ∀ w : Wide, w.coefficient = l.coefficient + r.coefficient → w.Valid →
      w.scale = scale → w.trim.value = left.value + right.value ∧ w.trim.Valid ∧
        w.trim.scale = scale := by
    intro w hw hvalid hwscale
    refine ⟨?_, valid_trim hvalid, hwscale⟩
    have htrim : w.trim.scale = scale := hwscale
    rw [value, coefficient_trim, hw, htrim, ← hlvalue, ← hrvalue, value, value, hlscale, hrscale]
    push_cast
    ring
  rw [add, ← hscale, ← hleft, ← hright]
  split
  · next hsame =>
      refine hsum _ ?_ ⟨Digits.add_ne_nil 10 hlvalid.digits_ne _,
        Digits.proper_add (by norm_num) hlvalid.proper hrvalid.proper⟩ hlscale
      rw [coefficient, Digits.value_add, signed_add, coefficient, coefficient, hsame]
  · next hne =>
      split
      · next hless =>
          obtain ⟨hvalue, hvalid⟩ := coefficient_sub hrvalid hlvalid (Ne.symm hne)
            (Digits.length_le_of_less hless)
            (Digits.value_le_of_less (by norm_num) hlvalid.proper hrvalid.proper hrtrim hless)
          exact hsum _ (by rw [hvalue, add_comm]) hvalid hrscale
      · next hless =>
          obtain ⟨hlength, hle⟩ := Digits.value_le_of_not_less (by norm_num) hlvalid.proper
            hrvalid.proper hltrim (Bool.not_eq_true _ ▸ hless)
          obtain ⟨hvalue, hvalid⟩ := coefficient_sub hlvalid hrvalid hne hlength hle
          exact hsum _ hvalue hvalid hlscale

theorem multiply_spec {left right : Wide} (hl : left.Valid) (hr : right.Valid) :
    (left.multiply right).value = left.value * right.value ∧ (left.multiply right).Valid := by
  constructor
  · have hscale : (left.multiply right).scale = left.scale + right.scale := rfl
    rw [value, multiply, coefficient_trim, ← multiply, hscale, coefficient, Digits.value_multiply,
      signed_mul, value, value, coefficient, coefficient, pow_add, div_mul_div_comm]
    push_cast
    rfl
  · exact valid_trim ⟨Digits.multiply_ne_nil 10 hl.digits_ne _,
      Digits.proper_multiply (by norm_num) hl.proper hr.proper⟩

end Wide

end Pollard.Rust.Exact
