import Pollard.Lib.PlainNotation
import Pollard.Lib.Scientific
import Mathlib.Tactic.Linarith

/-!
# Ledger amounts in the npm package

An amount is kept as its decimal text.  Texts are added and compared through integers over a
common power of ten, and no digit is lost.
-/

namespace Pollard.Npm.Amounts

open Lib
open Lib.Scientific (Numeral Sign Finite AllDigits)

/-! ## The code -/

/-- The match of `^([+-]?)(\d+)(?:\.(\d*))?(?:[eE]([+-]?\d+))?$`: a numeral with a digit before the
point. -/
def matchDecimal (value : String) : Option Numeral :=
  (Numeral.parse value.toList).filter fun n => n.front.whole ≠ []

/-- `decimal`: the coefficient and the scale -/
def decimal (value : String) : Except String (ℤ × ℕ) :=
  match matchDecimal value with
  | none => .error "invalid persisted decimal amount"
  | some n =>
      let scale : ℤ := n.front.places - n.shift
      if 10000 < scale.natAbs then .error "decimal exponent is out of range"
      else
        let coefficient := n.coefficient
        let coefficient := if scale < 0 then coefficient * 10 ^ (-scale).toNat else coefficient
        .ok (coefficient, (max 0 scale).toNat)

/-- `padStart` with zeros -/
def padStart (digits : List Char) (length : ℕ) : List Char :=
  List.replicate (length - digits.length) '0' ++ digits

/-- `decimalAdd` -/
def decimalAdd (a b : String) (subtract : Bool) : Except String String :=
  (decimal a).bind fun (aa, as) =>
    (decimal b).bind fun (bb, bs) =>
      let scale := max as bs
      let sum := aa * 10 ^ (scale - as) + (if subtract then -1 else 1) * bb * 10 ^ (scale - bs)
      let sign := if sum < 0 then ['-'] else []
      let digits := padStart (Nat.toDigits 10 sum.natAbs) (scale + 1)
      .ok (String.ofList (
        if scale = 0 then sign ++ digits
        else sign ++ digits.take (digits.length - scale) ++ '.' ::
          digits.drop (digits.length - scale)))

/-- `decimalCompare` -/
def decimalCompare (a b : String) : Except String ℤ :=
  (decimalAdd a b true).bind fun text =>
    (decimal text).bind fun (difference, _) =>
      .ok (if difference < 0 then -1 else if 0 < difference then 1 else 0)

example : decimalAdd "0.1" "2e-1" false = .ok "0.3" := by rfl

/-! ## What a text is of -/

/-- A text that is accepted, and its number. -/
structure Spells (text : String) (q : ℚ) : Prop where
  accepted : ∃ parts, decimal text = .ok parts
  value : ∃ n : Numeral, n.text = text.toList ∧ n.value = q

theorem matchDecimal_eq_some_iff {text : String} {n : Numeral} :
    matchDecimal text = some n ↔ n.text = text.toList ∧ n.front.whole ≠ [] := by
  rw [matchDecimal, Option.filter_eq_some_iff, Numeral.parse_eq_some_iff, decide_eq_true_eq]

/-- The integer and the power of ten that a numeral becomes. -/
theorem scaled_value (coefficient exponent : ℤ) :
    ((if -exponent < 0 then coefficient * 10 ^ (- -exponent).toNat else coefficient : ℤ) : ℚ) /
        10 ^ (max 0 (-exponent)).toNat = coefficient * 10 ^ exponent := by
  obtain ⟨k, rfl | rfl⟩ := Int.eq_nat_or_neg exponent
  · have hplaces : (max 0 (-(k : ℤ))).toNat = 0 := by omega
    rw [hplaces, pow_zero, div_one, neg_neg, zpow_natCast, Int.toNat_natCast]
    rcases Nat.eq_zero_or_pos k with rfl | hpos
    · rw [if_neg (by omega), pow_zero, mul_one]
    · rw [if_pos (by omega)]
      push_cast
      rfl
  · have hplaces : (max 0 (- -(k : ℤ))).toNat = k := by omega
    rw [hplaces, if_neg (by omega), zpow_neg, zpow_natCast, div_eq_mul_inv]

theorem decimal_of_numeral {text : String} {n : Numeral} (htext : n.text = text.toList)
    (hwhole : n.front.whole ≠ []) (hexponent : n.exponent.natAbs ≤ 10000) :
    ∃ (coefficient : ℤ) (scale : ℕ), decimal text = .ok (coefficient, scale) ∧
      (coefficient : ℚ) / 10 ^ scale = n.value ∧ scale ≤ 10000 := by
  have hscale : (n.front.places : ℤ) - n.shift = -n.exponent := (neg_sub _ _).symm
  refine ⟨_, _, ?_, scaled_value n.coefficient n.exponent, by omega⟩
  rw [decimal, matchDecimal_eq_some_iff.mpr ⟨htext, hwhole⟩]
  dsimp only
  rw [hscale, if_neg (by omega)]

/-- What is accepted: the numerals with a digit before the point and an exponent in range. -/
theorem exists_of_decimal {text : String} {parts : ℤ × ℕ} (h : decimal text = .ok parts) :
    ∃ n : Numeral, n.text = text.toList ∧ n.front.whole ≠ [] ∧ n.exponent.natAbs ≤ 10000 := by
  rw [decimal] at h
  cases hmatch : matchDecimal text with
  | none =>
      rw [hmatch] at h
      cases h
  | some n =>
      rw [hmatch] at h
      dsimp only at h
      obtain ⟨htext, hwhole⟩ := matchDecimal_eq_some_iff.mp hmatch
      refine ⟨n, htext, hwhole, ?_⟩
      by_contra hlarge
      rw [if_pos (by rw [Numeral.exponent] at hlarge; omega)] at h
      cases h

theorem Spells.of_numeral {text : String} {n : Numeral} (htext : n.text = text.toList)
    (hwhole : n.front.whole ≠ []) (hexponent : n.exponent.natAbs ≤ 10000) :
    Spells text n.value where
  accepted := by
    obtain ⟨coefficient, scale, hdecimal, -⟩ := decimal_of_numeral htext hwhole hexponent
    exact ⟨_, hdecimal⟩
  value := ⟨n, htext, rfl⟩

theorem Spells.decimal {text : String} {q : ℚ} (h : Spells text q) :
    ∃ (coefficient : ℤ) (scale : ℕ), decimal text = .ok (coefficient, scale) ∧
      (coefficient : ℚ) / 10 ^ scale = q ∧ scale ≤ 10000 := by
  obtain ⟨parts, hparts⟩ := h.accepted
  obtain ⟨n, htext, rfl⟩ := h.value
  obtain ⟨m, hm, hwhole, hexponent⟩ := exists_of_decimal hparts
  obtain rfl := Numeral.eq_of_text_eq (hm.trans htext.symm)
  exact decimal_of_numeral htext hwhole hexponent

/-! ## What is written -/

/-- A number of at most ten thousand places is written so that it is accepted. -/
theorem spells_write (c : ℤ) {places : ℕ} (h : places ≤ 10000) :
    Spells (String.ofList (PlainNotation.write (decide (c < 0)) c.natAbs places))
      ((c : ℚ) / 10 ^ places) := by
  obtain ⟨whole, fraction, hwrite, hwhole, hfraction, hne, hlength, hnumber⟩ :=
    PlainNotation.exists_digits c.natAbs places
  obtain ⟨behind, hbehind, htext⟩ : ∃ behind : Option (List Char), behind.getD [] = fraction ∧
      behind.elim [] ('.' :: ·) = if places = 0 then [] else '.' :: fraction := by
    by_cases hplaces : places = 0
    · rw [if_pos hplaces]
      exact ⟨none, (List.length_eq_zero_iff.mp (hlength.trans hplaces)).symm, rfl⟩
    · rw [if_neg hplaces]
      exact ⟨some fraction, rfl, rfl⟩
  let n : Numeral :=
    { sign := if c < 0 then .minus else .none
      front := ⟨whole, behind, by rw [hbehind]; exact AllDigits.append hwhole hfraction⟩
      power := none
      digits_ne := List.append_ne_nil_of_left_ne_nil hne _ }
  have hexponent : n.exponent = -places := by
    have hplaces : n.front.places = places := (congrArg List.length hbehind).trans hlength
    rw [Numeral.exponent, hplaces]
    exact zero_sub (places : ℤ)
  have hcoefficient : n.coefficient = c := by
    have hdigits : Scientific.number n.front.digits = c.natAbs := by
      rw [← hnumber, ← hbehind]
      rfl
    rw [Numeral.coefficient, hdigits]
    by_cases hneg : c < 0
    · have hsign : n.sign = .minus := if_pos hneg
      rw [hsign]
      show -(c.natAbs : ℤ) = c
      omega
    · have hsign : n.sign = .none := if_neg hneg
      rw [hsign]
      show (c.natAbs : ℤ) = c
      omega
  have hvalue : n.value = (c : ℚ) / 10 ^ places := by
    rw [Numeral.value, hcoefficient, hexponent, zpow_neg, zpow_natCast, div_eq_mul_inv]
  rw [← hvalue]
  refine Spells.of_numeral ?_ hne (by rw [hexponent]; omega)
  have hsign : n.sign.text = if decide (c < 0) = true then ['-'] else [] := by
    by_cases hneg : c < 0
    · rw [decide_eq_true hneg]
      exact congrArg Sign.text (if_pos hneg)
    · rw [decide_eq_false hneg]
      exact congrArg Sign.text (if_neg hneg)
  rw [String.toList_ofList, hwrite, ← htext, Numeral.text, hsign, List.append_assoc,
    List.append_assoc]
  exact congrArg _ (List.append_nil _)

/-! ## Sums, differences and the order -/

/-- The sum over the common power of ten. -/
def alignedSum (aa bb : ℤ) (as bs : ℕ) (subtract : Bool) : ℤ :=
  aa * 10 ^ (max as bs - as) + (if subtract then -1 else 1) * bb * 10 ^ (max as bs - bs)

theorem decimalAdd_eq {a b : String} {aa bb : ℤ} {as bs : ℕ} (ha : decimal a = .ok (aa, as))
    (hb : decimal b = .ok (bb, bs)) (subtract : Bool) :
    decimalAdd a b subtract = .ok (String.ofList (PlainNotation.write
      (decide (alignedSum aa bb as bs subtract < 0)) (alignedSum aa bb as bs subtract).natAbs
      (max as bs))) := by
  rw [decimalAdd, ha, hb]
  dsimp only [Except.bind]
  rw [← alignedSum, PlainNotation.write]
  simp only [decide_eq_true_eq]
  by_cases hscale : max as bs = 0
  · rw [if_pos hscale, if_pos hscale, hscale, Nat.sub_zero, List.take_length, List.append_nil]
    rfl
  · rw [if_neg hscale, if_neg hscale]
    rfl

theorem aligned_value (c : ℤ) {s scale : ℕ} (h : s ≤ scale) :
    ((c * 10 ^ (scale - s) : ℤ) : ℚ) / 10 ^ scale = c / 10 ^ s := by
  rw [div_eq_div_iff (by positivity) (by positivity)]
  push_cast
  rw [mul_assoc, ← pow_add, Nat.sub_add_cancel h]

theorem decimalAdd_spells {a b : String} {p q : ℚ} (ha : Spells a p) (hb : Spells b q)
    (subtract : Bool) : ∃ text, decimalAdd a b subtract = .ok text ∧
      Spells text (p + (if subtract then -1 else 1) * q) := by
  obtain ⟨aa, as, hleft, rfl, has⟩ := ha.decimal
  obtain ⟨bb, bs, hright, rfl, hbs⟩ := hb.decimal
  have hsum : (alignedSum aa bb as bs subtract : ℚ) / 10 ^ max as bs =
      aa / 10 ^ as + (if subtract then -1 else 1) * (bb / 10 ^ bs) := by
    rw [alignedSum, Int.cast_add, add_div, aligned_value aa (Nat.le_max_left as bs),
      aligned_value _ (Nat.le_max_right as bs)]
    rw [mul_div_assoc']
    cases subtract <;> push_cast <;> rfl
  rw [← hsum]
  exact ⟨_, decimalAdd_eq hleft hright subtract, spells_write _ (Nat.max_le.mpr ⟨has, hbs⟩)⟩

theorem decimalCompare_eq {a b : String} {p q : ℚ} (ha : Spells a p) (hb : Spells b q) :
    decimalCompare a b = .ok (if p < q then -1 else if q < p then 1 else 0) := by
  obtain ⟨text, hadd, hspells⟩ := decimalAdd_spells ha hb true
  obtain ⟨difference, scale, hdecimal, hvalue, -⟩ := hspells.decimal
  have hpow : (0 : ℚ) < 10 ^ scale := by positivity
  have hdifference : (difference : ℚ) = (p - q) * 10 ^ scale := by
    rw [div_eq_iff hpow.ne'] at hvalue
    rw [hvalue]
    simp [sub_eq_add_neg]
  have hless : difference < 0 ↔ p < q := by
    rw [← @Int.cast_lt_zero ℚ, hdifference, ← neg_pos, ← neg_mul, mul_pos_iff_of_pos_right hpow,
      neg_sub, sub_pos]
  have hgreater : 0 < difference ↔ q < p := by
    rw [← @Int.cast_pos ℚ, hdifference, mul_pos_iff_of_pos_right hpow, sub_pos]
  rw [decimalCompare, hadd]
  dsimp only [Except.bind]
  rw [hdecimal]
  dsimp only
  simp only [hless, hgreater]

theorem spells_str (d : Finite) (h : d.exponent.natAbs ≤ 10000) :
    Spells (String.ofList d.str) d.value := by
  have hpos := d.length_pos
  have hwhole : d.numeral.front.whole ≠ [] := by
    change d.front.whole ≠ []
    rw [Finite.front]
    split
    · exact List.cons_ne_nil _ _
    split
    · exact d.digits_ne
    · refine List.ne_nil_of_length_pos ?_
      rw [List.length_take]
      omega
  rw [← d.value_numeral]
  exact Spells.of_numeral (by rw [String.toList_ofList, Finite.text_numeral]) hwhole
    (by rwa [Finite.exponent_numeral])

theorem exists_spells {text : String} {parts : ℤ × ℕ} (h : decimal text = .ok parts) :
    ∃ n : Numeral, n.text = text.toList ∧ Spells text n.value := by
  obtain ⟨n, htext, -, -⟩ := exists_of_decimal h
  exact ⟨n, htext, ⟨parts, h⟩, n, htext, rfl⟩

/-- Sums and differences of accepted texts are accepted texts of the sums and differences, the
order is that of the numbers, and what Python prints is accepted. -/
theorem ledger_arithmetic_exact {a b : String} {left right : ℤ × ℕ} (ha : decimal a = .ok left)
    (hb : decimal b = .ok right) :
    (∃ m n : Numeral, m.text = a.toList ∧ n.text = b.toList ∧
      (∃ sum, decimalAdd a b false = .ok sum ∧ Spells sum (m.value + n.value)) ∧
      (∃ difference, decimalAdd a b true = .ok difference ∧
        Spells difference (m.value - n.value)) ∧
      decimalCompare a b =
        .ok (if m.value < n.value then -1 else if n.value < m.value then 1 else 0)) ∧
      ∀ d : Finite, d.exponent.natAbs ≤ 10000 → Spells (String.ofList d.str) d.value := by
  obtain ⟨m, hm, hleft⟩ := exists_spells ha
  obtain ⟨n, hn, hright⟩ := exists_spells hb
  obtain ⟨sum, hsum, hsumSpells⟩ := decimalAdd_spells hleft hright false
  obtain ⟨difference, hdifference, hdifferenceSpells⟩ := decimalAdd_spells hleft hright true
  refine ⟨⟨m, n, hm, hn, ⟨sum, hsum, ?_⟩, ⟨difference, hdifference, ?_⟩,
    decimalCompare_eq hleft hright⟩, spells_str⟩
  · simpa using hsumSpells
  · simpa [sub_eq_add_neg] using hdifferenceSpells

theorem ledger_arithmetic_exact_scaled :
    (∃ m n : Numeral, m.text = "0.10".toList ∧ n.text = "-2.5E+3".toList ∧
      (∃ sum, decimalAdd "0.10" "-2.5E+3" false = .ok sum ∧ Spells sum (m.value + n.value)) ∧
      (∃ difference, decimalAdd "0.10" "-2.5E+3" true = .ok difference ∧
        Spells difference (m.value - n.value)) ∧
      decimalCompare "0.10" "-2.5E+3" =
        .ok (if m.value < n.value then -1 else if n.value < m.value then 1 else 0)) ∧
      ∀ d : Finite, d.exponent.natAbs ≤ 10000 → Spells (String.ofList d.str) d.value :=
  ledger_arithmetic_exact (show decimal _ = .ok (10, 2) by rfl)
    (show decimal _ = .ok (-2500, 0) by rfl)

end Pollard.Npm.Amounts
