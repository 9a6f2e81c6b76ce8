import Pollard.Json
import Pollard.Lib.PlainNotation
import Mathlib.Data.Nat.Factorization.Basic
import Mathlib.Data.Nat.Log

/-!
# The texts of limits and lengths

A limit as it is spelled, with its exponent, and `_decimal_text` of it; a length in seconds and
`str` of it.  Either text tells the number it is of.
-/

namespace Pollard

open Lib

/-! ## Numbers that end -/

/-- A number with finitely many decimal places. -/
def Terminates (q : ℚ) : Prop := ∃ k : ℕ, q.den ∣ 10 ^ k

theorem terminates_of_mul {q : ℚ} {m : ℤ} {d k : ℕ} (hq : q * d = m) (hd : d ∣ 10 ^ k)
    (hpos : 0 < d) : Terminates q := by
  refine ⟨k, dvd_trans ?_ hd⟩
  have hne : (d : ℚ) ≠ 0 := Nat.cast_ne_zero.mpr hpos.ne'
  have heq : q = Rat.divInt m d := by
    rw [Rat.divInt_eq_div, eq_div_iff (by exact_mod_cast hne), ← hq]
    norm_cast
  have hden := Rat.den_dvd m d
  rw [← heq] at hden
  exact_mod_cast hden

/-- A divisor of a power of ten divides one with at most as many zeros as it has bits. -/
theorem dvd_ten_pow_log {d k : ℕ} (hpos : 0 < d) (h : d ∣ 10 ^ k) : d ∣ 10 ^ Nat.log2 d := by
  rw [← Nat.factorization_le_iff_dvd hpos.ne' (by positivity)]
  intro p
  have hle := (Nat.factorization_le_iff_dvd hpos.ne' (by positivity)).mpr h p
  rw [Nat.factorization_pow, Finsupp.smul_apply, smul_eq_mul] at hle ⊢
  by_cases hp : p.Prime
  · by_cases hten : (10 : ℕ).factorization p = 0
    · rw [hten, mul_zero] at hle
      omega
    · have hpow : p ^ d.factorization p ≤ d := Nat.ordProj_le p hpos.ne'
      have htwo : 2 ^ d.factorization p ≤ p ^ d.factorization p :=
        Nat.pow_le_pow_left hp.two_le _
      have hlog : d.factorization p ≤ Nat.log2 d :=
        (Nat.le_log2 hpos.ne').mpr (htwo.trans hpow)
      exact hlog.trans (Nat.le_mul_of_pos_right _ (Nat.pos_of_ne_zero hten))
  · rw [Nat.factorization_eq_zero_of_not_prime _ hp]
    exact Nat.zero_le _

/-- The places `decimalText` writes are the fewest. -/
theorem exists_places {q : ℚ} (h : Terminates q) : ∃ places : ℕ, q.den ∣ 10 ^ places ∧
    (∀ k, q.den ∣ 10 ^ k → places ≤ k) ∧ (decimalText q).toList =
      PlainNotation.write (q < 0) (q * 10 ^ places).num.natAbs places := by
  obtain ⟨k, hk⟩ := h
  let test := fun k => decide (10 ^ k % q.den = 0)
  have hsome : ((List.range (q.den.log2 + 1)).find? test).isSome := by
    rw [List.find?_isSome]
    refine ⟨q.den.log2, List.mem_range.mpr (Nat.lt_succ_self _), ?_⟩
    exact decide_eq_true (Nat.mod_eq_zero_of_dvd (dvd_ten_pow_log q.den_pos hk))
  obtain ⟨places, hplaces⟩ := Option.isSome_iff_exists.mp hsome
  obtain ⟨htest, -, hleast⟩ := List.find?_range_eq_some.mp hplaces
  refine ⟨places, Nat.dvd_of_mod_eq_zero (of_decide_eq_true htest), fun k hk => ?_, ?_⟩
  · by_contra hlt
    have hnot := hleast k (not_le.mp hlt)
    rw [Bool.not_eq_true', decide_eq_false_iff_not] at hnot
    exact hnot (Nat.mod_eq_zero_of_dvd hk)
  have hfound : ((List.range (q.den.log2 + 1)).find? fun k => (10 ^ k) % q.den = 0).getD 0 =
      places := by
    rw [hplaces, Option.getD_some]
  unfold decimalText PlainNotation.write
  rw [hfound]
  have hrepr : ∀ n : ℕ, n.repr.length = (Nat.toDigits 10 n).length := fun n => by
    rw [← String.length_toList, Nat.toList_repr]
  by_cases hneg : q < 0 <;> by_cases hzero : places = 0 <;> simp [hneg, hzero, hrepr]

theorem read_decimalText {q : ℚ} (h : Terminates q) :
    PlainNotation.read (decimalText q).toList = q := by
  obtain ⟨places, hplaces, -, htext⟩ := exists_places h
  obtain ⟨m, hm⟩ := hplaces
  have hten : (10 : ℚ) ^ places ≠ 0 := by positivity
  -- The places make the number whole.
  have hwhole : q * 10 ^ places = ((q.num * m : ℤ) : ℚ) := by
    have hcast : (10 : ℚ) ^ places = q.den * m := by exact_mod_cast hm
    rw [hcast, ← mul_assoc, Rat.mul_den_eq_num]
    push_cast
    rfl
  have hnum : (q * 10 ^ places).num = q.num * m := by rw [hwhole, Rat.num_intCast]
  have habs : (((q.num * m : ℤ).natAbs : ℕ) : ℚ) = |q| * 10 ^ places := by
    rw [Nat.cast_natAbs, Int.cast_abs, ← hwhole, abs_mul, abs_of_pos (by positivity : (0 : ℚ) <
      10 ^ places)]
  rw [htext, PlainNotation.read_write, hnum, habs, mul_div_assoc, div_self hten, mul_one]
  by_cases hneg : q < 0
  · simp [hneg, abs_of_neg hneg]
  · simp [hneg, abs_of_nonneg (not_lt.mp hneg)]

/-! ## Lengths -/

/-- The number that a mantissa and an exponent read. -/
def readFloat (text : List Char) : ℚ :=
  let mantissa := PlainNotation.read (text.takeWhile fun c => c ≠ 'e')
  match (text.dropWhile fun c => c ≠ 'e').drop 1 with
  | '-' :: digits => mantissa * 10 ^ (-(Nat.ofDigitChars 10 digits 0 : ℤ))
  | '+' :: digits => mantissa * 10 ^ (Nat.ofDigitChars 10 digits 0 : ℤ)
  | _ => mantissa

theorem not_mem_write {c : Char} (hdigit : c.isDigit = false) (hsign : c ≠ '-')
    (hpoint : c ≠ '.') (negative : Bool) (n places : ℕ) :
    c ∉ PlainNotation.write negative n places := by
  obtain ⟨whole, fraction, hwrite, hwhole, hfraction, -⟩ :=
    PlainNotation.exists_digits n places
  rw [hwrite]
  intro hmem
  rcases List.mem_append.mp hmem with hmem | hmem
  · rcases List.mem_append.mp hmem with hmem | hmem
    · split at hmem
      · exact hsign (List.mem_singleton.mp hmem)
      · cases hmem
    · rw [hwhole c hmem] at hdigit
      cases hdigit
  · split at hmem
    · cases hmem
    · rcases List.mem_cons.mp hmem with heq | hmem
      · exact hpoint heq
      · rw [hfraction c hmem] at hdigit
        cases hdigit

theorem readFloat_of_not_mem {text : List Char} (h : 'e' ∉ text) :
    readFloat text = PlainNotation.read text := by
  have hall : ∀ c ∈ text, decide (c ≠ 'e') = true := fun c hc => by
    rw [decide_eq_true_eq]
    rintro rfl
    exact h hc
  rw [readFloat, List.takeWhile_eq_self_iff.mpr hall, List.dropWhile_eq_nil_iff.mpr hall]
  rfl

theorem readFloat_exponent {text : List Char} (h : 'e' ∉ text) (tail : List Char) :
    readFloat (text ++ 'e' :: tail) =
      match tail with
      | '-' :: digits => PlainNotation.read text * 10 ^ (-(Nat.ofDigitChars 10 digits 0 : ℤ))
      | '+' :: digits => PlainNotation.read text * 10 ^ (Nat.ofDigitChars 10 digits 0 : ℤ)
      | _ => PlainNotation.read text := by
  have hall : ∀ c ∈ text, decide (c ≠ 'e') = true := fun c hc => by
    rw [decide_eq_true_eq]
    rintro rfl
    exact h hc
  have htake : (text ++ 'e' :: tail).takeWhile (fun c => decide (c ≠ 'e')) = text := by
    rw [List.takeWhile_append_of_pos hall]
    simp
  have hdrop : (text ++ 'e' :: tail).dropWhile (fun c => decide (c ≠ 'e')) = 'e' :: tail := by
    rw [List.dropWhile_append_of_pos hall]
    simp
  rw [readFloat, htake, hdrop]
  rfl

theorem readFloat_minus {text : List Char} (h : 'e' ∉ text) (digits : List Char) :
    readFloat (text ++ 'e' :: '-' :: digits) =
      PlainNotation.read text * 10 ^ (-(Nat.ofDigitChars 10 digits 0 : ℤ)) :=
  readFloat_exponent h _

theorem readFloat_plus {text : List Char} (h : 'e' ∉ text) (digits : List Char) :
    readFloat (text ++ 'e' :: '+' :: digits) =
      PlainNotation.read text * 10 ^ (Nat.ofDigitChars 10 digits 0 : ℤ) :=
  readFloat_exponent h _

/-- A whole number with `.0` behind it. -/
theorem read_append_zero {q : ℚ} (hden : q.den = 1) :
    PlainNotation.read ((decimalText q).toList ++ ['.', '0']) = q := by
  have hterminates : Terminates q := ⟨0, by rw [hden, pow_zero]⟩
  obtain ⟨places, -, hleast, htext⟩ := exists_places hterminates
  obtain rfl : places = 0 := Nat.le_zero.mp (hleast 0 (by rw [hden, pow_zero]))
  rw [htext, PlainNotation.read_write_append_zero, ← htext]
  exact read_decimalText hterminates

/-! ### The shortest decimal -/

theorem terminates_zpow_ten (m k : ℤ) : Terminates (m * 10 ^ k) := by
  by_cases hk : 0 ≤ k
  · obtain ⟨n, rfl⟩ := Int.eq_ofNat_of_zero_le hk
    refine terminates_of_mul (m := m * 10 ^ n) (d := 1) (k := 0) ?_ (one_dvd _) one_pos
    push_cast
    rw [mul_one, zpow_natCast]
  · obtain ⟨n, hn⟩ := Int.eq_ofNat_of_zero_le (show 0 ≤ -k by omega)
    refine terminates_of_mul (m := m) (d := 10 ^ n) (k := n) ?_ dvd_rfl (by positivity)
    have hk : k = -(n : ℤ) := by omega
    rw [hk]
    push_cast
    rw [zpow_neg, zpow_natCast, mul_assoc, inv_mul_cancel₀ (by positivity), mul_one]

theorem terminates_zpow_two (m k : ℤ) : Terminates (m * 2 ^ k) := by
  by_cases hk : 0 ≤ k
  · obtain ⟨n, rfl⟩ := Int.eq_ofNat_of_zero_le hk
    refine terminates_of_mul (m := m * 2 ^ n) (d := 1) (k := 0) ?_ (one_dvd _) one_pos
    push_cast
    rw [mul_one, zpow_natCast]
  · obtain ⟨n, hn⟩ := Int.eq_ofNat_of_zero_le (show 0 ≤ -k by omega)
    refine terminates_of_mul (m := m) (d := 2 ^ n) (k := n) ?_ ?_ (by positivity)
    · have hk : k = -(n : ℤ) := by omega
      rw [hk]
      push_cast
      rw [zpow_neg, zpow_natCast, mul_assoc, inv_mul_cancel₀ (by positivity), mul_one]
    · exact pow_dvd_pow_of_dvd (by norm_num) n

theorem terminates_round (q : ℚ) : Terminates (Binary64.round q) :=
  terminates_zpow_two _ _

theorem round_shortest {q : ℚ} (h : Binary64.round q = q) :
    Binary64.round (Binary64.shortest q) = q := by
  unfold Binary64.shortest
  cases hfound : ((List.range 17).map fun n => Binary64.decimal (n + 1) q).find?
      fun d => Binary64.round d = q with
  | none => exact h
  | some d => simpa using List.find?_some hfound

theorem terminates_shortest {q : ℚ} (h : Binary64.round q = q) :
    Terminates (Binary64.shortest q) := by
  unfold Binary64.shortest
  cases hfound : ((List.range 17).map fun n => Binary64.decimal (n + 1) q).find?
      fun d => Binary64.round d = q with
  | none =>
      rw [Option.getD_none, ← h]
      exact terminates_round q
  | some d =>
      obtain ⟨n, -, rfl⟩ := List.mem_map.mp (List.mem_of_find?_eq_some hfound)
      exact terminates_zpow_ten _ _

theorem Terminates.div_zpow {q : ℚ} (h : Terminates q) (k : ℤ) : Terminates (q / 10 ^ k) := by
  obtain ⟨n, m, hm⟩ := h
  have hq : q = (q.num * m : ℤ) * 10 ^ (-(n : ℤ)) := by
    have hcast : (10 : ℚ) ^ n = q.den * m := by exact_mod_cast hm
    rw [zpow_neg, zpow_natCast, ← div_eq_mul_inv, eq_div_iff (by positivity), hcast, ← mul_assoc,
      Rat.mul_den_eq_num]
    push_cast
    rfl
  have hdiv : q / 10 ^ k = (q.num * m : ℤ) * 10 ^ (-(n : ℤ) - k) := by
    rw [zpow_sub₀ (by norm_num), ← mul_div_assoc, ← hq]
  rw [hdiv]
  exact terminates_zpow_ten _ _

theorem not_mem_decimalText {q : ℚ} (h : Terminates q) {c : Char} (hdigit : c.isDigit = false)
    (hsign : c ≠ '-') (hpoint : c ≠ '.') : c ∉ (decimalText q).toList := by
  obtain ⟨places, -, -, htext⟩ := exists_places h
  rw [htext]
  exact not_mem_write hdigit hsign hpoint _ _ _

/-- `repr` of a float reads as the shortest decimal of it. -/
theorem readFloat_floatRepr {q : ℚ} (h : Binary64.round q = q) :
    readFloat (floatRepr q).toList = Binary64.shortest q := by
  have hterminates := terminates_shortest h
  unfold floatRepr
  dsimp only
  split
  · next hzero =>
      rw [hzero]
      decide +kernel
  · split
    · have hmem := not_mem_decimalText hterminates (c := 'e') rfl (by decide) (by decide)
      split
      · next hden =>
          rw [String.toList_append]
          rw [readFloat_of_not_mem (by simp [hmem])]
          exact read_append_zero hden
      · rw [String.append_empty, readFloat_of_not_mem hmem]
        exact read_decimalText hterminates
    · have hmantissa := hterminates.div_zpow (Int.log 10 |Binary64.shortest q|)
      have hmem := not_mem_decimalText hmantissa (c := 'e') rfl (by decide) (by decide)
      generalize Int.log 10 |Binary64.shortest q| = exponent at hmantissa hmem ⊢
      have hdigits : Nat.ofDigitChars 10 (if (toString exponent.natAbs).length = 1 then
          "0" ++ toString exponent.natAbs else toString exponent.natAbs).toList 0 =
            exponent.natAbs := by
        split <;> simp [Nat.ofDigitChars_cons]
      have hback : Binary64.shortest q / 10 ^ exponent * 10 ^ exponent = Binary64.shortest q :=
        div_mul_cancel₀ _ (zpow_ne_zero _ (by norm_num))
      rw [String.toList_append, String.toList_append, List.append_assoc]
      generalize (if (toString exponent.natAbs).length = 1 then "0" ++ toString exponent.natAbs
        else toString exponent.natAbs).toList = digits at hdigits ⊢
      by_cases hneg : exponent < 0
      · have hexponent : -((exponent.natAbs : ℕ) : ℤ) = exponent := by omega
        rw [if_pos hneg]
        refine (readFloat_minus hmem digits).trans ?_
        rw [hdigits, hexponent, read_decimalText hmantissa, hback]
      · have hexponent : ((exponent.natAbs : ℕ) : ℤ) = exponent := by omega
        rw [if_neg hneg]
        refine (readFloat_plus hmem digits).trans ?_
        rw [hdigits, hexponent, read_decimalText hmantissa, hback]

/-- Floats with one `repr` are one. -/
theorem floatRepr_inj {a b : ℚ} (ha : Binary64.round a = a) (hb : Binary64.round b = b)
    (h : floatRepr a = floatRepr b) : a = b := by
  have hshortest : Binary64.shortest a = Binary64.shortest b := by
    rw [← readFloat_floatRepr ha, h, readFloat_floatRepr hb]
  rw [← round_shortest ha, hshortest, round_shortest hb]

/-- A positive number of seconds, as a float. -/
inductive Seconds where
  | finite (q : ℚ) (representable : Binary64.round q = q)
  | infinite

/-- `str(window_seconds)` -/
def Seconds.text : Seconds → String
  | .finite q _ => floatRepr q
  | .infinite => "inf"

/-- The number of seconds, if it is finite. -/
def Seconds.value : Seconds → Option ℚ
  | .finite q _ => some q
  | .infinite => none

theorem floatRepr_ne_inf {q : ℚ} (h : Binary64.round q = q) : floatRepr q ≠ "inf" := by
  have hmem : 'n' ∉ (floatRepr q).toList := by
    have hterminates := terminates_shortest h
    unfold floatRepr
    dsimp only
    split
    · decide
    · split
      · have hplain := not_mem_decimalText hterminates (c := 'n') rfl (by decide) (by decide)
        split <;> simp [hplain]
      · have hplain := not_mem_decimalText (hterminates.div_zpow
          (Int.log 10 |Binary64.shortest q|)) (c := 'n') rfl (by decide) (by decide)
        have hdigits : 'n' ∉ (toString (Int.log 10 |Binary64.shortest q|).natAbs).toList := by
          intro hmem
          rw [Nat.toString_eq_ofList_toDigits, String.toList_ofList] at hmem
          have hdigit := Nat.isDigit_of_mem_toDigits (by decide) (by decide) hmem
          exact absurd hdigit (by decide)
        rw [String.toList_append, String.toList_append, List.mem_append, List.mem_append]
        rintro ((hmem | hmem) | hmem)
        · exact hplain hmem
        · split at hmem <;> simp at hmem
        · split at hmem
          · rw [String.toList_append, List.mem_append] at hmem
            exact hmem.elim (by decide) hdigits
          · exact hdigits hmem
  intro heq
  rw [heq] at hmem
  exact hmem (by decide)

theorem Seconds.value_of_text {a b : Seconds} (h : a.text = b.text) : a.value = b.value := by
  cases a with
  | finite p hp =>
      cases b with
      | finite q hq => exact congrArg some (floatRepr_inj hp hq h)
      | infinite => exact absurd h (floatRepr_ne_inf hp)
  | infinite =>
      cases b with
      | finite q hq => exact absurd h.symm (floatRepr_ne_inf hq)
      | infinite => rfl

/-! ## Limits -/

/-- A `Decimal` as it is spelled. -/
inductive SpelledDecimal where
  | finite (negative : Bool) (coefficient : ℕ) (exponent : ℤ)
  | infinite (negative : Bool)
deriving DecidableEq

namespace SpelledDecimal

/-- The number, if it is finite, and else its sign. -/
def value : SpelledDecimal → ℚ ⊕ Bool
  | finite negative coefficient exponent =>
      .inl ((if negative then -1 else 1) * (coefficient * 10 ^ exponent))
  | infinite negative => .inr negative

/-- `format(value, "f")` -/
def fixed : SpelledDecimal → List Char
  | finite negative coefficient exponent =>
      PlainNotation.write negative (coefficient * 10 ^ exponent.toNat) (-exponent).toNat
  | infinite negative => (if negative then ['-'] else []) ++ "Infinity".toList

/-- `_decimal_text` -/
def decimalText (d : SpelledDecimal) : String :=
  if d.value = .inl 0 then "0" else String.ofList (PlainNotation.strip d.fixed)

theorem read_fixed (negative : Bool) (coefficient : ℕ) (exponent : ℤ) :
    PlainNotation.read (PlainNotation.strip (fixed (.finite negative coefficient exponent))) =
      (if negative then -1 else 1) * (coefficient * 10 ^ exponent) := by
  rw [fixed, PlainNotation.read_strip_write, PlainNotation.read_write]
  congr 1
  rcases le_total 0 exponent with h | h
  · have hplaces : (-exponent).toNat = 0 := by omega
    rw [hplaces, pow_zero, div_one]
    push_cast
    rw [← zpow_natCast, Int.toNat_of_nonneg h]
  · have hzero : exponent.toNat = 0 := by omega
    rw [hzero, pow_zero, mul_one, ← zpow_natCast, Int.toNat_of_nonneg (by omega), zpow_neg,
      div_inv_eq_mul]

/-- The text of a finite limit reads as the limit. -/
theorem read_decimalText (negative : Bool) (coefficient : ℕ) (exponent : ℤ) :
    PlainNotation.read (decimalText (.finite negative coefficient exponent)).toList =
      (if negative then -1 else 1) * (coefficient * 10 ^ exponent) := by
  rw [decimalText]
  split
  · next hzero =>
      rw [value, Sum.inl.injEq] at hzero
      rw [hzero]
      decide +kernel
  · rw [String.toList_ofList, read_fixed]

theorem strip_subset (text : List Char) : ∀ c ∈ PlainNotation.strip text, c ∈ text := by
  intro c hc
  rw [PlainNotation.strip] at hc
  split at hc
  · exact (List.rdropWhile_prefix _ _).subset ((List.rdropWhile_prefix _ _).subset hc)
  · exact hc

theorem strip_infinite (negative : Bool) :
    PlainNotation.strip (fixed (.infinite negative)) = fixed (.infinite negative) := by
  cases negative <;> decide

/-- Limits with one text are one number, however they are spelled. -/
theorem value_of_decimalText {a b : SpelledDecimal} (h : a.decimalText = b.decimalText) :
    a.value = b.value := by
  have hinfinite : ∀ negative negative' coefficient exponent,
      (SpelledDecimal.finite negative coefficient exponent).decimalText ≠
        (SpelledDecimal.infinite negative').decimalText := by
    intro negative negative' coefficient exponent heq
    have hmem : 'I' ∈ (SpelledDecimal.infinite negative').decimalText.toList := by
      rw [decimalText, if_neg (by simp [value]), String.toList_ofList, strip_infinite]
      cases negative' <;> decide
    rw [← heq, decimalText] at hmem
    split at hmem
    · exact absurd hmem (by decide)
    · rw [String.toList_ofList] at hmem
      exact not_mem_write (by decide) (by decide) (by decide) _ _ _ (strip_subset _ _ hmem)
  cases a with
  | finite negative coefficient exponent =>
      cases b with
      | finite negative' coefficient' exponent' =>
          rw [value, value, ← read_decimalText, h, read_decimalText]
      | infinite negative' => exact absurd h (hinfinite _ _ _ _)
  | infinite negative =>
      cases b with
      | finite negative' coefficient' exponent' => exact absurd h.symm (hinfinite _ _ _ _)
      | infinite negative' =>
          cases negative <;> cases negative' <;> first | rfl | exact absurd h (by decide)

end SpelledDecimal

end Pollard
