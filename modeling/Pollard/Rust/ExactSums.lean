import Pollard.Rust.WideDecimals

/-!
# Exact sums, differences and costs

`i128` is left as soon as it could overflow, and either way the result is the exact number or
none, where none says that no decimal is that number.
-/

namespace Pollard.Rust.Exact

open Lib

theorem checked_eq_some {n m : ℤ} (h : checked n = some m) : m = n := by
  rw [checked] at h
  split at h
  · exact (Option.some.inj h).symm
  · cases h

section Values

theorem value_neg (d : Decimal) : d.neg.value = -d.value := by
  rw [Decimal.value, Decimal.mantissa, Decimal.neg]
  dsimp only
  rw [signed_neg, Decimal.value, Decimal.mantissa, ← neg_div]
  push_cast
  rfl

theorem value_ofCount (count : UInt64) : (Decimal.ofCount count).value = count.toNat := by
  rw [Decimal.value, Decimal.mantissa, Decimal.ofCount]
  simp [signed]

theorem value_zero : Decimal.zero.value = 0 := by
  rw [Decimal.value, Decimal.mantissa, Decimal.zero]
  simp [signed]

/-- A coefficient brought to a greater scale. -/
theorem aligned_eq (d : Decimal) {scale : ℕ} (h : d.scale ≤ scale) :
    ((d.mantissa * 10 ^ (scale - d.scale) : ℤ) : ℚ) / 10 ^ scale = d.value := by
  rw [Decimal.value, div_pow_eq_iff, mul_assoc, ← pow_add, Nat.sub_add_cancel h]

theorem narrowSum_value {left right : Decimal} {sum : ℤ} (h : narrowSum left right = some sum) :
    (sum : ℚ) / 10 ^ max left.scale right.scale = left.value + right.value := by
  rw [narrowSum] at h
  obtain ⟨a, ha, h⟩ := Option.bind_eq_some_iff.mp h
  obtain ⟨b, hb, h⟩ := Option.bind_eq_some_iff.mp h
  rw [checked_eq_some h, checked_eq_some ha, checked_eq_some hb, Int.cast_add, add_div,
    aligned_eq left (Nat.le_max_left _ _), aligned_eq right (Nat.le_max_right _ _)]

end Values

/-! ## Terms of a cost -/

/-- The sum of the terms. -/
def cost (terms : List (UInt64 × Decimal)) : ℚ :=
  (terms.map fun term => (term.1.toNat : ℚ) * term.2.value).sum

theorem cost_cons (count : UInt64) (rate : Decimal) (terms : List (UInt64 × Decimal)) :
    cost ((count, rate) :: terms) = count.toNat * rate.value + cost terms := by
  rw [cost, List.map_cons, List.sum_cons]
  rfl

theorem foldl_max_le {α : Type} (f : α → ℕ) (terms : List α) {n bound : ℕ} (hn : n ≤ bound)
    (h : ∀ term ∈ terms, f term ≤ bound) : (terms.map f).foldl max n ≤ bound := by
  induction terms generalizing n with
  | nil => exact hn
  | cons term terms ih =>
      exact ih (Nat.max_le.mpr ⟨hn, h term List.mem_cons_self⟩)
        fun t ht => h t (List.mem_cons_of_mem _ ht)

theorem le_foldl_max {α : Type} (f : α → ℕ) (terms : List α) (n : ℕ) :
    n ≤ (terms.map f).foldl max n ∧ ∀ term ∈ terms, f term ≤ (terms.map f).foldl max n := by
  induction terms generalizing n with
  | nil => exact ⟨Nat.le_refl n, fun term h => absurd h List.not_mem_nil⟩
  | cons term terms ih =>
      obtain ⟨hmax, hall⟩ := ih (max n (f term))
      refine ⟨(Nat.le_max_left _ _).trans hmax, fun t ht => ?_⟩
      rcases List.mem_cons.mp ht with rfl | ht
      · exact (Nat.le_max_right _ _).trans hmax
      · exact hall t ht

theorem rateScale_le (terms : List (UInt64 × Decimal)) : rateScale terms ≤ maxScale :=
  foldl_max_le _ terms (Nat.zero_le _) fun term _ => term.2.scale_le

theorem le_rateScale {terms : List (UInt64 × Decimal)} {term : UInt64 × Decimal}
    (h : term ∈ terms) : term.2.scale ≤ rateScale terms :=
  (le_foldl_max (fun term => term.2.scale) terms 0).2 term h

theorem narrowCost_value {scale : ℕ} {terms : List (UInt64 × Decimal)}
    (hscale : ∀ term ∈ terms, term.2.scale ≤ scale) {sum total : ℤ}
    (h : narrowCost scale terms sum = some total) :
    (total : ℚ) / 10 ^ scale = sum / 10 ^ scale + cost terms := by
  induction terms generalizing sum with
  | nil =>
      obtain rfl := Option.some.inj h
      simp [cost]
  | cons term terms ih =>
      obtain ⟨count, rate⟩ := term
      rw [narrowCost] at h
      obtain ⟨scaled, hscaled, h⟩ := Option.bind_eq_some_iff.mp h
      obtain ⟨aligned, haligned, h⟩ := Option.bind_eq_some_iff.mp h
      obtain ⟨sum', hsum, h⟩ := Option.bind_eq_some_iff.mp h
      have hrate := aligned_eq rate (hscale (count, rate) List.mem_cons_self)
      have hterm : (aligned : ℚ) / 10 ^ scale = count.toNat * rate.value := by
        rw [← hrate, checked_eq_some haligned, checked_eq_some hscaled]
        push_cast
        ring
      rw [ih (fun t ht => hscale t (List.mem_cons_of_mem _ ht)) h, cost_cons, checked_eq_some hsum,
        ← hterm]
      push_cast
      ring

theorem wideCost_spec {terms : List (UInt64 × Decimal)} {total : Wide} (hvalid : total.Valid)
    (hscale : total.scale ≤ maxScale) :
    (wideCost terms total).value = total.value + cost terms ∧ (wideCost terms total).Valid ∧
      (wideCost terms total).scale ≤ maxScale := by
  induction terms generalizing total with
  | nil => exact ⟨by simp [wideCost, cost], hvalid, hscale⟩
  | cons term terms ih =>
      obtain ⟨count, rate⟩ := term
      obtain ⟨hproduct, hproductValid⟩ := Wide.multiply_spec
        (Wide.valid_ofDecimal (.ofCount count)) (Wide.valid_ofDecimal rate)
      obtain ⟨hsum, hsumValid, hsumScale⟩ := Wide.add_spec hvalid hproductValid
      have hproductScale : ((Wide.ofDecimal (.ofCount count)).multiply
          (Wide.ofDecimal rate)).scale = 0 + rate.scale := rfl
      have hrate := rate.scale_le
      obtain ⟨hvalue, hrestValid, hrestScale⟩ := ih hsumValid (by omega)
      refine ⟨?_, hrestValid, hrestScale⟩
      rw [wideCost, hvalue, hsum, hproduct, Wide.value_ofDecimal, Wide.value_ofDecimal,
        value_ofCount, cost_cons, add_assoc]

/-! ## The results -/

section Library

variable {lib : Library}

theorem IsExact.map {result : Option Decimal} {q : ℚ} (h : IsExact result q)
    {f : Decimal → Decimal} (hf : ∀ d, (f d).value = d.value) : IsExact (result.map f) q where
  isSome_iff := by rw [Option.isSome_map, h.isSome_iff]
  value_eq := by
    intro d hd
    obtain ⟨e, he, rfl⟩ := Option.map_eq_some_iff.mp hd
    rw [hf, h.value_eq e he]

theorem retainScale_value (hlib : lib.Correct) {scale : ℕ} (hscale : scale ≤ maxScale)
    (d : Decimal) : (retainScale lib scale d).value = d.value := by
  rw [retainScale, hlib.rescale _ _ (Nat.le_max_left _ _)
    (Nat.max_le.mpr ⟨(lib.normalize d).scale_le, hscale⟩), hlib.normalize]

theorem narrow_isExact (hlib : lib.Correct) {left right : Decimal} {sum : ℤ}
    (h : narrowSum left right = some sum) :
    IsExact (fromCoefficient lib sum (max left.scale right.scale)) (left.value + right.value) := by
  rw [← narrowSum_value h]
  exact fromCoefficient_isExact hlib sum _

theorem wide_isExact (hlib : lib.Correct) (left right : Decimal) :
    IsExact (((Wide.ofDecimal left).add (Wide.ofDecimal right)).finish lib)
      (left.value + right.value) := by
  obtain ⟨hvalue, hvalid, hscale⟩ := Wide.add_spec (Wide.valid_ofDecimal left)
    (Wide.valid_ofDecimal right)
  have hbound : max left.scale right.scale ≤ 28 := Nat.max_le.mpr ⟨left.scale_le, right.scale_le⟩
  rw [← Wide.value_ofDecimal left, ← Wide.value_ofDecimal right, ← hvalue]
  refine Wide.finish_isExact hlib hvalid ?_
  rw [hscale]
  exact lt_of_le_of_lt hbound (by norm_num)

theorem exactAdd_isExact (hlib : lib.Correct) (left right : Decimal) :
    IsExact (exactAdd lib left right) (left.value + right.value) := by
  rw [exactAdd]
  cases hsum : narrowSum left right with
  | some sum => exact narrow_isExact hlib hsum
  | none => exact wide_isExact hlib left right

theorem exactSubtract_isExact (hlib : lib.Correct) (left right : Decimal) :
    IsExact (exactSubtract lib left right) (left.value - right.value) := by
  rw [exactSubtract, sub_eq_add_neg, ← value_neg]
  exact exactAdd_isExact hlib left right.neg

theorem costPerMillion_isExact (hlib : lib.Correct) (terms : List (UInt64 × Decimal)) :
    IsExact (costPerMillion lib terms) (cost terms / 10 ^ 6) := by
  rw [costPerMillion]
  cases hnarrow : narrowCost (rateScale terms) terms 0 with
  | some coefficient =>
      have hvalue := narrowCost_value (fun term h => le_rateScale h) hnarrow
      have hcost : cost terms / 10 ^ 6 = (coefficient : ℚ) / 10 ^ (rateScale terms + 6) := by
        rw [pow_add, ← div_div, hvalue]
        simp
      rw [hcost]
      exact (fromCoefficient_isExact hlib coefficient _).map
        (retainScale_value hlib (rateScale_le terms))
  | none =>
      obtain ⟨hvalue, hvalid, hscale⟩ := @wideCost_spec terms _
        (Wide.valid_ofDecimal .zero) (Nat.zero_le maxScale)
      rw [Wide.value_ofDecimal, value_zero, zero_add] at hvalue
      dsimp only
      generalize wideCost terms (Wide.ofDecimal .zero) = total at hvalue hvalid hscale
      have hcost : cost terms / 10 ^ 6 = Wide.value { total with scale := total.scale + 6 } := by
        rw [← hvalue, Wide.value, Wide.value, div_div, ← pow_add]
        rfl
      have hscaled : Wide.Valid { total with scale := total.scale + 6 } :=
        ⟨hvalid.digits_ne, hvalid.proper⟩
      rw [hcost]
      refine (Wide.finish_isExact hlib hscaled ?_).map
        (retainScale_value hlib (rateScale_le terms))
      rw [maxScale] at hscale
      dsimp only
      omega

/-- A sum or a difference is returned exactly when the format has it, on either path, and then
it is exact; a cost is exact too. -/
theorem exact_or_refused (hlib : lib.Correct) (left right : Decimal)
    (terms : List (UInt64 × Decimal)) :
    IsExact (exactAdd lib left right) (left.value + right.value) ∧
      IsExact (exactSubtract lib left right) (left.value - right.value) ∧
      (∀ sum, narrowSum left right = some sum →
        IsExact (fromCoefficient lib sum (max left.scale right.scale))
          (left.value + right.value)) ∧
      IsExact (((Wide.ofDecimal left).add (Wide.ofDecimal right)).finish lib)
        (left.value + right.value) ∧
      IsExact (costPerMillion lib terms) (cost terms / 10 ^ 6) :=
  ⟨exactAdd_isExact hlib left right, exactSubtract_isExact hlib left right,
    fun _ h => narrow_isExact hlib h, wide_isExact hlib left right,
    costPerMillion_isExact hlib terms⟩

end Library

/-! ## A library that is correct -/

theorem shrink_le (b M S c s : ℕ) :
    (Digits.shrink b M S c s).1 ≤ c ∧ (Digits.shrink b M S c s).2 ≤ s := by
  induction s generalizing c with
  | zero => exact ⟨Nat.le_refl c, Nat.le_refl 0⟩
  | succ s ih =>
      rw [Digits.shrink]
      split
      · obtain ⟨hc, hs⟩ := ih (c / b)
        exact ⟨hc.trans (Nat.div_le_self c b), hs.trans (Nat.le_succ s)⟩
      · exact ⟨Nat.le_refl c, Nat.le_refl _⟩

/-- The decimal of a sign and the digits before and behind the point. -/
def ofParts (negative : Bool) (whole fraction : List Char) : Except DecimalError Decimal :=
  if h : whole ≠ [] ∧ (whole ++ fraction).all Char.isDigit = true ∧
      number (whole ++ fraction) ≤ maxCoefficient ∧ fraction.length ≤ maxScale then
    .ok ⟨negative, number (whole ++ fraction), fraction.length, h.2.2.1, h.2.2.2⟩
  else .error .underflow

/-- What the documentation says of exact texts, coefficients, redundant zeros and scales. -/
def Library.documented : Library where
  fromStrExact text :=
    let negative := decide (text.toList.head? = some '-')
    let unsigned := if negative then text.toList.tail else text.toList
    ofParts negative (unsigned.takeWhile fun c => c ≠ '.')
      ((unsigned.dropWhile fun c => c ≠ '.').drop 1)
  tryFromI128WithScale n s :=
    if h : n.natAbs ≤ maxCoefficient ∧ s ≤ maxScale then
      some ⟨decide (n < 0), n.natAbs, s, h.1, h.2⟩
    else none
  normalize d :=
    { d with
      coefficient := (Digits.shrink 10 0 0 d.coefficient d.scale).1
      scale := (Digits.shrink 10 0 0 d.coefficient d.scale).2
      coefficient_le := (shrink_le 10 0 0 _ _).1.trans d.coefficient_le
      scale_le := (shrink_le 10 0 0 _ _).2.trans d.scale_le }
  rescale d s :=
    if h : d.scale ≤ s ∧ d.coefficient * 10 ^ (s - d.scale) ≤ maxCoefficient ∧ s ≤ maxScale then
      ⟨d.negative, d.coefficient * 10 ^ (s - d.scale), s, h.2.1, h.2.2⟩
    else d

/-- The parts of a plain text, found again. -/
theorem plain_parts (negative : Bool) {whole fraction : List Char} (hne : whole ≠ [])
    (hdigits : ∀ c ∈ whole ++ fraction, c.isDigit = true) :
    let text := (plain negative whole fraction).toList
    let unsigned := if decide (text.head? = some '-') = true then text.tail else text
    decide (text.head? = some '-') = negative ∧ (unsigned.takeWhile fun c => c ≠ '.') = whole ∧
      (unsigned.dropWhile fun c => c ≠ '.').drop 1 = fraction := by
  have hwhole : ∀ c ∈ whole, decide (c ≠ '.') = true := fun c hc => decide_eq_true
    (PlainNotation.ne_of_isDigit (hdigits c (List.mem_append_left _ hc)) rfl)
  obtain ⟨back, hback⟩ : ∃ back, back = if fraction = [] then [] else '.' :: fraction := ⟨_, rfl⟩
  have htext : (plain negative whole fraction).toList =
      (if negative then ['-'] else []) ++ whole ++ back := by
    rw [plain, String.toList_ofList, hback]
  have hsign : decide ((plain negative whole fraction).toList.head? = some '-') = negative := by
    rw [htext]
    cases negative with
    | true => rfl
    | false =>
        exact decide_eq_false (PlainNotation.head?_of_isDigit
          (fun c hc => hdigits c (List.mem_append_left _ hc)) hne)
  have hunsigned : (if negative = true then (plain negative whole fraction).toList.tail
      else (plain negative whole fraction).toList) = whole ++ back := by
    rw [htext]
    cases negative <;> rfl
  dsimp only
  rw [hsign, hunsigned, List.takeWhile_append_of_pos hwhole, List.dropWhile_append_of_pos hwhole]
  refine ⟨rfl, ?_, ?_⟩
  · rw [hback]
    split <;> simp
  · rw [hback]
    split
    · next hnil => simp [hnil]
    · simp

theorem documented_correct : Library.documented.Correct where
  fromStrExact negative whole fraction hwhole hdigits hlength hnumber := by
    have hne : whole ≠ [] := by
      rcases hwhole with rfl | ⟨hne, -⟩
      · exact List.cons_ne_nil _ _
      · exact hne
    obtain ⟨hsign, hfront, hback⟩ := plain_parts negative hne (List.all_eq_true.mp hdigits)
    refine ⟨⟨negative, number (whole ++ fraction), fraction.length, hnumber, hlength⟩, ?_, rfl⟩
    dsimp only [Library.documented]
    rw [hfront, hback, hsign, ofParts, dif_pos ⟨hne, hdigits, hnumber, hlength⟩]
  tryFromI128WithScale n s := by
    dsimp only [Library.documented]
    split
    · next h =>
        refine ⟨_, rfl, ?_⟩
        rw [Decimal.value, Decimal.mantissa, signed_natAbs]
    · rfl
  normalize d := by
    have hvalue := Digits.shrink_value 10 0 0 d.coefficient d.scale
    rw [Decimal.value, Decimal.value, div_pow_eq_iff, Decimal.mantissa, Decimal.mantissa]
    have hcast := congrArg (signed d.negative) hvalue
    rw [signed_mul_natCast, signed_mul_natCast] at hcast
    push_cast at hcast
    exact hcast
  rescale d s hle hs := by
    dsimp only [Library.documented]
    split
    · next h =>
        rw [Decimal.value, Decimal.mantissa]
        dsimp only
        rw [signed_mul_natCast, ← aligned_eq d hle, Decimal.mantissa]
        push_cast
        rfl
    · rfl

/-- Too many digits for `i128`, and few enough without the zeros. -/
theorem exact_or_refused_carries :
    IsExact (exactAdd .documented ⟨false, maxCoefficient, 0, by decide, by decide⟩
        ⟨true, 1, 28, by decide, by decide⟩)
      ((⟨false, maxCoefficient, 0, by decide, by decide⟩ : Decimal).value +
        (⟨true, 1, 28, by decide, by decide⟩ : Decimal).value) :=
  (exact_or_refused documented_correct _ _ []).1

end Pollard.Rust.Exact
