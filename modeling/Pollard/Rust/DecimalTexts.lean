import Pollard.Rust.ExactDecimals

/-!
# Reading what the digits spell

The last step of the digit by digit arithmetic is a text in scientific notation.  Its reader
takes zeros off the end of the text just as the other path divides its coefficient by ten.
-/

namespace Pollard.Rust.Exact

open Lib

/-! ## Texts of digits -/

/-- The digit of a character. -/
def cell (c : Char) : ℕ := c.toNat - 48

theorem isDigit_iff {c : Char} : c.isDigit = true ↔ 48 ≤ c.toNat ∧ c.toNat ≤ 57 :=
  Char.isDigit_iff_toNat

theorem cell_lt {c : Char} (h : c.isDigit = true) : cell c < 10 := by
  rw [isDigit_iff] at h
  rw [cell]
  omega

theorem cell_eq_zero_iff {c : Char} (h : c.isDigit = true) : cell c = 0 ↔ c = '0' := by
  rw [isDigit_iff] at h
  rw [cell]
  constructor
  · intro hzero
    exact Char.toNat_inj.mp (show c.toNat = 48 by omega)
  · rintro rfl
    rfl

theorem number_cons (c : Char) (ds : List Char) :
    number (c :: ds) = 10 ^ ds.length * cell c + number ds := by
  rw [number, Nat.ofDigitChars_cons, Nat.ofDigitChars_eq_ofDigitChars_zero, Nat.mul_zero,
    Nat.zero_add]
  rfl

theorem number_append (ds es : List Char) :
    number (ds ++ es) = 10 ^ es.length * number ds + number es := by
  rw [number, Nat.ofDigitChars_append, Nat.ofDigitChars_eq_ofDigitChars_zero]
  rfl

theorem number_concat (ds : List Char) (c : Char) :
    number (ds ++ [c]) = 10 * number ds + cell c := by
  rw [number_append, number_cons]
  simp [number]

theorem number_eq_ofDigits (ds : List Char) :
    number ds = Nat.ofDigits 10 (ds.map cell).reverse := by
  induction ds with
  | nil => rfl
  | cons c ds ih =>
      rw [number_cons, ih, List.map_cons, List.reverse_cons, Nat.ofDigits_append,
        Nat.ofDigits_singleton, List.length_reverse, List.length_map]
      ring

theorem proper_cells {ds : List Char} (h : ∀ c ∈ ds, c.isDigit = true) :
    Digits.Proper 10 (ds.map cell) := by
  intro d hd
  obtain ⟨c, hc, rfl⟩ := List.mem_map.mp hd
  exact cell_lt (h c hc)

theorem number_lt {ds : List Char} (h : ∀ c ∈ ds, c.isDigit = true) :
    number ds < 10 ^ ds.length := by
  rw [number_eq_ofDigits]
  have hlt := Nat.ofDigits_lt_base_pow_length (by norm_num : 1 < 10)
    (fun d hd => proper_cells h d (List.mem_reverse.mp hd))
  rwa [List.length_reverse, List.length_map] at hlt

theorem pow_le_number {ds : List Char} (h : ∀ c ∈ ds, c.isDigit = true) (hne : ds ≠ [])
    (hhead : ds.head? ≠ some '0') : 10 ^ (ds.length - 1) ≤ number ds := by
  cases ds with
  | nil => exact absurd rfl hne
  | cons c ds =>
      rw [List.head?_cons, ne_eq, Option.some.injEq] at hhead
      have hcell : 0 < cell c := Nat.pos_of_ne_zero fun hzero =>
        hhead ((cell_eq_zero_iff (h c List.mem_cons_self)).mp hzero)
      rw [number_cons, List.length_cons, Nat.add_sub_cancel]
      have hmul := Nat.le_mul_of_pos_right (10 ^ ds.length) hcell
      omega

/-- Texts of digits compare like their digits. -/
theorem lt_iff_cells_lt {ds es : List Char} (hd : ∀ c ∈ ds, c.isDigit = true)
    (he : ∀ c ∈ es, c.isDigit = true) : ds < es ↔ ds.map cell < es.map cell := by
  induction ds generalizing es with
  | nil => cases es <;> simp
  | cons c ds ih =>
      cases es with
      | nil => simp
      | cons e es =>
          have hc := isDigit_iff.mp (hd c List.mem_cons_self)
          have hecell := isDigit_iff.mp (he e List.mem_cons_self)
          rw [List.map_cons, List.map_cons, List.cons_lt_cons_iff, List.cons_lt_cons_iff,
            ih (fun x hx => hd x (List.mem_cons_of_mem _ hx))
              (fun x hx => he x (List.mem_cons_of_mem _ hx))]
          have hlt : c < e ↔ cell c < cell e := by
            rw [Char.lt_def, UInt32.lt_iff_toNat_lt, cell, cell]
            change c.toNat < e.toNat ↔ _
            omega
          have heq : c = e ↔ cell c = cell e := by
            rw [← Char.toNat_inj, cell, cell]
            omega
          rw [hlt, heq]

/-- The digits of the largest coefficient. -/
def limitText : List Char := "79228162514264337593543950335".toList

theorem number_limitText : number limitText = maxCoefficient := by decide

/-- Without leading zeros, the text is too long or too great if the coefficient is too large. -/
theorem oversized_iff {ds : List Char} (h : ∀ c ∈ ds, c.isDigit = true) (hne : ds ≠ [])
    (hhead : ds.head? ≠ some '0') : oversized ds = true ↔ maxCoefficient < number ds := by
  have hlower := pow_le_number h hne hhead
  have hupper := number_lt h
  have hlimit : ∀ c ∈ limitText, c.isDigit = true := by
    rw [← List.all_eq_true]
    decide
  rw [oversized, Bool.or_eq_true, Bool.and_eq_true, decide_eq_true_eq, decide_eq_true_eq,
    decide_eq_true_eq]
  rcases Nat.lt_trichotomy ds.length 29 with hlt | heq | hgt
  · have hpow : 10 ^ ds.length ≤ 10 ^ 28 := Nat.pow_le_pow_right (by norm_num) (by omega)
    have hmax : 10 ^ 28 ≤ maxCoefficient := by decide
    constructor
    · rintro (hlong | ⟨hsame, -⟩) <;> omega
    · intro hlarge
      omega
  · have hlex : limitText < ds ↔ number limitText < number ds := by
      rw [lt_iff_cells_lt hlimit h, Digits.lex_lt_iff (by norm_num : 1 < 10) (proper_cells hlimit)
        (proper_cells h) (by rw [List.length_map, List.length_map, heq]; rfl),
        number_eq_ofDigits, number_eq_ofDigits]
    rw [number_limitText] at hlex
    rw [← hlex]
    constructor
    · rintro (hlong | ⟨-, hless⟩)
      · omega
      · exact hless
    · exact fun hless => .inr ⟨heq, hless⟩
  · have hpow : 10 ^ 29 ≤ 10 ^ (ds.length - 1) := Nat.pow_le_pow_right (by norm_num) (by omega)
    have hmax : maxCoefficient < 10 ^ 29 := by decide
    exact ⟨fun _ => by omega, fun _ => .inl hgt⟩

/-! ## Zeros off the end -/

/-- What the reader takes for significant digits: no zero leads, or they are one zero and no
scale asks for more of it than the format has. -/
structure Significant (ds : List Char) (scale : ℕ) : Prop where
  digits : ∀ c ∈ ds, c.isDigit = true
  leading : ds = ['0'] ∧ scale ≤ maxScale ∨ ds ≠ [] ∧ ds.head? ≠ some '0'

namespace Significant

variable {ds : List Char} {scale : ℕ}

theorem oversized_iff (h : Significant ds scale) :
    oversized ds = true ↔ maxCoefficient < number ds := by
  rcases h.leading with ⟨rfl, -⟩ | ⟨hne, hhead⟩
  · decide
  · exact Exact.oversized_iff h.digits hne hhead

/-- A zero that is not alone can go. -/
theorem init {rest : List Char} (h : Significant (rest ++ ['0']) (scale + 1))
    (hlarge : maxCoefficient < number (rest ++ ['0']) ∨ maxScale < scale + 1) :
    Significant rest scale := by
  have hdigits : ∀ c ∈ rest, c.isDigit = true := fun c hc =>
    h.digits c (List.mem_append_left _ hc)
  refine ⟨hdigits, .inr ?_⟩
  rcases h.leading with ⟨hzero, hscale⟩ | ⟨-, hhead⟩
  · rw [hzero] at hlarge
    have hsmall : ¬ maxCoefficient < number ['0'] := by decide
    omega
  · cases rest with
    | nil => exact absurd rfl hhead
    | cons c rest => exact ⟨List.cons_ne_nil _ _, hhead⟩

end Significant

theorem shrinkText_of_ne {c : Char} (h : c ≠ '0') (rest : List Char) (scale : ℤ) :
    shrinkText (c :: rest) scale = (c :: rest, scale) := by
  rw [shrinkText]
  rintro rest' ⟨⟩
  exact h rfl

/-- The zeros the reader takes off the end are those that dividing by ten takes off. -/
theorem shrinkText_eq (rest : List Char) (scale : ℕ) (h : Significant rest.reverse scale) :
    ∃ (kept : List Char) (t : ℕ), shrinkText rest scale = (kept.reverse, (t : ℤ)) ∧
      Digits.shrink 10 maxCoefficient maxScale (number rest.reverse) scale = (number kept, t) ∧
      Significant kept t := by
  induction rest generalizing scale with
  | nil =>
      rcases h.leading with ⟨hnil, -⟩ | ⟨hnil, -⟩
      · cases hnil
      · exact absurd rfl hnil
  | cons c rest ih =>
      have hreverse : (c :: rest).reverse = rest.reverse ++ [c] := List.reverse_cons
      have hlast : number (c :: rest).reverse % 10 = cell c := by
        rw [hreverse, number_concat, Nat.mul_add_mod]
        exact Nat.mod_eq_of_lt (cell_lt (h.digits c (by simp)))
      have hstays (hstop : scale = 0 ∨ ¬ ((maxCoefficient < number (c :: rest).reverse ∨
          maxScale < scale) ∧ cell c = 0)) :
          Digits.shrink 10 maxCoefficient maxScale (number (c :: rest).reverse) scale =
            (number (c :: rest).reverse, scale) := by
        cases scale with
        | zero => rfl
        | succ scale =>
            rw [Digits.shrink, hlast, if_neg (hstop.resolve_left (Nat.succ_ne_zero _))]
      by_cases hzero : c = '0'
      · subst hzero
        rw [shrinkText]
        simp only [h.oversized_iff]
        split
        · next hshrinks =>
            obtain ⟨scale, rfl⟩ : ∃ n, scale = n + 1 := ⟨scale - 1, by omega⟩
            have hlarge : maxCoefficient < number ('0' :: rest).reverse ∨ maxScale < scale + 1 := by
              omega
            rw [hreverse] at h hlarge
            obtain ⟨kept, t, htext, hnumber, hkept⟩ := ih scale (h.init hlarge)
            refine ⟨kept, t, ?_, ?_, hkept⟩
            · rw [← htext]
              congr 1
              push_cast
              ring
            · rw [← hreverse] at hlarge
              rw [Digits.shrink, if_pos ⟨hlarge, hlast⟩, hreverse, number_concat,
                show cell '0' = 0 from rfl, Nat.add_zero, Nat.mul_div_cancel_left _ (by norm_num),
                hnumber]
        · next hstop =>
            refine ⟨('0' :: rest).reverse, scale, by rw [List.reverse_reverse], hstays ?_, h⟩
            omega
      · refine ⟨(c :: rest).reverse, scale, by rw [List.reverse_reverse, shrinkText_of_ne hzero],
          hstays ?_, h⟩
        rw [cell_eq_zero_iff (h.digits c (by simp))]
        exact .inr fun hand => hzero hand.2

/-! ## The rest of the reader -/

theorem number_zeros (k : ℕ) (ds : List Char) : number (List.replicate k '0' ++ ds) = number ds := by
  rw [number_append, number, Nat.ofDigitChars_replicate_zero, Nat.mul_zero, Nat.mul_zero,
    Nat.zero_add]

theorem number_dropWhile (ds : List Char) : number (ds.dropWhile fun c => c = '0') = number ds := by
  induction ds with
  | nil => rfl
  | cons c ds ih =>
      rw [List.dropWhile_cons]
      split
      · next hzero =>
          obtain rfl := of_decide_eq_true hzero
          rw [ih, number_cons]
          exact (Nat.zero_add _).symm
      · rfl

/-- Where the point stands changes neither the digits nor how many are behind it. -/
theorem pointed_spec {ds : List Char} {scale : ℕ} (h : Significant ds scale) :
    ((pointed ds scale).1 = ['0'] ∨
        (pointed ds scale).1 ≠ [] ∧ (pointed ds scale).1.head? ≠ some '0') ∧
      (∀ c ∈ (pointed ds scale).1 ++ (pointed ds scale).2, c.isDigit = true) ∧
      (pointed ds scale).2.length = scale ∧
      number ((pointed ds scale).1 ++ (pointed ds scale).2) = number ds := by
  rw [pointed]
  split
  · next hzero =>
      rw [List.append_nil]
      exact ⟨h.leading.imp And.left id, h.digits, hzero.symm, rfl⟩
  split
  · next hpos hshort =>
      have hzeros : ['0'] ++ (List.replicate (scale - ds.length) '0' ++ ds) =
          List.replicate (scale - ds.length + 1) '0' ++ ds := by
        rw [List.replicate_succ]
        rfl
      refine ⟨.inl rfl, ?_, by simp; omega, by rw [hzeros, number_zeros]⟩
      rw [hzeros]
      intro c hc
      rcases List.mem_append.mp hc with hc | hc
      · rw [List.eq_of_mem_replicate hc]
        rfl
      · exact h.digits c hc
  · next hpos hlong =>
      have htaken : ds.take (ds.length - scale) ≠ [] := by
        rw [Ne, List.take_eq_nil_iff]
        rintro (hnone | rfl)
        · omega
        · exact hlong (Nat.zero_le _)
      refine ⟨.inr ⟨htaken, ?_⟩, ?_, by rw [List.length_drop]; omega, ?_⟩
      · rcases h.leading with ⟨rfl, -⟩ | ⟨-, hhead⟩
        · rw [List.length_singleton] at hlong
          omega
        · rw [List.head?_take, if_neg (by omega)]
          exact hhead
      · rw [List.take_append_drop]
        exact h.digits
      · rw [List.take_append_drop]

section Library

variable {lib : Library}

/-- From significant digits on, the reader finds the number if the format has it. -/
theorem finishShrunk_isExact (hlib : lib.Correct) (negative : Bool) {ds : List Char} {scale : ℕ}
    (h : Significant ds scale) {result : Option Decimal}
    (hresult : ∀ kept (t : ℕ), shrinkText ds.reverse scale = (kept.reverse, (t : ℤ)) →
      result = if maxScale < t ∨ oversized kept = true then none else
        (lib.fromStrExact (plain negative (pointed kept t).1 (pointed kept t).2)).toOption) :
    IsExact result (signed negative (number ds) / 10 ^ scale) := by
  obtain ⟨kept, t, htext, hshrink, hkept⟩ := shrinkText_eq ds.reverse scale
    (by rwa [List.reverse_reverse])
  rw [List.reverse_reverse] at hshrink
  have hvalue := Digits.shrink_value 10 maxCoefficient maxScale (number ds) scale
  have hfits := Digits.shrink_fits_iff (by norm_num : 1 < 10) maxCoefficient maxScale (number ds)
    scale
  have hrepresentable := representable_iff (signed negative (number ds)) scale
  rw [natAbs_signed] at hrepresentable
  rw [← hrepresentable] at hfits
  rw [hshrink] at hvalue hfits
  have hresult := hresult kept t htext
  simp only [hkept.oversized_iff] at hresult
  by_cases hfit : number kept ≤ maxCoefficient ∧ t ≤ maxScale
  · obtain ⟨hwhole, hdigits, hlength, hnumber⟩ := pointed_spec hkept
    obtain ⟨d, hd, hdvalue⟩ := hlib.fromStrExact negative _ _ hwhole (List.all_eq_true.mpr hdigits)
      (by rw [hlength]; exact hfit.2) (by rw [hnumber]; exact hfit.1)
    rw [if_neg (by omega), hd] at hresult
    refine .ofSome hresult ?_
    rw [hdvalue, hnumber, hlength, div_pow_eq_iff]
    have hcast : signed negative (number kept * 10 ^ scale) = signed negative (number ds * 10 ^ t) :=
      congrArg _ hvalue
    rw [signed_mul_natCast, signed_mul_natCast] at hcast
    push_cast at hcast
    exact hcast
  · rw [if_pos (by omega)] at hresult
    exact .ofNone hresult (hfits.not.mp hfit)

theorem finishParse_isExact (hlib : lib.Correct) (negative : Bool) {ds : List Char}
    (hdigits : ∀ c ∈ ds, c.isDigit = true) (scale : ℕ) :
    IsExact (finishParse lib negative ds scale).toOption
      (signed negative (number ds) / 10 ^ scale) := by
  have hnumber := number_dropWhile ds
  have hmem : ∀ c ∈ ds.dropWhile fun c => c = '0', c.isDigit = true := fun c hc =>
    hdigits c ((List.dropWhile_suffix _).subset hc)
  have hhead : (ds.dropWhile fun c => c = '0').head? ≠ some '0' := by
    intro hsome
    have hnot := List.head?_dropWhile_not (fun c => decide (c = '0')) ds
    rw [hsome] at hnot
    exact absurd hnot (by decide)
  rw [finishParse]
  generalize ds.dropWhile (fun c => decide (c = '0')) = trimmed at hnumber hmem hhead
  dsimp only
  obtain ⟨significant, hsignificant⟩ :
    ∃ significant, significant = if trimmed = [] then ['0'] else trimmed := ⟨_, rfl⟩
  obtain ⟨scale', hscale⟩ :
    ∃ scale', scale' = if significant = ['0'] then min scale maxScale else scale := ⟨_, rfl⟩
  have hcast : (if significant = ['0'] then min (scale : ℤ) maxScale else scale) = scale' := by
    rw [hscale]
    split <;> simp
  have hsig : Significant significant scale' := by
    by_cases hnil : trimmed = []
    · rw [if_pos hnil] at hsignificant
      rw [if_pos hsignificant] at hscale
      rw [hsignificant, hscale]
      exact ⟨by simp, .inl ⟨rfl, Nat.min_le_right _ _⟩⟩
    · rw [if_neg hnil] at hsignificant
      rw [hsignificant]
      exact ⟨hmem, .inr ⟨hnil, hhead⟩⟩
  have hvalue : (signed negative (number ds) : ℚ) / 10 ^ scale =
      signed negative (number significant) / 10 ^ scale' := by
    rw [← hnumber, div_pow_eq_iff]
    by_cases hnil : trimmed = []
    · rw [if_pos hnil] at hsignificant
      rw [hsignificant, hnil]
      cases negative <;> simp [signed, number, Nat.ofDigitChars_cons]
    · have hzero : significant ≠ ['0'] := by
        rw [hsignificant, if_neg hnil]
        rintro rfl
        exact hhead rfl
      rw [if_neg hzero] at hscale
      rw [hsignificant, if_neg hnil, hscale]
  rw [← hsignificant, hcast, hvalue]
  refine finishShrunk_isExact hlib negative hsig fun kept t htext => ?_
  rw [htext]
  dsimp only
  have hpadded : ¬ ((t : ℤ) < 0 ∧ kept ≠ ['0']) := fun hand => absurd hand.1 (by omega)
  rw [List.reverse_reverse, Int.toNat_natCast, if_neg hpadded]
  by_cases hdeep : maxScale < t
  · rw [if_pos (Int.ofNat_lt.mpr hdeep), if_pos (.inl hdeep)]
    rfl
  · rw [if_neg (mt Int.ofNat_lt.mp hdeep)]
    dsimp only
    by_cases hover : oversized kept = true
    · rw [if_pos hover, if_pos (.inr hover)]
      rfl
    · rw [if_neg hover, if_neg (not_or.mpr ⟨hdeep, hover⟩)]

end Library

end Pollard.Rust.Exact
