import Pollard.Rust.DecimalGrammar

/-!
# Decimals as Python prints them

Window ledgers and reservations name an amount by the text that Python has for it.  The text is
made from the parts of the one that was read, in `i32`.
-/

namespace Pollard.Rust.Exact

open Lib
open Lib.Scientific (Numeral Power Sign Finite AllDigits strip)

/-! ## The formatter -/

/-- `White_Space` -/
def isWhitespace (c : Char) : Bool :=
  let n := c.toNat
  (9 ≤ n ∧ n ≤ 13) ∨ (8192 ≤ n ∧ n ≤ 8202) ∨
    n ∈ [32, 133, 160, 5760, 8232, 8233, 8239, 8287, 12288]

/-- `str::trim` -/
def trimText (text : List Char) : List Char :=
  (text.dropWhile isWhitespace).rdropWhile isWhitespace

/-- A number of `i32`. -/
def Fits32 (n : ℤ) : Prop := -2 ^ 31 ≤ n ∧ n < 2 ^ 31

instance (n : ℤ) : Decidable (Fits32 n) := inferInstanceAs (Decidable (_ ∧ _))

def checkedI32 (n : ℤ) : Option ℤ := if Fits32 n then some n else none

/-- `str::parse::<i32>`, which reads what `i64` does in a smaller range -/
def parseI32 (text : List Char) : Option ℤ := (parseI64 text).bind checkedI32

/-- `as i32` -/
def asI32 (n : ℤ) : ℤ := n.bmod (2 ^ 32)

/-- The text of a sign, digits, an exponent and where the first digit is. -/
def pythonText (negative : Bool) (digits : List Char) (exponent adjusted : ℤ) : List Char :=
  let sign := if negative then ['-'] else []
  if exponent ≤ 0 ∧ -6 ≤ adjusted then
    let point := asI32 digits.length + exponent
    if point ≤ 0 then sign ++ '0' :: '.' :: (List.replicate (-point).toNat '0' ++ digits)
    else if exponent = 0 then sign ++ digits
    else sign ++ digits.take point.toNat ++ '.' :: digits.drop point.toNat
  else
    let tail := if 1 < digits.length then '.' :: digits.drop 1 else []
    sign ++ digits.take 1 ++ tail ++ 'E' :: Finite.plusD adjusted

/-- `python_decimal_string`, from the parts of the text on -/
def formatParts (negative : Bool) (whole fraction : List Char) (exponent : ℤ) :
    Except String (List Char) :=
  let digits := strip (whole ++ fraction)
  match checkedI32 (exponent - asI32 fraction.length) with
  | none => .error "decimal exponent overflow"
  | some exponent =>
      match checkedI32 (exponent + asI32 (asI32 digits.length - 1)) with
      | none => .error "decimal exponent overflow"
      | some adjusted => .ok (pythonText negative digits exponent adjusted)

/-- `python_decimal_string`, without the spaces around the text -/
def formatText (input : List Char) : Except String (List Char) :=
  let input := if input.head? = some '+' then input.tail else input
  let negative := decide (input.head? = some '-')
  let input := if negative then input.tail else input
  let parts := input.splitOnP marked
  match (parts[1]?.map parseI32).getD (some 0) with
  | none => .error "invalid decimal exponent"
  | some exponent =>
      if parts[2]?.isSome then .error "invalid decimal"
      else
        let pieces := (parts.headD []).splitOnP fun c => c = '.'
        let whole := pieces.headD []
        let fraction := pieces[1]?.getD []
        if pieces[2]?.isSome ∨ whole = [] ∧ fraction = [] ∨
            (whole ++ fraction).all Char.isDigit = false then
          .error "invalid decimal"
        else formatParts negative whole fraction exponent

/-- `python_decimal_string` -/
def pythonDecimalString (input : String) : Except String String :=
  (formatText (trimText input.toList)).map String.ofList

example : pythonDecimalString " +0012.50e-9 " = .ok "1.250E-8" := by decide

/-! ## Texts of the grammar -/

section Numerals

variable (n : Numeral)

theorem not_isWhitespace : ∀ c ∈ n.text, isWhitespace c = false := by
  have hothers : ∀ c ∈ ['+', '-', '.', 'e', 'E'], isWhitespace c = false := by
    simp only [List.forall_mem_cons, List.not_mem_nil, false_imp_iff, implies_true, and_true]
    decide
  intro c hc
  rcases Numeral.mem_text hc with h | h
  · obtain ⟨hlower, hupper⟩ := isDigit_iff.mp h
    rw [isWhitespace, decide_eq_false_iff_not]
    simp only [List.mem_cons, List.not_mem_nil, or_false]
    omega
  · exact hothers c h

theorem trimText_text : trimText n.text = n.text := by
  have hspace := not_isWhitespace n
  have hdrop : ∀ text : List Char, (∀ c ∈ text, isWhitespace c = false) →
      text.dropWhile isWhitespace = text := by
    intro text htext
    cases text with
    | nil => rfl
    | cons c text =>
        rw [List.dropWhile_cons_of_neg (by rw [htext c List.mem_cons_self]; decide)]
  rw [trimText, hdrop n.text hspace, List.rdropWhile, hdrop _ fun c hc =>
    hspace c (List.mem_reverse.mp hc), List.reverse_reverse]

theorem splitOnP_text : (n.front.text ++ n.tail).splitOnP marked =
    n.front.text :: n.power.elim [] fun power => [power.sign.text ++ power.digits] := by
  have hfront : ∀ c ∈ n.front.text, marked c = false := fun c hc =>
    unmarked_front n c (List.mem_append_right _ hc)
  rw [Numeral.tail]
  cases hpower : n.power with
  | none => rw [Option.elim_none, List.append_nil, List.splitOnP_eq_singleton hfront]; rfl
  | some power =>
      have hrest : ∀ c ∈ power.sign.text ++ power.digits, marked c = false := by
        intro c hc
        rcases List.mem_append.mp hc with hc | hc
        · exact unmarked_sign power.sign c hc
        · exact unmarked_digit (power.isDigit c hc)
      rw [Option.elim_some, Power.text, List.splitOnP_append_cons_of_forall_mem hfront _
        (marked_eq_true_iff.mpr power.isMark), List.splitOnP_eq_singleton hrest]
      rfl

theorem splitOnP_front (p : Scientific.Pointed) : (p.text.splitOnP fun c => c = '.') =
    p.whole :: p.fraction.elim [] fun fraction => [fraction] := by
  have hpoint : ∀ text : List Char, AllDigits text → ∀ c ∈ text, decide (c = '.') = false := by
    intro text htext c hc
    refine decide_eq_false ?_
    rintro rfl
    cases htext _ hc
  have hfraction := p.isDigit_fraction
  rw [Scientific.Pointed.text]
  cases hp : p.fraction with
  | none =>
      rw [Option.elim_none, List.append_nil, List.splitOnP_eq_singleton (hpoint _ p.isDigit_whole)]
      rfl
  | some fraction =>
      rw [hp, Option.getD_some] at hfraction
      rw [Option.elim_some, List.splitOnP_append_cons_of_forall_mem (hpoint _ p.isDigit_whole) _
        (decide_eq_true rfl), List.splitOnP_eq_singleton (hpoint _ hfraction)]
      rfl

theorem parseI32_power (power : Power) :
    parseI32 (power.sign.text ++ power.digits) = checkedI32 power.value := by
  rw [parseI32, parseI64_power]
  by_cases hfits : Fits power.value
  · rw [checkedI64_eq_some_iff.mpr ⟨hfits, rfl⟩, Option.bind_some]
  · have hnot : ¬ Fits32 power.value := fun h =>
      hfits ⟨by have := h.1; omega, by have := h.2; omega⟩
    have hnone : checkedI64 power.value = none := if_neg hfits
    rw [hnone, checkedI32, if_neg hnot, Option.bind_none]

theorem checkedI32_of_fits {m : ℤ} (h : Fits32 m) : checkedI32 m = some m := if_pos h

/-- The formatter reads the parts of a numeral. -/
theorem formatText_text (hshift : Fits32 n.shift) : formatText n.text =
    formatParts n.sign.negative n.front.whole (n.front.fraction.getD []) n.shift := by
  have hplus : (n.front.text ++ n.tail).head? ≠ some '+' :=
    Scientific.Pointed.head?_text _ n.digits_ne rfl (by decide)
  have hminus : (n.front.text ++ n.tail).head? ≠ some '-' :=
    Scientific.Pointed.head?_text _ n.digits_ne rfl (by decide)
  have hunsigned :
      (if n.text.head? = some '+' then n.text.tail else n.text) =
          (if n.sign.negative then ['-'] else []) ++ (n.front.text ++ n.tail) := by
    rw [Numeral.text, List.append_assoc]
    cases n.sign with
    | none => exact if_neg hplus
    | plus => rfl
    | minus => rfl
  have hsign : decide (((if n.sign.negative then ['-'] else []) ++
        (n.front.text ++ n.tail)).head? = some '-') = n.sign.negative := by
    cases n.sign.negative with
    | true => rfl
    | false => exact decide_eq_false hminus
  have hrest : (if n.sign.negative = true then ((if n.sign.negative then ['-'] else []) ++
        (n.front.text ++ n.tail)).tail else (if n.sign.negative then ['-'] else []) ++
        (n.front.text ++ n.tail)) = n.front.text ++ n.tail := by
    cases n.sign.negative <;> rfl
  have hexponent : (((n.power.elim [] fun power => [power.sign.text ++ power.digits])[0]?).map
      parseI32).getD (some 0) = some n.shift := by
    rw [Numeral.shift] at hshift ⊢
    cases hpower : n.power with
    | none => rfl
    | some power =>
        rw [hpower] at hshift
        exact (parseI32_power power).trans (checkedI32_of_fits hshift)
  have hparts : (n.power.elim [] fun power => [power.sign.text ++ power.digits])[1]? = none := by
    cases n.power <;> rfl
  have hpieces : (n.front.fraction.elim [] fun fraction => [fraction])[1]? = none := by
    cases n.front.fraction <;> rfl
  have hfraction : ((n.front.fraction.elim [] fun fraction => [fraction])[0]?).getD [] =
      n.front.fraction.getD [] := by
    cases n.front.fraction <;> rfl
  have hread : ¬ (false = true ∨ n.front.whole = [] ∧ n.front.fraction.getD [] = [] ∨
      (n.front.whole ++ n.front.fraction.getD []).all Char.isDigit = false) := by
    have hall := List.all_eq_true.mpr n.front.isDigit
    rintro (hfalse | ⟨hwhole, hnone⟩ | hnot)
    · cases hfalse
    · exact n.digits_ne (by rw [Scientific.Pointed.digits, hwhole, hnone]; rfl)
    · rw [hall] at hnot
      cases hnot
  rw [formatText]
  dsimp only
  rw [hunsigned, hsign, hrest, splitOnP_text]
  simp only [List.getElem?_cons_succ, hexponent, hparts, List.headD_cons, splitOnP_front,
    hpieces, hfraction, Option.isSome_none]
  rw [if_neg Bool.false_ne_true, if_neg hread]

/-! ## What is printed -/

theorem asI32_of_fits {m : ℤ} (h : Fits32 m) : asI32 m = m :=
  Int.bmod_eq_of_le (by have := h.1; omega) (by have := h.2; omega)

/-- Where the first digit is says on which side of the written point the digits are. -/
theorem pythonText_finite (d : Finite) (hlength : (d.digits.length : ℤ) < 2 ^ 31) :
    pythonText d.negative d.digits d.exponent (d.leftDigits - 1) = d.str := by
  have hpos := d.length_pos
  have hcast : asI32 d.digits.length = d.digits.length := asI32_of_fits ⟨by omega, hlength⟩
  have hleft : d.digits.length + d.exponent = d.leftDigits := by
    rw [Finite.leftDigits, add_comm]
  rw [pythonText, Finite.str]
  dsimp only
  generalize (if d.negative = true then ['-'] else []) = sign
  rw [hcast, hleft]
  by_cases hplain : d.exponent ≤ 0 ∧ -6 < d.leftDigits
  · have hplace : d.dotPlace = d.leftDigits := if_pos hplain
    rw [if_pos ⟨hplain.1, by omega⟩, hplace, if_pos rfl, List.append_nil]
    by_cases hsmall : d.leftDigits ≤ 0
    · rw [if_pos hsmall, if_pos hsmall]
    · rw [if_neg hsmall, if_neg hsmall]
      by_cases hwhole : d.exponent = 0
      · have hall : (d.leftDigits - d.digits.length).toNat = 0 := by omega
        rw [if_pos hwhole, if_pos (by omega), hall, List.replicate_zero, List.append_nil]
      · rw [if_neg hwhole, if_neg (by omega), List.append_assoc]
  · have hplace : d.dotPlace = 1 := if_neg hplain
    have hpower : d.leftDigits ≠ 1 := by omega
    have hfront : ¬ (1 : ℤ) ≤ 0 := by decide
    rw [if_neg (fun h => hplain ⟨h.1, by omega⟩), hplace, if_neg hfront, if_neg hpower]
    by_cases hone : 1 < d.digits.length
    · have htake : (1 : ℤ).toNat = 1 := rfl
      rw [if_pos hone, if_neg (by omega), htake]
      simp only [List.append_assoc]
    · have hnone : ((1 : ℤ) - d.digits.length).toNat = 0 := by omega
      rw [if_neg hone, if_pos (by omega), hnone, List.take_of_length_le (by omega),
        List.replicate_zero, List.append_nil, List.append_nil]

/-- The lengths and exponents that the formatter counts with are of `i32`. -/
structure InRange32 : Prop where
  places : (n.front.places : ℤ) < 2 ^ 31
  length : (n.finite.digits.length : ℤ) < 2 ^ 31
  shift : Fits32 n.shift
  exponent : Fits32 n.exponent
  adjusted : Fits32 (n.finite.leftDigits - 1)

theorem formatText_inRange (h : InRange32 n) : formatText n.text = .ok n.finite.str := by
  have hpos := n.finite.length_pos
  have hlength := h.length
  have hplaces : asI32 n.front.places = n.front.places := asI32_of_fits ⟨by omega, h.places⟩
  have hlengthCast : asI32 n.finite.digits.length = n.finite.digits.length :=
    asI32_of_fits ⟨by omega, hlength⟩
  have hlast : asI32 (n.finite.digits.length - 1) = n.finite.digits.length - 1 :=
    asI32_of_fits ⟨by omega, by omega⟩
  have hadjusted : n.exponent + (n.finite.digits.length - 1) = n.finite.leftDigits - 1 := by
    rw [Finite.leftDigits, add_sub_assoc]
    rfl
  have hchecked := checkedI32_of_fits h.adjusted
  rw [← hadjusted] at hchecked
  rw [formatText_text n h.shift, formatParts]
  change (match checkedI32 (n.shift - asI32 n.front.places) with
    | none => .error "decimal exponent overflow"
    | some exponent =>
        match checkedI32 (exponent + asI32 (asI32 n.finite.digits.length - 1)) with
        | none => .error "decimal exponent overflow"
        | some adjusted => .ok (pythonText n.finite.negative n.finite.digits exponent adjusted) :
      Except String (List Char)) = _
  rw [hplaces, hlengthCast, hlast]
  change (match checkedI32 n.exponent with
    | none => .error "decimal exponent overflow"
    | some exponent => _ : Except String (List Char)) = _
  rw [checkedI32_of_fits h.exponent]
  dsimp only
  rw [hchecked, hadjusted]
  exact congrArg Except.ok (pythonText_finite n.finite hlength)

end Numerals

/-- The text that Python prints is of the same number, and Python reads it back. -/
theorem inRange32_numeral {n : Numeral} (h : InRange32 n) (hleast : n.exponent ≠ -2 ^ 31) :
    InRange32 n.finite.numeral := by
  have hfinite : n.finite.numeral.finite = n.finite := n.finite.finite_numeral
  have hshift : n.finite.numeral.shift = n.finite.leftDigits - n.finite.dotPlace :=
    n.finite.value_power
  have hplaces : (n.finite.numeral.front.places : ℤ) =
      n.finite.digits.length - n.finite.dotPlace := n.finite.places_front
  have hexponent : n.finite.exponent = n.exponent := rfl
  have hpos := n.finite.length_pos
  have hlength := h.length
  have hfits := h.exponent
  have hadjusted := h.adjusted
  have hplace : n.finite.dotPlace = n.finite.leftDigits ∧ n.exponent ≤ 0 ∨
      n.finite.dotPlace = 1 := by
    rw [Finite.dotPlace, hexponent]
    split
    · next hplain => exact .inl ⟨rfl, hplain.1⟩
    · exact .inr rfl
  rw [Fits32] at hfits hadjusted
  rw [Finite.leftDigits, hexponent] at hplace hshift hadjusted
  refine ⟨?_, by rwa [hfinite], ?_, ?_, ?_⟩
  · omega
  · rw [hshift, Fits32]
    omega
  · rw [Finite.exponent_numeral]
    exact h.exponent
  · rw [hfinite]
    exact h.adjusted

/-! ## Texts with separators -/

theorem exists_mem_splitOnP {p : Char → Bool} {c : Char} (hc : p c = false) {text : List Char}
    (h : c ∈ text) : ∃ part ∈ text.splitOnP p, c ∈ part := by
  induction text with
  | nil => cases h
  | cons d text ih =>
      rw [List.splitOnP_cons_eq_if_modifyHead]
      rcases List.mem_cons.mp h with rfl | h
      · rw [hc, if_neg Bool.false_ne_true]
        cases hparts : text.splitOnP p with
        | nil => exact absurd hparts (List.splitOnP_ne_nil p text)
        | cons part parts => exact ⟨c :: part, List.mem_cons_self, List.mem_cons_self⟩
      · obtain ⟨part, hpart, hmem⟩ := ih h
        split
        · exact ⟨part, List.mem_cons_of_mem _ hpart, hmem⟩
        · cases hparts : text.splitOnP p with
          | nil => exact absurd hparts (List.splitOnP_ne_nil p text)
          | cons first parts =>
              rw [hparts] at hpart
              rcases List.mem_cons.mp hpart with rfl | hpart
              · exact ⟨d :: part, List.mem_cons_self, List.mem_cons_of_mem _ hmem⟩
              · exact ⟨part, List.mem_cons_of_mem _ hpart, hmem⟩

/-- The first two parts are all of them, or there is a third. -/
theorem mem_headD_or_getD {p : Char → Bool} {c : Char} (hc : p c = false) {text : List Char}
    (h : c ∈ text) : c ∈ (text.splitOnP p).headD [] ∨ (∃ part, (text.splitOnP p)[1]? = some part ∧
      c ∈ part) ∨ ((text.splitOnP p)[2]?.isSome = true) := by
  obtain ⟨part, hpart, hmem⟩ := exists_mem_splitOnP hc h
  match text.splitOnP p, hpart with
  | [first], hpart =>
      rw [List.mem_singleton.mp hpart] at hmem
      exact .inl hmem
  | [first, second], hpart =>
      rcases List.mem_cons.mp hpart with rfl | hpart
      · exact .inl hmem
      · rw [List.mem_singleton.mp hpart] at hmem
        exact .inr (.inl ⟨second, rfl, hmem⟩)
  | _ :: _ :: _ :: _, _ => exact .inr (.inr rfl)

theorem parseI32_of_separator {text : List Char} (h : '_' ∈ text) : parseI32 text = none := by
  rw [parseI32]
  cases hparse : parseI64 text with
  | none => rfl
  | some n =>
      obtain ⟨power, htext, -⟩ := exists_power (.inl (rfl : 'e' = 'e')) hparse
      obtain rfl := (List.cons.inj htext).2
      rcases List.mem_append.mp h with hmem | hmem
      · cases hsign : power.sign <;> rw [hsign] at hmem <;> exact absurd hmem (by decide)
      · exact absurd (power.isDigit _ hmem) (by decide)

/-- The formatter knows no separators. -/
theorem formatText_of_separator {text : List Char} (h : '_' ∈ text) :
    ∃ message, formatText text = .error message := by
  have htail : ∀ (c : Char) (text : List Char), c ≠ '_' → '_' ∈ text → text.head? = some c →
      '_' ∈ text.tail := by
    intro c text hc hmem hhead
    rw [← List.cons_head?_tail hhead, List.mem_cons] at hmem
    exact hmem.resolve_left (Ne.symm hc)
  have hplus : '_' ∈ if text.head? = some '+' then text.tail else text := by
    split
    · next hhead => exact htail '+' text (by decide) h hhead
    · exact h
  rw [formatText]
  dsimp only
  generalize (if text.head? = some '+' then text.tail else text) = signed at hplus
  have hunsigned :
      '_' ∈ if decide (signed.head? = some '-') = true then signed.tail else signed := by
    split
    · next hhead => exact htail '-' signed (by decide) hplus (of_decide_eq_true hhead)
    · exact hplus
  generalize (if decide (signed.head? = some '-') = true then signed.tail else signed) = unsigned
    at hunsigned
  cases hexponent : ((unsigned.splitOnP marked)[1]?.map parseI32).getD (some 0) with
  | none => exact ⟨_, rfl⟩
  | some exponent =>
      dsimp only
      split
      · exact ⟨_, rfl⟩
      · next hthird =>
          rcases mem_headD_or_getD (p := marked) rfl hunsigned with
            hmem | ⟨part, hpart, hmem⟩ | hmore
          · refine ⟨_, if_pos ?_⟩
            rcases mem_headD_or_getD (p := fun c => c = '.') rfl hmem with
              hwhole | ⟨fraction, hfraction, hmem⟩ | hmore
            · exact .inr (.inr (List.all_eq_false.mpr
                ⟨'_', List.mem_append_left _ hwhole, by decide⟩))
            · rw [hfraction]
              exact .inr (.inr (List.all_eq_false.mpr
                ⟨'_', List.mem_append_right _ hmem, by decide⟩))
            · exact .inl hmore
          · rw [hpart, Option.map_some, parseI32_of_separator hmem] at hexponent
            cases hexponent
          · exact absurd hmore hthird

theorem mem_trimText {text : List Char} {c : Char} (hc : isWhitespace c = false) (h : c ∈ text) :
    c ∈ trimText text := by
  have hdrop : ∀ text : List Char, c ∈ text → c ∈ text.dropWhile isWhitespace := by
    intro text hmem
    rw [← List.takeWhile_append_dropWhile (p := isWhitespace) (l := text), List.mem_append] at hmem
    refine hmem.resolve_left fun htake => ?_
    have hspace := List.all_eq_true.mp List.all_takeWhile c htake
    rw [hc] at hspace
    cases hspace
  rw [trimText, List.rdropWhile, List.mem_reverse]
  exact hdrop _ (List.mem_reverse.mpr (hdrop text h))

/-! ## What is printed for what is read -/

/-- What is printed for a numeral is Python's text, which is of the same decimal and printed for
itself. -/
structure Printed (input : String) (n : Numeral) : Prop where
  result : pythonDecimalString input = .ok (String.ofList n.finite.str)
  text : n.finite.numeral.text = n.finite.str
  finite : n.finite.numeral.finite = n.finite
  value : n.finite.numeral.value = n.value
  again : n.exponent ≠ -2 ^ 31 →
    pythonDecimalString (String.ofList n.finite.str) = .ok (String.ofList n.finite.str)

theorem pythonDecimalString_text {input : String} {n : Numeral} (htext : n.text = input.toList)
    (h : InRange32 n) : pythonDecimalString input = .ok (String.ofList n.finite.str) := by
  rw [pythonDecimalString, ← htext, trimText_text, formatText_inRange n h]
  rfl

theorem printed_of_inRange {input : String} {n : Numeral} (htext : n.text = input.toList)
    (h : InRange32 n) : Printed input n where
  result := pythonDecimalString_text htext h
  text := n.finite.text_numeral
  finite := n.finite.finite_numeral
  value := by rw [Finite.value_numeral, Finite.value_finite]
  again hleast := by
    have htext' : n.finite.numeral.text = (String.ofList n.finite.str).toList := by
      rw [String.toList_ofList, Finite.text_numeral]
    have hagain := pythonDecimalString_text htext' (inRange32_numeral h hleast)
    rwa [Finite.finite_numeral] at hagain

section Library

variable {lib : Library}

theorem pythonDecimalString_of_separator {input : String} (h : '_' ∈ input.toList) :
    ∃ message, pythonDecimalString input = .error message := by
  obtain ⟨message, hmessage⟩ := formatText_of_separator (mem_trimText (by decide) h)
  exact ⟨message, by rw [pythonDecimalString, hmessage]; rfl⟩

/-- A text of the grammar is printed as Python prints it where `i32` holds its lengths and
exponents.  The reader of exact decimals accepts no others but texts with separators, and these
are refused here. -/
theorem pythonDecimalString_str (hlib : lib.Correct) (hsound : lib.Sound) (input : String) :
    (∀ n : Numeral, n.text = input.toList → InRange32 n → Printed input n) ∧
      ∀ d, parseDecimalExact lib input = .ok d →
        (∃ n : Numeral, n.text = input.toList ∧ n.value = d.value) ∨
          '_' ∈ input.toList ∧ ∃ message, pythonDecimalString input = .error message := by
  refine ⟨fun n htext h => printed_of_inRange htext h, fun d hd => ?_⟩
  obtain ⟨n, hvalue, htext | ⟨-, htext⟩⟩ := value_of_parseDecimalExact hlib hsound hd
  · exact .inl ⟨n, htext, hvalue.symm⟩
  · by_cases hmem : '_' ∈ input.toList
    · exact .inr ⟨hmem, pythonDecimalString_of_separator hmem⟩
    · have hsame : unseparated input.toList = input.toList := by
        refine List.filter_eq_self.mpr fun c hc => decide_eq_true ?_
        rintro rfl
        exact hmem hc
      exact .inl ⟨n, htext.trans hsame, hvalue.symm⟩

theorem pythonDecimalString_str_tiny :
    (∀ n : Numeral, n.text = "-0.00000012".toList → InRange32 n → Printed "-0.00000012" n) ∧
      ∀ d, parseDecimalExact .documented "-0.00000012" = .ok d →
        (∃ n : Numeral, n.text = "-0.00000012".toList ∧ n.value = d.value) ∨
          '_' ∈ "-0.00000012".toList ∧
            ∃ message, pythonDecimalString "-0.00000012" = .error message :=
  pythonDecimalString_str documented_correct documented_sound _

end Library

/-! ## Accepted and not printed -/

/-- The library that lets separators stand among the digits. -/
def Library.separated : Library :=
  { Library.documented with
    fromStrExact text :=
      Library.documented.fromStrExact (String.ofList (unseparated text.toList)) }

/-- A one with zeros behind the point. -/
def oneWithZeros (zeros : ℕ) : Numeral where
  sign := .none
  front := ⟨['1'], some (List.replicate zeros '0'),
    AllDigits.append (by decide) (Scientific.allDigits_replicate zeros)⟩
  power := none
  digits_ne := List.cons_ne_nil _ _

theorem value_oneWithZeros (zeros : ℕ) : (oneWithZeros zeros).value = 1 := by
  have hnumber : number ('1' :: List.replicate zeros '0') = 10 ^ zeros := by
    rw [number_cons, List.length_replicate, ← List.append_nil (List.replicate _ _), number_zeros]
    exact Nat.mul_one _
  have hcoefficient : (oneWithZeros zeros).coefficient = (10 ^ zeros : ℕ) := by
    rw [← hnumber]
    rfl
  have hexponent : (oneWithZeros zeros).exponent = -zeros := by
    have hplaces : (oneWithZeros zeros).front.places = zeros := List.length_replicate
    rw [Numeral.exponent, hplaces]
    exact zero_sub (zeros : ℤ)
  rw [Numeral.value, hcoefficient, hexponent, zpow_neg, zpow_natCast, Int.cast_natCast,
    Nat.cast_pow]
  exact mul_inv_cancel₀ (pow_ne_zero _ (by norm_num))

/-- Separators among the digits, and more places than an `i32` counts. -/
theorem pythonDecimalString_refuses :
    ((∃ d, parseDecimalExact .separated "1_000" = .ok d ∧ d.value = 1000) ∧
        pythonDecimalString "1_000" = .error "invalid decimal") ∧
      (parseDecimalExact .documented (String.ofList (oneWithZeros (2 ^ 31)).text)).toOption.isSome ∧
        Fits32 (oneWithZeros (2 ^ 31)).exponent ∧
          pythonDecimalString (String.ofList (oneWithZeros (2 ^ 31)).text) =
            .error "decimal exponent overflow" := by
  refine ⟨⟨⟨⟨false, 1000, 0, by decide, by decide⟩, by rfl, ?_⟩, by decide⟩, ?_⟩
  · norm_num [Decimal.value, Decimal.mantissa, signed]
  · have hplaces : (oneWithZeros (2 ^ 31)).front.places = 2 ^ 31 := List.length_replicate
    have hshift : (oneWithZeros (2 ^ 31)).shift = 0 := rfl
    have hexponent : (oneWithZeros (2 ^ 31)).exponent = -2 ^ 31 := by
      rw [Numeral.exponent, hplaces, hshift]
      rfl
    generalize hn : oneWithZeros (2 ^ 31) = n at hplaces hshift hexponent
    refine ⟨?_, by rw [hexponent]; decide, ?_⟩
    · have hrange : InRange n :=
        ⟨by rw [hplaces]; decide, by rw [hshift]; decide, by rw [hexponent]; decide⟩
      have hexact := parseDecimalExact_of_inRange documented_correct documented_sound
        (String.toList_ofList (l := n.text)).symm hrange
      refine hexact.isSome_iff.mpr ⟨⟨false, 1, 0, by decide, by decide⟩, ?_⟩
      rw [← hn, value_oneWithZeros]
      norm_num [Decimal.value, Decimal.mantissa, signed]
    · have hlength : (n.front.fraction.getD []).length = 2 ^ 31 := hplaces
      have hparts := formatText_text n (by rw [hshift]; decide)
      rw [hshift, formatParts, hlength] at hparts
      rw [pythonDecimalString, String.toList_ofList, trimText_text, hparts]
      rfl

end Pollard.Rust.Exact
