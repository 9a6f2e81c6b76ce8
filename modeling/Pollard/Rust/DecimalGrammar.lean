import Pollard.Rust.ExactSums
import Pollard.Lib.Scientific

/-!
# What the reader of exact decimals accepts

A text of the grammar is taken exactly where the format has its number, as long as its exponent
and the places behind its last digit are numbers of `i64`.
-/

namespace Pollard.Rust.Exact

open Lib
open Lib.Scientific (Numeral Power Sign AllDigits strip)

/-! ## From digits and a scale on -/

theorem strip_leading (digits : List Char) :
    strip digits = ['0'] ∨ strip digits ≠ [] ∧ (strip digits).head? ≠ some '0' := by
  rw [strip]
  by_cases hnil : digits.dropWhile (fun c => decide (c = '0')) = []
  · rw [if_pos hnil]
    exact .inl rfl
  · rw [if_neg hnil]
    refine .inr ⟨hnil, fun hsome => ?_⟩
    have hnot := List.head?_dropWhile_not (fun c => decide (c = '0')) digits
    rw [hsome] at hnot
    exact absurd hnot (by decide)

theorem shrinkText_of_nonpos (digits : List Char) {scale : ℤ} (h : scale ≤ 0) :
    shrinkText digits scale = (digits, scale) := by
  cases digits with
  | nil =>
      rw [shrinkText]
      rintro c ⟨⟩
  | cons c digits =>
      by_cases hzero : c = '0'
      · subst hzero
        rw [shrinkText, if_neg (by omega)]
      · exact shrinkText_of_ne hzero _ _

/-- The digits with the zeros of a negative scale written out, unless they are zero. -/
def padded (digits : List Char) (zeros : ℕ) : List Char :=
  if strip digits = ['0'] then ['0'] else strip digits ++ List.replicate zeros '0'

theorem significant_padded {digits : List Char} (h : AllDigits digits) (zeros : ℕ) :
    Significant (padded digits zeros) 0 := by
  rw [padded]
  rcases strip_leading digits with hzero | ⟨hne, hhead⟩
  · rw [if_pos hzero]
    exact ⟨List.forall_mem_singleton.mpr rfl, .inl ⟨rfl, Nat.zero_le _⟩⟩
  · have hnot : strip digits ≠ ['0'] := fun hzero => hhead (by rw [hzero]; rfl)
    rw [if_neg hnot]
    refine ⟨((Scientific.strip_spec digits).2.2.2 h).append (Scientific.allDigits_replicate _),
      .inr ⟨List.append_ne_nil_of_left_ne_nil hne _, ?_⟩⟩
    rwa [List.head?_append_of_ne_nil _ hne]

theorem number_strip (digits : List Char) : number (strip digits) = number digits :=
  (Scientific.strip_spec digits).2.2.1

theorem number_padded (digits : List Char) (zeros : ℕ) :
    number (padded digits zeros) = number digits * 10 ^ zeros := by
  rw [padded, ← number_strip digits]
  split
  · next hzero =>
      rw [hzero]
      exact (Nat.zero_mul _).symm
  · rw [number_append, List.length_replicate, ← List.append_nil (List.replicate _ _), number_zeros]
    exact Nat.mul_comm _ _

theorem oversized_of_length {digits : List Char} (h : 29 < digits.length) :
    oversized digits = true := by
  rw [oversized, decide_eq_true h, Bool.true_or]

section Library

variable {lib : Library}

/-- The reader from the digits and the scale on that are left when the zeros are off. -/
def finishSignificant (lib : Library) (negative : Bool) (significant : List Char) (scale : ℤ) :
    Except DecimalError Decimal :=
  if (maxScale : ℤ) < scale then .error .underflow
  else
    let padded : Except DecimalError (List Char) :=
      if scale < 0 ∧ significant ≠ ['0'] then
        if 29 < significant.length + (-scale).toNat then .error .exceedsMaximumPossibleValue
        else .ok (significant ++ List.replicate (-scale).toNat '0')
      else .ok significant
    match padded with
    | .error e => .error e
    | .ok significant =>
        if oversized significant then .error .exceedsMaximumPossibleValue
        else
          let parts := pointed significant scale.toNat
          lib.fromStrExact (plain negative parts.1 parts.2)

theorem finishParse_eq (negative : Bool) (digits : List Char) (scale : ℤ) :
    finishParse lib negative digits scale =
      let shrunk := shrinkText (strip digits).reverse
        (if strip digits = ['0'] then min scale maxScale else scale)
      finishSignificant lib negative shrunk.1.reverse shrunk.2 := rfl

/-- A number with more zeros than are written. -/
theorem finishParse_zeros_isExact (hlib : lib.Correct) (negative : Bool) {digits : List Char}
    (hdigits : AllDigits digits) {zeros : ℕ} (hzeros : 0 < zeros) :
    IsExact (finishParse lib negative digits (-zeros)).toOption
      (signed negative (number digits) * 10 ^ zeros) := by
  have hvalue : (signed negative (number digits) : ℚ) * 10 ^ zeros =
      signed negative (number (padded digits zeros)) / 10 ^ 0 := by
    rw [number_padded, signed_mul_natCast, pow_zero, div_one]
    push_cast
    rfl
  have hscale : (if strip digits = ['0'] then min (-(zeros : ℤ)) maxScale else -(zeros : ℤ)) =
      -zeros := by
    split
    · exact min_eq_left (by omega)
    · rfl
  rw [hvalue, finishParse_eq, hscale, shrinkText_of_nonpos _ (by omega)]
  dsimp only
  rw [List.reverse_reverse, finishSignificant, if_neg (by omega)]
  refine finishShrunk_isExact hlib negative (significant_padded hdigits zeros) ?_
  intro kept t htext
  rw [Nat.cast_zero, shrinkText_of_nonpos _ le_rfl] at htext
  obtain ⟨hkept, ht⟩ := Prod.mk.inj htext
  obtain rfl := List.reverse_injective hkept
  obtain rfl : t = 0 := by omega
  have hplaces : (-(zeros : ℤ)).toNat = 0 := by omega
  have hadded : (- -(zeros : ℤ)).toNat = zeros := by omega
  rw [hplaces, hadded, padded]
  by_cases hzero : strip digits = ['0']
  · rw [if_pos hzero, if_neg (fun h => h.2 hzero), hzero, if_neg (by decide)]
    rfl
  · rw [if_neg hzero, if_pos ⟨by omega, hzero⟩]
    by_cases hlong : 29 < (strip digits).length + zeros
    · have hover : oversized (strip digits ++ List.replicate zeros '0') = true :=
        oversized_of_length (by rwa [List.length_append, List.length_replicate])
      rw [if_pos hlong, if_pos (.inr hover)]
      rfl
    · rw [if_neg hlong]
      dsimp only
      by_cases hover : oversized (strip digits ++ List.replicate zeros '0') = true
      · rw [if_pos hover, if_pos (.inr hover)]
        rfl
      · rw [if_neg hover, if_neg (not_or.mpr ⟨by omega, hover⟩)]

/-- Wherever the point of the digits is. -/
theorem finishParse_exponent_isExact (hlib : lib.Correct) (negative : Bool) {digits : List Char}
    (hdigits : AllDigits digits) (exponent : ℤ) :
    IsExact (finishParse lib negative digits (-exponent)).toOption
      (signed negative (number digits) * 10 ^ exponent) := by
  obtain ⟨n, rfl | rfl⟩ := Int.eq_nat_or_neg exponent
  · rcases Nat.eq_zero_or_pos n with rfl | hpos
    · have hexact := finishParse_isExact hlib negative hdigits 0
      simpa using hexact
    · rw [zpow_natCast]
      exact finishParse_zeros_isExact hlib negative hdigits hpos
  · rw [neg_neg, zpow_neg, zpow_natCast, ← div_eq_mul_inv]
    exact finishParse_isExact hlib negative hdigits n

end Library

/-! ## From the text to the digits -/

/-- A number of `i64`. -/
def Fits (n : ℤ) : Prop := -2 ^ 63 ≤ n ∧ n < 2 ^ 63

instance (n : ℤ) : Decidable (Fits n) := inferInstanceAs (Decidable (_ ∧ _))

theorem checkedI64_eq_some_iff {n m : ℤ} : checkedI64 n = some m ↔ Fits n ∧ n = m := by
  rw [checkedI64]
  split
  · next h => exact ⟨fun hsome => ⟨h, Option.some.inj hsome⟩, fun hand => congrArg some hand.2⟩
  · next h => exact ⟨fun hsome => (by cases hsome), fun hand => absurd hand.1 h⟩

theorem parseI64_power (power : Power) :
    parseI64 (power.sign.text ++ power.digits) = checkedI64 power.value := by
  have hplus := Power.head?_digits power.isDigit (c := '+') rfl
  have hminus := Power.head?_digits power.isDigit (c := '-') rfl
  have hall : power.digits.all Char.isDigit = true := List.all_eq_true.mpr power.isDigit
  have hread : ¬ (power.digits = [] ∨ power.digits.all Char.isDigit = false) := by
    rw [hall]
    exact not_or.mpr ⟨power.digits_ne, Bool.noConfusion⟩
  obtain ⟨mark, sign, digits, hmark, hdigits, hne⟩ := power
  cases sign with
  | none =>
      change parseI64 digits = _
      rw [parseI64]
      simp only [hplus, hminus, or_self, if_false]
      rw [if_neg hread]
      rfl
  | plus =>
      change parseI64 ('+' :: digits) = _
      rw [parseI64]
      simp only [List.head?_cons, List.tail_cons, or_true, if_true]
      rw [if_neg hread]
      rfl
  | minus =>
      change parseI64 ('-' :: digits) = _
      rw [parseI64]
      simp only [List.head?_cons, List.tail_cons, true_or, if_true]
      rw [if_neg hread]
      rfl

theorem exists_sign (text : List Char) : ∃ sign : Sign,
    sign.text ++ (if text.head? = some '-' ∨ text.head? = some '+' then text.tail else text) =
        text ∧
      sign.negative = decide (text.head? = some '-') := by
  by_cases hminus : text.head? = some '-'
  · rw [if_pos (.inl hminus), decide_eq_true hminus]
    exact ⟨.minus, List.cons_head?_tail hminus, rfl⟩
  · rw [decide_eq_false hminus]
    by_cases hplus : text.head? = some '+'
    · rw [if_pos (.inr hplus)]
      exact ⟨.plus, List.cons_head?_tail hplus, rfl⟩
    · rw [if_neg (not_or.mpr ⟨hminus, hplus⟩)]
      exact ⟨.none, rfl, rfl⟩

theorem exists_power {text : List Char} {mark : Char} (hmark : mark = 'e' ∨ mark = 'E') {n : ℤ}
    (h : parseI64 text = some n) :
    ∃ power : Power, power.text = mark :: text ∧ Fits power.value ∧ power.value = n := by
  have hpower : ∃ power : Power, power.text = mark :: text := by
    rw [parseI64] at h
    obtain ⟨sign, hsign, -⟩ := exists_sign text
    generalize (if text.head? = some '-' ∨ text.head? = some '+' then text.tail else text) = digits
      at h hsign
    by_cases hread : digits = [] ∨ digits.all Char.isDigit = false
    · rw [if_pos hread] at h
      cases h
    · obtain ⟨hne, hall⟩ := not_or.mp hread
      refine ⟨⟨mark, sign, digits, hmark, List.all_eq_true.mp (by simpa using hall), hne⟩, ?_⟩
      rw [Power.text, hsign]
  obtain ⟨power, htext⟩ := hpower
  obtain rfl := (List.cons.inj htext).2
  rw [parseI64_power, checkedI64_eq_some_iff] at h
  exact ⟨power, htext, h⟩

/-- Digits behind the point are counted. -/
theorem readDigits_fraction {digits : List Char} (h : AllDigits digits) (front : List Char)
    {count : ℤ} (hcount : 0 ≤ count) (hfits : count + digits.length < 2 ^ 63) :
    readDigits digits true front count = some (front ++ digits, count + digits.length) := by
  induction digits generalizing front count with
  | nil => simp [readDigits]
  | cons c digits ih =>
      rw [List.length_cons, Nat.cast_succ] at hfits ⊢
      have hnext : checkedI64 (count + 1) = some (count + 1) :=
        checkedI64_eq_some_iff.mpr ⟨⟨by omega, by omega⟩, rfl⟩
      rw [readDigits, if_pos (h c List.mem_cons_self), if_pos rfl, hnext, Option.bind_some,
        ih (fun d hd => h d (List.mem_cons_of_mem _ hd)) _ (by omega) (by omega), List.append_assoc]
      congr 2
      omega

theorem readDigits_whole {digits : List Char} (h : AllDigits digits) (rest front : List Char)
    (count : ℤ) :
    readDigits (digits ++ rest) false front count =
      readDigits rest false (front ++ digits) count := by
  induction digits generalizing front with
  | nil => rw [List.nil_append, List.append_nil]
  | cons c digits ih =>
      rw [List.cons_append, readDigits, if_pos (h c List.mem_cons_self), if_neg Bool.false_ne_true,
        ih fun d hd => h d (List.mem_cons_of_mem _ hd), List.append_assoc]
      rfl

theorem readDigits_pointed (p : Scientific.Pointed) (hfits : (p.places : ℤ) < 2 ^ 63) :
    readDigits p.text false [] 0 = some (p.digits, (p.places : ℤ)) := by
  rw [Scientific.Pointed.text, readDigits_whole p.isDigit_whole, List.nil_append]
  have hfraction := p.isDigit_fraction
  rw [Scientific.Pointed.places] at hfits ⊢
  rw [Scientific.Pointed.digits]
  cases hp : p.fraction with
  | none => simp [readDigits]
  | some fraction =>
      rw [hp, Option.getD_some] at hfraction hfits
      rw [Option.elim_some, Option.getD_some, readDigits, if_neg (by decide), if_pos ⟨rfl, rfl⟩,
        readDigits_fraction hfraction _ le_rfl (by omega), zero_add]

/-- What the loop leaves of a text that it accepts. -/
theorem exists_fraction {text front digits : List Char} {count places : ℤ}
    (h : readDigits text true front count = some (digits, places)) (hfits : Fits count) :
    AllDigits text ∧ digits = front ++ text ∧ places = count + text.length ∧ Fits places := by
  induction text generalizing front count with
  | nil =>
      obtain ⟨rfl, rfl⟩ := Prod.mk.inj (Option.some.inj h)
      exact ⟨nofun, (List.append_nil _).symm, by simp, hfits⟩
  | cons c text ih =>
      rw [readDigits] at h
      split at h
      · next hc =>
          rw [if_pos rfl] at h
          obtain ⟨next, hnext, h⟩ := Option.bind_eq_some_iff.mp h
          obtain ⟨hnextFits, rfl⟩ := checkedI64_eq_some_iff.mp hnext
          obtain ⟨htext, hdigits, hplaces, hplacesFits⟩ := ih h hnextFits
          refine ⟨List.forall_mem_cons.mpr ⟨hc, htext⟩, ?_, ?_, hplacesFits⟩
          · rw [hdigits, List.append_assoc]
            rfl
          · rw [hplaces, List.length_cons, Nat.cast_succ]
            omega
      · rw [if_neg (fun hand => Bool.noConfusion hand.2)] at h
        cases h

theorem exists_pointed {text front digits : List Char} {places : ℤ}
    (h : readDigits text false front 0 = some (digits, places)) :
    ∃ p : Scientific.Pointed, p.text = text ∧ digits = front ++ p.digits ∧ places = p.places ∧
      Fits places := by
  induction text generalizing front with
  | nil =>
      obtain ⟨rfl, rfl⟩ := Prod.mk.inj (Option.some.inj h)
      exact ⟨⟨[], none, nofun⟩, rfl, (List.append_nil _).symm, rfl, by decide⟩
  | cons c text ih =>
      rw [readDigits] at h
      split at h
      · next hc =>
          rw [if_neg Bool.false_ne_true] at h
          obtain ⟨p, htext, hdigits, hplaces, hfits⟩ := ih h
          refine ⟨⟨c :: p.whole, p.fraction, List.forall_mem_cons.mpr ⟨hc, p.isDigit⟩⟩, ?_, ?_,
            hplaces, hfits⟩
          · rw [← htext]
            rfl
          · rw [hdigits, List.append_assoc]
            rfl
      · split at h
        · next hpoint =>
            obtain ⟨rfl, -⟩ := hpoint
            obtain ⟨htext, hdigits, hplaces, hfits⟩ := exists_fraction h (by decide)
            exact ⟨⟨[], some text, htext⟩, rfl, hdigits, by rw [hplaces, zero_add]; rfl, hfits⟩
        · cases h

/-- The letters that begin an exponent. -/
def marked (c : Char) : Bool := c = 'e' || c = 'E'

theorem marked_eq_true_iff {c : Char} : marked c = true ↔ c = 'e' ∨ c = 'E' := by
  rw [marked, Bool.or_eq_true, decide_eq_true_eq, decide_eq_true_eq]

theorem unmarked_digit {c : Char} (h : c.isDigit = true) : marked c = false := by
  rw [← Bool.not_eq_true, marked_eq_true_iff]
  rintro (rfl | rfl) <;> cases h

theorem unmarked_sign (sign : Sign) : ∀ c ∈ sign.text, marked c = false := by
  have hall : sign.text.all (fun c => !marked c) = true := by cases sign <;> decide
  intro c hc
  simpa using List.all_eq_true.mp hall c hc

section Numerals

variable (n : Numeral)

/-- The numbers that the reader counts with are of `i64`. -/
structure InRange : Prop where
  places : Fits n.front.places
  shift : Fits n.shift
  exponent : Fits (-n.exponent)

theorem unmarked_front : ∀ c ∈ n.sign.text ++ n.front.text, marked c = false := by
  intro c hc
  rcases List.mem_append.mp hc with hc | hc
  · exact unmarked_sign n.sign c hc
  · rcases Scientific.Pointed.mem_text hc with hc | rfl
    · exact unmarked_digit hc
    · rfl

theorem head?_tail : ∀ c ∈ n.tail.head?, marked c = true := by
  rw [Numeral.tail]
  cases n.power with
  | none => rintro c ⟨⟩
  | some power =>
      rintro c ⟨⟩
      exact marked_eq_true_iff.mpr power.isMark

/-- A numeral is taken apart where its exponent begins. -/
theorem parts_at_mark : n.text.takeWhile (fun c => !marked c) = n.sign.text ++ n.front.text ∧
    n.text.dropWhile (fun c => !marked c) = n.tail ∧ n.text.any marked = n.power.isSome := by
  have hfront : ∀ c ∈ n.sign.text ++ n.front.text, (!marked c) = true := fun c hc => by
    rw [unmarked_front n c hc, Bool.not_false]
  have htail := head?_tail n
  rw [Numeral.text, List.takeWhile_append_of_pos hfront, List.dropWhile_append_of_pos hfront,
    List.any_append]
  have hany : (n.sign.text ++ n.front.text).any marked = false :=
    List.any_eq_false.mpr fun c hc => by simpa using hfront c hc
  rw [hany, Bool.false_or]
  cases hpower : n.power with
  | none =>
      rw [Numeral.tail, hpower]
      exact ⟨List.append_nil _, rfl, rfl⟩
  | some power =>
      rw [Numeral.tail, hpower, Option.elim_some, Power.text] at htail ⊢
      have hmark := htail power.mark rfl
      rw [List.takeWhile_cons_of_neg (by simpa using hmark),
        List.dropWhile_cons_of_neg (by simpa using hmark), List.any_cons, hmark]
      exact ⟨List.append_nil _, rfl, rfl⟩

theorem parts_at_sign :
    decide ((n.sign.text ++ n.front.text).head? = some '-') = n.sign.negative ∧
      (if (n.sign.text ++ n.front.text).head? = some '-' ∨
          (n.sign.text ++ n.front.text).head? = some '+' then
        (n.sign.text ++ n.front.text).tail else n.sign.text ++ n.front.text) = n.front.text := by
  have hminus : n.front.text.head? ≠ some '-' := by
    rw [← List.append_nil n.front.text]
    exact Scientific.Pointed.head?_text [] n.digits_ne rfl (by decide)
  have hplus : n.front.text.head? ≠ some '+' := by
    rw [← List.append_nil n.front.text]
    exact Scientific.Pointed.head?_text [] n.digits_ne rfl (by decide)
  cases n.sign with
  | none =>
      rw [Sign.text, List.nil_append, if_neg (not_or.mpr ⟨hminus, hplus⟩)]
      exact ⟨decide_eq_false hminus, rfl⟩
  | plus => exact ⟨rfl, rfl⟩
  | minus => exact ⟨rfl, rfl⟩

end Numerals

/-- The sign, the digits and the scale that the reader finds in a text. -/
def readParts (text : List Char) : Option (Bool × List Char × ℤ) :=
  (if text.any marked then parseI64 ((text.dropWhile fun c => !marked c).drop 1) else some 0).bind
    fun exponent =>
      let coefficient := text.takeWhile fun c => !marked c
      let unsigned := if coefficient.head? = some '-' ∨ coefficient.head? = some '+' then
        coefficient.tail else coefficient
      (readDigits unsigned false [] 0).bind fun read =>
        if read.1 = [] then none
        else (checkedI64 (read.2 - exponent)).map fun scale =>
          (decide (coefficient.head? = some '-'), read.1, scale)

/-- The parts are those of a numeral, which the text is. -/
theorem readParts_eq_some_iff {text : List Char} {parts : Bool × List Char × ℤ} :
    readParts text = some parts ↔ ∃ n : Numeral, n.text = text ∧ InRange n ∧
      (n.sign.negative, n.front.digits, -n.exponent) = parts := by
  constructor
  · intro h
    obtain ⟨exponent, hexponent, h⟩ := Option.bind_eq_some_iff.mp h
    obtain ⟨⟨digits, places⟩, hread, h⟩ := Option.bind_eq_some_iff.mp h
    dsimp only at h
    split at h
    · cases h
    · next hne =>
        obtain ⟨scale, hscale, rfl⟩ := Option.map_eq_some_iff.mp h
        obtain ⟨front, hfront, rfl, rfl, hplaces⟩ := exists_pointed hread
        obtain ⟨hscaleFits, rfl⟩ := checkedI64_eq_some_iff.mp hscale
        obtain ⟨power, hpower, hshiftFits, rfl⟩ : ∃ power : Option Power,
            power.elim [] Power.text = text.dropWhile (fun c => !marked c) ∧
              Fits (power.elim 0 Power.value) ∧ power.elim 0 Power.value = exponent := by
          split at hexponent
          · next hany =>
              obtain ⟨c, hc, hmark⟩ := List.any_eq_true.mp hany
              -- A letter is in the text, so the text does not end before it.
              cases hdrop : text.dropWhile (fun c => !marked c) with
              | nil =>
                  have hnone := List.dropWhile_eq_nil_iff.mp hdrop c hc
                  rw [hmark] at hnone
                  cases hnone
              | cons mark rest =>
                  have hhead := List.head?_dropWhile_not (fun c => !marked c) text
                  rw [hdrop] at hhead hexponent
                  obtain ⟨power, hpower⟩ := exists_power
                    (marked_eq_true_iff.mp (by simpa using hhead)) hexponent
                  exact ⟨some power, hpower⟩
          · next hany =>
              obtain rfl := Option.some.inj hexponent
              refine ⟨none, ?_, by decide, rfl⟩
              refine (List.dropWhile_eq_nil_iff.mpr fun c hc => ?_).symm
              rw [Bool.not_eq_true']
              exact Bool.not_eq_true _ ▸ fun hmark => hany (List.any_eq_true.mpr ⟨c, hc, hmark⟩)
        obtain ⟨sign, hsign, hnegative⟩ := exists_sign (text.takeWhile fun c => !marked c)
        refine ⟨⟨sign, front, power, hne⟩, ?_, ⟨hplaces, hshiftFits, ?_⟩, ?_⟩
        · rw [Numeral.text, hfront, hsign, Numeral.tail, hpower, List.takeWhile_append_dropWhile]
        · rwa [Numeral.exponent, neg_sub]
        · rw [hnegative, Numeral.exponent, neg_sub]
          rfl
  · rintro ⟨n, rfl, hrange, rfl⟩
    obtain ⟨hfront, htail, hany⟩ := parts_at_mark n
    obtain ⟨hnegative, hunsigned⟩ := parts_at_sign n
    have hexponent : (if n.power.isSome = true then parseI64 (n.tail.drop 1) else some 0) =
        some n.shift := by
      have hshift := hrange.shift
      rw [Numeral.tail]
      rw [Numeral.shift] at hshift ⊢
      cases hpower : n.power with
      | none => rfl
      | some power =>
          rw [hpower] at hshift
          rw [Option.elim_some, Power.text, List.drop_one, List.tail_cons, Option.isSome_some,
            if_pos rfl, parseI64_power]
          exact checkedI64_eq_some_iff.mpr ⟨hshift, rfl⟩
    have hscale : checkedI64 ((n.front.places : ℤ) - n.shift) = some (-n.exponent) := by
      have hexponentFits := hrange.exponent
      rw [Numeral.exponent, neg_sub] at hexponentFits ⊢
      exact checkedI64_eq_some_iff.mpr ⟨hexponentFits, rfl⟩
    rw [readParts, hany, htail, hfront, hexponent, Option.bind_some]
    dsimp only
    rw [hunsigned, hnegative, readDigits_pointed n.front hrange.places.2, Option.bind_some,
      if_neg n.digits_ne, hscale, Option.map_some]

section Library

variable {lib : Library}

/-- What is taken as it is. -/
def direct (lib : Library) (input : String) : Option Decimal :=
  if input.toList.any marked then none else (lib.fromStrExact input).toOption

theorem parseDecimalExact_eq (input : String) :
    parseDecimalExact lib input =
      match direct lib input with
      | some d => .ok d
      | none =>
          match readParts input.toList with
          | some parts => finishParse lib parts.1 parts.2.1 parts.2.2
          | none => .error invalid := by
  have hmarked : (fun c : Char => decide (c = 'e') || decide (c = 'E')) = marked := rfl
  have hunmarked : (fun c : Char => decide ¬ (decide (c = 'e') || decide (c = 'E')) = true) =
      fun c => !marked c := by
    funext c
    change decide ¬ marked c = true = _
    cases marked c <;> rfl
  have hdirect : (if input.toList.any marked = true then none
      else (lib.fromStrExact input).toOption) = direct lib input := rfl
  simp only [parseDecimalExact, hmarked, hunmarked, hdirect]
  cases direct lib input with
  | some d => rfl
  | none =>
      dsimp only
      rw [readParts]
      generalize (if input.toList.any marked = true then
        parseI64 ((input.toList.dropWhile fun c => !marked c).drop 1) else some 0) = exponent
      cases exponent with
      | none => rfl
      | some exponent =>
          dsimp only [Option.bind_some]
          generalize readDigits _ false [] 0 = read
          cases read with
          | none => rfl
          | some read =>
              dsimp only [Option.bind_some]
              split
              · rfl
              · cases checkedI64 (read.2 - exponent) <;> rfl

/-- What a text spells without the separators that an exact text may hold. -/
def unseparated (text : List Char) : List Char := text.filter fun c => c ≠ '_'

/-- The documented behaviour: a text is accepted for its digits around a point, which `_` may
separate, and the decimal is of their number. -/
def Library.Sound (lib : Library) : Prop := ∀ text d, lib.fromStrExact text = .ok d →
  ∃ n : Numeral, n.power = none ∧ n.text = unseparated text.toList ∧ d.value = n.value

theorem unseparated_text (n : Numeral) : unseparated n.text = n.text := by
  refine List.filter_eq_self.mpr fun c hc => decide_eq_true ?_
  rintro rfl
  exact absurd (Numeral.mem_text hc) (by decide)

theorem direct_value (hsound : lib.Sound) {input : String} {d : Decimal}
    (h : direct lib input = some d) : ∃ n : Numeral, n.power = none ∧
      n.text = unseparated input.toList ∧ d.value = n.value := by
  rw [direct] at h
  split at h
  · cases h
  · cases hread : lib.fromStrExact input with
    | error e =>
        rw [hread] at h
        cases h
    | ok d' =>
        rw [hread] at h
        obtain rfl := Option.some.inj h
        exact hsound input d' hread

theorem finishParse_numeral_isExact (hlib : lib.Correct) (n : Numeral) :
    IsExact (finishParse lib n.sign.negative n.front.digits (-n.exponent)).toOption n.value :=
  finishParse_exponent_isExact hlib n.sign.negative n.front.isDigit n.exponent

theorem parseDecimalExact_of_inRange (hlib : lib.Correct) (hsound : lib.Sound) {input : String}
    {n : Numeral} (htext : n.text = input.toList) (hrange : InRange n) :
    IsExact (parseDecimalExact lib input).toOption n.value := by
  rw [parseDecimalExact_eq]
  cases hdirect : direct lib input with
  | some d =>
      obtain ⟨m, -, hm, hvalue⟩ := direct_value hsound hdirect
      rw [← htext, unseparated_text] at hm
      obtain rfl := Numeral.eq_of_text_eq hm
      exact .ofSome rfl hvalue
  | none =>
      dsimp only
      rw [readParts_eq_some_iff.mpr ⟨n, htext, hrange, rfl⟩]
      exact finishParse_numeral_isExact hlib n

theorem parseDecimalExact_of_not_inRange {input : String} {n : Numeral}
    (htext : n.text = input.toList) (hrange : ¬ InRange n) (hpower : n.power ≠ none) :
    (parseDecimalExact lib input).toOption = none := by
  have hdirect : direct lib input = none := by
    rw [direct, ← htext, (parts_at_mark n).2.2, if_pos (Option.isSome_iff_ne_none.mpr hpower)]
  have hparts : readParts input.toList = none := by
    refine Option.eq_none_iff_forall_ne_some.mpr fun parts hparts => hrange ?_
    obtain ⟨m, hm, hmrange, -⟩ := readParts_eq_some_iff.mp hparts
    rwa [← Numeral.eq_of_text_eq (hm.trans htext.symm)]
  rw [parseDecimalExact_eq, hdirect, hparts]
  rfl

theorem value_of_parseDecimalExact (hlib : lib.Correct) (hsound : lib.Sound) {input : String}
    {d : Decimal} (h : parseDecimalExact lib input = .ok d) : ∃ n : Numeral, d.value = n.value ∧
      (n.text = input.toList ∨ n.power = none ∧ n.text = unseparated input.toList) := by
  rw [parseDecimalExact_eq] at h
  cases hdirect : direct lib input with
  | some d' =>
      rw [hdirect] at h
      obtain rfl := Except.ok.inj h
      obtain ⟨n, hpower, htext, hvalue⟩ := direct_value hsound hdirect
      exact ⟨n, hvalue, .inr ⟨hpower, htext⟩⟩
  | none =>
      rw [hdirect] at h
      dsimp only at h
      cases hparts : readParts input.toList with
      | none =>
          rw [hparts] at h
          cases h
      | some parts =>
          rw [hparts] at h
          obtain ⟨n, htext, -, rfl⟩ := readParts_eq_some_iff.mp hparts
          refine ⟨n, (finishParse_numeral_isExact hlib n).value_eq d ?_, .inl htext⟩
          exact congrArg Except.toOption h

/-- A text of the grammar is accepted exactly where its numbers are in range and the format has
the number, which is then returned.  Nothing else is, but texts with separators. -/
theorem parseDecimalExact_exact (hlib : lib.Correct) (hsound : lib.Sound) (input : String) :
    (∀ n : Numeral, n.text = input.toList → InRange n →
        IsExact (parseDecimalExact lib input).toOption n.value) ∧
      (∀ n : Numeral, n.text = input.toList → ¬ InRange n → n.power ≠ none →
        (parseDecimalExact lib input).toOption = none) ∧
      ∀ d, parseDecimalExact lib input = .ok d → ∃ n : Numeral, d.value = n.value ∧
        (n.text = input.toList ∨ n.power = none ∧ n.text = unseparated input.toList) :=
  ⟨fun _ htext hrange => parseDecimalExact_of_inRange hlib hsound htext hrange,
    fun _ htext hrange hpower => parseDecimalExact_of_not_inRange htext hrange hpower,
    fun _ h => value_of_parseDecimalExact hlib hsound h⟩

end Library

/-! ## A library that is sound -/

theorem exists_parts {text : List Char} (h : AllDigits ((text.takeWhile fun c => c ≠ '.') ++
    (text.dropWhile fun c => c ≠ '.').drop 1)) : ∃ p : Scientific.Pointed, p.text = text ∧
      p.digits = (text.takeWhile fun c => c ≠ '.') ++ (text.dropWhile fun c => c ≠ '.').drop 1 ∧
      p.places = ((text.dropWhile fun c => c ≠ '.').drop 1).length := by
  have htext := List.takeWhile_append_dropWhile (p := fun c => decide (c ≠ '.')) (l := text)
  have hhead := List.head?_dropWhile_not (fun c => decide (c ≠ '.')) text
  cases hdrop : text.dropWhile (fun c => decide (c ≠ '.')) with
  | nil =>
      rw [hdrop] at h htext
      exact ⟨⟨_, none, h⟩, htext, rfl, rfl⟩
  | cons c rest =>
      rw [hdrop] at h htext hhead
      obtain rfl : c = '.' := by simpa using hhead
      exact ⟨⟨_, some rest, h⟩, htext, rfl, rfl⟩

theorem documented_sound : Library.documented.Sound := by
  intro text d h
  obtain ⟨sign, hsign, hnegative⟩ : ∃ sign : Sign, sign.text ++
      (if decide (text.toList.head? = some '-') = true then text.toList.tail else text.toList) =
        text.toList ∧ sign.negative = decide (text.toList.head? = some '-') := by
    by_cases hminus : text.toList.head? = some '-'
    · rw [decide_eq_true hminus, if_pos rfl]
      exact ⟨.minus, List.cons_head?_tail hminus, rfl⟩
    · rw [decide_eq_false hminus, if_neg Bool.false_ne_true]
      exact ⟨.none, rfl, rfl⟩
  dsimp only [Library.documented] at h
  generalize (if decide (text.toList.head? = some '-') = true then text.toList.tail
    else text.toList) = unsigned at h hsign
  rw [ofParts] at h
  split at h
  · next hparts =>
      have hwhole := hparts.1
      have hdigits := hparts.2.1
      obtain ⟨front, hfront, hfrontDigits, hplaces⟩ := exists_parts (List.all_eq_true.mp hdigits)
      have hne : front.digits ≠ [] := by
        rw [hfrontDigits]
        exact List.append_ne_nil_of_left_ne_nil hwhole _
      let n : Numeral := ⟨sign, front, none, hne⟩
      have htext : n.text = text.toList := by
        rw [Numeral.text, Numeral.tail, Option.elim_none, List.append_nil, hfront, hsign]
      refine ⟨n, rfl, by rw [← htext, unseparated_text], ?_⟩
      obtain rfl := Except.ok.inj h
      have hexponent : n.exponent = -(front.places : ℤ) := zero_sub _
      rw [Numeral.value, hexponent, zpow_neg, zpow_natCast, ← div_eq_mul_inv, hplaces,
        Numeral.coefficient, hnegative, hfrontDigits]
      rfl
  · cases h

/-! ## Exponents that no `i64` is -/

/-- A zero with the least exponent of `i64`: the places would be one too many. -/
def farZero : Numeral where
  sign := .none
  front := ⟨['0'], none, by decide⟩
  power := some ⟨'e', .minus, "9223372036854775808".toList, .inl rfl, by decide, by decide⟩
  digits_ne := by decide

/-- The zero has a form of the format, and its text is refused. -/
theorem parseDecimalExact_farZero : farZero.text = "0e-9223372036854775808".toList ∧
    Representable farZero.value ∧
      parseDecimalExact .documented "0e-9223372036854775808" = .error invalid := by
  refine ⟨rfl, ⟨.zero, ?_⟩, ?_⟩
  · have hcoefficient : farZero.coefficient = 0 := by decide
    rw [Numeral.value, hcoefficient, value_zero, Int.cast_zero, zero_mul]
  · have hdirect : direct .documented "0e-9223372036854775808" = none := by decide
    have hparts : readParts "0e-9223372036854775808".toList = none := by decide
    rw [parseDecimalExact_eq, hdirect, hparts]

theorem parseDecimalExact_exact_padded :
    (∀ n : Numeral, n.text = "-12.50e-1".toList → InRange n →
        IsExact (parseDecimalExact .documented "-12.50e-1").toOption n.value) ∧
      (∀ n : Numeral, n.text = "-12.50e-1".toList → ¬ InRange n → n.power ≠ none →
        (parseDecimalExact .documented "-12.50e-1").toOption = none) ∧
      ∀ d, parseDecimalExact .documented "-12.50e-1" = .ok d → ∃ n : Numeral, d.value = n.value ∧
        (n.text = "-12.50e-1".toList ∨ n.power = none ∧ n.text = unseparated "-12.50e-1".toList) :=
  parseDecimalExact_exact documented_correct documented_sound _

end Pollard.Rust.Exact
