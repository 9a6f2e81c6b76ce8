import Mathlib.Algebra.Field.Rat
import Mathlib.Algebra.Order.Ring.Int
import Mathlib.Tactic.FieldSimp

/-!
# Decimal texts

A sign, digits around a point and a power of ten.  What such a text is of is a coefficient and
an exponent, and Python has one text for these.
-/

namespace Pollard.Lib.Scientific

/-- The number of a text of decimal digits. -/
def number (digits : List Char) : ℕ := Nat.ofDigitChars 10 digits 0

/-- The sign of a number apart from it. -/
def signed (negative : Bool) (n : ℕ) : ℤ := if negative then -n else n

def AllDigits (text : List Char) : Prop := ∀ c ∈ text, c.isDigit = true

theorem AllDigits.append {front back : List Char} (hfront : AllDigits front)
    (hback : AllDigits back) : AllDigits (front ++ back) := by
  intro c hc
  rcases List.mem_append.mp hc with hc | hc
  · exact hfront c hc
  · exact hback c hc

theorem allDigits_replicate (n : ℕ) : AllDigits (List.replicate n '0') := by
  intro c hc
  rw [List.eq_of_mem_replicate hc]
  rfl

theorem allDigits_toDigits (n : ℕ) : AllDigits (Nat.toDigits 10 n) := fun _ hc =>
  Nat.isDigit_of_mem_toDigits (by decide) (by decide) hc

theorem allDigits_takeWhile (text : List Char) : AllDigits (text.takeWhile Char.isDigit) :=
  List.all_eq_true.mp List.all_takeWhile

/-- What does not begin with a digit ends the digits before it. -/
theorem takeWhile_digits {digits rest : List Char} (h : AllDigits digits)
    (hrest : ∀ c ∈ rest.head?, c.isDigit = false) :
    (digits ++ rest).takeWhile Char.isDigit = digits ∧
      (digits ++ rest).dropWhile Char.isDigit = rest := by
  rw [List.takeWhile_append_of_pos h, List.dropWhile_append_of_pos h]
  cases rest with
  | nil => exact ⟨List.append_nil digits, rfl⟩
  | cons c rest =>
      have hc := hrest c rfl
      rw [List.takeWhile_cons, List.dropWhile_cons, if_neg (by simp [hc]), if_neg (by simp [hc])]
      exact ⟨List.append_nil digits, rfl⟩

/-! ## Signs -/

inductive Sign where
  | none
  | plus
  | minus
deriving DecidableEq, Repr

namespace Sign

def text : Sign → List Char
  | none => []
  | plus => ['+']
  | minus => ['-']

def negative (sign : Sign) : Bool := sign = minus

def parse : List Char → Sign × List Char
  | '+' :: rest => (plus, rest)
  | '-' :: rest => (minus, rest)
  | rest => (none, rest)

theorem text_parse (text : List Char) : (parse text).1.text ++ (parse text).2 = text := by
  unfold parse
  split <;> rfl

theorem parse_text (sign : Sign) {rest : List Char} (hplus : rest.head? ≠ some '+')
    (hminus : rest.head? ≠ some '-') : parse (sign.text ++ rest) = (sign, rest) := by
  cases sign with
  | none =>
      rw [text, List.nil_append, parse]
      · rintro rest rfl
        exact hplus rfl
      · rintro rest rfl
        exact hminus rfl
  | plus => rfl
  | minus => rfl

end Sign

/-! ## Digits around a point -/

/-- Digits with a point among them or without one. -/
structure Pointed where
  whole : List Char
  fraction : Option (List Char)
  isDigit : AllDigits (whole ++ fraction.getD [])

namespace Pointed

def digits (p : Pointed) : List Char := p.whole ++ p.fraction.getD []

def places (p : Pointed) : ℕ := (p.fraction.getD []).length

def text (p : Pointed) : List Char := p.whole ++ p.fraction.elim [] ('.' :: ·)

/-- As many digits as there are, a point behind them and the digits behind it. -/
def parse (text : List Char) : Pointed × List Char :=
  match text.dropWhile Char.isDigit with
  | '.' :: rest =>
      (⟨text.takeWhile Char.isDigit, some (rest.takeWhile Char.isDigit),
        (allDigits_takeWhile text).append (allDigits_takeWhile rest)⟩, rest.dropWhile Char.isDigit)
  | rest =>
      (⟨text.takeWhile Char.isDigit, none, (allDigits_takeWhile text).append nofun⟩, rest)

theorem ext {p q : Pointed} (hwhole : p.whole = q.whole) (hfraction : p.fraction = q.fraction) :
    p = q := by
  cases p
  cases q
  cases hwhole
  cases hfraction
  rfl

theorem isDigit_whole (p : Pointed) : AllDigits p.whole := fun c hc =>
  p.isDigit c (List.mem_append_left _ hc)

theorem isDigit_fraction (p : Pointed) : AllDigits (p.fraction.getD []) := fun c hc =>
  p.isDigit c (List.mem_append_right _ hc)

theorem text_parse (text : List Char) : (parse text).1.text ++ (parse text).2 = text := by
  unfold parse
  split
  · next rest hrest =>
      rw [Pointed.text, Option.elim_some, List.append_assoc, List.cons_append,
        List.takeWhile_append_dropWhile, ← hrest, List.takeWhile_append_dropWhile]
  · rw [Pointed.text, Option.elim_none, List.append_nil, List.takeWhile_append_dropWhile]

theorem parse_text (p : Pointed) {rest : List Char}
    (hrest : ∀ c ∈ rest.head?, c.isDigit = false ∧ c ≠ '.') :
    parse (p.text ++ rest) = (p, rest) := by
  have hend : ∀ c ∈ rest.head?, c.isDigit = false := fun c hc => (hrest c hc).1
  obtain ⟨whole, fraction, hdigits⟩ := p
  have hwhole : AllDigits whole := fun c hc => hdigits c (List.mem_append_left _ hc)
  cases fraction with
  | none =>
      obtain ⟨htake, hdrop⟩ := takeWhile_digits hwhole hend
      rw [text, Option.elim_none, List.append_nil, parse]
      split
      · next other hother =>
          rw [hdrop] at hother
          rw [hother] at hrest
          exact absurd rfl (hrest '.' rfl).2
      · rw [hdrop]
        exact Prod.ext (Pointed.ext htake rfl) rfl
  | some fraction =>
      have hfraction : AllDigits fraction := fun c hc => hdigits c (List.mem_append_right _ hc)
      obtain ⟨htake, hdrop⟩ := @takeWhile_digits whole ('.' :: (fraction ++ rest)) hwhole
        (by rintro c ⟨⟩; rfl)
      obtain ⟨htake', hdrop'⟩ := takeWhile_digits hfraction hend
      rw [text, Option.elim_some, List.append_assoc, List.cons_append, parse]
      split
      · next other hother =>
          rw [hdrop] at hother
          obtain rfl := (List.cons.inj hother).2
          rw [hdrop']
          exact Prod.ext (Pointed.ext htake (congrArg some htake')) rfl
      · next hnone => exact absurd hdrop (hnone _)

/-- Neither a sign nor anything else but a digit or a point begins the text. -/
theorem head?_text {p : Pointed} (rest : List Char) (hne : p.digits ≠ []) {c : Char}
    (hdigit : c.isDigit = false) (hpoint : c ≠ '.') : (p.text ++ rest).head? ≠ some c := by
  obtain ⟨whole, fraction, hdigits⟩ := p
  cases whole with
  | cons d whole =>
      rintro ⟨⟩
      rw [hdigits c List.mem_cons_self] at hdigit
      cases hdigit
  | nil =>
      cases fraction with
      | none => exact absurd rfl hne
      | some fraction =>
          rintro ⟨⟩
          exact hpoint rfl

theorem mem_text {p : Pointed} {c : Char} (h : c ∈ p.text) : c.isDigit = true ∨ c = '.' := by
  rcases List.mem_append.mp h with h | h
  · exact .inl (p.isDigit_whole c h)
  · cases hfraction : p.fraction with
    | none =>
        rw [hfraction] at h
        cases h
    | some fraction =>
        rw [hfraction, Option.elim_some, List.mem_cons] at h
        refine h.symm.imp_left fun hmem => p.isDigit_fraction c ?_
        rw [hfraction]
        exact hmem

end Pointed

/-! ## Powers of ten -/

/-- `e` or `E`, a sign and digits. -/
structure Power where
  mark : Char
  sign : Sign
  digits : List Char
  isMark : mark = 'e' ∨ mark = 'E'
  isDigit : AllDigits digits
  digits_ne : digits ≠ []

namespace Power

def text (p : Power) : List Char := p.mark :: (p.sign.text ++ p.digits)

/-- The written exponent. -/
def value (p : Power) : ℤ := signed p.sign.negative (number p.digits)

instance (text : List Char) : Decidable (AllDigits text) :=
  decidable_of_iff (text.all Char.isDigit = true) List.all_eq_true

def parse : List Char → Option Power
  | [] => none
  | mark :: rest =>
      if h : (mark = 'e' ∨ mark = 'E') ∧ AllDigits (Sign.parse rest).2 ∧
          (Sign.parse rest).2 ≠ [] then
        some ⟨mark, (Sign.parse rest).1, (Sign.parse rest).2, h.1, h.2.1, h.2.2⟩
      else none

theorem head?_digits {digits : List Char} (h : AllDigits digits) {c : Char}
    (hc : c.isDigit = false) : digits.head? ≠ some c := by
  cases digits with
  | nil => exact nofun
  | cons d digits =>
      rintro ⟨⟩
      rw [h c List.mem_cons_self] at hc
      cases hc

theorem parse_text (p : Power) : parse p.text = some p := by
  have hsign := Sign.parse_text p.sign (head?_digits p.isDigit (c := '+') rfl)
    (head?_digits p.isDigit (c := '-') rfl)
  rw [text, parse, dif_pos (by rw [hsign]; exact ⟨p.isMark, p.isDigit, p.digits_ne⟩)]
  simp only [hsign]

theorem text_of_parse {text : List Char} {p : Power} (h : parse text = some p) : p.text = text := by
  cases text with
  | nil => cases h
  | cons mark rest =>
      rw [parse] at h
      split at h
      · obtain rfl := Option.some.inj h
        rw [Power.text, Sign.text_parse]
      · cases h

/-- A power or nothing. -/
def parseTail (text : List Char) : Option (Option Power) :=
  if text = [] then some none else (parse text).map some

theorem parseTail_eq_some_iff {text : List Char} {power : Option Power} :
    parseTail text = some power ↔ power.elim [] Power.text = text := by
  rw [parseTail]
  constructor
  · intro h
    split at h
    · next hnil =>
        obtain rfl := Option.some.inj h
        exact hnil.symm
    · obtain ⟨p, hp, rfl⟩ := Option.map_eq_some_iff.mp h
      exact text_of_parse hp
  · rintro rfl
    cases power with
    | none => rfl
    | some p =>
        have hne : p.text ≠ [] := List.cons_ne_nil _ _
        rw [Option.elim_some, if_neg hne, parse_text, Option.map_some]

end Power

/-! ## Numerals -/

/-- A decimal text, part by part, with a digit before the exponent. -/
structure Numeral where
  sign : Sign
  front : Pointed
  power : Option Power
  digits_ne : front.digits ≠ []

namespace Numeral

def tail (n : Numeral) : List Char := n.power.elim [] Power.text

def text (n : Numeral) : List Char := n.sign.text ++ n.front.text ++ n.tail

def shift (n : Numeral) : ℤ := n.power.elim 0 Power.value

/-- The power of ten of the last digit. -/
def exponent (n : Numeral) : ℤ := n.shift - n.front.places

def coefficient (n : Numeral) : ℤ := signed n.sign.negative (number n.front.digits)

def value (n : Numeral) : ℚ := n.coefficient * 10 ^ n.exponent

def parse (text : List Char) : Option Numeral :=
  let parts := Pointed.parse (Sign.parse text).2
  if h : parts.1.digits ≠ [] then
    (Power.parseTail parts.2).map fun power => ⟨(Sign.parse text).1, parts.1, power, h⟩
  else none

theorem head?_tail (n : Numeral) : ∀ c ∈ n.tail.head?, c.isDigit = false ∧ c ≠ '.' := by
  rw [tail]
  cases n.power with
  | none => nofun
  | some power =>
      rintro c ⟨⟩
      rcases power.isMark with h | h
      · rw [h]
        decide
      · rw [h]
        decide

theorem mem_text {n : Numeral} {c : Char} (h : c ∈ n.text) :
    c.isDigit = true ∨ c ∈ ['+', '-', '.', 'e', 'E'] := by
  have hsign : ∀ sign : Sign, c ∈ sign.text → c ∈ ['+', '-', '.', 'e', 'E'] := by
    intro sign hc
    cases sign with
    | none => cases hc
    | plus =>
        obtain rfl := List.mem_singleton.mp hc
        decide
    | minus =>
        obtain rfl := List.mem_singleton.mp hc
        decide
  rcases List.mem_append.mp h with h | h
  · rcases List.mem_append.mp h with h | h
    · exact .inr (hsign _ h)
    · refine (Pointed.mem_text h).imp_right ?_
      rintro rfl
      decide
  · rw [tail] at h
    cases hpower : n.power with
    | none =>
        rw [hpower] at h
        cases h
    | some power =>
        rw [hpower, Option.elim_some, Power.text, List.mem_cons, List.mem_append] at h
        rcases h with rfl | h | h
        · rcases power.isMark with hmark | hmark <;> rw [hmark] <;> decide
        · exact .inr (hsign _ h)
        · exact .inl (power.isDigit c h)

/-- The texts of numerals are those that are parsed, and a text is of one numeral. -/
theorem parse_eq_some_iff {text : List Char} {n : Numeral} :
    parse text = some n ↔ n.text = text := by
  constructor
  · intro h
    have hsign := Sign.text_parse text
    have hfront := Pointed.text_parse (Sign.parse text).2
    rw [parse] at h
    split at h
    · obtain ⟨power, hpower, rfl⟩ := Option.map_eq_some_iff.mp h
      rw [Numeral.text, tail, Power.parseTail_eq_some_iff.mp hpower, List.append_assoc, hfront,
        hsign]
    · cases h
  · rintro rfl
    have hsign : Sign.parse n.text = (n.sign, n.front.text ++ n.tail) := by
      rw [text, List.append_assoc]
      exact Sign.parse_text n.sign (Pointed.head?_text _ n.digits_ne (by decide) (by decide))
        (Pointed.head?_text _ n.digits_ne (by decide) (by decide))
    have hfront := Pointed.parse_text n.front n.head?_tail
    have htail : Power.parseTail n.tail = some n.power := Power.parseTail_eq_some_iff.mpr rfl
    rw [parse]
    simp only [hsign, hfront, htail]
    rw [dif_pos n.digits_ne, Option.map_some]

theorem eq_of_text_eq {m n : Numeral} (h : m.text = n.text) : m = n :=
  Option.some.inj ((parse_eq_some_iff.mpr h).symm.trans (parse_eq_some_iff.mpr rfl))

end Numeral

/-! ## Coefficients -/

/-- Leading zeros off, one digit kept. -/
def strip (digits : List Char) : List Char :=
  let trimmed := digits.dropWhile fun c => c = '0'
  if trimmed = [] then ['0'] else trimmed

theorem strip_cons_zero (digits : List Char) : strip ('0' :: digits) = strip digits := rfl

theorem strip_zeros (n : ℕ) (digits : List Char) :
    strip (List.replicate n '0' ++ digits) = strip digits := by
  induction n with
  | zero => rfl
  | succ n ih => rw [List.replicate_succ, List.cons_append, strip_cons_zero, ih]

theorem strip_of_head {digits : List Char} (hne : digits ≠ []) (h : digits.head? ≠ some '0') :
    strip digits = digits := by
  cases digits with
  | nil => exact absurd rfl hne
  | cons c digits =>
      rw [List.head?_cons, ne_eq, Option.some.injEq] at h
      have hdrop : (c :: digits).dropWhile (fun c => decide (c = '0')) = c :: digits :=
        List.dropWhile_cons_of_neg (by simpa using h)
      rw [strip]
      simp only [hdrop]
      rw [if_neg hne]

theorem number_cons_zero (digits : List Char) : number ('0' :: digits) = number digits := by
  rw [number, Nat.ofDigitChars_cons]
  rfl

/-- What is stripped are zeros, and no zero leads what is left of other digits. -/
theorem strip_spec (digits : List Char) : strip (strip digits) = strip digits ∧
    strip digits ≠ [] ∧ number (strip digits) = number digits ∧
      (AllDigits digits → AllDigits (strip digits)) := by
  induction digits with
  | nil => exact ⟨rfl, List.cons_ne_nil _ _, rfl, fun _ => by decide⟩
  | cons c digits ih =>
      by_cases hzero : c = '0'
      · subst hzero
        rw [strip_cons_zero, number_cons_zero]
        obtain ⟨hstrip, hne, hnumber, hdigits⟩ := ih
        exact ⟨hstrip, hne, hnumber, fun h => hdigits fun d hd => h d (List.mem_cons_of_mem _ hd)⟩
      · have hhead : (c :: digits).head? ≠ some '0' := fun h => hzero (Option.some.inj h)
        have hstrip := strip_of_head (List.cons_ne_nil c digits) hhead
        rw [hstrip]
        exact ⟨hstrip, List.cons_ne_nil _ _, rfl, id⟩

theorem number_toDigits (n : ℕ) : number (Nat.toDigits 10 n) = n := Nat.ofDigitChars_ten_toDigits

/-! ## Python's text -/

/-- A finite `Decimal`: a sign, the text of its coefficient and the exponent of its last digit. -/
@[ext]
structure Finite where
  negative : Bool
  digits : List Char
  exponent : ℤ
  isDigit : AllDigits digits
  digits_ne : digits ≠ []
  strip_digits : strip digits = digits

/-- `Decimal(text)` -/
def Numeral.finite (n : Numeral) : Finite where
  negative := n.sign.negative
  digits := strip n.front.digits
  exponent := n.exponent
  isDigit := (strip_spec n.front.digits).2.2.2 n.front.isDigit
  digits_ne := (strip_spec n.front.digits).2.1
  strip_digits := (strip_spec n.front.digits).1

namespace Finite

def value (d : Finite) : ℚ := signed d.negative (number d.digits) * 10 ^ d.exponent

theorem value_finite (n : Numeral) : n.finite.value = n.value := by
  rw [value, Numeral.value, Numeral.coefficient, ← (strip_spec n.front.digits).2.2.1]
  rfl

/-- The digits to the left of the point. -/
def leftDigits (d : Finite) : ℤ := d.exponent + d.digits.length

/-- The digits to the left of the point that is written. -/
def dotPlace (d : Finite) : ℤ := if d.exponent ≤ 0 ∧ -6 < d.leftDigits then d.leftDigits else 1

/-- `%+d` -/
def plusD (n : ℤ) : List Char := (if n < 0 then '-' else '+') :: Nat.toDigits 10 n.natAbs

/-- `Decimal.__str__` -/
def str (d : Finite) : List Char :=
  let place := d.dotPlace
  let length : ℤ := d.digits.length
  let front :=
    if place ≤ 0 then '0' :: '.' :: (List.replicate (-place).toNat '0' ++ d.digits)
    else if length ≤ place then d.digits ++ List.replicate (place - length).toNat '0'
    else d.digits.take place.toNat ++ '.' :: d.digits.drop place.toNat
  let power := if d.leftDigits = place then [] else 'E' :: plusD (d.leftDigits - place)
  (if d.negative then ['-'] else []) ++ front ++ power

theorem length_pos (d : Finite) : 0 < d.digits.length := List.length_pos_iff.mpr d.digits_ne

theorem dotPlace_le (d : Finite) : d.dotPlace ≤ d.digits.length := by
  have hpos := d.length_pos
  rw [dotPlace, leftDigits]
  split <;> omega

def front (d : Finite) : Pointed :=
  if d.dotPlace ≤ 0 then
    ⟨['0'], some (List.replicate (-d.dotPlace).toNat '0' ++ d.digits),
      AllDigits.append (by decide) ((allDigits_replicate _).append d.isDigit)⟩
  else if (d.digits.length : ℤ) ≤ d.dotPlace then
    ⟨d.digits, none, d.isDigit.append nofun⟩
  else
    ⟨d.digits.take d.dotPlace.toNat, some (d.digits.drop d.dotPlace.toNat), by
      rw [Option.getD_some, List.take_append_drop]
      exact d.isDigit⟩

theorem strip_front (d : Finite) : strip d.front.digits = d.digits := by
  rw [front]
  split
  · exact (strip_zeros _ _).trans d.strip_digits
  split
  · rw [Pointed.digits, Option.getD_none, List.append_nil, d.strip_digits]
  · rw [Pointed.digits, Option.getD_some, List.take_append_drop, d.strip_digits]

theorem places_front (d : Finite) : (d.front.places : ℤ) = d.digits.length - d.dotPlace := by
  have hle := d.dotPlace_le
  rw [front]
  split
  · rw [Pointed.places, Option.getD_some, List.length_append, List.length_replicate]
    omega
  split
  · rw [Pointed.places, Option.getD_none, List.length_nil]
    omega
  · rw [Pointed.places, Option.getD_some, List.length_drop]
    omega

theorem front_ne (d : Finite) : d.front.digits ≠ [] := by
  rw [front]
  split
  · exact List.cons_ne_nil _ _
  split
  · rw [Pointed.digits, Option.getD_none, List.append_nil]
    exact d.digits_ne
  · rw [Pointed.digits, Option.getD_some, List.take_append_drop]
    exact d.digits_ne

/-- A power with its sign written. -/
def plusPower (n : ℤ) : Power where
  mark := 'E'
  sign := if n < 0 then .minus else .plus
  digits := Nat.toDigits 10 n.natAbs
  isMark := .inr rfl
  isDigit := allDigits_toDigits _
  digits_ne := Nat.toDigits_ne_nil

theorem text_plusPower (n : ℤ) : (plusPower n).text = 'E' :: plusD n := by
  rw [Power.text, plusPower, plusD]
  split <;> rfl

theorem value_plusPower (n : ℤ) : (plusPower n).value = n := by
  rw [Power.value, plusPower, number_toDigits]
  by_cases hneg : n < 0
  · rw [if_pos hneg]
    show -(n.natAbs : ℤ) = n
    omega
  · rw [if_neg hneg]
    show (n.natAbs : ℤ) = n
    omega

def power (d : Finite) : Option Power :=
  if d.leftDigits = d.dotPlace then none else some (plusPower (d.leftDigits - d.dotPlace))

theorem text_power (d : Finite) : d.power.elim [] Power.text =
    if d.leftDigits = d.dotPlace then [] else 'E' :: plusD (d.leftDigits - d.dotPlace) := by
  rw [power]
  split
  · rfl
  · exact text_plusPower _

theorem value_power (d : Finite) : d.power.elim 0 Power.value = d.leftDigits - d.dotPlace := by
  rw [power]
  split
  · rw [Option.elim_none]
    omega
  · exact value_plusPower _

def numeral (d : Finite) : Numeral where
  sign := if d.negative then .minus else .none
  front := d.front
  power := d.power
  digits_ne := d.front_ne

theorem text_front (d : Finite) : d.front.text =
    if d.dotPlace ≤ 0 then '0' :: '.' :: (List.replicate (-d.dotPlace).toNat '0' ++ d.digits)
    else if (d.digits.length : ℤ) ≤ d.dotPlace then
      d.digits ++ List.replicate (d.dotPlace - d.digits.length).toNat '0'
    else d.digits.take d.dotPlace.toNat ++ '.' :: d.digits.drop d.dotPlace.toNat := by
  have hle := d.dotPlace_le
  rw [front]
  split
  · rfl
  split
  · have hnone : (d.dotPlace - d.digits.length).toNat = 0 := by omega
    rw [hnone]
    rfl
  · rfl

theorem text_numeral (d : Finite) : d.numeral.text = d.str := by
  have hsign : d.numeral.sign.text = if d.negative then ['-'] else [] := by
    rw [numeral]
    cases d.negative <;> rfl
  have htail : d.numeral.tail = d.power.elim [] Power.text := rfl
  have hfront : d.numeral.front = d.front := rfl
  rw [Numeral.text, hsign, htail, hfront, text_power, text_front, str]

theorem exponent_numeral (d : Finite) : d.numeral.exponent = d.exponent := by
  have hplaces : (d.numeral.front.places : ℤ) = d.digits.length - d.dotPlace := d.places_front
  have hshift : d.numeral.shift = d.leftDigits - d.dotPlace := d.value_power
  rw [Numeral.exponent, hshift, hplaces, leftDigits]
  omega

/-- Python reads its own text as the same sign, coefficient and exponent. -/
theorem finite_numeral (d : Finite) : d.numeral.finite = d := by
  refine Finite.ext ?_ d.strip_front d.exponent_numeral
  rw [Numeral.finite, numeral]
  cases d.negative <;> rfl

theorem value_numeral (d : Finite) : d.numeral.value = d.value := by
  rw [← value_finite, finite_numeral]

end Finite

end Pollard.Lib.Scientific
