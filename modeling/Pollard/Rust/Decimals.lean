import Pollard.Lib.Digits
import Mathlib.Data.Rat.Defs
import Mathlib.Tactic.FieldSimp
import Mathlib.Tactic.IntervalCases

/-!
# Exact decimals in Rust

Sums, differences and costs of `Decimal`s, by `i128` where the aligned coefficients fit and
digit by digit where they do not.  A result is exact or it is refused, and it is refused only
if the format has no form of it.
-/

namespace Pollard.Rust.Exact

open Lib

/-! ## The format -/

/-- The largest coefficient of 96 bits. -/
def maxCoefficient : ℕ := 79228162514264337593543950335

/-- `Decimal::MAX_SCALE` -/
def maxScale : ℕ := 28

/-- The sign of a number apart from it. -/
def signed (negative : Bool) (n : ℕ) : ℤ := if negative then -n else n

structure Decimal where
  negative : Bool
  coefficient : ℕ
  scale : ℕ
  coefficient_le : coefficient ≤ maxCoefficient
  scale_le : scale ≤ maxScale
deriving DecidableEq

namespace Decimal

/-- `mantissa` -/
def mantissa (d : Decimal) : ℤ := signed d.negative d.coefficient

def value (d : Decimal) : ℚ := d.mantissa / 10 ^ d.scale

/-- `-d` -/
def neg (d : Decimal) : Decimal := { d with negative := !d.negative }

def zero : Decimal := ⟨false, 0, 0, by decide, by decide⟩

/-- `Decimal::from` of a `u64`. -/
def ofCount (count : UInt64) : Decimal :=
  ⟨false, count.toNat, 0, by
    have hlt := count.toNat_lt
    rw [maxCoefficient]
    omega, by decide⟩

end Decimal

/-- A number that some decimal is of. -/
def Representable (q : ℚ) : Prop := ∃ d : Decimal, d.value = q

/-- `rust_decimal::Error`, as far as the crate makes one. -/
inductive DecimalError where
  | message (text : String)
  | underflow
  | exceedsMaximumPossibleValue
deriving DecidableEq

/-- What the crate calls of `rust_decimal` beside the parts of a decimal. -/
structure Library where
  fromStrExact : String → Except DecimalError Decimal
  tryFromI128WithScale : ℤ → ℕ → Option Decimal
  normalize : Decimal → Decimal
  rescale : Decimal → ℕ → Decimal

/-- A decimal in plain notation. -/
def plain (negative : Bool) (whole fraction : List Char) : String :=
  String.ofList ((if negative then ['-'] else []) ++ whole ++
    if fraction = [] then [] else '.' :: fraction)

/-- The number of a text of decimal digits. -/
def number (digits : List Char) : ℕ := Nat.ofDigitChars 10 digits 0

/-- The documented behaviour: a decimal is built exactly where it fits, and neither
`normalize` nor `rescale` to a greater scale changes what it is of. -/
structure Library.Correct (lib : Library) : Prop where
  fromStrExact : ∀ negative whole fraction, whole = ['0'] ∨ whole ≠ [] ∧ whole.head? ≠ some '0' →
    (whole ++ fraction).all Char.isDigit = true → fraction.length ≤ maxScale →
    number (whole ++ fraction) ≤ maxCoefficient →
    ∃ d, lib.fromStrExact (plain negative whole fraction) = .ok d ∧
      d.value = signed negative (number (whole ++ fraction)) / 10 ^ fraction.length
  tryFromI128WithScale : ∀ n s, if n.natAbs ≤ maxCoefficient ∧ s ≤ maxScale then
    ∃ d, lib.tryFromI128WithScale n s = some d ∧ d.value = n / 10 ^ s
    else lib.tryFromI128WithScale n s = none
  normalize : ∀ d, (lib.normalize d).value = d.value
  rescale : ∀ d s, d.scale ≤ s → s ≤ maxScale → (lib.rescale d s).value = d.value

/-! ## Reading -/

def invalid : DecimalError := .message "invalid exact decimal notation"

/-- The range of `i64`. -/
def checkedI64 (n : ℤ) : Option ℤ := if -2 ^ 63 ≤ n ∧ n < 2 ^ 63 then some n else none

/-- `str::parse::<i64>` -/
def parseI64 (text : List Char) : Option ℤ :=
  let negative := text.head? = some '-'
  let digits := if text.head? = some '-' ∨ text.head? = some '+' then text.tail else text
  if digits = [] ∨ digits.all Char.isDigit = false then none
  else checkedI64 (if negative then -number digits else number digits)

/-- The loop over the bytes of a coefficient: its digits, and how many are behind the point. -/
def readDigits : List Char → Bool → List Char → ℤ → Option (List Char × ℤ)
  | [], _, digits, fractional => some (digits, fractional)
  | c :: cs, point, digits, fractional =>
      if c.isDigit then
        if point then (checkedI64 (fractional + 1)).bind (readDigits cs point (digits ++ [c]))
        else readDigits cs point (digits ++ [c]) fractional
      else if c = '.' ∧ point = false then readDigits cs true digits fractional
      else none

/-- `oversized` -/
def oversized (digits : List Char) : Bool :=
  29 < digits.length ||
    (digits.length = 29 && decide ("79228162514264337593543950335".toList < digits))

/-- Redundant zeros off the end, which is first here. -/
def shrinkText : List Char → ℤ → List Char × ℤ
  | '0' :: rest, scale =>
      if 0 < scale ∧ ((maxScale : ℤ) < scale ∨ oversized ('0' :: rest).reverse = true) then
        shrinkText rest (scale - 1)
      else ('0' :: rest, scale)
  | digits, scale => (digits, scale)

/-- The digits before and behind the point. -/
def pointed (significant : List Char) (scale : ℕ) : List Char × List Char :=
  if scale = 0 then (significant, [])
  else if significant.length ≤ scale then
    (['0'], List.replicate (scale - significant.length) '0' ++ significant)
  else (significant.take (significant.length - scale),
    significant.drop (significant.length - scale))

section Parsing

variable (lib : Library)

/-- `parse_decimal_exact`, from the digits and the scale on. -/
def finishParse (negative : Bool) (digits : List Char) (scale : ℤ) :
    Except DecimalError Decimal :=
  let trimmed := digits.dropWhile fun c => c = '0'
  let significant := if trimmed = [] then ['0'] else trimmed
  let scale := if significant = ['0'] then min scale maxScale else scale
  let shrunk := shrinkText significant.reverse scale
  let significant := shrunk.1.reverse
  let scale := shrunk.2
  if (maxScale : ℤ) < scale then .error .underflow
  else
    let padded : Except DecimalError (List Char) :=
      if scale < 0 ∧ significant ≠ ['0'] then
        if 29 < significant.length + (-scale).toNat then .error .exceedsMaximumPossibleValue
        else .ok (significant ++ List.replicate (-scale).toNat '0')
      else .ok significant
    match padded with
    | .error e => .error e
    | .ok significant =>
        if oversized significant then .error .exceedsMaximumPossibleValue
        else
          let parts := pointed significant scale.toNat
          lib.fromStrExact (plain negative parts.1 parts.2)

/-- `parse_decimal_exact` -/
def parseDecimalExact (input : String) : Except DecimalError Decimal :=
  let text := input.toList
  let marked := fun c => c = 'e' || c = 'E'
  let direct := if text.any marked then none else (lib.fromStrExact input).toOption
  match direct with
  | some d => .ok d
  | none =>
      let coefficient := text.takeWhile fun c => ¬ marked c
      let exponent := if text.any marked then
        parseI64 ((text.dropWhile fun c => ¬ marked c).drop 1) else some 0
      match exponent with
      | none => .error invalid
      | some exponent =>
          let negative := coefficient.head? = some '-'
          let unsigned := if coefficient.head? = some '-' ∨ coefficient.head? = some '+' then
            coefficient.tail else coefficient
          match readDigits unsigned false [] 0 with
          | none => .error invalid
          | some (digits, fractional) =>
              if digits = [] then .error invalid
              else
                match checkedI64 (fractional - exponent) with
                | none => .error invalid
                | some scale => finishParse lib negative digits scale

end Parsing

/-! ## Digit by digit -/

/-- Least significant digit first. -/
structure Wide where
  digits : List ℕ
  negative : Bool
  scale : ℕ

namespace Wide

/-- `from_decimal` -/
def ofDecimal (d : Decimal) : Wide where
  digits := (toString d.coefficient).toList.reverse.map fun c => c.toNat - 48
  negative := d.negative
  scale := d.scale

def trim (w : Wide) : Wide :=
  let digits := Digits.trim w.digits
  { w with digits, negative := if digits = [0] then false else w.negative }

def align (w : Wide) (scale : ℕ) : Wide :=
  if w.scale < scale then
    { w with digits := List.replicate (scale - w.scale) 0 ++ w.digits, scale }
  else w

def add (left right : Wide) : Wide :=
  let scale := max left.scale right.scale
  let left := (left.align scale).trim
  let right := (right.align scale).trim
  if left.negative = right.negative then
    trim { left with digits := Digits.add 10 left.digits right.digits }
  else if Digits.less left.digits right.digits then
    trim { right with digits := (Digits.subFrom 10 right.digits left.digits 0).1 }
  else trim { left with digits := (Digits.subFrom 10 left.digits right.digits 0).1 }

def multiply (left right : Wide) : Wide :=
  trim ⟨Digits.multiply 10 left.digits right.digits, left.negative ≠ right.negative,
    left.scale + right.scale⟩

/-- The text `finish` reads. -/
def text (w : Wide) : String :=
  String.ofList ((if w.negative then ['-'] else []) ++
    (w.digits.reverse.map fun n => Char.ofNat (48 + n)) ++ "e-".toList ++
      (toString w.scale).toList)

def finish (lib : Library) (w : Wide) : Option Decimal := (parseDecimalExact lib w.text).toOption

end Wide

/-! ## Exact arithmetic -/

/-- The range of `i128`. -/
def checked (n : ℤ) : Option ℤ := if -2 ^ 127 ≤ n ∧ n < 2 ^ 127 then some n else none

/-- The loop of `from_coefficient`. -/
def shrinkCoefficient : ℤ → ℕ → ℤ × ℕ
  | coefficient, 0 => (coefficient, 0)
  | coefficient, scale + 1 =>
      if (maxCoefficient < coefficient.natAbs ∨ maxScale < scale + 1) ∧
          coefficient.tmod 10 = 0 then
        shrinkCoefficient (coefficient.tdiv 10) scale
      else (coefficient, scale + 1)

section Arithmetic

variable (lib : Library)

/-- `from_coefficient` -/
def fromCoefficient (coefficient : ℤ) (scale : ℕ) : Option Decimal :=
  let shrunk := shrinkCoefficient coefficient scale
  lib.tryFromI128WithScale shrunk.1 shrunk.2

/-- The sum of the aligned coefficients, if `i128` holds it. -/
def narrowSum (left right : Decimal) : Option ℤ :=
  let scale := max left.scale right.scale
  let aligned := fun d : Decimal => checked (d.mantissa * 10 ^ (scale - d.scale))
  (aligned left).bind fun a => (aligned right).bind fun b => checked (a + b)

/-- `exact_add` -/
def exactAdd (left right : Decimal) : Option Decimal :=
  match narrowSum left right with
  | some sum => fromCoefficient lib sum (max left.scale right.scale)
  | none => ((Wide.ofDecimal left).add (Wide.ofDecimal right)).finish lib

/-- `exact_subtract` -/
def exactSubtract (left right : Decimal) : Option Decimal := exactAdd lib left right.neg

/-- The scale of the rates. -/
def rateScale (terms : List (UInt64 × Decimal)) : ℕ :=
  (terms.map fun term => term.2.scale).foldl max 0

/-- The sum of the terms over the common scale, if `i128` holds it. -/
def narrowCost (scale : ℕ) : List (UInt64 × Decimal) → ℤ → Option ℤ
  | [], sum => some sum
  | (count, rate) :: terms, sum =>
      (checked (rate.mantissa * count.toNat)).bind fun value =>
        (checked (value * 10 ^ (scale - rate.scale))).bind fun value =>
          (checked (sum + value)).bind (narrowCost scale terms)

def wideCost : List (UInt64 × Decimal) → Wide → Wide
  | [], total => total
  | (count, rate) :: terms, total =>
      wideCost terms (total.add ((Wide.ofDecimal (.ofCount count)).multiply (Wide.ofDecimal rate)))

def retainScale (scale : ℕ) (d : Decimal) : Decimal :=
  let d := lib.normalize d
  lib.rescale d (max d.scale scale)

/-- `cost_per_million` -/
def costPerMillion (terms : List (UInt64 × Decimal)) : Option Decimal :=
  let scale := rateScale terms
  match narrowCost scale terms 0 with
  | some coefficient => (fromCoefficient lib coefficient (scale + 6)).map (retainScale lib scale)
  | none =>
      let total := wideCost terms (Wide.ofDecimal .zero)
      ({ total with scale := total.scale + 6 } : Wide).finish lib |>.map (retainScale lib scale)

end Arithmetic

end Pollard.Rust.Exact
