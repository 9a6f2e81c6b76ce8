import Pollard.Identity.Commitments

/-!
# Identities in the npm package

JSON values as JavaScript holds them, with strings as UTF-16 code units, and the encoder of
the package.
-/

namespace Pollard.Npm

open Lib Unicode

/-- A string of JavaScript, as its code units. -/
abbrev Units := List ℕ

instance lawfulBEq_units : LawfulBEq Units := inferInstance

/-- The code units of a text of the source. -/
def units (text : String) : Units := (text.toList.map Char.toNat).flatMap utf16

/-- A value of JavaScript.  A finite number is its exact value, `-0` is `0`, and an object has
its keys in the order of `getOwnPropertyNames`.  `foreign` stands for what is no plain JSON
value: a number that is not finite, a sparse array, an object with accessors, symbols or a
prototype. -/
inductive JsValue where
  | null
  | boolean (b : Bool)
  | number (q : ℚ)
  | string (text : Units)
  | array (items : List JsValue)
  | object (entries : List (Units × JsValue))
  | foreign

/-- The index an array index stands for, of which an object lists its keys first. -/
def arrayIndex (key : Units) : Option ℕ :=
  if key = [] ∨ key.any (fun u => u < 48 ∨ 57 < u) ∨ key.head? = some 48 ∧ key ≠ [48] then none
  else
    let index := key.foldl (fun n u => 10 * n + (u - 48)) 0
    if index < 2 ^ 32 - 1 then some index else none

/-- The order in which `getOwnPropertyNames` gives keys that were inserted in this one. -/
def ownOrder (entries : List (Units × JsValue)) : List (Units × JsValue) :=
  ((entries.filter fun e => (arrayIndex e.1).isSome).insertionSort fun a b =>
      (arrayIndex a.1).getD 0 ≤ (arrayIndex b.1).getD 0) ++
    entries.filter fun e => ¬ (arrayIndex e.1).isSome

/-- The loop of `codePointCompare` -/
def compareCodePoints : List ℕ → List ℕ → ℤ
  | a :: as, b :: bs => if a ≠ b then a - b else compareCodePoints as bs
  | as, bs => as.length - bs.length

/-- `codePointCompare` -/
def codePointCompare (a b : Units) : ℤ := compareCodePoints (codePoints a) (codePoints b)

/-- `validString`: its `TypeError`, by the message. -/
def validString (value : Units) (path : Units) : Except Units Unit :=
  if (codePoints value).all scalar then .ok () else .error (units "lone surrogate at " ++ path)

def hexDigit (n : ℕ) : ℕ := if n < 10 then 48 + n else 87 + n

/-- A code point in a string that `JSON.stringify` writes. -/
def quoteCodePoint (n : ℕ) : Units :=
  match n with
  | 8 => units "\\b"
  | 9 => units "\\t"
  | 10 => units "\\n"
  | 12 => units "\\f"
  | 13 => units "\\r"
  | 34 => units "\\\""
  | 92 => units "\\\\"
  | n =>
      if n < 32 ∨ scalar n = false then
        units "\\u" ++ [hexDigit (n / 4096), hexDigit (n / 256 % 16), hexDigit (n / 16 % 16),
          hexDigit (n % 16)]
      else utf16 n

/-- `JSON.stringify` of a string. -/
def stringify (value : Units) : Units := 34 :: (codePoints value).flatMap quoteCodePoint ++ [34]

/-- `Number.MAX_SAFE_INTEGER` -/
def maxSafeInteger : ℕ := 9007199254740991

/-- `Number.isSafeInteger` -/
def isSafeInteger (q : ℚ) : Bool := q.den = 1 ∧ q.num.natAbs ≤ maxSafeInteger

mutual

/-- `encode` with `floats` off. -/
def encode : JsValue → Units → Except Units Units
  | .null, _ => .ok (units "null")
  | .boolean b, _ => .ok (units (if b then "true" else "false"))
  | .string value, path => do
      validString value path
      return stringify value
  | .number q, path =>
      if isSafeInteger q then .ok (units (toString q.num))
      else .error (units "expected safe integer at " ++ path)
  | .array items, path => do
      let encoded ← (encodeItems items path 0).mapM id
      return 91 :: Reading.separated 44 id encoded ++ [93]
  | .object entries, path => do
      let encoded ← (((encodeEntries entries path).insertionSort fun a b =>
        codePointCompare a.1 b.1 ≤ 0).map Prod.snd).mapM id
      return 123 :: Reading.separated 44 id encoded ++ [125]
  | .foreign, path => .error (units "unsupported JSON value at " ++ path)

def encodeItems : List JsValue → Units → ℕ → List (Except Units Units)
  | [], _, _ => []
  | item :: items, path, index =>
      encode item (path ++ units s!"[{index}]") :: encodeItems items path (index + 1)

/-- The entries with their keys, which they are sorted by before any is encoded. -/
def encodeEntries : List (Units × JsValue) → Units → List (Units × Except Units Units)
  | [], _ => []
  | (key, value) :: entries, path =>
      (key, do
        validString key path
        let text ← encode value (path ++ units "." ++ key)
        return stringify key ++ units ":" ++ text) :: encodeEntries entries path

end

/-- `canonicalText` -/
def canonicalText (value : JsValue) : Except Units Units := encode value (units "$")

/-- What hashing a text as `utf8` reads: a surrogate by itself becomes U+FFFD. -/
def utf8Octets (text : Units) : List ℕ :=
  (codePoints text).flatMap fun n => utf8 (if scalar n then n else 0xFFFD)

/-- `nonnegativeInteger` -/
def nonnegativeInteger (value : ℤ) (label : Units) : Except Units Unit :=
  if isSafeInteger value ∧ 0 ≤ value then .ok ()
  else .error (label ++ units " must be a non-negative safe integer")

/-- The octets `nodeId` hashes. -/
def nodeIdBytes (kind : Units) (parent : Option Units) (attempt : ℤ) (payload : JsValue) :
    Except Units (List ℕ) := do
  nonnegativeInteger attempt (units "attempt")
  let text ← canonicalText (.object [(units "a", .number attempt), (units "k", .string kind),
    (units "p", .string (parent.getD [])), (units "pl", payload)])
  return utf8Octets (units "pollard/v1\n" ++ text)

/-- `nodeId` -/
def nodeId (sha : List ℕ → String) (kind : Units) (parent : Option Units) (attempt : ℤ)
    (payload : JsValue) : Except Units String :=
  (nodeIdBytes kind parent attempt payload).map sha

end Pollard.Npm
