import Pollard.Identity.Commitments

/-!
# Identities in Rust

JSON values as `serde_json` holds them, and the writer of the crate.
-/

namespace Pollard.Rust

open Lib

/-- The octets of a text of the source. -/
def ascii (text : String) : List ℕ := utf8Bytes text

/-- `Error` -/
inductive Error where
  | invalid (message : String)
  | integrity (message : String)
  | notFound (id : String)
deriving DecidableEq, Repr

/-- `serde_json::Value`: numbers keep their texts, and objects the order their keys were
inserted in. -/
inductive Json where
  | null
  | bool (b : Bool)
  | number (text : String)
  | string (text : String)
  | array (items : List Json)
  | object (entries : List (String × Json))

namespace Json

/-- `integer_text` -/
def integerText (text : String) : Option String :=
  let digits := if text.toList.head? = some '-' then text.toList.tail else text.toList
  if digits = [] ∨ digits.all Char.isDigit = false then none
  else if text = "-0" then some "0"
  else some text

/-- A hexadecimal digit as `serde_json` escapes a control character with it. -/
def hexDigit (n : ℕ) : ℕ := if n < 10 then 48 + n else 87 + n

/-- `format_escaped_str_contents` on one octet -/
def escapeOctet (octet : ℕ) : List ℕ :=
  match octet with
  | 8 => ascii "\\b"
  | 9 => ascii "\\t"
  | 10 => ascii "\\n"
  | 12 => ascii "\\f"
  | 13 => ascii "\\r"
  | 34 => ascii "\\\""
  | 92 => ascii "\\\\"
  | octet =>
      if octet < 32 then ascii "\\u00" ++ [hexDigit (octet / 16), hexDigit (octet % 16)]
      else [octet]

/-- `serde_json::to_writer` of a string. -/
def writeString (text : String) : List ℕ := 34 :: (utf8Bytes text).flatMap escapeOctet ++ [34]

mutual

/-- `write` of an identity value. -/
def write : Json → Except Error (List ℕ)
  | .null => .ok (ascii "null")
  | .bool b => .ok (ascii (if b then "true" else "false"))
  | .number text =>
      match integerText text with
      | none => .error (.invalid "floats are not allowed in identity payloads")
      | some integer => .ok (ascii integer)
  | .string text => .ok (writeString text)
  | .array items => do
      let items ← (writeItems items).mapM id
      return 91 :: Reading.separated 44 id items ++ [93]
  | .object entries => do
      let entries ←
        (((writeEntries entries).insertionSort fun a b => a.1 ≤ b.1).map Prod.snd).mapM id
      return 123 :: Reading.separated 44 id entries ++ [125]

def writeItems : List Json → List (Except Error (List ℕ))
  | [] => []
  | item :: items => write item :: writeItems items

/-- The entries with the octets of their keys, which they are sorted by before any is
written. -/
def writeEntries : List (String × Json) → List (List ℕ × Except Error (List ℕ))
  | [] => []
  | (key, value) :: entries =>
      (utf8Bytes key, (write value).map fun text => writeString key ++ 58 :: text) ::
        writeEntries entries

end

end Json

/-- The octets `node_id` hashes: the envelope is written around the payload. -/
def nodeIdBytes (kind : String) (parent : Option String) (attempt : ℕ) (payload : Json) :
    Except Error (List ℕ) := do
  let payload ← payload.write
  return ascii "pollard/v1\n" ++ (ascii "\x7b\"a\":" ++ ascii (toString attempt) ++
    ascii ",\"k\":" ++ Json.writeString kind ++
    ascii ",\"p\":" ++ Json.writeString (parent.getD "") ++
    ascii ",\"pl\":" ++ payload ++ [125])

/-- `node_id` -/
def nodeId (sha : List ℕ → String) (kind : String) (parent : Option String) (attempt : ℕ)
    (payload : Json) : Except Error String :=
  (nodeIdBytes kind parent attempt payload).map sha

end Pollard.Rust
