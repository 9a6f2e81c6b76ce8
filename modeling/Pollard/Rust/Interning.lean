import Pollard.Identity.Parsing
import Pollard.Rust.Identity

/-!
# Interned payloads in Rust

What the SQLite store of the crate writes for a payload, and how it reads and scans it.
-/

namespace Pollard.Rust

open Lib

namespace Json

mutual

/-- `serde_json::to_writer` -/
def octets : Json → List ℕ
  | .null => ascii "null"
  | .bool b => ascii (if b then "true" else "false")
  | .number text => ascii text
  | .string text => writeString text
  | .array items => 91 :: Reading.separated 44 id (octetsItems items) ++ [93]
  | .object entries => 123 :: Reading.separated 44 id (octetsEntries entries) ++ [125]

def octetsItems : List Json → List (List ℕ)
  | [] => []
  | item :: items => octets item :: octetsItems items

def octetsEntries : List (String × Json) → List (List ℕ)
  | [] => []
  | (key, value) :: entries => (writeString key ++ 58 :: octets value) :: octetsEntries entries

end

end Json

/-- `String::from_utf8` with its error. -/
def utf8Text (octets : List ℕ) : Except Error String :=
  match fromUtf8 octets with
  | some text => .ok text
  | none => .error (.invalid "invalid utf-8 sequence")

/-- `encode` -/
def encode (value : Json) : Except Error String := utf8Text value.octets

/-- `hex64` -/
def hex64 (text : String) : Bool :=
  (utf8Bytes text).length = 64 ∧
    (utf8Bytes text).all fun b => 48 ≤ b ∧ b ≤ 57 ∨ 97 ≤ b ∧ b ≤ 102

/-- `blob_digest` -/
def blobDigest : Json → Option String
  | .object entries =>
      if entries.length ≠ 1 then none
      else
        match Assoc.lookup entries "__pollard_ref" with
        | some (.string digest) => if hex64 digest then some digest else none
        | _ => none
  | _ => none

/-- What `intern` adds to: blobs under their digests, and the texts of the paths of literals. -/
structure Notes where
  blobs : List (String × String)
  literals : List String

namespace Notes

def none : Notes := ⟨[], []⟩

def append (a b : Notes) : Notes := ⟨a.blobs ++ b.blobs, a.literals ++ b.literals⟩

end Notes

section Intern

variable (sha : List ℕ → String) (threshold : Option ℕ)

mutual

/-- `intern` -/
def intern : Json → List Json → Except Error (Json × Notes)
  | .object entries, path =>
      if (blobDigest (.object entries)).isSome then do
        let text ← encode (.array path)
        return (.object entries, ⟨[], [text]⟩)
      else do
        let interned ← internEntries entries path
        return (.object interned.1, interned.2)
  | .array items, path => do
      let interned ← internItems items path 0
      return (.array interned.1, interned.2)
  | .string text, _ =>
      if threshold.any fun n => n ≤ (utf8Bytes text).length then
        let digest := sha (utf8Bytes text)
        .ok (.object [("__pollard_ref", .string digest)], ⟨[(digest, text)], []⟩)
      else .ok (.string text, .none)
  | value, _ => .ok (value, .none)

def internEntries : List (String × Json) → List Json →
    Except Error (List (String × Json) × Notes)
  | [], _ => .ok ([], .none)
  | (key, value) :: entries, path => do
      let first ← intern value (path ++ [.string key])
      let rest ← internEntries entries path
      return ((key, first.1) :: rest.1, first.2.append rest.2)

def internItems : List Json → List Json → ℕ → Except Error (List Json × Notes)
  | [], _, _ => .ok ([], .none)
  | item :: items, path, index => do
      let first ← intern item (path ++ [.number (toString index)])
      let rest ← internItems items path (index + 1)
      return (first.1 :: rest.1, first.2.append rest.2)

end

end Intern

section Rehydrate

variable (sha : List ℕ → String) (blobs : Dict String String) (literals : List String)

/-- What `rehydrate` reads under a digest. -/
def readBlob (digest : String) : Except Error String :=
  match blobs.get? digest with
  | none => .error (.integrity s!"missing interned payload blob: {digest}")
  | some blob =>
      if sha (utf8Bytes blob) ≠ digest then
        .error (.integrity "interned payload blob digest mismatch")
      else .ok blob

mutual

/-- `SQLiteStore::rehydrate` -/
def rehydrate : Json → List Json → Except Error Json
  | .object entries, path =>
      match blobDigest (.object entries) with
      | some digest => do
          let text ← encode (.array path)
          if text ∈ literals then return .object entries
          else return .string (← readBlob sha blobs digest)
      | none => do return .object (← rehydrateEntries entries path)
  | .array items, path => do return .array (← rehydrateItems items path 0)
  | value, _ => .ok value

def rehydrateEntries : List (String × Json) → List Json → Except Error (List (String × Json))
  | [], _ => .ok []
  | (key, value) :: entries, path => do
      let value ← rehydrate value (path ++ [.string key])
      let entries ← rehydrateEntries entries path
      return (key, value) :: entries

def rehydrateItems : List Json → List Json → ℕ → Except Error (List Json)
  | [], _, _ => .ok []
  | item :: items, path, index => do
      let item ← rehydrate item (path ++ [.number (toString index)])
      let items ← rehydrateItems items path (index + 1)
      return item :: items

end

mutual

/-- `collect_references` -/
def collectReferences : Json → List Json → Except Error (List String)
  | .object entries, path =>
      match blobDigest (.object entries) with
      | some digest => do
          let text ← encode (.array path)
          return if text ∈ literals then [] else [digest]
      | none => collectEntries entries path
  | .array items, path => collectItems items path 0
  | _, _ => .ok []

def collectEntries : List (String × Json) → List Json → Except Error (List String)
  | [], _ => .ok []
  | (key, value) :: entries, path => do
      let first ← collectReferences value (path ++ [.string key])
      let rest ← collectEntries entries path
      return first ++ rest

def collectItems : List Json → List Json → ℕ → Except Error (List String)
  | [], _, _ => .ok []
  | item :: items, path, index => do
      let first ← collectReferences item (path ++ [.number (toString index)])
      let rest ← collectItems items path (index + 1)
      return first ++ rest

end

end Rehydrate

end Pollard.Rust
