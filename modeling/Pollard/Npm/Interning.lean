import Pollard.Identity.Parsing
import Pollard.Npm.Identity

/-!
# Interned payloads in the npm package

What the SQLite store of the package writes for a payload, and how it reads and scans it.
-/

namespace Pollard.Npm

open Lib Unicode

/-- The errors of the package, by their classes. -/
inductive Error where
  | typeError (message : Units)
  | integrityError (message : String)
  | missingNode (id : String)
deriving DecidableEq, Repr

/-- The text that is stored for a string; a surrogate by itself has none of its own. -/
def text (value : Units) : String :=
  String.ofList ((codePoints value).map fun n => Char.ofNat (if scalar n then n else 0xFFFD))

/-- `sha256` -/
def sha256 (sha : List ℕ → String) (value : Units) : Units := units (sha (utf8Octets value))

/-- An object of entries that are inserted in this order, as `Object.fromEntries` makes it. -/
def fromEntries (entries : List (Units × JsValue)) : JsValue := .object (ownOrder entries)

/-- The pattern of a digest. -/
def isDigest (value : Units) : Bool :=
  value.length = 64 ∧ value.all fun u => 97 ≤ u ∧ u ≤ 102 ∨ 48 ≤ u ∧ u ≤ 57

/-- `blobDigest` -/
def blobDigest : JsValue → Option Units
  | .object entries =>
      if entries.length ≠ 1 then none
      else
        match Assoc.lookup entries (units "__pollard_ref") with
        | some (.string digest) => if isDigest digest then some digest else none
        | _ => none
  | _ => none

/-- A key of an object, or an index of an array. -/
inductive PathItem where
  | key (name : Units)
  | index (i : ℕ)
deriving DecidableEq

/-- `JSON.stringify` of an item of a path. -/
def PathItem.stringify : PathItem → Units
  | .key name => Npm.stringify name
  | .index i => units (toString i)

/-- `pathText` -/
def pathText (path : List PathItem) : Units :=
  91 :: Reading.separated 44 PathItem.stringify path ++ [93]

section Map

variable {ι : Type} (visit : JsValue → List PathItem → Except Error (Option JsValue × List ι))

mutual

/-- `mapPayload`: the value, and what the visits note. -/
def mapPayload : JsValue → List PathItem → Except Error (JsValue × List ι)
  | .array items, path =>
      (visit (.array items) path).bind fun mapped =>
        match mapped.1 with
        | some value => .ok (value, mapped.2)
        | none => (mapItems items path 0).map fun items => (.array items.1, mapped.2 ++ items.2)
  | .object entries, path =>
      (visit (.object entries) path).bind fun mapped =>
        match mapped.1 with
        | some value => .ok (value, mapped.2)
        | none => (mapEntries entries path).map fun entries =>
            (fromEntries entries.1, mapped.2 ++ entries.2)
  | value, path =>
      (visit value path).map fun mapped => (mapped.1.getD value, mapped.2)

def mapItems : List JsValue → List PathItem → ℕ → Except Error (List JsValue × List ι)
  | [], _, _ => .ok ([], [])
  | item :: items, path, i =>
      (mapPayload item (path ++ [.index i])).bind fun first =>
        (mapItems items path (i + 1)).map fun rest => (first.1 :: rest.1, first.2 ++ rest.2)

def mapEntries : List (Units × JsValue) → List PathItem →
    Except Error (List (Units × JsValue) × List ι)
  | [], _ => .ok ([], [])
  | (key, value) :: entries, path =>
      (mapPayload value (path ++ [.key key])).bind fun first =>
        (mapEntries entries path).map fun rest => ((key, first.1) :: rest.1, first.2 ++ rest.2)

end

end Map

/-- What a visit of `put` adds: a blob under its digest, or the path of a literal.  The blobs
are inserted in this order, in the transaction of the visit. -/
inductive Note where
  | blob (digest value : Units)
  | literal (path : Units)
deriving DecidableEq

section Visits

variable (sha : List ℕ → String)

/-- The visit of `put`. -/
def intern (internPayloads : Bool) (internThreshold : ℕ) (value : JsValue)
    (path : List PathItem) : Except Error (Option JsValue × List Note) :=
  if (blobDigest value).isSome then .ok (some value, [.literal (pathText path)])
  else
    match value with
    | .string value =>
        if internPayloads ∧ internThreshold ≤ (utf8Octets value).length then
          let digest := sha256 sha value
          .ok (some (.object [(units "__pollard_ref", .string digest)]), [.blob digest value])
        else .ok (none, [])
    | _ => .ok (none, [])

variable (blobs : Dict String String) (literals : List String)

/-- The visit of `get`. -/
def rehydrate (value : JsValue) (path : List PathItem) :
    Except Error (Option JsValue × List Empty) :=
  match blobDigest value with
  | some digest =>
      if pathText path ∈ literals.map units then .ok (some value, [])
      else
        match blobs.get? (text digest) with
        | some blob =>
            if sha256 sha (units blob) ≠ digest then
              .error (.integrityError
                s!"missing or corrupt interned payload blob: {text digest}")
            else .ok (some (.string (units blob)), [])
        | none =>
            .error (.integrityError s!"missing or corrupt interned payload blob: {text digest}")
  | none => .ok (none, [])

/-- The visit of `compact`: the digests in use. -/
def references (value : JsValue) (path : List PathItem) :
    Except Error (Option JsValue × List Units) :=
  match blobDigest value with
  | some digest =>
      .ok (some value, if pathText path ∈ literals.map units then [] else [digest])
  | none => .ok (none, [])

end Visits

end Pollard.Npm
