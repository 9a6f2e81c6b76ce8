import Pollard.Rust.Equality
import Pollard.Rust.Interning

/-!
# Texts of results in Rust

What the crate writes for results and metadata, and how it compares them with what it reads.
-/

namespace Pollard.Rust

open Lib Fallible

/-- What the crate takes from its libraries: SHA-256, the JSON parser, whether it reads the text of
a value (it refuses texts nested too deeply), the bits of the finite float a number spells, and the
text of a float. -/
structure Library where
  sha : List ℕ → String
  fromStr : String → Option Json
  reads : Json → Bool
  bits : String → Option ℕ
  floatText : ℕ → String

/-- The error is that a value is invalid. -/
def Error.IsInvalid : Error → Prop
  | .invalid _ => True
  | _ => False

namespace Json

mutual

def beq : Json → Json → Bool
  | .null, .null => true
  | .bool a, .bool b => a = b
  | .number a, .number b => a = b
  | .string a, .string b => a = b
  | .array as, .array bs => beqItems as bs
  | .object as, .object bs => beqEntries as bs
  | _, _ => false

def beqItems : List Json → List Json → Bool
  | [], [] => true
  | a :: as, b :: bs => beq a b && beqItems as bs
  | _, _ => false

def beqEntries : List (String × Json) → List (String × Json) → Bool
  | [], [] => true
  | (k, a) :: as, (l, b) :: bs => k = l && beq a b && beqEntries as bs
  | _, _ => false

end

mutual

theorem beq_iff : ∀ a b : Json, beq a b = true ↔ a = b
  | .null, b => by cases b <;> simp [beq]
  | .bool _, b => by cases b <;> simp [beq]
  | .number _, b => by cases b <;> simp [beq]
  | .string _, b => by cases b <;> simp [beq]
  | .array as, b => by
      cases b with
      | array bs => simp [beq, beqItems_iff as bs]
      | _ => simp [beq]
  | .object as, b => by
      cases b with
      | object bs => simp [beq, beqEntries_iff as bs]
      | _ => simp [beq]

theorem beqItems_iff : ∀ as bs : List Json, beqItems as bs = true ↔ as = bs
  | [], bs => by cases bs <;> simp [beqItems]
  | a :: as, bs => by
      cases bs with
      | nil => simp [beqItems]
      | cons b bs => simp [beqItems, beq_iff a b, beqItems_iff as bs]

theorem beqEntries_iff :
    ∀ as bs : List (String × Json), beqEntries as bs = true ↔ as = bs
  | [], bs => by cases bs <;> simp [beqEntries]
  | (k, a) :: as, bs => by
      cases bs with
      | nil => simp [beqEntries]
      | cons b bs =>
          obtain ⟨l, b⟩ := b
          simp [beqEntries, beq_iff a b, beqEntries_iff as bs, and_assoc]

end

instance : DecidableEq Json := fun a b => decidable_of_iff _ (beq_iff a b)

def isObject : Json → Bool
  | .object _ => true
  | _ => false

def asStr : Json → Option String
  | .string text => some text
  | _ => none

def asArray : Json → Option (List Json)
  | .array items => some items
  | _ => none

def get? : Json → String → Option Json
  | .object entries, key => Assoc.lookup entries key
  | _, _ => none

/-- `value[key] = new`, and `insert` in a map. -/
def insert (value : Json) (key : String) (new : Json) : Json :=
  match value with
  | .object entries => .object (Assoc.upsert entries key new)
  | value => value

/-- `extend` of a map. -/
def extend (value : Json) (patch : List (String × Json)) : Json :=
  patch.foldl (fun value e => value.insert e.1 e.2) value

def ofOption : Option String → Json
  | none => .null
  | some text => .string text

mutual

/-- `float_path` -/
def floatPath : Json → String → Option String
  | .number text, path => if (integerText text).isNone then some path else none
  | .array items, path => floatPathItems items path 0
  | .object entries, path => floatPathEntries entries path
  | _, _ => none

def floatPathItems : List Json → String → ℕ → Option String
  | [], _, _ => none
  | item :: items, path, i =>
      (floatPath item s!"{path}[{i}]").orElse fun _ => floatPathItems items path (i + 1)

def floatPathEntries : List (String × Json) → String → Option String
  | [], _ => none
  | (key, value) :: entries, path =>
      (floatPath value s!"{path}.{key}").orElse fun _ => floatPathEntries entries path

end

/-- `canonical_bytes` -/
def canonicalBytes (value : Json) : Except Error (List ℕ) :=
  match value.write with
  | .ok octets => .ok octets
  | .error error =>
      match value.floatPath "$" with
      | some path => .error (.invalid s!"floats are not allowed in identity payloads at {path}")
      | none => .error error

section Library

variable (lib : Library)

mutual

/-- The value that `write` spells for a result: sorted, its numbers as Python writes them. -/
def spelled : Json → Except Error Json
  | .number text =>
      match integerText text with
      | some integer => .ok (.number integer)
      | none =>
          match lib.bits text with
          | some bits => .ok (.number (lib.floatText bits))
          | none => .error (.invalid "result float must be finite")
  | .array items => do return .array (← (spelledItems items).mapM id)
  | .object entries => do
      let sorted := (spelledEntries entries).insertionSort fun a b => a.1 ≤ b.1
      return .object (← sorted.mapM fun e => e.2.map (e.1, ·))
  | value => .ok value

def spelledItems : List Json → List (Except Error Json)
  | [] => []
  | item :: items => spelled item :: spelledItems items

def spelledEntries : List (String × Json) → List (String × Except Error Json)
  | [] => []
  | (key, value) :: entries => (key, spelled value) :: spelledEntries entries

end

/-- The text of `result_text_and_digest`. -/
def resultText (value : Json) : Except Error String := (value.spelled lib).bind encode

/-- `result_digest_from_text` -/
def resultDigestFromText (text : String) : String :=
  lib.sha (ascii "pollard/v1:result\n" ++ utf8Bytes text)

/-- How `result_values_equal` compares numbers: integers and floats apart. -/
def sameNumber (a b : String) : Bool :=
  match integerText a, integerText b with
  | some a, some b => a = b
  | none, none =>
      match lib.bits a, lib.bits b with
      | some a, some b => a = b
      | _, _ => false
  | _, _ => false

/-- `result_values_equal` -/
def resultValuesEqual (a b : Json) : Bool := equalWith (sameNumber lib) a b

mutual

/-- `validate_finite_json` -/
def validateFiniteJson : Json → Except Error Unit
  | .number text =>
      if (integerText text).isNone ∧ (lib.bits text).isNone then
        .error (.invalid "JSON floating values must be finite")
      else .ok ()
  | .array items => validateFiniteItems items
  | .object entries => validateFiniteEntries entries
  | _ => .ok ()

def validateFiniteItems : List Json → Except Error Unit
  | [] => .ok ()
  | item :: items => do
      validateFiniteJson item
      validateFiniteItems items

def validateFiniteEntries : List (String × Json) → Except Error Unit
  | [] => .ok ()
  | (_, value) :: entries => do
      validateFiniteJson value
      validateFiniteEntries entries

end

end Library

/-! ## Errors of texts -/

theorem write_fails_entries (entries : List (String × Json))
    (h : ∀ e ∈ writeEntries entries, FailsWith Error.IsInvalid e.2) :
    FailsWith Error.IsInvalid (Json.object entries).write := by
  rw [write]
  refine .bind (.mapM fun text htext => ?_) fun _ => .ok _
  obtain ⟨e, he, rfl⟩ := List.mem_map.mp htext
  exact h e ((List.mem_insertionSort _).mp he)

mutual

/-- All that writing an identity value raises is that a value is invalid. -/
theorem write_fails : ∀ value : Json, FailsWith Error.IsInvalid value.write
  | .null | .bool _ | .string _ => .ok _
  | .number text => by
      rw [write]
      split
      · exact .error trivial
      · exact .ok _
  | .array items => by
      rw [write]
      exact .bind (.mapM (writeItems_fails items)) fun _ => .ok _
  | .object entries => write_fails_entries entries (writeEntries_fails entries)

theorem writeItems_fails : ∀ items : List Json,
    ∀ text ∈ writeItems items, FailsWith Error.IsInvalid text
  | [] => nofun
  | item :: items => List.forall_mem_cons.mpr ⟨write_fails item, writeItems_fails items⟩

theorem writeEntries_fails : ∀ entries : List (String × Json),
    ∀ e ∈ writeEntries entries, FailsWith Error.IsInvalid e.2
  | [] => nofun
  | (_, value) :: entries =>
      List.forall_mem_cons.mpr ⟨(write_fails value).map, writeEntries_fails entries⟩

end

theorem canonicalBytes_fails (value : Json) : FailsWith Error.IsInvalid value.canonicalBytes := by
  unfold canonicalBytes
  split
  · exact .ok _
  · next error heq =>
      split
      · exact .error trivial
      · exact .error (write_fails value error heq)

mutual

theorem spelled_fails (lib : Library) : ∀ value : Json, FailsWith Error.IsInvalid (value.spelled lib)
  | .null | .bool _ | .string _ => .ok _
  | .number text => by
      rw [spelled]
      split
      · exact .ok _
      · split
        · exact .ok _
        · exact .error trivial
  | .array items => by
      rw [spelled]
      exact .bind (.mapM (spelledItems_fails lib items)) fun _ => .ok _
  | .object entries => by
      rw [spelled]
      exact .bind (.mapM fun e he =>
        (spelledEntries_fails lib entries e ((List.mem_insertionSort _).mp he)).map) fun _ => .ok _

theorem spelledItems_fails (lib : Library) : ∀ items : List Json,
    ∀ item ∈ spelledItems lib items, FailsWith Error.IsInvalid item
  | [] => nofun
  | item :: items => List.forall_mem_cons.mpr ⟨spelled_fails lib item, spelledItems_fails lib items⟩

theorem spelledEntries_fails (lib : Library) : ∀ entries : List (String × Json),
    ∀ e ∈ spelledEntries lib entries, FailsWith Error.IsInvalid e.2
  | [] => nofun
  | (_, value) :: entries =>
      List.forall_mem_cons.mpr ⟨spelled_fails lib value, spelledEntries_fails lib entries⟩

end

theorem encode_fails (value : Json) : FailsWith Error.IsInvalid (encode value) := by
  unfold encode utf8Text
  split
  · exact .ok _
  · exact .error trivial

theorem resultText_fails (lib : Library) (value : Json) :
    FailsWith Error.IsInvalid (value.resultText lib) :=
  .bind (spelled_fails lib value) encode_fails

theorem canonicalBytes_ok_iff {value : Json} {octets : List ℕ} :
    value.canonicalBytes = .ok octets ↔ value.write = .ok octets := by
  unfold canonicalBytes
  split
  · next heq => rw [heq]
  · next error heq =>
      rw [heq]
      split <;> simp

end Json

end Pollard.Rust
