import Mathlib.Logic.Relation
import Pollard.Lib.Fallible
import Pollard.Lib.Levels
import Pollard.Tree

/-!
# Local references in schemas

A schema's local references are expanded in place.  The expansion goes from a reference to its
target and on from there, so it is no recursion on the schema: what bounds it is that a pointer
in progress is refused, and that a schema has only so many.
-/

namespace Pollard.References

open Lib

/-! ## Pointers -/

/-- A percent escape without two hexadecimal digits. -/
def badEscape : List Char → Bool
  | [] => false
  | '%' :: a :: b :: rest => !(a.isHexDigit && b.isHexDigit) || badEscape (a :: b :: rest)
  | '%' :: _ => true
  | _ :: rest => badEscape rest

def hexValue (c : Char) : ℕ :=
  if c.isDigit then c.toNat - '0'.toNat
  else if c.toNat < 'a'.toNat then c.toNat - 'A'.toNat + 10
  else c.toNat - 'a'.toNat + 10

/-- `unquote_to_bytes`, where every escape has its digits. -/
def unquoteBytes : List Char → List UInt8
  | '%' :: a :: b :: rest => .ofNat (16 * hexValue a + hexValue b) :: unquoteBytes rest
  | c :: rest => String.utf8EncodeChar c ++ unquoteBytes rest
  | [] => []

/-- `unquote` with `errors="strict"` -/
def unquote (fragment : List Char) : Option (List Char) :=
  if '%' ∈ fragment then
    (String.fromUTF8? ⟨(unquoteBytes fragment).toArray⟩).map String.toList
  else some fragment

def refused (path text : String) : PyError := .unsupportedSchema s!"{path}.$ref: {text}"

/-- `_local_pointer` -/
def localPointer (reference : String) (path : String) : Except PyError (List Char) :=
  match reference.toList with
  | ['#'] => .ok []
  | '#' :: '/' :: rest =>
      if badEscape ('/' :: rest) = true then .error (refused path "invalid percent escape")
      else
        match unquote ('/' :: rest) with
        | some pointer => .ok pointer
        | none => .error (refused path "invalid percent escape")
  | _ => .error (refused path "only local JSON Pointer references are supported")

/-- `_pointer_token` -/
def pointerToken (path : String) : List Char → Except PyError (List Char)
  | [] => .ok []
  | '~' :: '0' :: rest => (pointerToken path rest).map ('~' :: ·)
  | '~' :: '1' :: rest => (pointerToken path rest).map ('/' :: ·)
  | '~' :: _ => .error (refused path "invalid JSON Pointer escape")
  | c :: rest => (pointerToken path rest).map (c :: ·)

/-- The zeros of the decimal digits of Unicode. -/
def decimalZeros : List ℕ :=
  [48, 1632, 1776, 1984, 2406, 2534, 2662, 2790, 2918, 3046, 3174, 3302, 3430, 3558, 3664, 3792,
    3872, 4160, 4240, 6112, 6160, 6470, 6608, 6784, 6800, 6992, 7088, 7232, 7248, 42528, 43216,
    43264, 43472, 43504, 43600, 44016, 65296, 66720, 68912, 69734, 69872, 69942, 70096, 70384,
    70736, 70864, 71248, 71360, 71472, 71904, 72016, 72784, 73040, 73120, 92768, 92864, 93008,
    120782, 120792, 120802, 120812, 120822, 123200, 123632, 125264, 130032]

def decimalDigit (c : Char) : Option ℕ :=
  (decimalZeros.find? fun z => z ≤ c.toNat ∧ c.toNat ≤ z + 9).map fun z => c.toNat - z

/-- `int(token)`, if `token.isdecimal()` -/
def decimal (token : List Char) : Option ℕ :=
  if token = [] then none
  else (token.mapM decimalDigit).map fun digits => digits.foldl (fun n d => 10 * n + d) 0

/-- What a token leads to. -/
def member (token : List Char) : Value → Option Value
  | .dict entries => Assoc.lookup entries (String.ofList token)
  | .list items => (decimal token).bind fun index => items[index]?
  | _ => none

/-- The loop of `_pointer_target`. -/
def follow (path : String) : Value → List (List Char) → Except PyError Value
  | current, [] => .ok current
  | current, token :: rest =>
      (pointerToken path token).bind fun token =>
        match member token current with
        | some next => follow path next rest
        | none => .error (refused path "missing local reference target")

/-- `_pointer_target` -/
def pointerTarget (root : Value) (pointer : List Char) (path : String) : Except PyError Value :=
  if pointer = [] then .ok root
  else follow path root ((if pointer.head? = some '/' then pointer.tail else pointer).splitOn '/')

/-! ## Expansion -/

/-- What may stand beside a reference. -/
def annotations : List String :=
  ["$defs", "$ref", "default", "definitions", "description", "sensitive", "title"]

/-- A reference that is there and not null. -/
def reference (entries : List (String × Value)) : Option Value :=
  (Assoc.lookup entries "$ref").filter fun value => value ≠ .none

/-- The checks of a reference, up to its target. -/
def target (root : Value) (entries : List (String × Value)) (value : Value) (path : String)
    (active : List (List Char)) : Except PyError (String × List Char × Value) :=
  match value with
  | .str text =>
      let siblings := (Assoc.keys entries).filter fun key => key ∉ annotations
      if siblings ≠ [] then
        let keys := ", ".intercalate ((siblings.insertionSort (· ≤ ·)).map fun key => s!"'{key}'")
        .error (refused path s!"unsupported sibling keywords [{keys}]")
      else
        (localPointer text path).bind fun pointer =>
          if pointer ∈ active then
            let chain := " -> ".intercalate ((active ++ [pointer]).map String.ofList)
            .error (refused path s!"cyclic local reference {chain}")
          else (pointerTarget root pointer path).map fun value => (text, pointer, value)
  -- No pointer and no key has a lone surrogate.
  | .surrogates _ => .error (refused path "missing local reference target")
  | _ => .error (refused path "must be a string")

section Resolve

variable (root : Value)

/-- One entry of a schema without a reference. -/
def resolveEntry (resolve : Value → String → ExceptT PyError Option Value) (path : String) :
    String × Value → ExceptT PyError Option (String × Value)
  | ("properties", .dict properties) => do
      let properties ← properties.mapM fun (name, schema) => do
        return (name, ← resolve schema s!"{path}.properties.{name}")
      return ("properties", .dict properties)
  | ("anyOf", .list items) => do
      let items ← items.zipIdx.mapM fun (item, index) => resolve item s!"{path}.anyOf[{index}]"
      return ("anyOf", .list items)
  | ("items", child) => do return ("items", ← resolve child s!"{path}.items")
  | entry => return entry

/-- `resolve`, with at most so many calls inside each other. -/
def resolve : ℕ → Value → String → List (List Char) → ExceptT PyError Option Value
  | 0, _, _, _ => ExceptT.mk none
  | levels + 1, .dict entries, path, active =>
      match reference entries with
      | some value => do
          let (text, pointer, value) ← ExceptT.mk (some (target root entries value path active))
          match ← resolve levels value s!"reference {text}" (active ++ [pointer]) with
          | .dict expanded =>
              let siblings := entries.filter fun e => e.1 ∉ ["$defs", "$ref", "definitions"]
              let siblings ← siblings.mapM fun (name, sibling) => do
                return (name, ← resolve levels sibling s!"{path}.{name}" active)
              return .dict
                (siblings.foldl (fun combined e => Assoc.upsert combined e.1 e.2) expanded)
          | _ => throw (refused path "target must be a schema object")
      | none => do
          let children := entries.filter fun e => e.1 ∉ ["$defs", "definitions"]
          let children ← children.mapM
            (resolveEntry (fun value path => resolve levels value path active) path)
          return .dict children
  | _ + 1, value, _, _ => return value

end Resolve

/-- `resolve_local_refs` -/
def resolveLocalRefs (levels : ℕ) (schema : Value) : ExceptT PyError Option Value := do
  match ← resolve schema levels schema "$" [] with
  | .dict entries => return .dict entries
  | _ => throw (.unsupportedSchema "schema must resolve to an object")

/-! ## Places -/

/-- An entry of a schema has a schema in it. -/
inductive Holds : String × Value → Value → Prop
  | property {properties : List (String × Value)} {name : String} {child : Value}
      (h : (name, child) ∈ properties) : Holds ("properties", .dict properties) child
  | branch {items : List Value} {child : Value} (h : child ∈ items) :
      Holds ("anyOf", .list items) child
  | item (child : Value) : Holds ("items", child) child

def Child (schema child : Value) : Prop :=
  ∃ entries, schema = .dict entries ∧ ∃ entry ∈ entries, Holds entry child

/-- No reference and no definitions at schema positions. -/
def RefFree (schema : Value) : Prop :=
  ∀ entries, Relation.ReflTransGen Child schema (.dict entries) →
    ∀ key ∈ Assoc.keys entries, key ∉ ["$ref", "$defs", "definitions"]

/-- The pointer a reference spells. -/
def pointer? (text : String) : Option (List Char) := (localPointer text "").toOption

/-- The part of the document a pointer leads to. -/
def target? (root : Value) (pointer : List Char) : Option Value :=
  (pointerTarget root pointer "").toOption

/-- The reference of an object, while pointers are in progress, leads to another object. -/
structure Resolves (root : Value) (entries : List (String × Value)) (active : List (List Char))
    (pointer : List Char) (next : List (String × Value)) : Prop where
  spelled : ∃ text, reference entries = some (.str text) ∧ pointer? text = some pointer
  annotated : ∀ key ∈ Assoc.keys entries, key ∈ annotations
  fresh : pointer ∉ active
  target : target? root pointer = some (.dict next)

/-- A value and the pointers in progress where the expansion comes to it. -/
abbrev Place := Value × List (List Char)

inductive Step (root : Value) : Place → Place → Prop
  | child {entries : List (String × Value)} {active : List (List Char)} {child : Value}
      (hnone : reference entries = none) (hchild : Child (.dict entries) child) :
      Step root (.dict entries, active) (child, active)
  | target {entries next : List (String × Value)} {active : List (List Char)}
      {pointer : List Char} (h : Resolves root entries active pointer next) :
      Step root (.dict entries, active) (.dict next, active ++ [pointer])
  | annotated {entries next : List (String × Value)} {active : List (List Char)}
      {pointer : List Char} {name : String} {value : Value}
      (h : Resolves root entries active pointer next) (hmem : (name, value) ∈ entries)
      (hname : name ∉ ["$defs", "$ref", "definitions"]) :
      Step root (.dict entries, active) (value, active)

/-- The expansion comes from one place to another. -/
def Reaches (root : Value) : Place → Place → Prop := Relation.ReflTransGen (Step root)

/-- A reference that leads nowhere. -/
def Refused (root : Value) (place : Place) : Prop :=
  ∃ entries, place.1 = .dict entries ∧ (reference entries).isSome = true ∧
    ∀ pointer next, ¬ Resolves root entries place.2 pointer next

mutual

/-- A value and all that is in it. -/
def parts : Value → List Value
  | .list items => .list items :: partsItems items
  | .dict entries => .dict entries :: partsEntries entries
  | value => [value]

def partsItems : List Value → List Value
  | [] => []
  | item :: rest => parts item ++ partsItems rest

def partsEntries : List (String × Value) → List Value
  | [] => []
  | (_, value) :: rest => parts value ++ partsEntries rest

end

/-- Every reference there is, is not null. -/
def NonNull (schema : Value) : Prop :=
  ∀ entries, .dict entries ∈ parts schema → ("$ref", .none) ∉ entries

/-! ### Parts -/

theorem mem_parts_self (value : Value) : value ∈ parts value := by
  cases value <;> simp [parts]

theorem mem_partsItems_iff {items : List Value} {value : Value} :
    value ∈ partsItems items ↔ ∃ item ∈ items, value ∈ parts item := by
  induction items with
  | nil => simp [partsItems]
  | cons item rest ih => simp [partsItems, ih]

theorem mem_partsEntries_iff {entries : List (String × Value)} {value : Value} :
    value ∈ partsEntries entries ↔ ∃ entry ∈ entries, value ∈ parts entry.2 := by
  induction entries with
  | nil => simp [partsEntries]
  | cons entry rest ih => simp [partsEntries, ih]

theorem mem_parts_iff {whole value : Value} : value ∈ parts whole ↔ value = whole ∨
    (∃ items, whole = .list items ∧ ∃ item ∈ items, value ∈ parts item) ∨
      ∃ entries, whole = .dict entries ∧ ∃ entry ∈ entries, value ∈ parts entry.2 := by
  cases whole <;> simp [parts, mem_partsItems_iff, mem_partsEntries_iff]

theorem sizeOf_lt_of_mem_list {items : List Value} {item : Value} (h : item ∈ items) :
    sizeOf item < sizeOf (Value.list items) := by
  have hlt := List.sizeOf_lt_of_mem h
  rw [Value.list.sizeOf_spec]
  omega

theorem sizeOf_lt_of_mem_dict {entries : List (String × Value)} {entry : String × Value}
    (h : entry ∈ entries) : sizeOf entry.2 < sizeOf (Value.dict entries) := by
  have hlt := List.sizeOf_lt_of_mem h
  obtain ⟨name, value⟩ := entry
  rw [Prod.mk.sizeOf_spec] at hlt
  rw [Value.dict.sizeOf_spec]
  simp only
  omega

theorem mem_parts_trans {whole part value : Value} (hpart : part ∈ parts whole)
    (hvalue : value ∈ parts part) : value ∈ parts whole := by
  rcases mem_parts_iff.mp hpart with rfl | ⟨items, rfl, item, hitem, hin⟩ |
      ⟨entries, rfl, entry, hentry, hin⟩
  · exact hvalue
  · have hsize := sizeOf_lt_of_mem_list hitem
    exact mem_parts_iff.mpr (.inr (.inl ⟨items, rfl, item, hitem, mem_parts_trans hin hvalue⟩))
  · have hsize := sizeOf_lt_of_mem_dict hentry
    exact mem_parts_iff.mpr (.inr (.inr ⟨entries, rfl, entry, hentry, mem_parts_trans hin hvalue⟩))
termination_by sizeOf whole

theorem sizeOf_le_of_mem_parts {whole part : Value} (h : part ∈ parts whole) :
    sizeOf part ≤ sizeOf whole := by
  rcases mem_parts_iff.mp h with rfl | ⟨items, rfl, item, hitem, hin⟩ |
      ⟨entries, rfl, entry, hentry, hin⟩
  · exact le_rfl
  · have hsize := sizeOf_lt_of_mem_list hitem
    exact (sizeOf_le_of_mem_parts hin).trans hsize.le
  · have hsize := sizeOf_lt_of_mem_dict hentry
    exact (sizeOf_le_of_mem_parts hin).trans hsize.le
termination_by sizeOf whole

theorem mem_parts_item {items : List Value} {item : Value} (h : item ∈ items) :
    item ∈ parts (.list items) :=
  mem_parts_iff.mpr (.inr (.inl ⟨items, rfl, item, h, mem_parts_self item⟩))

theorem mem_parts_entry {entries : List (String × Value)} {entry : String × Value}
    (h : entry ∈ entries) : entry.2 ∈ parts (.dict entries) :=
  mem_parts_iff.mpr (.inr (.inr ⟨entries, rfl, entry, h, mem_parts_self entry.2⟩))

theorem holds_properties {properties : List (String × Value)} {child : Value} :
    Holds ("properties", .dict properties) child ↔ ∃ name, (name, child) ∈ properties := by
  constructor
  · intro h
    generalize heq : ("properties", Value.dict properties) = entry at h
    rcases h with h | h | _ <;> simp at heq
    exact ⟨_, heq ▸ h⟩
  · exact fun ⟨_, h⟩ => .property h

theorem holds_anyOf {items : List Value} {child : Value} :
    Holds ("anyOf", .list items) child ↔ child ∈ items := by
  constructor
  · intro h
    generalize heq : ("anyOf", Value.list items) = entry at h
    rcases h with h | h | _ <;> simp at heq
    exact heq ▸ h
  · exact .branch

theorem holds_items {value child : Value} : Holds ("items", value) child ↔ child = value := by
  constructor
  · intro h
    generalize heq : ("items", value) = entry at h
    rcases h with h | h | _ <;> simp at heq
    exact heq.symm
  · rintro rfl
    exact .item _

theorem Holds.key {entry : String × Value} {child : Value} (h : Holds entry child) :
    entry.1 ∈ ["properties", "anyOf", "items"] := by
  cases h <;> simp

theorem Holds.mem_parts {entry : String × Value} {child : Value} (h : Holds entry child) :
    child ∈ parts entry.2 := by
  cases h with
  | property h => exact mem_parts_entry h
  | branch h => exact mem_parts_item h
  | item => exact mem_parts_self child

/-! ### Targets -/

theorem toOption_map {ε α β : Type} (x : Except ε α) (f : α → β) :
    (x.map f).toOption = x.toOption.map f := by
  cases x <;> rfl

theorem toOption_bind {ε α β : Type} (x : Except ε α) (f : α → Except ε β) :
    (x.bind f).toOption = x.toOption.bind fun a => (f a).toOption := by
  cases x <;> rfl

theorem toOption_eq_some_iff {ε α : Type} {x : Except ε α} {a : α} :
    x.toOption = some a ↔ x = .ok a :=
  ⟨Fallible.toOption_eq_some, fun h => h ▸ rfl⟩

theorem localPointer_toOption (text path : String) :
    (localPointer text path).toOption = pointer? text := by
  unfold pointer? localPointer
  split
  · rfl
  · split
    · rfl
    · split <;> rfl
  · rfl

theorem pointerToken_toOption (path : String) (token : List Char) :
    (pointerToken path token).toOption = (pointerToken "" token).toOption := by
  fun_induction pointerToken path token with
  | case1 => rfl
  | case2 rest ih => rw [pointerToken, toOption_map, toOption_map, ih]
  | case3 rest ih => rw [pointerToken, toOption_map, toOption_map, ih]
  | case4 rest h0 h1 =>
      rw [pointerToken]
      · rfl
      · exact h0
      · exact h1
  | case5 c rest h0 h1 h ih =>
      rw [pointerToken, toOption_map, toOption_map, ih]
      all_goals assumption

theorem follow_toOption (path : String) (value : Value) (tokens : List (List Char)) :
    (follow path value tokens).toOption = (follow "" value tokens).toOption := by
  induction tokens generalizing value with
  | nil => rfl
  | cons token rest ih =>
      rw [follow, follow, toOption_bind, toOption_bind, pointerToken_toOption]
      congr 1
      funext token
      split
      · exact ih _
      · rfl

theorem pointerTarget_toOption (root : Value) (pointer : List Char) (path : String) :
    (pointerTarget root pointer path).toOption = target? root pointer := by
  unfold target? pointerTarget
  split
  · rfl
  · exact follow_toOption _ _ _

theorem member_mem_parts {token : List Char} {value found : Value}
    (h : member token value = some found) : found ∈ parts value := by
  unfold member at h
  split at h
  · exact mem_parts_entry (Assoc.mem_of_lookup h)
  · obtain ⟨index, -, hget⟩ := Option.bind_eq_some_iff.mp h
    exact mem_parts_item (List.mem_of_getElem? hget)
  · cases h

theorem follow_mem_parts {path : String} {tokens : List (List Char)} {value found : Value}
    (h : follow path value tokens = .ok found) : found ∈ parts value := by
  induction tokens generalizing value with
  | nil =>
      cases h
      exact mem_parts_self _
  | cons token rest ih =>
      rw [follow, Fallible.bind_ok_iff] at h
      obtain ⟨token, -, h⟩ := h
      split at h
      · next next hnext => exact mem_parts_trans (member_mem_parts hnext) (ih h)
      · cases h

theorem target?_mem_parts {root found : Value} {pointer : List Char}
    (h : target? root pointer = some found) : found ∈ parts root := by
  have hok := toOption_eq_some_iff.mp h
  unfold pointerTarget at hok
  split at hok
  · cases hok
    exact mem_parts_self root
  · exact follow_mem_parts hok

theorem target_ok_iff {root value : Value} {entries : List (String × Value)} {path : String}
    {active : List (List Char)} {text : String} {pointer : List Char} {next : Value} :
    target root entries value path active = .ok (text, pointer, next) ↔
      value = .str text ∧ (∀ key ∈ Assoc.keys entries, key ∈ annotations) ∧
        pointer? text = some pointer ∧ pointer ∉ active ∧ target? root pointer = some next := by
  have hsiblings : (Assoc.keys entries).filter (fun key => key ∉ annotations) = [] ↔
      ∀ key ∈ Assoc.keys entries, key ∈ annotations := by
    simp [List.filter_eq_nil_iff]
  unfold target
  split
  · next spelled =>
      simp only [ne_eq]
      split
      · next hne => exact ⟨nofun, fun h => absurd (hsiblings.mpr h.2.1) hne⟩
      · next heq =>
          rw [not_not, hsiblings] at heq
          rw [Fallible.bind_ok_iff]
          constructor
          · rintro ⟨found, hpointer, h⟩
            split at h
            · cases h
            · next hfresh =>
                obtain ⟨leads, hleads, heq'⟩ := Fallible.map_ok_iff.mp h
                cases heq'
                refine ⟨rfl, heq, ?_, hfresh, ?_⟩
                · rw [← localPointer_toOption _ path, hpointer]
                  rfl
                · rw [← pointerTarget_toOption _ _ path, hleads]
                  rfl
          · rintro ⟨hspelled, -, hpointer, hfresh, hnext⟩
            cases hspelled
            rw [← localPointer_toOption _ path, toOption_eq_some_iff] at hpointer
            rw [← pointerTarget_toOption _ _ path, toOption_eq_some_iff] at hnext
            refine ⟨pointer, hpointer, ?_⟩
            rw [if_neg hfresh, hnext]
            rfl
  · exact ⟨nofun, fun h => nomatch h.1⟩
  · next hstr _ => exact ⟨nofun, fun h => absurd h.1 (hstr text)⟩

end Pollard.References
