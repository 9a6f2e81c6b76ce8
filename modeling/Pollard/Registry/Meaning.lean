import Pollard.Json
import Pollard.Lib.Fallible
import Pollard.Registry.Schema

/-!
# What a parameter schema means

The keywords of the subset constrain a value as JSON Schema says, each by itself and at every
depth.  A null keyword is an absent one, and keywords of objects without a type ask for an
object.  Validation decides this, but where the type that a keyword needs is not written.
-/

namespace Pollard

open Lib
open Value (SameJson)

namespace Schema

/-! ## Meaning -/

/-- No type is written. -/
def Typeless (schema : Value) : Prop := present schema "type" = none

/-- The keywords of objects. -/
def objectKeywords : List String := ["properties", "required", "additionalProperties"]

/-- The properties a schema names. -/
def declared (schema : Value) : List String :=
  match schema.get? "properties" with
  | some (.dict properties) => Assoc.keys properties
  | _ => []

/-- How long a string is. -/
def textLength : Value → Option ℕ
  | .str s => some s.length
  | .surrogates codePoints => some codePoints.length
  | _ => none

/-- The bounds of integers, strings and arrays. -/
structure WithinBounds (schema value : Value) : Prop where
  integer : ∀ n : ℤ, value = .int n →
    (∀ b, bound schema "minimum" = some b → b ≤ n) ∧
    (∀ b, bound schema "maximum" = some b → n ≤ b) ∧
    (∀ b, bound schema "exclusiveMinimum" = some b → b < n) ∧
    ∀ b, bound schema "exclusiveMaximum" = some b → n < b
  string : ∀ length : ℕ, textLength value = some length →
    (∀ b, bound schema "minLength" = some b → b ≤ length) ∧
    ∀ b, bound schema "maxLength" = some b → (length : ℤ) ≤ b
  array : ∀ items : List Value, value = .list items →
    (∀ b, bound schema "minItems" = some b → b ≤ items.length) ∧
    ∀ b, bound schema "maxItems" = some b → (items.length : ℤ) ≤ b

/-- The keywords that no other schema is part of. -/
structure Keywords (schema value : Value) : Prop where
  type : ∀ name, schema.get? "type" = some (.str name) → matchesType value name = true
  enum : ∀ items, schema.get? "enum" = some (.list items) → ∃ item ∈ items, SameJson value item
  bounds : WithinBounds schema value
  object : Typeless schema → (∃ key ∈ objectKeywords, (present schema key).isSome = true) →
    value.isDict = true
  required : ∀ names entries, schema.get? "required" = some (.list names) →
    value = .dict entries → ∀ name, .str name ∈ names → name ∈ Assoc.keys entries
  closed : ∀ entries, schema.get? "additionalProperties" = some (.bool false) →
    value = .dict entries → ∀ key ∈ Assoc.keys entries, key ∈ declared schema

/-- The value satisfies the schema. -/
def Satisfies (schema value : Value) : Prop :=
  Keywords schema value ∧
    (∀ branches, (_h : schema.get? "anyOf" = some (.list branches)) →
      ∃ branch, ∃ _hmem : branch ∈ branches, Satisfies branch value) ∧
    (∀ properties entries, (_h : schema.get? "properties" = some (.dict properties)) →
      value = .dict entries → ∀ name child member, (_hmem : (name, child) ∈ properties) →
        Assoc.lookup entries name = some member → Satisfies child member) ∧
    ∀ itemSchema elements, (_h : schema.get? "items" = some itemSchema) →
      value = .list elements → ∀ element ∈ elements, Satisfies itemSchema element
termination_by sizeOf schema
decreasing_by
  · have hsize := Value.sizeOf_get?_lt _h
    have hbranch := List.sizeOf_lt_of_mem _hmem
    rw [Value.list.sizeOf_spec] at hsize
    omega
  · have hsize := Value.sizeOf_get?_lt _h
    have hchild := List.sizeOf_lt_of_mem _hmem
    rw [Value.dict.sizeOf_spec] at hsize
    rw [Prod.mk.sizeOf_spec] at hchild
    omega
  · exact Value.sizeOf_get?_lt _h

theorem satisfies_iff {schema value : Value} : Satisfies schema value ↔
    Keywords schema value ∧
      (∀ branches, schema.get? "anyOf" = some (.list branches) →
        ∃ branch ∈ branches, Satisfies branch value) ∧
      (∀ properties entries, schema.get? "properties" = some (.dict properties) →
        value = .dict entries → ∀ name child member, (name, child) ∈ properties →
          Assoc.lookup entries name = some member → Satisfies child member) ∧
      ∀ itemSchema elements, schema.get? "items" = some itemSchema →
        value = .list elements → ∀ element ∈ elements, Satisfies itemSchema element := by
  rw [Satisfies]
  simp only [exists_prop]

/-! ## Where the code reads a schema otherwise -/

/-- A part of the value meets a part of the schema. -/
inductive Meets : Value → Value → Value → Value → Prop
  | here (schema value : Value) : Meets schema value schema value
  | branch {schema value branch s v : Value} {branches : List Value}
      (h : schema.get? "anyOf" = some (.list branches)) (hbranch : branch ∈ branches)
      (hmeets : Meets branch value s v) : Meets schema value s v
  | property {schema child member s v : Value} {properties entries : List (String × Value)}
      {name : String} (h : schema.get? "properties" = some (.dict properties))
      (hchild : (name, child) ∈ properties) (hmember : Assoc.lookup entries name = some member)
      (hmeets : Meets child member s v) : Meets schema (.dict entries) s v
  | item {schema itemSchema element s v : Value} {elements : List Value}
      (h : schema.get? "items" = some itemSchema) (helement : element ∈ elements)
      (hmeets : Meets itemSchema element s v) : Meets schema (.list elements) s v

/-- An array meets `items` without a type; an object with properties is to be closed by
`additionalProperties` although the properties are null; or another value meets keywords of
objects that are all null, without a type. -/
inductive Deviates (schema : Value) : Value → Prop
  | items (element : Value) (elements : List Value) (htype : Typeless schema)
      (h : (schema.get? "items").isSome = true) : Deviates schema (.list (element :: elements))
  | closed (entry : String × Value) (entries : List (String × Value))
      (htype : Typeless schema ∨ typeIs schema "object" = true)
      (h : schema.get? "additionalProperties" = some (.bool false))
      (hnull : schema.get? "properties" = some .none) : Deviates schema (.dict (entry :: entries))
  | null (value : Value) (htype : Typeless schema)
      (habsent : ∀ key ∈ objectKeywords, present schema key = none)
      (hnull : ∃ key ∈ objectKeywords, schema.get? key = some .none)
      (hvalue : value.isDict = false) : Deviates schema value

/-! ## Checks one by one -/

theorem firstOf_eq_none {checks : List (Except PyError (Option String))} :
    firstOf checks = .ok none ↔ ∀ check ∈ checks, check = .ok none := by
  induction checks with
  | nil => simp [firstOf]
  | cons check checks ih =>
      rw [List.forall_mem_cons, ← ih]
      cases check with
      | error e => simp [firstOf]
      | ok finding =>
          cases finding with
          | none => simp [firstOf]
          | some finding => simp [firstOf]

/-- Validation, as what each of its checks finds. -/
theorem validateValue_eq_none {value schema : Value} {path : String} :
    validateValue value schema path = .ok none ↔
      typeFinding value schema path = none ∧ enumFinding value schema path = .ok none ∧
      (∀ branches, schema.get? "anyOf" = some (.list branches) →
        matchesAny value branches path = .ok true) ∧
      boundsFinding value schema path = none ∧
      (describesObject schema = true → ∃ entries, value = .dict entries ∧
        requiredFinding entries schema path = none ∧
        (∀ properties, schema.get? "properties" = some (.dict properties) →
          validateProperties entries properties path = .ok none) ∧
        additionalFinding entries schema path = none) ∧
      (typeIs schema "array" = true → ∃ items, value = .list items ∧
        ∀ itemSchema, schema.get? "items" = some itemSchema → itemSchema.isDict = true →
          ∀ e ∈ items.zipIdx, validateValue e.1 itemSchema s!"{path}[{e.2}]" = .ok none) := by
  rw [validateValue.eq_def, firstOf_eq_none]
  simp only [List.mem_cons, List.not_mem_nil, or_false, forall_eq_or_imp, forall_eq,
    Except.ok.injEq]
  refine and_congr Iff.rfl (and_congr Iff.rfl (and_congr ?_ (and_congr Iff.rfl
    (and_congr ?_ ?_))))
  · split
    · next branches hbranches =>
        have hone : (∀ branches', schema.get? "anyOf" = some (.list branches') →
            matchesAny value branches' path = .ok true) ↔
              matchesAny value branches path = .ok true := by
          rw [hbranches]
          exact ⟨fun h => h _ rfl, by rintro h _ ⟨⟩; exact h⟩
        rw [hone]
        cases matchesAny value branches path with
        | error e => simp [Except.map]
        | ok found => cases found <;> simp [Except.map]
    · next hother => exact ⟨fun _ branches h => absurd h (hother branches), fun _ => rfl⟩
  · split
    · next hdescribes =>
        rw [imp_iff_right hdescribes]
        split
        · next entries =>
            rw [firstOf_eq_none]
            simp only [List.mem_cons, List.not_mem_nil, or_false, forall_eq_or_imp, forall_eq,
              Except.ok.injEq, Value.dict.injEq]
            constructor
            · rintro ⟨hrequired, hproperties, hadditional⟩
              refine ⟨entries, rfl, hrequired, fun properties h => ?_, hadditional⟩
              split at hproperties
              · next found hfound =>
                  rw [hfound] at h
                  cases h
                  exact hproperties
              · next hother => exact absurd h (hother properties)
            · rintro ⟨_, rfl, hrequired, hproperties, hadditional⟩
              refine ⟨hrequired, ?_, hadditional⟩
              split
              · next found hfound => exact hproperties found hfound
              · rfl
        · next hother =>
            constructor
            · intro h
              cases h
            · rintro ⟨entries, heq, -⟩
              exact absurd heq (hother entries)
    · next hnot => exact ⟨fun _ h => absurd h hnot, fun _ => rfl⟩
  · split
    · next harray =>
        rw [imp_iff_right harray]
        split
        · next items =>
            simp only [Value.list.injEq]
            constructor
            · intro h
              refine ⟨items, rfl, fun itemSchema hitems hdict => ?_⟩
              split at h
              · next found hfound =>
                  rw [hfound] at hitems
                  cases hitems
                  rw [if_pos hdict, firstOf_eq_none] at h
                  exact fun e he => h _ (List.mem_map_of_mem he)
              · next hnone =>
                  rw [hnone] at hitems
                  cases hitems
            · rintro ⟨_, rfl, h⟩
              split
              · next found hfound =>
                  split
                  · next hdict =>
                      rw [firstOf_eq_none]
                      intro check hcheck
                      obtain ⟨e, he, rfl⟩ := List.mem_map.mp hcheck
                      exact h found hfound hdict e he
                  · rfl
              · rfl
        · next hother =>
            constructor
            · intro h
              cases h
            · rintro ⟨items, heq, -⟩
              exact absurd heq (hother items)
    · next hnot => exact ⟨fun _ h => absurd h hnot, fun _ => rfl⟩

/-- The findings of the properties, as one condition on each. -/
theorem validateProperties_eq_none {entries properties : List (String × Value)} {path : String}
    (hdict : ∀ e ∈ properties, e.2.isDict = true) :
    validateProperties entries properties path = .ok none ↔
      ∀ name child member, (name, child) ∈ properties → Assoc.lookup entries name = some member →
        validateValue member child s!"{path}.{name}" = .ok none := by
  induction properties with
  | nil =>
      rw [validateProperties]
      simp
  | cons e rest ih =>
      obtain ⟨name, child⟩ := e
      rw [List.forall_mem_cons] at hdict
      have hchild : child.isDict = true := hdict.1
      rw [validateProperties, firstOf_eq_none]
      simp only [List.mem_cons, List.not_mem_nil, or_false, forall_eq_or_imp, forall_eq, hchild,
        if_true]
      rw [ih hdict.2]
      constructor
      · rintro ⟨hfirst, hrest⟩ other otherChild member (heq | hmem) hlookup
        · cases heq
          rw [hlookup] at hfirst
          exact hfirst
        · exact hrest other otherChild member hmem hlookup
      · intro h
        refine ⟨?_, fun other otherChild member hmem => h other otherChild member (.inr hmem)⟩
        cases hlookup : Assoc.lookup entries name with
        | none => rfl
        | some member => exact h name child member (.inl rfl) hlookup

/-- Where no branch raises, some branch accepts. -/
theorem matchesAny_eq_true {value : Value} {branches : List Value} {path : String}
    (hdict : ∀ branch ∈ branches, branch.isDict = true)
    (hok : ∀ branch ∈ branches, ∃ finding, validateValue value branch path = .ok finding) :
    matchesAny value branches path = .ok true ↔
      ∃ branch ∈ branches, validateValue value branch path = .ok none := by
  induction branches with
  | nil =>
      rw [matchesAny]
      simp
  | cons branch rest ih =>
      rw [List.forall_mem_cons] at hdict hok
      obtain ⟨finding, hfinding⟩ := hok.1
      rw [matchesAny, if_pos hdict.1, hfinding]
      simp only [bind, Except.bind, List.mem_cons, exists_eq_or_imp, hfinding, Except.ok.injEq]
      cases finding with
      | none => simp [pure, Except.pure]
      | some finding =>
          simp only [Option.isNone_some, Bool.false_eq_true, if_false, reduceCtorEq, false_or]
          exact ih hdict.2 hok.2

/-! ## Accepted schemas -/

theorem checkProperties_eq_ok {properties : List (String × Value)} {path : String}
    (h : checkProperties properties path = .ok ()) :
    ∀ e ∈ properties, ∃ path, checkSchema e.2 path = .ok () := by
  induction properties with
  | nil => exact fun e he => absurd he List.not_mem_nil
  | cons e rest ih =>
      obtain ⟨name, child⟩ := e
      rw [checkProperties] at h
      obtain ⟨⟨⟩, hchild, hrest⟩ := Fallible.bind_ok_iff.mp h
      rw [List.forall_mem_cons]
      exact ⟨⟨_, hchild⟩, ih hrest⟩

theorem checkBranches_eq_ok {branches : List Value} {path : String} {index : ℕ}
    (h : checkBranches branches path index = .ok ()) :
    ∀ branch ∈ branches, ∃ path, checkSchema branch path = .ok () := by
  induction branches generalizing index with
  | nil => exact fun branch hbranch => absurd hbranch List.not_mem_nil
  | cons branch rest ih =>
      rw [checkBranches] at h
      obtain ⟨⟨⟩, hbranch, hrest⟩ := Fallible.bind_ok_iff.mp h
      rw [List.forall_mem_cons]
      exact ⟨⟨_, hbranch⟩, ih hrest⟩

theorem checkConstraints_eq_ok {schema : Value} {path : String} {rows : List (String × String × Bool)}
    (h : checkConstraints schema path rows = .ok ()) :
    ∀ row ∈ rows, (schema.get? row.1).isSome = true → typeIs schema row.2.1 = true := by
  induction rows with
  | nil => exact fun row hrow => absurd hrow List.not_mem_nil
  | cons row rest ih =>
      obtain ⟨keyword, requiredType, nonnegative⟩ := row
      rw [checkConstraints] at h
      obtain ⟨⟨⟩, hfirst, hrest⟩ := Fallible.bind_ok_iff.mp h
      rw [List.forall_mem_cons]
      refine ⟨fun hsome => ?_, ih hrest⟩
      rw [checkConstraint] at hfirst
      obtain ⟨value, hvalue⟩ := Option.isSome_iff_exists.mp hsome
      rw [hvalue] at hfirst
      dsimp only at hfirst
      by_contra hnot
      rw [if_pos (Bool.not_eq_true _ ▸ hnot)] at hfirst
      cases hfirst

/-- What the check of a schema says of its keywords. -/
structure Accepted (schema : Value) : Prop where
  isDict : schema.isDict = true
  isIdentity : schema.isIdentity = true
  type : ∀ value, present schema "type" = some value → ∃ name, value = .str name
  properties : ∀ value, schema.get? "properties" = some value → value = .none ∨
    ∃ properties, value = .dict properties ∧ ∀ e ∈ properties, ∃ path, checkSchema e.2 path = .ok ()
  anyOf : ∀ branches, schema.get? "anyOf" = some (.list branches) →
    ∀ branch ∈ branches, ∃ path, checkSchema branch path = .ok ()
  items : ∀ itemSchema, schema.get? "items" = some itemSchema →
    ∃ path, checkSchema itemSchema path = .ok ()
  required : ∀ value, present schema "required" = some value → ∃ names, value = .list names
  bounds : ∀ row ∈ constraints, (schema.get? row.1).isSome = true → typeIs schema row.2.1 = true

theorem accepted_of_checkSchema {schema : Value} {path : String}
    (h : checkSchema schema path = .ok ()) : Accepted schema := by
  have hidentity := isIdentity_of_checkSchema h
  rw [checkSchema.eq_def] at h
  split at h
  · next entries =>
      rw [allOk_eq_ok] at h
      simp only [List.mem_cons, List.not_mem_nil, or_false, forall_eq_or_imp, forall_eq] at h
      obtain ⟨hkeywords, hproperties, hrequired, -, hanyOf, hitems, hconstraints, -, -⟩ := h
      refine ⟨rfl, hidentity, ?_, ?_, ?_, ?_, ?_, checkConstraints_eq_ok hconstraints⟩
      · intro value hvalue
        rw [checkKeywords, hvalue] at hkeywords
        split at hkeywords
        · cases hkeywords
        · cases value with
          | str name => exact ⟨name, rfl⟩
          | _ => cases hkeywords
      · intro value hvalue
        change Assoc.lookup entries "properties" = some value at hvalue
        split at hproperties
        · next hnone =>
            rw [hnone] at hvalue
            cases hvalue
        · next hnull =>
            rw [hnull] at hvalue
            exact .inl (Option.some.inj hvalue).symm
        · next properties hdict =>
            rw [hdict] at hvalue
            exact .inr ⟨properties, (Option.some.inj hvalue).symm, checkProperties_eq_ok hproperties⟩
        · cases hproperties
      · intro branches hbranches
        change Assoc.lookup entries "anyOf" = some (.list branches) at hbranches
        split at hanyOf
        · next hnone =>
            rw [hnone] at hbranches
            cases hbranches
        · next hnull =>
            rw [hnull] at hbranches
            cases hbranches
        · next branch rest hlist =>
            rw [hlist] at hbranches
            cases hbranches
            exact checkBranches_eq_ok hanyOf
        · cases hanyOf
      · intro itemSchema hitem
        change Assoc.lookup entries "items" = some itemSchema at hitem
        split at hitems
        · next hnone =>
            rw [hnone] at hitem
            cases hitem
        · next found hfound =>
            rw [hfound] at hitem
            obtain rfl := Option.some.inj hitem
            exact ⟨_, hitems⟩
      · intro value hvalue
        rw [checkRequired, hvalue] at hrequired
        cases value with
        | list names => exact ⟨names, rfl⟩
        | _ => cases hrequired
  · cases h

/-! ## Keywords one by one -/

theorem typeFinding_eq_none {value schema : Value} {path : String} :
    typeFinding value schema path = none ↔
      ∀ name, schema.get? "type" = some (.str name) → matchesType value name = true := by
  rw [typeFinding]
  split
  · next expected htype =>
      have hone : (∀ name, schema.get? "type" = some (.str name) → matchesType value name = true) ↔
          matchesType value expected = true := by
        rw [htype]
        exact ⟨fun h => h _ rfl, by rintro h _ ⟨⟩; exact h⟩
      rw [hone]
      cases matchesType value expected <;> simp
  · next hother => exact ⟨fun _ name h => absurd h (hother name), fun _ => rfl⟩

theorem inEnum_eq_true {value : Value} (hvalue : value.isIdentity = true) {items : List Value}
    (hitems : ∀ item ∈ items, item.isIdentity = true) :
    inEnum value items = .ok (decide (∃ item ∈ items, value.canonical = item.canonical)) := by
  induction items with
  | nil => simp [inEnum]
  | cons item items ih =>
      rw [List.forall_mem_cons] at hitems
      have hequal : jsonEqual value item = .ok (value.canonical = item.canonical) := by
        rw [jsonEqual, Value.canonicalBytes_ok hvalue, Value.canonicalBytes_ok hitems.1]
        rfl
      rw [inEnum, hequal, ih hitems.2]
      by_cases hsame : value.canonical = item.canonical
      · simp [bind, Except.bind, pure, Except.pure, hsame]
      · simp [bind, Except.bind, hsame]

theorem enumFinding_eq_none {value schema : Value} (hvalue : value.isIdentity = true)
    (hschema : schema.isIdentity = true) {path : String} :
    enumFinding value schema path = .ok none ↔
      ∀ items, schema.get? "enum" = some (.list items) → ∃ item ∈ items, SameJson value item := by
  rw [enumFinding]
  split
  · next enum henum =>
      have hone : (∀ items, schema.get? "enum" = some (.list items) →
          ∃ item ∈ items, SameJson value item) ↔ ∃ item ∈ enum, value.canonical = item.canonical := by
        rw [henum]
        exact ⟨fun h => h _ rfl, by rintro h _ ⟨⟩; exact h⟩
      rw [hone, inEnum_eq_true hvalue (Value.isIdentity_list.mp (Value.isIdentity_get? hschema henum))]
      by_cases h : ∃ item ∈ enum, value.canonical = item.canonical
      · simp [Except.map, h]
      · simp [Except.map, h]
  · next hother => exact ⟨fun _ items h => absurd h (hother items), fun _ => rfl⟩

/-- No bound is on the wrong side. -/
theorem filter_map_eq_none {b : Option ℤ} {p : ℤ → Prop} [DecidablePred p] {text : ℤ → String} :
    (b.filter (fun n => decide (p n))).map text = none ↔ ∀ n, b = some n → ¬ p n := by
  cases b with
  | none => simp
  | some n =>
      rw [Option.map_eq_none_iff, Option.filter_eq_none_iff]
      simp

theorem integerBoundsFinding_eq_none {n : ℤ} {schema : Value} {path : String} :
    integerBoundsFinding n schema path = none ↔
      (∀ b, bound schema "minimum" = some b → b ≤ n) ∧
      (∀ b, bound schema "maximum" = some b → n ≤ b) ∧
      (∀ b, bound schema "exclusiveMinimum" = some b → b < n) ∧
      ∀ b, bound schema "exclusiveMaximum" = some b → n < b := by
  rw [integerBoundsFinding]
  simp only [Option.orElse_eq_orElse, Option.orElse_eq_or, Option.or_eq_none_iff,
    filter_map_eq_none, not_lt, not_le]

theorem lengthFinding_eq_none {length : ℕ} {schema : Value}
    {path minimumKeyword maximumKeyword measure : String} :
    lengthFinding length schema path minimumKeyword maximumKeyword measure = none ↔
      (∀ b, bound schema minimumKeyword = some b → b ≤ length) ∧
      ∀ b, bound schema maximumKeyword = some b → (length : ℤ) ≤ b := by
  rw [lengthFinding]
  simp only [Option.orElse_eq_orElse, Option.orElse_eq_or, Option.or_eq_none_iff,
    filter_map_eq_none, not_lt]

theorem Accepted.typeIs_of_bound {schema : Value} (h : Accepted schema)
    {keyword requiredType : String}
    (hrow : ∃ nonnegative, (keyword, requiredType, nonnegative) ∈ constraints) {b : ℤ}
    (hbound : bound schema keyword = some b) : typeIs schema requiredType = true := by
  obtain ⟨nonnegative, hrow⟩ := hrow
  refine h.bounds _ hrow ?_
  rw [bound] at hbound
  split at hbound
  · next n hn =>
      rw [hn]
      rfl
  · cases hbound

/-- A bound is only written beside its type. -/
theorem boundsFinding_eq_none {value schema : Value} (h : Accepted schema) {path : String} :
    boundsFinding value schema path = none ↔ WithinBounds schema value := by
  have habsent {keyword requiredType : String}
      (hrow : ∃ nonnegative, (keyword, requiredType, nonnegative) ∈ constraints)
      (htype : ¬ typeIs schema requiredType = true) {P : ℤ → Prop} :
      ∀ b, bound schema keyword = some b → P b := fun b hbound =>
    absurd (h.typeIs_of_bound hrow hbound) htype
  have hstring {length : ℕ} (hlength : textLength value = some length) :
      ((if typeIs schema "string" = true then
        lengthFinding length schema path "minLength" "maxLength" "length" else none) = none) ↔
          (∀ b, bound schema "minLength" = some b → b ≤ length) ∧
            ∀ b, bound schema "maxLength" = some b → (length : ℤ) ≤ b := by
    split
    · exact lengthFinding_eq_none
    · next htype =>
        exact ⟨fun _ => ⟨habsent (by decide) htype, habsent (by decide) htype⟩, fun _ => rfl⟩
  cases value with
  | int n =>
      have hone : WithinBounds schema (.int n) ↔
          (∀ b, bound schema "minimum" = some b → b ≤ n) ∧
          (∀ b, bound schema "maximum" = some b → n ≤ b) ∧
          (∀ b, bound schema "exclusiveMinimum" = some b → b < n) ∧
          ∀ b, bound schema "exclusiveMaximum" = some b → n < b := by
        refine ⟨fun hb => hb.integer n rfl, fun hb => ⟨?_, nofun, nofun⟩⟩
        rintro _ ⟨⟩
        exact hb
      rw [boundsFinding, hone]
      split
      · exact integerBoundsFinding_eq_none
      · next htype =>
          exact ⟨fun _ => ⟨habsent (by decide) htype, habsent (by decide) htype,
            habsent (by decide) htype, habsent (by decide) htype⟩, fun _ => rfl⟩
  | str s =>
      have hone : WithinBounds schema (.str s) ↔
          (∀ b, bound schema "minLength" = some b → b ≤ s.length) ∧
            ∀ b, bound schema "maxLength" = some b → (s.length : ℤ) ≤ b := by
        refine ⟨fun hb => hb.string s.length rfl, fun hb => ⟨nofun, ?_, nofun⟩⟩
        rintro _ ⟨⟩
        exact hb
      rw [boundsFinding, hone]
      exact hstring rfl
  | surrogates codePoints =>
      have hone : WithinBounds schema (.surrogates codePoints) ↔
          (∀ b, bound schema "minLength" = some b → b ≤ codePoints.length) ∧
            ∀ b, bound schema "maxLength" = some b → (codePoints.length : ℤ) ≤ b := by
        refine ⟨fun hb => hb.string codePoints.length rfl, fun hb => ⟨nofun, ?_, nofun⟩⟩
        rintro _ ⟨⟩
        exact hb
      rw [boundsFinding, hone]
      exact hstring rfl
  | list items =>
      have hone : WithinBounds schema (.list items) ↔
          (∀ b, bound schema "minItems" = some b → b ≤ items.length) ∧
            ∀ b, bound schema "maxItems" = some b → (items.length : ℤ) ≤ b := by
        refine ⟨fun hb => hb.array items rfl, fun hb => ⟨nofun, nofun, ?_⟩⟩
        rintro _ ⟨⟩
        exact hb
      rw [boundsFinding, hone]
      split
      · exact lengthFinding_eq_none
      · next htype =>
          exact ⟨fun _ => ⟨habsent (by decide) htype, habsent (by decide) htype⟩, fun _ => rfl⟩
  | _ => exact ⟨fun _ => ⟨nofun, nofun, nofun⟩, fun _ => rfl⟩

theorem requiredFinding_eq_none {entries : List (String × Value)} {schema : Value} {path : String} :
    requiredFinding entries schema path = none ↔
      ∀ names, schema.get? "required" = some (.list names) →
        ∀ name, .str name ∈ names → name ∈ Assoc.keys entries := by
  rw [requiredFinding]
  split
  · next names hnames =>
      rw [List.findSome?_eq_none_iff]
      constructor
      · intro h _ heq name hname
        rw [hnames] at heq
        cases heq
        have hone := h _ hname
        dsimp only at hone
        by_contra hmem
        rw [Assoc.lookup_eq_none_iff.mpr hmem] at hone
        cases hone
      · intro h name hname
        split
        · next name =>
            have hmem := h names hnames name hname
            rw [if_pos]
            rw [Option.isSome_iff_ne_none, ne_eq, Assoc.lookup_eq_none_iff, not_not]
            exact hmem
        · rfl
  · next hother => exact ⟨fun _ names h => absurd h (hother names), fun _ => rfl⟩

theorem additionalFinding_eq_none {entries : List (String × Value)} {schema : Value}
    {path : String} : additionalFinding entries schema path = none ↔
      ∀ properties, propertiesOf schema = some properties →
        schema.get? "additionalProperties" = some (.bool false) →
          ∀ key ∈ Assoc.keys entries, key ∈ Assoc.keys properties := by
  rw [additionalFinding]
  cases hproperties : propertiesOf schema with
  | none => simp
  | some properties =>
      dsimp only
      split
      · next hclosed =>
          rw [Option.map_eq_none_iff, List.head?_eq_none_iff, ← List.length_eq_zero_iff,
            List.length_insertionSort, List.length_eq_zero_iff, List.filter_eq_nil_iff]
          constructor
          · rintro h _ ⟨⟩ - key hkey
            simpa using h key hkey
          · intro h key hkey
            simpa using h properties rfl hclosed key hkey
      · next hopen => exact ⟨fun _ _ _ h => absurd h hopen, fun _ => rfl⟩

/-! ## Types and what needs one -/

section Types

variable {schema : Value}

theorem typeless_iff : Typeless schema ↔ schema.get? "type" ∈ [none, some Value.none] := by
  rw [Typeless, present, Option.filter_eq_none_iff]
  cases schema.get? "type" with
  | none => simp
  | some value => simp

theorem isSome_of_present {keyword : String} (h : (present schema keyword).isSome = true) :
    (schema.get? keyword).isSome = true := by
  obtain ⟨value, hvalue⟩ := Option.isSome_iff_exists.mp h
  rw [(Option.filter_eq_some_iff.mp hvalue).1]
  rfl

theorem present_eq_none {keyword : String} (h : present schema keyword = none) :
    schema.get? keyword = none ∨ schema.get? keyword = some .none := by
  rw [present, Option.filter_eq_none_iff] at h
  cases hvalue : schema.get? keyword with
  | none => exact .inl rfl
  | some value => exact .inr (by simpa using h value hvalue)

theorem describesObject_iff : describesObject schema = true ↔ typeIs schema "object" = true ∨
    Typeless schema ∧ ∃ key ∈ objectKeywords, (schema.get? key).isSome = true := by
  rw [describesObject, Bool.or_eq_true, Bool.and_eq_true, decide_eq_true_eq, List.any_eq_true,
    ← typeless_iff, objectKeywords]

/-- A value that has the type of an accepted schema, where some type is written. -/
theorem Accepted.typeIs_of_matches (h : Accepted schema) {value : Value}
    (htype : ∀ name, schema.get? "type" = some (.str name) → matchesType value name = true)
    {expected : String} (honly : ∀ name, matchesType value name = true → name = expected) :
    Typeless schema ∨ typeIs schema expected = true := by
  cases hpresent : present schema "type" with
  | none => exact .inl hpresent
  | some written =>
      obtain ⟨name, rfl⟩ := h.type written hpresent
      have hget : schema.get? "type" = some (.str name) := (Option.filter_eq_some_iff.mp hpresent).1
      rw [typeIs, hget, honly name (htype name hget)]
      exact .inr (decide_eq_true rfl)

theorem eq_object_of_matches {entries : List (String × Value)} {name : String}
    (h : matchesType (.dict entries) name = true) : name = "object" := by
  rw [matchesType.eq_def] at h
  split at h <;> simp_all

theorem eq_array_of_matches {items : List Value} {name : String}
    (h : matchesType (.list items) name = true) : name = "array" := by
  rw [matchesType.eq_def] at h
  split at h <;> simp_all

/-- An object that meets keywords of objects is validated as one. -/
theorem Accepted.describesObject_of_keyword (h : Accepted schema) {entries : List (String × Value)}
    (htype : ∀ name, schema.get? "type" = some (.str name) →
      matchesType (.dict entries) name = true)
    {keyword : String} (hkeyword : keyword ∈ objectKeywords)
    (hsome : (schema.get? keyword).isSome = true) : describesObject schema = true := by
  rw [describesObject_iff]
  rcases h.typeIs_of_matches htype fun _ => eq_object_of_matches with htypeless | hobject
  · exact .inr ⟨htypeless, keyword, hkeyword, hsome⟩
  · exact .inl hobject

end Types

/-! ## Validation decides the meaning -/

section Decides

variable {schema value : Value}

/-- What validation asks of an object, where no null keyword changes it. -/
theorem object_iff (h : Accepted schema) (hdeviates : ¬ Deviates schema value)
    (htype : ∀ name, schema.get? "type" = some (.str name) → matchesType value name = true)
    {path : String} {P : List (String × Value) → List (String × Value) → Prop} :
    (describesObject schema = true → ∃ entries, value = .dict entries ∧
        requiredFinding entries schema path = none ∧
        (∀ properties, schema.get? "properties" = some (.dict properties) → P properties entries) ∧
        additionalFinding entries schema path = none) ↔
      (Typeless schema → (∃ key ∈ objectKeywords, (present schema key).isSome = true) →
        value.isDict = true) ∧
      (∀ names entries, schema.get? "required" = some (.list names) → value = .dict entries →
        ∀ name, .str name ∈ names → name ∈ Assoc.keys entries) ∧
      (∀ properties entries, schema.get? "properties" = some (.dict properties) →
        value = .dict entries → P properties entries) ∧
      ∀ entries, schema.get? "additionalProperties" = some (.bool false) →
        value = .dict entries → ∀ key ∈ Assoc.keys entries, key ∈ declared schema := by
  constructor
  · intro hobject
    refine ⟨?_, ?_, ?_, ?_⟩
    · rintro htypeless ⟨key, hkey, hsome⟩
      obtain ⟨entries, rfl, -⟩ := hobject (describesObject_iff.mpr
        (.inr ⟨htypeless, key, hkey, isSome_of_present hsome⟩))
      rfl
    · rintro names entries hnames rfl
      obtain ⟨_, ⟨⟩, hrequired, -, -⟩ := hobject
        (h.describesObject_of_keyword htype (show "required" ∈ objectKeywords by decide)
          (by simp [hnames]))
      exact requiredFinding_eq_none.mp hrequired names hnames
    · rintro properties entries hproperties rfl
      obtain ⟨_, ⟨⟩, -, hP, -⟩ := hobject
        (h.describesObject_of_keyword htype (show "properties" ∈ objectKeywords by decide)
          (by simp [hproperties]))
      exact hP properties hproperties
    · rintro entries hclosed rfl
      obtain ⟨_, ⟨⟩, -, -, hadditional⟩ := hobject
        (h.describesObject_of_keyword htype (show "additionalProperties" ∈ objectKeywords by decide)
          (by simp [hclosed]))
      rw [additionalFinding_eq_none] at hadditional
      cases hproperties : schema.get? "properties" with
      | none =>
          intro key hkey
          have hnone := hadditional [] (by rw [propertiesOf, hproperties]) hclosed key hkey
          cases hnone
      | some written =>
          rcases h.properties written hproperties with rfl | ⟨properties, rfl, -⟩
          · -- Null properties: only the empty object is validated as it should be.
            cases entries with
            | nil => exact fun key hkey => absurd hkey List.not_mem_nil
            | cons entry entries =>
                exact absurd (.closed entry entries
                  (h.typeIs_of_matches htype fun _ => eq_object_of_matches) hclosed hproperties)
                  hdeviates
          · intro key hkey
            rw [declared, hproperties]
            exact hadditional properties (by rw [propertiesOf, hproperties]) hclosed key hkey
  · rintro ⟨hobject, hrequired, hproperties, hclosed⟩ hdescribes
    have hdict : value.isDict = true := by
      rcases describesObject_iff.mp hdescribes with htypeIs | ⟨htypeless, key, hkey, hsome⟩
      · have hmatches := htype "object" (of_decide_eq_true htypeIs)
        rw [matchesType.eq_def] at hmatches
        split at hmatches <;> simp_all [Value.isDict]
      · by_contra hnot
        by_cases hpresent : ∃ key ∈ objectKeywords, (present schema key).isSome = true
        · exact hnot (hobject htypeless hpresent)
        · have habsent : ∀ key ∈ objectKeywords, present schema key = none := by
            intro other hother
            by_contra hne
            exact hpresent ⟨other, hother, Option.isSome_iff_ne_none.mpr hne⟩
          refine hdeviates (.null value htypeless habsent ⟨key, hkey, ?_⟩ (Bool.not_eq_true _ ▸ hnot))
          rcases present_eq_none (habsent key hkey) with hnone | hnull
          · rw [hnone] at hsome
            cases hsome
          · exact hnull
    cases value with
    | dict entries =>
        refine ⟨entries, rfl, ?_, fun properties hp => hproperties properties entries hp rfl, ?_⟩
        · exact requiredFinding_eq_none.mpr fun names hnames => hrequired names entries hnames rfl
        · rw [additionalFinding_eq_none]
          intro properties hp hadditional key hkey
          have hdeclared := hclosed entries hadditional rfl key hkey
          rw [declared] at hdeclared
          rw [propertiesOf] at hp
          split at hdeclared
          · next found hfound =>
              rw [hfound] at hp
              cases hp
              exact hdeclared
          · cases hdeclared
    | _ => cases hdict

/-- What validation asks of an array, where a type is written beside its items. -/
theorem array_iff (h : Accepted schema) (hdeviates : ¬ Deviates schema value)
    (htype : ∀ name, schema.get? "type" = some (.str name) → matchesType value name = true)
    {path : String} {P : Value → Value → Prop}
    (hP : ∀ itemSchema, schema.get? "items" = some itemSchema → ∀ items, value = .list items →
      ∀ item ∈ items, ∀ path, validateValue item itemSchema path = .ok none ↔ P itemSchema item) :
    (typeIs schema "array" = true → ∃ items, value = .list items ∧
        ∀ itemSchema, schema.get? "items" = some itemSchema → itemSchema.isDict = true →
          ∀ e ∈ items.zipIdx, validateValue e.1 itemSchema s!"{path}[{e.2}]" = .ok none) ↔
      ∀ itemSchema elements, schema.get? "items" = some itemSchema → value = .list elements →
        ∀ element ∈ elements, P itemSchema element := by
  constructor
  · rintro harray itemSchema elements hitems rfl element helement
    have hdict : itemSchema.isDict = true := by
      obtain ⟨path, hchecked⟩ := h.items itemSchema hitems
      exact (accepted_of_checkSchema hchecked).isDict
    rcases h.typeIs_of_matches htype fun _ => eq_array_of_matches with htypeless | htypeIs
    · cases elements with
      | nil => cases helement
      | cons first rest =>
          exact absurd (.items first rest htypeless (by rw [hitems]; rfl)) hdeviates
    · obtain ⟨_, ⟨⟩, hall⟩ := harray htypeIs
      obtain ⟨index, hindex⟩ := List.getElem?_of_mem helement
      have hmem : (element, index) ∈ elements.zipIdx := List.mk_mem_zipIdx_iff_getElem?.mpr hindex
      exact (hP itemSchema hitems elements rfl element helement _).mp
        (hall itemSchema hitems hdict _ hmem)
  · intro hall htypeIs
    have hmatches := htype "array" (of_decide_eq_true htypeIs)
    cases value with
    | list items =>
        refine ⟨items, rfl, fun itemSchema hitems _ e he => ?_⟩
        have hmem := List.fst_mem_of_mem_zipIdx he
        exact (hP itemSchema hitems items rfl e.1 hmem _).mpr (hall itemSchema items hitems rfl _ hmem)
    | _ => simp [matchesType] at hmatches

end Decides

/-! ## Schemas of integers -/

/-- A schema of integers. -/
def integers : Value := .dict [("type", .str "integer")]

end Schema

end Pollard
