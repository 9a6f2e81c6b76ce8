import Pollard.Tree

/-!
# Parameter schemas

The subset of JSON Schema an action may declare its parameters in: which documents are
schemas, and which values they accept.  A finding is the text of what a value violates.
-/

namespace Pollard

open Lib

namespace Schema

/-- `_SUPPORTED_KEYS` -/
def supportedKeys : List String :=
  ["type", "properties", "required", "enum", "anyOf", "items", "minimum", "maximum",
    "exclusiveMinimum", "exclusiveMaximum", "minLength", "maxLength", "minItems", "maxItems",
    "additionalProperties", "title", "description", "default", "sensitive"]

/-- `_SUPPORTED_TYPES` -/
def supportedTypes : List String :=
  ["object", "string", "integer", "boolean", "array", "null"]

/-- One check after the other. -/
def allOk : List (Except PyError Unit) → Except PyError Unit
  | [] => .ok ()
  | check :: checks => check.bind fun _ => allOk checks

theorem allOk_eq_ok {checks : List (Except PyError Unit)} :
    allOk checks = .ok () ↔ ∀ check ∈ checks, check = .ok () := by
  induction checks with
  | nil => simp [allOk]
  | cons check checks ih =>
      rw [allOk, List.forall_mem_cons, ← ih]
      cases check with
      | error error => simp [Except.bind]
      | ok u => simp [Except.bind]

/-! ## Keywords -/

/-- The names of a type keyword. -/
def typeIs (schema : Value) (name : String) : Bool := schema.get? "type" = some (.str name)

/-- A keyword that is there and not null. -/
def present (schema : Value) (keyword : String) : Option Value :=
  (schema.get? keyword).filter fun value => value ≠ .none

/-- `_check_constraint` -/
def checkConstraint (schema : Value) (path keyword requiredType : String) (nonnegative : Bool) :
    Except PyError Unit :=
  match schema.get? keyword with
  | none => .ok ()
  | some value =>
      if typeIs schema requiredType = false then
        .error (.unsupportedSchema s!"{path}.{keyword}: requires type '{requiredType}'")
      else
        match value with
        | .int n =>
            if nonnegative ∧ n < 0 then
              .error (.unsupportedSchema s!"{path}.{keyword}: must be nonnegative")
            else .ok ()
        | _ => .error (.unsupportedSchema s!"{path}.{keyword}: must be an integer")

/-- The keywords with their types, and whether they may be negative. -/
def constraints : List (String × String × Bool) :=
  [("minimum", "integer", false), ("maximum", "integer", false),
    ("exclusiveMinimum", "integer", false), ("exclusiveMaximum", "integer", false),
    ("minLength", "string", true), ("maxLength", "string", true),
    ("minItems", "array", true), ("maxItems", "array", true)]

/-- `_is_sensitive_string_schema` -/
def isSensitiveStringSchema (schema : Value) : Bool :=
  typeIs schema "string" ||
    match schema.get? "anyOf" with
    | some (.list branches) =>
        branches.any (fun branch => typeIs branch "string") &&
          branches.all fun branch => typeIs branch "string" || typeIs branch "null"
    | _ => false

/-- The unsupported keywords and the type. -/
def checkKeywords (schema : Value) (entries : List (String × Value)) (path : String) :
    Except PyError Unit :=
  let unknown := (Assoc.keys entries).filter fun key => key ∉ supportedKeys
  if unknown ≠ [] then
    let keys := ", ".intercalate ((unknown.insertionSort (· ≤ ·)).map fun key => s!"'{key}'")
    .error (.unsupportedSchema s!"{path}: unsupported keywords [{keys}]")
  else
    match present schema "type" with
    | none => .ok ()
    | some (.str name) =>
        if name ∈ supportedTypes then .ok ()
        else .error (.unsupportedSchema s!"{path}: unsupported type '{name}'")
    | some other =>
        let shown := other.text
        .error (.unsupportedSchema s!"{path}: unsupported type {shown}")

def checkRequired (schema : Value) (path : String) : Except PyError Unit :=
  match present schema "required" with
  | none => .ok ()
  | some (.list names) =>
      if names.all fun name => name.isStr then .ok ()
      else .error (.unsupportedSchema s!"{path}.required: must be a list of strings")
  | some _ => .error (.unsupportedSchema s!"{path}.required: must be a list of strings")

/-- The loop over the values of an enumeration, with the ones it has met. -/
def checkUnique (path : String) : List Value → List Value → Except PyError Unit
  | _, [] => .ok ()
  | encoded, item :: items => do
      let bytes ← item.canonicalBytes
      if bytes ∈ encoded then
        throw (.unsupportedSchema s!"{path}.enum: values must be unique")
      else checkUnique path (bytes :: encoded) items

def checkEnum (schema : Value) (path : String) : Except PyError Unit :=
  match present schema "enum" with
  | none => .ok ()
  | some (.list (item :: items)) => checkUnique path [] (item :: items)
  | some _ => .error (.unsupportedSchema s!"{path}.enum: must be a non-empty list")

def checkConstraints (schema : Value) (path : String) :
    List (String × String × Bool) → Except PyError Unit
  | [] => .ok ()
  | (keyword, requiredType, nonnegative) :: rest => do
      checkConstraint schema path keyword requiredType nonnegative
      checkConstraints schema path rest

def checkAnnotations (schema : Value) (path : String) : Except PyError Unit := do
  match present schema "additionalProperties" with
  | none => pure ()
  | some (.bool _) => pure ()
  | some _ => throw (.unsupportedSchema s!"{path}.additionalProperties: must be a boolean")
  match present schema "title" with
  | none => pure ()
  | some value =>
      if value.isStr then pure ()
      else throw (.unsupportedSchema s!"{path}.title: must be a string")
  match present schema "description" with
  | none => pure ()
  | some value =>
      if value.isStr then pure ()
      else throw (.unsupportedSchema s!"{path}.description: must be a string")
  match present schema "sensitive" with
  | none => pure ()
  | some (.bool sensitive) =>
      if sensitive ∧ isSensitiveStringSchema schema = false then
        throw (.unsupportedSchema s!"{path}.sensitive: only string fields may be sensitive")
      else pure ()
  | some _ => throw (.unsupportedSchema s!"{path}.sensitive: must be a boolean")

/-! ## Schemas -/

mutual

/-- `_check_schema` -/
def checkSchema (schema : Value) (path : String) : Except PyError Unit :=
  match schema with
  | .dict entries =>
      let properties : Except PyError Unit := match _h : Assoc.lookup entries "properties" with
        | none => .ok ()
        | some .none => .ok ()
        | some (.dict properties) => checkProperties properties path
        | some _ => .error (.unsupportedSchema s!"{path}.properties: must be an object")
      let anyOf : Except PyError Unit := match _h : Assoc.lookup entries "anyOf" with
        | none => .ok ()
        | some .none => .ok ()
        | some (.list (branch :: branches)) => checkBranches (branch :: branches) path 0
        | some _ =>
            .error (.unsupportedSchema s!"{path}.anyOf: must be a non-empty list of schemas")
      let items : Except PyError Unit := match _h : Assoc.lookup entries "items" with
        | none => .ok ()
        | some items => checkSchema items s!"{path}.items"
      allOk [checkKeywords (.dict entries) entries path, properties,
        checkRequired (.dict entries) path, checkEnum (.dict entries) path, anyOf, items,
        checkConstraints (.dict entries) path constraints, checkAnnotations (.dict entries) path,
        (Value.dict entries).canonicalBytes.map fun _ => ()]
  | _ => .error (.unsupportedSchema s!"{path}: schema must be an object")
termination_by sizeOf schema
decreasing_by
  all_goals
    have hsize := Value.sizeOf_lookup_lt _h
    simp only [Value.dict.sizeOf_spec, Value.list.sizeOf_spec] at hsize ⊢
    omega

def checkProperties (properties : List (String × Value)) (path : String) :
    Except PyError Unit :=
  match properties with
  | [] => .ok ()
  | (name, child) :: rest => do
      checkSchema child s!"{path}.properties.{name}"
      checkProperties rest path
termination_by sizeOf properties

def checkBranches (branches : List Value) (path : String) (index : ℕ) : Except PyError Unit :=
  match branches with
  | [] => .ok ()
  | branch :: rest => do
      checkSchema branch s!"{path}.anyOf[{index}]"
      checkBranches rest path (index + 1)
termination_by sizeOf branches

end

theorem isIdentity_of_checkSchema {schema : Value} {path : String}
    (h : checkSchema schema path = .ok ()) : schema.isIdentity = true := by
  rw [checkSchema.eq_def] at h
  split at h
  · next entries =>
      have hchecked := allOk_eq_ok.mp h _ (List.mem_of_getLast? rfl)
      cases hbytes : (Value.dict entries).canonicalBytes with
      | error error =>
          rw [hbytes] at hchecked
          cases hchecked
      | ok bytes =>
          obtain ⟨rfl, hidentity⟩ := Value.isIdentity_of_canonicalBytes hbytes
          rwa [Value.isIdentity_canonical] at hidentity
  · cases h

/-! ## Values -/

/-- The first finding of a row of checks. -/
def firstOf : List (Except PyError (Option String)) → Except PyError (Option String)
  | [] => .ok none
  | .error error :: _ => .error error
  | .ok (some finding) :: _ => .ok (some finding)
  | .ok none :: checks => firstOf checks

/-- `_matches_type` -/
def matchesType (value : Value) (expected : String) : Bool :=
  match value, expected with
  | .dict _, "object" => true
  | .str _, "string" => true
  | .surrogates _, "string" => true
  | .int _, "integer" => true
  | .bool _, "boolean" => true
  | .list _, "array" => true
  | .none, "null" => true
  | _, _ => false

/-- `_json_equal` -/
def jsonEqual (left right : Value) : Except PyError Bool := do
  let left ← left.canonicalBytes
  let right ← right.canonicalBytes
  return left = right

/-- `any(_json_equal(value, item) for item in enum)` -/
def inEnum (value : Value) : List Value → Except PyError Bool
  | [] => .ok false
  | item :: items => do
      if ← jsonEqual value item then return true
      else inEnum value items

def typeFinding (value schema : Value) (path : String) : Option String :=
  match schema.get? "type" with
  | some (.str expected) =>
      if matchesType value expected then none else some s!"{path}: expected {expected}"
  | _ => none

def enumFinding (value schema : Value) (path : String) : Except PyError (Option String) :=
  match schema.get? "enum" with
  | some (.list enum) =>
      (inEnum value enum).map fun found =>
        if found then none else some s!"{path}: value not in enum"
  | _ => .ok none

/-- An integer keyword. -/
def bound (schema : Value) (keyword : String) : Option ℤ :=
  match schema.get? keyword with
  | some (.int n) => some n
  | _ => none

/-- `_validate_integer_bounds` -/
def integerBoundsFinding (value : ℤ) (schema : Value) (path : String) : Option String :=
  ((bound schema "minimum").filter fun n => value < n).map
      (fun n => s!"{path}: value must be at least {n}") <|>
    ((bound schema "maximum").filter fun n => n < value).map
      (fun n => s!"{path}: value must be at most {n}") <|>
    ((bound schema "exclusiveMinimum").filter fun n => value ≤ n).map
      (fun n => s!"{path}: value must be greater than {n}") <|>
    ((bound schema "exclusiveMaximum").filter fun n => n ≤ value).map
      (fun n => s!"{path}: value must be less than {n}")

/-- `_validate_length` -/
def lengthFinding (length : ℕ) (schema : Value) (path minimumKeyword maximumKeyword : String)
    (measure : String) : Option String :=
  ((bound schema minimumKeyword).filter fun n => (length : ℤ) < n).map
      (fun n => s!"{path}: {measure} must be at least {n}") <|>
    ((bound schema maximumKeyword).filter fun n => n < (length : ℤ)).map
      (fun n => s!"{path}: {measure} must be at most {n}")

/-- The bounds of a value of the expected type. -/
def boundsFinding (value schema : Value) (path : String) : Option String :=
  match value with
  | .int n =>
      if typeIs schema "integer" then integerBoundsFinding n schema path else none
  | .str s =>
      if typeIs schema "string" then
        lengthFinding s.length schema path "minLength" "maxLength" "length"
      else none
  | .surrogates codePoints =>
      if typeIs schema "string" then
        lengthFinding codePoints.length schema path "minLength" "maxLength" "length"
      else none
  | .list items =>
      if typeIs schema "array" then
        lengthFinding items.length schema path "minItems" "maxItems" "item count"
      else none
  | _ => none

/-- The schema describes an object. -/
def describesObject (schema : Value) : Bool :=
  typeIs schema "object" || schema.get? "type" ∈ [none, some .none] &&
    ["properties", "required", "additionalProperties"].any fun key => (schema.get? key).isSome

def requiredFinding (entries : List (String × Value)) (schema : Value) (path : String) :
    Option String :=
  match schema.get? "required" with
  | some (.list names) =>
      names.findSome? fun name =>
        match name with
        | .str name =>
            if (Assoc.lookup entries name).isSome then none
            else some s!"{path}: missing required property {name}"
        | _ => none
  | _ => none

/-- `schema.get("properties", default)` if it is a dictionary. -/
def propertiesOf (schema : Value) : Option (List (String × Value)) :=
  match schema.get? "properties" with
  | none => some []
  | some (.dict properties) => some properties
  | _ => none

def additionalFinding (entries : List (String × Value)) (schema : Value) (path : String) :
    Option String :=
  match propertiesOf schema with
  | some properties =>
      if schema.get? "additionalProperties" = some (.bool false) then
        let extra := (Assoc.keys entries).filter fun key => key ∉ Assoc.keys properties
        (extra.insertionSort (· ≤ ·)).head?.map fun key =>
          s!"{path}: unexpected property {key}"
      else none
  | none => none

mutual

/-- `_validate_value` -/
def validateValue (value schema : Value) (path : String) : Except PyError (Option String) :=
  let anyOf := match _h : schema.get? "anyOf" with
    | some (.list branches) =>
        (matchesAny value branches path).map fun found =>
          if found then none else some s!"{path}: value does not match anyOf"
    | _ => .ok none
  let properties := fun entries => match _h : schema.get? "properties" with
    | some (.dict properties) => validateProperties entries properties path
    | _ => .ok none
  let object := if describesObject schema then
      match value with
      | .dict entries =>
          firstOf [.ok (requiredFinding entries schema path), properties entries,
            .ok (additionalFinding entries schema path)]
      | _ => .ok (some s!"{path}: expected object")
    else .ok none
  let array := if typeIs schema "array" then
      match value with
      | .list items =>
          match _h : schema.get? "items" with
          | some itemSchema =>
              if itemSchema.isDict then
                firstOf (items.zipIdx.map fun e =>
                  validateValue e.1 itemSchema s!"{path}[{e.2}]")
              else .ok none
          | none => .ok none
      | _ => .ok (some s!"{path}: expected array")
    else .ok none
  firstOf [.ok (typeFinding value schema path), enumFinding value schema path, anyOf,
    .ok (boundsFinding value schema path), object, array]
termination_by sizeOf schema
decreasing_by
  · have hsize := Value.sizeOf_get?_lt _h
    rw [Value.list.sizeOf_spec] at hsize
    omega
  · have hsize := Value.sizeOf_get?_lt _h
    rw [Value.dict.sizeOf_spec] at hsize
    omega
  · exact Value.sizeOf_get?_lt _h

/-- `any(... for child_schema in any_of)` -/
def matchesAny (value : Value) (branches : List Value) (path : String) : Except PyError Bool :=
  match branches with
  | [] => .ok false
  | branch :: rest => do
      if branch.isDict then
        if (← validateValue value branch path).isNone then return true
        else matchesAny value rest path
      else matchesAny value rest path
termination_by sizeOf branches

/-- The loop over the properties of a schema. -/
def validateProperties (entries properties : List (String × Value)) (path : String) :
    Except PyError (Option String) :=
  match properties with
  | [] => .ok none
  | (name, child) :: rest =>
      let finding := match Assoc.lookup entries name with
        | some value =>
            if child.isDict then validateValue value child s!"{path}.{name}" else .ok none
        | none => .ok none
      firstOf [finding, validateProperties entries rest path]
termination_by sizeOf properties

end

/-! ## Identity values

On identity values no check raises. -/

theorem firstOf_ok {checks : List (Except PyError (Option String))}
    (h : ∀ check ∈ checks, ∃ finding, check = .ok finding) :
    ∃ finding, firstOf checks = .ok finding := by
  induction checks with
  | nil => exact ⟨none, rfl⟩
  | cons check checks ih =>
      obtain ⟨finding, rfl⟩ := h check List.mem_cons_self
      cases finding with
      | some finding => exact ⟨some finding, rfl⟩
      | none => exact ih fun other hother => h other (List.mem_cons_of_mem _ hother)

theorem inEnum_ok {value : Value} (hvalue : value.isIdentity = true) {items : List Value}
    (hitems : ∀ item ∈ items, item.isIdentity = true) : ∃ found, inEnum value items = .ok found := by
  induction items with
  | nil => exact ⟨false, rfl⟩
  | cons item items ih =>
      rw [List.forall_mem_cons] at hitems
      have hequal : jsonEqual value item = .ok (value.canonical = item.canonical) := by
        rw [jsonEqual, Value.canonicalBytes_ok hvalue, Value.canonicalBytes_ok hitems.1]
        rfl
      rw [inEnum, hequal]
      simp only [bind, Except.bind]
      split
      · exact ⟨true, rfl⟩
      · exact ih hitems.2

theorem enumFinding_ok {value schema : Value} (hvalue : value.isIdentity = true)
    (hschema : schema.isIdentity = true) (path : String) :
    ∃ finding, enumFinding value schema path = .ok finding := by
  unfold enumFinding
  split
  · next enum henum =>
      obtain ⟨found, hfound⟩ := inEnum_ok hvalue
        (Value.isIdentity_list.mp (Value.isIdentity_get? hschema henum))
      exact ⟨_, by rw [hfound]; rfl⟩
  · exact ⟨none, rfl⟩

theorem matchesAny_ok {value : Value} {branches : List Value} {path : String}
    (h : ∀ branch ∈ branches, ∃ finding, validateValue value branch path = .ok finding) :
    ∃ found, matchesAny value branches path = .ok found := by
  induction branches with
  | nil => exact ⟨false, by rw [matchesAny]⟩
  | cons branch rest ih =>
      rw [List.forall_mem_cons] at h
      obtain ⟨found, hfound⟩ := ih h.2
      obtain ⟨finding, hfinding⟩ := h.1
      rw [matchesAny, hfound, hfinding]
      simp only [bind, Except.bind]
      split
      · split
        · exact ⟨true, rfl⟩
        · exact ⟨found, rfl⟩
      · exact ⟨found, rfl⟩

theorem validateProperties_ok {entries properties : List (String × Value)} {path : String}
    (h : ∀ e ∈ properties, ∀ value, (e.1, value) ∈ entries →
      ∀ path, ∃ finding, validateValue value e.2 path = .ok finding) :
    ∃ finding, validateProperties entries properties path = .ok finding := by
  induction properties with
  | nil => exact ⟨none, by rw [validateProperties]⟩
  | cons e rest ih =>
      obtain ⟨name, child⟩ := e
      rw [List.forall_mem_cons] at h
      rw [validateProperties]
      refine firstOf_ok fun check hcheck => ?_
      rcases List.mem_cons.mp hcheck with rfl | hcheck
      · split
        · next value hvalue =>
            split
            · exact h.1 value (Assoc.mem_of_lookup hvalue) _
            · exact ⟨none, rfl⟩
        · exact ⟨none, rfl⟩
      · rw [List.mem_singleton.mp hcheck]
        exact ih h.2

/-- Validation of an identity value against an identity schema does not raise. -/
theorem validateValue_ok {value schema : Value} (hvalue : value.isIdentity = true)
    (hschema : schema.isIdentity = true) (path : String) :
    ∃ finding, validateValue value schema path = .ok finding := by
  induction hsize : sizeOf schema using Nat.strong_induction_on generalizing value schema path with
  | _ size ih =>
    subst hsize
    rw [validateValue.eq_def]
    refine firstOf_ok fun check hcheck => ?_
    simp only [List.mem_cons, List.not_mem_nil, or_false] at hcheck
    rcases hcheck with rfl | rfl | rfl | rfl | rfl | rfl
    · exact ⟨_, rfl⟩
    · exact enumFinding_ok hvalue hschema path
    · split
      · next branches hbranches =>
          have hlist := Value.sizeOf_get?_lt hbranches
          have hidentity := Value.isIdentity_list.mp (Value.isIdentity_get? hschema hbranches)
          obtain ⟨found, hfound⟩ := matchesAny_ok fun branch hbranch =>
            ih _ (by have := List.sizeOf_lt_of_mem hbranch; simp at hlist; omega) hvalue
              (hidentity branch hbranch) path rfl
          exact ⟨_, by rw [hfound]; rfl⟩
      · exact ⟨none, rfl⟩
    · exact ⟨_, rfl⟩
    · split
      · split
        · next entries =>
            refine firstOf_ok fun check hcheck => ?_
            simp only [List.mem_cons, List.not_mem_nil, or_false] at hcheck
            rcases hcheck with rfl | rfl | rfl
            · exact ⟨_, rfl⟩
            · split
              · next properties hproperties =>
                  have hdict := Value.sizeOf_get?_lt hproperties
                  have hidentity := Value.isIdentity_dict.mp
                    (Value.isIdentity_get? hschema hproperties)
                  refine validateProperties_ok fun e he value hentry path => ?_
                  have hsmall := List.sizeOf_lt_of_mem he
                  exact ih _ (by cases e; simp at hdict hsmall ⊢; omega)
                    (Value.isIdentity_dict.mp hvalue _ hentry) (hidentity e he) path rfl
              · exact ⟨none, rfl⟩
            · exact ⟨_, rfl⟩
        · exact ⟨_, rfl⟩
      · exact ⟨none, rfl⟩
    · split
      · split
        · next items =>
            split
            · next itemSchema hitems =>
                split
                · refine firstOf_ok fun check hcheck => ?_
                  obtain ⟨e, he, rfl⟩ := List.mem_map.mp hcheck
                  have hitem := List.fst_mem_of_mem_zipIdx he
                  exact ih _ (Value.sizeOf_get?_lt hitems) (Value.isIdentity_list.mp hvalue _ hitem)
                    (Value.isIdentity_get? hschema hitems) _ rfl
                · exact ⟨none, rfl⟩
            · exact ⟨none, rfl⟩
        · exact ⟨_, rfl⟩
      · exact ⟨none, rfl⟩

end Schema

end Pollard
