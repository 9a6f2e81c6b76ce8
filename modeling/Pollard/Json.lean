import Pollard.Value

/-!
# JSON texts and Python's equality

What `json.dumps` writes with sorted keys, and what `==` makes of two values: it takes
`true`, `1` and `1.0` for equal, which are three JSON texts.
-/

namespace Pollard

open Lib

/-! ## Numbers -/

/-- A decimal in plain notation. -/
def decimalText (q : ℚ) : String :=
  let places := ((List.range (q.den.log2 + 1)).find? fun k => (10 ^ k) % q.den = 0).getD 0
  let digits := toString (q * 10 ^ places).num.natAbs
  let padded := String.ofList (List.replicate (places + 1 - digits.length) '0') ++ digits
  let whole := (padded.take (padded.length - places)).toString
  let fraction := (padded.drop (padded.length - places)).toString
  (if q < 0 then "-" else "") ++ whole ++ (if places = 0 then "" else "." ++ fraction)

/-- `repr` of a finite float. -/
def floatRepr (q : ℚ) : String :=
  let shortest := Binary64.shortest q
  let exponent := Int.log 10 |shortest|
  if shortest = 0 then "0.0"
  else if -4 ≤ exponent ∧ exponent < 16 then
    decimalText shortest ++ if shortest.den = 1 then ".0" else ""
  else
    let digits := toString exponent.natAbs
    decimalText (shortest / 10 ^ exponent) ++ (if exponent < 0 then "e-" else "e+") ++
      if digits.length = 1 then "0" ++ digits else digits

/-! ## Texts -/

/-- A character of a string, escaped. -/
def jsonChar (c : Char) : String :=
  match c.toNat with
  | 8 => "\\b"
  | 9 => "\\t"
  | 10 => "\\n"
  | 12 => "\\f"
  | 13 => "\\r"
  | 34 => "\\\""
  | 92 => "\\\\"
  | n =>
      if n < 32 then
        "\\u00" ++ String.ofList [Nat.digitChar (n / 16), Nat.digitChar (n % 16)]
      else c.toString

def jsonString (s : String) : String :=
  "\"" ++ String.join (s.toList.map jsonChar) ++ "\""

namespace Value

mutual

/-- `json.dumps(value, separators=(",", ":"), ensure_ascii=False)` -/
def dumps : Value → String
  | .none => "null"
  | .bool b => if b then "true" else "false"
  | .int n => toString n
  | .float q => floatRepr q
  | .str s => jsonString s
  | .surrogates codePoints => toString codePoints
  | .list items => "[" ++ ",".intercalate (dumpsItems items) ++ "]"
  | .dict entries => "\x7b" ++ ",".intercalate (dumpsEntries entries) ++ "\x7d"
  | .foreign typeName => typeName

def dumpsItems : List Value → List String
  | [] => []
  | item :: items => dumps item :: dumpsItems items

def dumpsEntries : List (String × Value) → List String
  | [] => []
  | (key, value) :: entries => (jsonString key ++ ":" ++ dumps value) :: dumpsEntries entries

end

/-- `_json_key`: with sorted keys. -/
def jsonText (value : Value) : String := value.canonical.dumps

example : jsonText (.dict [("b", .list [.bool true, .int 1, .float 1]), ("a", .str "\n")]) =
    "\x7b\"a\":\"\\n\",\"b\":[true,1,1.0]\x7d" := by decide +kernel

/-- The values have the same JSON text; the canonical value stands for it. -/
def SameJson (a b : Value) : Prop := a.canonical = b.canonical

instance (a b : Value) : Decidable (SameJson a b) :=
  inferInstanceAs (Decidable (_ = _))

namespace SameJson

theorem refl (value : Value) : SameJson value value := rfl

theorem symm {a b : Value} (h : SameJson a b) : SameJson b a := Eq.symm h

theorem trans {a b c : Value} (h : SameJson a b) (h' : SameJson b c) : SameJson a c := Eq.trans h h'

end SameJson

theorem canonicalItems_eq_map (items : List Value) :
    canonicalItems items = items.map canonical := by
  induction items with
  | nil => rfl
  | cons item items ih => rw [canonicalItems, ih, List.map_cons]

/-- Sorting the keys keeps what is looked up. -/
theorem lookup_orderedInsert (e : String × Value) (entries : List (String × Value))
    (key : String) :
    Assoc.lookup (entries.orderedInsert (fun a b => a.1 ≤ b.1) e) key =
      Assoc.lookup (e :: entries) key := by
  induction entries with
  | nil => rfl
  | cons first rest ih =>
      rw [List.orderedInsert]
      split
      · rfl
      · next hlt =>
          have hne : e.1 ≠ first.1 := fun heq => hlt (le_of_eq heq)
          simp only [Assoc.lookup, ih]
          split
          · next hfirst => rw [if_neg (by rw [← hfirst]; exact hne)]
          · rfl

theorem lookup_insertionSort (entries : List (String × Value)) (key : String) :
    Assoc.lookup (entries.insertionSort fun a b => a.1 ≤ b.1) key = Assoc.lookup entries key := by
  induction entries with
  | nil => rfl
  | cons first rest ih =>
      rw [List.insertionSort_cons, lookup_orderedInsert, Assoc.lookup, Assoc.lookup, ih]

theorem get?_canonical (value : Value) (key : String) :
    value.canonical.get? key = (value.get? key).map canonical := by
  cases value with
  | dict entries =>
      change Assoc.lookup ((canonicalEntries entries).insertionSort fun a b => a.1 ≤ b.1) key = _
      rw [lookup_insertionSort, canonicalEntries_eq_map]
      change _ = (Assoc.lookup entries key).map canonical
      induction entries with
      | nil => rfl
      | cons e entries ih =>
          rw [List.map_cons, Assoc.lookup, Assoc.lookup]
          split
          · rfl
          · exact ih
  | _ => rfl

/-- The same JSON text has the same entries. -/
theorem SameJson.get? {a b v : Value} (h : SameJson a b) {key : String}
    (hv : a.get? key = some v) : ∃ w, b.get? key = some w ∧ SameJson v w := by
  have hkey := congrArg (fun value => value.get? key) h
  simp only [get?_canonical, hv, Option.map_some] at hkey
  cases hw : b.get? key with
  | none =>
      rw [hw] at hkey
      cases hkey
  | some w =>
      rw [hw] at hkey
      exact ⟨w, rfl, Option.some.inj hkey⟩

theorem SameJson.list {items : List Value} {b : Value} (h : SameJson (.list items) b) :
    ∃ others, b = .list others ∧ items.map canonical = others.map canonical := by
  cases b with
  | list others =>
      refine ⟨others, rfl, ?_⟩
      rw [← canonicalItems_eq_map, ← canonicalItems_eq_map]
      exact list.inj h
  | _ => cases h

/-- The same JSON text has the same items. -/
theorem SameJson.mem {items others : List Value} (h : items.map canonical = others.map canonical)
    {item : Value} (hitem : item ∈ items) : ∃ other ∈ others, SameJson item other := by
  have hmem : item.canonical ∈ others.map canonical := h ▸ List.mem_map_of_mem hitem
  obtain ⟨other, hother, heq⟩ := List.mem_map.mp hmem
  exact ⟨other, hother, heq.symm⟩

theorem SameJson.str {s : String} {b : Value} (h : SameJson (.str s) b) : b = .str s := by
  cases b with
  | str t => exact (str.inj h) ▸ rfl
  | _ => cases h

/-! ## Python's equality -/

/-- What a value is as a number. -/
def number? : Value → Option ℚ
  | .bool b => some (if b then 1 else 0)
  | .int n => some n
  | .float q => some q
  | _ => Option.none

/-- `==` of two values that are not both lists or both dictionaries. -/
def scalarEq (a b : Value) : Bool :=
  match a.number?, b.number? with
  | some x, some y => x = y
  | Option.none, Option.none => a = b
  | _, _ => false

mutual

/-- `==` -/
def pyEq (a b : Value) : Bool :=
  match a, b with
  | .list as, .list bs => pyEqItems as bs
  | .dict as, .dict bs =>
      ((Assoc.keys bs).all fun key => key ∈ Assoc.keys as) &&
        (Assoc.keys as).all fun key =>
          match _h : Assoc.lookup as key, Assoc.lookup bs key with
          | some v, some w => pyEq v w
          | _, _ => false
  | a, b => scalarEq a b
termination_by sizeOf a
decreasing_by
  · rw [Value.list.sizeOf_spec]
    omega
  · have hsize := sizeOf_lookup_lt _h
    rw [Value.dict.sizeOf_spec]
    omega

def pyEqItems (as bs : List Value) : Bool :=
  match as, bs with
  | [], [] => true
  | a :: as, b :: bs => pyEq a b && pyEqItems as bs
  | _, _ => false
termination_by sizeOf as

end

example : pyEq (.dict [("a", .bool true), ("b", .none)]) (.dict [("b", .none), ("a", .float 1)]) =
    true := by decide +kernel

theorem pyEqItems_iff {as bs : List Value} :
    pyEqItems as bs = true ↔ List.Forall₂ (fun a b => pyEq a b = true) as bs := by
  induction as generalizing bs with
  | nil => cases bs <;> simp [pyEqItems]
  | cons a as ih => cases bs <;> simp [pyEqItems, ih]

theorem pyEq_list_iff {as bs : List Value} :
    pyEq (.list as) (.list bs) = true ↔ List.Forall₂ (fun a b => pyEq a b = true) as bs := by
  rw [pyEq, pyEqItems_iff]

theorem pyEq_dict_iff {as bs : List (String × Value)} :
    pyEq (.dict as) (.dict bs) = true ↔
      ∀ key, Option.Rel (fun v w => pyEq v w = true) (Assoc.lookup as key)
        (Assoc.lookup bs key) := by
  rw [pyEq, Bool.and_eq_true, List.all_eq_true, List.all_eq_true]
  constructor
  · rintro ⟨hother, hsame⟩ key
    cases hv : Assoc.lookup as key with
    | none =>
        have hbs : Assoc.lookup bs key = Option.none := by
          rw [Assoc.lookup_eq_none_iff] at hv ⊢
          exact fun hmem => hv (of_decide_eq_true (hother key hmem))
        rw [hbs]
        exact .none
    | some v =>
        have hkey := hsame key (Assoc.mem_keys_of_lookup hv)
        split at hkey
        · next v' w hv' hw =>
            rw [hv] at hv'
            cases hv'
            rw [hw]
            exact .some hkey
        · cases hkey
  · intro h
    constructor
    · intro key hmem
      have hkey := h key
      refine decide_eq_true ?_
      by_contra hnot
      rw [← Assoc.lookup_eq_none_iff] at hnot
      rw [hnot] at hkey
      cases hw : Assoc.lookup bs key with
      | none => exact Assoc.lookup_eq_none_iff.mp hw hmem
      | some w =>
          rw [hw] at hkey
          cases hkey
    · intro key hmem
      have hkey := h key
      cases hv : Assoc.lookup as key with
      | none => exact absurd hmem (Assoc.lookup_eq_none_iff.mp hv)
      | some v =>
          rw [hv] at hkey
          cases hw : Assoc.lookup bs key with
          | none =>
              rw [hw] at hkey
              cases hkey
          | some w =>
              rw [hw] at hkey
              split
              · next v' w' hv' hw' =>
                  cases hv'
                  cases hw'
                  cases hkey with
                  | some hvw => exact hvw
              · next hnone => exact absurd rfl (hnone v w rfl)

theorem scalarEq_symm {a b : Value} (h : scalarEq a b = true) : scalarEq b a = true := by
  unfold scalarEq at h ⊢
  cases ha : a.number? <;> cases hb : b.number? <;> simp_all

theorem scalarEq_refl (value : Value) : scalarEq value value = true := by
  unfold scalarEq
  cases value.number? <;> simp

theorem pyEq_scalar {a b : Value} (hlist : ∀ as bs, ¬ (a = .list as ∧ b = .list bs))
    (hdict : ∀ as bs, ¬ (a = .dict as ∧ b = .dict bs)) : pyEq a b = scalarEq a b := by
  rw [pyEq.eq_def]
  split
  · next as bs => exact absurd ⟨rfl, rfl⟩ (hlist as bs)
  · next as bs => exact absurd ⟨rfl, rfl⟩ (hdict as bs)
  · rfl

/-- Only a list is equal to a list. -/
theorem pyEq_list_left {as : List Value} {b : Value} (h : pyEq (.list as) b = true) :
    ∃ bs, b = .list bs := by
  by_contra hother
  rw [pyEq_scalar (fun _ bs hboth => hother ⟨bs, hboth.2⟩) (by simp)] at h
  cases b with
  | list bs => exact hother ⟨bs, rfl⟩
  | _ => simp [scalarEq, number?] at h

/-- Only a dictionary is equal to a dictionary. -/
theorem pyEq_dict_left {as : List (String × Value)} {b : Value} (h : pyEq (.dict as) b = true) :
    ∃ bs, b = .dict bs := by
  by_contra hother
  rw [pyEq_scalar (by simp) (fun _ bs hboth => hother ⟨bs, hboth.2⟩)] at h
  cases b with
  | dict bs => exact hother ⟨bs, rfl⟩
  | _ => simp [scalarEq, number?] at h

theorem pyEq_refl (value : Value) : pyEq value value = true := by
  induction hsize : sizeOf value using Nat.strong_induction_on generalizing value with
  | _ size ih =>
    subst hsize
    cases value with
    | list items =>
        rw [pyEq_list_iff, List.forall₂_same]
        intro item hitem
        have hsmall := List.sizeOf_lt_of_mem hitem
        exact ih _ (by rw [list.sizeOf_spec]; omega) item rfl
    | dict entries =>
        rw [pyEq_dict_iff]
        intro key
        cases hv : Assoc.lookup entries key with
        | none => exact .none
        | some v =>
            have hsmall := sizeOf_lookup_lt hv
            exact .some (ih _ (by rw [dict.sizeOf_spec]; omega) v rfl)
    | _ =>
        rw [pyEq_scalar (by simp) (by simp)]
        exact scalarEq_refl _

theorem pyEq_symm {a b : Value} (h : pyEq a b = true) : pyEq b a = true := by
  induction hsize : sizeOf a using Nat.strong_induction_on generalizing a b with
  | _ size ih =>
    subst hsize
    cases a with
    | list as =>
        obtain ⟨bs, rfl⟩ := pyEq_list_left h
        have hsmall : ∀ a ∈ as, sizeOf a < sizeOf (Value.list as) := by
          intro a ha
          have hlt := List.sizeOf_lt_of_mem ha
          rw [list.sizeOf_spec]
          omega
        rw [pyEq_list_iff] at h ⊢
        generalize sizeOf (Value.list as) = bound at hsmall ih
        induction h with
        | nil => exact .nil
        | cons hfirst _ hrest =>
            rw [List.forall_mem_cons] at hsmall
            exact .cons (ih _ hsmall.1 hfirst rfl) (hrest hsmall.2)
    | dict as =>
        obtain ⟨bs, rfl⟩ := pyEq_dict_left h
        rw [pyEq_dict_iff] at h ⊢
        intro key
        have hkey := h key
        cases hv : Assoc.lookup as key with
        | none =>
            rw [hv] at hkey
            cases hw : Assoc.lookup bs key with
            | none => exact .none
            | some w =>
                rw [hw] at hkey
                cases hkey
        | some v =>
            rw [hv] at hkey
            cases hw : Assoc.lookup bs key with
            | none =>
                rw [hw] at hkey
                cases hkey
            | some w =>
                rw [hw] at hkey
                cases hkey with
                | some hvw =>
                    have hsmall := sizeOf_lookup_lt hv
                    exact .some (ih _ (by rw [dict.sizeOf_spec]; omega) hvw rfl)
    | _ =>
        rw [pyEq_scalar (by simp) (by simp)] at h
        rw [pyEq_scalar (by simp) (by simp)]
        exact scalarEq_symm h

theorem isDict_canonical (value : Value) : value.canonical.isDict = value.isDict := by
  cases value <;> rfl

mutual

theorem isJson_canonical : ∀ value : Value, isJson value.canonical = isJson value
  | .none | .bool _ | .int _ | .str _ | .surrogates _ | .float _ | .foreign _ => rfl
  | .list items => by
      rw [canonical, isJson, isJson]
      exact isJsonItems_canonical items
  | .dict entries => by
      have hall : ∀ entries : List (String × Value),
          isJsonEntries entries = entries.all fun e => isJson e.2 := by
        intro entries
        induction entries with
        | nil => rfl
        | cons e entries ih => rw [isJsonEntries, ih, List.all_cons]
      rw [canonical, isJson, isJson, ← isJsonEntries_canonical entries, hall, hall]
      exact (List.perm_insertionSort _ _).all_eq

theorem isJsonItems_canonical : ∀ items : List Value,
    isJsonItems (canonicalItems items) = isJsonItems items
  | [] => rfl
  | item :: items => by
      rw [canonicalItems, isJsonItems, isJsonItems, isJson_canonical item,
        isJsonItems_canonical items]

theorem isJsonEntries_canonical : ∀ entries : List (String × Value),
    isJsonEntries (canonicalEntries entries) = isJsonEntries entries
  | [] => rfl
  | (key, value) :: entries => by
      rw [canonicalEntries, isJsonEntries, isJsonEntries, isJson_canonical value,
        isJsonEntries_canonical entries]

end

end Value

/-- A JSON object as `_json_text` writes it. -/
def jsonText (object : Dict String Value) : Dict String Value :=
  (object.map Value.canonical).sorted fun a b => a.1 ≤ b.1

end Pollard
