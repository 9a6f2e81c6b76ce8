import Pollard.Identity.Languages
import Pollard.Stores.Interning

/-!
# Equality of values in Rust

`serde_json` compares numbers by their texts, and the writer of identities writes `-0` as `0`:
values with one canonical text are equal exactly if they spell zeros alike.
-/

namespace Pollard.Rust.Json

open Lib Stores.Interning

/-! ## Numbers -/

/-- The end of a number after its integer digits and its fraction. -/
def isExponent : List Char → Bool
  | [] => true
  | c :: rest =>
      let digits := if rest.head? = some '+' ∨ rest.head? = some '-' then rest.tail else rest
      (c = 'e' ∨ c = 'E') ∧ digits ≠ [] ∧ digits.all Char.isDigit

/-- The end of a number after its integer digits. -/
def isFraction : List Char → Bool
  | '.' :: c :: rest => c.isDigit && isExponent (rest.dropWhile Char.isDigit)
  | rest => isExponent rest

/-- The digits of a text that may have a minus sign. -/
def unsigned (text : String) : List Char :=
  if text.toList.head? = some '-' then text.toList.tail else text.toList

/-- A number of the JSON grammar. -/
def isNumber (text : String) : Bool :=
  match unsigned text with
  | [] => false
  | '0' :: rest => isFraction rest
  | c :: rest => c.isDigit && isFraction (rest.dropWhile Char.isDigit)

mutual

/-- Numbers are spelled as in a JSON text, and objects have distinct keys. -/
def wellFormed : Json → Bool
  | .number text => isNumber text
  | .array items => wellFormedItems items
  | .object entries => (Assoc.keys entries).Nodup ∧ wellFormedEntries entries
  | _ => true

def wellFormedItems : List Json → Bool
  | [] => true
  | item :: items => wellFormed item && wellFormedItems items

def wellFormedEntries : List (String × Json) → Bool
  | [] => true
  | (_, value) :: entries => wellFormed value && wellFormedEntries entries

end

/-- Induction on values, with the items of an array and the values of an object at once. -/
@[elab_as_elim]
theorem induct {P : Json → Prop} (null : P .null) (bool : ∀ b, P (.bool b))
    (number : ∀ text, P (.number text)) (string : ∀ text, P (.string text))
    (array : ∀ items : List Json, (∀ item ∈ items, P item) → P (.array items))
    (object : ∀ entries : List (String × Json), (∀ e ∈ entries, P e.2) → P (.object entries))
    (value : Json) : P value :=
  @Json.rec P (fun items => ∀ item ∈ items, P item) (fun entries => ∀ e ∈ entries, P e.2)
    (fun e => P e.2) null bool number string array object nofun
    (fun _ _ hfirst hrest => List.forall_mem_cons.mpr ⟨hfirst, hrest⟩) nofun
    (fun _ _ hfirst hrest => List.forall_mem_cons.mpr ⟨hfirst, hrest⟩) (fun _ _ h => h) value

theorem wellFormedItems_iff {items : List Json} :
    wellFormedItems items = true ↔ ∀ item ∈ items, item.wellFormed = true := by
  induction items with
  | nil => simp [wellFormedItems]
  | cons item items ih => rw [wellFormedItems, Bool.and_eq_true, ih, List.forall_mem_cons]

theorem wellFormedEntries_iff {entries : List (String × Json)} :
    wellFormedEntries entries = true ↔ ∀ e ∈ entries, e.2.wellFormed = true := by
  induction entries with
  | nil => simp [wellFormedEntries]
  | cons e entries ih => rw [wellFormedEntries, Bool.and_eq_true, ih, List.forall_mem_cons]

theorem digitChar_of_isDigit {c : Char} (h : c.isDigit = true) :
    c.toNat - 48 < 10 ∧ Nat.digitChar (c.toNat - 48) = c := by
  have hrange : 48 ≤ c.toNat ∧ c.toNat ≤ 57 := by
    simp only [Char.isDigit, Bool.and_eq_true, decide_eq_true_eq, ge_iff_le, UInt32.le_iff_toNat_le]
      at h
    exact h
  refine ⟨by omega, ?_⟩
  conv_rhs => rw [← Char.ofNat_toNat c]
  generalize c.toNat = n at hrange
  obtain ⟨hlow, hhigh⟩ := hrange
  interval_cases n <;> rfl

/-- A run of digits without superfluous zeros is the text of a number. -/
theorem toDigits_ofDigitChars {digits : List Char} (hall : digits.all Char.isDigit = true)
    (hne : digits ≠ []) (hzero : digits = ['0'] ∨ digits.head? ≠ some '0') :
    Nat.toDigits 10 (Nat.ofDigitChars 10 digits 0) = digits := by
  induction digits using List.reverseRecOn with
  | nil => exact absurd rfl hne
  | append_singleton init c ih =>
      rw [List.all_append, Bool.and_eq_true, List.all_cons, List.all_nil, Bool.and_true] at hall
      obtain ⟨hlt, hchar⟩ := digitChar_of_isDigit hall.2
      have hlast : Nat.ofDigitChars 10 [c] (Nat.ofDigitChars 10 init 0) =
          10 * Nat.ofDigitChars 10 init 0 + (c.toNat - 48) := by
        rw [Nat.ofDigitChars_cons, Nat.ofDigitChars_nil]
        rfl
      rw [Nat.ofDigitChars_append, hlast]
      cases init with
      | nil =>
          rw [Nat.ofDigitChars_nil, Nat.mul_zero, Nat.zero_add, Nat.toDigits_of_lt_base hlt, hchar]
          rfl
      | cons first init =>
          have hfirst : first ≠ '0' := by
            rcases hzero with hzero | hzero
            · simp at hzero
            · simpa using hzero
          have hinit := ih hall.1 (List.cons_ne_nil _ _) (.inr (by simpa using hfirst))
          have hpos : 0 < Nat.ofDigitChars 10 (first :: init) 0 := by
            by_contra hle
            rw [Nat.eq_zero_of_not_pos hle, Nat.toDigits_zero] at hinit
            exact hfirst (List.head_eq_of_cons_eq hinit).symm
          rw [← Nat.toDigits_append_toDigits (by decide) hpos hlt, hinit,
            Nat.toDigits_of_lt_base hlt, hchar]

/-- The digits of an integer of a JSON text have no superfluous zeros. -/
theorem unsigned_spec {text : String} (hspelled : isNumber text = true)
    (hall : (unsigned text).all Char.isDigit = true) :
    unsigned text ≠ [] ∧ (unsigned text = ['0'] ∨ (unsigned text).head? ≠ some '0') := by
  unfold isNumber at hspelled
  split at hspelled
  · cases hspelled
  · next rest heq =>
      rw [heq] at hall ⊢
      refine ⟨List.cons_ne_nil _ _, .inl ?_⟩
      cases rest with
      | nil => rfl
      | cons c rest =>
          rw [List.all_cons, List.all_cons, Bool.and_eq_true, Bool.and_eq_true] at hall
          have hdot : c ≠ '.' := fun h => by simp [h] at hall
          have he : c ≠ 'e' := fun h => by simp [h] at hall
          have hE : c ≠ 'E' := fun h => by simp [h] at hall
          have hexponent : isFraction (c :: rest) = isExponent (c :: rest) := by
            unfold isFraction
            split
            · next heq => exact absurd (List.head_eq_of_cons_eq heq) hdot
            · rfl
          rw [hexponent, isExponent] at hspelled
          simp [he, hE] at hspelled
  · next c rest hne heq =>
      rw [heq]
      refine ⟨List.cons_ne_nil _ _, .inr ?_⟩
      rw [List.head?_cons]
      rintro ⟨rfl⟩
      exact hne rfl

theorem readInt_digits {digits : List Char} (hall : digits.all Char.isDigit = true) :
    readInt digits = Nat.ofDigitChars 10 digits 0 := by
  unfold readInt
  split
  · rw [List.all_cons, Bool.and_eq_true] at hall
    exact absurd hall.1 (by decide)
  · rfl

/-- An integer of a JSON text is `-0` or spelled as integers are. -/
theorem integerText_eq {text integer : String} (hspelled : isNumber text = true)
    (h : integerText text = some integer) :
    integer = toString (readInt integer.toList) ∧
      (text = integer ∨ text = "-0" ∧ integer = "0") := by
  unfold integerText at h
  dsimp only at h
  change (if unsigned text = [] ∨ (unsigned text).all Char.isDigit = false then none
    else _) = _ at h
  split at h
  · cases h
  · next hdigits =>
      push Not at hdigits
      have hall : (unsigned text).all Char.isDigit = true := by simpa using hdigits.2
      obtain ⟨hne, hzero⟩ := unsigned_spec hspelled hall
      have hread := toDigits_ofDigitChars hall hne hzero
      split at h
      · next hminus =>
          cases h
          exact ⟨by decide, .inr ⟨hminus, rfl⟩⟩
      · next hminus =>
          cases h
          refine ⟨?_, .inl rfl⟩
          by_cases hsign : text.toList.head? = some '-'
          · obtain ⟨digits, hdigits⟩ := List.head?_eq_some_iff.mp hsign
            have hunsigned : unsigned text = digits := by
              rw [unsigned, if_pos hsign, hdigits, List.tail_cons]
            rw [hunsigned] at hread
            rw [hdigits]
            change text = toString (-((Nat.ofDigitChars 10 digits 0 : ℕ) : ℤ))
            cases hn : Nat.ofDigitChars 10 digits 0 with
            | zero =>
                rw [hn, Nat.toDigits_zero] at hread
                rw [← hread] at hdigits
                exact absurd (String.toList_inj.mp hdigits) hminus
            | succ n =>
                rw [hn] at hread
                refine String.toList_inj.mp ?_
                change _ = ("-" ++ Nat.repr (n + 1)).toList
                rw [String.toList_append, Nat.repr, String.toList_ofList, hread, hdigits,
                  String.toList_ofList]
                rfl
          · have hunsigned : unsigned text = text.toList := if_neg hsign
            rw [hunsigned] at hread hall
            rw [readInt_digits hall]
            change text = Nat.repr _
            rw [Nat.repr, hread, String.ofList_toList]

/-! ## The value that is written -/

mutual

/-- The value as Python reads it from the text that is written. -/
def toValue : Json → Value
  | .null => .none
  | .bool b => .bool b
  | .number text =>
      match integerText text with
      | some integer => .int (readInt integer.toList)
      | none => .foreign "float"
  | .string text => .str text
  | .array items => .list (toValueItems items)
  | .object entries => .dict (toValueEntries entries)

def toValueItems : List Json → List Value
  | [] => []
  | item :: items => toValue item :: toValueItems items

def toValueEntries : List (String × Json) → List (String × Value)
  | [] => []
  | (key, value) :: entries => (key, toValue value) :: toValueEntries entries

end

theorem toValueEntries_eq_map (entries : List (String × Json)) :
    toValueEntries entries = entries.map fun e => (e.1, e.2.toValue) := by
  induction entries with
  | nil => rfl
  | cons e entries ih => rw [toValueEntries, ih, List.map_cons]

theorem toValueItems_eq_map (items : List Json) : toValueItems items = items.map toValue := by
  induction items with
  | nil => rfl
  | cons item items ih => rw [toValueItems, ih, List.map_cons]

theorem forall_ok_of_mapM_id {l : List (Except Error (List ℕ))} {texts : List (List ℕ)}
    (h : l.mapM id = .ok texts) : ∀ x ∈ l, ∃ text, x = .ok text := fun _ hx =>
  (Fallible.exists_of_forall₂ (Fallible.mapM_ok_iff.mp h) hx).imp fun _ h => h.2

mutual

/-- What can be written is an identity value, and it is written as Python's value is. -/
theorem write_eq_of_ok : ∀ (value : Json) {octets : List ℕ}, value.wellFormed = true →
    value.write = .ok octets →
    value.toValue.isIdentity = true ∧ value.toValue.toRust.write = .ok octets
  | .null, _, _, h | .bool _, _, _, h | .string _, _, _, h => ⟨rfl, h⟩
  | .number text, octets, hwell, h => by
      cases hinteger : integerText text with
      | none =>
          rw [write, hinteger] at h
          cases h
      | some integer =>
          have hcanonical := (integerText_eq hwell hinteger).1
          have hvalue : (Json.number text).toValue = .int (readInt integer.toList) := by
            rw [toValue, hinteger]
          rw [hvalue]
          refine ⟨rfl, ?_⟩
          rw [write, hinteger] at h
          rw [Value.toRust, write, Value.integerText_toString, ← hcanonical]
          exact h
  | .array items, octets, hwell, h => by
      rw [write] at h
      obtain ⟨texts, htexts, h⟩ := Fallible.bind_ok_iff.mp h
      obtain ⟨hidentity, hsame⟩ :=
        writeItems_eq_of_ok items hwell (forall_ok_of_mapM_id htexts)
      refine ⟨hidentity, ?_⟩
      rw [toValue, Value.toRust, write, hsame, htexts]
      exact h
  | .object entries, octets, hwell, h => by
      rw [write] at h
      obtain ⟨texts, htexts, h⟩ := Fallible.bind_ok_iff.mp h
      simp only [wellFormed, decide_eq_true_eq] at hwell
      obtain ⟨hidentity, hsame⟩ := writeEntries_eq_of_ok entries hwell.2 fun e he =>
        forall_ok_of_mapM_id htexts e.2
          (List.mem_map_of_mem ((List.mem_insertionSort _).mpr he))
      refine ⟨hidentity, ?_⟩
      rw [toValue, Value.toRust, write, hsame, htexts]
      exact h

theorem writeItems_eq_of_ok : ∀ items : List Json, wellFormedItems items = true →
    (∀ x ∈ writeItems items, ∃ text, x = .ok text) →
    Value.isIdentityItems (toValueItems items) = true ∧
      writeItems (Value.toRustItems (toValueItems items)) = writeItems items
  | [], _, _ => ⟨rfl, rfl⟩
  | item :: items, hwell, h => by
      rw [wellFormedItems, Bool.and_eq_true] at hwell
      rw [writeItems, List.forall_mem_cons] at h
      obtain ⟨⟨text, htext⟩, hrest⟩ := h
      obtain ⟨hidentity, hwrite⟩ := write_eq_of_ok item hwell.1 htext
      obtain ⟨hidentities, hwrites⟩ := writeItems_eq_of_ok items hwell.2 hrest
      refine ⟨?_, ?_⟩
      · rw [toValueItems, Value.isIdentityItems, hidentity, hidentities]
        rfl
      · rw [toValueItems, Value.toRustItems, writeItems, writeItems, hwrite, hwrites, htext]

theorem writeEntries_eq_of_ok : ∀ entries : List (String × Json),
    wellFormedEntries entries = true →
    (∀ e ∈ writeEntries entries, ∃ text, e.2 = .ok text) →
    Value.isIdentityEntries (toValueEntries entries) = true ∧
      writeEntries (Value.toRustEntries (toValueEntries entries)) = writeEntries entries
  | [], _, _ => ⟨rfl, rfl⟩
  | (key, value) :: entries, hwell, h => by
      rw [wellFormedEntries, Bool.and_eq_true] at hwell
      rw [writeEntries, List.forall_mem_cons] at h
      obtain ⟨⟨text, htext⟩, hrest⟩ := h
      obtain ⟨written, hwritten, -⟩ := Fallible.map_ok_iff.mp htext
      obtain ⟨hidentity, hwrite⟩ := write_eq_of_ok value hwell.1 hwritten
      obtain ⟨hidentities, hwrites⟩ := writeEntries_eq_of_ok entries hwell.2 hrest
      refine ⟨?_, ?_⟩
      · rw [toValueEntries, Value.isIdentityEntries, hidentity, hidentities]
        rfl
      · rw [toValueEntries, Value.toRustEntries, writeEntries, writeEntries, hwrite, hwrites,
          hwritten]

end

/-! ## Equality -/

mutual

/-- Equality of two values with a comparison of the texts of their numbers. -/
def equalWith (same : String → String → Bool) : Json → Json → Bool
  | .null, .null => true
  | .bool a, .bool b => a = b
  | .number a, .number b => same a b
  | .string a, .string b => a = b
  | .array items, .array others => equalItems same items others
  | .object entries, .object others =>
      entries.length = others.length && equalEntries same entries others
  | _, _ => false

def equalItems (same : String → String → Bool) : List Json → List Json → Bool
  | [], [] => true
  | item :: items, other :: others => equalWith same item other && equalItems same items others
  | _, _ => false

def equalEntries (same : String → String → Bool) :
    List (String × Json) → List (String × Json) → Bool
  | [], _ => true
  | (key, value) :: entries, others =>
      (match Assoc.lookup others key with
        | some other => equalWith same value other
        | none => false) && equalEntries same entries others

end

/-- `==` of `serde_json` -/
def equal (a b : Json) : Bool := equalWith (fun a b => a = b) a b

section Alike

variable {same : String → String → Bool}

/-- What is found under a key in two objects is alike. -/
def AlikeAt (same : String → String → Bool) : Option Json → Option Json → Prop
  | none, none => True
  | some value, some other => equalWith same value other = true
  | _, _ => False

theorem equalEntries_iff_forall {entries others : List (String × Json)} :
    equalEntries same entries others = true ↔
      ∀ e ∈ entries, AlikeAt same (some e.2) (Assoc.lookup others e.1) := by
  induction entries with
  | nil => simp [equalEntries]
  | cons e entries ih =>
      rw [equalEntries, Bool.and_eq_true, ih, List.forall_mem_cons]
      refine and_congr_left' ?_
      cases Assoc.lookup others e.1 <;> simp [AlikeAt]

theorem AlikeAt.exists_left {value? : Option Json} {other : Json}
    (h : AlikeAt same value? (some other)) :
    ∃ value, value? = some value ∧ equalWith same value other = true := by
  cases value? with
  | none => exact h.elim
  | some value => exact ⟨value, rfl, h⟩

theorem AlikeAt.exists_right {value : Json} {other? : Option Json}
    (h : AlikeAt same (some value) other?) :
    ∃ other, other? = some other ∧ equalWith same value other = true := by
  cases other? with
  | none => exact h.elim
  | some other => exact ⟨other, rfl, h⟩

theorem equalItems_iff_forall₂ {items others : List Json} :
    equalItems same items others = true ↔
      List.Forall₂ (fun item other => equalWith same item other = true) items others := by
  induction items generalizing others with
  | nil => cases others <;> simp [equalItems]
  | cons item items ih =>
      cases others with
      | nil => simp [equalItems]
      | cons other others => rw [equalItems, Bool.and_eq_true, ih, List.forall₂_cons]

end Alike

/-! ## Zeros -/

/-- A place in an object or an array. -/
inductive Place where
  | key (name : String)
  | index (i : ℕ)
deriving DecidableEq, Repr

def at? : List Place → Json → Option Json
  | [], value => some value
  | .key name :: path, .object entries => (Assoc.lookup entries name).bind (at? path)
  | .index i :: path, .array items => items[i]?.bind (at? path)
  | _, _ => none

/-- A zero with a minus sign stands at this path. -/
def NegativeZeroAt (value : Json) (path : List Place) : Prop := value.at? path = some (.number "-0")

/-- The values spell zeros alike. -/
def ZerosAlike (a b : Json) : Prop := ∀ path, a.NegativeZeroAt path ↔ b.NegativeZeroAt path

theorem zerosAlike_number {a b : String} :
    ZerosAlike (.number a) (.number b) ↔ (a = "-0" ↔ b = "-0") := by
  constructor
  · intro h
    simpa [NegativeZeroAt, at?] using h []
  · intro h path
    cases path with
    | nil => simpa [NegativeZeroAt, at?] using h
    | cons place path => cases place <;> simp [NegativeZeroAt, at?]

theorem zerosAlike_cons {item other : Json} {items others : List Json} :
    ZerosAlike (.array (item :: items)) (.array (other :: others)) ↔
      ZerosAlike item other ∧ ZerosAlike (.array items) (.array others) := by
  constructor
  · refine fun h => ⟨fun path => h (.index 0 :: path), fun path => ?_⟩
    match path with
    | [] => simp [NegativeZeroAt, at?]
    | .key name :: path => simp [NegativeZeroAt, at?]
    | .index i :: path => exact h (.index (i + 1) :: path)
  · rintro ⟨hfirst, hrest⟩ path
    match path with
    | [] => simp [NegativeZeroAt, at?]
    | .key name :: path => simp [NegativeZeroAt, at?]
    | .index 0 :: path => exact hfirst path
    | .index (i + 1) :: path => exact hrest (.index i :: path)

theorem zerosAlike_object {entries others : List (String × Json)}
    (hkeys : ∀ key, Assoc.lookup entries key = none ↔ Assoc.lookup others key = none) :
    ZerosAlike (.object entries) (.object others) ↔
      ∀ key value other, Assoc.lookup entries key = some value →
        Assoc.lookup others key = some other → ZerosAlike value other := by
  constructor
  · intro h key value other hvalue hother path
    simpa [NegativeZeroAt, at?, hvalue, hother] using h (.key key :: path)
  · intro h path
    match path with
    | [] => simp [NegativeZeroAt, at?]
    | .index i :: path => simp [NegativeZeroAt, at?]
    | .key name :: path =>
        cases hvalue : Assoc.lookup entries name with
        | none => simp [NegativeZeroAt, at?, hvalue, (hkeys name).mp hvalue]
        | some value =>
            cases hother : Assoc.lookup others name with
            | none => simp [(hkeys name).mpr hother] at hvalue
            | some other =>
                simpa [NegativeZeroAt, at?, hvalue, hother] using
                  h name value other hvalue hother path

theorem lookup_toValueEntries (entries : List (String × Json)) (key : String) :
    Assoc.lookup (toValueEntries entries) key = (Assoc.lookup entries key).map toValue := by
  rw [toValueEntries_eq_map]
  exact Assoc.lookup_map Function.injective_id toValue entries key

/-- Two objects of one JSON value have the same keys, and their values are alike. -/
theorem lookup_of_sameJson {entries others : List (String × Json)}
    (hsame : Value.SameJson (.dict (toValueEntries entries)) (.dict (toValueEntries others)))
    {key : String} {value : Json} (h : Assoc.lookup entries key = some value) :
    ∃ other, Assoc.lookup others key = some other ∧
      Value.SameJson value.toValue other.toValue := by
  have hget : (Value.dict (toValueEntries entries)).get? key = some value.toValue := by
    change Assoc.lookup _ _ = _
    rw [lookup_toValueEntries, h, Option.map_some]
  obtain ⟨found, hfound, hvalues⟩ := hsame.get? hget
  change Assoc.lookup _ _ = _ at hfound
  rw [lookup_toValueEntries, Option.map_eq_some_iff] at hfound
  obtain ⟨other, hother, rfl⟩ := hfound
  exact ⟨other, hother, hvalues⟩

theorem length_of_sameJson {entries others : List (String × Json)}
    (hsame : Value.SameJson (.dict (toValueEntries entries)) (.dict (toValueEntries others))) :
    entries.length = others.length := by
  have hlength := congrArg List.length (Value.dict.inj hsame)
  rw [List.length_insertionSort, List.length_insertionSort] at hlength
  simpa only [Value.canonicalEntries_eq_map, toValueEntries_eq_map, List.length_map] using hlength

theorem number_of_sameJson {value : Value} {text : String}
    (h : Value.SameJson value (Json.number text).toValue) :
    value.canonical = .foreign "float" ∨ ∃ n, value.canonical = .int n := by
  rw [Value.SameJson, toValue] at h
  split at h
  · exact .inr ⟨_, h⟩
  · exact .inl h

mutual

/-- Two spellings of one identity value compare equal exactly if they spell zeros alike. -/
theorem equal_iff_zerosAlike : ∀ a b : Json, a.wellFormed = true → b.wellFormed = true →
    a.toValue.isIdentity = true → Value.SameJson a.toValue b.toValue →
    (a.equal b = true ↔ ZerosAlike a b)
  | .null, b, _, _, _, hsame => by
      cases b with
      | null => exact ⟨fun _ _ => .rfl, fun _ => rfl⟩
      | number text => rcases number_of_sameJson hsame with h | ⟨n, h⟩ <;> cases h
      | _ => cases hsame
  | .bool p, b, _, _, _, hsame => by
      cases b with
      | bool q =>
          cases hsame
          exact ⟨fun _ _ => .rfl, fun _ => by simp [equal, equalWith]⟩
      | number text => rcases number_of_sameJson hsame with h | ⟨n, h⟩ <;> cases h
      | _ => cases hsame
  | .string s, b, _, _, _, hsame => by
      cases b with
      | string t =>
          cases hsame
          exact ⟨fun _ _ => .rfl, fun _ => by simp [equal, equalWith]⟩
      | number text => rcases number_of_sameJson hsame with h | ⟨n, h⟩ <;> cases h
      | _ => cases hsame
  | .number s, b, ha, hb, hidentity, hsame => by
      cases hs : integerText s with
      | none =>
          rw [toValue, hs] at hidentity
          cases hidentity
      | some integer =>
          rw [toValue, hs] at hsame
          cases b with
          | number t =>
              cases ht : integerText t with
              | none =>
                  rw [toValue, ht] at hsame
                  cases hsame
              | some other =>
                  rw [toValue, ht] at hsame
                  obtain ⟨hinteger, hspelling⟩ := integerText_eq ha hs
                  obtain ⟨hother, hspelling'⟩ := integerText_eq hb ht
                  rw [Value.int.inj hsame, ← hother] at hinteger
                  subst hinteger
                  rw [zerosAlike_number]
                  simp only [equal, equalWith, decide_eq_true_eq]
                  have hplain : integer ≠ "-0" := by
                    intro h
                    rw [h] at hother
                    exact absurd hother (by decide)
                  rcases hspelling with rfl | ⟨rfl, hzero⟩ <;>
                    rcases hspelling' with rfl | ⟨rfl, hzero'⟩ <;>
                      simp [hplain, hplain.symm]
          | _ => cases hsame
  | .array items, b, ha, hb, hidentity, hsame => by
      cases b with
      | array others =>
          have hitems := Value.list.inj hsame
          rw [Value.canonicalItems_eq_map, Value.canonicalItems_eq_map] at hitems
          exact equalItems_iff items others ha hb hidentity hitems
      | number text => rcases number_of_sameJson hsame with h | ⟨n, h⟩ <;> cases h
      | _ => cases hsame
  | .object entries, b, ha, hb, hidentity, hsame => by
      cases b with
      | object others =>
          simp only [wellFormed, decide_eq_true_eq] at ha hb
          have hiff := equalEntries_iff entries others ha.2 hb.2 hidentity fun e he =>
            lookup_of_sameJson hsame (Assoc.lookup_of_mem ha.1 he)
          have hkeys (key : String) :
              Assoc.lookup entries key = none ↔ Assoc.lookup others key = none := by
            have hlookup := congrArg (fun value => value.get? key) hsame
            simp only [Value.get?_canonical] at hlookup
            change (Assoc.lookup (toValueEntries entries) key).map _ =
              (Assoc.lookup (toValueEntries others) key).map _ at hlookup
            rw [lookup_toValueEntries, lookup_toValueEntries] at hlookup
            cases hleft : Assoc.lookup entries key <;> cases hright : Assoc.lookup others key <;>
              simp_all
          rw [zerosAlike_object hkeys, equal, equalWith, length_of_sameJson hsame,
            decide_eq_true rfl, Bool.true_and, hiff]
          exact ⟨fun h key value other hvalue => h _ (Assoc.mem_of_lookup hvalue) other,
            fun h e he other => h e.1 e.2 other (Assoc.lookup_of_mem ha.1 he)⟩
      | number text => rcases number_of_sameJson hsame with h | ⟨n, h⟩ <;> cases h
      | _ => cases hsame

theorem equalItems_iff : ∀ items others : List Json, wellFormedItems items = true →
    wellFormedItems others = true → Value.isIdentityItems (toValueItems items) = true →
    (toValueItems items).map Value.canonical = (toValueItems others).map Value.canonical →
    (equalItems (fun a b => a = b) items others = true ↔
      ZerosAlike (.array items) (.array others))
  | [], others, _, _, _, hsame => by
      cases others with
      | nil => exact ⟨fun _ _ => .rfl, fun _ => rfl⟩
      | cons other others => cases hsame
  | item :: items, others, ha, hb, hidentity, hsame => by
      cases others with
      | nil => cases hsame
      | cons other others =>
          rw [wellFormedItems, Bool.and_eq_true] at ha hb
          rw [toValueItems, Value.isIdentityItems, Bool.and_eq_true] at hidentity
          obtain ⟨hfirst, hrest⟩ := List.cons.inj hsame
          rw [equalItems, Bool.and_eq_true, zerosAlike_cons,
            equalItems_iff items others ha.2 hb.2 hidentity.2 hrest]
          exact and_congr_left' (equal_iff_zerosAlike item other ha.1 hb.1 hidentity.1 hfirst)

theorem equalEntries_iff : ∀ entries others : List (String × Json),
    wellFormedEntries entries = true → wellFormedEntries others = true →
    Value.isIdentityEntries (toValueEntries entries) = true →
    (∀ e ∈ entries, ∃ other, Assoc.lookup others e.1 = some other ∧
      Value.SameJson e.2.toValue other.toValue) →
    (equalEntries (fun a b => a = b) entries others = true ↔
      ∀ e ∈ entries, ∀ other, Assoc.lookup others e.1 = some other → ZerosAlike e.2 other)
  | [], _, _, _, _, _ => ⟨fun _ _ he => (nomatch he), fun _ => rfl⟩
  | (key, value) :: entries, others, ha, hb, hidentity, hsame => by
      rw [wellFormedEntries, Bool.and_eq_true] at ha
      rw [toValueEntries, Value.isIdentityEntries, Bool.and_eq_true] at hidentity
      rw [List.forall_mem_cons] at hsame ⊢
      obtain ⟨⟨other, hother, hvalues⟩, hrest⟩ := hsame
      have hwell := wellFormedEntries_iff.mp hb _ (Assoc.mem_of_lookup hother)
      rw [equalEntries, hother, Bool.and_eq_true,
        equalEntries_iff entries others ha.2 hb hidentity.2 hrest]
      refine and_congr_left' ?_
      simp only [Option.some.injEq, forall_eq']
      exact equal_iff_zerosAlike value other ha.1 hwell hidentity.1 hvalues

end

/-! ## Canonical texts -/

/-- Objects with the same values under the same keys are one JSON value. -/
theorem sameJson_dict {entries others : List (String × Value)}
    (hnodup : (Assoc.keys entries).Nodup) (hlength : entries.length = others.length)
    (h : ∀ e ∈ entries, ∃ other, Assoc.lookup others e.1 = some other ∧
      Value.SameJson e.2 other) : Value.SameJson (.dict entries) (.dict others) := by
  have hkeys : Assoc.keys (Value.canonicalEntries entries) = Assoc.keys entries := by
    rw [Value.canonicalEntries_eq_map, Assoc.keys, List.map_map]
    rfl
  have hnodup' : (Assoc.keys (Value.canonicalEntries entries)).Nodup := hkeys ▸ hnodup
  have hsubset : Value.canonicalEntries entries ⊆ Value.canonicalEntries others := by
    rw [Value.canonicalEntries_eq_map, Value.canonicalEntries_eq_map]
    intro e he
    obtain ⟨entry, hentry, rfl⟩ := List.mem_map.mp he
    obtain ⟨other, hother, hsame⟩ := h entry hentry
    exact List.mem_map.mpr ⟨_, Assoc.mem_of_lookup hother, Prod.ext rfl hsame.symm⟩
  have hperm : (Value.canonicalEntries entries).Perm (Value.canonicalEntries others) := by
    refine (List.subperm_of_subset hnodup'.of_map hsubset).perm_of_length_le ?_
    simpa [Value.canonicalEntries_eq_map] using hlength.ge
  rw [Value.SameJson, Value.canonical, Value.canonical]
  have hsorted := ((List.perm_insertionSort (fun a b : String × Value => a.1 ≤ b.1)
    (Value.canonicalEntries entries)).trans hperm).trans (List.perm_insertionSort (fun a b : String × Value => a.1 ≤ b.1) _).symm
  have : Std.Total fun a b : String × Value => a.1 ≤ b.1 := ⟨fun a b => le_total a.1 b.1⟩
  have : IsTrans (String × Value) fun a b => a.1 ≤ b.1 := ⟨fun _ _ _ => le_trans⟩
  refine congrArg Value.dict (hsorted.eq_of_pairwise (fun a b ha hb hab hba => ?_)
    (List.pairwise_insertionSort _ _) (List.pairwise_insertionSort _ _))
  have ha' := (List.mem_insertionSort _).mp ha
  have hb' := hperm.mem_iff.mpr ((List.mem_insertionSort _).mp hb)
  have hlookup := Assoc.lookup_of_mem hnodup' ha'
  have hkey : a.1 = b.1 := le_antisymm hab hba
  rw [hkey, Assoc.lookup_of_mem hnodup' hb'] at hlookup
  exact Prod.ext hkey (Option.some.inj hlookup).symm

/-- Values that compare equal are one JSON value. -/
theorem sameJson_of_equal {a b : Json} (ha : a.wellFormed = true) (hb : b.wellFormed = true)
    (h : a.equal b = true) : Value.SameJson a.toValue b.toValue := by
  induction a using induct generalizing b with
  | null | bool _ | number _ | string _ => cases b <;> simp_all [equal, equalWith, Value.SameJson]
  | array items ih =>
      cases b with
      | array others =>
          rw [wellFormed, wellFormedItems_iff] at ha hb
          have hall := equalItems_iff_forall₂.mp h
          rw [Value.SameJson, toValue, toValue, Value.canonical, Value.canonical, toValueItems_eq_map,
            toValueItems_eq_map, Value.canonicalItems_eq_map, Value.canonicalItems_eq_map,
            List.map_map, List.map_map]
          refine congrArg Value.list ?_
          rw [← List.forall₂_eq_eq_eq, List.forall₂_map_left_iff, List.forall₂_map_right_iff]
          exact Fallible.forall₂_imp_of_mem_both hall fun item hitem other hother =>
            ih item hitem (ha item hitem) (hb other hother)
      | _ => cases h
  | object entries ih =>
      cases b with
      | object others =>
          rw [wellFormed, decide_eq_true_eq, wellFormedEntries_iff] at ha hb
          rw [equal, equalWith, Bool.and_eq_true, decide_eq_true_eq, equalEntries_iff_forall] at h
          rw [toValue, toValue]
          refine sameJson_dict ?_ ?_ ?_
          · rw [toValueEntries_eq_map, Assoc.keys, List.map_map]
            exact ha.1
          · rw [toValueEntries_eq_map, toValueEntries_eq_map, List.length_map, List.length_map, h.1]
          · rw [toValueEntries_eq_map, List.forall_mem_map]
            intro e he
            obtain ⟨other, hother, hequal⟩ := (h.2 e he).exists_right
            refine ⟨other.toValue, ?_, ih e he (ha.2 e he) (hb.2 _ (Assoc.mem_of_lookup hother))
              hequal⟩
            rw [lookup_toValueEntries, hother, Option.map_some]
      | _ => cases h

/-- The value that the canonical text of a value spells. -/
def respelled (value : Json) : Json := value.toValue.canonical.toRust

theorem toRustItems_eq_map (items : List Value) :
    Value.toRustItems items = items.map Value.toRust := by
  induction items with
  | nil => rfl
  | cons item items ih => rw [Value.toRustItems, ih, List.map_cons]

theorem toRustEntries_eq_map (entries : List (String × Value)) :
    Value.toRustEntries entries = entries.map fun e => (e.1, e.2.toRust) := by
  induction entries with
  | nil => rfl
  | cons e entries ih => rw [Value.toRustEntries, ih, List.map_cons]

theorem isIdentityItems_iff {items : List Value} :
    Value.isIdentityItems items = true ↔ ∀ item ∈ items, item.isIdentity = true := by
  induction items with
  | nil => simp [Value.isIdentityItems]
  | cons item items ih => rw [Value.isIdentityItems, Bool.and_eq_true, ih, List.forall_mem_cons]

theorem isIdentityEntries_iff {entries : List (String × Value)} :
    Value.isIdentityEntries entries = true ↔ ∀ e ∈ entries, e.2.isIdentity = true := by
  rw [Value.isIdentityEntries_eq_all, List.all_eq_true]

theorem respelled_array (items : List Json) :
    (array items).respelled = .array (items.map respelled) := by
  rw [respelled, toValue, Value.canonical, Value.toRust, toValueItems_eq_map,
    Value.canonicalItems_eq_map, toRustItems_eq_map, List.map_map, List.map_map]
  rfl

theorem respelled_object (entries : List (String × Json)) :
    (object entries).respelled = .object
      (((entries.map fun e => (e.1, e.2.toValue.canonical)).insertionSort fun a b => a.1 ≤ b.1).map
        fun e => (e.1, e.2.toRust)) := by
  rw [respelled, toValue, Value.canonical, Value.toRust, toValueEntries_eq_map,
    Value.canonicalEntries_eq_map, toRustEntries_eq_map, List.map_map]
  rfl

/-- The entries of a canonical object are those of the object, respelled. -/
theorem mem_respelled_object {entries : List (String × Json)} {e : String × Json}
    (h : e ∈ ((entries.map fun e => (e.1, e.2.toValue.canonical)).insertionSort
      fun a b => a.1 ≤ b.1).map fun e => (e.1, e.2.toRust)) :
    ∃ entry ∈ entries, e = (entry.1, entry.2.respelled) := by
  obtain ⟨sorted, hsorted, rfl⟩ := List.mem_map.mp h
  obtain ⟨entry, hentry, rfl⟩ := List.mem_map.mp ((List.mem_insertionSort _).mp hsorted)
  exact ⟨entry, hentry, rfl⟩

theorem isObject_respelled {entries : List (String × Json)} :
    ∃ others, (object entries).respelled = .object others := ⟨_, respelled_object entries⟩

theorem write_respelled {value : Json} {octets : List ℕ} (hwell : value.wellFormed = true)
    (h : value.write = .ok octets) : value.respelled.write = .ok octets := by
  obtain ⟨hidentity, hwrite⟩ := write_eq_of_ok value hwell h
  rw [respelled, Value.write_toRust _ ((Value.isIdentity_canonical _).trans hidentity),
    Value.canonical_canonical, ← Value.write_toRust _ hidentity, hwrite]

theorem wellFormed_respelled {value : Json} (hwell : value.wellFormed = true)
    (hidentity : value.toValue.isIdentity = true) : value.respelled.wellFormed = true := by
  induction value using induct with
  | null | bool _ | string _ => rfl
  | number text =>
      cases hinteger : integerText text with
      | none =>
          rw [toValue, hinteger] at hidentity
          cases hidentity
      | some integer =>
          obtain ⟨hcanonical, hspelling⟩ := integerText_eq hwell hinteger
          have hrespelled : (number text).respelled = .number integer := by
            rw [respelled, toValue, hinteger]
            change number (toString (readInt integer.toList)) = _
            rw [← hcanonical]
          rw [hrespelled]
          rcases hspelling with rfl | ⟨rfl, rfl⟩
          · exact hwell
          · decide
  | array items ih =>
      rw [wellFormed, wellFormedItems_iff] at hwell
      rw [toValue, Value.isIdentity, toValueItems_eq_map, isIdentityItems_iff,
        List.forall_mem_map] at hidentity
      rw [respelled_array, wellFormed, wellFormedItems_iff, List.forall_mem_map]
      exact fun item hitem => ih item hitem (hwell item hitem) (hidentity item hitem)
  | object entries ih =>
      rw [wellFormed, decide_eq_true_eq, wellFormedEntries_iff] at hwell
      rw [toValue, Value.isIdentity, toValueEntries_eq_map, isIdentityEntries_iff,
        List.forall_mem_map] at hidentity
      rw [respelled_object, wellFormed, decide_eq_true_eq, wellFormedEntries_iff]
      constructor
      · rw [Assoc.keys, List.map_map]
        refine (((List.perm_insertionSort _ _).map Prod.fst).nodup_iff).mpr ?_
        rw [List.map_map]
        exact hwell.1
      · intro e he
        obtain ⟨entry, hentry, rfl⟩ := mem_respelled_object he
        exact ih entry hentry (hwell.2 entry hentry) (hidentity entry hentry)

theorem toValue_respelled {value : Json} (hwell : value.wellFormed = true)
    (hidentity : value.toValue.isIdentity = true) :
    value.respelled.toValue = value.toValue.canonical := by
  induction value using induct with
  | null | bool _ | string _ => rfl
  | number text =>
      cases hinteger : integerText text with
      | none =>
          rw [toValue, hinteger] at hidentity
          cases hidentity
      | some integer =>
          have hvalue : (number text).toValue = .int (readInt integer.toList) := by
            rw [toValue, hinteger]
          rw [respelled, hvalue, Value.canonical, Value.toRust, toValue,
            Value.integerText_toString]
          · change Value.int (readInt _) = _
            rw [readInt_toString]
          · exact nofun
          · exact nofun
  | array items ih =>
      rw [wellFormed, wellFormedItems_iff] at hwell
      rw [toValue, Value.isIdentity, toValueItems_eq_map, isIdentityItems_iff,
        List.forall_mem_map] at hidentity
      rw [respelled_array, toValue, toValue, Value.canonical, toValueItems_eq_map,
        toValueItems_eq_map, Value.canonicalItems_eq_map, List.map_map, List.map_map]
      exact congrArg Value.list (List.map_congr_left fun item hitem =>
        ih item hitem (hwell item hitem) (hidentity item hitem))
  | object entries ih =>
      rw [wellFormed, decide_eq_true_eq, wellFormedEntries_iff] at hwell
      rw [toValue, Value.isIdentity, toValueEntries_eq_map, isIdentityEntries_iff,
        List.forall_mem_map] at hidentity
      rw [respelled_object, toValue, toValue, Value.canonical, toValueEntries_eq_map,
        toValueEntries_eq_map, Value.canonicalEntries_eq_map, List.map_map, List.map_map]
      refine congrArg Value.dict ((List.map_congr_left fun e he => ?_).trans (List.map_id _))
      obtain ⟨entry, hentry, rfl⟩ := List.mem_map.mp ((List.mem_insertionSort _).mp he)
      exact Prod.ext rfl (ih entry hentry (hwell.2 entry hentry) (hidentity entry hentry))

theorem not_negativeZeroAt_respelled {value : Json} (hwell : value.wellFormed = true)
    (hidentity : value.toValue.isIdentity = true) (path : List Place) :
    ¬ value.respelled.NegativeZeroAt path := by
  induction value using induct generalizing path with
  | null | bool _ | string _ => cases path with
    | nil => exact nofun
    | cons place path => cases place <;> exact nofun
  | number text =>
      cases hinteger : integerText text with
      | none =>
          rw [toValue, hinteger] at hidentity
          cases hidentity
      | some integer =>
          rw [respelled, toValue, hinteger]
          cases path with
          | nil =>
              intro h
              have htext := Json.number.inj (Option.some.inj h)
              have hread := congrArg (fun text : String => readInt text.toList) htext
              rw [readInt_toString] at hread
              rw [hread] at htext
              exact absurd htext (by decide)
          | cons place path => cases place <;> exact nofun
  | array items ih =>
      rw [wellFormed, wellFormedItems_iff] at hwell
      rw [toValue, Value.isIdentity, toValueItems_eq_map, isIdentityItems_iff,
        List.forall_mem_map] at hidentity
      rw [respelled_array]
      match path with
      | [] => exact nofun
      | .key name :: path => exact nofun
      | .index i :: path =>
          intro h
          obtain ⟨read, hread, h⟩ := Option.bind_eq_some_iff.mp h
          obtain ⟨item, hitem, rfl⟩ := List.mem_map.mp (List.mem_of_getElem? hread)
          exact ih item hitem (hwell item hitem) (hidentity item hitem) path h
  | object entries ih =>
      rw [wellFormed, decide_eq_true_eq, wellFormedEntries_iff] at hwell
      rw [toValue, Value.isIdentity, toValueEntries_eq_map, isIdentityEntries_iff,
        List.forall_mem_map] at hidentity
      rw [respelled_object]
      match path with
      | [] => exact nofun
      | .index i :: path => exact nofun
      | .key name :: path =>
          intro h
          obtain ⟨read, hread, h⟩ := Option.bind_eq_some_iff.mp h
          obtain ⟨entry, hentry, heq⟩ := mem_respelled_object (Assoc.mem_of_lookup hread)
          rw [(Prod.mk.inj heq).2] at h
          exact ih entry hentry (hwell.2 entry hentry) (hidentity entry hentry) path h

/-- No zero of the value has a minus sign. -/
def ZerosPlain (value : Json) : Prop := ∀ path, ¬ value.NegativeZeroAt path

/-- A value whose zeros are plain is read back from its canonical text. -/
theorem respelled_equal {value : Json} (hwell : value.wellFormed = true)
    (hidentity : value.toValue.isIdentity = true) (hplain : value.ZerosPlain) :
    value.respelled.equal value = true := by
  have hvalue := toValue_respelled hwell hidentity
  rw [equal_iff_zerosAlike _ _ (wellFormed_respelled hwell hidentity) hwell]
  · exact fun path =>
      iff_of_false (not_negativeZeroAt_respelled hwell hidentity path) (hplain path)
  · rw [hvalue, Value.isIdentity_canonical, hidentity]
  · rw [hvalue]
    exact Value.canonical_canonical _

end Pollard.Rust.Json
