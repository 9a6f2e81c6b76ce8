import Pollard.Lib.Fallible
import Pollard.Npm.Identity
import Pollard.Rust.Identity

/-!
# The same identity in three languages

A portable value as Rust and JavaScript hold it.  The three encoders write the same octets.
-/

namespace Pollard

open Lib Unicode

/-! ## Portable values -/

namespace Value

mutual

/-- The portable subset: integers JavaScript holds exactly, and objects as texts spell them,
with distinct keys. -/
def isPortable : Value → Bool
  | .none => true
  | .bool _ => true
  | .int n => n.natAbs ≤ Npm.maxSafeInteger
  | .str _ => true
  | .list items => isPortableItems items
  | .dict entries => (Assoc.keys entries).Nodup ∧ isPortableEntries entries
  | _ => false

def isPortableItems : List Value → Bool
  | [] => true
  | item :: items => isPortable item && isPortableItems items

def isPortableEntries : List (String × Value) → Bool
  | [] => true
  | (_, value) :: entries => isPortable value && isPortableEntries entries

end

mutual

theorem isIdentity_of_isPortable : ∀ value : Value, value.isPortable = true →
    value.isIdentity = true
  | .none, _ | .bool _, _ | .int _, _ | .str _, _ => rfl
  | .list items, h => isIdentityItems_of_isPortable items h
  | .dict entries, h => by
      simp only [isPortable, decide_eq_true_eq] at h
      exact isIdentityEntries_of_isPortable entries h.2

theorem isIdentityItems_of_isPortable : ∀ items : List Value, isPortableItems items = true →
    isIdentityItems items = true
  | [], _ => rfl
  | item :: items, h => by
      rw [isPortableItems, Bool.and_eq_true] at h
      rw [isIdentityItems, isIdentity_of_isPortable item h.1, isIdentityItems_of_isPortable items h.2]
      rfl

theorem isIdentityEntries_of_isPortable : ∀ entries : List (String × Value),
    isPortableEntries entries = true → isIdentityEntries entries = true
  | [], _ => rfl
  | (key, value) :: entries, h => by
      rw [isPortableEntries, Bool.and_eq_true] at h
      rw [isIdentityEntries, isIdentity_of_isPortable value h.1,
        isIdentityEntries_of_isPortable entries h.2]
      rfl

end

theorem isPortableEntries_eq_all (entries : List (String × Value)) :
    isPortableEntries entries = entries.all fun e => isPortable e.2 := by
  induction entries with
  | nil => rfl
  | cons e entries ih => rw [isPortableEntries, ih, List.all_cons]

mutual

theorem isPortable_canonical : ∀ value : Value, value.isPortable = true →
    value.canonical.isPortable = true
  | .none, h | .bool _, h | .int _, h | .str _, h => h
  | .list items, h => by
      rw [canonical, isPortable]
      exact isPortableItems_canonical items h
  | .dict entries, h => by
      simp only [isPortable, decide_eq_true_eq] at h
      have hperm := List.perm_insertionSort (fun a b : String × Value => a.1 ≤ b.1)
        (canonicalEntries entries)
      have hkeys : Assoc.keys (canonicalEntries entries) = Assoc.keys entries := by
        rw [canonicalEntries_eq_map, Assoc.keys, List.map_map]
        rfl
      rw [canonical, isPortable, decide_eq_true_eq, isPortableEntries_eq_all, hperm.all_eq,
        ← isPortableEntries_eq_all]
      refine ⟨(hperm.map Prod.fst).nodup_iff.mpr ?_, isPortableEntries_canonical entries h.2⟩
      rw [← hkeys] at h
      exact h.1

theorem isPortableItems_canonical : ∀ items : List Value, isPortableItems items = true →
    isPortableItems (canonicalItems items) = true
  | [], _ => rfl
  | item :: items, h => by
      rw [isPortableItems, Bool.and_eq_true] at h
      rw [canonicalItems, isPortableItems, isPortable_canonical item h.1,
        isPortableItems_canonical items h.2]
      rfl

theorem isPortableEntries_canonical : ∀ entries : List (String × Value),
    isPortableEntries entries = true → isPortableEntries (canonicalEntries entries) = true
  | [], _ => rfl
  | (key, value) :: entries, h => by
      rw [isPortableEntries, Bool.and_eq_true] at h
      rw [canonicalEntries, isPortableEntries, isPortable_canonical value h.1,
        isPortableEntries_canonical entries h.2]
      rfl

end

mutual

/-- The value as `serde_json` reads it from a text with the keys in this order. -/
def toRust : Value → Rust.Json
  | .none => .null
  | .bool b => .bool b
  | .int n => .number (toString n)
  | .float q => .number (floatRepr q)
  | .str s => .string s
  | .list items => .array (toRustItems items)
  | .dict entries => .object (toRustEntries entries)
  | _ => .null

def toRustItems : List Value → List Rust.Json
  | [] => []
  | item :: items => toRust item :: toRustItems items

def toRustEntries : List (String × Value) → List (String × Rust.Json)
  | [] => []
  | (key, value) :: entries => (key, toRust value) :: toRustEntries entries

end

mutual

/-- The value as `JSON.parse` reads it. -/
def toJs : Value → Npm.JsValue
  | .none => .null
  | .bool b => .boolean b
  | .int n => .number n
  | .float q => .number q
  | .str s => .string (Npm.units s)
  | .list items => .array (toJsItems items)
  | .dict entries => .object (Npm.ownOrder (toJsEntries entries))
  | _ => .foreign

def toJsItems : List Value → List Npm.JsValue
  | [] => []
  | item :: items => toJs item :: toJsItems items

def toJsEntries : List (String × Value) → List (Npm.Units × Npm.JsValue)
  | [] => []
  | (key, value) :: entries => (Npm.units key, toJs value) :: toJsEntries entries

end

end Value

/-! ## Strings -/

theorem utf8Bytes_append (a b : String) : utf8Bytes (a ++ b) = utf8Bytes a ++ utf8Bytes b := by
  simp [utf8Bytes]

theorem units_append (a b : String) : Npm.units (a ++ b) = Npm.units a ++ Npm.units b := by
  simp [Npm.units]

theorem codePoints_units (s : String) : codePoints (Npm.units s) = s.toList.map Char.toNat := by
  refine codePoints_flatMap_utf16 fun n hn => ?_
  obtain ⟨c, -, rfl⟩ := List.mem_map.mp hn
  exact scalar_char c

/-- Hashing a text of JavaScript reads its UTF-8 form. -/
theorem utf8Octets_units (s : String) : Npm.utf8Octets (Npm.units s) = utf8Bytes s := by
  rw [Npm.utf8Octets, codePoints_units, utf8Bytes, List.flatMap_map, List.flatMap_map]
  refine List.flatMap_congr fun c _ => ?_
  rw [scalar_char]
  rfl

theorem utf8Bytes_le_iff {a b : String} : utf8Bytes a ≤ utf8Bytes b ↔ a ≤ b := by
  rw [utf8Bytes, utf8Bytes, flatMap_utf8_le_iff, String.le_iff_toList_le, map_toNat_le_iff]

/-- A character as `serde_json` escapes its octets. -/
theorem utf8Bytes_jsonChar (c : Char) :
    utf8Bytes (jsonChar c) = (utf8 c.toNat).flatMap Rust.Json.escapeOctet := by
  by_cases hlow : c.toNat < 32
  · rw [utf8_of_lt (by omega), List.flatMap_singleton]
    unfold jsonChar Rust.Json.escapeOctet
    generalize c.toNat = n at hlow
    interval_cases n <;>
      simp [Rust.ascii, utf8Bytes, Rust.Json.hexDigit, Nat.digitChar, utf8]
  · by_cases hquote : c.toNat = 34
    · rw [jsonChar, hquote]
      simp [Rust.Json.escapeOctet, Rust.ascii, utf8]
    · by_cases hslash : c.toNat = 92
      · rw [jsonChar, hslash]
        simp [Rust.Json.escapeOctet, Rust.ascii, utf8]
      · have hplain : utf8Bytes (jsonChar c) = utf8 c.toNat := by
          rw [jsonChar_of_plain hlow hquote hslash]
          simp [utf8Bytes, Char.toString]
        have hcopy : ∀ octet ∈ utf8 c.toNat, Rust.Json.escapeOctet octet = [octet] := by
          intro octet hoctet
          have hplain : ¬ octet < 32 ∧ octet ≠ 34 ∧ octet ≠ 92 := by
            by_cases hsmall : c.toNat < 0x80
            · rw [utf8_of_lt hsmall, List.mem_singleton] at hoctet
              omega
            · have hlarge := le_of_mem_utf8 (not_lt.mp hsmall) hoctet
              omega
          unfold Rust.Json.escapeOctet
          split <;> first | omega | exact if_neg hplain.1
        rw [hplain, List.flatMap_congr hcopy, List.flatMap_singleton']

theorem utf8Bytes_jsonString (s : String) :
    utf8Bytes (jsonString s) = Rust.Json.writeString s := by
  have hchars : (s.toList.flatMap fun c => utf8Bytes (jsonChar c)) =
      (utf8Bytes s).flatMap Rust.Json.escapeOctet := by
    rw [utf8Bytes, List.flatMap_assoc, List.flatMap_map]
    exact List.flatMap_congr fun c _ => utf8Bytes_jsonChar c
  rw [Rust.Json.writeString, ← hchars, utf8Bytes, jsonString_toList]
  simp only [List.map_cons, List.map_append, List.flatMap_cons, List.flatMap_append, List.map_flatMap,
    List.flatMap_assoc, utf8Bytes, List.cons_append]
  rfl

/-- A character as `JSON.stringify` writes its code point. -/
theorem units_jsonChar (c : Char) : Npm.units (jsonChar c) = Npm.quoteCodePoint c.toNat := by
  by_cases hlow : c.toNat < 32
  · unfold jsonChar Npm.quoteCodePoint
    generalize c.toNat = n at hlow
    interval_cases n <;>
      simp [Npm.units, Npm.hexDigit, Nat.digitChar, utf16]
  · by_cases hquote : c.toNat = 34
    · rw [jsonChar, hquote]
      simp [Npm.quoteCodePoint]
    · by_cases hslash : c.toNat = 92
      · rw [jsonChar, hslash]
        simp [Npm.quoteCodePoint]
      · have hcode : Npm.quoteCodePoint c.toNat = utf16 c.toNat := by
          have hscalar := scalar_char c
          unfold Npm.quoteCodePoint
          split <;> first | omega | exact if_neg (by simp [hlow, hscalar])
        rw [jsonChar_of_plain hlow hquote hslash, hcode]
        simp [Npm.units, Char.toString]

theorem units_jsonString (s : String) :
    Npm.units (jsonString s) = Npm.stringify (Npm.units s) := by
  have hchars : (s.toList.flatMap fun c => Npm.units (jsonChar c)) =
      (s.toList.map Char.toNat).flatMap Npm.quoteCodePoint := by
    rw [List.flatMap_map]
    exact List.flatMap_congr fun c _ => units_jsonChar c
  rw [Npm.stringify, codePoints_units, ← hchars, Npm.units, jsonString_toList]
  simp only [List.map_cons, List.map_append, List.flatMap_cons, List.flatMap_append, List.map_flatMap,
    List.flatMap_assoc, Npm.units, List.cons_append]
  rfl

/-! ## Texts of values -/

namespace Value

/-- A text in a code of its code points; `utf8Bytes` and `Npm.units` are two. -/
def encoded (code : ℕ → List ℕ) (s : String) : List ℕ := (s.toList.map Char.toNat).flatMap code

section Code

variable {code : ℕ → List ℕ} (hascii : ∀ n < 0x80, code n = [n])

include hascii

theorem encoded_list (items : List Value) :
    encoded code (dumps (.list items)) =
      91 :: Reading.separated 44 (fun item => encoded code item.dumps) items ++ [93] := by
  have hitems : (Reading.separated ',' (fun item : Value => item.dumps.toList) items).flatMap
      (fun c => code c.toNat) = Reading.separated 44
        (fun item => item.dumps.toList.flatMap fun c => code c.toNat) items :=
    @Reading.separated_flatMap _ _ _ ',' 44 (fun c => code c.toNat) (hascii 44 (by decide)) _ _
  rw [encoded, dumps_list, List.flatMap_map, List.flatMap_append, List.flatMap_cons, hitems,
    List.flatMap_singleton, hascii '['.toNat (by decide),
    hascii ']'.toNat (by decide)]
  simp only [encoded, List.flatMap_map]
  rfl

theorem encoded_entryText (e : String × Value) :
    (entryText e).flatMap (fun c => code c.toNat) =
      encoded code (jsonString e.1) ++ 58 :: encoded code e.2.dumps := by
  have hcolon : code ':'.toNat = [58] := hascii 58 (by decide)
  simp only [entryText, encoded, List.nil_append, List.append_nil, List.flatMap_append,
    List.flatMap_map, List.append_assoc, List.singleton_append, List.flatMap_cons, hcolon]

theorem encoded_dict (entries : List (String × Value)) :
    encoded code (dumps (.dict entries)) =
      123 :: Reading.separated 44
        (fun e => encoded code (jsonString e.1) ++ 58 :: encoded code e.2.dumps) entries ++
          [125] := by
  have hentries : (Reading.separated ',' entryText entries).flatMap (fun c => code c.toNat) =
      Reading.separated 44 (fun e => (entryText e).flatMap fun c => code c.toNat) entries :=
    @Reading.separated_flatMap _ _ _ ',' 44 (fun c => code c.toNat) (hascii 44 (by decide)) _ _
  rw [encoded, dumps_dict, List.flatMap_map, List.flatMap_append, List.flatMap_cons, hentries,
    List.flatMap_singleton, hascii '\x7b'.toNat (by decide),
    hascii '\x7d'.toNat (by decide)]
  simp only [encoded_entryText hascii]
  rfl

end Code

/-- An entry of an object in octets. -/
def octetEntry (e : String × Value) : List ℕ :=
  Rust.Json.writeString e.1 ++ 58 :: utf8Bytes e.2.dumps

/-- An entry of an object in code units. -/
def unitEntry (e : String × Value) : Npm.Units :=
  Npm.stringify (Npm.units e.1) ++ Npm.units ":" ++ Npm.units e.2.dumps

theorem utf8Bytes_list (items : List Value) :
    utf8Bytes (dumps (.list items)) =
      91 :: Reading.separated 44 (fun item => utf8Bytes item.dumps) items ++ [93] :=
  encoded_list (fun _ => utf8_of_lt) items

theorem utf8Bytes_dict (entries : List (String × Value)) :
    utf8Bytes (dumps (.dict entries)) =
      123 :: Reading.separated 44 octetEntry entries ++ [125] := by
  have hentry : octetEntry =
      fun e : String × Value => utf8Bytes (jsonString e.1) ++ 58 :: utf8Bytes e.2.dumps := by
    funext e
    rw [octetEntry, utf8Bytes_jsonString]
  rw [hentry]
  exact encoded_dict (fun _ => utf8_of_lt) entries

theorem units_list (items : List Value) :
    Npm.units (dumps (.list items)) =
      91 :: Reading.separated 44 (fun item => Npm.units item.dumps) items ++ [93] :=
  encoded_list (fun _ h => if_pos (by omega)) items

theorem units_dict (entries : List (String × Value)) :
    Npm.units (dumps (.dict entries)) =
      123 :: Reading.separated 44 unitEntry entries ++ [125] := by
  have hentry : unitEntry =
      fun e : String × Value => Npm.units (jsonString e.1) ++ 58 :: Npm.units e.2.dumps := by
    funext e
    rw [unitEntry, units_jsonString, List.append_assoc]
    rfl
  rw [hentry]
  exact encoded_dict (fun _ h => if_pos (by omega)) entries

/-! ## Rust -/

theorem integerText_toString (n : ℤ) : Rust.Json.integerText (toString n) = some (toString n) := by
  have hzero : toString n ≠ "-0" := by
    intro heq
    have hread := readInt_toString n
    rw [heq] at hread
    have hn : n = 0 := hread.symm.trans (by decide)
    rw [hn] at heq
    exact absurd heq (by decide)
  unfold Rust.Json.integerText
  dsimp only
  rw [if_neg ?_, if_neg hzero]
  cases n with
  | ofNat n =>
      change ¬ ((if (Nat.repr n).toList.head? = some '-' then _ else (Nat.repr n).toList) = [] ∨
        (if (Nat.repr n).toList.head? = some '-' then _ else (Nat.repr n).toList).all _ = false)
      have hdigits : (Nat.repr n).toList.all Char.isDigit = true :=
        List.all_eq_true.mpr fun c hc => numeric_of_mem_repr hc
      have hhead : (Nat.repr n).toList.head? ≠ some '-' := by
        intro heq
        have hminus := numeric_of_mem_repr (List.mem_of_mem_head? heq)
        exact absurd hminus (by decide)
      rw [if_neg hhead, hdigits]
      simp
  | negSucc n =>
      change ¬ ((if ("-" ++ Nat.repr (n + 1)).toList.head? = some '-' then
        ("-" ++ Nat.repr (n + 1)).toList.tail else _) = [] ∨
        (if ("-" ++ Nat.repr (n + 1)).toList.head? = some '-' then
          ("-" ++ Nat.repr (n + 1)).toList.tail else _).all _ = false)
      have hdigits : (Nat.repr (n + 1)).toList.all Char.isDigit = true :=
        List.all_eq_true.mpr fun c hc => numeric_of_mem_repr hc
      have hminus : ("-" ++ Nat.repr (n + 1)).toList = '-' :: (Nat.repr (n + 1)).toList := by
        rw [String.toList_append]
        rfl
      rw [hminus, List.head?_cons, if_pos rfl, List.tail_cons, hdigits]
      simp

/-- Sorting written entries by the octets of their keys. -/
theorem sort_octetEntries (entries : List (String × Value)) :
    ((entries.map fun e => (utf8Bytes e.1, (.ok (octetEntry e) : Except Rust.Error _))).insertionSort
        fun a b => a.1 ≤ b.1).map Prod.snd =
      ((entries.insertionSort fun a b => a.1 ≤ b.1).map octetEntry).map .ok := by
  have hsort := List.map_insertionSort (fun a b : String × Value => a.1 ≤ b.1)
    (fun a b : List ℕ × Except Rust.Error (List ℕ) => a.1 ≤ b.1)
    (fun e => (utf8Bytes e.1, .ok (octetEntry e))) entries fun a _ b _ => utf8Bytes_le_iff.symm
  rw [← hsort, List.map_map, List.map_map]
  rfl

mutual

/-- Rust writes the octets Python writes. -/
theorem write_toRust : ∀ value : Value, value.isIdentity = true →
    value.toRust.write = .ok (utf8Bytes value.canonical.dumps)
  | .none, _ => rfl
  | .bool b, _ => by cases b <;> rfl
  | .int n, _ => by
      rw [toRust, Rust.Json.write, integerText_toString]
      rfl
  | .str s, _ => by
      rw [toRust, Rust.Json.write, canonical, dumps, utf8Bytes_jsonString]
      intro _ h
      cases h
      intro _ h
      cases h
  | .list items, h => by
      rw [toRust, Rust.Json.write, writeItems_toRust items h, Fallible.mapM_id_ok, canonical,
        utf8Bytes_list]
      change Except.ok (91 :: Reading.separated 44 id _ ++ [93]) = _
      rw [Reading.separated_map]
      rfl
  | .dict entries, h => by
      rw [toRust, Rust.Json.write, writeEntries_toRust entries h, sort_octetEntries,
        Fallible.mapM_id_ok, canonical, utf8Bytes_dict]
      change Except.ok (123 :: Reading.separated 44 id _ ++ [125]) = _
      rw [Reading.separated_map]
      rfl

theorem writeItems_toRust : ∀ items : List Value, isIdentityItems items = true →
    Rust.Json.writeItems (toRustItems items) =
      ((canonicalItems items).map fun item => utf8Bytes item.dumps).map .ok
  | [], _ => rfl
  | item :: items, h => by
      rw [isIdentityItems, Bool.and_eq_true] at h
      rw [toRustItems, Rust.Json.writeItems, write_toRust item h.1, writeItems_toRust items h.2]
      rfl

theorem writeEntries_toRust : ∀ entries : List (String × Value),
    isIdentityEntries entries = true →
    Rust.Json.writeEntries (toRustEntries entries) =
      (canonicalEntries entries).map fun e => (utf8Bytes e.1, .ok (octetEntry e))
  | [], _ => rfl
  | (key, value) :: entries, h => by
      rw [isIdentityEntries, Bool.and_eq_true] at h
      rw [toRustEntries, Rust.Json.writeEntries, write_toRust value h.1,
        writeEntries_toRust entries h.2]
      rfl

end

/-! ## npm -/

theorem ownOrder_perm (entries : List (Npm.Units × Npm.JsValue)) :
    (Npm.ownOrder entries).Perm entries := by
  have hrest : (entries.filter fun e => decide (¬ (Npm.arrayIndex e.1).isSome = true)) =
      entries.filter fun e => !(Npm.arrayIndex e.1).isSome :=
    List.filter_congr fun e _ => by cases Npm.arrayIndex e.1 <;> rfl
  rw [Npm.ownOrder, hrest]
  exact (List.Perm.append (List.perm_insertionSort _ _) (.refl _)).trans
    (List.filter_append_perm (fun e => (Npm.arrayIndex e.1).isSome) entries)

theorem compareCodePoints_lt_iff {as bs : List ℕ} :
    0 < Npm.compareCodePoints as bs ↔ bs < as := by
  induction as generalizing bs with
  | nil => cases bs <;> simp [Npm.compareCodePoints]
  | cons a as ih =>
      cases bs with
      | nil => simp [Npm.compareCodePoints]
      | cons b bs =>
          rw [Npm.compareCodePoints, List.cons_lt_cons_iff, ← ih]
          split <;> omega

theorem compareCodePoints_le_iff {as bs : List ℕ} :
    Npm.compareCodePoints as bs ≤ 0 ↔ as ≤ bs := by
  rw [← not_lt, ← not_lt, compareCodePoints_lt_iff]

theorem codePointCompare_units {a b : String} :
    Npm.codePointCompare (Npm.units a) (Npm.units b) ≤ 0 ↔ a ≤ b := by
  rw [Npm.codePointCompare, compareCodePoints_le_iff, codePoints_units, codePoints_units,
    map_toNat_le_iff, String.le_iff_toList_le]

theorem validString_units (s : String) (path : Npm.Units) :
    Npm.validString (Npm.units s) path = .ok () := by
  rw [Npm.validString, codePoints_units, if_pos]
  rw [List.all_eq_true]
  intro n hn
  obtain ⟨c, -, rfl⟩ := List.mem_map.mp hn
  exact scalar_char c

theorem encodeEntries_eq_map (entries : List (Npm.Units × Npm.JsValue)) (path : Npm.Units) :
    Npm.encodeEntries entries path = entries.map fun e =>
      (e.1, do
        Npm.validString e.1 path
        let text ← Npm.encode e.2 (path ++ Npm.units "." ++ e.1)
        return Npm.stringify e.1 ++ Npm.units ":" ++ text) := by
  induction entries with
  | nil => rfl
  | cons e entries ih => rw [Npm.encodeEntries, ih, List.map_cons]

/-- Sorting encoded entries, in whatever order the object lists them, by their keys. -/
theorem sort_unitEntries {entries : List (String × Value)}
    {listed : List (Npm.Units × Except Npm.Units Npm.Units)}
    (hnodup : (Assoc.keys entries).Nodup)
    (hperm : listed.Perm (entries.map fun e => (Npm.units e.1, .ok (unitEntry e)))) :
    (listed.insertionSort fun a b => Npm.codePointCompare a.1 b.1 ≤ 0).map Prod.snd =
      ((entries.insertionSort fun a b => a.1 ≤ b.1).map unitEntry).map .ok := by
  let r (a b : Npm.Units × Except Npm.Units Npm.Units) : Prop :=
    Npm.codePointCompare a.1 b.1 ≤ 0
  let encodedEntry (e : String × Value) : Npm.Units × Except Npm.Units Npm.Units :=
    (Npm.units e.1, .ok (unitEntry e))
  have : Std.Total r := ⟨fun a b => by
    simp only [r, Npm.codePointCompare, compareCodePoints_le_iff]
    exact le_total _ _⟩
  have : IsTrans (Npm.Units × Except Npm.Units Npm.Units) r := ⟨fun a b c hab hbc => by
    simp only [r, Npm.codePointCompare, compareCodePoints_le_iff] at hab hbc ⊢
    exact hab.trans hbc⟩
  have hsort : (entries.insertionSort fun a b => a.1 ≤ b.1).map encodedEntry =
      (entries.map encodedEntry).insertionSort r :=
    List.map_insertionSort (fun a b : String × Value => a.1 ≤ b.1) r encodedEntry entries
      fun a _ b _ => codePointCompare_units.symm
  have hsame : listed.insertionSort r = (entries.map encodedEntry).insertionSort r := by
    refine List.Perm.eq_of_pairwise (fun a b ha hb hab hba => ?_)
      (List.pairwise_insertionSort r listed) (List.pairwise_insertionSort r _)
      (((List.perm_insertionSort r listed).trans hperm).trans (List.perm_insertionSort r _).symm)
    obtain ⟨e, he, rfl⟩ := List.mem_map.mp
      (hperm.mem_iff.mp ((List.mem_insertionSort r).mp ha))
    obtain ⟨f, hf, rfl⟩ := List.mem_map.mp ((List.mem_insertionSort r).mp hb)
    have hkey : e.1 = f.1 :=
      le_antisymm (codePointCompare_units.mp hab) (codePointCompare_units.mp hba)
    have hlookup := Assoc.lookup_of_mem hnodup he
    rw [hkey, Assoc.lookup_of_mem hnodup hf] at hlookup
    rw [Prod.ext hkey (Option.some.inj hlookup).symm]
  change (listed.insertionSort r).map Prod.snd = _
  rw [hsame, ← hsort, List.map_map, List.map_map]
  rfl

mutual

/-- The npm package encodes the text Python writes. -/
theorem encode_toJs : ∀ (value : Value) (path : Npm.Units), value.isPortable = true →
    Npm.encode value.toJs path = .ok (Npm.units value.canonical.dumps)
  | .none, _, _ => rfl
  | .bool b, _, _ => by cases b <;> rfl
  | .int n, path, h => by
      have hsafe : Npm.isSafeInteger (n : ℚ) = true := by
        simpa [Npm.isSafeInteger, isPortable] using h
      rw [toJs, Npm.encode, if_pos hsafe]
      rfl
  | .str s, path, _ => by
      rw [toJs, Npm.encode, validString_units, canonical, dumps, units_jsonString]
      · rfl
      · intro _ h
        cases h
      · intro _ h
        cases h
  | .list items, path, h => by
      rw [toJs, Npm.encode, encodeItems_toJs items path 0 h, Fallible.mapM_id_ok, canonical,
        units_list]
      change Except.ok (91 :: Reading.separated 44 id _ ++ [93]) = _
      rw [Reading.separated_map]
      rfl
  | .dict entries, path, h => by
      simp only [isPortable, decide_eq_true_eq] at h
      have hperm : (Npm.encodeEntries (Npm.ownOrder (toJsEntries entries)) path).Perm
          ((canonicalEntries entries).map fun e => (Npm.units e.1, .ok (unitEntry e))) := by
        rw [← encodeEntries_toJs entries path h.2, encodeEntries_eq_map, encodeEntries_eq_map]
        exact (ownOrder_perm _).map _
      have hnodup : (Assoc.keys (canonicalEntries entries)).Nodup := by
        rw [canonicalEntries_eq_map, Assoc.keys, List.map_map]
        exact h.1
      rw [toJs, Npm.encode, sort_unitEntries hnodup hperm, Fallible.mapM_id_ok, canonical,
        units_dict]
      change Except.ok (123 :: Reading.separated 44 id _ ++ [125]) = _
      rw [Reading.separated_map]
      rfl

theorem encodeItems_toJs : ∀ (items : List Value) (path : Npm.Units) (index : ℕ),
    isPortableItems items = true →
    Npm.encodeItems (toJsItems items) path index =
      ((canonicalItems items).map fun item => Npm.units item.dumps).map .ok
  | [], _, _, _ => rfl
  | item :: items, path, index, h => by
      rw [isPortableItems, Bool.and_eq_true] at h
      rw [toJsItems, Npm.encodeItems, encode_toJs item _ h.1,
        encodeItems_toJs items path (index + 1) h.2]
      rfl

theorem encodeEntries_toJs : ∀ (entries : List (String × Value)) (path : Npm.Units),
    isPortableEntries entries = true →
    Npm.encodeEntries (toJsEntries entries) path =
      (canonicalEntries entries).map fun e => (Npm.units e.1, .ok (unitEntry e))
  | [], _, _ => rfl
  | (key, value) :: entries, path, h => by
      rw [isPortableEntries, Bool.and_eq_true] at h
      rw [toJsEntries, Npm.encodeEntries, encode_toJs value _ h.1, validString_units,
        encodeEntries_toJs entries path h.2]
      rfl

end

end Value

/-! ## Ids -/

/-- The octets `node_id` hashes in Python. -/
def nodeIdBytes (kind : NodeKind) (parent : Option String) (attempt : ℤ) (payload : Value) :
    Except PyError (List ℕ) := do
  let identity ← Value.canonicalBytes (.dict [("a", .int attempt), ("k", .str kind.value),
    ("p", .str (parent.getD "")), ("pl", payload)])
  return utf8Bytes "pollard/v1\n" ++ utf8Bytes identity.dumps

/-- What the octets of an id are, in terms of the identity's document. -/
def documentOctets (kind : NodeKind) (parent : Option String) (attempt : ℤ) (payload : Value) :
    List ℕ :=
  utf8Bytes "pollard/v1\n" ++
    utf8Bytes (Identity.document ⟨attempt, kind, parent.getD "", payload.canonical⟩).dumps

theorem canonicalEntries_document {entries : List (String × Value)} {keys : List String}
    (hkeys : Assoc.keys entries = keys) (hsorted : keys.Pairwise (· ≤ ·)) :
    Value.canonical (.dict entries) = .dict (Value.canonicalEntries entries) := by
  rw [Value.canonical, List.Pairwise.insertionSort_eq]
  have hkeys' : Assoc.keys (Value.canonicalEntries entries) = keys := by
    rw [Value.canonicalEntries_eq_map, ← hkeys, Assoc.keys, Assoc.keys, List.map_map]
    rfl
  rw [← hkeys', Assoc.keys, List.pairwise_map] at hsorted
  exact hsorted

theorem canonical_document (kind : NodeKind) (parent : String) (attempt : ℤ) (payload : Value) :
    Value.canonical (.dict [("a", .int attempt), ("k", .str kind.value), ("p", .str parent),
      ("pl", payload)]) = Identity.document ⟨attempt, kind, parent, payload.canonical⟩ :=
  @canonicalEntries_document _ ["a", "k", "p", "pl"] rfl (by decide)

theorem isIdentity_document {payload : Value} (h : payload.isIdentity = true) (kind : NodeKind)
    (parent : String) (attempt : ℤ) :
    Value.isIdentity (Identity.document ⟨attempt, kind, parent, payload.canonical⟩) = true := by
  simp [Identity.document, Value.isIdentity, Value.isIdentityEntries, Value.isIdentity_canonical, h]

theorem nodeIdBytes_ok {payload : Value} (h : payload.isIdentity = true) (kind : NodeKind)
    (parent : Option String) (attempt : ℤ) :
    nodeIdBytes kind parent attempt payload = .ok (documentOctets kind parent attempt payload) := by
  have hdocument : Value.isIdentity (.dict [("a", .int attempt), ("k", .str kind.value),
      ("p", .str (parent.getD "")), ("pl", payload)]) = true := by
    simp [Value.isIdentity, Value.isIdentityEntries, h]
  rw [nodeIdBytes, Value.canonicalBytes_ok hdocument, canonical_document]
  rfl

/-- Identities with one octet string are one. -/
theorem documentOctets_inj {kind kind' : NodeKind} {parent parent' : Option String}
    {attempt attempt' : ℤ} {payload payload' : Value} (hidentity : payload.isIdentity = true)
    (hidentity' : payload'.isIdentity = true)
    (h : documentOctets kind parent attempt payload =
      documentOctets kind' parent' attempt' payload') :
    kind = kind' ∧ parent.getD "" = parent'.getD "" ∧ attempt = attempt' ∧
      Value.SameJson payload payload' := by
  have hdocument := Value.dumps_injective (isIdentity_document hidentity ..)
    (isIdentity_document hidentity' ..) (utf8Bytes_injective (List.append_cancel_left h))
  simp only [Identity.document, Value.dict.injEq, List.cons.injEq, Prod.mk.injEq, Value.int.injEq,
    Value.str.injEq, true_and, and_true] at hdocument
  obtain ⟨hattempt, hkind, hparent, hsame⟩ := hdocument
  exact ⟨NodeKind.value_injective hkind, hparent, hattempt, hsame⟩

theorem rust_nodeIdBytes {payload : Value} (h : payload.isIdentity = true) (kind : NodeKind)
    (parent : Option String) (attempt : ℕ) :
    Rust.nodeIdBytes kind.value parent attempt payload.toRust =
      .ok (documentOctets kind parent attempt payload) := by
  rw [Rust.nodeIdBytes, Value.write_toRust payload h, documentOctets, Identity.document,
    Value.utf8Bytes_dict]
  have hfirst : Rust.ascii "\x7b\"a\":" =
      123 :: (Rust.Json.writeString "a" ++ [58]) := by decide
  have hkind : Rust.ascii ",\"k\":" = 44 :: (Rust.Json.writeString "k" ++ [58]) := by
    decide
  have hparent : Rust.ascii ",\"p\":" = 44 :: (Rust.Json.writeString "p" ++ [58]) := by
    decide
  have hpayload : Rust.ascii ",\"pl\":" =
      44 :: (Rust.Json.writeString "pl" ++ [58]) := by decide
  rw [hfirst, hkind, hparent, hpayload]
  refine congrArg Except.ok (congrArg (utf8Bytes "pollard/v1\n" ++ ·) ?_)
  simp only [Reading.separated, Value.octetEntry, List.flatMap_cons, List.flatMap_nil,
    List.append_assoc, List.cons_append, List.nil_append, List.append_nil, Value.dumps,
    utf8Bytes_jsonString]
  rfl

theorem npm_nodeIdBytes {payload : Value} (h : payload.isPortable = true) (kind : NodeKind)
    (parent : Option String) {attempt : ℕ} (hattempt : attempt ≤ Npm.maxSafeInteger) :
    Npm.nodeIdBytes (Npm.units kind.value) (parent.map Npm.units) attempt payload.toJs =
      .ok (documentOctets kind parent attempt payload) := by
  have hsafe : Npm.nonnegativeInteger attempt (Npm.units "attempt") = .ok () := by
    simp [Npm.nonnegativeInteger, Npm.isSafeInteger, hattempt]
  have hparent : (parent.map Npm.units).getD [] = Npm.units (parent.getD "") := by
    cases parent <;> rfl
  have hidentity := Value.encode_toJs (.dict [("a", .int attempt), ("k", .str kind.value),
    ("p", .str (parent.getD "")), ("pl", payload)]) (Npm.units "$") (by
      simp [Value.isPortable, Value.isPortableEntries, h, hattempt, Assoc.keys])
  rw [canonical_document] at hidentity
  have htext : Npm.canonicalText (.object [(Npm.units "a", .number (attempt : ℤ)),
      (Npm.units "k", .string (Npm.units kind.value)),
      (Npm.units "p", .string (Npm.units (parent.getD ""))), (Npm.units "pl", payload.toJs)]) =
      .ok (Npm.units (Identity.document
        ⟨attempt, kind, parent.getD "", payload.canonical⟩).dumps) := hidentity
  rw [Npm.nodeIdBytes, hsafe, hparent]
  change (Npm.canonicalText _).bind _ = _
  rw [htext]
  change Except.ok (Npm.utf8Octets _) = _
  rw [← units_append, utf8Octets_units, utf8Bytes_append]
  rfl

/-- Python, Rust and npm hash one octet string for an identity, whatever order the objects of
its payload list their keys in, and another for another identity. -/
theorem languages_hash_one_text :
    (∀ (kind : NodeKind) (parent : Option String) (attempt : ℕ) (payload inRust inJs : Value),
      attempt ≤ Npm.maxSafeInteger → payload.isPortable = true → inJs.isPortable = true →
      Value.SameJson payload inRust → Value.SameJson payload inJs →
      ∃ octets, nodeIdBytes kind parent attempt payload = .ok octets ∧
        Rust.nodeIdBytes kind.value parent attempt inRust.toRust = .ok octets ∧
        Npm.nodeIdBytes (Npm.units kind.value) (parent.map Npm.units) attempt inJs.toJs =
          .ok octets ∧
        ∀ sha : List ℕ → String,
          (Hashing.sha256 sha).nodeId kind parent attempt payload = sha octets ∧
          Rust.nodeId sha kind.value parent attempt inRust.toRust =
            .ok (sha octets) ∧
          Npm.nodeId sha (Npm.units kind.value) (parent.map Npm.units) attempt inJs.toJs =
            .ok (sha octets)) ∧
    ∀ (kind kind' : NodeKind) (parent parent' : Option String) (attempt attempt' : ℕ)
      (payload payload' : Value) (octets : List ℕ),
      payload.isPortable = true → payload'.isPortable = true →
      nodeIdBytes kind parent attempt payload = .ok octets →
      nodeIdBytes kind' parent' attempt' payload' = .ok octets →
      kind = kind' ∧ parent.getD "" = parent'.getD "" ∧ attempt = attempt' ∧
        Value.SameJson payload payload' := by
  constructor
  · intro kind parent attempt payload inRust inJs hattempt hpayload hjs hrust hsame
    have hidentity := Value.isIdentity_of_isPortable payload hpayload
    have hrustId : inRust.isIdentity = true := by
      rw [← Value.isIdentity_canonical, ← hrust, Value.isIdentity_canonical, hidentity]
    have hinRust : documentOctets kind parent attempt inRust =
        documentOctets kind parent attempt payload := by
      rw [documentOctets, ← hrust, documentOctets]
    have hinJs : documentOctets kind parent attempt inJs =
        documentOctets kind parent attempt payload := by
      rw [documentOctets, ← hsame, documentOctets]
    have hr := rust_nodeIdBytes hrustId kind parent attempt
    have hn := npm_nodeIdBytes hjs kind parent hattempt
    rw [hinRust] at hr
    rw [hinJs] at hn
    refine ⟨_, nodeIdBytes_ok hidentity kind parent attempt, hr, hn, fun sha => ⟨?_, ?_, ?_⟩⟩
    · change sha (utf8Bytes ("pollard/v1\n" ++ Value.jsonText _)) = _
      rw [utf8Bytes_append, Value.jsonText, Identity.document, canonical_document,
        Value.canonical_canonical]
      rfl
    · rw [Rust.nodeId, hr]
      rfl
    · rw [Npm.nodeId, hn]
      rfl
  · intro kind kind' parent parent' attempt attempt' payload payload' octets hpayload hpayload' h h'
    have hidentity := Value.isIdentity_of_isPortable payload hpayload
    have hidentity' := Value.isIdentity_of_isPortable payload' hpayload'
    rw [nodeIdBytes_ok hidentity] at h
    rw [nodeIdBytes_ok hidentity', ← h] at h'
    obtain ⟨hkind, hparent, hattempt, hsame⟩ :=
      documentOctets_inj hidentity' hidentity (Except.ok.inj h')
    exact ⟨hkind.symm, hparent.symm, (Nat.cast_inj.mp hattempt).symm, hsame.symm⟩

/-- Keys that the three languages would each list in another order. -/
def unorderedPayload : Value :=
  .dict [("\uffee", .bool true), ("10", .str "\n"), ("😀", .none), ("9", .int 1)]

theorem unordered_payload_has_one_text :
    ∃ octets, nodeIdBytes .note (some "r") 1 unorderedPayload = .ok octets ∧
      Rust.nodeIdBytes "note" (some "r") 1 unorderedPayload.toRust = .ok octets ∧
      Npm.nodeIdBytes (Npm.units "note") (some (Npm.units "r")) 1 unorderedPayload.toJs =
        .ok octets ∧
      nodeIdBytes .note (some "r") 1 (.dict [("9", .int 1)]) ≠ .ok octets := by
  obtain ⟨octets, hpython, hrust, hnpm, -⟩ := languages_hash_one_text.1 .note (some "r") 1
    unorderedPayload unorderedPayload unorderedPayload (by decide) (by decide) (by decide) rfl rfl
  refine ⟨octets, hpython, hrust, hnpm, fun hother => ?_⟩
  have hsame := (languages_hash_one_text.2 .note .note (some "r") (some "r") 1 1 _ _ octets
    (by decide) (by decide) hpython hother).2.2.2
  exact absurd hsame (by decide)

end Pollard
