import Pollard.Json
import Pollard.Lib.Reading
import Mathlib.Tactic.IntervalCases

/-!
# Canonical texts are read in one way

The text of an identity value tells which value it is of: no two values have one text.
-/

namespace Pollard

open Lib Reading

/-! ## Strings -/

/-- The value of a lower-case hexadecimal digit. -/
def hexValue (c : Char) : ℕ := if c.toNat < 58 then c.toNat - 48 else c.toNat - 87

/-- The code point an escaped text starts with, and the rest. -/
def unescape : List Char → Option (ℕ × List Char)
  | [] => none
  | c :: rest =>
      if c = '\\' then
        match rest with
        | 'b' :: rest => some (8, rest)
        | 't' :: rest => some (9, rest)
        | 'n' :: rest => some (10, rest)
        | 'f' :: rest => some (12, rest)
        | 'r' :: rest => some (13, rest)
        | 'u' :: _ :: _ :: a :: b :: rest => some (16 * hexValue a + hexValue b, rest)
        | c :: rest => some (c.toNat, rest)
        | [] => none
      else some (c.toNat, rest)

/-- A character that is not escaped. -/
theorem jsonChar_of_plain {c : Char} (hlow : ¬ c.toNat < 32) (hquote : c.toNat ≠ 34)
    (hslash : c.toNat ≠ 92) : jsonChar c = c.toString := by
  unfold jsonChar
  split <;> first | omega | exact if_neg hlow

theorem unescape_jsonChar (c : Char) (s : List Char) :
    unescape ((jsonChar c).toList ++ s) = some (c.toNat, s) := by
  by_cases hlow : c.toNat < 32
  · unfold jsonChar
    generalize c.toNat = n at hlow
    interval_cases n <;> simp [unescape, hexValue, Nat.digitChar]
  · by_cases hquote : c.toNat = 34
    · rw [jsonChar, hquote]
      simp [unescape]
    · by_cases hslash : c.toNat = 92
      · rw [jsonChar, hslash]
        simp [unescape]
      · have hne : c ≠ '\\' := fun heq => hslash (by rw [heq]; rfl)
        rw [jsonChar_of_plain hlow hquote hslash]
        simp [unescape, hne, Char.toString]

theorem jsonChar_reads (c : Char) :
    Reads (fun c => (jsonChar c).toList) (fun _ => True) (fun _ => True) c := by
  intro d s t _ _ _ heq
  have hc := unescape_jsonChar c s
  rw [heq, unescape_jsonChar d t, Option.some.injEq, Prod.mk.injEq] at hc
  exact ⟨Char.toNat_inj.mp hc.1.symm, hc.2.symm⟩

/-- An escaped character does not start with a quotation mark. -/
theorem jsonChar_ne_quote (c : Char) (s t : List Char) :
    (jsonChar c).toList ++ s ≠ '"' :: t := by
  intro heq
  have hc := unescape_jsonChar c s
  rw [heq] at hc
  have hquote : c.toNat = 34 := by
    have hmark : unescape ('"' :: t) = some (34, t) := by simp [unescape]
    rw [hmark, Option.some.injEq, Prod.mk.injEq] at hc
    exact hc.1.symm
  rw [jsonChar, hquote] at heq
  simp at heq

theorem jsonString_toList (s : String) :
    (jsonString s).toList = '"' :: (s.toList.flatMap fun c => (jsonChar c).toList) ++ ['"'] := by
  simp [jsonString, List.flatMap_map]

theorem jsonString_reads (key : String) :
    Reads (fun s => (jsonString s).toList) (fun _ => True) (fun _ => True) key := by
  intro other s t _ _ _ heq
  simp only [jsonString_toList, List.cons_append, List.append_assoc, List.nil_append] at heq
  obtain ⟨hchars, htail⟩ := reads_sequence (fun c _ => ⟨trivial, jsonChar_reads c⟩)
    (fun _ _ => trivial) (fun c s t _ => jsonChar_ne_quote c s t) (fun _ => trivial)
    (fun _ _ _ => trivial) (List.tail_eq_of_cons_eq heq)
  exact ⟨String.toList_inj.mp hchars, htail⟩

/-! ## Numbers -/

/-- The characters of integers. -/
def numeric (c : Char) : Bool := c.isDigit || c = '-'

theorem numeric_of_mem_repr {n : ℕ} {c : Char} (h : c ∈ (Nat.repr n).toList) :
    c.isDigit = true := by
  rw [Nat.repr, String.toList_ofList] at h
  exact Nat.isDigit_of_mem_toDigits (by decide) (by decide) h

theorem int_toString_numeric (n : ℤ) : (toString n).toList.all numeric = true := by
  rw [List.all_eq_true]
  intro c hc
  cases n with
  | ofNat n =>
      have hdigit : c.isDigit = true := numeric_of_mem_repr (n := n) hc
      simp [numeric, hdigit]
  | negSucc n =>
      have hmem : c ∈ ("-" ++ Nat.repr (n + 1)).toList := hc
      rw [String.toList_append, List.mem_append] at hmem
      rcases hmem with hminus | hdigits
      · have hc : c = '-' := by simpa using hminus
        simp [numeric, hc]
      · simp [numeric, numeric_of_mem_repr hdigits]

/-- The number of a text of decimal digits, which may have a minus sign. -/
def readInt : List Char → ℤ
  | '-' :: digits => -Nat.ofDigitChars 10 digits 0
  | digits => Nat.ofDigitChars 10 digits 0

theorem readInt_toString (n : ℤ) : readInt (toString n).toList = n := by
  have hread (n : ℕ) : Nat.ofDigitChars 10 (Nat.repr n).toList 0 = n := by
    rw [Nat.repr, String.toList_ofList, Nat.ofDigitChars_ten_toDigits]
  cases n with
  | ofNat n =>
      change readInt (Nat.repr n).toList = n
      unfold readInt
      split
      · next digits hminus =>
          have hdigit := numeric_of_mem_repr (hminus ▸ List.mem_cons_self : '-' ∈ n.repr.toList)
          exact absurd hdigit (by decide)
      · rw [hread]
  | negSucc n =>
      change readInt ("-" ++ Nat.repr (n + 1)).toList = Int.negSucc n
      rw [String.toList_append]
      change -((Nat.ofDigitChars 10 (Nat.repr (n + 1)).toList 0 : ℕ) : ℤ) = Int.negSucc n
      rw [hread]
      rfl

theorem int_toString_ne_nil (n : ℤ) : (toString n).toList ≠ [] := by
  cases n with
  | ofNat n =>
      change (Nat.repr n).toList ≠ []
      rw [Nat.repr, String.toList_ofList]
      exact Nat.toDigits_ne_nil
  | negSucc n =>
      change ("-" ++ Nat.repr (n + 1)).toList ≠ []
      rw [String.toList_append]
      exact List.cons_ne_nil _ _

/-- What may follow a value: nothing a number goes on with. -/
def AfterValue (s : List Char) : Prop := s.head?.all (fun c => ¬ numeric c) = true

theorem int_reads (n : ℤ) :
    Reads (fun n : ℤ => (toString n).toList) (fun _ => True) AfterValue n := by
  intro m s t _ hs ht heq
  obtain ⟨hdigits, htail⟩ := reads_run (int_toString_numeric n) (int_toString_numeric m) hs ht heq
  rw [← readInt_toString n, hdigits, readInt_toString]
  exact ⟨rfl, htail⟩

/-! ## Values -/

namespace Value

/-- The text of an entry of an object. -/
def entryText (e : String × Value) : List Char :=
  [] ++ (jsonString e.1).toList ++ [':'] ++ e.2.dumps.toList ++ []

theorem dumpsItems_eq_map (items : List Value) : dumpsItems items = items.map dumps := by
  induction items with
  | nil => rfl
  | cons item items ih => rw [dumpsItems, ih, List.map_cons]

theorem dumpsEntries_eq_map (entries : List (String × Value)) :
    dumpsEntries entries = entries.map fun e => jsonString e.1 ++ ":" ++ dumps e.2 := by
  induction entries with
  | nil => rfl
  | cons e entries ih => rw [dumpsEntries, ih, List.map_cons]

theorem dumps_list (items : List Value) :
    (dumps (.list items)).toList =
      '[' :: separated ',' (fun item => (dumps item).toList) items ++ [']'] := by
  rw [dumps, dumpsItems_eq_map, separated_eq_intercalate]
  simp [Function.comp_def]

theorem dumps_dict (entries : List (String × Value)) :
    (dumps (.dict entries)).toList = '\x7b' :: separated ',' entryText entries ++ ['\x7d'] := by
  have htext : entryText = fun e => (jsonString e.1 ++ ":" ++ dumps e.2).toList := by
    funext e
    simp [entryText]
  rw [dumps, dumpsEntries_eq_map, separated_eq_intercalate, htext]
  simp [Function.comp_def]

/-- The kind of value a text is of, by its first character. -/
def leads (c : Char) : ℕ :=
  if numeric c then 3 else if c = 'n' then 0 else if c = 't' then 1 else if c = 'f' then 2
  else if c = '"' then 4 else if c = '[' then 5 else 6

def shape : Value → ℕ
  | .none => 0
  | .bool true => 1
  | .bool false => 2
  | .int _ => 3
  | .str _ => 4
  | .list _ => 5
  | _ => 6

theorem dumps_leads {value : Value} (h : value.isIdentity = true) :
    ∃ c cs, value.dumps.toList = c :: cs ∧ leads c = value.shape ∧ c ≠ ']' ∧ c ≠ '\x7d' := by
  cases value with
  | none => exact ⟨'n', _, rfl, by decide⟩
  | bool b => cases b <;> [exact ⟨'f', _, rfl, by decide⟩; exact ⟨'t', _, rfl, by decide⟩]
  | int n =>
      cases hchars : (toString n).toList with
      | nil => exact absurd hchars (int_toString_ne_nil n)
      | cons c cs =>
          have hnumeric : numeric c = true := by
            have hall := int_toString_numeric n
            rw [hchars, List.all_cons, Bool.and_eq_true] at hall
            exact hall.1
          refine ⟨c, cs, hchars, by simp [leads, hnumeric, shape], ?_, ?_⟩ <;>
            · rintro rfl
              revert hnumeric
              decide
  | str s =>
      rw [dumps, jsonString_toList]
      exact ⟨'"', _, rfl, rfl, by decide, by decide⟩
  | list items =>
      rw [dumps_list]
      exact ⟨'[', _, rfl, rfl, by decide, by decide⟩
  | dict entries =>
      rw [dumps_dict]
      exact ⟨'\x7b', _, rfl, rfl, by decide, by decide⟩
  | float q => cases h
  | surrogates codePoints => cases h
  | foreign typeName => cases h

theorem shape_eq {a b : Value} {s t : List Char} (ha : a.isIdentity = true)
    (hb : b.isIdentity = true) (heq : a.dumps.toList ++ s = b.dumps.toList ++ t) :
    a.shape = b.shape := by
  obtain ⟨c, cs, hc, hleads, -⟩ := dumps_leads ha
  obtain ⟨d, ds, hd, hleads', -⟩ := dumps_leads hb
  rw [hc, hd] at heq
  rw [← hleads, ← hleads', List.head_eq_of_cons_eq heq]

theorem dumps_ne_close {value : Value} (h : value.isIdentity = true) (s t : List Char) :
    value.dumps.toList ++ s ≠ ']' :: t := by
  obtain ⟨c, cs, hc, -, hne, -⟩ := dumps_leads h
  rw [hc]
  exact fun heq => hne (List.head_eq_of_cons_eq heq)

theorem entryText_ne_close (e : String × Value) (s t : List Char) :
    entryText e ++ s ≠ '\x7d' :: t := by
  rw [entryText, jsonString_toList]
  exact fun heq => absurd (List.head_eq_of_cons_eq heq) (by decide)

theorem entryText_reads {e : String × Value}
    (h : Reads (fun v => v.dumps.toList) (fun v => v.isIdentity = true) AfterValue e.2) :
    Reads entryText (fun e => True ∧ e.2.isIdentity = true) AfterValue e := by
  have hpair : Reads (fun p : String × Value =>
      [] ++ (jsonString p.1).toList ++ [':'] ++ p.2.dumps.toList ++ [])
      (fun p => True ∧ p.2.isIdentity = true) AfterValue (e.1, e.2) :=
    (jsonString_reads e.1).pair h (fun _ => trivial) fun _ hs => hs
  exact hpair

mutual

/-- The text of an identity value tells which value it is of and where it ends. -/
theorem dumps_reads : ∀ value : Value, value.isIdentity = true →
    Reads (fun v => v.dumps.toList) (fun v => v.isIdentity = true) AfterValue value
  | .none, h => by
      intro b s t hb _ _ heq
      have hshape := shape_eq h hb heq
      cases b with
      | none => exact ⟨rfl, List.append_cancel_left heq⟩
      | bool b => cases b <;> cases hshape
      | _ => cases hshape
  | .bool value, h => by
      intro b s t hb _ _ heq
      have hshape := shape_eq h hb heq
      cases b with
      | bool b =>
          cases value <;> cases b <;>
            first
              | exact ⟨rfl, List.append_cancel_left heq⟩
              | cases hshape
      | _ => cases value <;> cases hshape
  | .int n, h => by
      intro b s t hb hs ht heq
      have hshape := shape_eq h hb heq
      cases b with
      | int m =>
          obtain ⟨rfl, htail⟩ := int_reads n m s t trivial hs ht heq
          exact ⟨rfl, htail⟩
      | bool b => cases b <;> cases hshape
      | _ => cases hshape
  | .str text, h => by
      intro b s t hb hs ht heq
      have hshape := shape_eq h hb heq
      cases b with
      | str other =>
          obtain ⟨rfl, htail⟩ := jsonString_reads text other s t trivial trivial trivial heq
          exact ⟨rfl, htail⟩
      | bool b => cases b <;> cases hshape
      | _ => cases hshape
  | .list items, h => by
      intro b s t hb hs ht heq
      have hshape := shape_eq h hb heq
      cases b with
      | list others =>
          simp only [dumps_list, List.cons_append, List.append_assoc, List.nil_append] at heq
          obtain ⟨rfl, htail⟩ := reads_separated
            (fun item hitem => ⟨isIdentity_list.mp h item hitem, dumps_reads_items items h item hitem⟩)
            (isIdentity_list.mp hb) (fun item s t hitem => dumps_ne_close hitem s t) (by decide)
            (fun _ => by rfl) (fun _ => by rfl) (List.tail_eq_of_cons_eq heq)
          exact ⟨rfl, htail⟩
      | bool b => cases b <;> cases hshape
      | _ => cases hshape
  | .dict entries, h => by
      intro b s t hb hs ht heq
      have hshape := shape_eq h hb heq
      cases b with
      | dict others =>
          simp only [dumps_dict, List.cons_append, List.append_assoc, List.nil_append] at heq
          obtain ⟨rfl, htail⟩ := reads_separated
            (fun e he => ⟨⟨trivial, isIdentity_dict.mp h e he⟩,
              entryText_reads (dumps_reads_entries entries h e he)⟩)
            (fun e he => ⟨trivial, isIdentity_dict.mp hb e he⟩)
            (fun e s t _ => entryText_ne_close e s t) (by decide)
            (fun _ => by rfl) (fun _ => by rfl) (List.tail_eq_of_cons_eq heq)
          exact ⟨rfl, htail⟩
      | bool b => cases b <;> cases hshape
      | float q => cases hb
      | surrogates codePoints => cases hb
      | foreign typeName => cases hb
      | _ => cases hshape

theorem dumps_reads_items : ∀ items : List Value, isIdentityItems items = true →
    ∀ item ∈ items,
      Reads (fun v => v.dumps.toList) (fun v => v.isIdentity = true) AfterValue item
  | [], _, _, hmem => absurd hmem List.not_mem_nil
  | first :: rest, h, item, hmem => by
      rw [isIdentityItems, Bool.and_eq_true] at h
      rcases List.mem_cons.mp hmem with heq | hrest
      · rw [heq]
        exact dumps_reads first h.1
      · exact dumps_reads_items rest h.2 item hrest

theorem dumps_reads_entries : ∀ entries : List (String × Value),
    isIdentityEntries entries = true → ∀ e ∈ entries,
      Reads (fun v => v.dumps.toList) (fun v => v.isIdentity = true) AfterValue e.2
  | [], _, _, hmem => absurd hmem List.not_mem_nil
  | (key, value) :: rest, h, e, hmem => by
      rw [isIdentityEntries, Bool.and_eq_true] at h
      rcases List.mem_cons.mp hmem with heq | hrest
      · rw [heq]
        exact dumps_reads value h.1
      · exact dumps_reads_entries rest h.2 e hrest

end

/-- Two identity values of one text are one. -/
theorem dumps_injective {a b : Value} (ha : a.isIdentity = true) (hb : b.isIdentity = true)
    (heq : a.dumps = b.dumps) : a = b :=
  (dumps_reads a ha).injective hb rfl (congrArg String.toList heq)

/-- Identity values of one canonical text have one canonical form. -/
theorem jsonText_injective {a b : Value} (ha : a.isIdentity = true) (hb : b.isIdentity = true)
    (heq : a.jsonText = b.jsonText) : a.canonical = b.canonical :=
  dumps_injective (by rw [isIdentity_canonical, ha]) (by rw [isIdentity_canonical, hb]) heq

end Value

end Pollard
