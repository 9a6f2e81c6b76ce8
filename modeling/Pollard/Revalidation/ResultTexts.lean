import Pollard.Identity.Texts
import Pollard.Revalidation.Differences
import Pollard.Runtime.ScopeTexts

/-!
# Comparing results exactly

A result is stored as a text, which tells every float from every other: `0.0` from `-0.0`
too.  The comparator visits the values, and takes the two zeros for one.
-/

namespace Pollard.Revalidation

open Lib Reading

/-! ## Texts of floats -/

/-- `repr` of a finite float. -/
def PyFloat.text : PyFloat → String
  | zero negative => if negative then "-0.0" else "0.0"
  | nonzero q _ _ => floatRepr q

/-- The characters of floats. -/
def floating (c : Char) : Bool := numeric c || c = '.' || c = 'e' || c = '+'

/-- What only a float has. -/
def fractional (c : Char) : Bool := c = '.' || c = 'e'

theorem floating_of_mem_decimalText {q : ℚ} (h : Terminates q) {c : Char}
    (hc : c ∈ (decimalText q).toList) : floating c = true := by
  by_contra hfloating
  simp only [floating, numeric, Bool.or_eq_true, decide_eq_true_eq, not_or,
    Bool.not_eq_true] at hfloating
  obtain ⟨⟨⟨⟨hdigit, hsign⟩, hpoint⟩, -⟩, -⟩ := hfloating
  exact not_mem_decimalText h hdigit hsign hpoint hc

/-- A number that is not whole has a point. -/
theorem point_mem_decimalText {q : ℚ} (h : Terminates q) (hden : q.den ≠ 1) :
    '.' ∈ (decimalText q).toList := by
  obtain ⟨places, hplaces, -, htext⟩ := exists_places h
  have hpos : places ≠ 0 := by
    rintro rfl
    exact hden (Nat.dvd_one.mp hplaces)
  rw [htext, PlainNotation.write, if_neg hpos]
  simp

theorem floatRepr_chars {q : ℚ} (h : Binary64.round q = q) :
    (floatRepr q).toList.all floating = true ∧ (floatRepr q).toList.any fractional = true := by
  have hterminates := terminates_shortest h
  rw [List.all_eq_true, List.any_eq_true]
  unfold floatRepr
  dsimp only
  split
  · exact ⟨List.all_eq_true.mp (by decide : "0.0".toList.all floating = true), '.', by decide, rfl⟩
  · split
    · split
      · refine ⟨fun c hc => ?_, '.', by simp, rfl⟩
        rw [String.toList_append, List.mem_append] at hc
        rcases hc with hc | hc
        · exact floating_of_mem_decimalText hterminates hc
        · exact List.all_eq_true.mp (by decide : ".0".toList.all floating = true) c hc
      · next hden =>
          refine ⟨fun c hc => ?_, '.', ?_, rfl⟩
          · rw [String.append_empty] at hc
            exact floating_of_mem_decimalText hterminates hc
          · rw [String.append_empty]
            exact point_mem_decimalText hterminates hden
    · have hmantissa := hterminates.div_zpow (Int.log 10 |Binary64.shortest q|)
      have hdigits : ∀ c ∈ (toString (Int.log 10 |Binary64.shortest q|).natAbs).toList,
          floating c = true := fun c hc => by
        simp [floating, numeric, numeric_of_mem_repr hc]
      refine ⟨fun c hc => ?_, 'e', ?_, rfl⟩
      · rw [String.toList_append, String.toList_append, List.mem_append, List.mem_append] at hc
        rcases hc with (hc | hc) | hc
        · exact floating_of_mem_decimalText hmantissa hc
        · split at hc
          · exact List.all_eq_true.mp (by decide : "e-".toList.all floating = true) c hc
          · exact List.all_eq_true.mp (by decide : "e+".toList.all floating = true) c hc
        · split at hc
          · rw [String.toList_append, List.mem_append] at hc
            rcases hc with hc | hc
            · exact List.all_eq_true.mp (by decide : "0".toList.all floating = true) c hc
            · exact hdigits c hc
          · exact hdigits c hc
      · rw [String.toList_append, String.toList_append, List.mem_append, List.mem_append]
        refine .inl (.inr ?_)
        split <;> decide

theorem PyFloat.text_chars (x : PyFloat) :
    x.text.toList.all floating = true ∧ x.text.toList.any fractional = true := by
  cases x with
  | zero negative => cases negative <;> decide
  | nonzero q hne hround => exact floatRepr_chars hround

theorem PyFloat.text_ne_nil (x : PyFloat) : x.text.toList ≠ [] := by
  intro hnil
  have hany := x.text_chars.2
  rw [hnil] at hany
  cases hany

theorem floatRepr_ne_zero {q : ℚ} (hne : q ≠ 0) (h : Binary64.round q = q) (negative : Bool) :
    floatRepr q ≠ (PyFloat.zero negative).text := by
  intro heq
  have hshortest : Binary64.shortest q = 0 := by
    rw [← readFloat_floatRepr h, heq]
    cases negative <;> decide +kernel
  have hround := round_shortest h
  rw [hshortest] at hround
  have hzero : Binary64.round 0 = 0 := by decide +kernel
  exact hne (hround.symm.trans hzero)

/-- Every float has a text of its own. -/
theorem PyFloat.text_injective {x y : PyFloat} (h : x.text = y.text) : x = y := by
  cases x with
  | zero a =>
      cases y with
      | zero b => cases a <;> cases b <;> first | rfl | exact absurd h (by decide)
      | nonzero q hne hround => exact absurd h.symm (floatRepr_ne_zero hne hround a)
  | nonzero p hne hround =>
      cases y with
      | zero b => exact absurd h (floatRepr_ne_zero hne hround b)
      | nonzero q hne' hround' =>
          obtain rfl := floatRepr_inj hround hround' h
          rfl

/-- What may follow a value: nothing a number goes on with. -/
def AfterResult (s : List Char) : Prop := s.head?.all (fun c => ¬ floating c) = true

theorem int_toString_floating (n : ℤ) : (toString n).toList.all floating = true := by
  have hall := int_toString_numeric n
  rw [List.all_eq_true] at hall ⊢
  exact fun c hc => by simp [floating, hall c hc]

theorem int_toString_not_fractional (n : ℤ) : (toString n).toList.any fractional = false := by
  have hall := int_toString_numeric n
  rw [List.all_eq_true] at hall
  rw [List.any_eq_false]
  intro c hc
  have hnumeric := hall c hc
  intro hfractional
  simp only [fractional, Bool.or_eq_true, decide_eq_true_eq] at hfractional
  rcases hfractional with rfl | rfl <;> revert hnumeric <;> decide

/-! ## Texts of results -/

namespace Json

mutual

/-- Sorted keys, at every depth. -/
def canonical : Json → Json
  | .list items => .list (canonicalItems items)
  | .dict entries => .dict ((canonicalEntries entries).insertionSort fun a b => a.1 ≤ b.1)
  | value => value

def canonicalItems : List Json → List Json
  | [] => []
  | item :: items => canonical item :: canonicalItems items

def canonicalEntries : List (String × Json) → List (String × Json)
  | [] => []
  | (key, value) :: entries => (key, canonical value) :: canonicalEntries entries

end

mutual

def dumps : Json → String
  | .null => "null"
  | .bool b => if b then "true" else "false"
  | .int n => toString n
  | .float x => x.text
  | .str s => jsonString s
  | .list items => "[" ++ ",".intercalate (dumpsItems items) ++ "]"
  | .dict entries => "\x7b" ++ ",".intercalate (dumpsEntries entries) ++ "\x7d"

def dumpsItems : List Json → List String
  | [] => []
  | item :: items => dumps item :: dumpsItems items

def dumpsEntries : List (String × Json) → List String
  | [] => []
  | (key, value) :: entries => (jsonString key ++ ":" ++ dumps value) :: dumpsEntries entries

end

/-- `result_to_text` -/
def resultText (value : Json) : String := value.canonical.dumps

/-! ### Reading them back -/

def entryText (e : String × Json) : List Char :=
  [] ++ (jsonString e.1).toList ++ [':'] ++ e.2.dumps.toList ++ []

theorem dumpsItems_eq_map (items : List Json) : dumpsItems items = items.map dumps := by
  induction items with
  | nil => rfl
  | cons item items ih => rw [dumpsItems, ih, List.map_cons]

theorem dumpsEntries_eq_map (entries : List (String × Json)) :
    dumpsEntries entries = entries.map fun e => jsonString e.1 ++ ":" ++ dumps e.2 := by
  induction entries with
  | nil => rfl
  | cons e entries ih => rw [dumpsEntries, ih, List.map_cons]

theorem dumps_list (items : List Json) :
    (dumps (.list items)).toList =
      '[' :: separated ',' (fun item => (dumps item).toList) items ++ [']'] := by
  rw [dumps, dumpsItems_eq_map, separated_eq_intercalate]
  simp [Function.comp_def]

theorem dumps_dict (entries : List (String × Json)) :
    (dumps (.dict entries)).toList = '\x7b' :: separated ',' entryText entries ++ ['\x7d'] := by
  have htext : entryText = fun e => (jsonString e.1 ++ ":" ++ dumps e.2).toList := by
    funext e
    simp [entryText]
  rw [dumps, dumpsEntries_eq_map, separated_eq_intercalate, htext]
  simp [Function.comp_def]

/-- The kind of value a text is of, by its first character. -/
def leads (c : Char) : ℕ :=
  if floating c then 3 else if c = 'n' then 0 else if c = 't' then 1 else if c = 'f' then 2
  else if c = '"' then 4 else if c = '[' then 5 else 6

def lead : Json → ℕ
  | .null => 0
  | .bool true => 1
  | .bool false => 2
  | .int _ => 3
  | .float _ => 3
  | .str _ => 4
  | .list _ => 5
  | .dict _ => 6

/-- The text of a number. -/
theorem number_leads {text : String} (hne : text.toList ≠ [])
    (hall : text.toList.all floating = true) :
    ∃ c cs, text.toList = c :: cs ∧ leads c = 3 ∧ c ≠ ']' ∧ c ≠ '\x7d' := by
  obtain ⟨c, cs, hchars⟩ := List.exists_cons_of_ne_nil hne
  have hfloating : floating c = true := List.all_eq_true.mp hall c (hchars ▸ List.mem_cons_self)
  refine ⟨c, cs, hchars, if_pos hfloating, ?_, ?_⟩ <;>
    · rintro rfl
      revert hfloating
      decide

theorem dumps_leads (value : Json) :
    ∃ c cs, value.dumps.toList = c :: cs ∧ leads c = value.lead ∧ c ≠ ']' ∧ c ≠ '\x7d' := by
  cases value with
  | null => exact ⟨'n', _, rfl, by decide⟩
  | bool b => cases b <;> [exact ⟨'f', _, rfl, by decide⟩; exact ⟨'t', _, rfl, by decide⟩]
  | int n => exact number_leads (int_toString_ne_nil n) (int_toString_floating n)
  | float x => exact number_leads x.text_ne_nil x.text_chars.1
  | str s =>
      rw [dumps, jsonString_toList]
      exact ⟨'"', _, rfl, rfl, by decide, by decide⟩
  | list items =>
      rw [dumps_list]
      exact ⟨'[', _, rfl, rfl, by decide, by decide⟩
  | dict entries =>
      rw [dumps_dict]
      exact ⟨'\x7b', _, rfl, rfl, by decide, by decide⟩

theorem lead_eq {a b : Json} {s t : List Char} (heq : a.dumps.toList ++ s = b.dumps.toList ++ t) :
    a.lead = b.lead := by
  obtain ⟨c, cs, hc, hleads, -⟩ := dumps_leads a
  obtain ⟨d, ds, hd, hleads', -⟩ := dumps_leads b
  rw [hc, hd] at heq
  rw [← hleads, ← hleads', List.head_eq_of_cons_eq heq]

theorem dumps_ne_close (value : Json) (s t : List Char) : value.dumps.toList ++ s ≠ ']' :: t := by
  obtain ⟨c, cs, hc, -, hne, -⟩ := dumps_leads value
  rw [hc]
  exact fun heq => hne (List.head_eq_of_cons_eq heq)

theorem entryText_ne_close (e : String × Json) (s t : List Char) :
    entryText e ++ s ≠ '\x7d' :: t := by
  rw [entryText, jsonString_toList]
  exact fun heq => absurd (List.head_eq_of_cons_eq heq) (by decide)

/-- The text of a value tells which value it is of and where it ends. -/
def Readable (value : Json) : Prop :=
  Reads (fun v : Json => v.dumps.toList) (fun _ => True) AfterResult value

theorem entryText_reads {e : String × Json} (h : Readable e.2) :
    Reads entryText (fun _ => True ∧ True) AfterResult e := by
  have hpair : Reads (fun p : String × Json =>
      [] ++ (jsonString p.1).toList ++ [':'] ++ p.2.dumps.toList ++ [])
      (fun _ => True ∧ True) AfterResult (e.1, e.2) :=
    (jsonString_reads e.1).pair h (fun _ => trivial) fun _ hs => hs
  exact hpair

/-- The texts of two numbers, and what follows them. -/
theorem number_reads {a b : String} {s t : List Char} (ha : a.toList.all floating = true)
    (hb : b.toList.all floating = true) (hs : AfterResult s) (ht : AfterResult t)
    (heq : a.toList ++ s = b.toList ++ t) : a = b ∧ s = t := by
  obtain ⟨htext, htail⟩ := reads_run ha hb hs ht heq
  exact ⟨String.toList_inj.mp htext, htail⟩

theorem int_text_ne_float (n : ℤ) (x : PyFloat) : toString n ≠ x.text := by
  intro heq
  have hany := x.text_chars.2
  rw [← heq, int_toString_not_fractional] at hany
  cases hany

theorem readable_int (n : ℤ) : Readable (.int n) := by
  intro b s t _ hs ht heq
  have hlead := lead_eq heq
  cases b with
  | int m =>
      obtain ⟨htext, htail⟩ :=
        number_reads (int_toString_floating n) (int_toString_floating m) hs ht heq
      obtain rfl : n = m := by
        rw [← readInt_toString n, htext, readInt_toString]
      exact ⟨rfl, htail⟩
  | float x =>
      obtain ⟨htext, -⟩ := number_reads (int_toString_floating n) x.text_chars.1 hs ht heq
      exact absurd htext (int_text_ne_float n x)
  | bool b => cases b <;> cases hlead
  | _ => cases hlead

theorem readable_float (x : PyFloat) : Readable (.float x) := by
  intro b s t _ hs ht heq
  have hlead := lead_eq heq
  cases b with
  | int m =>
      obtain ⟨htext, -⟩ := number_reads x.text_chars.1 (int_toString_floating m) hs ht heq
      exact absurd htext.symm (int_text_ne_float m x)
  | float y =>
      obtain ⟨htext, htail⟩ := number_reads x.text_chars.1 y.text_chars.1 hs ht heq
      obtain rfl := PyFloat.text_injective htext
      exact ⟨rfl, htail⟩
  | bool b => cases b <;> cases hlead
  | _ => cases hlead

mutual

theorem readable : ∀ value : Json, value.Readable
  | .null => by
      intro b s t _ _ _ heq
      have hlead := lead_eq heq
      cases b with
      | null => exact ⟨rfl, List.append_cancel_left heq⟩
      | bool b => cases b <;> cases hlead
      | _ => cases hlead
  | .bool value => by
      intro b s t _ _ _ heq
      have hlead := lead_eq heq
      cases b with
      | bool b =>
          cases value <;> cases b <;>
            first
              | exact ⟨rfl, List.append_cancel_left heq⟩
              | cases hlead
      | _ => cases value <;> cases hlead
  | .int n => readable_int n
  | .float x => readable_float x
  | .str text => by
      intro b s t _ _ _ heq
      have hlead := lead_eq heq
      cases b with
      | str other =>
          obtain ⟨rfl, htail⟩ := jsonString_reads text other s t trivial trivial trivial heq
          exact ⟨rfl, htail⟩
      | bool b => cases b <;> cases hlead
      | _ => cases hlead
  | .list items => by
      intro b s t _ _ _ heq
      have hlead := lead_eq heq
      cases b with
      | list others =>
          simp only [dumps_list, List.cons_append, List.append_assoc, List.nil_append] at heq
          obtain ⟨rfl, htail⟩ := reads_separated
            (fun item hitem => ⟨trivial, readable_items items item hitem⟩) (fun _ _ => trivial)
            (fun item s t _ => dumps_ne_close item s t) (by decide)
            (fun _ => by rfl) (fun _ => by rfl) (List.tail_eq_of_cons_eq heq)
          exact ⟨rfl, htail⟩
      | bool b => cases b <;> cases hlead
      | _ => cases hlead
  | .dict entries => by
      intro b s t _ _ _ heq
      have hlead := lead_eq heq
      cases b with
      | dict others =>
          simp only [dumps_dict, List.cons_append, List.append_assoc, List.nil_append] at heq
          obtain ⟨rfl, htail⟩ := reads_separated
            (fun e he => ⟨⟨trivial, trivial⟩, entryText_reads (readable_entries entries e he)⟩)
            (fun _ _ => ⟨trivial, trivial⟩) (fun e s t _ => entryText_ne_close e s t) (by decide)
            (fun _ => by rfl) (fun _ => by rfl) (List.tail_eq_of_cons_eq heq)
          exact ⟨rfl, htail⟩
      | bool b => cases b <;> cases hlead
      | _ => cases hlead

theorem readable_items : ∀ items : List Json, ∀ item ∈ items, item.Readable
  | [], _, hmem => absurd hmem List.not_mem_nil
  | first :: rest, item, hmem => by
      rcases List.mem_cons.mp hmem with heq | hrest
      · rw [heq]
        exact readable first
      · exact readable_items rest item hrest

theorem readable_entries : ∀ entries : List (String × Json), ∀ e ∈ entries, e.2.Readable
  | [], _, hmem => absurd hmem List.not_mem_nil
  | (key, value) :: rest, e, hmem => by
      rcases List.mem_cons.mp hmem with heq | hrest
      · rw [heq]
        exact readable value
      · exact readable_entries rest e hrest

end

/-- Values of one text are one. -/
theorem dumps_injective {a b : Json} (heq : a.dumps = b.dumps) : a = b :=
  (readable a).injective trivial rfl (congrArg String.toList heq)

/-! ## Texts and positions -/

mutual

/-- No object has a key twice. -/
def distinct : Json → Bool
  | .list items => distinctItems items
  | .dict entries => decide (Assoc.keys entries).Nodup && distinctEntries entries
  | _ => true

def distinctItems : List Json → Bool
  | [] => true
  | item :: items => distinct item && distinctItems items

def distinctEntries : List (String × Json) → Bool
  | [] => true
  | (_, value) :: entries => distinct value && distinctEntries entries

end

theorem distinctItems_iff {items : List Json} :
    distinctItems items = true ↔ ∀ item ∈ items, item.distinct = true := by
  induction items with
  | nil => simp [distinctItems]
  | cons item items ih => simp [distinctItems, ih]

theorem distinctEntries_iff {entries : List (String × Json)} :
    distinctEntries entries = true ↔ ∀ e ∈ entries, e.2.distinct = true := by
  induction entries with
  | nil => simp [distinctEntries]
  | cons e entries ih => simp [distinctEntries, ih]

theorem distinct_dict {entries : List (String × Json)} :
    distinct (.dict entries) = true ↔
      (Assoc.keys entries).Nodup ∧ ∀ e ∈ entries, e.2.distinct = true := by
  rw [distinct, Bool.and_eq_true, decide_eq_true_eq, distinctEntries_iff]

theorem canonicalItems_eq_map (items : List Json) :
    canonicalItems items = items.map canonical := by
  induction items with
  | nil => rfl
  | cons item items ih => rw [canonicalItems, ih, List.map_cons]

theorem canonicalEntries_eq_map (entries : List (String × Json)) :
    canonicalEntries entries = entries.map fun e => (e.1, e.2.canonical) := by
  induction entries with
  | nil => rfl
  | cons e entries ih => rw [canonicalEntries, ih, List.map_cons]

/-- What is at a position, if anything is. -/
def valueAt (value : Json) : List Step → Option Json
  | [] => some value
  | step :: steps =>
      match value.child step with
      | some child => valueAt child steps
      | none => none

/-- A value without what is below it. -/
def head : Json → Json
  | .list _ => .list []
  | .dict _ => .dict []
  | value => value

/-- The same positions, and the same text at each. -/
def Alike (left right : Json) : Prop :=
  ∀ position, (valueAt left position).map head = (valueAt right position).map head

theorem shapeAt_eq (value : Json) (position : List Step) :
    shapeAt value position = (valueAt value position).map shape := by
  induction position generalizing value with
  | nil => rfl
  | cons step steps ih =>
      rw [shapeAt, valueAt]
      cases value.child step with
      | none => rfl
      | some child => exact ih child

theorem shape_head (value : Json) : value.head.shape = value.shape := by
  cases value <;> rfl

theorem head_canonical (value : Json) : value.canonical.head = value.head := by
  cases value <;> simp [canonical, head]

theorem mem_canonicalEntries {entries : List (String × Json)}
    (hnodup : (Assoc.keys entries).Nodup) {key : String} {value : Json} :
    (key, value) ∈ canonicalEntries entries ↔
      (Assoc.lookup entries key).map canonical = some value := by
  rw [canonicalEntries_eq_map, List.mem_map, Option.map_eq_some_iff]
  constructor
  · rintro ⟨⟨k, v⟩, hmem, heq⟩
    cases heq
    exact ⟨v, Assoc.lookup_of_mem hnodup hmem, rfl⟩
  · rintro ⟨v, hv, rfl⟩
    exact ⟨(key, v), Assoc.mem_of_lookup hv, rfl⟩

theorem keys_canonicalEntries (entries : List (String × Json)) :
    Assoc.keys (canonicalEntries entries) = Assoc.keys entries := by
  rw [canonicalEntries_eq_map, Assoc.keys, List.map_map]
  rfl

theorem keys_sorted_nodup {entries : List (String × Json)} (hnodup : (Assoc.keys entries).Nodup) :
    (Assoc.keys ((canonicalEntries entries).insertionSort fun a b => a.1 ≤ b.1)).Nodup := by
  rw [Assoc.keys, ((List.perm_insertionSort _ _).map Prod.fst).nodup_iff, ← Assoc.keys,
    keys_canonicalEntries]
  exact hnodup

theorem child_canonical {value : Json} (h : value.distinct = true) (step : Step) :
    value.canonical.child step = (value.child step).map canonical := by
  cases value with
  | list items =>
      cases step with
      | key name => rfl
      | index n =>
          rw [canonical, child, canonicalItems_eq_map, child, List.getElem?_map]
  | dict entries =>
      cases step with
      | index n => rfl
      | key name =>
          obtain ⟨hnodup, -⟩ := distinct_dict.mp h
          rw [canonical, child, child]
          refine Option.ext fun v => ?_
          rw [← mem_canonicalEntries hnodup]
          constructor
          · intro hv
            exact (List.mem_insertionSort _).mp (Assoc.mem_of_lookup hv)
          · intro hmem
            exact Assoc.lookup_of_mem (keys_sorted_nodup hnodup) ((List.mem_insertionSort _).mpr hmem)
  | _ => cases step <;> rfl

theorem distinct_child {value child : Json} (h : value.distinct = true) {step : Step}
    (hchild : value.child step = some child) : child.distinct = true := by
  cases value with
  | list items =>
      cases step with
      | key name => cases hchild
      | index n => exact distinctItems_iff.mp h child (List.mem_of_getElem? hchild)
  | dict entries =>
      cases step with
      | index n => cases hchild
      | key name => exact (distinct_dict.mp h).2 _ (Assoc.mem_of_lookup hchild)
  | _ => cases step <;> cases hchild

theorem valueAt_canonical {value : Json} (h : value.distinct = true) (position : List Step) :
    valueAt value.canonical position = (valueAt value position).map canonical := by
  induction position generalizing value with
  | nil => rfl
  | cons step steps ih =>
      rw [valueAt, valueAt, child_canonical h]
      cases hchild : value.child step with
      | none => rfl
      | some child => exact ih (distinct_child h hchild)

theorem alike_of_canonical {a b : Json} (ha : a.distinct = true) (hb : b.distinct = true)
    (h : a.canonical = b.canonical) : Alike a b := by
  intro position
  have heq := congrArg (fun value => (valueAt value position).map head) h
  simp only [valueAt_canonical ha, valueAt_canonical hb, Option.map_map,
    Function.comp_def, head_canonical] at heq
  exact heq

/-- What is alike is alike below. -/
theorem Alike.child {a b : Json} (h : Alike a b) (step : Step) :
    Option.Rel Alike (a.child step) (b.child step) := by
  have hat : ∀ rest, (valueAt a (step :: rest)).map head = (valueAt b (step :: rest)).map head :=
    fun rest => h (step :: rest)
  simp only [valueAt] at hat
  cases ha : a.child step with
  | none =>
      rw [ha] at hat
      cases hb : b.child step with
      | none => exact .none
      | some w =>
          rw [hb] at hat
          cases hat []
  | some v =>
      rw [ha] at hat
      cases hb : b.child step with
      | none =>
          rw [hb] at hat
          cases hat []
      | some w =>
          rw [hb] at hat
          exact .some hat

theorem canonical_of_alike {a b : Json} (ha : a.distinct = true) (hb : b.distinct = true)
    (h : Alike a b) : a.canonical = b.canonical := by
  induction hsize : sizeOf a using Nat.strong_induction_on generalizing a b with
  | _ n ih =>
      subst hsize
      have hhead : a.head = b.head := Option.some.inj (h [])
      -- Children are alike, so their canonical forms are one.
      have hchild (step : Step) (hlt : ∀ child, a.child step = some child → sizeOf child < sizeOf a) :
          (a.child step).map canonical = (b.child step).map canonical := by
        have hrel := h.child step
        cases hv : a.child step with
        | none =>
            rw [hv] at hrel
            cases hw : b.child step with
            | none => rfl
            | some w =>
                rw [hw] at hrel
                cases hrel
        | some v =>
            rw [hv] at hrel
            cases hw : b.child step with
            | none =>
                rw [hw] at hrel
                cases hrel
            | some w =>
                rw [hw] at hrel
                cases hrel with
                | some halike =>
                    exact congrArg some (ih _ (hlt v hv) (distinct_child ha hv)
                      (distinct_child hb hw) halike rfl)
      cases a with
      | list items =>
          cases b with
          | list others =>
              rw [canonical, canonical, canonicalItems_eq_map, canonicalItems_eq_map]
              congr 1
              refine List.ext_getElem? fun n => ?_
              rw [List.getElem?_map, List.getElem?_map]
              refine hchild (.index n) fun child hc => ?_
              have hlt := List.sizeOf_lt_of_mem (List.mem_of_getElem? hc)
              rw [list.sizeOf_spec]
              omega
          | _ => cases hhead
      | dict entries =>
          cases b with
          | dict others =>
              have hnodup := (distinct_dict.mp ha).1
              have hnodup' := (distinct_dict.mp hb).1
              rw [canonical, canonical]
              congr 1
              have hmem : ∀ e, e ∈ canonicalEntries entries ↔ e ∈ canonicalEntries others := by
                rintro ⟨key, value⟩
                have hkey := hchild (.key key) fun child hc => by
                  have hlt := sizeOf_lookup_lt hc
                  rw [dict.sizeOf_spec]
                  omega
                rw [mem_canonicalEntries hnodup, mem_canonicalEntries hnodup']
                exact Eq.congr_left hkey
              have hdistinct (l : List (String × Json)) (hl : (Assoc.keys l).Nodup) :
                  (canonicalEntries l).Nodup := by
                refine List.Nodup.of_map Prod.fst ?_
                rw [← Assoc.keys, keys_canonicalEntries]
                exact hl
              have hperm := (List.perm_ext_iff_of_nodup (hdistinct _ hnodup)
                (hdistinct _ hnodup')).mpr hmem
              refine List.Perm.eq_of_pairwise (fun x y hx hy hxy hyx => ?_)
                (List.pairwise_insertionSort (fun a b : String × Json => a.1 ≤ b.1) _)
                (List.pairwise_insertionSort (fun a b : String × Json => a.1 ≤ b.1) _)
                ((List.perm_insertionSort _ _).trans
                  (hperm.trans (List.perm_insertionSort _ _).symm))
              have hkey : x.1 = y.1 := le_antisymm hxy hyx
              have hx' := (List.mem_insertionSort _).mp hx
              have hy' := (hmem y).mpr ((List.mem_insertionSort _).mp hy)
              obtain ⟨k, v⟩ := x
              obtain ⟨k', w⟩ := y
              obtain rfl : k = k' := hkey
              rw [mem_canonicalEntries hnodup] at hx' hy'
              rw [hx'] at hy'
              cases hy'
              rfl
          | _ => cases hhead
      | _ => cases b <;> first | exact hhead | cases hhead

/-- Two zeros of different signs at one position. -/
def SignsApart (left right : Json) (position : List Step) : Prop :=
  ∃ a b, valueAt left position = some (.float (.zero a)) ∧
    valueAt right position = some (.float (.zero b)) ∧ a ≠ b

theorem head_eq_or {a b : Json} (h : a.shape = b.shape) :
    a.head = b.head ∨ ∃ s t, a = .float (.zero s) ∧ b = .float (.zero t) ∧ s ≠ t := by
  cases a with
  | float x =>
      cases b with
      | float y =>
          rw [shape, shape, Shape.float.injEq] at h
          cases x with
          | zero s =>
              cases y with
              | zero t =>
                  by_cases hst : s = t
                  · exact .inl (by rw [hst])
                  · exact .inr ⟨s, t, rfl, rfl, hst⟩
              | nonzero q hne hround => exact absurd h.symm hne
          | nonzero p hne hround =>
              cases y with
              | zero t => exact absurd h hne
              | nonzero q hne' hround' =>
                  obtain rfl : p = q := h
                  exact .inl rfl
      | _ => cases h
  | _ => cases b <;> simp_all [shape, head]

/-- Results are alike if they are structurally equal and no zero changes its sign. -/
theorem alike_iff (left right : Json) :
    Alike left right ↔ Same left right ∧ ∀ position, ¬ SignsApart left right position := by
  constructor
  · intro halike
    refine ⟨fun position => ?_, ?_⟩
    · have hshape := congrArg (Option.map shape) (halike position)
      simpa only [Option.map_map, Function.comp_def, shape_head, ← shapeAt_eq] using hshape
    · rintro position ⟨a, b, ha, hb, hne⟩
      have heq := halike position
      rw [ha, hb, Option.map_some, Option.map_some, Option.some.injEq] at heq
      cases heq
      exact hne rfl
  · rintro ⟨hsame, hsigns⟩ position
    have hshape := hsame position
    rw [shapeAt_eq, shapeAt_eq] at hshape
    cases ha : valueAt left position with
    | none =>
        rw [ha, Option.map_none] at hshape
        rw [Option.map_eq_none_iff.mp hshape.symm]
    | some v =>
        rw [ha, Option.map_some] at hshape
        obtain ⟨w, hw, hshape⟩ := Option.map_eq_some_iff.mp hshape.symm
        rw [hw, Option.map_some, Option.map_some]
        rcases head_eq_or hshape.symm with hhead | ⟨s, t, rfl, rfl, hne⟩
        · rw [hhead]
        · exact absurd ⟨s, t, ha, hw, hne⟩ (hsigns position)

theorem resultText_eq_iff {a b : Json} (ha : a.distinct = true) (hb : b.distinct = true) :
    a.resultText = b.resultText ↔ Alike a b :=
  ⟨fun h => alike_of_canonical ha hb (dumps_injective h), fun h => by
    rw [resultText, canonical_of_alike ha hb h, resultText]⟩

end Json

/-! ## The comparator -/

/-- A result as it is read from its text. -/
structure Result where
  value : Json
  distinct : value.distinct = true

/-- `MAX_DIFFERENCE_PATHS` -/
def maxDifferencePaths : ℕ := 100

structure RevalidationComparison where
  matched : Bool
  differencePaths : List String
  truncated : Bool
deriving DecidableEq

/-- `ExactResultComparator.compare` -/
def exactCompare (recorded live : Json) : RevalidationComparison :=
  let found := differencePaths maxDifferencePaths recorded live
  ⟨found.paths.isEmpty && !found.truncated, found.paths, found.truncated⟩

theorem matched_iff_same (recorded live : Json) :
    (exactCompare recorded live).matched = true ↔ Same recorded live := by
  obtain ⟨-, -, -, hsame⟩ := differencePaths_exact maxDifferencePaths recorded live
  rw [← hsame, exactCompare, Bool.and_eq_true, List.isEmpty_iff, Bool.not_eq_true']

/-- A cost of nothing, and one that was rounded to nothing from below. -/
def zeroCost (negative : Bool) : Result := 
  ⟨.dict [("cost", .float (.zero negative))], by cases negative <;> decide⟩

end Pollard.Revalidation
