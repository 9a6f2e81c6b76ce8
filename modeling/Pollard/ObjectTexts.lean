import Pollard.Objects

/-!
# The characters of texts

How an object is written, character by character, which texts have a UTF-8 form, and the
objects that are values of payloads.
-/

namespace Pollard

open Lib

/-! ## Strings and their code points -/

theorem codes_injective {s t : String} (h : codes s = codes t) : s = t := by
  have hinj : Function.Injective Char.toNat := fun a b hab => Char.toNat_inj.mp hab
  exact String.toList_injective (List.map_injective_iff.mpr hinj h)

theorem utf8_codes (s : String) : Codes.utf8 (codes s) = true := by
  rw [Codes.utf8, codes, List.all_map, List.all_eq_true]
  intro c _
  have hvalid := c.valid
  simp only [Function.comp_apply, decide_eq_true_eq]
  rcases hvalid with h | h
  · exact .inl h
  · exact .inr h.1

/-- A string from its code points. -/
theorem ofList_codes (s : String) : String.ofList ((codes s).map Char.ofNat) = s := by
  rw [codes, List.map_map]
  have hid : Char.ofNat ∘ Char.toNat = id := funext Char.ofNat_toNat
  rw [hid, List.map_id, String.ofList_toList]

theorem utf8_append {s t : Codes} :
    Codes.utf8 (s ++ t) = true ↔ Codes.utf8 s = true ∧ Codes.utf8 t = true := by
  rw [Codes.utf8, List.all_append, Bool.and_eq_true]
  rfl

namespace Obj

/-! ## Writing -/

/-- A character of a JSON string. -/
def escaped (c : ℕ) : Codes :=
  if c < 0x80 then codes (jsonChar (Char.ofNat c)) else [c]

def quoted (s : Codes) : Codes := 34 :: s.flatMap escaped ++ [34]

mutual

/-- The characters of a text. -/
def write : Obj → Codes
  | .none => codes "null"
  | .bool b => codes (if b then "true" else "false")
  | .int n => codes (toString n)
  | .float q => codes (floatRepr q)
  | .str s => quoted s
  | .list items => codes "[" ++ (codes ",").intercalate (writeItems items) ++ codes "]"
  | .dict entries =>
      codes "\x7b" ++ (codes ",").intercalate (writeEntries entries) ++ codes "\x7d"
  | .foreign typeName => codes typeName

def writeItems : List Obj → List Codes
  | [] => []
  | item :: items => write item :: writeItems items

def writeEntries : List (Key × Obj) → List Codes
  | [] => []
  | (key, value) :: entries => (quoted key.text ++ codes ":" ++ write value) :: writeEntries entries

end

/-! ## Values -/

mutual

/-- An object as a value of a payload. -/
def toValue : Obj → Value
  | .none => .none
  | .bool b => .bool b
  | .int n => .int n
  | .float q => .float q
  | .str s => if s.utf8 then .str (String.ofList (s.map Char.ofNat)) else .surrogates s
  | .list items => .list (toValueItems items)
  | .dict entries =>
      if entries.all fun e => e.1.isStr ∧ e.1.text.utf8 then .dict (toValueEntries entries)
      else .foreign "dict"
  | .foreign typeName => .foreign typeName

def toValueItems : List Obj → List Value
  | [] => []
  | item :: items => toValue item :: toValueItems items

def toValueEntries : List (Key × Obj) → List (String × Value)
  | [] => []
  | (key, value) :: entries =>
      (String.ofList (key.text.map Char.ofNat), toValue value) :: toValueEntries entries

end

mutual

/-- A value as `json` takes it. -/
def ofValue : Value → Obj
  | .none => .none
  | .bool b => .bool b
  | .int n => .int n
  | .float q => .float q
  | .str s => .str (codes s)
  | .surrogates codePoints => .str codePoints
  | .list items => .list (ofValueItems items)
  | .dict entries => .dict (ofValueEntries entries)
  | .foreign typeName => .foreign typeName

def ofValueItems : List Value → List Obj
  | [] => []
  | item :: items => ofValue item :: ofValueItems items

def ofValueEntries : List (String × Value) → List (Key × Obj)
  | [] => []
  | (key, value) :: entries => (.str (codes key), ofValue value) :: ofValueEntries entries

end

/-! ## Which texts have a UTF-8 form -/

theorem utf8Items_iff {items : List Obj} :
    utf8Items items = true ↔ ∀ item ∈ items, item.utf8 = true := by
  induction items with
  | nil => simp [utf8Items]
  | cons item items ih => rw [utf8Items, Bool.and_eq_true, ih, List.forall_mem_cons]

theorem utf8Entries_iff {entries : List (Key × Obj)} :
    utf8Entries entries = true ↔
      ∀ e ∈ entries, Codes.utf8 e.1.text = true ∧ e.2.utf8 = true := by
  induction entries with
  | nil => simp [utf8Entries]
  | cons e entries ih =>
      obtain ⟨key, value⟩ := e
      rw [utf8Entries, Bool.and_eq_true, Bool.and_eq_true, ih, List.forall_mem_cons]

/-- What the text of a dictionary with a UTF-8 form says of its entries. -/
theorem utf8_dumped_dict {entries : List (Key × Obj)} :
    (dumped (.dict entries)).utf8 = true ↔
      ∀ e ∈ entries, Codes.utf8 e.1.text = true ∧ e.2.dumped.utf8 = true := by
  rw [dumped_dict, utf8, utf8Entries_iff, textEntries, List.forall_mem_map]
  exact forall_congr' fun e => by rw [mem_sortEntries]; rfl

mutual

theorem utf8_jsonForm : ∀ value : Obj, value.dumped.utf8 = true →
    value.jsonForm.dumped.utf8 = true
  | .none, _ | .bool _, _ | .int _, _ | .float _, _ | .foreign _, _ => rfl
  | .str s, h => h
  | .list items, h => by
      rw [dumped, utf8, utf8Items_iff, dumpedItems_eq_map, List.forall_mem_map] at h
      rw [jsonForm, dumped, loads, dumped, utf8, utf8Items_iff, dumpedItems_eq_map,
        loadsItems_eq_map, dumpedItems_eq_map, List.map_map, List.map_map, List.forall_mem_map]
      exact utf8_jsonFormItems items h
  | .dict entries, h => by
      rw [utf8_dumped_dict] at h
      rw [jsonForm, dumped_dict, loads, utf8_dumped_dict]
      intro e he
      have hmem := Dict.mem_of_mem_ofList he
      rw [loadsEntries_eq_map, textEntries, List.map_map] at hmem
      obtain ⟨old, hold, rfl⟩ := List.mem_map.mp hmem
      have hold := mem_sortEntries.mp hold
      exact ⟨(h old hold).1, utf8_jsonFormEntries entries (fun e he => (h e he).2) old hold⟩

theorem utf8_jsonFormItems : ∀ items : List Obj, (∀ item ∈ items, item.dumped.utf8 = true) →
    ∀ item ∈ items, item.jsonForm.dumped.utf8 = true
  | first :: items, h, item, hitem => by
      rw [List.forall_mem_cons] at h
      rcases List.mem_cons.mp hitem with heq | hitem
      · exact heq ▸ utf8_jsonForm first h.1
      · exact utf8_jsonFormItems items h.2 item hitem

theorem utf8_jsonFormEntries : ∀ entries : List (Key × Obj),
    (∀ e ∈ entries, e.2.dumped.utf8 = true) → ∀ e ∈ entries, e.2.jsonForm.dumped.utf8 = true
  | (key, value) :: entries, h, e, he => by
      rw [List.forall_mem_cons] at h
      rcases List.mem_cons.mp he with heq | he
      · exact heq ▸ utf8_jsonForm value h.1
      · exact utf8_jsonFormEntries entries h.2 e he

end

theorem utf8_of_quoted {s : Codes} (h : Codes.utf8 (quoted s) = true) : Codes.utf8 s = true := by
  rw [quoted, utf8_append] at h
  have hall := h.1
  rw [Codes.utf8, List.all_cons, Bool.and_eq_true] at hall
  rw [Codes.utf8, List.all_eq_true]
  intro c hc
  by_cases hascii : c < 0x80
  · exact decide_eq_true (.inl (by omega))
  · refine List.all_eq_true.mp hall.2 c (List.mem_flatMap.mpr ⟨c, hc, ?_⟩)
    rw [escaped, if_neg hascii]
    exact List.mem_singleton.mpr rfl

theorem utf8_of_intercalate {sep : Codes} {parts : List Codes}
    (h : Codes.utf8 (sep.intercalate parts) = true) : ∀ part ∈ parts, Codes.utf8 part = true := by
  induction parts with
  | nil => exact fun _ hpart => nomatch hpart
  | cons first parts ih =>
      cases parts with
      | nil =>
          rw [List.intercalate_singleton] at h
          exact List.forall_mem_singleton.mpr h
      | cons second parts =>
          rw [List.intercalate_cons_cons, utf8_append, utf8_append] at h
          exact List.forall_mem_cons.mpr ⟨h.1.1, ih h.2⟩

mutual

/-- A text has a UTF-8 form only if the strings it spells do. -/
theorem utf8_of_write : ∀ value : Obj, Codes.utf8 value.write = true → value.utf8 = true
  | .none, _ | .bool _, _ | .int _, _ | .float _, _ | .foreign _, _ => rfl
  | .str s, h => utf8_of_quoted h
  | .list items, h => by
      rw [write, utf8_append, utf8_append] at h
      rw [utf8, utf8Items_iff]
      exact utf8_of_writeItems items (utf8_of_intercalate h.1.2)
  | .dict entries, h => by
      rw [write, utf8_append, utf8_append] at h
      rw [utf8, utf8Entries_iff]
      exact utf8_of_writeEntries entries (utf8_of_intercalate h.1.2)

theorem utf8_of_writeItems : ∀ items : List Obj,
    (∀ text ∈ writeItems items, Codes.utf8 text = true) → ∀ item ∈ items, item.utf8 = true
  | first :: items, h, item, hitem => by
      rw [writeItems, List.forall_mem_cons] at h
      rcases List.mem_cons.mp hitem with heq | hitem
      · exact heq ▸ utf8_of_write first h.1
      · exact utf8_of_writeItems items h.2 item hitem

theorem utf8_of_writeEntries : ∀ entries : List (Key × Obj),
    (∀ text ∈ writeEntries entries, Codes.utf8 text = true) →
      ∀ e ∈ entries, Codes.utf8 e.1.text = true ∧ e.2.utf8 = true
  | (key, value) :: entries, h, e, he => by
      rw [writeEntries, List.forall_mem_cons, utf8_append, utf8_append] at h
      rcases List.mem_cons.mp he with heq | he
      · exact heq ▸ ⟨utf8_of_quoted h.1.1.1, utf8_of_write value h.1.2⟩
      · exact utf8_of_writeEntries entries h.2 e he

end

/-! ## Values that were written and read -/

theorem toValue_str (s : String) : (Obj.str (codes s)).toValue = .str s := by
  rw [toValue, if_pos (utf8_codes s), ofList_codes]

theorem toValueItems_eq_map (items : List Obj) : toValueItems items = items.map toValue := by
  induction items with
  | nil => rfl
  | cons item items ih => rw [toValueItems, ih, List.map_cons]

theorem ofValueItems_eq_map (items : List Value) : ofValueItems items = items.map ofValue := by
  induction items with
  | nil => rfl
  | cons item items ih => rw [ofValueItems, ih, List.map_cons]

theorem ofValueEntries_eq_map (entries : List (String × Value)) :
    ofValueEntries entries = entries.map fun e => (.str (codes e.1), ofValue e.2) := by
  induction entries with
  | nil => rfl
  | cons e entries ih => rw [ofValueEntries, ih, List.map_cons]

/-- An object under names, once it was written and read. -/
theorem read_names {entries : List (String × Obj)} (hnodup : (entries.map Prod.fst).Nodup) :
    ∃ read, jsonForm (.dict (entries.map fun e => (.str (codes e.1), e.2))) = .dict read ∧
      (∀ e ∈ read, ∃ name, e.1 = .str (codes name)) ∧
      ∀ name, Assoc.lookup read (.str (codes name)) =
        (Assoc.lookup entries name).map jsonForm := by
  have hkeys : (Assoc.keys (entries.map fun e => (Key.str (codes e.1), e.2))).Nodup := by
    rw [Assoc.keys, List.map_map]
    change (entries.map ((fun name => Key.str (codes name)) ∘ Prod.fst)).Nodup
    rw [← List.map_map]
    exact hnodup.map fun a b h => codes_injective (Key.str.inj h)
  let d : Dict Key Obj := ⟨_, hkeys⟩
  have hlookup : ∀ name, d.get? (.str (codes name)) = Assoc.lookup entries name := fun name =>
    (Assoc.lookup_map (fun a b h => codes_injective (Key.str.inj h)) id entries name).trans
      (congrFun Option.map_id _)
  have hstr : ∀ e ∈ d.entries, e.1.isStr = true := List.forall_mem_map.mpr fun _ _ => rfl
  refine ⟨(jsonFormDict d).entries, jsonForm_dict d, fun e he => ?_, fun name => ?_⟩
  · have hget := Dict.mem_entries_iff.mp he
    rw [get?_jsonFormDict hstr, Option.map_eq_some_iff] at hget
    obtain ⟨value, hvalue, -⟩ := hget
    obtain ⟨old, -, heq⟩ := List.mem_map.mp (Dict.mem_entries_iff.mpr hvalue)
    exact ⟨old.1, (congrArg Prod.fst heq).symm⟩
  · change (jsonFormDict d).get? _ = _
    rw [get?_jsonFormDict hstr, hlookup]

theorem lookup_toValueEntries {read : List (Key × Obj)}
    (hnames : ∀ e ∈ read, ∃ name, e.1 = .str (codes name)) (name : String) :
    Assoc.lookup (toValueEntries read) name =
      (Assoc.lookup read (.str (codes name))).map toValue := by
  induction read with
  | nil => rfl
  | cons e read ih =>
      obtain ⟨key, value⟩ := e
      rw [List.forall_mem_cons] at hnames
      obtain ⟨⟨old, rfl⟩, hrest⟩ := hnames
      rw [toValueEntries, Assoc.lookup, Assoc.lookup, ih hrest, Key.text, ofList_codes]
      by_cases heq : old = name
      · rw [if_pos heq, if_pos (by rw [heq])]
        rfl
      · rw [if_neg heq, if_neg fun h => heq (codes_injective (Key.str.inj h))]

/-- A value equals itself written and read. -/
def Survives (value : Value) : Prop := Value.pyEq value (ofValue value).jsonForm.toValue = true

theorem survives_str (s : String) : Survives (.str s) := by
  rw [Survives, ofValue]
  change Value.pyEq (.str s) (Obj.str (codes s)).toValue = true
  rw [toValue_str]
  exact Value.pyEq_refl _

theorem survives_int (n : ℤ) : Survives (.int n) := Value.pyEq_refl _

theorem survives_none : Survives .none := Value.pyEq_refl _

theorem survives_list {items : List Value} (h : ∀ item ∈ items, Survives item) :
    Survives (.list items) := by
  rw [Survives, ofValue, jsonForm, dumped, loads, toValue, toValueItems_eq_map,
    loadsItems_eq_map, dumpedItems_eq_map, ofValueItems_eq_map, List.map_map, List.map_map,
    List.map_map, Value.pyEq_list_iff, List.forall₂_map_right_iff, List.forall₂_same]
  exact h

theorem survives_dict {entries : List (String × Value)} (hnodup : (entries.map Prod.fst).Nodup)
    (h : ∀ e ∈ entries, Survives e.2) : Survives (.dict entries) := by
  have hnames : ((entries.map fun e => (e.1, ofValue e.2)).map Prod.fst).Nodup := by
    rw [List.map_map]
    exact hnodup
  obtain ⟨read, hread, hstr, hlookup⟩ := read_names hnames
  have hall : (read.all fun e => decide (e.1.isStr = true ∧ e.1.text.utf8 = true)) = true := by
    rw [List.all_eq_true]
    intro e he
    obtain ⟨name, hname⟩ := hstr e he
    rw [hname]
    exact decide_eq_true ⟨rfl, utf8_codes name⟩
  rw [Survives, ofValue, ofValueEntries_eq_map]
  rw [List.map_map] at hread
  change jsonForm (.dict (entries.map fun e => (.str (codes e.1), ofValue e.2))) = _ at hread
  rw [hread, toValue, if_pos hall, Value.pyEq_dict_iff]
  intro name
  rw [lookup_toValueEntries hstr, hlookup]
  have hmap : Assoc.lookup (entries.map fun e => (e.1, ofValue e.2)) name =
      (Assoc.lookup entries name).map ofValue :=
    Assoc.lookup_map Function.injective_id ofValue entries name
  rw [hmap]
  cases hvalue : Assoc.lookup entries name with
  | none => exact .none
  | some value => exact .some (h _ (Assoc.mem_of_lookup hvalue))

end Obj

end Pollard
