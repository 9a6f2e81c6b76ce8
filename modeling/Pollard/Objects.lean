import Pollard.Json
import Mathlib.Data.List.Lex

/-!
# Python objects that json encodes

Dictionaries have keys of any kind here, and strings are their code points, lone surrogates
included.  A JSON text is held as the object it spells, its dictionaries in the order of the
text; so `json.dumps` makes of an object the one with textual keys, sorted where it sorts, and
`json.loads` of an object the one without repeated keys.
-/

namespace Pollard

open Lib

/-- The code points of a string. -/
abbrev Codes := List ℕ

def codes (s : String) : Codes := s.toList.map Char.toNat

/-- The code points have a UTF-8 form. -/
def Codes.utf8 (s : Codes) : Bool := s.all fun c => c < 0xD800 ∨ 0xDFFF < c

inductive Key where
  | str (s : Codes)
  | bool (b : Bool)
  | int (n : ℤ)
  | float (q : ℚ)
  | none
  | foreign (typeName : String)
deriving DecidableEq

/-- A float that is not finite is a foreign object. -/
inductive Obj where
  | none
  | bool (b : Bool)
  | int (n : ℤ)
  | float (q : ℚ)
  | str (s : Codes)
  | list (items : List Obj)
  | dict (entries : List (Key × Obj))
  | foreign (typeName : String)

namespace Key

/-- What a key is as a number. -/
def number? : Key → Option ℚ
  | .bool b => some (if b then 1 else 0)
  | .int n => some n
  | .float q => some q
  | _ => Option.none

def isStr : Key → Bool
  | .str _ => true
  | _ => false

/-- json takes the key. -/
def encodable : Key → Bool
  | .foreign _ => false
  | _ => true

/-- The text of a key in a JSON object. -/
def text : Key → Codes
  | .str s => s
  | .bool b => codes (if b then "true" else "false")
  | .int n => codes (toString n)
  | .float q => codes (floatRepr q)
  | .none => codes "null"
  | .foreign typeName => codes typeName

theorem eq_str {key : Key} (h : key.isStr = true) : key = .str key.text := by
  cases key with
  | str s => rfl
  | _ => cases h

/-- `<=` of two keys that can be compared. -/
def le (a b : Key) : Prop :=
  match a.number?, b.number? with
  | some x, some y => x ≤ y
  | _, _ => a.text ≤ b.text

instance (a b : Key) : Decidable (le a b) := by
  unfold le
  split <;> infer_instance

/-- `sorted` finds an order: there is nothing to compare, or only strings or only numbers. -/
def sortable (keys : List Key) : Bool :=
  keys.length ≤ 1 ∨ (keys.all isStr) ∨ keys.all fun key => key.number?.isSome

end Key

namespace Obj

/-! ## Equality -/

mutual

def beq : Obj → Obj → Bool
  | .none, .none => true
  | .bool a, .bool b => a = b
  | .int a, .int b => a = b
  | .float a, .float b => a = b
  | .str a, .str b => a = b
  | .list a, .list b => beqItems a b
  | .dict a, .dict b => beqEntries a b
  | .foreign a, .foreign b => a = b
  | _, _ => false

def beqItems : List Obj → List Obj → Bool
  | [], [] => true
  | a :: as, b :: bs => beq a b && beqItems as bs
  | _, _ => false

def beqEntries : List (Key × Obj) → List (Key × Obj) → Bool
  | [], [] => true
  | (k, a) :: as, (l, b) :: bs => k = l && beq a b && beqEntries as bs
  | _, _ => false

end

mutual

theorem beq_iff : ∀ a b : Obj, beq a b = true ↔ a = b
  | .none, b => by cases b <;> simp [beq]
  | .bool _, b => by cases b <;> simp [beq]
  | .int _, b => by cases b <;> simp [beq]
  | .float _, b => by cases b <;> simp [beq]
  | .str _, b => by cases b <;> simp [beq]
  | .foreign _, b => by cases b <;> simp [beq]
  | .list as, b => by
      cases b with
      | list bs => simp [beq, beqItems_iff as bs]
      | _ => simp [beq]
  | .dict as, b => by
      cases b with
      | dict bs => simp [beq, beqEntries_iff as bs]
      | _ => simp [beq]

theorem beqItems_iff : ∀ as bs : List Obj, beqItems as bs = true ↔ as = bs
  | [], bs => by cases bs <;> simp [beqItems]
  | a :: as, bs => by
      cases bs with
      | nil => simp [beqItems]
      | cons b bs => simp [beqItems, beq_iff a b, beqItems_iff as bs]

theorem beqEntries_iff : ∀ as bs : List (Key × Obj), beqEntries as bs = true ↔ as = bs
  | [], bs => by cases bs <;> simp [beqEntries]
  | (k, a) :: as, bs => by
      cases bs with
      | nil => simp [beqEntries]
      | cons b bs =>
          obtain ⟨l, b⟩ := b
          simp [beqEntries, beq_iff a b, beqEntries_iff as bs]

end

instance : DecidableEq Obj := fun a b => decidable_of_iff _ (beq_iff a b)

instance : Inhabited Obj := ⟨.none⟩

/-- A key as an element of a list. -/
def ofKey : Key → Obj
  | .str s => .str s
  | .bool b => .bool b
  | .int n => .int n
  | .float q => .float q
  | .none => .none
  | .foreign typeName => .foreign typeName

/-! ## json -/

/-- Entries in the order of their keys. -/
def sortEntries (entries : List (Key × Obj)) : List (Key × Obj) :=
  entries.insertionSort fun a b => Key.le a.1 b.1

/-- The entries of `dict` of a list of pairs. -/
def dictEntries (entries : List (Key × Obj)) : List (Key × Obj) := (Dict.ofList entries).entries

mutual

/-- `json.dumps` accepts the object; with sorted keys, if they are to be sorted. -/
def dumpable (sorted : Bool) : Obj → Bool
  | .list items => dumpableItems sorted items
  | .dict entries =>
      (!sorted || Key.sortable (Assoc.keys entries)) && dumpableEntries sorted entries
  | .foreign _ => false
  | _ => true

def dumpableItems (sorted : Bool) : List Obj → Bool
  | [] => true
  | item :: items => dumpable sorted item && dumpableItems sorted items

def dumpableEntries (sorted : Bool) : List (Key × Obj) → Bool
  | [] => true
  | (key, value) :: entries =>
      key.encodable && dumpable sorted value && dumpableEntries sorted entries

end

mutual

/-- The text with sorted keys of an object that has one. -/
def dumped : Obj → Obj
  | .list items => .list (dumpedItems items)
  | .dict entries =>
      .dict ((sortEntries (dumpedEntries entries)).map fun e => (.str e.1.text, e.2))
  | value => value

def dumpedItems : List Obj → List Obj
  | [] => []
  | item :: items => dumped item :: dumpedItems items

def dumpedEntries : List (Key × Obj) → List (Key × Obj)
  | [] => []
  | (key, value) :: entries => (key, dumped value) :: dumpedEntries entries

end

mutual

/-- `json.loads` -/
def loads : Obj → Obj
  | .list items => .list (loadsItems items)
  | .dict entries => .dict (dictEntries (loadsEntries entries))
  | value => value

def loadsItems : List Obj → List Obj
  | [] => []
  | item :: items => loads item :: loadsItems items

def loadsEntries : List (Key × Obj) → List (Key × Obj)
  | [] => []
  | (key, value) :: entries => (key, loads value) :: loadsEntries entries

end

mutual

/-- The text has a UTF-8 form. -/
def utf8 : Obj → Bool
  | .str s => s.utf8
  | .list items => utf8Items items
  | .dict entries => utf8Entries entries
  | _ => true

def utf8Items : List Obj → Bool
  | [] => true
  | item :: items => utf8 item && utf8Items items

def utf8Entries : List (Key × Obj) → Bool
  | [] => true
  | (key, value) :: entries => Codes.utf8 key.text && utf8 value && utf8Entries entries

end

/-- `json.dumps(value, sort_keys=True, allow_nan=False)` -/
def dumps (value : Obj) : Except PyError Obj :=
  if value.dumpable true then .ok value.dumped
  else .error (.typeError "the object is not JSON serializable")

/-- The same, encoded. -/
def jsonBytes (value : Obj) : Except PyError Obj :=
  value.dumps.bind fun text => if text.utf8 then .ok text else .error .unicodeEncodeError

example : jsonBytes (.dict [(.int 10, .none), (.int 2, .none)]) =
    .ok (.dict [(.str (codes "2"), .none), (.str (codes "10"), .none)]) := by decide +kernel

/-! ## Texts and back -/

theorem dumpedItems_eq_map (items : List Obj) : dumpedItems items = items.map dumped := by
  induction items with
  | nil => rfl
  | cons item items ih => rw [dumpedItems, ih, List.map_cons]

theorem dumpedEntries_eq_map (entries : List (Key × Obj)) :
    dumpedEntries entries = entries.map fun e => (e.1, dumped e.2) := by
  induction entries with
  | nil => rfl
  | cons e entries ih => rw [dumpedEntries, ih, List.map_cons]

theorem loadsItems_eq_map (items : List Obj) : loadsItems items = items.map loads := by
  induction items with
  | nil => rfl
  | cons item items ih => rw [loadsItems, ih, List.map_cons]

theorem loadsEntries_eq_map (entries : List (Key × Obj)) :
    loadsEntries entries = entries.map fun e => (e.1, loads e.2) := by
  induction entries with
  | nil => rfl
  | cons e entries ih => rw [loadsEntries, ih, List.map_cons]

theorem keys_loadsEntries (entries : List (Key × Obj)) :
    Assoc.keys (loadsEntries entries) = Assoc.keys entries := by
  rw [loadsEntries_eq_map, Assoc.keys, List.map_map]
  rfl

theorem nodup_dictEntries (entries : List (Key × Obj)) :
    (Assoc.keys (dictEntries entries)).Nodup := (Dict.ofList entries).nodupKeys

theorem dictEntries_of_nodup {entries : List (Key × Obj)} (h : (Assoc.keys entries).Nodup) :
    dictEntries entries = entries := by
  rw [dictEntries, Dict.ofList, Dict.entries_foldl_set h (by simp)]
  rfl

theorem sortEntries_map (f : Obj → Obj) (entries : List (Key × Obj)) :
    sortEntries (entries.map fun e => (e.1, f e.2)) =
      (sortEntries entries).map fun e => (e.1, f e.2) :=
  (List.map_insertionSort (fun a b : Key × Obj => Key.le a.1 b.1)
    (fun a b : Key × Obj => Key.le a.1 b.1) (fun e => (e.1, f e.2)) entries
    fun _ _ _ _ => Iff.rfl).symm

theorem mem_sortEntries {entries : List (Key × Obj)} {e : Key × Obj} :
    e ∈ sortEntries entries ↔ e ∈ entries := (List.perm_insertionSort _ entries).mem_iff

/-- The entries of a text. -/
def textEntries (entries : List (Key × Obj)) : List (Key × Obj) :=
  (sortEntries entries).map fun e => (.str e.1.text, dumped e.2)

theorem dumped_dict (entries : List (Key × Obj)) :
    dumped (.dict entries) = .dict (textEntries entries) := by
  rw [dumped, dumpedEntries_eq_map, sortEntries_map, List.map_map]
  rfl

/-! ### Entries under strings -/

theorem Key.le_str {a b : Codes} : Key.le (.str a) (.str b) ↔ a ≤ b := Iff.rfl

/-- Sorting entries under strings leaves them in the order of the strings. -/
theorem pairwise_sortEntries {entries : List (Key × Obj)}
    (hstr : ∀ e ∈ entries, e.1 = .str e.1.text) :
    (sortEntries entries).Pairwise fun a b => a.1.text ≤ b.1.text := by
  have hsame : sortEntries entries =
      entries.insertionSort fun a b => a.1.text ≤ b.1.text := by
    unfold sortEntries
    induction entries with
    | nil => rfl
    | cons e entries ih =>
        rw [List.forall_mem_cons] at hstr
        rw [List.insertionSort_cons, List.insertionSort_cons, ih hstr.2]
        have hall : ∀ f ∈ entries.insertionSort (fun a b => a.1.text ≤ b.1.text),
            (Key.le e.1 f.1 ↔ e.1.text ≤ f.1.text) := by
          intro f hf
          rw [hstr.1, hstr.2 f ((List.perm_insertionSort _ _).mem_iff.mp hf)]
          exact Key.le_str
        revert hall
        generalize entries.insertionSort (fun a b => a.1.text ≤ b.1.text) = sorted
        intro hall
        induction sorted with
        | nil => rfl
        | cons f sorted ihs =>
            rw [List.forall_mem_cons] at hall
            rw [List.orderedInsert, List.orderedInsert, ihs hall.2]
            by_cases hle : e.1.text ≤ f.1.text
            · rw [if_pos hle, if_pos (hall.1.mpr hle)]
            · rw [if_neg hle, if_neg fun h => hle (hall.1.mp h)]
  have : Std.Total fun a b : Key × Obj => a.1.text ≤ b.1.text :=
    ⟨fun a b => le_total a.1.text b.1.text⟩
  have : IsTrans (Key × Obj) fun a b => a.1.text ≤ b.1.text := ⟨fun _ _ _ => le_trans⟩
  rw [hsame]
  exact List.pairwise_insertionSort _ entries

theorem sortEntries_of_pairwise {entries : List (Key × Obj)}
    (hstr : ∀ e ∈ entries, e.1 = .str e.1.text)
    (h : entries.Pairwise fun a b => a.1.text < b.1.text) : sortEntries entries = entries := by
  refine List.Pairwise.insertionSort_eq (h.imp_of_mem fun {a b} ha hb hlt => ?_)
  rw [hstr a ha, hstr b hb, Key.le_str]
  exact le_of_lt hlt

theorem nodup_of_pairwise {entries : List (Key × Obj)}
    (h : entries.Pairwise fun a b => a.1.text < b.1.text) : (Assoc.keys entries).Nodup := by
  rw [Assoc.keys, List.Nodup, List.pairwise_map]
  exact h.imp fun hlt heq => absurd hlt (by rw [heq]; exact lt_irrefl _)

/-! ### The order of texts -/

mutual

/-- In every dictionary the keys, sorted, are also in the order of their texts. -/
def InTextOrder : Obj → Prop
  | .list items => InTextOrderItems items
  | .dict entries =>
      (sortEntries entries).Pairwise (fun a b => a.1.text < b.1.text) ∧
        InTextOrderEntries entries
  | _ => True

def InTextOrderItems : List Obj → Prop
  | [] => True
  | item :: items => InTextOrder item ∧ InTextOrderItems items

def InTextOrderEntries : List (Key × Obj) → Prop
  | [] => True
  | (_, value) :: entries => InTextOrder value ∧ InTextOrderEntries entries

end

theorem inTextOrderEntries_iff {entries : List (Key × Obj)} :
    InTextOrderEntries entries ↔ ∀ e ∈ entries, InTextOrder e.2 := by
  induction entries with
  | nil => simp [InTextOrderEntries]
  | cons e entries ih => rw [InTextOrderEntries, ih, List.forall_mem_cons]

theorem inTextOrderItems_iff {items : List Obj} :
    InTextOrderItems items ↔ ∀ item ∈ items, InTextOrder item := by
  induction items with
  | nil => simp [InTextOrderItems]
  | cons item items ih => rw [InTextOrderItems, ih, List.forall_mem_cons]

theorem str_of_mem_textEntries {entries : List (Key × Obj)} :
    ∀ e ∈ textEntries entries, e.1 = .str e.1.text := by
  intro e he
  obtain ⟨f, -, rfl⟩ := List.mem_map.mp he
  rfl

theorem pairwise_textEntries {entries : List (Key × Obj)} :
    (textEntries entries).Pairwise (fun a b => a.1.text < b.1.text) ↔
      (sortEntries entries).Pairwise fun a b => a.1.text < b.1.text := List.pairwise_map

/-- Distinct strings are strictly sorted. -/
theorem pairwise_of_str {entries : List (Key × Obj)} (hstr : ∀ e ∈ entries, e.1 = .str e.1.text)
    (hnodup : (Assoc.keys entries).Nodup) :
    (sortEntries entries).Pairwise fun a b => a.1.text < b.1.text := by
  have hkeys : (Assoc.keys (sortEntries entries)).Nodup :=
    ((List.perm_insertionSort _ entries).map _).nodup_iff.mpr hnodup
  rw [Assoc.keys, List.Nodup, List.pairwise_map] at hkeys
  refine ((pairwise_sortEntries hstr).and hkeys).imp_of_mem
    fun {a b} ha hb ⟨hle, hne⟩ => lt_of_le_of_ne hle fun heq => hne ?_
  rw [hstr a (mem_sortEntries.mp ha), hstr b (mem_sortEntries.mp hb), heq]

/-- What was read from a text has strings for keys. -/
theorem str_of_mem_read {entries : List (Key × Obj)} :
    ∀ e ∈ dictEntries (loadsEntries (textEntries entries)), e.1 = .str e.1.text := by
  intro e he
  have hmem := Dict.mem_of_mem_ofList he
  rw [loadsEntries_eq_map] at hmem
  obtain ⟨f, hf, rfl⟩ := List.mem_map.mp hmem
  exact str_of_mem_textEntries f hf

/-- Loading what was dumped in the order of the texts keeps every entry. -/
theorem textEntries_loads {entries : List (Key × Obj)}
    (h : (textEntries entries).Pairwise fun a b => a.1.text < b.1.text) :
    textEntries (dictEntries (loadsEntries (textEntries entries))) =
      (textEntries entries).map fun e => (e.1, dumped (loads e.2)) := by
  have hstr : ∀ e ∈ loadsEntries (textEntries entries), e.1 = .str e.1.text := by
    rw [loadsEntries_eq_map]
    intro e he
    obtain ⟨f, hf, rfl⟩ := List.mem_map.mp he
    exact str_of_mem_textEntries f hf
  have hsorted : (loadsEntries (textEntries entries)).Pairwise
      fun a b => a.1.text < b.1.text := by
    rw [loadsEntries_eq_map, List.pairwise_map]
    exact h
  rw [dictEntries_of_nodup (nodup_of_pairwise hsorted), textEntries,
    sortEntries_of_pairwise hstr hsorted, loadsEntries_eq_map, List.map_map]
  refine List.map_congr_left fun e he => ?_
  rw [Function.comp_apply, ← str_of_mem_textEntries e he]

mutual

/-- A text is written again as it was read exactly if its keys are in its order. -/
theorem dumped_loads_iff : ∀ value : Obj,
    dumped (loads (dumped value)) = dumped value ↔ InTextOrder value
  | .none | .bool _ | .int _ | .float _ | .str _ | .foreign _ => by
      simp [dumped, loads, InTextOrder]
  | .list items => by
      rw [dumped, loads, dumped, InTextOrder, Obj.list.injEq, inTextOrderItems_iff,
        dumpedItems_eq_map, dumpedItems_eq_map, loadsItems_eq_map, List.map_map, List.map_map,
        List.map_inj_left]
      exact forall₂_congr fun item hitem => dumped_loads_items items item hitem
  | .dict entries => by
      rw [dumped_dict, loads, dumped_dict, InTextOrder, Obj.dict.injEq, inTextOrderEntries_iff]
      have hvalues : (∀ e ∈ textEntries entries, dumped (loads e.2) = e.2) ↔
          ∀ e ∈ entries, InTextOrder e.2 := by
        rw [textEntries, List.forall_mem_map]
        refine forall_congr' fun e => ?_
        rw [mem_sortEntries]
        exact imp_congr_right fun he => dumped_loads_entries entries e he
      constructor
      · intro h
        have hsorted : (textEntries entries).Pairwise fun a b => a.1.text < b.1.text := by
          rw [← h, pairwise_textEntries]
          exact pairwise_of_str str_of_mem_read (nodup_dictEntries _)
        refine ⟨pairwise_textEntries.mp hsorted, hvalues.mp fun e he => ?_⟩
        rw [textEntries_loads hsorted] at h
        have hsame := List.map_inj_left.mp (h.trans (List.map_id _).symm) e he
        exact congrArg Prod.snd hsame
      · rintro ⟨hsorted, hall⟩
        rw [textEntries_loads (pairwise_textEntries.mpr hsorted)]
        conv_rhs => rw [← List.map_id (textEntries entries)]
        exact List.map_congr_left fun e he => by rw [hvalues.mpr hall e he, id]

theorem dumped_loads_items : ∀ (items : List Obj), ∀ item ∈ items,
    (dumped (loads (dumped item)) = dumped item ↔ InTextOrder item)
  | first :: items, item, h => by
      rcases List.mem_cons.mp h with heq | h
      · exact heq ▸ dumped_loads_iff first
      · exact dumped_loads_items items item h

theorem dumped_loads_entries : ∀ (entries : List (Key × Obj)), ∀ e ∈ entries,
    (dumped (loads (dumped e.2)) = dumped e.2 ↔ InTextOrder e.2)
  | (key, value) :: entries, e, h => by
      rcases List.mem_cons.mp h with heq | h
      · exact heq ▸ dumped_loads_iff value
      · exact dumped_loads_entries entries e h

end

/-- What an object is after it was written and read. -/
def jsonForm (value : Obj) : Obj := value.dumped.loads

def jsonFormDict (d : Dict Key Obj) : Dict Key Obj :=
  Dict.ofList (loadsEntries (textEntries d.entries))

theorem jsonForm_dict (d : Dict Key Obj) :
    jsonForm (.dict d.entries) = .dict (jsonFormDict d).entries := by
  rw [jsonForm, dumped_dict, loads]
  rfl

theorem dumpableItems_iff {sorted : Bool} {items : List Obj} :
    dumpableItems sorted items = true ↔ ∀ item ∈ items, dumpable sorted item = true := by
  induction items with
  | nil => simp [dumpableItems]
  | cons item items ih => rw [dumpableItems, Bool.and_eq_true, ih, List.forall_mem_cons]

theorem dumpableEntries_iff {sorted : Bool} {entries : List (Key × Obj)} :
    dumpableEntries sorted entries = true ↔
      ∀ e ∈ entries, e.1.encodable = true ∧ dumpable sorted e.2 = true := by
  induction entries with
  | nil => simp [dumpableEntries]
  | cons e entries ih =>
      obtain ⟨key, value⟩ := e
      rw [dumpableEntries, Bool.and_eq_true, Bool.and_eq_true, ih, List.forall_mem_cons]

mutual

/-- What was read can be written again. -/
theorem dumpable_jsonForm {sorted again : Bool} : ∀ value : Obj, value.dumpable sorted = true →
    value.jsonForm.dumpable again = true
  | .none, h | .bool _, h | .int _, h | .float _, h | .str _, h => rfl
  | .list items, h => by
      rw [jsonForm, dumped, loads, dumpable, dumpableItems_iff, dumpedItems_eq_map,
        loadsItems_eq_map, List.map_map]
      intro item hitem
      obtain ⟨old, hold, rfl⟩ := List.mem_map.mp hitem
      rw [dumpable, dumpableItems_iff] at h
      exact dumpable_jsonFormItems items h old hold
  | .dict entries, h => by
      have hmem : ∀ e ∈ dictEntries (loadsEntries (textEntries entries)),
          ∃ old ∈ entries, e = (.str old.1.text, old.2.jsonForm) := by
        intro e he
        have he := Dict.mem_of_mem_ofList he
        rw [loadsEntries_eq_map, textEntries, List.map_map] at he
        obtain ⟨old, hold, rfl⟩ := List.mem_map.mp he
        exact ⟨old, mem_sortEntries.mp hold, rfl⟩
      rw [dumpable, Bool.and_eq_true, dumpableEntries_iff] at h
      rw [jsonForm, dumped_dict, loads, dumpable, Bool.and_eq_true, dumpableEntries_iff]
      constructor
      · have hstr : (Assoc.keys (dictEntries (loadsEntries (textEntries entries)))).all
            Key.isStr = true := by
          rw [List.all_eq_true]
          intro key hkey
          obtain ⟨e, he, rfl⟩ := List.mem_map.mp hkey
          obtain ⟨old, -, rfl⟩ := hmem e he
          rfl
        rw [Key.sortable, hstr]
        simp
      · intro e he
        obtain ⟨old, hold, rfl⟩ := hmem e he
        exact ⟨rfl, dumpable_jsonFormEntries entries (fun e he => (h.2 e he).2) old hold⟩

theorem dumpable_jsonFormItems {sorted again : Bool} : ∀ items : List Obj,
    (∀ item ∈ items, item.dumpable sorted = true) →
      ∀ item ∈ items, item.jsonForm.dumpable again = true
  | first :: items, h, item, hitem => by
      rw [List.forall_mem_cons] at h
      rcases List.mem_cons.mp hitem with heq | hitem
      · exact heq ▸ dumpable_jsonForm first h.1
      · exact dumpable_jsonFormItems items h.2 item hitem

theorem dumpable_jsonFormEntries {sorted again : Bool} : ∀ entries : List (Key × Obj),
    (∀ e ∈ entries, e.2.dumpable sorted = true) →
      ∀ e ∈ entries, e.2.jsonForm.dumpable again = true
  | (key, value) :: entries, h, e, he => by
      rw [List.forall_mem_cons] at h
      rcases List.mem_cons.mp he with heq | he
      · exact heq ▸ dumpable_jsonForm value h.1
      · exact dumpable_jsonFormEntries entries h.2 e he

end

theorem dumps_ok {value text : Obj} (h : value.dumps = .ok text) :
    value.dumpable true = true ∧ text = value.dumped := by
  unfold dumps at h
  split at h
  · next hdumpable =>
      cases h
      exact ⟨hdumpable, rfl⟩
  · cases h

theorem jsonBytes_ok_iff {value bytes : Obj} :
    value.jsonBytes = .ok bytes ↔
      value.dumpable true = true ∧ bytes = value.dumped ∧ value.dumped.utf8 = true := by
  unfold jsonBytes dumps
  constructor
  · intro h
    split at h
    · next hdumpable =>
        simp only [Except.bind] at h
        split at h
        · next hutf8 =>
            cases h
            exact ⟨hdumpable, rfl, hutf8⟩
        · cases h
    · cases h
  · rintro ⟨hdumpable, rfl, hutf8⟩
    rw [if_pos hdumpable]
    simp only [Except.bind]
    rw [if_pos hutf8]

/-- An object that was written and read is written as the same bytes exactly if its keys are
in the order of the text. -/
theorem jsonBytes_jsonForm_iff {value bytes : Obj} (h : value.jsonBytes = .ok bytes) :
    value.jsonForm.jsonBytes = .ok bytes ↔ value.InTextOrder := by
  obtain ⟨hdumpable, rfl, hutf8⟩ := jsonBytes_ok_iff.mp h
  rw [jsonBytes_ok_iff, ← dumped_loads_iff]
  constructor
  · exact fun h => h.2.1.symm
  · exact fun hsame => ⟨dumpable_jsonForm value hdumpable, hsame.symm, by
      rw [jsonForm, hsame]; exact hutf8⟩

/-! ## The text of what was read -/

mutual

theorem inTextOrder_jsonForm : ∀ value : Obj, value.jsonForm.InTextOrder
  | .none | .bool _ | .int _ | .float _ | .str _ | .foreign _ => by
      simp [jsonForm, dumped, loads, InTextOrder]
  | .list items => by
      rw [jsonForm, dumped, loads, InTextOrder, inTextOrderItems_iff, dumpedItems_eq_map,
        loadsItems_eq_map, List.map_map]
      exact List.forall_mem_map.mpr (inTextOrder_jsonFormItems items)
  | .dict entries => by
      rw [jsonForm, dumped_dict, loads, InTextOrder, inTextOrderEntries_iff]
      refine ⟨pairwise_of_str str_of_mem_read (nodup_dictEntries _), fun e he => ?_⟩
      have hmem := Dict.mem_of_mem_ofList he
      rw [loadsEntries_eq_map, textEntries, List.map_map] at hmem
      obtain ⟨old, hold, rfl⟩ := List.mem_map.mp hmem
      exact inTextOrder_jsonFormEntries entries old (mem_sortEntries.mp hold)

theorem inTextOrder_jsonFormItems : ∀ items : List Obj,
    ∀ item ∈ items, item.jsonForm.InTextOrder
  | first :: items, item, h => by
      rcases List.mem_cons.mp h with heq | h
      · exact heq ▸ inTextOrder_jsonForm first
      · exact inTextOrder_jsonFormItems items item h

theorem inTextOrder_jsonFormEntries : ∀ entries : List (Key × Obj),
    ∀ e ∈ entries, e.2.jsonForm.InTextOrder
  | (key, value) :: entries, e, h => by
      rcases List.mem_cons.mp h with heq | h
      · exact heq ▸ inTextOrder_jsonForm value
      · exact inTextOrder_jsonFormEntries entries e h

end

/-- The text of an object once it was written and read. -/
def canonicalText (value : Obj) : Obj := value.jsonForm.dumped

theorem canonicalText_jsonForm (value : Obj) :
    value.jsonForm.canonicalText = value.canonicalText :=
  (dumped_loads_iff value.jsonForm).mpr (inTextOrder_jsonForm value)

theorem canonicalText_list (items : List Obj) :
    canonicalText (.list items) = .list (items.map canonicalText) := by
  rw [canonicalText, jsonForm, dumped, loads, dumped, dumpedItems_eq_map, loadsItems_eq_map,
    dumpedItems_eq_map, List.map_map, List.map_map]
  rfl

/-- The text of a dictionary under strings, of what was read from it. -/
theorem canonicalText_dict {entries : List (Key × Obj)}
    (hstr : ∀ e ∈ entries, e.1.isStr = true) (hnodup : (Assoc.keys entries).Nodup) :
    canonicalText (.dict entries) =
      .dict ((sortEntries entries).map fun e => (.str e.1.text, e.2.canonicalText)) := by
  have hsorted := pairwise_of_str (fun e he => Key.eq_str (hstr e he)) hnodup
  rw [canonicalText, jsonForm, dumped_dict, loads, dumped_dict,
    textEntries_loads (pairwise_textEntries.mpr hsorted), textEntries, List.map_map]
  rfl

/-- Values with the same texts make the text of a dictionary under strings the same. -/
theorem canonicalText_dict_map {entries : List (Key × Obj)} {f : Obj → Obj}
    (hstr : ∀ e ∈ entries, e.1.isStr = true) (hnodup : (Assoc.keys entries).Nodup)
    (hf : ∀ e ∈ entries, (f e.2).canonicalText = e.2.canonicalText) :
    canonicalText (.dict (entries.map fun e => (e.1, f e.2))) = canonicalText (.dict entries) := by
  have hkeys : (Assoc.keys (entries.map fun e => (e.1, f e.2))).Nodup := by
    rw [Assoc.keys, List.map_map]
    exact hnodup
  have hmap : ∀ e ∈ entries.map fun e => (e.1, f e.2), e.1.isStr = true :=
    List.forall_mem_map.mpr hstr
  rw [canonicalText_dict hstr hnodup, canonicalText_dict hmap hkeys, sortEntries_map,
    List.map_map]
  refine congrArg Obj.dict (List.map_congr_left fun e he => ?_)
  rw [Function.comp_apply, hf e (mem_sortEntries.mp he)]

/-- A dictionary with strings for keys has the same keys once it was written and read. -/
theorem get?_jsonFormDict {d : Dict Key Obj} (hstr : ∀ e ∈ d.entries, e.1.isStr = true)
    (key : Key) : (jsonFormDict d).get? key = (d.get? key).map jsonForm := by
  have htext : ∀ e ∈ d.entries, e.1 = .str e.1.text := fun e he => Key.eq_str (hstr e he)
  have hread : loadsEntries (textEntries d.entries) =
      (sortEntries d.entries).map fun e => (e.1, jsonForm e.2) := by
    rw [loadsEntries_eq_map, textEntries, List.map_map]
    refine List.map_congr_left fun e he => ?_
    rw [Function.comp_apply, ← htext e (mem_sortEntries.mp he)]
    rfl
  have hnodup : (Assoc.keys (loadsEntries (textEntries d.entries))).Nodup := by
    rw [hread, Assoc.keys, List.map_map]
    exact ((List.perm_insertionSort _ d.entries).map _).nodup_iff.mpr d.nodupKeys
  ext value
  rw [← Dict.mem_entries_iff, jsonFormDict, ← dictEntries, dictEntries_of_nodup hnodup, hread,
    Option.map_eq_some_iff, List.mem_map]
  constructor
  · rintro ⟨⟨k, v⟩, he, heq⟩
    cases heq
    exact ⟨v, Dict.mem_entries_iff.mp (mem_sortEntries.mp he), rfl⟩
  · rintro ⟨v, hv, rfl⟩
    exact ⟨(key, v), mem_sortEntries.mpr (Dict.mem_entries_iff.mpr hv), rfl⟩

end Obj

end Pollard
