import Pollard.Containers
import Pollard.Runtime.Stream

/-!
# Merging stream values by reference

`_merge_stream_value` changes nested dictionaries in place and takes over what it puts
under a key by reference.  Two things are proved of it: where target and delta own what
they hold, the target becomes what merging values makes of it; and where merging adds
nothing to a dictionary, no reader anywhere sees a change.
-/

namespace Pollard

open Lib

theorem Value.joined_isContainer {a b text : Value} (h : a.joined b = some text) :
    text.isContainer = false := by
  cases a <;> cases b <;> cases h <;> rfl

theorem Value.mergeInto_none (value : Value) : Value.mergeInto Option.none value = value := by
  cases value <;> rfl

theorem Value.mergeInto_scalar (a : Value) {b : Value} (hb : b.isContainer = false) :
    Value.mergeInto (some a) b = (a.joined b).getD b := by
  cases a <;> cases b <;> first | rfl | cases hb

/-- A value of another kind takes the place of what was there. -/
theorem Value.mergeInto_mixed {a b : Value} (hdict : a.isDict = true → b.isDict = false)
    (hother : a.isDict = false → b.isDict = false → a.isContainer ≠ b.isContainer) :
    Value.mergeInto (some a) b = b := by
  cases a <;> cases b <;> first
    | rfl
    | cases hdict rfl
    | exact absurd rfl (hother rfl rfl)

theorem Value.dict_or_list_or_scalar (value : Value) :
    (∃ entries, value = .dict entries) ∨ (∃ items, value = .list items) ∨
      value.isContainer = false := by
  cases value with
  | dict entries => exact .inl ⟨entries, rfl⟩
  | list items => exact .inr (.inl ⟨items, rfl⟩)
  | _ => exact .inr (.inr rfl)

def Scalar.joined (a b : Scalar) : Option Scalar :=
  match h : a.1.joined b.1 with
  | some text => some ⟨text, Value.joined_isContainer h⟩
  | none => none

mutual

/-- How deep containers are nested. -/
def Value.height : Value → ℕ
  | .list items => Value.heightItems items + 1
  | .dict entries => Value.heightEntries entries + 1
  | _ => 0

def Value.heightItems : List Value → ℕ
  | [] => 0
  | item :: items => max (Value.height item) (Value.heightItems items)

def Value.heightEntries : List (String × Value) → ℕ
  | [] => 0
  | (_, value) :: entries => max (Value.height value) (Value.heightEntries entries)

end

mutual

/-- No dictionary has a key twice. -/
def Value.Distinct : Value → Prop
  | .list items => Value.DistinctItems items
  | .dict entries => (Assoc.keys entries).Nodup ∧ Value.DistinctEntries entries
  | _ => True

def Value.DistinctItems : List Value → Prop
  | [] => True
  | item :: items => Value.Distinct item ∧ Value.DistinctItems items

def Value.DistinctEntries : List (String × Value) → Prop
  | [] => True
  | (_, value) :: entries => Value.Distinct value ∧ Value.DistinctEntries entries

end

theorem Value.DistinctEntries.lookup {entries : List (String × Value)}
    (h : Value.DistinctEntries entries) {key : String} {value : Value}
    (hlookup : Assoc.lookup entries key = some value) : value.Distinct := by
  induction entries with
  | nil => cases hlookup
  | cons entry entries ih =>
      obtain ⟨k, v⟩ := entry
      rw [Assoc.lookup] at hlookup
      split at hlookup
      · cases hlookup
        exact h.1
      · exact ih h.2 hlookup

theorem Value.height_lookup_le {entries : List (String × Value)} {key : String} {value : Value}
    (hlookup : Assoc.lookup entries key = some value) :
    value.height ≤ Value.heightEntries entries := by
  induction entries with
  | nil => cases hlookup
  | cons entry entries ih =>
      obtain ⟨k, v⟩ := entry
      rw [Assoc.lookup] at hlookup
      rw [Value.heightEntries]
      split at hlookup
      · cases hlookup
        exact le_max_left _ _
      · exact (ih hlookup).trans (le_max_right _ _)

theorem Value.lookup_mergeStreamValue_of_not_mem {entries delta : List (String × Value)}
    {key : String} (hkey : key ∉ Assoc.keys delta) :
    Assoc.lookup (Value.mergeStreamValue entries delta) key = Assoc.lookup entries key := by
  induction delta generalizing entries with
  | nil => rfl
  | cons entry delta ih =>
      obtain ⟨k, v⟩ := entry
      rw [Assoc.keys, List.map_cons, List.mem_cons, not_or] at hkey
      rw [Value.mergeStreamValue, ih hkey.2, Assoc.lookup_upsert, if_neg (Ne.symm hkey.1)]

theorem Value.lookup_mergeStreamValue (entries : List (String × Value))
    {delta : List (String × Value)} (hnodup : (Assoc.keys delta).Nodup) {key : String} {value : Value}
    (hvalue : Assoc.lookup delta key = some value) :
    Assoc.lookup (Value.mergeStreamValue entries delta) key =
      some (Value.mergeInto (Assoc.lookup entries key) value) := by
  induction delta generalizing entries with
  | nil => cases hvalue
  | cons entry delta ih =>
      obtain ⟨k, v⟩ := entry
      rw [Assoc.keys, List.map_cons, List.nodup_cons] at hnodup
      rw [Assoc.lookup] at hvalue
      rw [Value.mergeStreamValue]
      split at hvalue
      · next heq =>
          cases hvalue
          subst heq
          rw [Value.lookup_mergeStreamValue_of_not_mem hnodup.1, Assoc.lookup_upsert, if_pos rfl]
      · next hne => rw [ih _ hnodup.2 hvalue, Assoc.lookup_upsert, if_neg hne]

namespace Heap

/-- What `isinstance` tells of an object. -/
inductive View where
  | scalar (value : Scalar)
  | list (items : List Ref)
  | dict (a : ℕ) (entries : List (String × Ref))

def view? (h : Heap) : Ref → Option View
  | .scalar value => some (.scalar value)
  | .address a => (h.cell? a).map fun cell =>
      match cell with
      | .list items => .list items
      | .dict entries => .dict a entries

/-- `target[key] = value`, for a dictionary of some entries. -/
def setEntry (h : Heap) (target : ℕ) (fields : List (String × Ref)) (key : String) (ref : Ref) :
    Heap :=
  h.write target (.dict (Assoc.upsert fields key ref))

/-- The body of the loop of `_merge_stream_value`, given the call it makes to itself. -/
def mergeEntry (merge : Heap → ℕ → List (String × Ref) → Option Heap) (target : ℕ) (h : Heap)
    (entry : String × Ref) : Option Heap := do
  let fields ← h.dict? (.address target)
  match (Assoc.lookup fields entry.1).bind h.view?, h.view? entry.2 with
  | some (.dict current _), some (.dict _ delta) => merge h current delta
  | some (.list current), some (.list items) =>
      let (a, h) := h.alloc (.list (current ++ items))
      return h.setEntry target fields entry.1 (.address a)
  | some (.scalar current), some (.scalar value) =>
      match current.joined value with
      | some text => return h.setEntry target fields entry.1 (.scalar text)
      | none => return h.setEntry target fields entry.1 entry.2
  | _, _ => return h.setEntry target fields entry.1 entry.2

/-- `_merge_stream_value`, to a depth. -/
def mergeStreamValue : ℕ → Heap → ℕ → List (String × Ref) → Option Heap
  | 0, _, _, _ => none
  | depth + 1, h, target, delta => delta.foldlM (mergeEntry (mergeStreamValue depth) target) h

section Views

variable {h : Heap} {allowed : ℕ → Prop} {ref : Ref}

theorem view?_dict {entries : List (String × Value)}
    (hspells : Spells h allowed (.dict entries) ref) :
    ∃ a fields, ref = .address a ∧ h.cell? a = some (.dict fields) ∧
      h.view? ref = some (.dict a fields) ∧ SpellsEntries h allowed entries fields := by
  obtain ⟨a, fields, rfl, -, hcell, hentries⟩ := hspells
  exact ⟨a, fields, rfl, hcell, by rw [view?, hcell]; rfl, hentries⟩

theorem view?_list {items : List Value} (hspells : Spells h allowed (.list items) ref) :
    ∃ a refs, ref = .address a ∧ h.cell? a = some (.list refs) ∧
      h.view? ref = some (.list refs) ∧ SpellsItems h allowed items refs := by
  obtain ⟨a, refs, rfl, -, hcell, hitems⟩ := hspells
  exact ⟨a, refs, rfl, hcell, by rw [view?, hcell]; rfl, hitems⟩

theorem Spells.entries_of_cell {entries : List (String × Value)} {a : ℕ}
    {fields : List (String × Ref)} (hspells : Spells h allowed (.dict entries) (.address a))
    (hcell : h.cell? a = some (.dict fields)) : SpellsEntries h allowed entries fields := by
  obtain ⟨_, _, ha, -, hfound, hentries⟩ := hspells
  cases ha
  rw [hcell] at hfound
  cases hfound
  exact hentries

theorem Spells.items_of_cell {items : List Value} {a : ℕ} {refs : List Ref}
    (hspells : Spells h allowed (.list items) (.address a))
    (hcell : h.cell? a = some (.list refs)) : SpellsItems h allowed items refs := by
  obtain ⟨_, _, ha, -, hfound, hitems⟩ := hspells
  cases ha
  rw [hcell] at hfound
  cases hfound
  exact hitems

theorem view?_scalar {value : Value} (hscalar : value.isContainer = false)
    (hspells : Spells h allowed value ref) :
    ref = .scalar ⟨value, hscalar⟩ ∧ h.view? ref = some (.scalar ⟨value, hscalar⟩) := by
  rw [spells_scalar hscalar] at hspells
  subst hspells
  exact ⟨rfl, rfl⟩

end Views

/-- What one pass of the loop does: it goes into a nested dictionary, it puts a longer list
in the place of a list, or it puts what the target becomes under the key. -/
theorem mergeEntry_cases {merge : Heap → ℕ → List (String × Ref) → Option Heap} {h : Heap}
    {allowed allowed' : ℕ → Prop} {target : ℕ} {entries : List (String × Value)}
    {fields : List (String × Ref)} {key : String} {value : Value} {ref : Ref}
    (hcell : h.cell? target = some (.dict fields))
    (hentries : SpellsEntries h allowed entries fields) (hvalue : Spells h allowed' value ref) :
    (∃ u w a fa b fb, Assoc.lookup entries key = some (.dict u) ∧ value = .dict w ∧
      Assoc.lookup fields key = some (.address a) ∧ h.cell? a = some (.dict fa) ∧
      ref = .address b ∧ h.cell? b = some (.dict fb) ∧
      mergeEntry merge target h (key, ref) = merge h a fb) ∨
    (∃ u w a xs b ys, Assoc.lookup entries key = some (.list u) ∧ value = .list w ∧
      Assoc.lookup fields key = some (.address a) ∧ h.cell? a = some (.list xs) ∧
      ref = .address b ∧ h.cell? b = some (.list ys) ∧
      mergeEntry merge target h (key, ref) =
        some ((h.alloc (.list (xs ++ ys))).2.setEntry target fields key (.address h.size))) ∨
    (∃ new, mergeEntry merge target h (key, ref) = some (h.setEntry target fields key new) ∧
      (∀ u w, Assoc.lookup entries key = some (.dict u) → value ≠ .dict w) ∧
      (new = ref ∧ Value.mergeInto (Assoc.lookup entries key) value = value ∨
        ∃ text : Scalar, new = .scalar text ∧ value.isContainer = false ∧
          Value.mergeInto (Assoc.lookup entries key) value = text.1)) := by
  have hdict : h.dict? (.address target) = some fields :=
    dict?_eq_some_iff.mpr ⟨target, rfl, hcell⟩
  unfold mergeEntry
  rw [hdict]
  simp only [bind, Option.bind_some, pure]
  rcases hentries.lookup key with ⟨hnone, hfields⟩ | ⟨u, current, hu, hfields, hspells⟩
  · rw [hnone, hfields]
    exact .inr (.inr ⟨ref, rfl, by rintro _ _ ⟨⟩, .inl ⟨rfl, Value.mergeInto_none value⟩⟩)
  · rw [hu, hfields, Option.bind_some]
    have hmixed : ∀ {new : Option Heap}, new = some (h.setEntry target fields key ref) →
        (u.isDict = true → value.isDict = false) →
        (u.isDict = false → value.isDict = false → u.isContainer ≠ value.isContainer) →
        ∃ r, new = some (h.setEntry target fields key r) ∧
          (∀ e w, some u = some (.dict e) → value ≠ .dict w) ∧
          (r = ref ∧ Value.mergeInto (some u) value = value ∨
            ∃ text : Scalar, r = .scalar text ∧ value.isContainer = false ∧
              Value.mergeInto (some u) value = text.1) := by
      intro new hnew hdicts hothers
      refine ⟨ref, hnew, ?_, .inl ⟨rfl, Value.mergeInto_mixed hdicts hothers⟩⟩
      rintro e w he rfl
      cases he
      cases hdicts rfl
    rcases u.dict_or_list_or_scalar with ⟨e, rfl⟩ | ⟨l, rfl⟩ | hscalar
    · obtain ⟨a, fa, rfl, hcella, hview, -⟩ := view?_dict hspells
      rw [hview]
      rcases value.dict_or_list_or_scalar with ⟨w, rfl⟩ | ⟨w, rfl⟩ | hvalue'
      · obtain ⟨b, fb, rfl, hcellb, hviewb, -⟩ := view?_dict hvalue
        rw [hviewb]
        exact .inl ⟨e, w, a, fa, b, fb, rfl, rfl, rfl, hcella, rfl, hcellb, rfl⟩
      · obtain ⟨b, ys, rfl, hcellb, hviewb, -⟩ := view?_list hvalue
        rw [hviewb]
        exact .inr (.inr (hmixed rfl (fun _ => rfl) (by rintro ⟨⟩)))
      · obtain ⟨rfl, hviewb⟩ := view?_scalar hvalue' hvalue
        rw [hviewb]
        refine .inr (.inr (hmixed rfl (fun _ => ?_) (by rintro ⟨⟩)))
        cases value <;> first | rfl | cases hvalue'
    · obtain ⟨a, xs, rfl, hcella, hview, -⟩ := view?_list hspells
      rw [hview]
      rcases value.dict_or_list_or_scalar with ⟨w, rfl⟩ | ⟨w, rfl⟩ | hvalue'
      · obtain ⟨b, fb, rfl, hcellb, hviewb, -⟩ := view?_dict hvalue
        rw [hviewb]
        exact .inr (.inr (hmixed rfl (by rintro ⟨⟩) (by rintro - ⟨⟩)))
      · obtain ⟨b, ys, rfl, hcellb, hviewb, -⟩ := view?_list hvalue
        rw [hviewb]
        exact .inr (.inl ⟨l, w, a, xs, b, ys, rfl, rfl, rfl, hcella, rfl, hcellb, rfl⟩)
      · obtain ⟨rfl, hviewb⟩ := view?_scalar hvalue' hvalue
        rw [hviewb]
        refine .inr (.inr (hmixed rfl (by rintro ⟨⟩) fun _ _ => ?_))
        rw [hvalue']
        simp [Value.isContainer]
    · obtain ⟨rfl, hview⟩ := view?_scalar hscalar hspells
      rw [hview]
      have hnot : u.isDict = false := by cases u <;> first | rfl | cases hscalar
      rcases value.dict_or_list_or_scalar with ⟨w, rfl⟩ | ⟨w, rfl⟩ | hvalue'
      · obtain ⟨b, fb, rfl, hcellb, hviewb, -⟩ := view?_dict hvalue
        rw [hviewb]
        exact .inr (.inr (hmixed rfl (fun h => by rw [hnot] at h; cases h) (by rintro - ⟨⟩)))
      · obtain ⟨b, ys, rfl, hcellb, hviewb, -⟩ := view?_list hvalue
        rw [hviewb]
        refine .inr (.inr (hmixed rfl (fun _ => rfl) fun _ _ => ?_))
        rw [hscalar]
        simp [Value.isContainer]
      · obtain ⟨rfl, hviewb⟩ := view?_scalar hvalue' hvalue
        rw [hviewb]
        have hmerge := Value.mergeInto_scalar u hvalue'
        have hnested : ∀ e w, some u = some (.dict e) → value ≠ .dict w := by
          rintro e w he rfl
          cases hvalue'
        simp only [Scalar.joined]
        split
        · next text htext =>
            split at htext
            · next joined hjoined =>
                cases htext
                rw [hjoined] at hmerge
                exact .inr (.inr ⟨_, rfl, hnested, .inr ⟨_, rfl, hvalue', hmerge⟩⟩)
            · cases htext
        · next htext =>
            split at htext
            · cases htext
            · next hjoined =>
                rw [hjoined] at hmerge
                exact .inr (.inr ⟨_, rfl, hnested, .inl ⟨rfl, hmerge⟩⟩)

/-! ## Merging what is owned -/

/-- A dictionary at an address, and what it owns below it. -/
structure Holding (h : Heap) (target : ℕ) (entries : List (String × Value))
    (fields : List (String × Ref)) (inner : Finset ℕ) : Prop where
  cell : h.cell? target = some (.dict fields)
  owns : OwnsEntries h entries fields inner
  apart : target ∉ inner

theorem Holding.owned {h : Heap} {target : ℕ} {entries : List (String × Value)}
    {fields : List (String × Ref)} {inner : Finset ℕ}
    (hold : Holding h target entries fields inner) :
    Owns h (.dict entries) (.address target) (insert target inner) :=
  ⟨target, fields, inner, rfl, hold.cell, hold.apart, rfl, hold.owns⟩

theorem Owns.holding {h : Heap} {target : ℕ} {entries : List (String × Value)}
    {fields : List (String × Ref)} {owned : Finset ℕ}
    (howns : Owns h (.dict entries) (.address target) owned)
    (hcell : h.cell? target = some (.dict fields)) :
    ∃ inner, owned = insert target inner ∧ Holding h target entries fields inner := by
  obtain ⟨a, found, inner, ha, hfound, hnot, rfl, hentries⟩ := howns
  cases ha
  rw [hcell] at hfound
  cases hfound
  exact ⟨inner, rfl, hcell, hentries, hnot⟩

theorem Owns.ownsItems {h : Heap} {target : ℕ} {items : List Value} {refs : List Ref}
    {owned : Finset ℕ} (howns : Owns h (.list items) (.address target) owned)
    (hcell : h.cell? target = some (.list refs)) :
    ∃ inner ⊆ owned, OwnsItems h items refs inner := by
  obtain ⟨a, found, inner, ha, hfound, -, rfl, hitems⟩ := howns
  cases ha
  rw [hcell] at hfound
  cases hfound
  exact ⟨inner, Finset.subset_insert _ _, hitems⟩

/-- What merging owned entries into a dictionary does.  Whatever it owns then was owned
before, was given or is new; nested dictionaries are merged in place. -/
structure Merged (h : Heap) (target : ℕ) (entries : List (String × Value))
    (fields : List (String × Ref)) (inner : Finset ℕ) (delta : List (String × Value))
    (refs : List (String × Ref)) (given : Finset ℕ) (h' : Heap)
    (fields' : List (String × Ref)) (inner' : Finset ℕ) : Prop where
  holding : Holding h' target (Value.mergeStreamValue entries delta) fields' inner'
  frame : Frame h (insert target (inner ∪ given)) h'
  within : ∀ a ∈ inner', a < h.size → a ∈ inner ∪ given
  untouched : ∀ key ∉ Assoc.keys delta, Assoc.lookup fields' key = Assoc.lookup fields key
  nested : (Assoc.keys delta).Nodup → ∀ key u w, Assoc.lookup entries key = some (.dict u) →
    Assoc.lookup delta key = some (.dict w) → Assoc.lookup fields' key = Assoc.lookup fields key
  placed : (Assoc.keys delta).Nodup → ∀ key w, (∀ u, Assoc.lookup entries key ≠ some (.dict u)) →
    Assoc.lookup delta key = some (.dict w) → Assoc.lookup fields' key = Assoc.lookup refs key

section Merged

variable {h h' : Heap} {target : ℕ} {entries : List (String × Value)}
  {fields fields' : List (String × Ref)} {inner inner' : Finset ℕ}

theorem Merged.nil (hold : Holding h target entries fields inner) :
    Merged h target entries fields inner [] [] ∅ h fields inner where
  holding := hold
  frame := Frame.refl h _
  within _ ha _ := Finset.mem_union_left _ ha
  untouched _ _ := rfl
  nested _ _ _ _ _ hw := nomatch hw
  placed _ _ _ _ hw := nomatch hw

/-- An entry of the target is replaced in a heap that has only grown. -/
theorem Merged.of_setEntry {grown : Heap} {key : String} {value : Value} {ref new : Ref}
    {old given first : Finset ℕ}
    (hold : Holding h target entries fields inner) (hframe : Frame h ∅ grown)
    (hpart : old ⊆ inner)
    (hreplace : ∀ {h' : Heap} {value : Value} {ref : Ref} {first : Finset ℕ},
      (∀ a ∈ inner \ old, h'.cell? a = h.cell? a) → Owns h' value ref first →
      Disjoint first (inner \ old) →
        OwnsEntries h' (Assoc.upsert entries key value) (Assoc.upsert fields key ref)
          (first ∪ inner \ old))
    (hnew : Owns grown (Value.mergeInto (Assoc.lookup entries key) value) new first)
    (hfirst : ∀ a ∈ first, a ∈ old ∪ given ∨ h.size ≤ a) (hdisj : Disjoint inner given)
    (htarget : target ∉ given)
    (hplaced : ∀ w, value = .dict w → new = ref)
    (hnested : ∀ u w, Assoc.lookup entries key = some (.dict u) → value ≠ .dict w) :
    Merged h target entries fields inner [(key, value)] [(key, ref)] given
      (grown.setEntry target fields key new) (Assoc.upsert fields key new)
      (first ∪ inner \ old) := by
  have hlt : target < h.size := lt_size_of_cell? hold.cell
  have htargetfirst : target ∉ first := by
    intro hmem
    rcases hfirst target hmem with hin | hge
    · rcases Finset.mem_union.mp hin with hin | hin
      · exact hold.apart (hpart hin)
      · exact htarget hin
    · omega
  have hsame : ∀ a < h.size, a ≠ target →
      (grown.setEntry target fields key new).cell? a = h.cell? a := fun a ha hne =>
    (cell?_write_of_ne hne).trans (hframe.same a ha (Finset.notMem_empty a))
  have hfirstdisj : Disjoint first (inner \ old) := by
    rw [Finset.disjoint_left]
    intro a ha ha'
    obtain ⟨hin, hnot⟩ := Finset.mem_sdiff.mp ha'
    rcases hfirst a ha with hmem | hge
    · rcases Finset.mem_union.mp hmem with hmem | hmem
      · exact hnot hmem
      · exact Finset.disjoint_left.mp hdisj hin hmem
    · exact absurd (hold.owns.lt_size hin) (not_lt.mpr hge)
  have hnew' : Owns (grown.setEntry target fields key new)
      (Value.mergeInto (Assoc.lookup entries key) value) new first :=
    (Frame.write grown target _).mono_owns hnew
      (Finset.disjoint_singleton_right.mpr htargetfirst)
  refine ⟨⟨cell?_write_self (hlt.trans_le hframe.grown), ?_, ?_⟩, ?_, ?_, ?_, ?_, ?_⟩
  · refine hreplace (fun a ha => hsame a ?_ ?_) hnew' hfirstdisj
    · exact hold.owns.lt_size (Finset.mem_sdiff.mp ha).1
    · rintro rfl
      exact hold.apart (Finset.mem_sdiff.mp ha).1
  · rw [Finset.mem_union, not_or]
    exact ⟨htargetfirst, fun hmem => hold.apart (Finset.mem_sdiff.mp hmem).1⟩
  · refine ⟨hframe.grown.trans (size_write _ _ _).ge, fun _ ha hnot => hsame _ ha ?_⟩
    rintro rfl
    exact hnot (Finset.mem_insert_self _ _)
  · intro a ha hlt
    rw [Finset.mem_union]
    rcases Finset.mem_union.mp ha with ha | ha
    · rcases hfirst a ha with hmem | hge
      · exact (Finset.mem_union.mp hmem).imp_left (hpart ·)
      · omega
    · exact .inl (Finset.mem_sdiff.mp ha).1
  · intro other hother
    have hne : key ≠ other := by
      rintro rfl
      exact hother (by simp [Assoc.keys])
    rw [Assoc.lookup_upsert, if_neg hne]
  · intro _ other u w hu hw
    rw [Assoc.lookup] at hw
    split at hw
    · next heq =>
        subst heq
        cases hw
        exact absurd rfl (hnested u w hu)
    · cases hw
  · intro _ other w _ hw
    rw [Assoc.lookup] at hw ⊢
    split at hw
    · next heq =>
        subst heq
        rw [Assoc.lookup_upsert, if_pos rfl, if_pos rfl, hplaced w (Option.some.inj hw)]
    · cases hw

/-- A nested dictionary is merged in place. -/
theorem Merged.of_nested {key : String} {u w : List (String × Value)} {a b : ℕ}
    {fa fb fa' : List (String × Ref)} {inna innb inna' : Finset ℕ}
    (hold : Holding h target entries fields inner)
    (hpart : insert a inna ⊆ inner) (hu : Assoc.lookup entries key = some (.dict u))
    (hfields : Assoc.lookup fields key = some (.address a))
    (hreplace : ∀ {h' : Heap} {value : Value} {ref : Ref} {first : Finset ℕ},
      (∀ c ∈ inner \ insert a inna, h'.cell? c = h.cell? c) → Owns h' value ref first →
      Disjoint first (inner \ insert a inna) →
        OwnsEntries h' (Assoc.upsert entries key value) (Assoc.upsert fields key ref)
          (first ∪ inner \ insert a inna))
    (hmerged : Merged h a u fa inna w fb innb h' fa' inna')
    (hdisj : Disjoint inner (insert b innb)) (htarget : target ∉ insert b innb) :
    Merged h target entries fields inner [(key, .dict w)] [(key, .address b)] (insert b innb) h'
      fields (insert a inna' ∪ inner \ insert a inna) := by
  have hlt : target < h.size := lt_size_of_cell? hold.cell
  have htouched : ∀ c, c ∈ insert a (inna ∪ innb) → c ∈ inner ∪ insert b innb := by
    intro c hc
    rw [Finset.mem_insert, Finset.mem_union] at hc
    rw [Finset.mem_union]
    rcases hc with rfl | hc | hc
    · exact .inl (hpart (Finset.mem_insert_self c inna))
    · exact .inl (hpart (Finset.mem_insert_of_mem hc))
    · exact .inr (Finset.mem_insert_of_mem hc)
  have hfirst : ∀ c ∈ insert a inna', c < h.size → c ∈ insert a inna ∪ insert b innb := by
    intro c hc hlt
    rw [Finset.mem_union]
    rcases Finset.mem_insert.mp hc with rfl | hc
    · exact .inl (Finset.mem_insert_self _ _)
    · exact (Finset.mem_union.mp (hmerged.within c hc hlt)).imp
        Finset.mem_insert_of_mem Finset.mem_insert_of_mem
  have hfirstdisj : Disjoint (insert a inna') (inner \ insert a inna) := by
    rw [Finset.disjoint_left]
    intro c hc hc'
    obtain ⟨hin, hnot⟩ := Finset.mem_sdiff.mp hc'
    rcases Finset.mem_union.mp (hfirst c hc (hold.owns.lt_size hin)) with hmem | hmem
    · exact hnot hmem
    · exact Finset.disjoint_left.mp hdisj hin hmem
  have hsame : ∀ c < h.size, c ∉ inner ∪ insert b innb → h'.cell? c = h.cell? c :=
    fun c hc hnot => hmerged.frame.same c hc fun hmem => hnot (htouched c hmem)
  have hmergeInto : Value.mergeStreamValue entries [(key, .dict w)] =
      Assoc.upsert entries key (.dict (Value.mergeStreamValue u w)) := by
    rw [Value.mergeStreamValue, Value.mergeStreamValue, hu, Value.mergeInto]
  have howns := @hreplace h' _ _ _ (fun c hc => hmerged.frame.same c ?_ ?_) hmerged.holding.owned
    hfirstdisj
  · rw [Assoc.upsert_of_lookup hfields] at howns
    refine ⟨⟨?_, hmergeInto ▸ howns, ?_⟩, ?_, ?_, fun _ _ => rfl, fun _ _ _ _ _ _ => rfl, ?_⟩
    · rw [hsame target hlt, hold.cell]
      rw [Finset.mem_union, not_or]
      exact ⟨hold.apart, htarget⟩
    · rw [Finset.mem_union, not_or]
      refine ⟨fun hmem => ?_, fun hmem => hold.apart (Finset.mem_sdiff.mp hmem).1⟩
      rcases Finset.mem_union.mp (hfirst target hmem hlt) with hmem | hmem
      · exact hold.apart (hpart hmem)
      · exact htarget hmem
    · exact hmerged.frame.mono fun c hc => Finset.mem_insert_of_mem (htouched c hc)
    · intro c hc hlt
      rw [Finset.mem_union]
      rcases Finset.mem_union.mp hc with hc | hc
      · exact (Finset.mem_union.mp (hfirst c hc hlt)).imp_left (hpart ·)
      · exact .inl (Finset.mem_sdiff.mp hc).1
    · intro _ other v hnot hv
      rw [Assoc.lookup] at hv
      split at hv
      · next heq =>
          subst heq
          exact absurd hu (hnot u)
      · cases hv
  · exact hold.owns.lt_size (Finset.mem_sdiff.mp hc).1
  · intro hmem
    obtain ⟨hin, hnot⟩ := Finset.mem_sdiff.mp hc
    rw [Finset.mem_insert, Finset.mem_union] at hmem
    rcases hmem with rfl | hmem | hmem
    · exact hnot (Finset.mem_insert_self _ _)
    · exact hnot (Finset.mem_insert_of_mem hmem)
    · exact Finset.disjoint_left.mp hdisj hin (Finset.mem_insert_of_mem hmem)

/-- Merging entries up to a depth does what it should. -/
def MergesBelow (merge : Heap → ℕ → List (String × Ref) → Option Heap) (depth : ℕ) : Prop :=
  ∀ {h : Heap} {target : ℕ} {entries : List (String × Value)} {fields : List (String × Ref)}
    {inner : Finset ℕ} {delta : List (String × Value)} {refs : List (String × Ref)}
    {given : Finset ℕ}, Value.heightEntries delta < depth →
    Holding h target entries fields inner → OwnsEntries h delta refs given →
    Disjoint inner given → target ∉ given →
      ∃ h' fields' inner', merge h target refs = some h' ∧
        Merged h target entries fields inner delta refs given h' fields' inner'

theorem mergeEntry_owns {merge : Heap → ℕ → List (String × Ref) → Option Heap} {depth : ℕ}
    (hmerge : MergesBelow merge depth) {key : String} {value : Value} {ref : Ref}
    {given : Finset ℕ} (hold : Holding h target entries fields inner)
    (hvalue : Owns h value ref given) (hheight : value.height ≤ depth)
    (hdisj : Disjoint inner given) (htarget : target ∉ given) :
    ∃ h' fields' inner', mergeEntry merge target h (key, ref) = some h' ∧
      Merged h target entries fields inner [(key, value)] [(key, ref)] given h' fields' inner' := by
  obtain ⟨old, hpart, hlookup, hreplace⟩ := hold.owns.part key
  have hentries : SpellsEntries h (fun _ => True) entries fields :=
    hold.owns.spells fun _ _ => trivial
  have hspells : Spells h (fun _ => True) value ref := hvalue.spells fun _ _ => trivial
  have hcurrent : ∀ {u a}, Assoc.lookup entries key = some u →
      Assoc.lookup fields key = some (.address a) → Owns h u (.address a) old := by
    intro u a hu ha
    rcases hlookup with ⟨hnone, -⟩ | ⟨u', r, hu', hr, howns⟩
    · rw [hnone] at hu
      cases hu
    · rw [hu] at hu'
      rw [ha] at hr
      cases hu'
      cases hr
      exact howns
  rcases mergeEntry_cases hold.cell hentries hspells with
    ⟨u, w, a, fa, b, fb, hu, rfl, hfa, hcella, rfl, hcellb, hentry⟩ |
    ⟨u, w, a, xs, b, ys, hu, rfl, hfa, hcella, rfl, hcellb, hentry⟩ |
    ⟨new, hentry, hnested, hnew⟩
  · obtain ⟨inna, rfl, holda⟩ := (hcurrent hu hfa).holding hcella
    obtain ⟨innb, rfl, holdb⟩ := hvalue.holding hcellb
    have hdisj' : Disjoint (insert a inna) (insert b innb) := hdisj.mono_left hpart
    obtain ⟨h', fa', inna', hcall, hmerged⟩ := hmerge (Nat.lt_of_succ_le hheight) holda holdb.owns
      (hdisj'.mono (Finset.subset_insert _ _) (Finset.subset_insert _ _))
      (fun hmem => Finset.disjoint_left.mp hdisj' (Finset.mem_insert_self _ _)
        (Finset.mem_insert_of_mem hmem))
    exact ⟨h', fields, _, hentry.trans hcall,
      .of_nested hold hpart hu hfa hreplace hmerged hdisj htarget⟩
  · obtain ⟨inna, hina, hitemsa⟩ := (hcurrent hu hfa).ownsItems hcella
    obtain ⟨innb, hinb, hitemsb⟩ := hvalue.ownsItems hcellb
    have hitems : OwnsItems (h.alloc (.list (xs ++ ys))).2 (u ++ w) (xs ++ ys) (inna ∪ innb) := by
      have hlt : ∀ c ∈ inna ∪ innb, c < h.size :=
        Finset.forall_mem_union.mpr ⟨fun _ => hitemsa.lt_size, fun _ => hitemsb.lt_size⟩
      exact OwnsItems.mono _ (fun c hc => cell?_alloc_of_lt _ (hlt c hc))
        (hitemsa.append hitemsb (hdisj.mono (hina.trans hpart) hinb))
    have hnew : Owns (h.alloc (.list (xs ++ ys))).2
        (Value.mergeInto (Assoc.lookup entries key) (.list w)) (.address h.size)
        (insert h.size (inna ∪ innb)) := by
      rw [hu, Value.mergeInto]
      refine ⟨h.size, _, _, rfl, cell?_alloc_self _ _, not_mem_of_lt ?_, rfl, hitems⟩
      exact Finset.forall_mem_union.mpr ⟨fun _ => hitemsa.lt_size, fun _ => hitemsb.lt_size⟩
    refine ⟨_, _, _, hentry, .of_setEntry hold (Frame.alloc h _ ∅) hpart hreplace hnew ?_ hdisj
      htarget nofun nofun⟩
    rw [Finset.forall_mem_insert]
    exact ⟨.inr le_rfl, fun c hc => .inl (Finset.union_subset_union hina hinb hc)⟩
  · obtain ⟨first, hfirst, howns, hplaced⟩ : ∃ first ⊆ given,
        Owns h (Value.mergeInto (Assoc.lookup entries key) value) new first ∧
          ∀ w, value = .dict w → new = ref := by
      rcases hnew with ⟨rfl, hsame⟩ | ⟨text, rfl, hscalar, htext⟩
      · refine ⟨given, subset_rfl, ?_, fun _ _ => rfl⟩
        rw [hsame]
        exact hvalue
      · refine ⟨∅, Finset.empty_subset _, ?_, ?_⟩
        · rw [htext]
          exact (owns_scalar text.2).mpr ⟨rfl, rfl⟩
        · rintro w rfl
          cases hscalar
    exact ⟨_, _, _, hentry, .of_setEntry hold (Frame.refl h ∅) hpart hreplace howns
      (fun c hc => .inl (Finset.mem_union_right _ (hfirst hc))) hdisj htarget hplaced hnested⟩

theorem lookup_mergeStreamValue_one (entries : List (String × Value)) (key : String)
    (value : Value) (other : String) :
    Assoc.lookup (Value.mergeStreamValue entries [(key, value)]) other =
      if key = other then some (Value.mergeInto (Assoc.lookup entries key) value)
        else Assoc.lookup entries other := by
  rw [Value.mergeStreamValue, Value.mergeStreamValue, Assoc.lookup_upsert]

theorem Merged.cons {middle : Heap} {key : String} {value : Value} {ref : Ref}
    {delta : List (String × Value)} {refs fields₁ : List (String × Ref)}
    {given given' inner₁ : Finset ℕ}
    (hone : Merged h target entries fields inner [(key, value)] [(key, ref)] given middle
      fields₁ inner₁)
    (hrest : Merged middle target (Value.mergeStreamValue entries [(key, value)]) fields₁ inner₁
      delta refs given' h' fields' inner') :
    Merged h target entries fields inner ((key, value) :: delta) ((key, ref) :: refs)
      (given ∪ given') h' fields' inner' := by
  have hin : ∀ a ∈ inner₁ ∪ given', a < h.size → a ∈ inner ∪ (given ∪ given') := by
    intro a ha hlt
    rw [← Finset.union_assoc, Finset.mem_union]
    exact (Finset.mem_union.mp ha).imp_left fun ha => hone.within a ha hlt
  refine ⟨?_, ?_, ?_, ?_, ?_, ?_⟩
  · have hholding := hrest.holding
    rwa [Value.mergeStreamValue, Value.mergeStreamValue] at hholding
  · refine (hone.frame.mono ?_).trans hrest.frame ?_
    · exact Finset.insert_subset_insert _
        (Finset.union_subset_union_right Finset.subset_union_left)
    · intro a ha hlt
      rcases Finset.mem_insert.mp ha with rfl | ha
      · exact Finset.mem_insert_self _ _
      · exact Finset.mem_insert_of_mem (hin a ha hlt)
  · exact fun a ha hlt => hin a (hrest.within a ha (hlt.trans_le hone.frame.grown)) hlt
  · intro other hother
    rw [Assoc.keys, List.map_cons, List.mem_cons, not_or] at hother
    rw [hrest.untouched other hother.2, hone.untouched other (by simpa [Assoc.keys] using hother.1)]
  · intro hnodup other u w hu hw
    rw [Assoc.keys, List.map_cons, List.nodup_cons] at hnodup
    rw [Assoc.lookup] at hw
    split at hw
    · next heq =>
        subst heq
        rw [hrest.untouched key hnodup.1, hone.nested (by simp [Assoc.keys]) key u w hu (by
          rw [Assoc.lookup, if_pos rfl, hw])]
    · next hne =>
        have hone' := hone.untouched other (by simpa [Assoc.keys] using Ne.symm hne)
        rw [hrest.nested hnodup.2 other u w (by
          rw [lookup_mergeStreamValue_one, if_neg hne, hu]) hw, hone']
  · intro hnodup other w hnot hw
    rw [Assoc.keys, List.map_cons, List.nodup_cons] at hnodup
    rw [Assoc.lookup] at hw ⊢
    split at hw
    · next heq =>
        subst heq
        have hplaced := hone.placed (by simp [Assoc.keys]) key w hnot (by
          rw [Assoc.lookup, if_pos rfl, hw])
        rw [Assoc.lookup, if_pos rfl] at hplaced
        rw [if_pos rfl, hrest.untouched key hnodup.1, hplaced]
    · next hne =>
        rw [if_neg hne]
        refine hrest.placed hnodup.2 other w (fun u => ?_) hw
        rw [lookup_mergeStreamValue_one, if_neg hne]
        exact hnot u

/-- The loop merges owned entries, one after the other. -/
theorem foldlM_mergeEntry_owns {merge : Heap → ℕ → List (String × Ref) → Option Heap}
    {depth : ℕ} (hmerge : MergesBelow merge depth) {delta : List (String × Value)} :
    ∀ {h : Heap} {entries : List (String × Value)} {fields refs : List (String × Ref)}
      {inner given : Finset ℕ}, Value.heightEntries delta ≤ depth →
      Holding h target entries fields inner → OwnsEntries h delta refs given →
      Disjoint inner given → target ∉ given →
        ∃ h' fields' inner', refs.foldlM (mergeEntry merge target) h = some h' ∧
          Merged h target entries fields inner delta refs given h' fields' inner' := by
  induction delta with
  | nil =>
      intro h entries fields refs inner given _ hold hrefs _ _
      obtain ⟨rfl, rfl⟩ := hrefs
      exact ⟨h, fields, inner, rfl, .nil hold⟩
  | cons entry delta ih =>
      obtain ⟨key, value⟩ := entry
      intro h entries fields refs inner given hheight hold hrefs hdisj htarget
      obtain ⟨ref, rest, first, others, rfl, hparts, rfl, hvalue, hrest⟩ := hrefs
      rw [Value.heightEntries, max_le_iff] at hheight
      rw [Finset.disjoint_union_right] at hdisj
      rw [Finset.mem_union, not_or] at htarget
      obtain ⟨h₁, fields₁, inner₁, hstep, hone⟩ :=
        mergeEntry_owns hmerge hold hvalue hheight.1 hdisj.1 htarget.1
      -- what is still to be merged has not been touched
      have huntouched : Disjoint others (insert target (inner ∪ first)) := by
        rw [Finset.disjoint_insert_right, Finset.disjoint_union_right]
        exact ⟨htarget.2, hdisj.2.symm, hparts.symm⟩
      have hdisj₁ : Disjoint inner₁ others := by
        rw [Finset.disjoint_left]
        intro a ha ha'
        rcases Finset.mem_union.mp (hone.within a ha (hrest.lt_size ha')) with hmem | hmem
        · exact Finset.disjoint_left.mp hdisj.2 hmem ha'
        · exact Finset.disjoint_left.mp hparts hmem ha'
      obtain ⟨h', fields', inner', hfold, hmerged⟩ := ih hheight.2 hone.holding
        (hone.frame.mono_ownsEntries hrest huntouched) hdisj₁ htarget.2
      refine ⟨h', fields', inner', ?_, hone.cons hmerged⟩
      rw [List.foldlM_cons, hstep]
      exact hfold

/-- Merging owned entries into a dictionary makes it what merging values makes it. -/
theorem mergeStreamValue_owns (depth : ℕ) : MergesBelow (mergeStreamValue depth) depth := by
  induction depth with
  | zero => exact fun hheight => absurd hheight (Nat.not_lt_zero _)
  | succ depth ih =>
      intro h target entries fields inner delta refs given hheight hold hrefs hdisj htarget
      exact foldlM_mergeEntry_owns ih (Nat.le_of_lt_succ hheight) hold hrefs hdisj htarget

end Merged

/-! ## Merging what adds nothing -/

/-- Whatever could be read through allowed addresses still can, and the others are as they
were. -/
structure Quiet (allowed : ℕ → Prop) (h h' : Heap) : Prop where
  grown : h.size ≤ h'.size
  spells : ∀ value ref, Spells h allowed value ref → Spells h' allowed value ref
  same : ∀ a < h.size, ¬ allowed a → h'.cell? a = h.cell? a

section Quiet

variable {allowed : ℕ → Prop} {h h' : Heap} {target : ℕ} {entries : List (String × Value)}
  {fields : List (String × Ref)}

theorem Quiet.refl (allowed : ℕ → Prop) (h : Heap) : Quiet allowed h h :=
  ⟨le_rfl, fun _ _ hspells => hspells, fun _ _ _ => rfl⟩

theorem Quiet.trans {h'' : Heap} (hquiet : Quiet allowed h h') (hquiet' : Quiet allowed h' h'') :
    Quiet allowed h h'' :=
  ⟨hquiet.grown.trans hquiet'.grown,
    fun value ref hspells => hquiet'.spells value ref (hquiet.spells value ref hspells),
    fun a ha hnot => (hquiet'.same a (ha.trans_le hquiet.grown) hnot).trans (hquiet.same a ha hnot)⟩

theorem Frame.quiet (hframe : Frame h ∅ h') (allowed : ℕ → Prop) : Quiet allowed h h' where
  grown := hframe.grown
  spells value _ hspells := hspells.mono (fun a _ ha hcell =>
    ⟨ha, (hframe.same a (lt_size_of_cell? hcell) (Finset.notMem_empty a)).trans hcell⟩) value
  same a ha _ := hframe.same a ha (Finset.notMem_empty a)

/-- An entry is replaced by a reference that spells the same. -/
theorem Quiet.setEntry {key : String} {value : Value} {ref : Ref} (ha : allowed target)
    (hcell : h.cell? target = some (.dict fields))
    (hentries : SpellsEntries h allowed entries fields)
    (hlookup : Assoc.lookup entries key = some value) (href : Spells h allowed value ref) :
    Quiet allowed h (h.setEntry target fields key ref) where
  grown := (size_write _ _ _).ge
  spells value _ hspells := Spells.rewrite hcell hentries hlookup href value hspells
  same _ _ hnot := cell?_write_of_ne fun heq => hnot (heq ▸ ha)

/-- Merging entries that add nothing to a dictionary changes nothing. -/
def QuietBelow (merge : Heap → ℕ → List (String × Ref) → Option Heap) (depth : ℕ) : Prop :=
  ∀ {allowed : ℕ → Prop} {h : Heap} {target : ℕ} {entries delta : List (String × Value)}
    {refs : List (String × Ref)}, Value.heightEntries delta < depth →
    (∀ a, h.size ≤ a → allowed a) → (Assoc.keys delta).Nodup → Value.DistinctEntries delta →
    Spells h allowed (.dict entries) (.address target) → SpellsEntries h allowed delta refs →
    Value.mergeStreamValue entries delta = entries →
      ∃ h', merge h target refs = some h' ∧ Quiet allowed h h'

theorem mergeEntry_quiet {merge : Heap → ℕ → List (String × Ref) → Option Heap} {depth : ℕ}
    (hmerge : QuietBelow merge depth) {key : String} {value u : Value} {ref : Ref}
    (hnew : ∀ a, h.size ≤ a → allowed a) (hheight : value.height ≤ depth)
    (hdistinct : value.Distinct) (htarget : Spells h allowed (.dict entries) (.address target))
    (hvalue : Spells h allowed value ref) (hu : Assoc.lookup entries key = some u)
    (hsame : Value.mergeInto (some u) value = u) :
    ∃ h', mergeEntry merge target h (key, ref) = some h' ∧ Quiet allowed h h' := by
  obtain ⟨_, fields, ⟨⟩, ha, hcell, hentries⟩ := id htarget
  obtain ⟨current, hcurrent, hspells⟩ := hentries.exists_ref hu
  rcases mergeEntry_cases hcell hentries hvalue with
    ⟨e, w, a, fa, b, fb, he, rfl, hfa, hcella, rfl, hcellb, hentry⟩ |
    ⟨l, w, a, xs, b, ys, hl, rfl, hfa, hcella, rfl, hcellb, hentry⟩ |
    ⟨new, hentry, hnested, hnew'⟩
  · rw [hu] at he
    cases he
    rw [hcurrent] at hfa
    cases hfa
    rw [Value.mergeInto] at hsame
    obtain ⟨h', hcall, hquiet⟩ := hmerge (Nat.lt_of_succ_le hheight) hnew hdistinct.1 hdistinct.2
      hspells (hvalue.entries_of_cell hcellb) (Value.dict.inj hsame)
    exact ⟨h', hentry.trans hcall, hquiet⟩
  · rw [hu] at hl
    cases hl
    rw [hcurrent] at hfa
    cases hfa
    -- nothing is appended, so the new list is a copy
    rw [Value.mergeInto] at hsame
    have hnil : w = [] := List.append_right_eq_self.mp (Value.list.inj hsame)
    subst hnil
    have hys : ys = [] := hvalue.items_of_cell hcellb
    have hxs := hspells.items_of_cell hcella
    rw [hys, List.append_nil] at hentry
    have halloc := (Frame.alloc h (.list xs) ∅).quiet allowed
    have hcopy : Spells (h.alloc (.list xs)).2 allowed (.list l) (.address h.size) :=
      ⟨h.size, xs, rfl, hnew h.size le_rfl, cell?_alloc_self h _,
        hxs.mono (fun c _ hc hcellc => ⟨hc, (cell?_alloc_of_lt _ (lt_size_of_cell? hcellc)).trans
          hcellc⟩) l⟩
    refine ⟨_, hentry, halloc.trans (Quiet.setEntry ha ?_ (hentries.of_forall halloc.spells) hu
      hcopy)⟩
    rw [cell?_alloc_of_lt _ (lt_size_of_cell? hcell), hcell]
  · refine ⟨_, hentry, Quiet.setEntry ha hcell hentries hu ?_⟩
    rw [hu] at hnew'
    rcases hnew' with ⟨rfl, hsame'⟩ | ⟨text, rfl, -, htext⟩
    · rw [← hsame, hsame']
      exact hvalue
    · rw [← hsame, htext]
      exact (spells_scalar text.2).mpr rfl

/-- Entries that add nothing, one by one. -/
theorem foldlM_mergeEntry_quiet {merge : Heap → ℕ → List (String × Ref) → Option Heap}
    {depth : ℕ} (hmerge : QuietBelow merge depth) {delta : List (String × Value)} :
    ∀ {h : Heap} {refs : List (String × Ref)}, Value.heightEntries delta ≤ depth →
      (∀ a, h.size ≤ a → allowed a) → Value.DistinctEntries delta →
      Spells h allowed (.dict entries) (.address target) → SpellsEntries h allowed delta refs →
      (∀ e ∈ delta, ∃ u, Assoc.lookup entries e.1 = some u ∧
        Value.mergeInto (some u) e.2 = u) →
        ∃ h', refs.foldlM (mergeEntry merge target) h = some h' ∧ Quiet allowed h h' := by
  induction delta with
  | nil =>
      intro h refs _ _ _ _ hrefs _
      cases hrefs
      exact ⟨h, rfl, Quiet.refl allowed h⟩
  | cons entry delta ih =>
      obtain ⟨key, value⟩ := entry
      intro h refs hheight hnew hdistinct htarget hrefs hquiet
      obtain ⟨ref, rest, rfl, hvalue, hrest⟩ := hrefs
      rw [Value.heightEntries, max_le_iff] at hheight
      rw [List.forall_mem_cons] at hquiet
      obtain ⟨u, hu, hsame⟩ := hquiet.1
      obtain ⟨h₁, hstep, hone⟩ :=
        mergeEntry_quiet hmerge hnew hheight.1 hdistinct.1 htarget hvalue hu hsame
      obtain ⟨h', hfold, hothers⟩ := ih hheight.2 (fun a ha => hnew a (hone.grown.trans ha))
        hdistinct.2 (hone.spells _ _ htarget) (hrest.of_forall hone.spells) hquiet.2
      refine ⟨h', ?_, hone.trans hothers⟩
      rw [List.foldlM_cons, hstep]
      exact hfold

/-- Where merging values changes nothing, no entry does. -/
theorem quiet_entries {delta : List (String × Value)} (hnodup : (Assoc.keys delta).Nodup)
    (hsame : Value.mergeStreamValue entries delta = entries) :
    ∀ e ∈ delta, ∃ u, Assoc.lookup entries e.1 = some u ∧ Value.mergeInto (some u) e.2 = u := by
  rintro ⟨key, value⟩ he
  have hmerged := Value.lookup_mergeStreamValue entries hnodup
    (Assoc.lookup_of_mem hnodup he)
  rw [hsame] at hmerged
  exact ⟨_, hmerged, by rw [← hmerged]⟩

theorem mergeStreamValue_quiet (depth : ℕ) : QuietBelow (mergeStreamValue depth) depth := by
  induction depth with
  | zero => exact fun hheight => absurd hheight (Nat.not_lt_zero _)
  | succ depth ih =>
      intro allowed h target entries delta refs hheight hnew hnodup hdistinct htarget hrefs hsame
      exact foldlM_mergeEntry_quiet ih (Nat.le_of_lt_succ hheight) hnew hdistinct htarget hrefs
        (quiet_entries hnodup hsame)

/-- Whatever could be read without passing an address still can. -/
structure KeepsAround (q : ℕ) (h h' : Heap) : Prop where
  grown : h.size ≤ h'.size
  spells : ∀ value ref, Spells h (· ≠ q) value ref → Spells h' (· ≠ q) value ref

theorem KeepsAround.setEntry (h : Heap) (q : ℕ) (fields : List (String × Ref)) (key : String)
    (ref : Ref) : KeepsAround q h (h.setEntry q fields key ref) where
  grown := (size_write _ _ _).ge
  spells value _ hspells := hspells.mono (fun _ _ ha hcell =>
    ⟨ha, (cell?_write_of_ne ha).trans hcell⟩) value

theorem KeepsAround.trans {q : ℕ} {h'' : Heap} (hkeeps : KeepsAround q h h')
    (hkeeps' : KeepsAround q h' h'') : KeepsAround q h h'' :=
  ⟨hkeeps.grown.trans hkeeps'.grown,
    fun value ref hspells => hkeeps'.spells value ref (hkeeps.spells value ref hspells)⟩

/-- The target itself is read by nobody else. -/
theorem mergeEntry_around {merge : Heap → ℕ → List (String × Ref) → Option Heap} {depth : ℕ}
    (hmerge : QuietBelow merge depth) {key : String} {value : Value} {ref : Ref}
    (hcell : h.cell? target = some (.dict fields))
    (hentries : SpellsEntries h (· ≠ target) entries fields)
    (hvalue : Spells h (· ≠ target) value ref) (hheight : value.height ≤ depth)
    (hdistinct : value.Distinct)
    (hnested : ∀ e w, Assoc.lookup entries key = some (.dict e) → value = .dict w →
      Value.mergeStreamValue e w = e) :
    ∃ h' fields', mergeEntry merge target h (key, ref) = some h' ∧
      h'.cell? target = some (.dict fields') ∧
      SpellsEntries h' (· ≠ target)
        (Assoc.upsert entries key (Value.mergeInto (Assoc.lookup entries key) value)) fields' ∧
      KeepsAround target h h' := by
  have hlt : target < h.size := lt_size_of_cell? hcell
  rcases mergeEntry_cases hcell hentries hvalue with
    ⟨e, w, a, fa, b, fb, he, rfl, hfa, hcella, rfl, hcellb, hentry⟩ |
    ⟨l, w, a, xs, b, ys, hl, rfl, hfa, hcella, rfl, hcellb, hentry⟩ |
    ⟨new, hentry, -, hnew⟩
  · have hsame := hnested e w he rfl
    obtain ⟨h', hcall, hquiet⟩ := hmerge (Nat.lt_of_succ_le hheight)
      (fun c hc => (hlt.trans_le hc).ne') hdistinct.1 hdistinct.2 (hentries.at he hfa)
      (hvalue.entries_of_cell hcellb) hsame
    refine ⟨h', fields, hentry.trans hcall, ?_, ?_, hquiet.grown, hquiet.spells⟩
    · rw [hquiet.same target hlt (not_not.mpr rfl), hcell]
    · rw [he, Value.mergeInto, hsame, Assoc.upsert_of_lookup he]
      exact hentries.of_forall hquiet.spells
  · have halloc := (Frame.alloc h (.list (xs ++ ys)) ∅).quiet (· ≠ target)
    have hkeeps := KeepsAround.trans ⟨halloc.grown, halloc.spells⟩
      (KeepsAround.setEntry (h.alloc (.list (xs ++ ys))).2 target fields key (.address h.size))
    have hlist : Spells (h.alloc (.list (xs ++ ys))).2 (· ≠ target) (.list (l ++ w))
        (.address h.size) := by
      have hitems := ((hentries.at hl hfa).items_of_cell hcella).append (hvalue.items_of_cell hcellb)
      exact ⟨h.size, _, rfl, hlt.ne', cell?_alloc_self h _, hitems.mono (fun c _ hc hcellc =>
        ⟨hc, (cell?_alloc_of_lt _ (lt_size_of_cell? hcellc)).trans hcellc⟩) _⟩
    refine ⟨_, _, hentry, cell?_write_self ?_, ?_, hkeeps⟩
    · rw [size_alloc]
      exact hlt.trans (Nat.lt_succ_self _)
    · rw [hl, Value.mergeInto]
      exact ((hentries.of_forall halloc.spells).upsert key hlist).of_forall
        (KeepsAround.setEntry _ target fields key _).spells
  · have hkeeps := KeepsAround.setEntry h target fields key new
    refine ⟨_, _, hentry, cell?_write_self hlt, ?_, hkeeps⟩
    refine (hentries.upsert key ?_).of_forall hkeeps.spells
    rcases hnew with ⟨rfl, hsame⟩ | ⟨text, rfl, -, htext⟩
    · rw [hsame]
      exact hvalue
    · rw [htext]
      exact (spells_scalar text.2).mpr rfl

/-- Nested dictionaries of a target that nobody else reads are left as they are. -/
theorem foldlM_mergeEntry_around {merge : Heap → ℕ → List (String × Ref) → Option Heap}
    {depth : ℕ} (hmerge : QuietBelow merge depth) {delta : List (String × Value)} :
    ∀ {h : Heap} {entries : List (String × Value)} {fields refs : List (String × Ref)},
      Value.heightEntries delta ≤ depth → (Assoc.keys delta).Nodup →
      Value.DistinctEntries delta → h.cell? target = some (.dict fields) →
      SpellsEntries h (· ≠ target) entries fields → SpellsEntries h (· ≠ target) delta refs →
      (∀ key e w, Assoc.lookup entries key = some (.dict e) →
        Assoc.lookup delta key = some (.dict w) → Value.mergeStreamValue e w = e) →
        ∃ h', refs.foldlM (mergeEntry merge target) h = some h' ∧ KeepsAround target h h' := by
  induction delta with
  | nil =>
      intro h entries fields refs _ _ _ _ _ hrefs _
      cases hrefs
      exact ⟨h, rfl, le_rfl, fun _ _ hspells => hspells⟩
  | cons entry delta ih =>
      obtain ⟨key, value⟩ := entry
      intro h entries fields refs hheight hnodup hdistinct hcell hentries hrefs hnested
      obtain ⟨ref, rest, rfl, hvalue, hrest⟩ := hrefs
      rw [Value.heightEntries, max_le_iff] at hheight
      rw [Assoc.keys, List.map_cons, List.nodup_cons] at hnodup
      obtain ⟨h₁, fields₁, hstep, hcell₁, hentries₁, hone⟩ := mergeEntry_around hmerge
        hcell hentries hvalue hheight.1 hdistinct.1 (fun e w he hw =>
          hnested key e w he (by rw [Assoc.lookup, if_pos rfl, hw]))
      obtain ⟨h', hfold, hothers⟩ := ih hheight.2 hnodup.2 hdistinct.2 hcell₁ hentries₁
        (hrest.of_forall hone.spells) (fun other e w he hw => by
          have hne : key ≠ other := by
            rintro rfl
            exact hnodup.1 (Assoc.mem_keys_of_lookup hw)
          rw [Assoc.lookup_upsert, if_neg hne] at he
          exact hnested other e w he (by rw [Assoc.lookup, if_neg hne, hw]))
      refine ⟨h', ?_, hone.trans hothers⟩
      rw [List.foldlM_cons, hstep]
      exact hfold

end Quiet

end Heap

end Pollard
