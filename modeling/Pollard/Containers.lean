import Pollard.Value
import Mathlib.Data.Finset.Basic
import Mathlib.Data.Finset.Lattice.Lemmas

/-!
# Containers shared by reference

Python's lists and dictionaries are objects: two names may share one, and who changes
it changes what both see.  A heap holds the containers by their addresses; a reference
is a scalar, which never changes, or an address.  What a reference spells is the value
a reader finds from it.
-/

namespace Pollard

open Lib

def Value.isContainer : Value → Bool
  | .list _ => true
  | .dict _ => true
  | _ => false

theorem Value.isContainer_none : Value.none.isContainer = false := rfl

abbrev Scalar := {value : Value // value.isContainer = false}

inductive Ref where
  | scalar (value : Scalar)
  | address (a : ℕ)
deriving DecidableEq

inductive Cell where
  | list (items : List Ref)
  | dict (entries : List (String × Ref))
deriving DecidableEq

structure Heap where
  cells : List Cell
deriving DecidableEq

namespace Heap

def empty : Heap := ⟨[]⟩

def size (h : Heap) : ℕ := h.cells.length

def cell? (h : Heap) (a : ℕ) : Option Cell := h.cells[a]?

/-- A new container, at the next address. -/
def alloc (h : Heap) (cell : Cell) : ℕ × Heap := (h.size, ⟨h.cells ++ [cell]⟩)

def write (h : Heap) (a : ℕ) (cell : Cell) : Heap := ⟨h.cells.set a cell⟩

/-- The entries of a dictionary, `none` for what is not one. -/
def dict? (h : Heap) : Ref → Option (List (String × Ref))
  | .address a =>
      match h.cell? a with
      | some (.dict entries) => some entries
      | _ => none
  | .scalar _ => none

mutual

/-- A value made of new containers. -/
def build : Value → Heap → Ref × Heap
  | .list items, h =>
      let (refs, h) := buildItems items h
      let (a, h) := h.alloc (.list refs)
      (.address a, h)
  | .dict entries, h =>
      let (fields, h) := buildEntries entries h
      let (a, h) := h.alloc (.dict fields)
      (.address a, h)
  | .none, h => (.scalar ⟨.none, rfl⟩, h)
  | .bool b, h => (.scalar ⟨.bool b, rfl⟩, h)
  | .int n, h => (.scalar ⟨.int n, rfl⟩, h)
  | .float q, h => (.scalar ⟨.float q, rfl⟩, h)
  | .str s, h => (.scalar ⟨.str s, rfl⟩, h)
  | .surrogates codePoints, h => (.scalar ⟨.surrogates codePoints, rfl⟩, h)
  | .foreign typeName, h => (.scalar ⟨.foreign typeName, rfl⟩, h)

def buildItems : List Value → Heap → List Ref × Heap
  | [], h => ([], h)
  | item :: items, h =>
      let (ref, h) := build item h
      let (refs, h) := buildItems items h
      (ref :: refs, h)

def buildEntries : List (String × Value) → Heap → List (String × Ref) × Heap
  | [], h => ([], h)
  | (key, value) :: entries, h =>
      let (ref, h) := build value h
      let (fields, h) := buildEntries entries h
      ((key, ref) :: fields, h)

end

/-! ## Reading -/

mutual

/-- What a reader finds from a reference, going through allowed addresses only. -/
def Spells (h : Heap) (allowed : ℕ → Prop) : Value → Ref → Prop
  | .list items, ref => ∃ a refs, ref = .address a ∧ allowed a ∧
      h.cell? a = some (.list refs) ∧ SpellsItems h allowed items refs
  | .dict entries, ref => ∃ a fields, ref = .address a ∧ allowed a ∧
      h.cell? a = some (.dict fields) ∧ SpellsEntries h allowed entries fields
  | value, ref => ∃ hscalar, ref = .scalar ⟨value, hscalar⟩

def SpellsItems (h : Heap) (allowed : ℕ → Prop) : List Value → List Ref → Prop
  | [], refs => refs = []
  | item :: items, refs => ∃ ref rest, refs = ref :: rest ∧ Spells h allowed item ref ∧
      SpellsItems h allowed items rest

def SpellsEntries (h : Heap) (allowed : ℕ → Prop) :
    List (String × Value) → List (String × Ref) → Prop
  | [], fields => fields = []
  | (key, value) :: entries, fields => ∃ ref rest, fields = (key, ref) :: rest ∧
      Spells h allowed value ref ∧ SpellsEntries h allowed entries rest

end

section Spells

variable {h h' : Heap} {allowed allowed' : ℕ → Prop}

mutual

/-- What is found is found wherever the containers passed are the same. -/
theorem Spells.mono (hkeep : ∀ a cell, allowed a → h.cell? a = some cell →
    allowed' a ∧ h'.cell? a = some cell) :
    ∀ (value : Value) {ref : Ref}, Spells h allowed value ref → Spells h' allowed' value ref
  | .list items, _, ⟨a, refs, href, ha, hcell, hitems⟩ =>
      ⟨a, refs, href, (hkeep a _ ha hcell).1, (hkeep a _ ha hcell).2,
        SpellsItems.mono hkeep items hitems⟩
  | .dict entries, _, ⟨a, fields, href, ha, hcell, hentries⟩ =>
      ⟨a, fields, href, (hkeep a _ ha hcell).1, (hkeep a _ ha hcell).2,
        SpellsEntries.mono hkeep entries hentries⟩
  | .none, _, hspells => hspells
  | .bool _, _, hspells => hspells
  | .int _, _, hspells => hspells
  | .float _, _, hspells => hspells
  | .str _, _, hspells => hspells
  | .surrogates _, _, hspells => hspells
  | .foreign _, _, hspells => hspells

theorem SpellsItems.mono (hkeep : ∀ a cell, allowed a → h.cell? a = some cell →
    allowed' a ∧ h'.cell? a = some cell) :
    ∀ (items : List Value) {refs : List Ref}, SpellsItems h allowed items refs →
      SpellsItems h' allowed' items refs
  | [], _, hrefs => hrefs
  | item :: items, _, ⟨ref, rest, hrefs, hitem, hrest⟩ =>
      ⟨ref, rest, hrefs, Spells.mono hkeep item hitem, SpellsItems.mono hkeep items hrest⟩

theorem SpellsEntries.mono (hkeep : ∀ a cell, allowed a → h.cell? a = some cell →
    allowed' a ∧ h'.cell? a = some cell) :
    ∀ (entries : List (String × Value)) {fields : List (String × Ref)},
      SpellsEntries h allowed entries fields → SpellsEntries h' allowed' entries fields
  | [], _, hfields => hfields
  | (_, value) :: entries, _, ⟨ref, rest, hfields, hvalue, hrest⟩ =>
      ⟨ref, rest, hfields, Spells.mono hkeep value hvalue, SpellsEntries.mono hkeep entries hrest⟩

end

theorem spells_scalar {value : Value} (hscalar : value.isContainer = false) {ref : Ref} :
    Spells h allowed value ref ↔ ref = .scalar ⟨value, hscalar⟩ := by
  cases value with
  | list items => cases hscalar
  | dict entries => cases hscalar
  | _ => exact ⟨fun ⟨_, href⟩ => href, fun href => ⟨hscalar, href⟩⟩

theorem spells_of_scalar {value : Value} {scalar : Scalar}
    (hspells : Spells h allowed value (.scalar scalar)) : value = scalar.1 := by
  cases value with
  | list items =>
      obtain ⟨_, _, href, -⟩ := hspells
      cases href
  | dict entries =>
      obtain ⟨_, _, href, -⟩ := hspells
      cases href
  | _ =>
      obtain ⟨_, href⟩ := hspells
      cases href
      rfl

mutual

/-- A reference spells one value. -/
theorem Spells.unique : ∀ (value : Value) {other : Value} {ref : Ref},
    Spells h allowed value ref → Spells h allowed' other ref → other = value
  | .list items, other, _, ⟨a, refs, href, _, hcell, hitems⟩, hother => by
      subst href
      cases other with
      | list others =>
          obtain ⟨_, _, href, -, hcell', hothers⟩ := hother
          cases href
          rw [hcell] at hcell'
          cases hcell'
          rw [SpellsItems.unique items hitems hothers]
      | dict entries =>
          obtain ⟨_, _, href, -, hcell', -⟩ := hother
          cases href
          rw [hcell] at hcell'
          cases hcell'
      | _ =>
          obtain ⟨_, href⟩ := hother
          cases href
  | .dict entries, other, _, ⟨a, fields, href, _, hcell, hentries⟩, hother => by
      subst href
      cases other with
      | list others =>
          obtain ⟨_, _, href, -, hcell', -⟩ := hother
          cases href
          rw [hcell] at hcell'
          cases hcell'
      | dict others =>
          obtain ⟨_, _, href, -, hcell', hothers⟩ := hother
          cases href
          rw [hcell] at hcell'
          cases hcell'
          rw [SpellsEntries.unique entries hentries hothers]
      | _ =>
          obtain ⟨_, href⟩ := hother
          cases href
  | .none, _, _, ⟨_, href⟩, hother => spells_of_scalar (href ▸ hother)
  | .bool _, _, _, ⟨_, href⟩, hother => spells_of_scalar (href ▸ hother)
  | .int _, _, _, ⟨_, href⟩, hother => spells_of_scalar (href ▸ hother)
  | .float _, _, _, ⟨_, href⟩, hother => spells_of_scalar (href ▸ hother)
  | .str _, _, _, ⟨_, href⟩, hother => spells_of_scalar (href ▸ hother)
  | .surrogates _, _, _, ⟨_, href⟩, hother => spells_of_scalar (href ▸ hother)
  | .foreign _, _, _, ⟨_, href⟩, hother => spells_of_scalar (href ▸ hother)

theorem SpellsItems.unique : ∀ (items : List Value) {others : List Value} {refs : List Ref},
    SpellsItems h allowed items refs → SpellsItems h allowed' others refs → others = items
  | [], others, _, hrefs, hothers => by
      subst hrefs
      cases others with
      | nil => rfl
      | cons other others =>
          obtain ⟨_, _, hrefs, -⟩ := hothers
          cases hrefs
  | item :: items, others, _, ⟨ref, rest, hrefs, hitem, hrest⟩, hothers => by
      subst hrefs
      cases others with
      | nil => cases hothers
      | cons other others =>
          obtain ⟨_, _, hrefs, hother, hothers⟩ := hothers
          cases hrefs
          rw [Spells.unique item hitem hother, SpellsItems.unique items hrest hothers]

theorem SpellsEntries.unique : ∀ (entries : List (String × Value))
    {others : List (String × Value)} {fields : List (String × Ref)},
    SpellsEntries h allowed entries fields → SpellsEntries h allowed' others fields →
      others = entries
  | [], others, _, hfields, hothers => by
      subst hfields
      cases others with
      | nil => rfl
      | cons other others =>
          obtain ⟨_, _, hfields, -⟩ := hothers
          cases hfields
  | (key, value) :: entries, others, _, ⟨ref, rest, hfields, hvalue, hrest⟩, hothers => by
      subst hfields
      cases others with
      | nil => cases hothers
      | cons other others =>
          obtain ⟨_, _, hfields, hother, hothers⟩ := hothers
          cases hfields
          rw [← Spells.unique value hvalue hother, SpellsEntries.unique entries hrest hothers]

end

/-- The reference under a key spells the value under the key. -/
theorem SpellsEntries.lookup {entries : List (String × Value)} {fields : List (String × Ref)}
    (hspells : SpellsEntries h allowed entries fields) (key : String) :
    (Assoc.lookup entries key = none ∧ Assoc.lookup fields key = none) ∨
      ∃ value ref, Assoc.lookup entries key = some value ∧ Assoc.lookup fields key = some ref ∧
        Spells h allowed value ref := by
  induction entries generalizing fields with
  | nil =>
      cases hspells
      exact .inl ⟨rfl, rfl⟩
  | cons entry entries ih =>
      obtain ⟨k, value⟩ := entry
      obtain ⟨ref, rest, rfl, hvalue, hrest⟩ := hspells
      rw [Assoc.lookup, Assoc.lookup]
      by_cases hk : k = key
      · rw [if_pos hk, if_pos hk]
        exact .inr ⟨value, ref, rfl, rfl, hvalue⟩
      · rw [if_neg hk, if_neg hk]
        exact ih hrest

theorem SpellsEntries.exists_ref {entries : List (String × Value)}
    {fields : List (String × Ref)} (hspells : SpellsEntries h allowed entries fields)
    {key : String} {value : Value} (hvalue : Assoc.lookup entries key = some value) :
    ∃ ref, Assoc.lookup fields key = some ref ∧ Spells h allowed value ref := by
  rcases hspells.lookup key with ⟨hnone, -⟩ | ⟨found, ref, hfound, href, hspells⟩
  · rw [hvalue] at hnone
    cases hnone
  · rw [hvalue] at hfound
    cases hfound
    exact ⟨ref, href, hspells⟩

theorem SpellsEntries.at {entries : List (String × Value)} {fields : List (String × Ref)}
    (hspells : SpellsEntries h allowed entries fields) {key : String} {value : Value} {ref : Ref}
    (hvalue : Assoc.lookup entries key = some value) (href : Assoc.lookup fields key = some ref) :
    Spells h allowed value ref := by
  obtain ⟨found, hfound, hread⟩ := hspells.exists_ref hvalue
  rw [href] at hfound
  cases hfound
  exact hread

theorem SpellsItems.append {items others : List Value} {refs refs' : List Ref}
    (hitems : SpellsItems h allowed items refs) (hothers : SpellsItems h allowed others refs') :
    SpellsItems h allowed (items ++ others) (refs ++ refs') := by
  induction items generalizing refs with
  | nil =>
      cases hitems
      exact hothers
  | cons item items ih =>
      obtain ⟨ref, rest, rfl, hitem, hrest⟩ := hitems
      exact ⟨ref, rest ++ refs', rfl, hitem, ih hrest⟩

theorem SpellsEntries.upsert {entries : List (String × Value)} {fields : List (String × Ref)}
    (hspells : SpellsEntries h allowed entries fields) (key : String) {value : Value} {ref : Ref}
    (hvalue : Spells h allowed value ref) :
    SpellsEntries h allowed (Assoc.upsert entries key value) (Assoc.upsert fields key ref) := by
  induction entries generalizing fields with
  | nil =>
      cases hspells
      exact ⟨ref, [], rfl, hvalue, rfl⟩
  | cons entry entries ih =>
      obtain ⟨k, v⟩ := entry
      obtain ⟨r, rest, rfl, hv, hrest⟩ := hspells
      rw [Assoc.upsert, Assoc.upsert]
      by_cases hk : k = key
      · rw [if_pos hk, if_pos hk]
        exact ⟨ref, rest, rfl, hvalue, hrest⟩
      · rw [if_neg hk, if_neg hk]
        exact ⟨r, _, rfl, hv, ih hrest⟩

theorem SpellsEntries.of_forall (hkeep : ∀ v r, Spells h allowed v r → Spells h' allowed' v r)
    {entries : List (String × Value)} {fields : List (String × Ref)}
    (hspells : SpellsEntries h allowed entries fields) :
    SpellsEntries h' allowed' entries fields := by
  induction entries generalizing fields with
  | nil => exact hspells
  | cons entry entries ih =>
      obtain ⟨r, rest, hfields, hv, hrest⟩ := hspells
      exact ⟨r, rest, hfields, hkeep _ _ hv, ih hrest⟩

end Spells

/-! ## Cells of a heap -/

section Cells

variable {h : Heap} {a : ℕ} {cell : Cell}

theorem lt_size_of_cell? (hcell : h.cell? a = some cell) : a < h.size :=
  (List.getElem?_eq_some_iff.mp hcell).1

theorem cell?_alloc_of_lt (cell : Cell) (ha : a < h.size) :
    (h.alloc cell).2.cell? a = h.cell? a :=
  List.getElem?_append_left ha

theorem cell?_alloc_self (h : Heap) (cell : Cell) :
    (h.alloc cell).2.cell? h.size = some cell := by
  change (h.cells ++ [cell])[h.cells.length]? = some cell
  simp

@[simp] theorem size_alloc (h : Heap) (cell : Cell) : (h.alloc cell).2.size = h.size + 1 := by
  change (h.cells ++ [cell]).length = h.cells.length + 1
  simp

@[simp] theorem size_write (h : Heap) (a : ℕ) (cell : Cell) : (h.write a cell).size = h.size :=
  List.length_set

theorem cell?_write_of_ne {b : ℕ} (hne : b ≠ a) : (h.write a cell).cell? b = h.cell? b :=
  List.getElem?_set_ne (Ne.symm hne)

theorem cell?_write_self (ha : a < h.size) : (h.write a cell).cell? a = some cell :=
  List.getElem?_set_self ha

theorem dict?_eq_some_iff {ref : Ref} {entries : List (String × Ref)} :
    h.dict? ref = some entries ↔
      ∃ a, ref = .address a ∧ h.cell? a = some (.dict entries) := by
  cases ref with
  | scalar value => exact ⟨nofun, fun ⟨_, href, _⟩ => nomatch href⟩
  | address a =>
      rw [dict?]
      constructor
      · intro hdict
        split at hdict
        · next fields hcell =>
            cases hdict
            exact ⟨a, rfl, hcell⟩
        · cases hdict
      · rintro ⟨_, href, hcell⟩
        cases href
        rw [hcell]

end Cells

/-! ## Writing what is there already -/

section Rewrite

variable {h : Heap} {allowed : ℕ → Prop} {target : ℕ} {entries : List (String × Value)}
  {fields : List (String × Ref)} {key : String} {value : Value} {ref : Ref}

mutual

/-- A dictionary whose entry is replaced by a reference that spells the same changes
nothing for any reader. -/
theorem Spells.rewrite (hcell : h.cell? target = some (.dict fields))
    (hentries : SpellsEntries h allowed entries fields)
    (hlookup : Assoc.lookup entries key = some value) (href : Spells h allowed value ref) :
    ∀ (v : Value) {r : Ref}, Spells h allowed v r →
      Spells (h.write target (.dict (Assoc.upsert fields key ref))) allowed v r
  | .list items, _, ⟨a, refs, hr, ha, hlist, hitems⟩ => by
      have hne : a ≠ target := by
        rintro rfl
        rw [hcell] at hlist
        cases hlist
      exact ⟨a, refs, hr, ha, (cell?_write_of_ne hne).trans hlist,
        SpellsItems.rewrite hcell hentries hlookup href items hitems⟩
  | .dict others, _, ⟨a, refs, hr, ha, hdict, hothers⟩ => by
      by_cases htarget : a = target
      · rw [htarget, hcell] at hdict
        cases hdict
        have hkey : Assoc.lookup others key = some value := by
          rw [← SpellsEntries.unique others hothers hentries]
          exact hlookup
        refine ⟨a, _, hr, ha, ?_,
          (SpellsEntries.rewrite hcell hentries hlookup href others hothers).2 hkey⟩
        rw [htarget]
        exact cell?_write_self (lt_size_of_cell? hcell)
      · exact ⟨a, refs, hr, ha, (cell?_write_of_ne htarget).trans hdict,
          (SpellsEntries.rewrite hcell hentries hlookup href others hothers).1⟩
  | .none, _, hspells => hspells
  | .bool _, _, hspells => hspells
  | .int _, _, hspells => hspells
  | .float _, _, hspells => hspells
  | .str _, _, hspells => hspells
  | .surrogates _, _, hspells => hspells
  | .foreign _, _, hspells => hspells

theorem SpellsItems.rewrite (hcell : h.cell? target = some (.dict fields))
    (hentries : SpellsEntries h allowed entries fields)
    (hlookup : Assoc.lookup entries key = some value) (href : Spells h allowed value ref) :
    ∀ (items : List Value) {refs : List Ref}, SpellsItems h allowed items refs →
      SpellsItems (h.write target (.dict (Assoc.upsert fields key ref))) allowed items refs
  | [], _, hrefs => hrefs
  | item :: items, _, ⟨r, rest, hrefs, hitem, hrest⟩ =>
      ⟨r, rest, hrefs, Spells.rewrite hcell hentries hlookup href item hitem,
        SpellsItems.rewrite hcell hentries hlookup href items hrest⟩

theorem SpellsEntries.rewrite (hcell : h.cell? target = some (.dict fields))
    (hentries : SpellsEntries h allowed entries fields)
    (hlookup : Assoc.lookup entries key = some value) (href : Spells h allowed value ref) :
    ∀ (others : List (String × Value)) {refs : List (String × Ref)},
      SpellsEntries h allowed others refs →
        SpellsEntries (h.write target (.dict (Assoc.upsert fields key ref))) allowed others refs ∧
          (Assoc.lookup others key = some value →
            SpellsEntries (h.write target (.dict (Assoc.upsert fields key ref))) allowed others
              (Assoc.upsert refs key ref))
  | [], _, hrefs => ⟨hrefs, nofun⟩
  | (k, v) :: others, _, ⟨r, rest, hrefs, hv, hrest⟩ => by
      subst hrefs
      have hv' := Spells.rewrite hcell hentries hlookup href v hv
      obtain ⟨hkept, hreplaced⟩ :=
        SpellsEntries.rewrite hcell hentries hlookup href others hrest
      refine ⟨⟨r, rest, rfl, hv', hkept⟩, fun hkey => ?_⟩
      rw [Assoc.lookup] at hkey
      rw [Assoc.upsert]
      by_cases hk : k = key
      · rw [if_pos hk] at hkey ⊢
        have hsame : Spells h allowed v ref := by
          rw [Option.some.inj hkey]
          exact href
        exact ⟨ref, rest, by rw [hk], Spells.rewrite hcell hentries hlookup href v hsame, hkept⟩
      · rw [if_neg hk] at hkey ⊢
        exact ⟨r, _, rfl, hv', hreplaced hkey⟩

end

end Rewrite

/-! ## Owning -/

mutual

/-- A reference spells a value through a set of containers, each of them met once. -/
def Owns (h : Heap) : Value → Ref → Finset ℕ → Prop
  | .list items, ref, owned => ∃ a refs inner, ref = .address a ∧
      h.cell? a = some (.list refs) ∧ a ∉ inner ∧ owned = insert a inner ∧
      OwnsItems h items refs inner
  | .dict entries, ref, owned => ∃ a fields inner, ref = .address a ∧
      h.cell? a = some (.dict fields) ∧ a ∉ inner ∧ owned = insert a inner ∧
      OwnsEntries h entries fields inner
  | value, ref, owned => owned = ∅ ∧ ∃ hscalar, ref = .scalar ⟨value, hscalar⟩

def OwnsItems (h : Heap) : List Value → List Ref → Finset ℕ → Prop
  | [], refs, owned => refs = [] ∧ owned = ∅
  | item :: items, refs, owned => ∃ ref rest first others, refs = ref :: rest ∧
      Disjoint first others ∧ owned = first ∪ others ∧ Owns h item ref first ∧
      OwnsItems h items rest others

def OwnsEntries (h : Heap) :
    List (String × Value) → List (String × Ref) → Finset ℕ → Prop
  | [], fields, owned => fields = [] ∧ owned = ∅
  | (key, value) :: entries, fields, owned => ∃ ref rest first others,
      fields = (key, ref) :: rest ∧ Disjoint first others ∧ owned = first ∪ others ∧
      Owns h value ref first ∧ OwnsEntries h entries rest others

end

/-- A heap that has grown, the same at every old address outside a set. -/
structure Frame (h : Heap) (touched : Finset ℕ) (h' : Heap) : Prop where
  grown : h.size ≤ h'.size
  same : ∀ a < h.size, a ∉ touched → h'.cell? a = h.cell? a

section Owns

variable {h h' : Heap}

theorem Frame.refl (h : Heap) (touched : Finset ℕ) : Frame h touched h :=
  ⟨le_rfl, fun _ _ _ => rfl⟩

theorem Frame.trans {h'' : Heap} {touched touched' : Finset ℕ} (hframe : Frame h touched h')
    (hframe' : Frame h' touched' h'')
    (hin : ∀ a ∈ touched', a < h.size → a ∈ touched) : Frame h touched h'' :=
  ⟨hframe.grown.trans hframe'.grown, fun a ha hnot =>
    (hframe'.same a (ha.trans_le hframe.grown) fun hmem => hnot (hin a hmem ha)).trans
      (hframe.same a ha hnot)⟩

theorem Frame.mono {touched touched' : Finset ℕ} (hframe : Frame h touched h')
    (hin : touched ⊆ touched') : Frame h touched' h' :=
  ⟨hframe.grown, fun a ha hnot => hframe.same a ha fun hmem => hnot (hin hmem)⟩

theorem Frame.alloc (h : Heap) (cell : Cell) (touched : Finset ℕ) :
    Frame h touched (h.alloc cell).2 :=
  ⟨by rw [size_alloc]; exact Nat.le_succ _, fun _ ha _ => cell?_alloc_of_lt cell ha⟩

theorem Frame.write (h : Heap) (a : ℕ) (cell : Cell) : Frame h {a} (h.write a cell) :=
  ⟨(size_write h a cell).ge, fun _ _ hnot =>
    cell?_write_of_ne fun heq => hnot (Finset.mem_singleton.mpr heq)⟩

mutual

theorem Owns.mono (value : Value) : ∀ {ref : Ref} {owned : Finset ℕ},
    (∀ a ∈ owned, h'.cell? a = h.cell? a) → Owns h value ref owned → Owns h' value ref owned :=
  match value with
  | .list items => fun hsame ⟨a, refs, inner, href, hcell, hnot, howned, hitems⟩ => by
      subst howned
      exact ⟨a, refs, inner, href, (hsame a (Finset.mem_insert_self a inner)).trans hcell, hnot,
        rfl, OwnsItems.mono items (fun b hb => hsame b (Finset.mem_insert_of_mem hb)) hitems⟩
  | .dict entries => fun hsame ⟨a, fields, inner, href, hcell, hnot, howned, hentries⟩ => by
      subst howned
      exact ⟨a, fields, inner, href, (hsame a (Finset.mem_insert_self a inner)).trans hcell, hnot,
        rfl, OwnsEntries.mono entries (fun b hb => hsame b (Finset.mem_insert_of_mem hb))
          hentries⟩
  | .none => fun _ howns => howns
  | .bool _ => fun _ howns => howns
  | .int _ => fun _ howns => howns
  | .float _ => fun _ howns => howns
  | .str _ => fun _ howns => howns
  | .surrogates _ => fun _ howns => howns
  | .foreign _ => fun _ howns => howns

theorem OwnsItems.mono (items : List Value) : ∀ {refs : List Ref} {owned : Finset ℕ},
    (∀ a ∈ owned, h'.cell? a = h.cell? a) → OwnsItems h items refs owned →
      OwnsItems h' items refs owned :=
  match items with
  | [] => fun _ howns => howns
  | item :: items => fun hsame ⟨ref, rest, first, others, hrefs, hdisj, howned, hitem, hrest⟩ => by
      subst howned
      exact ⟨ref, rest, first, others, hrefs, hdisj, rfl,
        Owns.mono item (fun b hb => hsame b (Finset.mem_union_left _ hb)) hitem,
        OwnsItems.mono items (fun b hb => hsame b (Finset.mem_union_right _ hb)) hrest⟩

theorem OwnsEntries.mono (entries : List (String × Value)) :
    ∀ {fields : List (String × Ref)} {owned : Finset ℕ},
      (∀ a ∈ owned, h'.cell? a = h.cell? a) → OwnsEntries h entries fields owned →
        OwnsEntries h' entries fields owned :=
  match entries with
  | [] => fun _ howns => howns
  | (_, value) :: entries =>
      fun hsame ⟨ref, rest, first, others, hfields, hdisj, howned, hvalue, hrest⟩ => by
      subst howned
      exact ⟨ref, rest, first, others, hfields, hdisj, rfl,
        Owns.mono value (fun b hb => hsame b (Finset.mem_union_left _ hb)) hvalue,
        OwnsEntries.mono entries (fun b hb => hsame b (Finset.mem_union_right _ hb)) hrest⟩

end

mutual

theorem Owns.reads (allowed : ℕ → Prop) (value : Value) : ∀ {ref : Ref} {owned : Finset ℕ},
    (∀ a ∈ owned, allowed a) → Owns h value ref owned →
      Spells h allowed value ref ∧ ∀ a ∈ owned, a < h.size :=
  match value with
  | .list items => fun hall ⟨a, refs, inner, href, hcell, _, howned, hitems⟩ => by
      subst howned
      rw [Finset.forall_mem_insert] at hall ⊢
      obtain ⟨hspells, hlt⟩ := OwnsItems.reads allowed items hall.2 hitems
      exact ⟨⟨a, refs, href, hall.1, hcell, hspells⟩, lt_size_of_cell? hcell, hlt⟩
  | .dict entries => fun hall ⟨a, fields, inner, href, hcell, _, howned, hentries⟩ => by
      subst howned
      rw [Finset.forall_mem_insert] at hall ⊢
      obtain ⟨hspells, hlt⟩ := OwnsEntries.reads allowed entries hall.2 hentries
      exact ⟨⟨a, fields, href, hall.1, hcell, hspells⟩, lt_size_of_cell? hcell, hlt⟩
  | .none => fun _ ⟨howned, href⟩ => ⟨href, by simp [howned]⟩
  | .bool _ => fun _ ⟨howned, href⟩ => ⟨href, by simp [howned]⟩
  | .int _ => fun _ ⟨howned, href⟩ => ⟨href, by simp [howned]⟩
  | .float _ => fun _ ⟨howned, href⟩ => ⟨href, by simp [howned]⟩
  | .str _ => fun _ ⟨howned, href⟩ => ⟨href, by simp [howned]⟩
  | .surrogates _ => fun _ ⟨howned, href⟩ => ⟨href, by simp [howned]⟩
  | .foreign _ => fun _ ⟨howned, href⟩ => ⟨href, by simp [howned]⟩

theorem OwnsItems.reads (allowed : ℕ → Prop) (items : List Value) :
    ∀ {refs : List Ref} {owned : Finset ℕ}, (∀ a ∈ owned, allowed a) →
      OwnsItems h items refs owned →
        SpellsItems h allowed items refs ∧ ∀ a ∈ owned, a < h.size :=
  match items with
  | [] => fun _ ⟨hrefs, howned⟩ => ⟨hrefs, by simp [howned]⟩
  | item :: items => fun hall ⟨ref, rest, first, others, hrefs, _, howned, hitem, hrest⟩ => by
      subst howned
      rw [Finset.forall_mem_union] at hall ⊢
      obtain ⟨hspells, hlt⟩ := Owns.reads allowed item hall.1 hitem
      obtain ⟨hspells', hlt'⟩ := OwnsItems.reads allowed items hall.2 hrest
      exact ⟨⟨ref, rest, hrefs, hspells, hspells'⟩, hlt, hlt'⟩

theorem OwnsEntries.reads (allowed : ℕ → Prop) (entries : List (String × Value)) :
    ∀ {fields : List (String × Ref)} {owned : Finset ℕ}, (∀ a ∈ owned, allowed a) →
      OwnsEntries h entries fields owned →
        SpellsEntries h allowed entries fields ∧ ∀ a ∈ owned, a < h.size :=
  match entries with
  | [] => fun _ ⟨hfields, howned⟩ => ⟨hfields, by simp [howned]⟩
  | (_, value) :: entries =>
      fun hall ⟨ref, rest, first, others, hfields, _, howned, hvalue, hrest⟩ => by
      subst howned
      rw [Finset.forall_mem_union] at hall ⊢
      obtain ⟨hspells, hlt⟩ := Owns.reads allowed value hall.1 hvalue
      obtain ⟨hspells', hlt'⟩ := OwnsEntries.reads allowed entries hall.2 hrest
      exact ⟨⟨ref, rest, hfields, hspells, hspells'⟩, hlt, hlt'⟩

end

theorem Owns.spells {allowed : ℕ → Prop} {value : Value} {ref : Ref} {owned : Finset ℕ}
    (howns : Owns h value ref owned) (hall : ∀ a ∈ owned, allowed a) :
    Spells h allowed value ref :=
  (Owns.reads allowed value hall howns).1

theorem Owns.lt_size {value : Value} {ref : Ref} {owned : Finset ℕ}
    (howns : Owns h value ref owned) {a : ℕ} (ha : a ∈ owned) : a < h.size :=
  (Owns.reads (fun _ => True) value (fun _ _ => trivial) howns).2 a ha

theorem OwnsItems.lt_size {items : List Value} {refs : List Ref} {owned : Finset ℕ}
    (howns : OwnsItems h items refs owned) {a : ℕ} (ha : a ∈ owned) : a < h.size :=
  (OwnsItems.reads (fun _ => True) items (fun _ _ => trivial) howns).2 a ha

theorem OwnsItems.append {items others : List Value} {refs refs' : List Ref}
    {owned owned' : Finset ℕ} (howns : OwnsItems h items refs owned)
    (howns' : OwnsItems h others refs' owned') (hdisj : Disjoint owned owned') :
    OwnsItems h (items ++ others) (refs ++ refs') (owned ∪ owned') := by
  induction items generalizing refs owned with
  | nil =>
      obtain ⟨rfl, rfl⟩ := howns
      rwa [List.nil_append, List.nil_append, Finset.empty_union]
  | cons item items ih =>
      obtain ⟨ref, rest, first, inner, rfl, hinner, rfl, hitem, hrest⟩ := howns
      rw [Finset.disjoint_union_left] at hdisj
      refine ⟨ref, rest ++ refs', first, inner ∪ owned', rfl, ?_, Finset.union_assoc _ _ _,
        hitem, ih hrest hdisj.2⟩
      exact Finset.disjoint_union_right.mpr ⟨hinner, hdisj.1⟩

theorem OwnsEntries.spells {allowed : ℕ → Prop} {entries : List (String × Value)}
    {fields : List (String × Ref)} {owned : Finset ℕ} (howns : OwnsEntries h entries fields owned)
    (hall : ∀ a ∈ owned, allowed a) : SpellsEntries h allowed entries fields :=
  (OwnsEntries.reads allowed entries hall howns).1

theorem OwnsEntries.lt_size {entries : List (String × Value)} {fields : List (String × Ref)}
    {owned : Finset ℕ} (howns : OwnsEntries h entries fields owned) {a : ℕ} (ha : a ∈ owned) :
    a < h.size :=
  (OwnsEntries.reads (fun _ => True) entries (fun _ _ => trivial) howns).2 a ha

theorem owns_scalar {value : Value} (hscalar : value.isContainer = false) {ref : Ref}
    {owned : Finset ℕ} :
    Owns h value ref owned ↔ owned = ∅ ∧ ref = .scalar ⟨value, hscalar⟩ := by
  cases value with
  | list items => cases hscalar
  | dict entries => cases hscalar
  | _ => exact ⟨fun ⟨howned, _, href⟩ => ⟨howned, href⟩, fun ⟨howned, href⟩ => ⟨howned, hscalar, href⟩⟩

/-- A reference under a key owns a part of what the dictionary owns; another one can stand
in its place. -/
theorem OwnsEntries.part {entries : List (String × Value)} {fields : List (String × Ref)}
    {owned : Finset ℕ} (howns : OwnsEntries h entries fields owned) (key : String) :
    ∃ old ⊆ owned,
      (Assoc.lookup entries key = none ∧ Assoc.lookup fields key = none ∨
        ∃ value ref, Assoc.lookup entries key = some value ∧
          Assoc.lookup fields key = some ref ∧ Owns h value ref old) ∧
      ∀ {h' : Heap} {value : Value} {ref : Ref} {first : Finset ℕ},
        (∀ a ∈ owned \ old, h'.cell? a = h.cell? a) → Owns h' value ref first →
        Disjoint first (owned \ old) →
          OwnsEntries h' (Assoc.upsert entries key value) (Assoc.upsert fields key ref)
            (first ∪ owned \ old) := by
  induction entries generalizing fields owned with
  | nil =>
      obtain ⟨rfl, rfl⟩ := howns
      refine ⟨∅, subset_rfl, .inl ⟨rfl, rfl⟩, fun {h' value ref first} _ hnew _ => ?_⟩
      exact ⟨ref, [], first, ∅, rfl, Finset.disjoint_empty_right _, by simp, hnew, rfl, rfl⟩
  | cons entry entries ih =>
      obtain ⟨k, v⟩ := entry
      obtain ⟨r, rest, mine, others, rfl, hdisj, rfl, hv, hrest⟩ := howns
      by_cases hk : k = key
      · have hothers : (mine ∪ others) \ mine = others := by
          rw [Finset.union_sdiff_cancel_left hdisj]
        refine ⟨mine, Finset.subset_union_left, .inr ⟨v, r, ?_, ?_, hv⟩, ?_⟩
        · rw [Assoc.lookup, if_pos hk]
        · rw [Assoc.lookup, if_pos hk]
        · intro h' value ref first hsame hnew hfirst
          rw [hothers] at hsame hfirst ⊢
          rw [Assoc.upsert, if_pos hk, Assoc.upsert, if_pos hk]
          exact ⟨ref, rest, first, others, rfl, hfirst, rfl, hnew,
            OwnsEntries.mono entries hsame hrest⟩
      · obtain ⟨old, hold, hlookup, hreplace⟩ := ih hrest
        have hmine : Disjoint mine old := hdisj.mono_right hold
        have hsplit : (mine ∪ others) \ old = mine ∪ others \ old := by
          rw [Finset.union_sdiff_distrib, Finset.sdiff_eq_self_of_disjoint hmine]
        refine ⟨old, hold.trans Finset.subset_union_right, ?_, ?_⟩
        · rw [Assoc.lookup, if_neg hk, Assoc.lookup, if_neg hk]
          exact hlookup
        · intro h' value ref first hsame hnew hfirst
          rw [hsplit] at hsame hfirst ⊢
          rw [Finset.disjoint_union_right] at hfirst
          rw [Assoc.upsert, if_neg hk, Assoc.upsert, if_neg hk]
          have hrest' := hreplace (fun a ha => hsame a (Finset.mem_union_right _ ha)) hnew
            hfirst.2
          refine ⟨r, _, mine, _, rfl, ?_, ?_, ?_, hrest'⟩
          · rw [Finset.disjoint_union_right]
            exact ⟨hfirst.1.symm, hdisj.mono_right Finset.sdiff_subset⟩
          · rw [Finset.union_left_comm]
          · exact Owns.mono v (fun a ha => hsame a (Finset.mem_union_left _ ha)) hv

theorem Frame.mono_owns {touched owned : Finset ℕ} {value : Value} {ref : Ref}
    (hframe : Frame h touched h') (howns : Owns h value ref owned)
    (hdisj : Disjoint owned touched) : Owns h' value ref owned :=
  Owns.mono value (fun a ha => hframe.same a (howns.lt_size ha)
    (Finset.disjoint_left.mp hdisj ha)) howns

theorem Frame.mono_ownsEntries {touched owned : Finset ℕ} {entries : List (String × Value)}
    {fields : List (String × Ref)} (hframe : Frame h touched h')
    (howns : OwnsEntries h entries fields owned) (hdisj : Disjoint owned touched) :
    OwnsEntries h' entries fields owned :=
  OwnsEntries.mono entries (fun a ha => hframe.same a (howns.lt_size ha)
    (Finset.disjoint_left.mp hdisj ha)) howns

theorem not_mem_of_lt {owned : Finset ℕ} (hlt : ∀ a ∈ owned, a < h.size) : h.size ∉ owned :=
  fun hmem => lt_irrefl _ (hlt _ hmem)

mutual

/-- What is built is owned, at new addresses. -/
theorem build_owns : ∀ (value : Value) (h : Heap), ∃ owned,
    Owns (build value h).2 value (build value h).1 owned ∧ (∀ a ∈ owned, h.size ≤ a) ∧
      Frame h ∅ (build value h).2
  | .list items, h => by
      obtain ⟨inner, howns, hnew, hframe⟩ := buildItems_owns items h
      refine ⟨insert (buildItems items h).2.size inner, ⟨_, _, inner, rfl,
        cell?_alloc_self _ _, not_mem_of_lt fun _ => howns.lt_size, rfl, ?_⟩, ?_, ?_⟩
      · exact OwnsItems.mono items (fun a ha => cell?_alloc_of_lt _ (howns.lt_size ha)) howns
      · rw [Finset.forall_mem_insert]
        exact ⟨hframe.grown, hnew⟩
      · exact hframe.trans (Frame.alloc _ _ ∅) fun _ ha _ => ha
  | .dict entries, h => by
      obtain ⟨inner, howns, hnew, hframe⟩ := buildEntries_owns entries h
      refine ⟨insert (buildEntries entries h).2.size inner, ⟨_, _, inner, rfl,
        cell?_alloc_self _ _, not_mem_of_lt fun _ => howns.lt_size, rfl, ?_⟩, ?_, ?_⟩
      · exact (Frame.alloc _ _ ∅).mono_ownsEntries howns (Finset.disjoint_empty_right _)
      · rw [Finset.forall_mem_insert]
        exact ⟨hframe.grown, hnew⟩
      · exact hframe.trans (Frame.alloc _ _ ∅) fun _ ha _ => ha
  | .none, h => ⟨∅, ⟨rfl, rfl, rfl⟩, by simp, Frame.refl h ∅⟩
  | .bool _, h => ⟨∅, ⟨rfl, rfl, rfl⟩, by simp, Frame.refl h ∅⟩
  | .int _, h => ⟨∅, ⟨rfl, rfl, rfl⟩, by simp, Frame.refl h ∅⟩
  | .float _, h => ⟨∅, ⟨rfl, rfl, rfl⟩, by simp, Frame.refl h ∅⟩
  | .str _, h => ⟨∅, ⟨rfl, rfl, rfl⟩, by simp, Frame.refl h ∅⟩
  | .surrogates _, h => ⟨∅, ⟨rfl, rfl, rfl⟩, by simp, Frame.refl h ∅⟩
  | .foreign _, h => ⟨∅, ⟨rfl, rfl, rfl⟩, by simp, Frame.refl h ∅⟩

theorem buildItems_owns : ∀ (items : List Value) (h : Heap), ∃ owned,
    OwnsItems (buildItems items h).2 items (buildItems items h).1 owned ∧
      (∀ a ∈ owned, h.size ≤ a) ∧ Frame h ∅ (buildItems items h).2
  | [], h => ⟨∅, ⟨rfl, rfl⟩, by simp, Frame.refl h ∅⟩
  | item :: items, h => by
      obtain ⟨first, hitem, hnew, hframe⟩ := build_owns item h
      obtain ⟨others, hrest, hnew', hframe'⟩ := buildItems_owns items (build item h).2
      refine ⟨first ∪ others, ⟨_, _, first, others, rfl, ?_, rfl,
        hframe'.mono_owns hitem (Finset.disjoint_empty_right _), hrest⟩, ?_,
        hframe.trans hframe' fun _ ha _ => ha⟩
      · exact Finset.disjoint_left.mpr fun a ha ha' =>
          absurd (hitem.lt_size ha) (not_lt.mpr (hnew' a ha'))
      · rw [Finset.forall_mem_union]
        exact ⟨hnew, fun a ha => hframe.grown.trans (hnew' a ha)⟩

theorem buildEntries_owns : ∀ (entries : List (String × Value)) (h : Heap), ∃ owned,
    OwnsEntries (buildEntries entries h).2 entries (buildEntries entries h).1 owned ∧
      (∀ a ∈ owned, h.size ≤ a) ∧ Frame h ∅ (buildEntries entries h).2
  | [], h => ⟨∅, ⟨rfl, rfl⟩, by simp, Frame.refl h ∅⟩
  | (_, value) :: entries, h => by
      obtain ⟨first, hvalue, hnew, hframe⟩ := build_owns value h
      obtain ⟨others, hrest, hnew', hframe'⟩ := buildEntries_owns entries (build value h).2
      refine ⟨first ∪ others, ⟨_, _, first, others, rfl, ?_, rfl,
        hframe'.mono_owns hvalue (Finset.disjoint_empty_right _), hrest⟩, ?_,
        hframe.trans hframe' fun _ ha _ => ha⟩
      · exact Finset.disjoint_left.mpr fun a ha ha' =>
          absurd (hvalue.lt_size ha) (not_lt.mpr (hnew' a ha'))
      · rw [Finset.forall_mem_union]
        exact ⟨hnew, fun a ha => hframe.grown.trans (hnew' a ha)⟩

end

end Owns

end Heap

end Pollard
