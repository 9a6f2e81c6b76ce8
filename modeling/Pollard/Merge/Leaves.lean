import Pollard.Lib.Fallible
import Pollard.Merge.Meta

/-!
# What merged metadata keeps

A leaf of incoming metadata is taken over, united with a list, recorded as a conflict, or
found in the destination.  It is lost only where Python takes two values for equal that
are different JSON.
-/

namespace Pollard.Merge

open Lib Lib.Fallible
open Value (SameJson)

/-! ## Leaves -/

/-- The value at a path of keys. -/
def at? : Value → List String → Option Value
  | value, [] => some value
  | value, key :: path => (value.get? key).bind fun value => at? value path

/-- A scalar at a path, or an item of the list there. -/
inductive IsLeaf (value : Value) (path : List String) (leaf : Value) : Prop
  | scalar (h : at? value path = some leaf) (hdict : ∀ entries, leaf ≠ .dict entries)
      (hlist : ∀ items, leaf ≠ .list items)
  | item (items : List Value) (h : at? value path = some (.list items)) (hmem : leaf ∈ items)

/-- The same JSON is at a path, or is an item of the list there. -/
inductive Shows (value : Value) (path : List String) (leaf : Value) : Prop
  | value (found : Value) (h : at? value path = some found) (hsame : SameJson found leaf)
  | item (items : List Value) (item : Value) (h : at? value path = some (.list items))
      (hmem : item ∈ items) (hsame : SameJson item leaf)

/-- A conflict is recorded, at the path or above it, that has the leaf among its values. -/
def Recorded (conflicts : List Value) (path : List String) (leaf : Value) : Prop :=
  ∃ c ∈ conflicts, ∃ above below values, path = above ++ below ∧
    c.get? "path" = some (.str (".".intercalate above)) ∧
    c.get? "values" = some (.list values) ∧ ∃ value ∈ values, Shows value below leaf

theorem IsLeaf.shows {value : Value} {path : List String} {leaf : Value}
    (h : IsLeaf value path leaf) : Shows value path leaf := by
  cases h with
  | scalar h => exact .value leaf h (.refl leaf)
  | item items h hmem => exact .item items leaf h hmem (.refl leaf)

theorem at?_sameJson {a b v : Value} (hsame : SameJson a b) {path : List String}
    (h : at? a path = some v) : ∃ w, at? b path = some w ∧ SameJson v w := by
  induction path generalizing a b with
  | nil =>
      cases h
      exact ⟨b, rfl, hsame⟩
  | cons key path ih =>
      rw [at?] at h
      cases hentry : a.get? key with
      | none =>
          rw [hentry] at h
          cases h
      | some entry =>
          rw [hentry] at h
          obtain ⟨other, hother, hentries⟩ := hsame.get? hentry
          rw [at?, hother]
          exact ih hentries h

theorem Shows.sameJson {a b leaf : Value} {path : List String} (h : Shows a path leaf)
    (hsame : SameJson a b) : Shows b path leaf := by
  cases h with
  | value found h hfound =>
      obtain ⟨other, hother, hvalues⟩ := at?_sameJson hsame h
      exact .value other hother (hvalues.symm.trans hfound)
  | item items item h hmem hitem =>
      obtain ⟨other, hother, hvalues⟩ := at?_sameJson hsame h
      obtain ⟨others, rfl, hitems⟩ := hvalues.list
      obtain ⟨same, hmem', hsame'⟩ := SameJson.mem hitems hmem
      exact .item others same hother hmem' (hsame'.symm.trans hitem)

theorem Shows.cons {value entry leaf : Value} {key : String} {path : List String}
    (hentry : value.get? key = some entry) (h : Shows entry path leaf) :
    Shows value (key :: path) leaf := by
  have hat : at? value (key :: path) = at? entry path := by rw [at?, hentry]; rfl
  cases h with
  | value found h hfound => exact .value found (hat.trans h) hfound
  | item items item h hmem hitem => exact .item items item (hat.trans h) hmem hitem

theorem IsLeaf.entry {value leaf : Value} {key : String} {path : List String}
    (h : IsLeaf value (key :: path) leaf) :
    ∃ entry, value.get? key = some entry ∧ IsLeaf entry path leaf := by
  cases hentry : value.get? key with
  | none =>
      have hat : at? value (key :: path) = none := by rw [at?, hentry]; rfl
      cases h with
      | scalar h => rw [hat] at h; cases h
      | item items h => rw [hat] at h; cases h
  | some entry =>
      have hat : at? value (key :: path) = at? entry path := by rw [at?, hentry]; rfl
      refine ⟨entry, rfl, ?_⟩
      cases h with
      | scalar h hdict hlist => exact .scalar (hat ▸ h) hdict hlist
      | item items h hmem => exact .item items (hat ▸ h) hmem

/-- Conflicts that are the same JSON record the same. -/
theorem Recorded.of_covered {conflicts others : List Value} {path : List String} {leaf : Value}
    (h : Recorded conflicts path leaf)
    (hcovered : ∀ c ∈ conflicts, ∃ other ∈ others, SameJson c other) :
    Recorded others path leaf := by
  obtain ⟨c, hc, above, below, values, hpath, hcpath, hvalues, value, hvalue, hshows⟩ := h
  obtain ⟨other, hother, hsame⟩ := hcovered c hc
  obtain ⟨text, htext, hsameText⟩ := hsame.get? hcpath
  obtain ⟨list, hlist, hsameValues⟩ := hsame.get? hvalues
  obtain ⟨values', rfl, hitems⟩ := hsameValues.list
  obtain ⟨value', hvalue', hsame'⟩ := SameJson.mem hitems hvalue
  exact ⟨other, hother, above, below, values', hpath, by rw [htext, hsameText.str], hlist, value',
    hvalue', hshows.sameJson hsame'⟩

/-- A recorded conflict shows the incoming value. -/
theorem recorded_conflict {existing incoming leaf : Value} (above : List String)
    {below : List String} (h : Shows incoming below leaf) :
    Recorded [conflict above existing incoming] (above ++ below) leaf :=
  ⟨_, List.mem_singleton_self _, above, below, _, rfl, rfl, rfl, incoming,
    mem_unionJsonLists_singleton _ _, h⟩

/-! ## Values Python takes for equal -/

/-- Python takes the values for equal only if they are the same JSON. -/
def Distinct (a b : Value) : Prop := a.pyEq b = true → SameJson a b

/-- The merge compares the values, which are at a path of the existing and the incoming
value. -/
inductive Meets : Value → Value → List String → Value → Value → Prop
  | here (existing incoming : Value) : Meets existing incoming [] existing incoming
  | entry {existing incoming current value a b : Value} {key : String} {path : List String}
      (hne : ¬ existing.pyEq incoming = true) (hcurrent : existing.get? key = some current)
      (hvalue : incoming.get? key = some value) (h : Meets current value path a b) :
      Meets existing incoming (key :: path) a b

/-- A list that takes in another one without losing an item to one that Python takes for
equal: it repeats no item, or the items of the lists are distinct from each other. -/
def TakesIn (old new : List Value) : Prop :=
  (old.map Value.canonical).Nodup ∨ ∀ a ∈ old, ∀ b ∈ new, Distinct a b

/-- A union that Python takes for the list it started from shows nothing new. -/
theorem TakesIn.covered {old new : List Value} (h : TakesIn old new)
    (hsame : List.Forall₂ (fun a b => Value.pyEq a b = true) (unionJsonLists old new) old)
    {value : Value} (hvalue : value ∈ new) : ∃ other ∈ old, SameJson value other := by
  obtain ⟨united, hunited, hvalue'⟩ := exists_mem_unionJsonLists (.inr hvalue : value ∈ old ∨ _)
  rcases h with hnodup | hdistinct
  · have hcovers : old.map Value.canonical ⊆ (unionJsonLists old new).map Value.canonical := by
      intro text htext
      obtain ⟨item, hitem, rfl⟩ := List.mem_map.mp htext
      obtain ⟨other, hother, hsame'⟩ :=
        exists_mem_unionJsonLists (.inl hitem : item ∈ old ∨ item ∈ new)
      exact List.mem_map.mpr ⟨other, hother, hsame'.symm⟩
    have hperm := (List.subperm_of_subset hnodup hcovers).perm_of_length_le (by
      rw [List.length_map, List.length_map, hsame.length_eq])
    obtain ⟨other, hother, heq⟩ := List.mem_map.mp
      (hperm.mem_iff.mpr (List.mem_map_of_mem hunited))
    exact ⟨other, hother, hvalue'.trans heq.symm⟩
  · rcases mem_of_mem_unionJsonLists hunited with hold | hnew
    · exact ⟨united, hold, hvalue'⟩
    · obtain ⟨other, hother, heq⟩ := exists_of_forall₂ hsame hunited
      exact ⟨other, hother,
        hvalue'.trans (hdistinct other hother united hnew (Value.pyEq_symm heq)).symm⟩

end Pollard.Merge
