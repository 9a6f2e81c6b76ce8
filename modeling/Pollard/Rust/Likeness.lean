import Pollard.Rust.Texts

/-!
# Likeness of values in Rust

Values whose objects have distinct keys are alike if their objects have alike values under each
key, whatever the order of the keys.
-/

namespace Pollard.Rust

open Lib Fallible

namespace Json

mutual

/-- Objects have distinct keys. -/
def distinct : Json → Bool
  | .array items => distinctItems items
  | .object entries => (Assoc.keys entries).Nodup ∧ distinctEntries entries
  | _ => true

def distinctItems : List Json → Bool
  | [] => true
  | item :: items => distinct item && distinctItems items

def distinctEntries : List (String × Json) → Bool
  | [] => true
  | (_, value) :: entries => distinct value && distinctEntries entries

end

theorem distinctItems_iff {items : List Json} :
    distinctItems items = true ↔ ∀ item ∈ items, item.distinct = true := by
  induction items with
  | nil => simp [distinctItems]
  | cons item items ih => rw [distinctItems, Bool.and_eq_true, ih, List.forall_mem_cons]

theorem distinctEntries_iff {entries : List (String × Json)} :
    distinctEntries entries = true ↔ ∀ e ∈ entries, e.2.distinct = true := by
  induction entries with
  | nil => simp [distinctEntries]
  | cons e entries ih => rw [distinctEntries, Bool.and_eq_true, ih, List.forall_mem_cons]

theorem distinct_object_iff {entries : List (String × Json)} :
    (object entries).distinct = true ↔
      (Assoc.keys entries).Nodup ∧ ∀ e ∈ entries, e.2.distinct = true := by
  rw [distinct, decide_eq_true_eq, distinctEntries_iff]

/-! ## Objects -/

section Alike

variable {same : String → String → Bool}

/-- Objects are alike if what they have under each key is. -/
theorem equalWith_object_iff {entries others : List (String × Json)}
    (hentries : (Assoc.keys entries).Nodup) (hothers : (Assoc.keys others).Nodup) :
    equalWith same (.object entries) (.object others) = true ↔
      ∀ key, AlikeAt same (Assoc.lookup entries key) (Assoc.lookup others key) := by
  rw [equalWith, Bool.and_eq_true, equalEntries_iff_forall, decide_eq_true_eq]
  constructor
  · rintro ⟨hlength, hall⟩ key
    have hsubset : Assoc.keys entries ⊆ Assoc.keys others := by
      intro k hk
      obtain ⟨e, he, rfl⟩ := List.mem_map.mp hk
      have hat := hall e he
      cases hother : Assoc.lookup others e.1 with
      | none => rw [hother] at hat; exact hat.elim
      | some other => exact Assoc.mem_keys_of_lookup hother
    have hperm : (Assoc.keys entries).Perm (Assoc.keys others) :=
      (List.subperm_of_subset hentries hsubset).perm_of_length_le (by
        rw [Assoc.keys, Assoc.keys, List.length_map, List.length_map]
        exact le_of_eq hlength.symm)
    cases hvalue : Assoc.lookup entries key with
    | some value => exact hall (key, value) (Assoc.mem_of_lookup hvalue)
    | none =>
        have hkey : key ∉ Assoc.keys others := fun h =>
          Assoc.lookup_eq_none_iff.mp hvalue (hperm.mem_iff.mpr h)
        rw [Assoc.lookup_eq_none_iff.mpr hkey]
        trivial
  · intro h
    have hmem (key : String) : key ∈ Assoc.keys entries ↔ key ∈ Assoc.keys others := by
      rw [← not_iff_not, ← Assoc.lookup_eq_none_iff, ← Assoc.lookup_eq_none_iff]
      have hat := h key
      cases hleft : Assoc.lookup entries key <;> cases hright : Assoc.lookup others key <;>
        simp_all [AlikeAt]
    have hperm : (Assoc.keys entries).Perm (Assoc.keys others) :=
      (List.perm_ext_iff_of_nodup hentries hothers).mpr hmem
    refine ⟨?_, fun e he => ?_⟩
    · simpa [Assoc.keys] using hperm.length_eq
    · have hat := h e.1
      rwa [Assoc.lookup_of_mem hentries he] at hat

theorem AlikeAt.or {a a' b b' : Option Json} (h : AlikeAt same a b) (h' : AlikeAt same a' b') :
    AlikeAt same (a.or a') (b.or b') := by
  cases a <;> cases b <;> first | exact h' | exact h.elim | exact h

theorem alikeAt_get? {a b : Json} (ha : a.distinct = true) (hb : b.distinct = true)
    (h : equalWith same a b = true) (key : String) : AlikeAt same (a.get? key) (b.get? key) := by
  cases a with
  | object entries =>
      cases b with
      | object others =>
          exact (equalWith_object_iff (distinct_object_iff.mp ha).1
            (distinct_object_iff.mp hb).1).mp h key
      | _ => cases h
  | _ => cases b <;> trivial

/-- Objects are alike if `get?` finds alike values in them. -/
theorem equalWith_of_get? {a b : Json} (ha : a.distinct = true) (hb : b.distinct = true)
    (hobject : a.isObject = true) (hobject' : b.isObject = true)
    (h : ∀ key, AlikeAt same (a.get? key) (b.get? key)) : equalWith same a b = true := by
  cases a with
  | object entries =>
      cases b with
      | object others =>
          exact (equalWith_object_iff (distinct_object_iff.mp ha).1
            (distinct_object_iff.mp hb).1).mpr h
      | _ => cases hobject'
  | _ => cases hobject

theorem distinct_of_get? {value found : Json} {key : String} (h : value.distinct = true)
    (hfound : value.get? key = some found) : found.distinct = true := by
  cases value with
  | object entries => exact (distinct_object_iff.mp h).2 _ (Assoc.mem_of_lookup hfound)
  | _ => cases hfound

/-! ## Changed objects -/

@[simp] theorem isObject_insert (value : Json) (key : String) (new : Json) :
    (value.insert key new).isObject = value.isObject := by cases value <;> rfl

theorem get?_insert {value : Json} (hobject : value.isObject = true) (key : String) (new : Json)
    (other : String) :
    (value.insert key new).get? other = if key = other then some new else value.get? other := by
  cases value with
  | object entries => exact Assoc.lookup_upsert entries key new other
  | _ => cases hobject

theorem distinct_insert {value new : Json} (h : value.distinct = true) (hnew : new.distinct = true)
    (key : String) : (value.insert key new).distinct = true := by
  cases value with
  | object entries =>
      obtain ⟨hnodup, hvalues⟩ := distinct_object_iff.mp h
      refine distinct_object_iff.mpr ⟨Assoc.nodup_keys_upsert hnodup _ _, fun e he => ?_⟩
      rcases Assoc.mem_of_mem_upsert he with rfl | he
      · exact hnew
      · exact hvalues e he
  | _ => exact h

@[simp] theorem isObject_extend (value : Json) (patch : List (String × Json)) :
    (value.extend patch).isObject = value.isObject := by
  induction patch generalizing value with
  | nil => rfl
  | cons e patch ih => exact (ih (value.insert e.1 e.2)).trans (isObject_insert ..)

theorem get?_extend {value : Json} (hobject : value.isObject = true)
    {patch : List (String × Json)} (hnodup : (Assoc.keys patch).Nodup) (key : String) :
    (value.extend patch).get? key = (Assoc.lookup patch key).or (value.get? key) := by
  induction patch generalizing value with
  | nil => rfl
  | cons e patch ih =>
      rw [Assoc.keys, List.map_cons, List.nodup_cons] at hnodup
      have hobject' : (value.insert e.1 e.2).isObject = true := by rw [isObject_insert, hobject]
      have hrest := ih hobject' hnodup.2
      rw [get?_insert hobject] at hrest
      refine hrest.trans ?_
      rw [Assoc.lookup]
      split
      · next heq =>
          rw [Assoc.lookup_eq_none_iff.mpr (heq ▸ hnodup.1)]
          rfl
      · rfl

theorem distinct_extend {value : Json} {patch : List (String × Json)} (h : value.distinct = true)
    (hpatch : ∀ e ∈ patch, e.2.distinct = true) : (value.extend patch).distinct = true := by
  induction patch generalizing value with
  | nil => exact h
  | cons e patch ih =>
      rw [List.forall_mem_cons] at hpatch
      exact ih (distinct_insert h hpatch.1 e.1) hpatch.2

/-! ## Likeness both ways -/

theorem equalWith_symm (hsame : ∀ a b, same a b = true → same b a = true) {a b : Json}
    (ha : a.distinct = true) (hb : b.distinct = true) (h : equalWith same a b = true) :
    equalWith same b a = true := by
  induction a using induct generalizing b with
  | null | bool _ | string _ => cases b <;> simp_all [equalWith]
  | number text =>
      cases b with
      | number other => exact hsame _ _ h
      | _ => cases h
  | array items ih =>
      cases b with
      | array others =>
          rw [distinct, distinctItems_iff] at ha hb
          rw [equalWith, equalItems_iff_forall₂] at h ⊢
          exact (forall₂_imp_of_mem_both h fun item hitem other hother =>
            ih item hitem (ha item hitem) (hb other hother)).flip
      | _ => cases h
  | object entries ih =>
      cases b with
      | object others =>
          obtain ⟨hnodup, hvalues⟩ := distinct_object_iff.mp ha
          obtain ⟨hnodup', hvalues'⟩ := distinct_object_iff.mp hb
          rw [equalWith_object_iff hnodup hnodup'] at h
          rw [equalWith_object_iff hnodup' hnodup]
          intro key
          have hat := h key
          cases hleft : Assoc.lookup entries key with
          | none => cases hright : Assoc.lookup others key <;> simp_all [AlikeAt]
          | some value =>
              rw [hleft] at hat
              obtain ⟨other, hother, hequal⟩ := hat.exists_right
              rw [hother]
              exact ih _ (Assoc.mem_of_lookup hleft) (hvalues _ (Assoc.mem_of_lookup hleft))
                (hvalues' _ (Assoc.mem_of_lookup hother)) hequal
      | _ => cases h

/-- What is like something is like itself. -/
theorem equalWith_refl (hsame : ∀ a b, same a b = true → same a a = true) {a b : Json}
    (ha : a.distinct = true) (h : equalWith same a b = true) : equalWith same a a = true := by
  induction a using induct generalizing b with
  | null => rfl
  | bool _ | string _ => simp [equalWith]
  | number text =>
      cases b with
      | number other => exact hsame _ _ h
      | _ => cases h
  | array items ih =>
      cases b with
      | array others =>
          rw [distinct, distinctItems_iff] at ha
          rw [equalWith, equalItems_iff_forall₂] at h ⊢
          refine List.forall₂_same.mpr fun item hitem => ?_
          obtain ⟨other, -, hequal⟩ := exists_of_forall₂ h hitem
          exact ih item hitem (ha item hitem) hequal
      | _ => cases h
  | object entries ih =>
      cases b with
      | object others =>
          obtain ⟨hnodup, hvalues⟩ := distinct_object_iff.mp ha
          rw [equalWith, Bool.and_eq_true, equalEntries_iff_forall] at h
          rw [equalWith_object_iff hnodup hnodup]
          intro key
          cases hvalue : Assoc.lookup entries key with
          | none => trivial
          | some value =>
              have hmem := Assoc.mem_of_lookup hvalue
              obtain ⟨other, -, hequal⟩ := (h.2 _ hmem).exists_right
              exact ih _ hmem (hvalues _ hmem) hequal
      | _ => cases h

end Alike

end Json

/-! ## Texts of results -/

/-- The text of a float spells a float with its bits, and what is parsed has distinct keys. -/
structure Library.Lawful (lib : Library) : Prop where
  float : ∀ {text bits}, lib.bits text = some bits →
    lib.bits (lib.floatText bits) = some bits ∧ Json.integerText (lib.floatText bits) = none
  parsed : ∀ {text value}, lib.fromStr text = some value → value.distinct = true

namespace Json

section Library

variable {lib : Library}

theorem sameNumber_symm (a b : String) (h : sameNumber lib a b = true) :
    sameNumber lib b a = true := by
  unfold sameNumber at h ⊢
  cases ha : integerText a <;> cases hb : integerText b <;> simp only [ha, hb] at h ⊢
  · cases hbits : lib.bits a <;> cases hbits' : lib.bits b <;> simp_all
  · cases h
  · cases h
  · simpa [eq_comm] using h

theorem sameNumber_refl (a b : String) (h : sameNumber lib a b = true) :
    sameNumber lib a a = true := by
  unfold sameNumber at h ⊢
  cases ha : integerText a with
  | some integer => simp
  | none =>
      cases hb : integerText b with
      | some other => simp [ha, hb] at h
      | none =>
          simp only [ha, hb] at h
          cases hbits : lib.bits a <;> simp_all

theorem resultValuesEqual_symm {a b : Json} (ha : a.distinct = true) (hb : b.distinct = true)
    (h : a.resultValuesEqual lib b = true) : b.resultValuesEqual lib a = true :=
  equalWith_symm sameNumber_symm ha hb h

theorem resultValuesEqual_refl {a b : Json} (ha : a.distinct = true)
    (h : a.resultValuesEqual lib b = true) : a.resultValuesEqual lib a = true :=
  equalWith_refl sameNumber_refl ha h

theorem spelledItems_eq_map (items : List Json) :
    spelledItems lib items = items.map (spelled lib) := by
  induction items with
  | nil => rfl
  | cons item items ih => rw [spelledItems, ih, List.map_cons]

theorem spelledEntries_eq_map (entries : List (String × Json)) :
    spelledEntries lib entries = entries.map fun e => (e.1, e.2.spelled lib) := by
  induction entries with
  | nil => rfl
  | cons e entries ih => rw [spelledEntries, ih, List.map_cons]

theorem validateFiniteItems_ok_iff {items : List Json} :
    validateFiniteItems lib items = .ok () ↔
      ∀ item ∈ items, item.validateFiniteJson lib = .ok () := by
  induction items with
  | nil => simp [validateFiniteItems]
  | cons item items ih =>
      rw [validateFiniteItems, List.forall_mem_cons, ← ih]
      exact bind_ok_iff.trans ⟨fun ⟨_, h⟩ => h, fun h => ⟨(), h⟩⟩

theorem validateFiniteEntries_ok_iff {entries : List (String × Json)} :
    validateFiniteEntries lib entries = .ok () ↔
      ∀ e ∈ entries, e.2.validateFiniteJson lib = .ok () := by
  induction entries with
  | nil => simp [validateFiniteEntries]
  | cons e entries ih =>
      rw [validateFiniteEntries, List.forall_mem_cons, ← ih]
      exact bind_ok_iff.trans ⟨fun ⟨_, h⟩ => h, fun h => ⟨(), h⟩⟩

/-- What the text of a value spells. -/
structure Spells (lib : Library) (value read : Json) : Prop where
  distinct : read.distinct = true
  alike : read.resultValuesEqual lib value = true
  finite : read.validateFiniteJson lib = .ok ()
  isObject : read.isObject = value.isObject

theorem integerText_idem {text integer : String} (h : integerText text = some integer) :
    integerText integer = some integer := by
  have hunfold (text : String) : integerText text =
      if unsigned text = [] ∨ (unsigned text).all Char.isDigit = false then none
      else if text = "-0" then some "0" else some text := rfl
  rw [hunfold] at h
  split at h
  · cases h
  · next hdigits =>
      split at h
      · cases h
        decide
      · next hzero =>
          cases h
          rw [hunfold, if_neg hdigits, if_neg hzero]

theorem keys_of_spelled {entries : List (String × Except Error Json)}
    {reads : List (String × Json)}
    (h : List.Forall₂ (fun e read => e.2.map (e.1, ·) = .ok read) entries reads) :
    Assoc.keys reads = Assoc.keys entries := by
  induction h with
  | nil => rfl
  | cons hfirst _ ih =>
      obtain ⟨value, -, rfl⟩ := map_ok_iff.mp hfirst
      exact congrArg (_ :: ·) ih

/-- The entries of an object are spelled under their keys, in some order. -/
theorem spelled_object {entries : List (String × Json)} {read : Json}
    (h : (object entries).spelled lib = .ok read) :
    ∃ reads, read = .object reads ∧ (Assoc.keys reads).Perm (Assoc.keys entries) ∧
      ∀ key value, (key, value) ∈ reads ↔
        ∃ own, (key, own) ∈ entries ∧ own.spelled lib = .ok value := by
  rw [spelled, spelledEntries_eq_map] at h
  obtain ⟨reads, hreads, h⟩ := bind_ok_iff.mp h
  cases h
  rw [mapM_ok_iff] at hreads
  have hmem (e : String × Except Error Json) :
      e ∈ ((entries.map fun e => (e.1, e.2.spelled lib)).insertionSort fun a b => a.1 ≤ b.1) ↔
        ∃ entry ∈ entries, (entry.1, entry.2.spelled lib) = e :=
    (List.mem_insertionSort _).trans List.mem_map
  have hperm : (Assoc.keys reads).Perm (Assoc.keys entries) := by
    rw [keys_of_spelled hreads]
    refine ((List.perm_insertionSort _ _).map Prod.fst).trans ?_
    rw [List.map_map]
    exact .refl _
  refine ⟨reads, rfl, hperm, fun key value => ⟨fun hread => ?_, fun ⟨own, hown, hspelled⟩ => ?_⟩⟩
  · obtain ⟨e, he, hspelled⟩ := exists_left_of_forall₂ hreads hread
    obtain ⟨entry, hentry, rfl⟩ := (hmem e).mp he
    obtain ⟨found, hfound, heq⟩ := map_ok_iff.mp hspelled
    cases heq
    exact ⟨entry.2, hentry, hfound⟩
  · obtain ⟨read, hread, hmap⟩ := exists_of_forall₂ hreads ((hmem _).mpr ⟨(key, own), hown, rfl⟩)
    obtain ⟨found, hfound, rfl⟩ := map_ok_iff.mp hmap
    rw [hspelled] at hfound
    cases hfound
    exact hread

theorem distinct_of_spelled {value read : Json} (hdistinct : value.distinct = true)
    (h : value.spelled lib = .ok read) : read.distinct = true := by
  induction value using induct generalizing read with
  | null | bool _ | string _ =>
      cases h
      rfl
  | number text =>
      rw [spelled] at h
      split at h
      · cases h
        rfl
      · split at h
        · cases h
          rfl
        · cases h
  | array items ih =>
      rw [spelled, spelledItems_eq_map] at h
      obtain ⟨reads, hreads, h⟩ := bind_ok_iff.mp h
      cases h
      rw [mapM_ok_iff, List.forall₂_map_left_iff] at hreads
      rw [distinct, distinctItems_iff] at hdistinct ⊢
      intro read hread
      obtain ⟨item, hitem, hspelled⟩ := exists_left_of_forall₂ hreads hread
      exact ih item hitem (hdistinct item hitem) hspelled
  | object entries ih =>
      obtain ⟨hnodup, hvalues⟩ := distinct_object_iff.mp hdistinct
      obtain ⟨reads, rfl, hperm, hmem⟩ := spelled_object h
      refine distinct_object_iff.mpr ⟨hperm.nodup_iff.mpr hnodup, fun e he => ?_⟩
      obtain ⟨own, hown, hspelled⟩ := (hmem e.1 e.2).mp he
      exact ih _ hown (hvalues _ hown) hspelled

/-- What an object has under a key is spelled under it. -/
theorem get?_of_spelled {value read found : Json} {key : String}
    (hdistinct : value.distinct = true) (h : value.spelled lib = .ok read)
    (hfound : value.get? key = some found) :
    ∃ spelled, found.spelled lib = .ok spelled ∧ read.get? key = some spelled := by
  have hread := distinct_of_spelled hdistinct h
  cases value with
  | object entries =>
      obtain ⟨hnodup, -⟩ := distinct_object_iff.mp hdistinct
      obtain ⟨reads, rfl, hperm, hmem⟩ := spelled_object h
      have hentry := Assoc.mem_of_lookup hfound
      have hkey : key ∈ Assoc.keys reads :=
        hperm.mem_iff.mpr (List.mem_map_of_mem (f := Prod.fst) hentry)
      obtain ⟨e, he, rfl⟩ := List.mem_map.mp hkey
      obtain ⟨own, hown, hspelled⟩ := (hmem e.1 e.2).mp he
      have hsame := Assoc.lookup_of_mem hnodup hown
      rw [show Assoc.lookup entries e.1 = some found from hfound, Option.some.injEq] at hsame
      exact ⟨e.2, hsame ▸ hspelled, Assoc.lookup_of_mem (distinct_object_iff.mp hread).1 he⟩
  | _ => cases hfound

theorem spells_of_spelled (hlaw : lib.Lawful) {value read : Json}
    (hdistinct : value.distinct = true) (h : value.spelled lib = .ok read) :
    Spells lib value read := by
  have hread := distinct_of_spelled hdistinct h
  induction value using induct generalizing read with
  | null | bool _ | string _ =>
      cases h
      exact ⟨rfl, by simp [resultValuesEqual, equalWith], rfl, rfl⟩
  | number text =>
      rw [spelled] at h
      cases hinteger : integerText text with
      | some integer =>
          rw [hinteger] at h
          cases h
          refine ⟨rfl, ?_, ?_, rfl⟩
          · simp [resultValuesEqual, equalWith, sameNumber, integerText_idem hinteger, hinteger]
          · simp [validateFiniteJson, integerText_idem hinteger]
      | none =>
          cases hbits : lib.bits text with
          | none =>
              simp only [hinteger, hbits] at h
              cases h
          | some bits =>
              simp only [hinteger, hbits] at h
              cases h
              obtain ⟨hfloat, hnone⟩ := hlaw.float hbits
              refine ⟨rfl, ?_, ?_, rfl⟩
              · simp [resultValuesEqual, equalWith, sameNumber, hinteger, hnone, hfloat, hbits]
              · simp [validateFiniteJson, hnone, hfloat]
  | array items ih =>
      rw [spelled, spelledItems_eq_map] at h
      obtain ⟨reads, hreads, h⟩ := bind_ok_iff.mp h
      cases h
      rw [mapM_ok_iff, List.forall₂_map_left_iff] at hreads
      rw [distinct, distinctItems_iff] at hdistinct
      have hall : List.Forall₂ (Spells lib) items reads :=
        forall₂_imp_of_mem hreads fun item hitem read hread =>
          ih item hitem (hdistinct item hitem) hread
            (distinct_of_spelled (hdistinct item hitem) hread)
      refine ⟨hread, ?_, ?_, rfl⟩
      · rw [resultValuesEqual, equalWith, equalItems_iff_forall₂]
        exact (hall.imp fun _ _ h => h.alike).flip
      · rw [validateFiniteJson, validateFiniteItems_ok_iff]
        intro read hread
        obtain ⟨item, -, hspells⟩ := exists_left_of_forall₂ hall hread
        exact hspells.finite
  | object entries ih =>
      obtain ⟨hnodup, hvalues⟩ := distinct_object_iff.mp hdistinct
      obtain ⟨reads, rfl, hperm, hmem⟩ := spelled_object h
      have hspells : ∀ read ∈ reads, ∃ own, (read.1, own) ∈ entries ∧
          Spells lib own read.2 := by
        intro read hread
        obtain ⟨own, hown, hspelled⟩ := (hmem read.1 read.2).mp hread
        have hdistinct := hvalues _ hown
        exact ⟨own, hown, ih _ hown hdistinct hspelled (distinct_of_spelled hdistinct hspelled)⟩
      refine ⟨hread, ?_, ?_, rfl⟩
      · rw [resultValuesEqual, equalWith, Bool.and_eq_true, equalEntries_iff_forall,
          decide_eq_true_eq]
        refine ⟨by simpa [Assoc.keys] using hperm.length_eq, fun read hmem => ?_⟩
        obtain ⟨own, hown, hspells⟩ := hspells read hmem
        rw [Assoc.lookup_of_mem hnodup hown]
        exact hspells.alike
      · rw [validateFiniteJson, validateFiniteEntries_ok_iff]
        intro read hmem
        obtain ⟨own, -, hspells⟩ := hspells read hmem
        exact hspells.finite

/-- What a text spells is spelled by that text. -/
theorem spelled_idem (hlaw : lib.Lawful) {value read : Json} (h : value.spelled lib = .ok read) :
    read.spelled lib = .ok read := by
  induction value using induct generalizing read with
  | null | bool _ | string _ =>
      cases h
      rfl
  | number text =>
      rw [spelled] at h
      cases hinteger : integerText text with
      | some integer =>
          rw [hinteger] at h
          cases h
          rw [spelled, integerText_idem hinteger]
      | none =>
          cases hbits : lib.bits text with
          | none =>
              simp only [hinteger, hbits] at h
              cases h
          | some bits =>
              simp only [hinteger, hbits] at h
              cases h
              obtain ⟨hfloat, hnone⟩ := hlaw.float hbits
              simp only [spelled, hnone, hfloat]
  | array items ih =>
      rw [spelled, spelledItems_eq_map] at h
      obtain ⟨reads, hreads, h⟩ := bind_ok_iff.mp h
      cases h
      rw [mapM_ok_iff, List.forall₂_map_left_iff] at hreads
      have hall : reads.map (spelled lib) = reads.map .ok := by
        refine List.map_congr_left fun read hread => ?_
        obtain ⟨item, hitem, hspelled⟩ := exists_left_of_forall₂ hreads hread
        exact ih item hitem hspelled
      rw [spelled, spelledItems_eq_map, hall, mapM_id_ok]
      rfl
  | object entries ih =>
      rw [spelled, spelledEntries_eq_map] at h
      obtain ⟨reads, hreads, h⟩ := bind_ok_iff.mp h
      cases h
      rw [mapM_ok_iff] at hreads
      have hall : reads.map (fun e => (e.1, e.2.spelled lib)) =
          reads.map fun e => (e.1, Except.ok e.2) := by
        refine List.map_congr_left fun read hread => ?_
        obtain ⟨e, he, hspelled⟩ := exists_left_of_forall₂ hreads hread
        obtain ⟨entry, hentry, rfl⟩ := List.mem_map.mp ((List.mem_insertionSort _).mp he)
        obtain ⟨value, hvalue, rfl⟩ := map_ok_iff.mp hspelled
        rw [ih entry hentry hvalue]
      have hsorted : (reads.map fun e => (e.1, (Except.ok e.2 : Except Error Json))).Pairwise
          fun a b => a.1 ≤ b.1 := by
        have hkeys := List.pairwise_map.mpr (List.pairwise_insertionSort
          (fun a b : String × Except Error Json => a.1 ≤ b.1)
          (entries.map fun e => (e.1, e.2.spelled lib)))
        change (Assoc.keys _).Pairwise (· ≤ ·) at hkeys
        rw [← keys_of_spelled hreads, Assoc.keys, List.pairwise_map] at hkeys
        rwa [List.pairwise_map]
      have hback : (reads.map fun e => (e.1, (Except.ok e.2 : Except Error Json))).mapM
          (fun e => e.2.map (e.1, ·)) = .ok reads := by
        rw [mapM_ok_iff, List.forall₂_map_left_iff]
        exact List.forall₂_same.mpr fun _ _ => rfl
      rw [spelled, spelledEntries_eq_map, hall, List.Pairwise.insertionSort_eq hsorted,
        hback]
      rfl

end Library

end Json

end Pollard.Rust
