import Mathlib.Algebra.BigOperators.Group.List.Basic
import Mathlib.Data.List.Nodup
import Mathlib.Data.List.Sort
import Mathlib.Tactic.Abel
import Mathlib.Tactic.Linarith

/-!
# Insertion-ordered dictionaries

A finite map that remembers the order in which its keys were first inserted.
The keys of a dictionary are pairwise distinct; the structure carries that fact,
so no lemma about a dictionary has to assume it.
-/

namespace Pollard.Lib

instance lawfulBEq_pair : LawfulBEq (String × String) := inferInstance

/-! ## Association lists -/

namespace Assoc

variable {κ υ ω : Type}

def keys (entries : List (κ × υ)) : List κ := entries.map Prod.fst

section Lookup

variable [DecidableEq κ]

/-- The value stored under a key. -/
def lookup : List (κ × υ) → κ → Option υ
  | [], _ => none
  | (k, v) :: rest, key => if k = key then some v else lookup rest key

/-- Replace the value of a key in place, or append the key at the end. -/
def upsert : List (κ × υ) → κ → υ → List (κ × υ)
  | [], key, value => [(key, value)]
  | (k, v) :: rest, key, value =>
      if k = key then (k, value) :: rest else (k, v) :: upsert rest key value

theorem lookup_eq_none_iff {entries : List (κ × υ)} {key : κ} :
    lookup entries key = none ↔ key ∉ keys entries := by
  induction entries with
  | nil => simp [lookup, keys]
  | cons entry rest ih =>
      obtain ⟨k, v⟩ := entry
      by_cases hk : k = key
      · simp [lookup, keys, hk]
      · have hk' : key ≠ k := fun h => hk h.symm
        simpa [lookup, keys, hk, hk'] using ih

theorem mem_of_lookup {entries : List (κ × υ)} {key : κ} {value : υ}
    (h : lookup entries key = some value) : (key, value) ∈ entries := by
  induction entries with
  | nil => simp [lookup] at h
  | cons entry rest ih =>
      obtain ⟨k, v⟩ := entry
      by_cases hk : k = key
      · simp_all [lookup]
      · simp only [lookup, if_neg hk] at h
        exact List.mem_cons_of_mem _ (ih h)

theorem mem_keys_of_lookup {entries : List (κ × υ)} {key : κ} {value : υ}
    (h : lookup entries key = some value) : key ∈ keys entries :=
  List.mem_map_of_mem (mem_of_lookup h)

theorem lookup_of_mem {entries : List (κ × υ)} (hnodup : (keys entries).Nodup)
    {key : κ} {value : υ} (h : (key, value) ∈ entries) :
    lookup entries key = some value := by
  induction entries with
  | nil => simp at h
  | cons entry rest ih =>
      obtain ⟨k, v⟩ := entry
      simp only [keys, List.map_cons, List.nodup_cons] at hnodup
      rcases List.mem_cons.mp h with heq | hrest
      · cases heq
        simp [lookup]
      · have hk : k ≠ key := by
          rintro rfl
          exact hnodup.1 (List.mem_map_of_mem hrest)
        rw [lookup, if_neg hk]
        exact ih hnodup.2 hrest

theorem lookup_upsert (entries : List (κ × υ)) (key : κ) (value : υ) (other : κ) :
    lookup (upsert entries key value) other =
      if key = other then some value else lookup entries other := by
  induction entries with
  | nil => simp [upsert, lookup]
  | cons entry rest ih =>
      obtain ⟨k, v⟩ := entry
      by_cases hk : k = key
      · subst hk
        by_cases ho : k = other <;> simp [upsert, lookup, ho]
      · simp only [upsert, if_neg hk, lookup, ih]
        by_cases ho : k = other
        · have : key ≠ other := fun h => hk (ho.trans h.symm)
          simp [ho, this]
        · simp [ho]

/-- Renaming the keys apart renames what is looked up. -/
theorem lookup_map {κ' : Type} [DecidableEq κ'] {f : κ → κ'} (hf : Function.Injective f)
    (g : υ → ω) (entries : List (κ × υ)) (key : κ) :
    lookup (entries.map fun e => (f e.1, g e.2)) (f key) = (lookup entries key).map g := by
  induction entries with
  | nil => rfl
  | cons e entries ih =>
      rw [List.map_cons, lookup, lookup, ih]
      by_cases heq : e.1 = key
      · rw [if_pos heq, if_pos (congrArg f heq), Option.map_some]
      · rw [if_neg heq, if_neg fun h => heq (hf h)]

theorem keys_upsert_of_mem {entries : List (κ × υ)} {key : κ} (value : υ)
    (h : key ∈ keys entries) : keys (upsert entries key value) = keys entries := by
  induction entries with
  | nil => simp [keys] at h
  | cons entry rest ih =>
      obtain ⟨k, v⟩ := entry
      by_cases hk : k = key
      · simp [upsert, keys, hk]
      · have hrest : key ∈ keys rest := by
          rcases List.mem_cons.mp h with h | h
          · exact absurd h.symm hk
          · exact h
        simp only [upsert, if_neg hk]
        exact congrArg (k :: ·) (ih hrest)

theorem upsert_of_lookup {entries : List (κ × υ)} {key : κ} {value : υ}
    (h : lookup entries key = some value) : upsert entries key value = entries := by
  induction entries with
  | nil => cases h
  | cons entry rest ih =>
      obtain ⟨k, v⟩ := entry
      rw [lookup] at h
      rw [upsert]
      split at h
      · next hk =>
          cases h
          rw [if_pos hk]
      · next hk => rw [if_neg hk, ih h]

theorem upsert_of_not_mem {entries : List (κ × υ)} {key : κ} (value : υ)
    (h : key ∉ keys entries) : upsert entries key value = entries ++ [(key, value)] := by
  induction entries with
  | nil => rfl
  | cons entry rest ih =>
      obtain ⟨k, v⟩ := entry
      have hk : k ≠ key := fun hk => h (by simp [keys, hk])
      have hrest : key ∉ keys rest := fun hr => h (List.mem_cons_of_mem _ hr)
      simp [upsert, hk, ih hrest]

theorem nodup_keys_upsert {entries : List (κ × υ)} (hnodup : (keys entries).Nodup)
    (key : κ) (value : υ) : (keys (upsert entries key value)).Nodup := by
  by_cases hmem : key ∈ keys entries
  · rw [keys_upsert_of_mem value hmem]
    exact hnodup
  · rw [upsert_of_not_mem value hmem, keys, List.map_append]
    exact List.Nodup.append hnodup (by simp) (by simpa [keys] using hmem)

theorem mem_of_mem_upsert {entries : List (κ × υ)} {key : κ} {value : υ} {entry : κ × υ}
    (h : entry ∈ upsert entries key value) : entry = (key, value) ∨ entry ∈ entries := by
  induction entries with
  | nil => exact .inl (List.mem_singleton.mp h)
  | cons e rest ih =>
      obtain ⟨k, v⟩ := e
      rw [upsert] at h
      split at h
      · next hk =>
          rw [hk] at h
          exact (List.mem_cons.mp h).imp_right fun hrest => List.mem_cons_of_mem _ hrest
      · rcases List.mem_cons.mp h with rfl | hrest
        · exact .inr List.mem_cons_self
        · exact (ih hrest).imp_right fun hmem => List.mem_cons_of_mem _ hmem

end Lookup

theorem nodup_keys_filter {entries : List (κ × υ)} (hnodup : (keys entries).Nodup)
    (p : κ × υ → Bool) : (keys (entries.filter p)).Nodup :=
  (List.filter_sublist.map Prod.fst).nodup hnodup

theorem nodup_keys_filterMap {entries : List (κ × υ)} (hnodup : (keys entries).Nodup)
    (f : υ → Option ω) :
    (keys (entries.filterMap fun e => (f e.2).map fun w => (e.1, w))).Nodup := by
  refine List.Sublist.nodup ?_ hnodup
  clear hnodup
  induction entries with
  | nil => exact List.Sublist.refl _
  | cons entry rest ih =>
      obtain ⟨k, v⟩ := entry
      cases hf : f v with
      | none => simpa [keys, hf] using ih.cons k
      | some w => simpa [keys, hf] using ih

end Assoc

/-! ## Dictionaries -/

/-- An insertion-ordered dictionary. -/
structure Dict (κ υ : Type) where
  entries : List (κ × υ)
  nodupKeys : (Assoc.keys entries).Nodup

namespace Dict

variable {κ υ ω : Type}

instance [DecidableEq κ] [DecidableEq υ] : DecidableEq (Dict κ υ) := fun a b =>
  decidable_of_iff (a.entries = b.entries)
    ⟨fun h => by cases a; cases b; cases h; rfl, fun h => by rw [h]⟩

@[ext] theorem ext {a b : Dict κ υ} (h : a.entries = b.entries) : a = b := by
  cases a
  cases b
  cases h
  rfl

def empty : Dict κ υ := ⟨[], by simp [Assoc.keys]⟩

instance : Inhabited (Dict κ υ) := ⟨empty⟩

instance : EmptyCollection (Dict κ υ) := ⟨empty⟩

@[simp] theorem entries_empty : (∅ : Dict κ υ).entries = [] := rfl

def keys (d : Dict κ υ) : List κ := Assoc.keys d.entries

def values (d : Dict κ υ) : List υ := d.entries.map Prod.snd

/-- The entries whose key and value satisfy a test. -/
def filter (d : Dict κ υ) (p : κ × υ → Bool) : Dict κ υ :=
  ⟨d.entries.filter p, Assoc.nodup_keys_filter d.nodupKeys p⟩

/-- The images of the values on which a partial function is defined. -/
def filterMap (f : υ → Option ω) (d : Dict κ υ) : Dict κ ω :=
  ⟨d.entries.filterMap fun e => (f e.2).map fun w => (e.1, w),
    Assoc.nodup_keys_filterMap d.nodupKeys f⟩

/-- The dictionary with its entries in another order. -/
def sorted (d : Dict κ υ) (r : κ × υ → κ × υ → Prop) [DecidableRel r] : Dict κ υ :=
  ⟨d.entries.insertionSort r, ((List.perm_insertionSort r d.entries).map _).nodup_iff.mpr
    d.nodupKeys⟩

/-- The dictionary with a function applied to its values. -/
def map (f : υ → ω) (d : Dict κ υ) : Dict κ ω :=
  ⟨d.entries.map fun e => (e.1, f e.2), by
    have h := d.nodupKeys
    rwa [Assoc.keys, List.map_map]⟩

/-- The dictionary with a function applied to its keys and values. -/
def mapEntries (f : κ → υ → ω) (d : Dict κ υ) : Dict κ ω :=
  ⟨d.entries.map fun e => (e.1, f e.1 e.2), by
    have h := d.nodupKeys
    rwa [Assoc.keys, List.map_map]⟩

section Lookup

variable [DecidableEq κ]

def get? (d : Dict κ υ) (key : κ) : Option υ := Assoc.lookup d.entries key

def getD (d : Dict κ υ) (key : κ) (default : υ) : υ := (d.get? key).getD default

def contains (d : Dict κ υ) (key : κ) : Bool := (d.get? key).isSome

def set (d : Dict κ υ) (key : κ) (value : υ) : Dict κ υ :=
  ⟨Assoc.upsert d.entries key value, Assoc.nodup_keys_upsert d.nodupKeys key value⟩

def erase (d : Dict κ υ) (key : κ) : Dict κ υ := d.filter fun e => e.1 ≠ key

/-- The dictionary holding the entries of a list, a later entry of a key
replacing the value of an earlier one. -/
def ofList (entries : List (κ × υ)) : Dict κ υ :=
  entries.foldl (fun d e => d.set e.1 e.2) ∅

@[simp] theorem get?_empty (key : κ) : (∅ : Dict κ υ).get? key = none := rfl

@[simp] theorem getD_empty (key : κ) (default : υ) :
    (∅ : Dict κ υ).getD key default = default := rfl

theorem mem_entries_iff {d : Dict κ υ} {key : κ} {value : υ} :
    (key, value) ∈ d.entries ↔ d.get? key = some value :=
  ⟨Assoc.lookup_of_mem d.nodupKeys, Assoc.mem_of_lookup⟩

theorem get?_eq_none_iff {d : Dict κ υ} {key : κ} :
    d.get? key = none ↔ key ∉ d.keys := Assoc.lookup_eq_none_iff

theorem get?_set (d : Dict κ υ) (key : κ) (value : υ) (other : κ) :
    (d.set key value).get? other = if key = other then some value else d.get? other :=
  Assoc.lookup_upsert d.entries key value other

@[simp] theorem get?_set_self (d : Dict κ υ) (key : κ) (value : υ) :
    (d.set key value).get? key = some value := by
  rw [get?_set, if_pos rfl]

theorem get?_set_of_ne (d : Dict κ υ) {key other : κ} (value : υ) (h : key ≠ other) :
    (d.set key value).get? other = d.get? other := by
  rw [get?_set, if_neg h]

theorem getD_set (d : Dict κ υ) (key : κ) (value : υ) (other : κ) (default : υ) :
    (d.set key value).getD other default =
      if key = other then value else d.getD other default := by
  simp only [getD, get?_set]
  split <;> rfl

theorem get?_filter (d : Dict κ υ) (p : κ × υ → Bool) (key : κ) :
    (d.filter p).get? key = (d.get? key).filter fun v => p (key, v) := by
  apply Option.ext
  intro v
  rw [Option.filter_eq_some_iff, ← mem_entries_iff, ← mem_entries_iff]
  simp [filter]

theorem get?_erase (d : Dict κ υ) (key other : κ) :
    (d.erase key).get? other = if key = other then none else d.get? other := by
  rw [erase, get?_filter]
  by_cases h : key = other
  · rw [if_pos h]
    cases d.get? other <;> simp [h]
  · rw [if_neg h]
    cases d.get? other <;> simp [Ne.symm h]

theorem get?_filterMap (f : υ → Option ω) (d : Dict κ υ) (key : κ) :
    (d.filterMap f).get? key = (d.get? key).bind f := by
  apply Option.ext
  intro w
  rw [Option.bind_eq_some_iff, ← mem_entries_iff]
  simp only [filterMap, List.mem_filterMap, Option.map_eq_some_iff, Prod.mk.injEq, Prod.exists]
  constructor
  · rintro ⟨k, v, hmem, u, hu, rfl, rfl⟩
    exact ⟨v, mem_entries_iff.mp hmem, hu⟩
  · rintro ⟨v, hv, hw⟩
    exact ⟨key, v, mem_entries_iff.mpr hv, w, hw, rfl, rfl⟩

/-- Setting other keys keeps a key. -/
theorem get?_foldl_set_of_forall_ne {key : κ} {entries : List (κ × υ)}
    (h : ∀ e ∈ entries, e.1 ≠ key) (d : Dict κ υ) :
    (entries.foldl (fun d e => d.set e.1 e.2) d).get? key = d.get? key := by
  induction entries generalizing d with
  | nil => rfl
  | cons e entries ih =>
      rw [List.foldl_cons, ih fun e he => h e (List.mem_cons_of_mem _ he)]
      exact get?_set_of_ne d e.2 (h e List.mem_cons_self)

/-- Setting the entries of another dictionary puts them over the old ones. -/
theorem get?_foldl_set {entries : List (κ × υ)} (hnodup : (Assoc.keys entries).Nodup)
    (d : Dict κ υ) (key : κ) :
    (entries.foldl (fun d e => d.set e.1 e.2) d).get? key =
      (Assoc.lookup entries key).or (d.get? key) := by
  induction entries generalizing d with
  | nil => rfl
  | cons e entries ih =>
      rw [Assoc.keys, List.map_cons, List.nodup_cons] at hnodup
      rw [List.foldl_cons, ih hnodup.2, get?_set, Assoc.lookup]
      split
      · next heq =>
          rw [Assoc.lookup_eq_none_iff.mpr (heq ▸ hnodup.1)]
          rfl
      · rfl

/-- Where the entries of a key agree, the dictionary of a list holds what they say. -/
theorem get?_ofList_of_mem {entries : List (κ × υ)} {e : κ × υ} (he : e ∈ entries)
    (hsame : ∀ f ∈ entries, f.1 = e.1 → f.2 = e.2) : (ofList entries).get? e.1 = some e.2 := by
  have hfold : ∀ (l : List (κ × υ)) (d : Dict κ υ), (∀ f ∈ l, f.1 = e.1 → f.2 = e.2) →
      (d.get? e.1 = some e.2 ∨ e ∈ l) →
        (l.foldl (fun d f => d.set f.1 f.2) d).get? e.1 = some e.2 := by
    intro l
    induction l with
    | nil => exact fun d _ hd => hd.resolve_right List.not_mem_nil
    | cons f l ih =>
        intro d hl hd
        rw [List.forall_mem_cons] at hl
        refine ih (d.set f.1 f.2) hl.2 ?_
        rw [get?_set]
        split
        · next hkey => exact .inl (congrArg some (hl.1 (by rw [hkey])))
        · next hkey =>
            rcases hd with hd | hd
            · exact .inl hd
            · rcases List.mem_cons.mp hd with rfl | hd
              · exact absurd rfl hkey
              · exact .inr hd
  exact hfold entries ∅ hsame (.inr he)

theorem keys_set (d : Dict κ υ) (key : κ) (value : υ) :
    (d.set key value).keys = if key ∈ d.keys then d.keys else d.keys ++ [key] := by
  change Assoc.keys (Assoc.upsert d.entries key value) = _
  split
  · next hmem => exact Assoc.keys_upsert_of_mem value hmem
  · next hmem =>
      rw [Assoc.upsert_of_not_mem value hmem, Assoc.keys, List.map_append]
      rfl

theorem mem_of_mem_foldl_set {entries : List (κ × υ)} {d : Dict κ υ} {e : κ × υ}
    (he : e ∈ (entries.foldl (fun d f => d.set f.1 f.2) d).entries) :
    e ∈ d.entries ∨ e ∈ entries := by
  induction entries generalizing d with
  | nil => exact .inl he
  | cons f entries ih =>
      rcases ih he with h | h
      · rcases Assoc.mem_of_mem_upsert h with h | h
        · exact .inr (h ▸ List.mem_cons_self)
        · exact .inl h
      · exact .inr (List.mem_cons_of_mem _ h)

theorem mem_of_mem_ofList {entries : List (κ × υ)} {e : κ × υ}
    (he : e ∈ (ofList entries).entries) : e ∈ entries :=
  (mem_of_mem_foldl_set he).resolve_left List.not_mem_nil

theorem entries_set_of_get?_none {d : Dict κ υ} {key : κ} (value : υ)
    (h : d.get? key = none) : (d.set key value).entries = d.entries ++ [(key, value)] :=
  Assoc.upsert_of_not_mem value (get?_eq_none_iff.mp h)

/-- Overwriting a key changes its entry in place. -/
theorem entries_set_of_get?_some {d : Dict κ υ} {key : κ} {old : υ} (value : υ)
    (h : d.get? key = some old) :
    ∃ pre post, d.entries = pre ++ (key, old) :: post ∧
      (d.set key value).entries = pre ++ (key, value) :: post ∧
      ∀ e ∈ pre ++ post, e.1 ≠ key := by
  obtain ⟨entries, hnodup⟩ := d
  change Assoc.lookup entries key = some old at h
  change ∃ pre post, entries = pre ++ (key, old) :: post ∧
    Assoc.upsert entries key value = pre ++ (key, value) :: post ∧ ∀ e ∈ pre ++ post, e.1 ≠ key
  induction entries with
  | nil => cases h
  | cons entry rest ih =>
      obtain ⟨k, v⟩ := entry
      rw [Assoc.keys, List.map_cons, List.nodup_cons] at hnodup
      rw [Assoc.lookup] at h
      rw [Assoc.upsert]
      by_cases hk : k = key
      · subst hk
        rw [if_pos rfl, Option.some.injEq] at h
        subst h
        rw [if_pos rfl]
        refine ⟨[], rest, rfl, rfl, fun e he heq => hnodup.1 ?_⟩
        have hmem : e.1 ∈ rest.map Prod.fst := List.mem_map_of_mem he
        exact heq ▸ hmem
      · rw [if_neg hk] at h
        rw [if_neg hk]
        obtain ⟨pre, post, hrest, hset, hne⟩ := ih hnodup.2 h
        refine ⟨(k, v) :: pre, post, by rw [hrest]; rfl, by rw [hset]; rfl, ?_⟩
        rw [List.cons_append, List.forall_mem_cons]
        exact ⟨hk, hne⟩

/-- Setting new keys appends their entries. -/
theorem entries_foldl_set {entries : List (κ × υ)} {d : Dict κ υ}
    (hnodup : (Assoc.keys entries).Nodup) (h : ∀ e ∈ entries, d.get? e.1 = none) :
    (entries.foldl (fun d e => d.set e.1 e.2) d).entries = d.entries ++ entries := by
  induction entries generalizing d with
  | nil => simp
  | cons e entries ih =>
      rw [Assoc.keys, List.map_cons, List.nodup_cons] at hnodup
      rw [List.forall_mem_cons] at h
      have hrest : ∀ e' ∈ entries, (d.set e.1 e.2).get? e'.1 = none := by
        intro e' he'
        have hne : e.1 ≠ e'.1 := fun heq => hnodup.1 (heq ▸ List.mem_map_of_mem he')
        rw [get?_set_of_ne d e.2 hne]
        exact h.2 e' he'
      rw [List.foldl_cons, ih hnodup.2 hrest, entries_set_of_get?_none e.2 h.1,
        List.append_assoc, List.singleton_append]

@[simp] theorem ofList_entries (d : Dict κ υ) : ofList d.entries = d := by
  apply ext
  rw [ofList, entries_foldl_set d.nodupKeys (by simp)]
  rfl

theorem entries_eq_filterMap (d : Dict κ υ) :
    d.entries = d.keys.filterMap fun k => (d.get? k).map fun v => (k, v) := by
  rw [keys, Assoc.keys, List.filterMap_map]
  have hentries : ∀ e ∈ d.entries,
      ((fun k => (d.get? k).map fun v => (k, v)) ∘ Prod.fst) e = some e := by
    intro e he
    rw [Function.comp_apply, mem_entries_iff.mp he]
    rfl
  rw [List.filterMap_congr hentries, List.filterMap_some]

/-- A dictionary is its keys in their order and what they hold. -/
theorem ext_get? {a b : Dict κ υ} (hkeys : a.keys = b.keys) (h : ∀ k, a.get? k = b.get? k) :
    a = b := by
  apply ext
  rw [entries_eq_filterMap a, entries_eq_filterMap b, hkeys]
  exact List.filterMap_congr fun k _ => by rw [h]

theorem get?_sorted (d : Dict κ υ) (r : κ × υ → κ × υ → Prop) [DecidableRel r] (key : κ) :
    (d.sorted r).get? key = d.get? key := by
  apply Option.ext
  intro v
  rw [← mem_entries_iff, ← mem_entries_iff]
  exact List.mem_insertionSort r

theorem get?_map (f : υ → ω) (d : Dict κ υ) (key : κ) :
    (d.map f).get? key = (d.get? key).map f := by
  apply Option.ext
  intro w
  rw [← mem_entries_iff, Option.map_eq_some_iff]
  simp only [map, List.mem_map, Prod.mk.injEq, Prod.exists]
  constructor
  · rintro ⟨k, v, hmem, rfl, rfl⟩
    exact ⟨v, mem_entries_iff.mp hmem, rfl⟩
  · rintro ⟨v, hv, rfl⟩
    exact ⟨key, v, mem_entries_iff.mpr hv, rfl, rfl⟩

theorem filterMap_set_of_get?_none {f : υ → Option ω} {d : Dict κ υ} {key : κ} {value : υ}
    {w : ω} (hget : d.get? key = none) (hf : f value = some w) :
    (d.set key value).filterMap f = (d.filterMap f).set key w := by
  have hnone : (d.filterMap f).get? key = none := by rw [get?_filterMap, hget]; rfl
  apply Dict.ext
  rw [entries_set_of_get?_none w hnone]
  simp [filterMap, entries_set_of_get?_none value hget, hf]

/-- Overwriting a value in the domain by another in the domain. -/
theorem filterMap_set_of_get?_some {f : υ → Option ω} {d : Dict κ υ} {key : κ}
    {old value : υ} {v w : ω} (hget : d.get? key = some old) (hold : f old = some v)
    (hf : f value = some w) :
    (d.set key value).filterMap f = (d.filterMap f).set key w := by
  obtain ⟨entries, hnodup⟩ := d
  apply Dict.ext
  change (Assoc.upsert entries key value).filterMap (fun e => (f e.2).map fun w => (e.1, w)) =
    Assoc.upsert (entries.filterMap fun e => (f e.2).map fun w => (e.1, w)) key w
  change Assoc.lookup entries key = some old at hget
  clear hnodup
  induction entries with
  | nil => simp [Assoc.lookup] at hget
  | cons entry rest ih =>
      obtain ⟨k, u⟩ := entry
      by_cases hk : k = key
      · have hu : u = old := by simpa [Assoc.lookup, hk] using hget
        subst hu
        simp [Assoc.upsert, hk, hold, hf]
      · simp only [Assoc.lookup, if_neg hk] at hget
        cases hfu : f u with
        | none => simpa [Assoc.upsert, hk, hfu] using ih hget
        | some x => simpa [Assoc.upsert, hk, hfu] using ih hget

/-- Overwriting a value by one outside the domain erases its image. -/
theorem filterMap_set_of_none {f : υ → Option ω} {d : Dict κ υ} {key : κ} {value : υ}
    (hf : f value = none) : (d.set key value).filterMap f = (d.filterMap f).erase key := by
  obtain ⟨entries, hnodup⟩ := d
  apply Dict.ext
  change (Assoc.upsert entries key value).filterMap (fun e => (f e.2).map fun w => (e.1, w)) =
    (entries.filterMap fun e => (f e.2).map fun w => (e.1, w)).filter fun e => e.1 ≠ key
  induction entries with
  | nil => simp [Assoc.upsert, hf]
  | cons entry rest ih =>
      obtain ⟨k, u⟩ := entry
      have htail := ih (List.nodup_cons.mp hnodup).2
      by_cases hk : k = key
      · subst hk
        have hnot : k ∉ Assoc.keys rest := (List.nodup_cons.mp hnodup).1
        rw [Assoc.upsert_of_not_mem value hnot] at htail
        simp only [List.filterMap_append, List.filterMap_cons, hf, Option.map_none,
          List.filterMap_nil, List.append_nil] at htail
        simp only [Assoc.upsert, if_pos, List.filterMap_cons, hf, Option.map_none]
        cases f u with
        | none => exact htail
        | some x => simpa using htail
      · cases hfu : f u with
        | none => simpa [Assoc.upsert, hk, hfu] using htail
        | some x => simpa [Assoc.upsert, hk, hfu] using htail

end Lookup

/-! ## Sums over the entries -/

section Sum

variable {M : Type} [AddCommMonoid M]

/-- The sum of a weight over the values of a dictionary. -/
def sumBy (weight : υ → M) (d : Dict κ υ) : M := (d.values.map weight).sum

@[simp] theorem sumBy_empty (weight : υ → M) : sumBy weight (∅ : Dict κ υ) = 0 := rfl

theorem sumBy_congr {weight weight' : υ → M} {d : Dict κ υ}
    (h : ∀ v ∈ d.values, weight v = weight' v) : sumBy weight d = sumBy weight' d := by
  rw [sumBy, sumBy, List.map_congr_left h]

variable [DecidableEq κ]

private theorem sum_upsert_of_mem (weight : υ → M) {entries : List (κ × υ)} {key : κ}
    {old : υ} (value : υ) (h : Assoc.lookup entries key = some old) :
    (((Assoc.upsert entries key value).map Prod.snd).map weight).sum + weight old =
      ((entries.map Prod.snd).map weight).sum + weight value := by
  induction entries with
  | nil => simp [Assoc.lookup] at h
  | cons entry rest ih =>
      obtain ⟨k, v⟩ := entry
      by_cases hk : k = key
      · have hv : v = old := by simpa [Assoc.lookup, hk] using h
        simp only [Assoc.upsert, if_pos hk, List.map_cons, List.sum_cons, hv]
        abel
      · simp only [Assoc.lookup, if_neg hk] at h
        simp only [Assoc.upsert, if_neg hk, List.map_cons, List.sum_cons]
        rw [add_assoc, ih h, add_assoc]

/-- Overwriting a key replaces its old weight by the new one. -/
theorem sumBy_set_of_get?_some (weight : υ → M) {d : Dict κ υ} {key : κ} {old : υ}
    (value : υ) (h : d.get? key = some old) :
    sumBy weight (d.set key value) + weight old = sumBy weight d + weight value :=
  sum_upsert_of_mem weight value h

/-- Inserting a new key adds its weight. -/
theorem sumBy_set_of_get?_none (weight : υ → M) {d : Dict κ υ} {key : κ} (value : υ)
    (h : d.get? key = none) :
    sumBy weight (d.set key value) = sumBy weight d + weight value := by
  simp [sumBy, values, entries_set_of_get?_none value h]

/-- Erasing a key removes its weight. -/
theorem sumBy_erase_of_get?_some (weight : υ → M) {d : Dict κ υ} {key : κ} {old : υ}
    (h : d.get? key = some old) : sumBy weight (d.erase key) + weight old = sumBy weight d := by
  obtain ⟨entries, hnodup⟩ := d
  change (((entries.filter fun e => decide (e.1 ≠ key)).map Prod.snd).map weight).sum
      + weight old = ((entries.map Prod.snd).map weight).sum
  change Assoc.lookup entries key = some old at h
  induction entries with
  | nil => simp [Assoc.lookup] at h
  | cons entry rest ih =>
      obtain ⟨k, v⟩ := entry
      have htail : (Assoc.keys rest).Nodup := (List.nodup_cons.mp hnodup).2
      by_cases hk : k = key
      · subst hk
        have hv : v = old := by simpa [Assoc.lookup] using h
        have hfilter : rest.filter (fun e => decide (e.1 ≠ k)) = rest := by
          rw [List.filter_eq_self]
          intro e he
          have hmem : e.1 ∈ Assoc.keys rest := List.mem_map_of_mem he
          have hne : e.1 ≠ k := fun hek => (List.nodup_cons.mp hnodup).1 (hek ▸ hmem)
          simpa using hne
        simp only [ne_eq, not_true_eq_false, decide_false, Bool.false_eq_true,
          not_false_eq_true, List.filter_cons_of_neg, List.map_cons, List.sum_cons, hv]
        simp only [ne_eq] at hfilter
        rw [hfilter, add_comm]
      · simp only [Assoc.lookup, if_neg hk] at h
        have hrest := ih htail h
        simp only [ne_eq, hk, not_false_eq_true, decide_true, List.filter_cons_of_pos,
          List.map_cons, List.sum_cons]
        rw [add_assoc]
        exact congrArg (weight v + ·) hrest

/-- What at most one key has is listed at most once. -/
theorem nodup_filterMap_values {d : Dict κ υ} {f : υ → Option ω}
    (h : ∀ k k' v v' w, d.get? k = some v → d.get? k' = some v' → f v = some w →
      f v' = some w → k = k') : (d.values.filterMap f).Nodup := by
  have hentries : d.entries.Nodup := d.nodupKeys.of_map
  rw [values, List.filterMap_map]
  have hattach : d.entries.filterMap (f ∘ Prod.snd) =
      d.entries.attach.filterMap fun e => f e.1.2 := by
    conv_lhs => rw [← List.attach_map_subtype_val d.entries, List.filterMap_map]
    rfl
  rw [hattach]
  refine (List.nodup_attach.mpr hentries).filterMap fun a b w ha hb => ?_
  have hakey := mem_entries_iff.mp (show (a.1.1, a.1.2) ∈ _ from a.2)
  have hbkey := mem_entries_iff.mp (show (b.1.1, b.1.2) ∈ _ from b.2)
  have hkey := h _ _ _ _ w hakey hbkey ha hb
  rw [hkey, hbkey, Option.some.injEq] at hakey
  exact Subtype.ext (Prod.ext hkey hakey.symm)

theorem mem_values_of_get? {d : Dict κ υ} {key : κ} {value : υ}
    (h : d.get? key = some value) : value ∈ d.values :=
  List.mem_map_of_mem (mem_entries_iff.mpr h)

theorem exists_get?_of_mem_values {d : Dict κ υ} {value : υ} (h : value ∈ d.values) :
    ∃ key, d.get? key = some value := by
  obtain ⟨⟨key, v⟩, hmem, rfl⟩ := List.mem_map.mp h
  exact ⟨key, mem_entries_iff.mp hmem⟩

theorem forall_values_set {P : υ → Prop} {d : Dict κ υ} {key : κ} {value : υ}
    (hd : ∀ v ∈ d.values, P v) (hvalue : P value) : ∀ v ∈ (d.set key value).values, P v := by
  intro v hv
  obtain ⟨k, hk⟩ := exists_get?_of_mem_values hv
  rw [get?_set] at hk
  split at hk
  · cases hk
    exact hvalue
  · exact hd v (mem_values_of_get? hk)

theorem forall_values_foldl_set {P : υ → Prop} {entries : List (κ × υ)} {d : Dict κ υ}
    (hd : ∀ v ∈ d.values, P v) (hentries : ∀ e ∈ entries, P e.2) :
    ∀ v ∈ (entries.foldl (fun d e => d.set e.1 e.2) d).values, P v := by
  induction entries generalizing d with
  | nil => exact hd
  | cons e entries ih =>
      exact ih (forall_values_set hd (hentries e List.mem_cons_self))
        fun e' he => hentries e' (List.mem_cons_of_mem _ he)

end Sum

end Dict

end Pollard.Lib
