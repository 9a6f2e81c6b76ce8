import Pollard.Json
import Pollard.Lib.KeyedUnion
import Pollard.Store
import Mathlib.Data.List.Dedup

/-!
# Merging metadata

Objects are merged key by key, lists are united by JSON value, and two other values that
differ stay as they are in the destination and are recorded as a conflict.
-/

namespace Pollard.Merge

open Lib
open Value (SameJson)

/-! ## Lists -/

/-- `_union_json_lists`; a canonical value stands for its `_json_key`. -/
def unionJsonLists (first second : List Value) : List Value :=
  KeyedUnion.union Value.canonical Value.dumps first second

/-- `_list_value` -/
def listValue : Option Value → List Value
  | some (.list items) => items
  | _ => []

theorem mem_of_mem_unionJsonLists {first second : List Value} {value : Value}
    (h : value ∈ unionJsonLists first second) : value ∈ first ∨ value ∈ second :=
  KeyedUnion.mem_of_mem_union Value.canonical Value.dumps h

theorem exists_mem_unionJsonLists {first second : List Value} {value : Value}
    (h : value ∈ first ∨ value ∈ second) :
    ∃ other ∈ unionJsonLists first second, SameJson value other := by
  obtain ⟨other, hother, hsame⟩ := KeyedUnion.exists_mem_union Value.canonical Value.dumps h
  exact ⟨other, hother, hsame.symm⟩

theorem mem_unionJsonLists_singleton (first : List Value) (value : Value) :
    value ∈ unionJsonLists first [value] :=
  KeyedUnion.mem_union_of_last Value.canonical Value.dumps (by simp [KeyedUnion.last])

/-! ## Metadata -/

/-- `sorted` of the keys of a dictionary. -/
def sortedKeys (entries : List (String × Value)) : List String :=
  (Assoc.keys entries).dedup.insertionSort (· ≤ ·)

section Entries

variable (new : List (String × Value))
  (combine : (key : String) → (value : Value) → Assoc.lookup new key = some value → Value →
    Value × List Value)

/-- One round of the loop over the keys of a dictionary: a new key is taken over, and the
values of a common one are combined. -/
def mergeKey (merged : List (String × Value) × List Value) (key : String) :
    List (String × Value) × List Value :=
  match h : Assoc.lookup new key with
  | none => merged
  | some value =>
      match Assoc.lookup merged.1 key with
      | none => (Assoc.upsert merged.1 key value, merged.2)
      | some current =>
          let combined := combine key value h current
          (Assoc.upsert merged.1 key combined.1, merged.2 ++ combined.2)

def mergeEntries (old : List (String × Value)) : List (String × Value) × List Value :=
  (sortedKeys new).foldl (mergeKey new combine) (old, [])

end Entries

/-- A conflict as it is recorded. -/
def conflict (path : List String) (existing incoming : Value) : Value :=
  .dict [("path", .str (".".intercalate path)),
    ("values", .list (unionJsonLists [existing] [incoming]))]

/-- `_merge_meta_value` -/
def mergeMetaValue (existing incoming : Value) (path : List String) : Value × List Value :=
  if existing.pyEq incoming then (existing, [])
  else
    match existing, incoming with
    | .dict old, .dict new =>
        let merged := mergeEntries new
          (fun key value _h current => mergeMetaValue current value (path ++ [key])) old
        (.dict merged.1, merged.2)
    | .list old, .list new => (.list (unionJsonLists old new), [])
    | existing, incoming => (existing, [conflict path existing incoming])
termination_by sizeOf incoming
decreasing_by
  have hsize := Value.sizeOf_lookup_lt _h
  rw [Value.dict.sizeOf_spec]
  omega

theorem nodup_sortedKeys (entries : List (String × Value)) : (sortedKeys entries).Nodup :=
  (List.perm_insertionSort _ _).nodup_iff.mpr (List.nodup_dedup _)

theorem mem_sortedKeys {entries : List (String × Value)} {key : String} :
    key ∈ sortedKeys entries ↔ key ∈ Assoc.keys entries := by
  rw [sortedKeys, List.mem_insertionSort, List.mem_dedup]

/-! ## One key at a time -/

section Entries

variable (new : List (String × Value))
  (combine : (key : String) → (value : Value) → Assoc.lookup new key = some value → Value →
    Value × List Value)

/-- What the loop makes of one key: its value and its conflicts. -/
def mergedEntry (old : List (String × Value)) (key : String) : Option Value × List Value :=
  match h : Assoc.lookup new key with
  | none => (Assoc.lookup old key, [])
  | some value =>
      match Assoc.lookup old key with
      | none => (some value, [])
      | some current => (some (combine key value h current).1, (combine key value h current).2)

theorem mergeKey_spec (merged : List (String × Value) × List Value) (key : String) :
    (∀ other, Assoc.lookup (mergeKey new combine merged key).1 other =
      if other = key then (mergedEntry new combine merged.1 key).1
      else Assoc.lookup merged.1 other) ∧
    (mergeKey new combine merged key).2 = merged.2 ++ (mergedEntry new combine merged.1 key).2 := by
  unfold mergeKey mergedEntry
  split
  · next hnew =>
      refine ⟨fun other => ?_, by simp⟩
      split
      · next heq => rw [heq]
      · rfl
  · next value hnew =>
      split
      · refine ⟨fun other => ?_, by simp⟩
        rw [Assoc.lookup_upsert]
        simp only [eq_comm]
      · next current hcurrent =>
          refine ⟨fun other => ?_, rfl⟩
          dsimp only
          rw [Assoc.lookup_upsert]
          simp only [eq_comm]

/-- A key is combined from what the two dictionaries hold under it. -/
theorem mergedEntry_congr {old other : List (String × Value)} {key : String}
    (h : Assoc.lookup old key = Assoc.lookup other key) :
    mergedEntry new combine old key = mergedEntry new combine other key := by
  unfold mergedEntry
  rw [h]

theorem foldl_mergeKey {keys : List String} (hnodup : keys.Nodup)
    (merged : List (String × Value) × List Value) :
    (∀ key, Assoc.lookup (keys.foldl (mergeKey new combine) merged).1 key =
      if key ∈ keys then (mergedEntry new combine merged.1 key).1
      else Assoc.lookup merged.1 key) ∧
    (keys.foldl (mergeKey new combine) merged).2 =
      merged.2 ++ keys.flatMap fun key => (mergedEntry new combine merged.1 key).2 := by
  induction keys generalizing merged with
  | nil => simp
  | cons first rest ih =>
      rw [List.nodup_cons] at hnodup
      obtain ⟨hkey, hconflicts⟩ := mergeKey_spec new combine merged first
      obtain ⟨hrest, hmore⟩ := ih hnodup.2 (mergeKey new combine merged first)
      have hsame : ∀ key ∈ rest, mergedEntry new combine (mergeKey new combine merged first).1 key =
          mergedEntry new combine merged.1 key := by
        intro key hmem
        have hne : key ≠ first := fun heq => hnodup.1 (heq ▸ hmem)
        exact mergedEntry_congr new combine (by rw [hkey, if_neg hne])
      refine ⟨fun key => ?_, ?_⟩
      · rw [List.foldl_cons, hrest]
        by_cases hmem : key ∈ rest
        · rw [if_pos hmem, if_pos (List.mem_cons_of_mem _ hmem), hsame key hmem]
        · rw [if_neg hmem, hkey]
          by_cases heq : key = first
          · subst heq
            simp
          · rw [if_neg heq, if_neg (by simp [heq, hmem])]
      · rw [List.foldl_cons, hmore, hconflicts, List.flatMap_cons, List.append_assoc]
        congr 2
        exact List.flatMap_congr fun key hmem => by rw [hsame key hmem]

/-- The loop makes of each key what it makes of it alone. -/
theorem lookup_mergeEntries (old : List (String × Value)) (key : String) :
    Assoc.lookup (mergeEntries new combine old).1 key = (mergedEntry new combine old key).1 := by
  rw [mergeEntries, (foldl_mergeKey new combine (nodup_sortedKeys new) (old, [])).1]
  split
  · rfl
  · next hmem =>
      rw [mem_sortedKeys, ← Assoc.lookup_eq_none_iff] at hmem
      unfold mergedEntry
      split
      · rfl
      · next value hvalue =>
          rw [hmem] at hvalue
          cases hvalue

theorem mergeEntries_conflicts (old : List (String × Value)) :
    (mergeEntries new combine old).2 =
      (sortedKeys new).flatMap fun key => (mergedEntry new combine old key).2 := by
  rw [mergeEntries, (foldl_mergeKey new combine (nodup_sortedKeys new) (old, [])).2,
    List.nil_append]

theorem nodup_mergeEntries {old : List (String × Value)} (h : (Assoc.keys old).Nodup) :
    (Assoc.keys (mergeEntries new combine old).1).Nodup := by
  rw [mergeEntries]
  have hfold : ∀ (keys : List String) (merged : List (String × Value) × List Value),
      (Assoc.keys merged.1).Nodup →
        (Assoc.keys (keys.foldl (mergeKey new combine) merged).1).Nodup := by
    intro keys
    induction keys with
    | nil => exact fun merged hmerged => hmerged
    | cons first rest ih =>
        intro merged hmerged
        refine ih _ ?_
        unfold mergeKey
        split
        · exact hmerged
        · split
          · exact Assoc.nodup_keys_upsert hmerged _ _
          · exact Assoc.nodup_keys_upsert hmerged _ _
  exact hfold _ _ h

end Entries

/-- What two values under a key become, either of which may be missing. -/
def mergedOption (combine : Value → Value → Value × List Value) :
    Option Value → Option Value → Option Value × List Value
  | current, none => (current, [])
  | none, some value => (some value, [])
  | some current, some value => (some (combine current value).1, (combine current value).2)

theorem mergedEntry_eq (new old : List (String × Value))
    (combine : String → Value → Value → Value × List Value) (key : String) :
    mergedEntry new (fun key value _ current => combine key current value) old key =
      mergedOption (combine key) (Assoc.lookup old key) (Assoc.lookup new key) := by
  unfold mergedEntry
  split
  · next hnew =>
      rw [hnew]
      cases Assoc.lookup old key <;> rfl
  · next value hnew =>
      cases Assoc.lookup old key <;> simp only [hnew, mergedOption]

/-! ## Values -/

theorem mergeMetaValue_of_pyEq {existing incoming : Value} (h : existing.pyEq incoming = true)
    (path : List String) : mergeMetaValue existing incoming path = (existing, []) := by
  rw [mergeMetaValue.eq_def, if_pos h]

theorem mergeMetaValue_list {old new : List Value}
    (h : ¬ Value.pyEq (.list old) (.list new) = true) (path : List String) :
    mergeMetaValue (.list old) (.list new) path = (.list (unionJsonLists old new), []) := by
  rw [mergeMetaValue.eq_def, if_neg h]

/-- Objects are merged key by key. -/
theorem mergeMetaValue_dict {old new : List (String × Value)}
    (h : ¬ Value.pyEq (.dict old) (.dict new) = true) (path : List String) :
    ∃ merged, (mergeMetaValue (.dict old) (.dict new) path).1 = .dict merged ∧
      (∀ key, Assoc.lookup merged key =
        (mergedOption (fun current value => mergeMetaValue current value (path ++ [key]))
          (Assoc.lookup old key) (Assoc.lookup new key)).1) ∧
      (mergeMetaValue (.dict old) (.dict new) path).2 = (sortedKeys new).flatMap fun key =>
        (mergedOption (fun current value => mergeMetaValue current value (path ++ [key]))
          (Assoc.lookup old key) (Assoc.lookup new key)).2 := by
  rw [mergeMetaValue.eq_def, if_neg h]
  refine ⟨_, rfl, fun key => ?_, ?_⟩
  · rw [lookup_mergeEntries]
    exact congrArg Prod.fst (mergedEntry_eq new old
      (fun key current value => mergeMetaValue current value (path ++ [key])) key)
  · dsimp only
    rw [mergeEntries_conflicts]
    exact List.flatMap_congr fun key _ => congrArg Prod.snd (mergedEntry_eq new old
      (fun key current value => mergeMetaValue current value (path ++ [key])) key)

/-- Two other values stay as they are and are recorded. -/
theorem mergeMetaValue_conflict {existing incoming : Value}
    (h : ¬ existing.pyEq incoming = true)
    (hdict : ∀ old new, ¬ (existing = .dict old ∧ incoming = .dict new))
    (hlist : ∀ old new, ¬ (existing = .list old ∧ incoming = .list new)) (path : List String) :
    mergeMetaValue existing incoming path = (existing, [conflict path existing incoming]) := by
  rw [mergeMetaValue.eq_def, if_neg h]
  split
  · next old new => exact absurd ⟨rfl, rfl⟩ (hdict old new)
  · next old new => exact absurd ⟨rfl, rfl⟩ (hlist old new)
  · rfl

/-! ## The metadata of a node -/

/-- `_merge_meta` before the conflicts are recorded. -/
def mergeKeys (existing incoming : Dict String Value) : Dict String Value × List Value :=
  let new := (incoming.erase "merge_conflicts").entries
  let merged := mergeEntries new
    (fun key value _ current => mergeMetaValue current value [key]) existing.entries
  (⟨merged.1, nodup_mergeEntries new _ existing.nodupKeys⟩, merged.2)

/-- `_merge_meta` -/
def mergeMeta (existing incoming : Dict String Value) : Dict String Value × ℤ :=
  let recorded := unionJsonLists (listValue (existing.get? "merge_conflicts"))
    (listValue (incoming.get? "merge_conflicts"))
  let merged := mergeKeys existing incoming
  let updated := unionJsonLists recorded merged.2
  (if updated.isEmpty then merged.1 else merged.1.set "merge_conflicts" (.list updated),
    updated.length - recorded.length)

end Pollard.Merge
