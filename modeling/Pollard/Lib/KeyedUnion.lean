import Pollard.Lib.Dict

/-!
# Unions by key

The elements of two lists, one for each key: a later element of a key takes the place of an
earlier one, and the elements are sorted by the ranks of their keys.  Taking up a list
again that a union already covers changes nothing.
-/

namespace Pollard.Lib.KeyedUnion

variable {α κ ρ : Type} [DecidableEq κ] [LinearOrder ρ] (key : α → κ) (rank : κ → ρ)

/-- The last element of a key. -/
def last : List α → κ → Option α
  | [], _ => none
  | a :: rest, k => (last rest k).or (if key a = k then some a else none)

/-- The elements under their keys. -/
def table (l : List α) : Dict κ α := .ofList (l.map fun a => (key a, a))

/-- The union of two lists by key. -/
def union (first second : List α) : List α :=
  ((table key (first ++ second)).sorted fun e f => rank e.1 ≤ rank f.1).values

/-! ## The last of a key -/

theorem last_append (first second : List α) (k : κ) :
    last key (first ++ second) k = (last key second k).or (last key first k) := by
  induction first with
  | nil => simp [last]
  | cons a first ih => rw [List.cons_append, last, ih, last, Option.or_assoc]

theorem key_of_last {l : List α} {k : κ} {a : α} (h : last key l k = some a) :
    key a = k ∧ a ∈ l := by
  induction l with
  | nil => cases h
  | cons b l ih =>
      rw [last] at h
      cases hrest : last key l k with
      | some c =>
          rw [hrest] at h
          cases h
          exact ⟨(ih hrest).1, List.mem_cons_of_mem _ (ih hrest).2⟩
      | none =>
          rw [hrest, Option.none_or] at h
          split at h
          · next hkey =>
              cases h
              exact ⟨hkey, List.mem_cons_self⟩
          · cases h

theorem last_of_mem {l : List α} {a : α} (h : a ∈ l) :
    ∃ b, last key l (key a) = some b := by
  induction l with
  | nil => cases h
  | cons c l ih =>
      rw [last]
      cases hrest : last key l (key a) with
      | some b => exact ⟨b, rfl⟩
      | none =>
          rcases List.mem_cons.mp h with rfl | h
          · exact ⟨a, by simp⟩
          · obtain ⟨b, hb⟩ := ih h
            rw [hrest] at hb
            cases hb

/-- Where keys are distinct, every element is the last of its key. -/
theorem last_of_nodup {l : List α} (hnodup : (l.map key).Nodup) {a : α} (h : a ∈ l) :
    last key l (key a) = some a := by
  obtain ⟨b, hb⟩ := last_of_mem key h
  obtain ⟨hkey, hmem⟩ := key_of_last key hb
  rw [hb, List.inj_on_of_nodup_map hnodup hmem h hkey]

theorem get?_foldl_table (l : List α) (d : Dict κ α) (k : κ) :
    ((l.map fun a => (key a, a)).foldl (fun d e => d.set e.1 e.2) d).get? k =
      (last key l k).or (d.get? k) := by
  induction l generalizing d with
  | nil => rfl
  | cons a l ih =>
      rw [List.map_cons, List.foldl_cons, ih, last, Dict.get?_set, Option.or_assoc]
      dsimp only
      congr 1
      split <;> simp

theorem get?_table (l : List α) (k : κ) : (table key l).get? k = last key l k := by
  rw [table, Dict.ofList, get?_foldl_table]
  simp

theorem mem_table {l : List α} {e : κ × α} :
    e ∈ (table key l).entries ↔ last key l e.1 = some e.2 := by
  rw [← get?_table]
  exact Dict.mem_entries_iff

/-! ## The elements of a union -/

theorem mem_union {first second : List α} {a : α} :
    a ∈ union key rank first second ↔ last key (first ++ second) (key a) = some a := by
  unfold union Dict.values Dict.sorted
  dsimp only
  rw [List.mem_map]
  constructor
  · rintro ⟨e, he, rfl⟩
    rw [List.mem_insertionSort, mem_table] at he
    rwa [(key_of_last key he).1]
  · intro h
    exact ⟨(key a, a), by rw [List.mem_insertionSort, mem_table]; exact h, rfl⟩

theorem mem_of_mem_union {first second : List α} {a : α}
    (h : a ∈ union key rank first second) : a ∈ first ∨ a ∈ second :=
  List.mem_append.mp (key_of_last key ((mem_union key rank).mp h)).2

/-- Every key of the lists is one of the union. -/
theorem exists_mem_union {first second : List α} {a : α} (h : a ∈ first ∨ a ∈ second) :
    ∃ b ∈ union key rank first second, key b = key a := by
  obtain ⟨b, hb⟩ := last_of_mem key (List.mem_append.mpr h)
  have hkey := (key_of_last key hb).1
  exact ⟨b, (mem_union key rank).mpr (by rwa [hkey]), hkey⟩

/-- The last of the second list are in the union. -/
theorem mem_union_of_last {first second : List α} {a : α}
    (h : last key second (key a) = some a) : a ∈ union key rank first second := by
  rw [mem_union, last_append, h, Option.some_or]

theorem map_key_union (first second : List α) :
    (union key rank first second).map key =
      ((table key (first ++ second)).sorted fun e f => rank e.1 ≤ rank f.1).keys := by
  unfold union Dict.values Dict.keys Assoc.keys Dict.sorted
  dsimp only
  rw [List.map_map]
  refine List.map_congr_left fun e he => ?_
  rw [List.mem_insertionSort, mem_table] at he
  exact (key_of_last key he).1

theorem nodup_union (first second : List α) :
    ((union key rank first second).map key).Nodup := by
  rw [map_key_union]
  exact Dict.nodupKeys _

/-- A union is sorted. -/
theorem sorted_union (first second : List α) :
    (union key rank first second).Pairwise fun a b => rank (key a) ≤ rank (key b) := by
  have : Std.Total fun e f : κ × α => rank e.1 ≤ rank f.1 := ⟨fun e f => le_total _ _⟩
  have : IsTrans (κ × α) fun e f => rank e.1 ≤ rank f.1 := ⟨fun _ _ _ => le_trans⟩
  have hsorted := List.pairwise_insertionSort (fun e f : κ × α => rank e.1 ≤ rank f.1)
    (table key (first ++ second)).entries
  unfold union Dict.values Dict.sorted
  dsimp only
  rw [List.pairwise_map]
  refine hsorted.imp_of_mem fun {e f} he hf hle => ?_
  rw [List.mem_insertionSort, mem_table] at he hf
  rwa [(key_of_last key he).1, (key_of_last key hf).1]

/-! ## What a union covers -/

/-- The elements of a list with the last of another one in the place of those of their
keys. -/
def renewed (l other : List α) : List α := l.map fun a => (last key other (key a)).getD a

theorem key_renewed (other : List α) (a : α) :
    key ((last key other (key a)).getD a) = key a := by
  cases h : last key other (key a) with
  | none => rfl
  | some b => exact (key_of_last key h).1

theorem keys_foldl_table {other : List α} {d : Dict κ α}
    (h : ∀ a ∈ other, key a ∈ d.keys) :
    ((other.map fun a => (key a, a)).foldl (fun d e => d.set e.1 e.2) d).keys = d.keys := by
  induction other generalizing d with
  | nil => rfl
  | cons a other ih =>
      rw [List.forall_mem_cons] at h
      have hset : (d.set (key a) a).keys = d.keys := Assoc.keys_upsert_of_mem a h.1
      rw [List.map_cons, List.foldl_cons, ih (by rw [hset]; exact h.2), hset]

theorem table_of_nodup {l : List α} (hnodup : (l.map key).Nodup) :
    (table key l).entries = l.map fun a => (key a, a) := by
  rw [table, Dict.ofList, Dict.entries_foldl_set _ (by simp)]
  · rfl
  · rwa [Assoc.keys, List.map_map]

/-- The union with a list whose keys a sorted list has. -/
theorem union_of_covered {l other : List α} (hnodup : (l.map key).Nodup)
    (hsorted : l.Pairwise fun a b => rank (key a) ≤ rank (key b))
    (h : ∀ a ∈ other, ∃ b ∈ l, key b = key a) :
    union key rank l other = renewed key l other := by
  have htable : (table key (l ++ other)).entries =
      l.map fun a => (key a, (last key other (key a)).getD a) := by
    have hkeys : (table key l).keys = l.map key := by
      rw [Dict.keys, table_of_nodup key hnodup, Assoc.keys, List.map_map]
      rfl
    have hdict : table key (l ++ other) =
        ⟨l.map fun a => (key a, (last key other (key a)).getD a), by
          rwa [Assoc.keys, List.map_map]⟩ := by
      refine Dict.ext_get? ?_ fun k => ?_
      · rw [table, List.map_append, Dict.ofList, List.foldl_append]
        change (List.foldl _ (table key l) _).keys = _
        rw [keys_foldl_table, hkeys, Dict.keys, Assoc.keys, List.map_map]
        · rfl
        · intro a ha
          obtain ⟨b, hb, hkey⟩ := h a ha
          rw [hkeys, ← hkey]
          exact List.mem_map_of_mem hb
      · apply Option.ext
        intro v
        rw [get?_table, last_append, ← Dict.mem_entries_iff]
        simp only [List.mem_map, Prod.mk.injEq]
        constructor
        · intro hv
          rcases Option.or_eq_some_iff.mp hv with hother | ⟨hother, hl⟩
          · obtain ⟨hkey, hmem⟩ := key_of_last key hother
            obtain ⟨b, hb, hsame⟩ := h v hmem
            exact ⟨b, hb, hsame.trans hkey, by rw [hsame, hkey, hother]; rfl⟩
          · obtain ⟨hkey, hmem⟩ := key_of_last key hl
            exact ⟨v, hmem, hkey, by rw [hkey, hother]; rfl⟩
        · rintro ⟨a, ha, rfl, rfl⟩
          rw [last_of_nodup key hnodup ha]
          cases last key other (key a) <;> rfl
    rw [hdict]
  have hpairs : (l.map fun a => (key a, (last key other (key a)).getD a)).Pairwise
      fun e f => rank e.1 ≤ rank f.1 := by
    rwa [List.pairwise_map]
  unfold union Dict.values Dict.sorted
  dsimp only
  rw [htable, hpairs.insertionSort_eq, List.map_map]
  rfl

theorem map_key_renewed (l other : List α) : (renewed key l other).map key = l.map key := by
  unfold renewed
  rw [List.map_map]
  exact List.map_congr_left fun a _ => key_renewed key other a

/-- A union that is taken with its second list again stays as it is. -/
theorem union_union_self (first second : List α) :
    union key rank (union key rank first second) second = union key rank first second := by
  rw [union_of_covered key rank (nodup_union key rank first second)
    (sorted_union key rank first second) fun a ha => exists_mem_union key rank (.inr ha)]
  unfold renewed
  conv_rhs => rw [← List.map_id (union key rank first second)]
  refine List.map_congr_left fun a ha => ?_
  rw [mem_union, last_append] at ha
  cases hlast : last key second (key a) with
  | none => rfl
  | some b =>
      rw [hlast, Option.some_or] at ha
      exact Option.some.inj ha

end Pollard.Lib.KeyedUnion
