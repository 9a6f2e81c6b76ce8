import Pollard.Merge.Leaves
import Pollard.Merge.Report

/-!
# Merging again

A merge that is repeated changes nothing: what the source has is in the destination, or it is
recorded there as a conflict, and neither is taken for something new.
-/

namespace Pollard.Merge

open Lib Lib.Fallible
open Value (SameJson)

/-! ## The same JSON -/

theorem pyEq_items_of_map {items others : List Value}
    (h : ∀ item ∈ items, ∀ other, SameJson item other → item.pyEq other = true)
    (hsame : items.map Value.canonical = others.map Value.canonical) :
    List.Forall₂ (fun a b => Value.pyEq a b = true) items others := by
  induction items generalizing others with
  | nil =>
      rw [List.map_eq_nil_iff.mp hsame.symm]
      exact .nil
  | cons item items ih =>
      cases others with
      | nil => cases hsame
      | cons other others =>
          obtain ⟨hitem, hitems⟩ := List.forall_mem_cons.mp h
          obtain ⟨hfirst, hrest⟩ := List.cons.inj hsame
          exact .cons (hitem other hfirst) (ih hitems hrest)

/-- Python takes the same JSON for equal. -/
theorem pyEq_of_sameJson {a b : Value} (h : SameJson a b) : a.pyEq b = true := by
  induction hsize : sizeOf a using Nat.strong_induction_on generalizing a b with
  | _ size ih =>
    subst hsize
    cases a with
    | list items =>
        obtain ⟨others, rfl, hsame⟩ := h.list
        rw [Value.pyEq_list_iff]
        refine pyEq_items_of_map (fun item hitem other hother => ?_) hsame
        have hsmall := List.sizeOf_lt_of_mem hitem
        exact ih _ (by rw [Value.list.sizeOf_spec]; omega) hother rfl
    | dict entries =>
        cases b with
        | dict others =>
            rw [Value.pyEq_dict_iff]
            intro key
            cases hv : Assoc.lookup entries key with
            | none =>
                cases hw : Assoc.lookup others key with
                | none => exact .none
                | some w =>
                    obtain ⟨v, hentry, -⟩ :=
                      h.symm.get? (show Value.get? (.dict others) key = some w from hw)
                    rw [Value.get?, hv] at hentry
                    cases hentry
            | some v =>
                obtain ⟨w, hentry, hsame⟩ :=
                  h.get? (show Value.get? (.dict entries) key = some v from hv)
                rw [Value.get?] at hentry
                rw [hentry]
                have hsmall := Value.sizeOf_lookup_lt hv
                exact .some (ih _ (by rw [Value.dict.sizeOf_spec]; omega) hsame rfl)
        | _ => cases h
    | _ =>
        cases b <;> first
          | cases h; exact Value.pyEq_refl _
          | cases h

theorem sameJson_list {items others : List Value}
    (h : items.map Value.canonical = others.map Value.canonical) :
    SameJson (.list items) (.list others) := by
  unfold SameJson
  rw [Value.canonical, Value.canonical, Value.canonicalItems_eq_map, Value.canonicalItems_eq_map, h]

/-! ## One value -/

/-- A loop over entries that are all combined already changes none of them. -/
theorem mergeEntries_combined {new merged : List (String × Value)}
    {combine : (key : String) → (value : Value) → Assoc.lookup new key = some value → Value →
      Value × List Value}
    (h : ∀ key value (hvalue : Assoc.lookup new key = some value), ∃ current,
      Assoc.lookup merged key = some current ∧ (combine key value hvalue current).1 = current) :
    (mergeEntries new combine merged).1 = merged := by
  have hfold : ∀ (keys : List String) (conflicts : List Value),
      (keys.foldl (mergeKey new combine) (merged, conflicts)).1 = merged := by
    intro keys
    induction keys with
    | nil => exact fun _ => rfl
    | cons key keys ih =>
        intro conflicts
        rw [List.foldl_cons]
        have hkey : (mergeKey new combine (merged, conflicts) key).1 = merged := by
          unfold mergeKey
          split
          · rfl
          · next value hvalue =>
              obtain ⟨current, hcurrent, hsame⟩ := h key value hvalue
              rw [hcurrent]
              dsimp only
              rw [hsame]
              exact Assoc.upsert_of_lookup hcurrent
        rw [← Prod.eta (mergeKey new combine (merged, conflicts) key), hkey]
        exact ih _
  exact hfold _ _

/-- What a value became stays as it is, and the conflicts are the ones that were found before. -/
theorem mergeMetaValue_again (existing incoming : Value) (path : List String) :
    (mergeMetaValue (mergeMetaValue existing incoming path).1 incoming path).1 =
        (mergeMetaValue existing incoming path).1 ∧
      (mergeMetaValue (mergeMetaValue existing incoming path).1 incoming path).2 ⊆
        (mergeMetaValue existing incoming path).2 := by
  induction hsize : sizeOf incoming using Nat.strong_induction_on
    generalizing existing incoming path with
  | _ size ih =>
    subst hsize
    by_cases heq : existing.pyEq incoming = true
    · rw [mergeMetaValue_of_pyEq heq, mergeMetaValue_of_pyEq heq]
      exact ⟨rfl, List.Subset.refl _⟩
    · by_cases hdicts : ∃ old new, existing = .dict old ∧ incoming = .dict new
      · obtain ⟨old, new, rfl, rfl⟩ := hdicts
        have hsmall : ∀ {key value}, Assoc.lookup new key = some value →
            sizeOf value < sizeOf (Value.dict new) := by
          intro key value hvalue
          have hlt := Value.sizeOf_lookup_lt hvalue
          rw [Value.dict.sizeOf_spec]
          omega
        let combine : (key : String) → (value : Value) → Assoc.lookup new key = some value →
            Value → Value × List Value :=
          fun key value _ current => mergeMetaValue current value (path ++ [key])
        have hmerged : mergeMetaValue (.dict old) (.dict new) path =
            (.dict (mergeEntries new combine old).1, (mergeEntries new combine old).2) := by
          rw [mergeMetaValue.eq_def, if_neg heq]
        rw [hmerged]
        dsimp only
        by_cases hagain : Value.pyEq (.dict (mergeEntries new combine old).1) (.dict new) = true
        · rw [mergeMetaValue_of_pyEq hagain]
          exact ⟨rfl, List.nil_subset _⟩
        -- each key is combined already, and its conflicts were found before
        have hentry : ∀ (key : String) {value : Value}, Assoc.lookup new key = some value →
            ∃ current, Assoc.lookup (mergeEntries new combine old).1 key = some current ∧
              (mergeMetaValue current value (path ++ [key])).1 = current ∧
              (mergeMetaValue current value (path ++ [key])).2 ⊆
                (mergedEntry new combine old key).2 := by
          intro key value hvalue
          rw [lookup_mergeEntries, mergedEntry_eq new old
            (fun key current value => mergeMetaValue current value (path ++ [key])), hvalue]
          cases Assoc.lookup old key with
          | none =>
              rw [mergedOption]
              refine ⟨value, rfl, ?_⟩
              rw [mergeMetaValue_of_pyEq (Value.pyEq_refl value)]
              exact ⟨rfl, List.nil_subset _⟩
          | some current =>
              rw [mergedOption]
              exact ⟨_, rfl, ih _ (hsmall hvalue) current value (path ++ [key]) rfl⟩
        rw [mergeMetaValue.eq_def, if_neg hagain]
        dsimp only
        constructor
        · refine congrArg Value.dict (mergeEntries_combined fun key value hvalue => ?_)
          obtain ⟨current, hcurrent, hsame, -⟩ := hentry key hvalue
          exact ⟨current, hcurrent, hsame⟩
        · rw [mergeEntries_conflicts, mergeEntries_conflicts]
          intro conflict hconflict
          obtain ⟨key, hkey, hconflict⟩ := List.mem_flatMap.mp hconflict
          refine List.mem_flatMap.mpr ⟨key, hkey, ?_⟩
          rw [mergedEntry_eq new (mergeEntries new combine old).1
            (fun key current value => mergeMetaValue current value (path ++ [key]))] at hconflict
          cases hvalue : Assoc.lookup new key with
          | none =>
              rw [hvalue] at hconflict
              cases hconflict
          | some value =>
              obtain ⟨current, hcurrent, -, hsubset⟩ := hentry key hvalue
              rw [hvalue, hcurrent] at hconflict
              exact hsubset hconflict
      · by_cases hlists : ∃ old new, existing = .list old ∧ incoming = .list new
        · obtain ⟨old, new, rfl, rfl⟩ := hlists
          rw [mergeMetaValue_list heq]
          by_cases hagain : Value.pyEq (.list (unionJsonLists old new)) (.list new) = true
          · rw [mergeMetaValue_of_pyEq hagain]
            exact ⟨rfl, List.Subset.refl _⟩
          · rw [mergeMetaValue_list hagain]
            refine ⟨?_, List.Subset.refl _⟩
            exact congrArg Value.list
              (KeyedUnion.union_union_self Value.canonical Value.dumps old new)
        · have hsame := mergeMetaValue_conflict heq (fun _ _ h => hdicts ⟨_, _, h⟩)
            (fun _ _ h => hlists ⟨_, _, h⟩) path
          rw [hsame]
          dsimp only
          rw [hsame]
          exact ⟨rfl, List.Subset.refl _⟩

/-! ## Lists -/

/-- A list as a union leaves it: each JSON once, in the order of the texts. -/
def Orderly (l : List Value) : Prop :=
  (l.map Value.canonical).Nodup ∧
    (l.map Value.canonical).Pairwise fun a b => a.dumps ≤ b.dumps

instance orderlyDecidable (l : List Value) : Decidable (Orderly l) :=
  inferInstanceAs (Decidable (_ ∧ _))

/-- Everything in a list is in the other one, as the same JSON. -/
def Covers (l other : List Value) : Prop := ∀ c ∈ other, ∃ d ∈ l, SameJson c d

theorem Covers.refl (l : List Value) : Covers l l := fun c hc => ⟨c, hc, .refl c⟩

theorem Covers.trans {a b c : List Value} (h : Covers a b) (h' : Covers b c) : Covers a c := by
  intro x hx
  obtain ⟨y, hy, hxy⟩ := h' x hx
  obtain ⟨z, hz, hyz⟩ := h y hy
  exact ⟨z, hz, hxy.trans hyz⟩

theorem Covers.of_subset {l other : List Value} (h : other ⊆ l) : Covers l other :=
  fun c hc => ⟨c, h hc, .refl c⟩

theorem covers_of_map {l other : List Value}
    (h : l.map Value.canonical = other.map Value.canonical) : Covers l other :=
  fun _ hc => SameJson.mem h.symm hc

theorem covers_union_left (first second : List Value) :
    Covers (unionJsonLists first second) first :=
  fun _ hc => exists_mem_unionJsonLists (.inl hc)

theorem covers_union_right (first second : List Value) :
    Covers (unionJsonLists first second) second :=
  fun _ hc => exists_mem_unionJsonLists (.inr hc)

theorem orderly_union (first second : List Value) : Orderly (unionJsonLists first second) := by
  refine ⟨KeyedUnion.nodup_union Value.canonical Value.dumps first second, ?_⟩
  rw [List.pairwise_map]
  exact KeyedUnion.sorted_union Value.canonical Value.dumps first second

/-- A union with what is covered is the same JSON as before. -/
theorem Orderly.union {l other : List Value} (hl : Orderly l) (h : Covers l other) :
    (unionJsonLists l other).map Value.canonical = l.map Value.canonical := by
  have hkeys : ∀ a ∈ other, ∃ b ∈ l, b.canonical = a.canonical := by
    intro a ha
    obtain ⟨b, hb, hsame⟩ := h a ha
    exact ⟨b, hb, hsame.symm⟩
  have hsorted := hl.2
  rw [List.pairwise_map] at hsorted
  unfold unionJsonLists
  rw [KeyedUnion.union_of_covered Value.canonical Value.dumps hl.1 hsorted hkeys,
    KeyedUnion.map_key_renewed]

theorem Orderly.of_map {l other : List Value} (hl : Orderly l)
    (h : other.map Value.canonical = l.map Value.canonical) : Orderly other := by
  unfold Orderly
  rw [h]
  exact hl

/-! ## Metadata -/

/-- The conflicts of merges that metadata lists. -/
def mergeConflicts (metadata : Dict String Value) : List Value :=
  listValue (metadata.get? "merge_conflicts")

theorem mergeKeys_get? (existing incoming : Dict String Value) (key : String) :
    (mergeKeys existing incoming).1.get? key =
      (mergedOption (fun current value => mergeMetaValue current value [key])
        (existing.get? key) ((incoming.erase "merge_conflicts").get? key)).1 := by
  unfold mergeKeys
  dsimp only [Dict.get?]
  rw [lookup_mergeEntries, mergedEntry_eq _ _ (fun key current value =>
    mergeMetaValue current value [key])]

theorem mem_mergeKeys_conflicts {existing incoming : Dict String Value} {c : Value} :
    c ∈ (mergeKeys existing incoming).2 ↔ ∃ key current value, key ≠ "merge_conflicts" ∧
      existing.get? key = some current ∧ incoming.get? key = some value ∧
        c ∈ (mergeMetaValue current value [key]).2 := by
  have herase : ∀ key, Assoc.lookup (incoming.erase "merge_conflicts").entries key =
      if key = "merge_conflicts" then none else incoming.get? key := by
    intro key
    rw [← Dict.get?, Dict.get?_erase]
    simp only [eq_comm]
  unfold mergeKeys
  dsimp only
  rw [mergeEntries_conflicts, List.mem_flatMap]
  simp only [mergedEntry_eq _ _ (fun key current value => mergeMetaValue current value [key]),
    herase]
  constructor
  · rintro ⟨key, -, hc⟩
    split at hc
    · cases hold : Assoc.lookup existing.entries key <;> rw [hold] at hc <;> cases hc
    · next hkey =>
        cases hnew : incoming.get? key with
        | none =>
            rw [hnew] at hc
            cases hold : Assoc.lookup existing.entries key <;> rw [hold] at hc <;> cases hc
        | some value =>
            rw [hnew] at hc
            cases hold : Assoc.lookup existing.entries key with
            | none =>
                rw [hold] at hc
                cases hc
            | some current =>
                rw [hold] at hc
                exact ⟨key, current, value, hkey, hold, hnew, hc⟩
  · rintro ⟨key, current, value, hkey, hold, hnew, hc⟩
    refine ⟨key, ?_, ?_⟩
    · rw [mem_sortedKeys]
      refine Assoc.mem_keys_of_lookup (?_ : _ = some value)
      rw [herase, if_neg hkey, hnew]
    · rw [if_neg hkey, hnew, show Assoc.lookup existing.entries key = some current from hold]
      exact hc

/-- The conflicts of both sides, and those a merge finds. -/
def updatedConflicts (existing incoming : Dict String Value) : List Value :=
  unionJsonLists (unionJsonLists (mergeConflicts existing) (mergeConflicts incoming))
    (mergeKeys existing incoming).2

theorem get?_mergeConflicts (existing incoming : Dict String Value) :
    (mergeMeta existing incoming).1.get? "merge_conflicts" =
      if (updatedConflicts existing incoming).isEmpty = true then existing.get? "merge_conflicts"
      else some (.list (updatedConflicts existing incoming)) := by
  change (if (updatedConflicts existing incoming).isEmpty = true then
    (mergeKeys existing incoming).1 else (mergeKeys existing incoming).1.set "merge_conflicts"
      (.list (updatedConflicts existing incoming))).get? "merge_conflicts" = _
  split
  · rw [mergeKeys_get?, Dict.get?_erase, if_pos rfl]
    cases existing.get? "merge_conflicts" <;> rfl
  · exact Dict.get?_set_self _ _ _

theorem mergeConflicts_mergeMeta (existing incoming : Dict String Value) :
    mergeConflicts (mergeMeta existing incoming).1 = updatedConflicts existing incoming := by
  rw [mergeConflicts, get?_mergeConflicts]
  split
  · next hempty =>
      have hnil := List.isEmpty_iff.mp hempty
      rw [hnil, List.eq_nil_iff_forall_not_mem]
      intro c hc
      obtain ⟨d, hd, -⟩ :=
        covers_union_left (mergeConflicts existing) (mergeConflicts incoming) c hc
      obtain ⟨e, he, -⟩ := covers_union_left _ (mergeKeys existing incoming).2 d hd
      change e ∈ updatedConflicts existing incoming at he
      rw [hnil] at he
      cases he
  · rfl

/-- Metadata that has taken in other metadata, or has recorded where it differs. -/
structure Absorbed (metadata incoming : Dict String Value) : Prop where
  entries : ∀ key, key ≠ "merge_conflicts" → ∀ value, incoming.get? key = some value →
    ∃ current, metadata.get? key = some current ∧
      SameJson (mergeMetaValue current value [key]).1 current ∧
      Covers (mergeConflicts metadata) (mergeMetaValue current value [key]).2
  conflicts : Covers (mergeConflicts metadata) (mergeConflicts incoming)
  orderly : Orderly (mergeConflicts metadata)

theorem absorbed_self {metadata : Dict String Value} (h : Orderly (mergeConflicts metadata)) :
    Absorbed metadata metadata := by
  refine ⟨fun key _ value hvalue => ⟨value, hvalue, ?_, ?_⟩, .refl _, h⟩
  · rw [mergeMetaValue_of_pyEq (Value.pyEq_refl value)]
    exact .refl value
  · rw [mergeMetaValue_of_pyEq (Value.pyEq_refl value)]
    exact .of_subset (List.nil_subset _)

/-- What a merge makes of metadata has taken the incoming one in. -/
theorem absorbed_mergeMeta (existing incoming : Dict String Value) :
    Absorbed (mergeMeta existing incoming).1 incoming := by
  have hfound : Covers (mergeConflicts (mergeMeta existing incoming).1)
      (mergeKeys existing incoming).2 := by
    rw [mergeConflicts_mergeMeta]
    exact covers_union_right _ _
  refine ⟨fun key hkey value hvalue => ?_, ?_, ?_⟩
  · rw [get?_mergeMeta existing incoming hkey, hvalue]
    cases hold : existing.get? key with
    | none =>
        rw [mergedOption]
        refine ⟨value, rfl, ?_⟩
        rw [mergeMetaValue_of_pyEq (Value.pyEq_refl value)]
        exact ⟨.refl value, .of_subset (List.nil_subset _)⟩
    | some current =>
        rw [mergedOption]
        obtain ⟨hsame, hsubset⟩ := mergeMetaValue_again current value [key]
        refine ⟨_, rfl, congrArg Value.canonical hsame, hfound.trans (.of_subset ?_)⟩
        exact fun c hc =>
          mem_mergeKeys_conflicts.mpr ⟨key, current, value, hkey, hold, hvalue, hsubset hc⟩
  · rw [mergeConflicts_mergeMeta]
    exact (covers_union_left _ _).trans (covers_union_right _ _)
  · rw [mergeConflicts_mergeMeta]
    exact orderly_union _ _

/-- What was taken in is the same JSON when it is merged again, and no conflict is new. -/
theorem Absorbed.mergeMeta {metadata incoming : Dict String Value}
    (h : Absorbed metadata incoming) : (mergeMeta metadata incoming).2 = 0 ∧
      ∀ key, Option.Rel SameJson ((mergeMeta metadata incoming).1.get? key)
        (metadata.get? key) := by
  have hfound : Covers (mergeConflicts metadata) (mergeKeys metadata incoming).2 := by
    intro c hc
    obtain ⟨key, current, value, hkey, hold, hnew, hc⟩ := mem_mergeKeys_conflicts.mp hc
    obtain ⟨other, hother, -, hcovers⟩ := h.entries key hkey value hnew
    rw [hold] at hother
    cases hother
    exact hcovers c hc
  have hrecorded := h.orderly.union h.conflicts
  have hupdated := (h.orderly.of_map hrecorded).union ((covers_of_map hrecorded).trans hfound)
  constructor
  · have hlength := congrArg List.length hupdated
    rw [List.length_map, List.length_map] at hlength
    change ((updatedConflicts metadata incoming).length : ℤ) - (unionJsonLists
      (mergeConflicts metadata) (mergeConflicts incoming)).length = 0
    rw [updatedConflicts, hlength]
    exact sub_self _
  · intro key
    by_cases hkey : key = "merge_conflicts"
    · subst hkey
      rw [get?_mergeConflicts]
      split
      · cases metadata.get? "merge_conflicts" with
        | none => exact .none
        | some current => exact .some (.refl current)
      · next hsome =>
          have hsame : (updatedConflicts metadata incoming).map Value.canonical =
              (mergeConflicts metadata).map Value.canonical := hupdated.trans hrecorded
          unfold mergeConflicts listValue at hsame
          split at hsame
          · next items hitems =>
              rw [hitems]
              exact .some (sameJson_list hsame)
          · rw [List.map_nil, List.map_eq_nil_iff] at hsame
            rw [hsame] at hsome
            exact absurd rfl hsome
    · rw [get?_mergeMeta metadata incoming hkey]
      cases hnew : incoming.get? key with
      | none =>
          cases metadata.get? key with
          | none => exact .none
          | some current => exact .some (.refl current)
      | some value =>
          obtain ⟨current, hcurrent, hsame, -⟩ := h.entries key hkey value hnew
          rw [hcurrent]
          exact .some hsame

theorem Absorbed.congr {metadata other incoming : Dict String Value}
    (h : Absorbed metadata incoming) (hsame : ∀ key, other.get? key = metadata.get? key) :
    Absorbed other incoming := by
  have hconflicts : mergeConflicts other = mergeConflicts metadata := by
    rw [mergeConflicts, mergeConflicts, hsame]
  refine ⟨fun key hkey value hvalue => ?_, ?_, ?_⟩
  · rw [hsame, hconflicts]
    exact h.entries key hkey value hvalue
  · rw [hconflicts]
    exact h.conflicts
  · rw [hconflicts]
    exact h.orderly

/-- The list of result conflicts may be replaced by a union that covers the incoming one. -/
theorem Absorbed.setConflicts {metadata incoming : Dict String Value}
    (h : Absorbed metadata incoming) {first second : List Value}
    (hlist : ∀ value, incoming.get? "result_conflicts" = some value → ∃ items,
      value = .list items ∧ Covers (unionJsonLists first second) items) :
    Absorbed (metadata.set "result_conflicts" (.list (unionJsonLists first second))) incoming := by
  have hconflicts : mergeConflicts
      (metadata.set "result_conflicts" (.list (unionJsonLists first second))) =
        mergeConflicts metadata := by
    rw [mergeConflicts, mergeConflicts, Dict.get?_set_of_ne _ _ (by decide)]
  refine ⟨fun key hkey value hvalue => ?_, ?_, ?_⟩
  · rw [hconflicts]
    by_cases hlisted : key = "result_conflicts"
    · subst hlisted
      obtain ⟨items, rfl, hcovers⟩ := hlist value hvalue
      refine ⟨_, Dict.get?_set_self _ _ _, ?_⟩
      by_cases heq : Value.pyEq (.list (unionJsonLists first second)) (.list items) = true
      · rw [mergeMetaValue_of_pyEq heq]
        exact ⟨.refl _, .of_subset (List.nil_subset _)⟩
      · rw [mergeMetaValue_list heq]
        exact ⟨sameJson_list ((orderly_union first second).union hcovers),
          .of_subset (List.nil_subset _)⟩
    · rw [Dict.get?_set_of_ne _ _ (Ne.symm hlisted)]
      exact h.entries key hkey value hvalue
  · rw [hconflicts]
    exact h.conflicts
  · rw [hconflicts]
    exact h.orderly

/-! ## One node -/

/-- The list of result conflicts of a node is a list, if there is one. -/
def Listing (node : Node) : Prop :=
  ∀ value, node.metadata.get? "result_conflicts" = some value → value = .list (listed node)

theorem listing_of_none {node : Node} (h : node.metadata.get? "result_conflicts" = none) :
    Listing node := by
  intro value hvalue
  rw [h] at hvalue
  cases hvalue

/-- The conflicts a merge adds to the ones a node lists. -/
def addedConflicts (H : Hashing) (existing incoming : Node) : List Value :=
  listed incoming ++ ((differingResult existing incoming).map (resultConflict H)).toList

/-- Conflicts are listed as stores and merges list them, and Python tells the ones of the two nodes
apart. -/
structure Discerned (H : Hashing) (existing incoming : Node) : Prop where
  old : Listing existing
  new : Listing incoming
  distinct : ∀ a ∈ listed existing, ∀ b ∈ addedConflicts H existing incoming, Distinct a b

/-- There is nothing to tell apart where the node that is there lists no conflicts. -/
theorem discerned_of_unlisted {H : Hashing} {existing incoming : Node}
    (hold : existing.metadata.get? "result_conflicts" = none) (hnew : Listing incoming) :
    Discerned H existing incoming := by
  refine ⟨listing_of_none hold, hnew, fun a ha => ?_⟩
  rw [listed, hold] at ha
  cases ha

/-- Merging the node would change nothing and count nothing. -/
def Settled (H : Hashing) (existing incoming : Node) : Prop :=
  Value.pyEq (.dict (mergedMeta H existing incoming).1.entries) (.dict existing.metadata.entries) =
    true ∧ (mergedMeta H existing incoming).2 = (false, 0)

theorem pyEq_dict_of_rel {d d' : Dict String Value}
    (h : ∀ key, Option.Rel SameJson (d.get? key) (d'.get? key)) :
    Value.pyEq (.dict d.entries) (.dict d'.entries) = true := by
  rw [Value.pyEq_dict_iff]
  intro key
  have hkey := h key
  change Option.Rel _ (d.get? key) (d'.get? key)
  generalize d.get? key = value, d'.get? key = other at hkey ⊢
  cases hkey with
  | none => exact .none
  | some hsame => exact .some (pyEq_of_sameJson hsame)

/-- The list a conflict is added to has what both nodes list. -/
theorem covers_listed {H : Hashing} {existing incoming : Node} (h : Discerned H existing incoming) :
    Covers (listValue ((mergeMeta existing.metadata incoming.metadata).1.get? "result_conflicts"))
      (listed existing ++ listed incoming) := by
  rw [listValue_mergeMeta]
  split
  · intro c hc
    exact exists_mem_unionJsonLists (List.mem_append.mp hc)
  · next hunited =>
      cases hold : existing.metadata.get? "result_conflicts" with
      | none =>
          have hempty : listed existing = [] := by
            rw [listed, hold]
            rfl
          rw [takenOver, hold, Option.none_or, hempty, List.nil_append]
          exact .refl _
      | some old =>
          have htaken : takenOver existing incoming = listed existing := by
            rw [takenOver, hold, listed, hold]
            rfl
          rw [htaken]
          obtain rfl := h.old old hold
          cases hnew : incoming.metadata.get? "result_conflicts" with
          | none =>
              have hempty : listed incoming = [] := by
                rw [listed, hnew]
                rfl
              rw [hempty, List.append_nil]
              exact .refl _
          | some new =>
              obtain rfl := h.new new hnew
              have hequal :
                  Value.pyEq (.list (listed existing)) (.list (listed incoming)) = true := by
                rw [united, hold, hnew] at hunited
                simpa using hunited
              rw [Value.pyEq_list_iff] at hequal
              intro c hc
              rcases List.mem_append.mp hc with hc | hc
              · exact ⟨c, hc, .refl c⟩
              · obtain ⟨d, hd, heq⟩ := exists_left_of_forall₂ hequal hc
                exact ⟨d, hd, (h.distinct d hd c (List.mem_append_left _ hc) heq).symm⟩

/-- A node whose metadata has taken the incoming one in is settled, if it lists the other result. -/
theorem settled_of_absorbed {H : Hashing} {node incoming : Node}
    (h : Absorbed node.metadata incoming.metadata)
    (hresult : ∀ result, differingResult node incoming = some result → ∃ items,
      node.metadata.get? "result_conflicts" = some (.list items) ∧ Orderly items ∧
        Covers items [resultConflict H result]) : Settled H node incoming := by
  obtain ⟨hcount, hrel⟩ := h.mergeMeta
  unfold Settled mergedMeta
  dsimp only
  cases hdiffering : differingResult node incoming with
  | none =>
      dsimp only
      rw [hcount]
      exact ⟨pyEq_dict_of_rel hrel, rfl⟩
  | some result =>
      dsimp only
      rw [hcount]
      obtain ⟨items, hitems, horderly, hcovers⟩ := hresult result hdiffering
      have hlist := hrel "result_conflicts"
      rw [hitems] at hlist
      generalize hmerged : (mergeMeta node.metadata incoming.metadata).1.get? "result_conflicts" =
        merged at hlist
      cases hlist with
      | some hsame =>
          obtain ⟨others, rfl, hothers⟩ := hsame.symm.list
          have hunion := (horderly.of_map hothers.symm).union
            ((covers_of_map hothers.symm).trans hcovers)
          have hlength := congrArg List.length hunion
          rw [List.length_map, List.length_map] at hlength
          refine ⟨pyEq_dict_of_rel fun key => ?_, ?_⟩
          · by_cases hkey : key = "result_conflicts"
            · subst hkey
              rw [Dict.get?_set_self, hitems]
              exact .some (sameJson_list (hunion.trans hothers.symm))
            · rw [Dict.get?_set_of_ne _ _ (Ne.symm hkey)]
              exact hrel key
          · refine Prod.ext (decide_eq_false ?_) rfl
            rw [listValue, hlength]
            exact lt_irrefl _

/-- What the metadata of a node becomes has taken the incoming one in. -/
theorem Discerned.absorbed {H : Hashing} {existing incoming : Node}
    (h : Discerned H existing incoming) :
    Absorbed (mergedMeta H existing incoming).1 incoming.metadata := by
  unfold mergedMeta
  dsimp only
  split
  · exact absorbed_mergeMeta _ _
  · refine (absorbed_mergeMeta _ _).setConflicts fun value hvalue => ?_
    obtain rfl := h.new value hvalue
    exact ⟨_, rfl, (covers_union_left _ _).trans ((covers_listed h).trans
      (.of_subset (List.subset_append_right _ _)))⟩

/-- A node that was given the merged metadata is settled. -/
theorem Discerned.settled {H : Hashing} {existing incoming : Node}
    (h : Discerned H existing incoming) {metadata : Dict String Value}
    (hmetadata : ∀ key, metadata.get? key = (mergedMeta H existing incoming).1.get? key) :
    Settled H { existing with metadata } incoming := by
  refine settled_of_absorbed (h.absorbed.congr hmetadata) fun result hresult => ?_
  have hdiffering : differingResult existing incoming = some result := hresult
  have hlist : ∃ others, metadata.get? "result_conflicts" =
      some (.list (unionJsonLists others [resultConflict H result])) := by
    rw [hmetadata, mergedMeta]
    dsimp only
    rw [hdiffering]
    exact ⟨_, Dict.get?_set_self _ _ _⟩
  obtain ⟨others, hlist⟩ := hlist
  exact ⟨_, hlist, orderly_union _ _, covers_union_right _ _⟩

theorem Covers.map_subset {l other : List Value} (h : Covers l other) :
    other.map Value.canonical ⊆ l.map Value.canonical := by
  intro text htext
  obtain ⟨c, hc, rfl⟩ := List.mem_map.mp htext
  obtain ⟨d, hd, hsame⟩ := h c hc
  exact List.mem_map.mpr ⟨d, hd, hsame.symm⟩

theorem Covers.length_le {l other : List Value} (h : Covers l other)
    (hnodup : (other.map Value.canonical).Nodup) : other.length ≤ l.length := by
  have hlength := (List.subperm_of_subset hnodup h.map_subset).length_le
  rwa [List.length_map, List.length_map] at hlength

/-- A list that covers another one and is no longer is covered by it. -/
theorem Covers.of_length {l other : List Value} (h : Covers l other)
    (hnodup : (other.map Value.canonical).Nodup) (hlength : l.length ≤ other.length) :
    Covers other l := by
  have hperm := (List.subperm_of_subset hnodup h.map_subset).perm_of_length_le (by
    rw [List.length_map, List.length_map]
    exact hlength)
  intro c hc
  obtain ⟨d, hd, hsame⟩ := List.mem_map.mp (hperm.mem_iff.mpr (List.mem_map_of_mem hc))
  exact ⟨d, hd, hsame.symm⟩

/-- A list of conflicts that is equal to the one it was made of is not longer. -/
theorem length_updatedConflicts_le {existing incoming : Dict String Value}
    (hsame : Option.Rel (fun v w => Value.pyEq v w = true)
      ((mergeMeta existing incoming).1.get? "merge_conflicts")
      (existing.get? "merge_conflicts")) :
    (updatedConflicts existing incoming).length ≤ (mergeConflicts existing).length := by
  rw [get?_mergeConflicts] at hsame
  split at hsame
  · next hempty =>
      rw [List.isEmpty_iff.mp hempty]
      exact Nat.zero_le _
  · generalize hlisted : existing.get? "merge_conflicts" = listed at hsame
    cases hsame with
    | some heq =>
        obtain ⟨items, rfl⟩ := Value.pyEq_list_left heq
        rw [mergeConflicts, hlisted]
        rw [Value.pyEq_list_iff] at heq
        exact heq.length_eq.le

/-- A merge that leaves the conflicts as they are counts none. -/
theorem mergeMeta_uncounted {existing incoming : Dict String Value}
    (h : Orderly (mergeConflicts existing))
    (hsame : Option.Rel (fun v w => Value.pyEq v w = true)
      ((mergeMeta existing incoming).1.get? "merge_conflicts")
      (existing.get? "merge_conflicts")) : (mergeMeta existing incoming).2 = 0 := by
  have hle := (covers_union_left (unionJsonLists (mergeConflicts existing)
    (mergeConflicts incoming)) (mergeKeys existing incoming).2).length_le (orderly_union _ _).1
  have hold := (covers_union_left (mergeConflicts existing) (mergeConflicts incoming)).length_le h.1
  have hge := length_updatedConflicts_le hsame
  rw [updatedConflicts] at hge
  have heq := le_antisymm (hge.trans hold) hle
  change ((updatedConflicts existing incoming).length : ℤ) - (unionJsonLists
    (mergeConflicts existing) (mergeConflicts incoming)).length = 0
  rw [updatedConflicts, heq]
  exact sub_self _

theorem get?_mergedMeta {H : Hashing} (existing incoming : Node) {key : String}
    (h : key ≠ "result_conflicts") : (mergedMeta H existing incoming).1.get? key =
      (mergeMeta existing.metadata incoming.metadata).1.get? key := by
  unfold mergedMeta
  dsimp only
  split
  · rfl
  · exact Dict.get?_set_of_ne _ _ h.symm

/-- A merge that leaves a node as it is counts nothing, so it is settled. -/
theorem Discerned.settled_of_unchanged {H : Hashing} {existing incoming : Node}
    (h : Discerned H existing incoming) (horderly : Orderly (mergeConflicts existing.metadata))
    (hsame : Value.pyEq (.dict (mergedMeta H existing incoming).1.entries)
      (.dict existing.metadata.entries) = true) : Settled H existing incoming := by
  refine ⟨hsame, ?_⟩
  rw [Value.pyEq_dict_iff] at hsame
  have hcount : (mergeMeta existing.metadata incoming.metadata).2 = 0 := by
    apply mergeMeta_uncounted horderly
    have hconflicts := hsame "merge_conflicts"
    change Option.Rel _ ((mergedMeta H existing incoming).1.get? "merge_conflicts")
      (existing.metadata.get? "merge_conflicts") at hconflicts
    rw [get?_mergedMeta existing incoming (by decide)] at hconflicts
    exact hconflicts
  unfold mergedMeta
  dsimp only
  rw [hcount]
  cases hresult : differingResult existing incoming with
  | none => rfl
  | some result =>
      dsimp only
      rw [Prod.mk.injEq, decide_eq_false_iff_not, length_lt_union_iff]
      refine ⟨?_, rfl⟩
      rintro ⟨hunlisted, -⟩
      -- the conflict is in the merged list, which is equal to the list of the node
      have hlist := hsame "result_conflicts"
      change Option.Rel _ ((mergedMeta H existing incoming).1.get? "result_conflicts")
        (existing.metadata.get? "result_conflicts") at hlist
      rw [mergedMeta] at hlist
      dsimp only at hlist
      rw [hresult] at hlist
      dsimp only at hlist
      rw [Dict.get?_set_self] at hlist
      generalize hold : existing.metadata.get? "result_conflicts" = old at hlist
      cases hlist with
      | some heq =>
          obtain rfl := h.old _ hold
          rw [Value.pyEq_list_iff] at heq
          obtain ⟨a, ha, hequal⟩ := exists_of_forall₂ heq
            (mem_unionJsonLists_singleton _ (resultConflict H result))
          have hadded : resultConflict H result ∈ addedConflicts H existing incoming := by
            rw [addedConflicts, hresult]
            exact List.mem_append_right _ List.mem_cons_self
          have hsameJson := h.distinct a ha _ hadded (Value.pyEq_symm hequal)
          obtain ⟨d, hd, hcovered⟩ := covers_listed h a (List.mem_append_left _ ha)
          have hlisted := lists_iff.mpr (List.mem_map.mpr
            ⟨d, hd, (hsameJson.symm.trans hcovered).symm⟩)
          rw [hunlisted] at hlisted
          cases hlisted

/-- What is under a key stays under it. -/
theorem isSome_get?_mergedMeta {H : Hashing} (existing incoming : Node) {key : String}
    (h : (existing.metadata.get? key).isSome = true) :
    ((mergedMeta H existing incoming).1.get? key).isSome = true := by
  have hmerged : ((mergeMeta existing.metadata incoming.metadata).1.get? key).isSome = true := by
    by_cases hkey : key = "merge_conflicts"
    · subst hkey
      rw [get?_mergeConflicts]
      split
      · exact h
      · rfl
    · rw [get?_mergeMeta _ _ hkey]
      obtain ⟨current, hcurrent⟩ := Option.isSome_iff_exists.mp h
      rw [hcurrent]
      cases incoming.metadata.get? key <;> rfl
  unfold mergedMeta
  dsimp only
  split
  · exact hmerged
  · rw [Dict.get?_set]
    split
    · rfl
    · exact hmerged

/-- The metadata a merged node is left with: the merged one, or its own if Python takes the two for
equal. -/
inductive Left (H : Hashing) (existing incoming : Node) (metadata : Dict String Value) : Prop
  | merged (h : ∀ key, metadata.get? key = (mergedMeta H existing incoming).1.get? key)
  | own (h : metadata = existing.metadata)
      (hsame : Value.pyEq (.dict (mergedMeta H existing incoming).1.entries)
        (.dict existing.metadata.entries) = true)

theorem Left.settled {H : Hashing} {existing incoming : Node} {metadata : Dict String Value}
    (h : Left H existing incoming metadata) (hdiscerned : Discerned H existing incoming)
    (horderly : Orderly (mergeConflicts existing.metadata)) :
    Settled H { existing with metadata } incoming := by
  cases h with
  | merged h => exact hdiscerned.settled h
  | own h hsame =>
      subst h
      exact hdiscerned.settled_of_unchanged horderly hsame

/-! ## The run -/

/-- The destination keeps what it is given. -/
structure Destination.Keeping (dst : Destination) : Prop where
  put_find? : ∀ {s t node}, dst.find? s node.id = none → dst.put s node = .ok t →
    dst.find? t node.id = some node
  updateMeta_find? : ∀ {s t id patch existing}, dst.find? s id = some existing →
    dst.updateMeta s id patch = .ok t → ∃ metadata,
      dst.find? t id = some { existing with metadata } ∧
        ∀ key, metadata.get? key = (patch.get? key).or (existing.metadata.get? key)

theorem find?_updateMeta {store after : MemoryStore} {id : String} {patch : Dict String Value}
    {node : Node} (hfind : store.find? id = some node) (h : store.updateMeta id patch = .ok after) :
    ∃ metadata, after.find? id = some { node with metadata } ∧
      ∀ key, metadata.get? key = (patch.get? key).or (node.metadata.get? key) := by
  have hget : store.get id = .ok node := by rw [MemoryStore.get, hfind]
  rw [MemoryStore.updateMeta, hget] at h
  obtain rfl := Except.ok.inj h
  refine ⟨_, ?_, Dict.get?_foldl_set patch.nodupKeys _⟩
  rw [MemoryStore.find?_replaceMeta, hfind, Option.map_some, if_pos]
  exact (MemoryStore.mem_of_find? hfind).2

theorem keeping_memory (H : Hashing) : (Destination.memory H).Keeping := by
  constructor
  · intro s t node hnone hput
    rcases MemoryStore.put_cases hput with hadded | ⟨existing, hfind, -⟩
    · exact hadded.find?_self
    · have hsome : s.find? node.id = none := hnone
      rw [hsome] at hfind
      cases hfind
  · exact find?_updateMeta

section Run

variable {H : Hashing} {dst : Destination} {replay : Bool}

/-- What became of a node of the plan: it was copied, or taken in by the node that was there. -/
def Taken (H : Hashing) (dst : Destination) (s t : dst.State) (incoming : Node) : Prop :=
  match dst.find? s incoming.id with
  | none => dst.find? t incoming.id = some incoming
  | some existing => ∃ metadata,
      dst.find? t incoming.id = some { existing with metadata } ∧ Left H existing incoming metadata

theorem Taken.congr {s s' t t' : dst.State} {incoming : Node} (h : Taken H dst s t incoming)
    (hs : dst.find? s' incoming.id = dst.find? s incoming.id)
    (ht : dst.find? t' incoming.id = dst.find? t incoming.id) : Taken H dst s' t' incoming := by
  unfold Taken
  rw [hs, ht]
  exact h

/-- One round takes its node. -/
theorem taken_mergeNode (hkeeps : dst.Keeping) {s t : dst.State} {report report' : MergeReport}
    {incoming : Node} (h : mergeNode H dst s report incoming = .ok (t, report')) :
    Taken H dst s t incoming := by
  rw [mergeNode] at h
  rw [Taken]
  cases hfind : dst.find? s incoming.id with
  | none =>
      rw [hfind] at h
      obtain ⟨t', hput, heq⟩ := map_ok_iff.mp h
      cases heq
      exact hkeeps.put_find? hfind hput
  | some existing =>
      rw [hfind] at h
      dsimp only at h
      split at h
      · next hsame =>
          cases h
          exact ⟨existing.metadata, hfind, .own rfl hsame⟩
      · obtain ⟨t', hupdate, heq⟩ := map_ok_iff.mp h
        cases heq
        have hid := dst.find?_id hfind
        obtain ⟨metadata, hfound, hmetadata⟩ := hkeeps.updateMeta_find? (hid ▸ hfind) hupdate
        refine ⟨metadata, hid ▸ hfound, .merged fun key => ?_⟩
        rw [hmetadata]
        cases hmerged : (mergedMeta H existing incoming).1.get? key with
        | some value => rfl
        | none =>
            rw [Option.none_or]
            by_contra hne
            have hsome := isSome_get?_mergedMeta (H := H) existing incoming
              (Option.isSome_iff_ne_none.mpr hne)
            rw [hmerged] at hsome
            cases hsome

/-- The second loop takes every node of the plan, and no other one changes. -/
theorem taken_mergeNodes (hkeeps : dst.Keeping) {s t : dst.State} {report report' : MergeReport}
    {plan : List Node} (hnodup : (plan.map Node.id).Nodup)
    (h : mergeNodes H dst s report plan = .ok (t, report')) :
    (∀ id, id ∉ plan.map Node.id → dst.find? t id = dst.find? s id) ∧
      ∀ incoming ∈ plan, Taken H dst s t incoming := by
  induction plan generalizing s report with
  | nil =>
      cases h
      exact ⟨fun _ _ => rfl, fun _ h => absurd h List.not_mem_nil⟩
  | cons incoming rest ih =>
      rw [List.map_cons, List.nodup_cons] at hnodup
      obtain ⟨⟨s', mid⟩, hstep, hrest⟩ := bind_ok_iff.mp h
      obtain ⟨hkept, -⟩ := mergeNode_spec hstep
      obtain ⟨hframe, htaken⟩ := ih hnodup.2 hrest
      refine ⟨fun id hid => ?_, List.forall_mem_cons.mpr ⟨?_, fun node hnode => ?_⟩⟩
      · rw [List.map_cons, List.mem_cons, not_or] at hid
        rw [hframe id hid.2, hkept id hid.1]
      · exact (taken_mergeNode hkeeps hstep).congr rfl (hframe incoming.id hnodup.1)
      · have hne : node.id ≠ incoming.id :=
          fun heq => hnodup.1 (heq ▸ List.mem_map_of_mem hnode)
        exact (htaken node hnode).congr (hkept node.id hne).symm rfl

/-- A merge takes every node of its plan. -/
theorem taken_merge (hkeeps : dst.Keeping) {s t : dst.State} {src : Source} {plan : List Node}
    {report : MergeReport} (hplan : prepareMerge H src = .ok plan)
    (h : merge H dst replay s src = .ok (t, report)) :
    precheck dst replay s plan = .ok () ∧
      (∀ id, id ∉ plan.map Node.id → dst.find? t id = dst.find? s id) ∧
        ∀ incoming ∈ plan, Taken H dst s t incoming := by
  rw [merge, hplan] at h
  obtain ⟨passed, hchecked, hmerge⟩ := bind_ok_iff.mp
    (show mergePrepared H dst replay s plan = .ok (t, report) from h)
  exact ⟨hchecked, taken_mergeNodes hkeeps
    (@nodup_prepareRoots H src _ [] plan List.nodup_nil hplan) hmerge⟩

/-! ## The repetition -/

/-- A node of a plan may be merged more than once: the conflicts of the node that is there, or of
the one that is copied, are as unions leave them, and Python tells them apart. -/
def Mergeable (H : Hashing) (dst : Destination) (s : dst.State) (incoming : Node) : Prop :=
  match dst.find? s incoming.id with
  | none => Orderly (mergeConflicts incoming.metadata)
  | some existing => Discerned H existing incoming ∧ Orderly (mergeConflicts existing.metadata)

/-- The node is in the destination, and merging it again changes nothing. -/
def Merged (H : Hashing) (dst : Destination) (replay : Bool) (s : dst.State) (incoming : Node) :
    Prop :=
  ∃ existing, dst.find? s incoming.id = some existing ∧ Settled H existing incoming ∧
    existing.identity = incoming.identity ∧
      (replay = true → differingResult existing incoming = none)

/-- The first loop passes a plan whose nodes are all as they should be. -/
theorem precheck_ok_iff {s : dst.State} {plan : List Node} :
    precheck dst replay s plan = .ok () ↔ ∀ incoming ∈ plan, ∀ existing,
      dst.find? s incoming.id = some existing → existing.identity = incoming.identity ∧
        (replay = true → differingResult existing incoming = none) := by
  induction plan with
  | nil => exact ⟨fun _ _ h => absurd h List.not_mem_nil, fun _ => rfl⟩
  | cons incoming rest ih =>
      rw [List.forall_mem_cons, ← ih, precheck]
      cases hfind : dst.find? s incoming.id with
      | none =>
          exact ⟨fun h => ⟨fun existing hsome => (by cases hsome), h⟩, And.right⟩
      | some existing =>
          dsimp only
          split
          · next hne =>
              exact ⟨fun h => (by cases h), fun h => absurd (h.1 existing rfl).1 hne⟩
          · next hsame =>
              split
              · next hdiffers =>
                  refine ⟨fun h => (by cases h), fun h => ?_⟩
                  have hnone := (h.1 existing rfl).2 hdiffers.1
                  rw [hnone] at hdiffers
                  exact absurd hdiffers.2 Bool.false_ne_true
              · next hagrees =>
                  refine ⟨fun h => ⟨fun other hother => ?_, h⟩, And.right⟩
                  cases hother
                  refine ⟨not_not.mp hsame, fun hreplay => ?_⟩
                  by_contra hne
                  exact hagrees ⟨hreplay, Option.isSome_iff_ne_none.mpr hne⟩

/-- A node that was taken is merged. -/
theorem Taken.merged {s t : dst.State} {incoming : Node} (h : Taken H dst s t incoming)
    (hmergeable : Mergeable H dst s incoming)
    (hchecked : ∀ existing, dst.find? s incoming.id = some existing →
      existing.identity = incoming.identity ∧
        (replay = true → differingResult existing incoming = none)) :
    Merged H dst replay t incoming := by
  rw [Taken] at h
  rw [Mergeable] at hmergeable
  cases hfind : dst.find? s incoming.id with
  | none =>
      rw [hfind] at h hmergeable
      have hsame : differingResult incoming incoming = none := if_pos rfl
      refine ⟨incoming, h, settled_of_absorbed (absorbed_self hmergeable) ?_, rfl, fun _ => hsame⟩
      intro result hresult
      rw [hsame] at hresult
      cases hresult
  | some existing =>
      rw [hfind] at h hmergeable
      obtain ⟨metadata, hfound, hleft⟩ := h
      obtain ⟨hidentity, hresult⟩ := hchecked existing hfind
      exact ⟨_, hfound, hleft.settled hmergeable.1 hmergeable.2, hidentity, hresult⟩

/-- A merged node is passed over. -/
theorem Merged.mergeNode {s : dst.State} {incoming : Node} (h : Merged H dst replay s incoming)
    (report : MergeReport) : mergeNode H dst s report incoming =
      .ok (s, { report with existing := report.existing + 1 }) := by
  obtain ⟨existing, hfind, ⟨hsame, hcounts⟩, -⟩ := h
  rw [Merge.mergeNode, hfind]
  dsimp only
  rw [if_pos hsame, hcounts]
  simp only [Bool.toNat_false, Nat.add_zero, Int.add_zero]

theorem mergeNodes_merged {s : dst.State} {plan : List Node}
    (h : ∀ incoming ∈ plan, Merged H dst replay s incoming) (report : MergeReport) :
    mergeNodes H dst s report plan =
      .ok (s, { report with existing := report.existing + plan.length }) := by
  induction plan generalizing report with
  | nil => rfl
  | cons incoming rest ih =>
      obtain ⟨hfirst, hrest⟩ := List.forall_mem_cons.mp h
      rw [mergeNodes, hfirst.mergeNode]
      calc mergeNodes H dst s { report with existing := report.existing + 1 } rest
          = .ok (s, { report with existing := report.existing + 1 + rest.length }) := ih hrest _
        _ = .ok (s, { report with existing := report.existing + (incoming :: rest).length }) := by
            rw [List.length_cons, Nat.add_assoc, Nat.add_comm 1]

/-- A merge that is repeated finds every node of the source in the destination, changes none of
them and counts no conflict. -/
theorem merge_again (hkeeps : dst.Keeping) {s t : dst.State} {src : Source} {plan : List Node}
    {report : MergeReport} (hplan : prepareMerge H src = .ok plan)
    (hmergeable : ∀ incoming ∈ plan, Mergeable H dst s incoming)
    (h : merge H dst replay s src = .ok (t, report)) :
    merge H dst replay t src = .ok (t, ⟨0, plan.length, 0, 0⟩) := by
  obtain ⟨hchecked, -, htaken⟩ := taken_merge hkeeps hplan h
  rw [precheck_ok_iff] at hchecked
  have hmerged : ∀ incoming ∈ plan, Merged H dst replay t incoming := fun incoming hincoming =>
    (htaken incoming hincoming).merged (hmergeable incoming hincoming)
      (hchecked incoming hincoming)
  have hpassed : precheck dst replay t plan = .ok () := by
    rw [precheck_ok_iff]
    intro incoming hincoming existing hfind
    obtain ⟨other, hother, -, hsame⟩ := hmerged incoming hincoming
    rw [hfind] at hother
    cases hother
    exact hsame
  calc merge H dst replay t src = mergePrepared H dst replay t plan := by rw [merge, hplan]; rfl
    _ = mergeNodes H dst t ⟨0, 0, 0, 0⟩ plan := by rw [mergePrepared, hpassed]; rfl
    _ = .ok (t, ⟨0, 0 + plan.length, 0, 0⟩) := mergeNodes_merged hmerged _
    _ = .ok (t, ⟨0, plan.length, 0, 0⟩) := by rw [Nat.zero_add]

end Run

/-- The node of one result met by the node of another one, where no node lists a conflict. -/
theorem recorded_merged : ∃ (dst src t : MemoryStore) (plan : List Node) (report : MergeReport),
    recorded [.int 1] = .ok dst ∧ recorded [.int 2] = .ok src ∧
      prepareMerge .plain (.memory (fun _ => "") src) = .ok plan ∧
      merge .plain (.memory .plain) false dst (.memory (fun _ => "") src) = .ok (t, report) ∧
      report.resultConflicts = 1 ∧ plan.length = 2 ∧
      ∀ node ∈ dst.nodes ++ plan, node.metadata.get? "result_conflicts" = none ∧
        node.metadata.get? "merge_conflicts" = none := by
  have hok : ((recorded [.int 1]).bind fun dst => (recorded [.int 2]).bind fun src =>
      (prepareMerge .plain (.memory (fun _ => "") src)).bind fun plan =>
        (merge .plain (.memory .plain) false dst (.memory (fun _ => "") src)).bind fun merged =>
          Fallible.ensure (merged.2.resultConflicts = 1 ∧ plan.length = 2 ∧
            (dst.nodes ++ plan).all fun node =>
              (node.metadata.get? "result_conflicts").isNone &&
                (node.metadata.get? "merge_conflicts").isNone)
            (.valueError "")).isOk = true := by
    decide +kernel
  obtain ⟨⟨⟩, hrun⟩ := isOk_iff.mp hok
  obtain ⟨dst, hdst, hrun⟩ := bind_ok_iff.mp hrun
  obtain ⟨src, hsrc, hrun⟩ := bind_ok_iff.mp hrun
  obtain ⟨plan, hplan, hrun⟩ := bind_ok_iff.mp hrun
  obtain ⟨⟨t, report⟩, hmerge, hchecked⟩ := bind_ok_iff.mp hrun
  obtain ⟨hcount, hlength, hunlisted⟩ := ensure_ok_iff.mp hchecked
  refine ⟨dst, src, t, plan, report, hdst, hsrc, hplan, hmerge, hcount, hlength, ?_⟩
  intro node hnode
  have hboth := List.all_eq_true.mp hunlisted node hnode
  rwa [Bool.and_eq_true, Option.isNone_iff_eq_none, Option.isNone_iff_eq_none] at hboth

/-- A store with another result takes it over as a conflict, once. -/
theorem merge_again_recorded :
    ∃ dst src, recorded [.int 1] = .ok dst ∧ recorded [.int 2] = .ok src ∧
      ∃ (t : MemoryStore) (report : MergeReport),
        merge .plain (.memory .plain) false dst (.memory (fun _ => "") src) = .ok (t, report) ∧
        report.resultConflicts = 1 ∧
        merge .plain (.memory .plain) false t (.memory (fun _ => "") src) =
          .ok (t, ⟨0, 2, 0, 0⟩) := by
  obtain ⟨dst, src, t, plan, report, hdst, hsrc, hplan, hmerge, hcount, hlength, hunlisted⟩ :=
    recorded_merged
  refine ⟨dst, src, hdst, hsrc, t, report, hmerge, hcount, ?_⟩
  rw [← hlength]
  refine merge_again (keeping_memory .plain) hplan (fun incoming hincoming => ?_) hmerge
  obtain ⟨hnew, hnewConflicts⟩ := hunlisted incoming (List.mem_append_right _ hincoming)
  unfold Mergeable
  split
  · rw [mergeConflicts, hnewConflicts]
    exact ⟨List.nodup_nil, .nil⟩
  · next existing hfind =>
      have hmem := (MemoryStore.mem_of_find? hfind).1
      obtain ⟨hold, hconflicts⟩ := hunlisted existing (List.mem_append_left _ hmem)
      refine ⟨discerned_of_unlisted hold (listing_of_none hnew), ?_⟩
      rw [mergeConflicts, hconflicts]
      exact ⟨List.nodup_nil, .nil⟩

end Pollard.Merge
