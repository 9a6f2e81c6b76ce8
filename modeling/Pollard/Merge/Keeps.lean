import Pollard.Merge.Again

/-!
# What a merge keeps

A result that is known of a node is known after a merge, and no other one is.  A leaf of incoming
metadata is found at its path afterwards, or in a recorded conflict, where Python tells the values
the merge compares apart.
-/

namespace Pollard.Merge

open Lib Lib.Fallible
open Value (SameJson)

/-! ## Values -/

/-- Wherever the merge compares two values, Python tells them apart, and a list takes in the
other one. -/
def Faithful (existing incoming : Value) : Prop :=
  ∀ path a b, Meets existing incoming path a b →
    Distinct a b ∧ ∀ old new, a = .list old → b = .list new → TakesIn old new

theorem Faithful.entry {existing incoming current value : Value} {key : String}
    (h : Faithful existing incoming) (hne : ¬ existing.pyEq incoming = true)
    (hcurrent : existing.get? key = some current) (hvalue : incoming.get? key = some value) :
    Faithful current value :=
  fun _ _ _ hmeets => h _ _ _ (.entry hne hcurrent hvalue hmeets)

/-- What is left of a value that is merged: the merged one, or the one that was there if Python
takes the two for equal. -/
def Remains (merged existing remaining : Value) : Prop :=
  remaining = merged ∨ remaining = existing ∧ merged.pyEq existing = true

/-- A leaf below no key of a list is an item. -/
theorem IsLeaf.of_list {items : List Value} {path : List String} {leaf : Value}
    (h : IsLeaf (.list items) path leaf) : path = [] ∧ leaf ∈ items := by
  cases path with
  | nil =>
      cases h with
      | scalar h _ hlist =>
          cases h
          exact absurd rfl (hlist items)
      | item others h hmem =>
          cases h
          exact ⟨rfl, hmem⟩
  | cons key path =>
      obtain ⟨entry, hentry, -⟩ := h.entry
      cases hentry

/-- A leaf of an object is below one of its keys. -/
theorem IsLeaf.of_dict {entries : List (String × Value)} {path : List String} {leaf : Value}
    (h : IsLeaf (.dict entries) path leaf) : ∃ key rest value, path = key :: rest ∧
      Assoc.lookup entries key = some value ∧ IsLeaf value rest leaf := by
  cases path with
  | nil =>
      cases h with
      | scalar h hdict =>
          cases h
          exact absurd rfl (hdict entries)
      | item others h => cases h
  | cons key path =>
      obtain ⟨value, hvalue, hleaf⟩ := h.entry
      exact ⟨key, path, value, rfl, hvalue, hleaf⟩

/-- A leaf of the incoming value is in what is left, or its conflict is found. -/
theorem mergeMetaValue_keeps {existing incoming remaining leaf : Value} {path : List String}
    (hfaithful : Faithful existing incoming) (hleaf : IsLeaf incoming path leaf)
    (above : List String)
    (hremains : Remains (mergeMetaValue existing incoming above).1 existing remaining) :
    Shows remaining path leaf ∨
      Recorded (mergeMetaValue existing incoming above).2 (above ++ path) leaf := by
  induction hsize : sizeOf incoming using Nat.strong_induction_on
    generalizing existing incoming remaining path above with
  | _ size ih =>
    subst hsize
    obtain ⟨hdistinct, htakes⟩ := hfaithful _ _ _ (.here existing incoming)
    by_cases heq : existing.pyEq incoming = true
    · rw [mergeMetaValue_of_pyEq heq] at hremains
      have hexisting : remaining = existing := by
        rcases hremains with h | h
        · exact h
        · exact h.1
      rw [hexisting]
      exact .inl (hleaf.shows.sameJson (hdistinct heq).symm)
    · by_cases hdicts : ∃ old new, existing = .dict old ∧ incoming = .dict new
      · obtain ⟨old, new, rfl, rfl⟩ := hdicts
        obtain ⟨key, rest, value, rfl, hvalue, hrest⟩ := hleaf.of_dict
        obtain ⟨merged, hmerged, hentries, hconflicts⟩ := mergeMetaValue_dict heq above
        rw [hmerged] at hremains
        have hentry := hentries key
        rw [hvalue] at hentry
        cases hcurrent : Assoc.lookup old key with
        | none =>
            rw [hcurrent] at hentry
            rcases hremains with rfl | ⟨-, hsame⟩
            · exact .inl (.cons hentry hrest.shows)
            · rw [Value.pyEq_dict_iff] at hsame
              have hkey := hsame key
              rw [hentry, hcurrent] at hkey
              cases hkey
        | some current =>
            rw [hcurrent] at hentry
            have hsmall : sizeOf value < sizeOf (Value.dict new) := by
              have hlt := Value.sizeOf_lookup_lt hvalue
              rw [Value.dict.sizeOf_spec]
              omega
            have hfound : ∃ entry, remaining.get? key = some entry ∧
                Remains (mergeMetaValue current value (above ++ [key])).1 current entry := by
              rcases hremains with rfl | ⟨rfl, hsame⟩
              · exact ⟨_, hentry, .inl rfl⟩
              · rw [Value.pyEq_dict_iff] at hsame
                have hkey := hsame key
                rw [hentry, hcurrent] at hkey
                cases hkey with
                | some hkey => exact ⟨current, hcurrent, .inr ⟨rfl, hkey⟩⟩
            obtain ⟨entry, hget, hentryRemains⟩ := hfound
            rcases ih _ hsmall (hfaithful.entry heq hcurrent hvalue) hrest (above ++ [key])
              hentryRemains rfl with hshows | hrecorded
            · exact .inl (hshows.cons hget)
            · right
              rw [hconflicts, ← List.singleton_append, ← List.append_assoc]
              refine hrecorded.of_covered fun c hc => ⟨c, ?_, .refl c⟩
              rw [List.mem_flatMap]
              refine ⟨key, mem_sortedKeys.mpr (Assoc.mem_keys_of_lookup hvalue), ?_⟩
              rw [hcurrent, hvalue]
              exact hc
      · by_cases hlists : ∃ old new, existing = .list old ∧ incoming = .list new
        · obtain ⟨old, new, rfl, rfl⟩ := hlists
          obtain ⟨rfl, hmem⟩ := hleaf.of_list
          rw [mergeMetaValue_list heq] at hremains
          left
          rcases hremains with rfl | ⟨rfl, hsame⟩
          · obtain ⟨other, hother, hsame⟩ :=
              exists_mem_unionJsonLists (.inr hmem : leaf ∈ old ∨ leaf ∈ new)
            exact .item _ other rfl hother hsame.symm
          · rw [Value.pyEq_list_iff] at hsame
            obtain ⟨other, hother, hjson⟩ := (htakes old new rfl rfl).covered hsame hmem
            exact .item _ other rfl hother hjson.symm
        · right
          rw [mergeMetaValue_conflict heq (fun _ _ h => hdicts ⟨_, _, h⟩)
            (fun _ _ h => hlists ⟨_, _, h⟩)]
          exact recorded_conflict above hleaf.shows

/-! ## One node -/

/-- The results known of a node, as their texts. -/
def knownResults (node : Node) : List Value :=
  node.resultText.toList ++
    (listed node).filterMap fun conflict => (conflict.get? "result").map Value.canonical

theorem mem_knownResults {node : Node} {text : Value} : text ∈ knownResults node ↔
    node.resultText = some text ∨ ∃ conflict ∈ listed node, ∃ result,
      conflict.get? "result" = some result ∧ result.canonical = text := by
  simp [knownResults]

theorem mem_knownResults_of_covers {node : Node} {others : List Value} {conflict result : Value}
    (h : Covers (listed node) others) (hconflict : conflict ∈ others)
    (hresult : conflict.get? "result" = some result) : result.canonical ∈ knownResults node := by
  obtain ⟨other, hother, hsame⟩ := h conflict hconflict
  obtain ⟨same, hsameResult, hjson⟩ := hsame.get? hresult
  exact mem_knownResults.mpr (.inr ⟨other, hother, same, hsameResult, hjson.symm⟩)

section Left

variable {H : Hashing} {existing incoming : Node} {metadata : Dict String Value}

theorem Left.get? (h : Left H existing incoming metadata) (key : String) :
    metadata.get? key = (mergedMeta H existing incoming).1.get? key ∨
      metadata.get? key = existing.metadata.get? key ∧
        Option.Rel (fun v w => Value.pyEq v w = true)
          ((mergedMeta H existing incoming).1.get? key) (existing.metadata.get? key) := by
  cases h with
  | merged h => exact .inl (h key)
  | own h hsame =>
      rw [Value.pyEq_dict_iff] at hsame
      exact .inr ⟨by rw [h], hsame key⟩

/-- The conflicts the merged metadata lists. -/
def mergedListed (H : Hashing) (existing incoming : Node) : List Value :=
  listValue ((mergedMeta H existing incoming).1.get? "result_conflicts")

theorem mergedListed_eq : mergedListed H existing incoming =
    match differingResult existing incoming with
    | none => listValue
        ((mergeMeta existing.metadata incoming.metadata).1.get? "result_conflicts")
    | some result => unionJsonLists (listValue
        ((mergeMeta existing.metadata incoming.metadata).1.get? "result_conflicts"))
          [resultConflict H result] := by
  unfold mergedListed mergedMeta
  dsimp only
  cases differingResult existing incoming with
  | none => rfl
  | some result =>
      dsimp only
      rw [Dict.get?_set_self, listValue]

/-- A conflict of the merged list is one of the lists', or the added one. -/
theorem mem_mergedListed {c : Value} (h : c ∈ mergedListed H existing incoming) :
    c ∈ listed existing ∨ c ∈ addedConflicts H existing incoming := by
  have hlists : ∀ c ∈ listValue ((mergeMeta existing.metadata
      incoming.metadata).1.get? "result_conflicts"), c ∈ listed existing ∨ c ∈ listed incoming := by
    intro c hc
    rw [listValue_mergeMeta] at hc
    split at hc
    · exact mem_of_mem_unionJsonLists hc
    · rcases takenOver_eq existing incoming with htaken | ⟨-, htaken⟩
      · rw [htaken] at hc
        exact .inl hc
      · rw [htaken] at hc
        exact .inr hc
  rw [mergedListed_eq] at h
  rw [addedConflicts]
  cases hresult : differingResult existing incoming with
  | none =>
      rw [hresult] at h
      exact (hlists c h).imp_right (List.mem_append_left _)
  | some result =>
      rw [hresult] at h
      rcases mem_of_mem_unionJsonLists h with h | h
      · exact (hlists c h).imp_right (List.mem_append_left _)
      · exact .inr (List.mem_append_right _ h)

/-- The merged list has what both nodes list, and the added conflict. -/
theorem covers_mergedListed (h : Discerned H existing incoming) :
    Covers (mergedListed H existing incoming)
      (listed existing ++ addedConflicts H existing incoming) := by
  have hlists := covers_listed h
  rw [mergedListed_eq, addedConflicts, ← List.append_assoc]
  cases hresult : differingResult existing incoming with
  | none =>
      dsimp only [Option.map_none, Option.toList_none]
      rw [List.append_nil]
      exact hlists
  | some result =>
      dsimp only [Option.map_some, Option.toList_some]
      intro c hc
      rcases List.mem_append.mp hc with hc | hc
      · exact (covers_union_left _ _).trans hlists c hc
      · exact covers_union_right _ _ c hc

/-- The node lists what the merged metadata does. -/
theorem Left.listed (h : Left H existing incoming metadata)
    (hdiscerned : Discerned H existing incoming) :
    Covers (listValue (metadata.get? "result_conflicts"))
        (listed existing ++ addedConflicts H existing incoming) ∧
      ∀ c ∈ listValue (metadata.get? "result_conflicts"),
        c ∈ Merge.listed existing ∨ c ∈ addedConflicts H existing incoming := by
  rcases h.get? "result_conflicts" with hmerged | ⟨hown, hsame⟩
  · rw [hmerged]
    exact ⟨covers_mergedListed hdiscerned, fun c hc => mem_mergedListed hc⟩
  · rw [hown]
    refine ⟨?_, fun c hc => .inl hc⟩
    refine Covers.trans (fun c hc => ?_) (covers_mergedListed hdiscerned)
    rcases mem_mergedListed hc with hold | hadded
    · exact ⟨c, hold, .refl c⟩
    · generalize hmerged :
        (mergedMeta H existing incoming).1.get? "result_conflicts" = merged at hsame
      generalize hlisted : existing.metadata.get? "result_conflicts" = old at hsame
      rw [mergedListed, hmerged] at hc
      cases hsame with
      | none => cases hc
      | some heq =>
          obtain rfl := hdiscerned.old _ hlisted
          obtain ⟨items, rfl⟩ := Value.pyEq_list_left (Value.pyEq_symm heq)
          rw [Value.pyEq_list_iff] at heq
          obtain ⟨a, ha, hequal⟩ := exists_of_forall₂ heq hc
          exact ⟨a, ha, (hdiscerned.distinct a ha c hadded (Value.pyEq_symm hequal)).symm⟩

/-- The results known of a node that was merged are those of the two. -/
theorem Left.knownResults (h : Left H existing incoming metadata)
    (hdiscerned : Discerned H existing incoming) (text : Value) :
    text ∈ knownResults { existing with metadata } ↔
      text ∈ Merge.knownResults existing ∨ text ∈ Merge.knownResults incoming := by
  obtain ⟨hcovers, hmem⟩ := h.listed hdiscerned
  have hincoming : ∀ result, differingResult existing incoming = some result →
      incoming.result = some result := by
    intro result hresult
    rw [differingResult] at hresult
    split at hresult
    · cases hresult
    · exact hresult
  constructor
  · intro htext
    rcases mem_knownResults.mp htext with hprimary | ⟨c, hc, result, hresult, rfl⟩
    · exact .inl (mem_knownResults.mpr (.inl hprimary))
    · rcases hmem c hc with hold | hadded
      · exact .inl (mem_knownResults.mpr (.inr ⟨c, hold, result, hresult, rfl⟩))
      · right
        rcases List.mem_append.mp hadded with hnew | hdiffers
        · exact mem_knownResults.mpr (.inr ⟨c, hnew, result, hresult, rfl⟩)
        · obtain ⟨other, hother, rfl⟩ := Option.map_eq_some_iff.mp (Option.mem_toList.mp hdiffers)
          cases hresult
          apply mem_knownResults.mpr
          left
          rw [Node.resultText, hincoming _ hother]
          rfl
  · rintro (htext | htext)
    · rcases mem_knownResults.mp htext with hprimary | ⟨c, hc, result, hresult, rfl⟩
      · exact mem_knownResults.mpr (.inl hprimary)
      · exact mem_knownResults_of_covers hcovers (List.mem_append_left _ hc) hresult
    · rcases mem_knownResults.mp htext with hprimary | ⟨c, hc, result, hresult, rfl⟩
      · by_cases hsame : incoming.resultText = existing.resultText
        · exact mem_knownResults.mpr (.inl (hsame ▸ hprimary))
        · obtain ⟨result, hresult, rfl⟩ := Option.map_eq_some_iff.mp hprimary
          have hdiffers : differingResult existing incoming = some result := by
            rw [differingResult, if_neg hsame, hresult]
          have hadded : resultConflict H result ∈ addedConflicts H existing incoming := by
            rw [addedConflicts, hdiffers]
            exact List.mem_append_right _ List.mem_cons_self
          exact mem_knownResults_of_covers hcovers (List.mem_append_right _ hadded) rfl
      · exact mem_knownResults_of_covers hcovers
          (List.mem_append_right _ (List.mem_append_left _ hc)) hresult

/-- The conflicts the merge found are recorded. -/
theorem Left.conflicts (h : Left H existing incoming metadata)
    (horderly : Orderly (mergeConflicts existing.metadata)) :
    Covers (mergeConflicts metadata) (updatedConflicts existing.metadata incoming.metadata) := by
  have hmerged : (mergedMeta H existing incoming).1.get? "merge_conflicts" =
      (mergeMeta existing.metadata incoming.metadata).1.get? "merge_conflicts" :=
    get?_mergedMeta existing incoming (by decide)
  rcases h.get? "merge_conflicts" with hget | ⟨hown, hsame⟩
  · rw [mergeConflicts, hget, hmerged, ← mergeConflicts, mergeConflicts_mergeMeta]
    exact .refl _
  · have hlength := length_updatedConflicts_le (hmerged ▸ hsame)
    have hown' : mergeConflicts metadata = mergeConflicts existing.metadata := by
      rw [mergeConflicts, hown, mergeConflicts]
    rw [hown']
    have hcovers := (covers_union_left (unionJsonLists (mergeConflicts existing.metadata)
      (mergeConflicts incoming.metadata)) (mergeKeys existing.metadata incoming.metadata).2).trans
        (covers_union_left _ _)
    exact hcovers.of_length horderly.1 hlength

/-- A leaf of the incoming metadata is in what is left, or its conflict is recorded. -/
theorem Left.shows (h : Left H existing incoming metadata)
    (hdiscerned : Discerned H existing incoming)
    (horderly : Orderly (mergeConflicts existing.metadata))
    (hfaithful : ∀ key current value, existing.metadata.get? key = some current →
      incoming.metadata.get? key = some value → Faithful current value)
    {key : String} (hkey : key ≠ "merge_conflicts") {path : List String} {leaf : Value}
    (hleaf : IsLeaf (.dict incoming.metadata.entries) (key :: path) leaf) :
    Shows (.dict metadata.entries) (key :: path) leaf ∨
      Recorded (mergeConflicts metadata) (key :: path) leaf := by
  obtain ⟨value, hvalue, hrest⟩ := hleaf.entry
  change incoming.metadata.get? key = some value at hvalue
  by_cases hlisted : key = "result_conflicts"
  · subst hlisted
    left
    obtain rfl := hdiscerned.new value hvalue
    obtain ⟨rfl, hmem⟩ := hrest.of_list
    obtain ⟨other, hother, hsame⟩ := (h.listed hdiscerned).1 leaf
      (List.mem_append_right _ (List.mem_append_left _ hmem))
    unfold listValue at hother
    split at hother
    · next items hitems => exact .cons hitems (.item items other rfl hother hsame.symm)
    · cases hother
  · have hmerged := get?_mergedMeta (H := H) existing incoming hlisted
    rw [get?_mergeMeta _ _ hkey, hvalue] at hmerged
    cases hcurrent : existing.metadata.get? key with
    | none =>
        left
        rw [hcurrent] at hmerged
        rcases h.get? key with hget | ⟨-, hsame⟩
        · exact .cons (hget.trans hmerged) hrest.shows
        · rw [hmerged, hcurrent] at hsame
          cases hsame
    | some current =>
        rw [hcurrent] at hmerged
        have hfound : ∃ entry, metadata.get? key = some entry ∧
            Remains (mergeMetaValue current value [key]).1 current entry := by
          rcases h.get? key with hget | ⟨hget, hsame⟩
          · exact ⟨_, hget.trans hmerged, .inl rfl⟩
          · rw [hmerged, hcurrent] at hsame
            cases hsame with
            | some hsame => exact ⟨current, hget.trans hcurrent, .inr ⟨rfl, hsame⟩⟩
        obtain ⟨entry, hget, hremains⟩ := hfound
        rcases mergeMetaValue_keeps (hfaithful key current value hcurrent hvalue) hrest [key]
          hremains with hshows | hrecorded
        · exact .inl (.cons hget hshows)
        · right
          refine hrecorded.of_covered fun c hc =>
            (h.conflicts horderly).trans (covers_union_right _ _) c ?_
          exact mem_mergeKeys_conflicts.mpr ⟨key, current, value, hkey, hcurrent, hvalue, hc⟩

end Left

/-! ## The run -/

section Run

variable {H : Hashing} {dst : Destination} {replay : Bool}

/-- The results known of a node after a merge are those known of it in the two stores, and a node
the source does not have stays as it is. -/
theorem merge_keeps_results (hkeeps : dst.Keeping) {s t : dst.State} {src : Source}
    {plan : List Node} {report : MergeReport} (hplan : prepareMerge H src = .ok plan)
    (hdiscerned : ∀ incoming ∈ plan, ∀ existing, dst.find? s incoming.id = some existing →
      Discerned H existing incoming)
    (h : merge H dst replay s src = .ok (t, report)) :
    (∀ id, id ∉ plan.map Node.id → dst.find? t id = dst.find? s id) ∧
      ∀ incoming ∈ plan, ∃ node, dst.find? t incoming.id = some node ∧
        ∀ text, text ∈ knownResults node ↔ text ∈ knownResults incoming ∨
          ∃ existing, dst.find? s incoming.id = some existing ∧ text ∈ knownResults existing := by
  obtain ⟨-, hframe, htaken⟩ := taken_merge hkeeps hplan h
  refine ⟨hframe, fun incoming hincoming => ?_⟩
  have htake := htaken incoming hincoming
  rw [Taken] at htake
  cases hfind : dst.find? s incoming.id with
  | none =>
      rw [hfind] at htake
      refine ⟨incoming, htake, fun text => ⟨.inl, ?_⟩⟩
      rintro (htext | ⟨existing, hsome, -⟩)
      · exact htext
      · cases hsome
  | some existing =>
      rw [hfind] at htake
      obtain ⟨metadata, hfound, hleft⟩ := htake
      refine ⟨_, hfound, fun text => ?_⟩
      rw [hleft.knownResults (hdiscerned incoming hincoming existing hfind), or_comm]
      refine or_congr_right ⟨fun htext => ⟨existing, rfl, htext⟩, ?_⟩
      rintro ⟨other, hother, htext⟩
      cases hother
      exact htext

/-- Two stores that know different results of a node. -/
theorem merge_keeps_results_recorded :
    ∃ dst src, recorded [.int 1] = .ok dst ∧ recorded [.int 2] = .ok src ∧
      ∃ (t : MemoryStore) (plan : List Node),
        prepareMerge .plain (.memory (fun _ => "") src) = .ok plan ∧ plan.length = 2 ∧
        ∀ incoming ∈ plan, ∃ node, t.find? incoming.id = some node ∧
          ∀ text, text ∈ knownResults node ↔ text ∈ knownResults incoming ∨
            ∃ existing, dst.find? incoming.id = some existing ∧ text ∈ knownResults existing := by
  obtain ⟨dst, src, t, plan, report, hdst, hsrc, hplan, hmerge, -, hlength, hunlisted⟩ :=
    recorded_merged
  refine ⟨dst, src, hdst, hsrc, t, plan, hplan, hlength, ?_⟩
  apply (merge_keeps_results (keeping_memory .plain) hplan _ hmerge).2
  intro incoming hincoming existing hfind
  have hmem := (MemoryStore.mem_of_find? hfind).1
  exact discerned_of_unlisted (hunlisted existing (List.mem_append_left _ hmem)).1
    (listing_of_none (hunlisted incoming (List.mem_append_right _ hincoming)).1)

/-- The metadata of the two nodes may be merged without losing a leaf. -/
structure Kept (H : Hashing) (existing incoming : Node) : Prop where
  discerned : Discerned H existing incoming
  orderly : Orderly (mergeConflicts existing.metadata)
  faithful : ∀ key current value, existing.metadata.get? key = some current →
    incoming.metadata.get? key = some value → Faithful current value

/-- A leaf of the metadata of an incoming node is found at its path after a merge, or as an item of
the list there, or in a conflict that is recorded, and so is a conflict it had recorded. -/
theorem merge_keeps_leaves (hkeeps : dst.Keeping) {s t : dst.State} {src : Source}
    {plan : List Node} {report : MergeReport} (hplan : prepareMerge H src = .ok plan)
    (hkept : ∀ incoming ∈ plan, ∀ existing, dst.find? s incoming.id = some existing →
      Kept H existing incoming)
    (h : merge H dst replay s src = .ok (t, report)) :
    ∀ incoming ∈ plan, ∃ node, dst.find? t incoming.id = some node ∧
      (∀ key path leaf, key ≠ "merge_conflicts" →
        IsLeaf (.dict incoming.metadata.entries) (key :: path) leaf →
          Shows (.dict node.metadata.entries) (key :: path) leaf ∨
            Recorded (mergeConflicts node.metadata) (key :: path) leaf) ∧
      Covers (mergeConflicts node.metadata) (mergeConflicts incoming.metadata) := by
  obtain ⟨-, -, htaken⟩ := taken_merge hkeeps hplan h
  intro incoming hincoming
  have htake := htaken incoming hincoming
  rw [Taken] at htake
  cases hfind : dst.find? s incoming.id with
  | none =>
      rw [hfind] at htake
      exact ⟨incoming, htake, fun _ _ _ _ hleaf => .inl hleaf.shows, .refl _⟩
  | some existing =>
      rw [hfind] at htake
      obtain ⟨metadata, hfound, hleft⟩ := htake
      obtain ⟨hdiscerned, horderly, hfaithful⟩ := hkept incoming hincoming existing hfind
      refine ⟨_, hfound, fun key path leaf hkey hleaf => ?_, ?_⟩
      · exact hleft.shows hdiscerned horderly hfaithful hkey hleaf
      · exact (hleft.conflicts horderly).trans
          ((covers_union_left _ _).trans (covers_union_right _ _))

end Run

/-- A root with a note. -/
def noted (note : Value) : Except PyError MemoryStore := do
  let root ← Node.make .plain .root none (.dict [("run", .str "r")]) 0 none
    ((∅ : Dict String Value).set "note" note)
  MemoryStore.empty.put .plain root

theorem faithful_of_scalar {existing incoming : Value} (hne : existing.pyEq incoming = false)
    (hentry : ∀ key, existing.get? key = none) (hlist : ∀ items, existing ≠ .list items) :
    Faithful existing incoming := by
  intro path a b hmeets
  cases hmeets with
  | here =>
      refine ⟨fun heq => ?_, fun old new hold => absurd hold (hlist old)⟩
      rw [hne] at heq
      cases heq
  | entry _ hcurrent =>
      rw [hentry] at hcurrent
      cases hcurrent

/-- A note that differs is recorded. -/
theorem merge_keeps_leaves_noted :
    ∃ (dst src t : MemoryStore) (plan : List Node) (report : MergeReport),
      noted (.int 1) = .ok dst ∧ noted (.int 2) = .ok src ∧ report.metaConflicts = 1 ∧
      merge .plain (.memory .plain) false dst (.memory (fun _ => "") src) = .ok (t, report) ∧
      ∀ incoming ∈ plan, ∃ node, t.find? incoming.id = some node ∧
        (∀ key path leaf, key ≠ "merge_conflicts" →
          IsLeaf (.dict incoming.metadata.entries) (key :: path) leaf →
            Shows (.dict node.metadata.entries) (key :: path) leaf ∨
              Recorded (mergeConflicts node.metadata) (key :: path) leaf) ∧
        Covers (mergeConflicts node.metadata) (mergeConflicts incoming.metadata) := by
  have hok : ((noted (.int 1)).bind fun dst => (noted (.int 2)).bind fun src =>
      (prepareMerge .plain (.memory (fun _ => "") src)).bind fun plan =>
        (merge .plain (.memory .plain) false dst (.memory (fun _ => "") src)).bind fun merged =>
          Fallible.ensure (merged.2.metaConflicts = 1 ∧
            dst.nodes.all (fun node => node.metadata.entries = [("note", .int 1)]) = true ∧
            plan.all (fun node => node.metadata.entries = [("note", .int 2)]) = true)
            (.valueError "")).isOk = true := by
    decide +kernel
  obtain ⟨⟨⟩, hrun⟩ := isOk_iff.mp hok
  obtain ⟨dst, hdst, hrun⟩ := bind_ok_iff.mp hrun
  obtain ⟨src, hsrc, hrun⟩ := bind_ok_iff.mp hrun
  obtain ⟨plan, hplan, hrun⟩ := bind_ok_iff.mp hrun
  obtain ⟨⟨t, report⟩, hmerge, hchecked⟩ := bind_ok_iff.mp hrun
  obtain ⟨hcount, hold, hnew⟩ := ensure_ok_iff.mp hchecked
  refine ⟨dst, src, t, plan, report, hdst, hsrc, hcount, hmerge, ?_⟩
  refine merge_keeps_leaves (keeping_memory .plain) hplan (fun incoming hincoming => ?_) hmerge
  intro existing hfind
  have hexisting := of_decide_eq_true
    (List.all_eq_true.mp hold existing (MemoryStore.mem_of_find? hfind).1)
  have hincoming := of_decide_eq_true (List.all_eq_true.mp hnew incoming hincoming)
  have hget : ∀ key, existing.metadata.get? key =
      if "note" = key then some (.int 1) else none := by
    intro key
    rw [Dict.get?, hexisting]
    rfl
  have hother : ∀ key, incoming.metadata.get? key =
      if "note" = key then some (.int 2) else none := by
    intro key
    rw [Dict.get?, hincoming]
    rfl
  refine ⟨discerned_of_unlisted (by rw [hget]; rfl) (listing_of_none (by rw [hother]; rfl)), ?_, ?_⟩
  · rw [mergeConflicts, hget]
    exact ⟨List.nodup_nil, .nil⟩
  · intro key current value hcurrent hvalue
    rw [hget] at hcurrent
    rw [hother] at hvalue
    split at hcurrent
    · next hkey =>
        rw [if_pos hkey] at hvalue
        cases hcurrent
        cases hvalue
        refine faithful_of_scalar ?_ (fun _ => rfl) (by rintro _ ⟨⟩)
        rw [Value.pyEq_scalar (by simp) (by simp)]
        decide
    · cases hcurrent

end Pollard.Merge
