import Pollard.Lib.Fallible
import Pollard.Merge.Meta

/-!
# What a merge reports

The nodes of a source are put into a destination or folded into the node that is there, and
the report counts both.  A result conflict is counted where the list of conflicts got longer.
-/

namespace Pollard.Merge

open Lib

/-! ## Stores -/

/-- What a merge reads of its source. -/
structure Source where
  roots : List String
  walk : String → Except PyError (List Node)

/-- What a merge asks of its destination: a store has at most one node of an id, and a write
to one id leaves the others alone. -/
structure Destination where
  State : Type
  find? : State → String → Option Node
  put : State → Node → Except PyError State
  updateMeta : State → String → Dict String Value → Except PyError State
  find?_id : ∀ {s id node}, find? s id = some node → node.id = id
  put_self : ∀ {s t node}, find? s node.id = none → put s node = .ok t → (find? t node.id).isSome
  put_other : ∀ {s t node id}, find? s node.id = none → put s node = .ok t → id ≠ node.id →
    find? t id = find? s id
  updateMeta_self : ∀ {s t id patch}, updateMeta s id patch = .ok t →
    (find? t id).isSome = (find? s id).isSome
  updateMeta_other : ∀ {s t id other patch}, updateMeta s id patch = .ok t → other ≠ id →
    find? t other = find? s other

/-- The in-memory store. -/
def Destination.memory (H : Hashing) : Destination where
  State := MemoryStore
  find? := MemoryStore.find?
  put := MemoryStore.put H
  updateMeta := MemoryStore.updateMeta
  find?_id := fun h => (MemoryStore.mem_of_find? h).2
  put_self := by
    intro s t node hnone h
    rcases MemoryStore.put_cases h with hadded | ⟨existing, hfind, -⟩
    · rw [hadded.find?_self]
      rfl
    · rw [hnone] at hfind
      cases hfind
  put_other := by
    intro s t node id hnone h hne
    rcases MemoryStore.put_cases h with hadded | ⟨existing, hfind, -⟩
    · exact hadded.find?_of_ne hne
    · rw [hnone] at hfind
      cases hfind
  updateMeta_self := by
    intro s t id patch h
    obtain ⟨node, -, rfl⟩ := Fallible.map_ok_iff.mp h
    rw [MemoryStore.find?_replaceMeta, Option.isSome_map]
  updateMeta_other := by
    intro s t id other patch h hne
    obtain ⟨node, -, rfl⟩ := Fallible.map_ok_iff.mp h
    rw [MemoryStore.find?_replaceMeta]
    cases hfind : s.find? other with
    | none => rfl
    | some found =>
        have hid : found.id ≠ id := (MemoryStore.mem_of_find? hfind).2 ▸ hne
        rw [Option.map_some, if_neg hid]

/-- The in-memory store, given what `str` makes of a label. -/
def Source.memory (str : Value → String) (store : MemoryStore) : Source where
  roots := store.roots str
  walk := store.walk

/-! ## The plan -/

/-- One walk of `_prepare_merge`: each node is checked, and one that was seen is passed over. -/
def prepareWalk (H : Hashing) : List Node → List Node → Except PyError (List Node)
  | [], plan => .ok plan
  | incoming :: rest, plan =>
      (validateForPut H incoming).bind fun _ =>
        prepareWalk H rest
          (if incoming.id ∈ plan.map Node.id then plan else plan ++ [incoming])

def prepareRoots (H : Hashing) (src : Source) : List String → List Node →
    Except PyError (List Node)
  | [], plan => .ok plan
  | root :: roots, plan =>
      (src.walk root).bind fun nodes => (prepareWalk H nodes plan).bind (prepareRoots H src roots)

/-- `_prepare_merge` -/
def prepareMerge (H : Hashing) (src : Source) : Except PyError (List Node) :=
  prepareRoots H src src.roots []

/-! ## The merge -/

structure MergeReport where
  copied : ℕ
  existing : ℕ
  resultConflicts : ℕ
  metaConflicts : ℤ
deriving DecidableEq

/-- A result as a conflict lists it. -/
def resultConflict (H : Hashing) (result : Value) : Value :=
  .dict [("result_digest", .str (H.result result.canonical)), ("result", result)]

/-- The incoming result, if it is not the one of the node that is there. -/
def differingResult (existing incoming : Node) : Option Value :=
  if incoming.resultText = existing.resultText then none else incoming.result

section Run

variable (H : Hashing) (dst : Destination) (replay : Bool)

/-- The first loop of `_merge_prepared`: nothing is written for a plan with a collision. -/
def precheck (s : dst.State) : List Node → Except PyError Unit
  | [] => .ok ()
  | incoming :: rest =>
      match dst.find? s incoming.id with
      | none => precheck s rest
      | some existing =>
          if existing.identity ≠ incoming.identity then
            .error (.integrityError s!"node id collision for {incoming.id}")
          else if replay = true ∧ (differingResult existing incoming).isSome = true then
            .error (.integrityError s!"result collision during replay merge: {incoming.id}")
          else precheck s rest

/-- The metadata a node gets, whether a result conflict is counted, and the conflicts of its
metadata. -/
def mergedMeta (existing incoming : Node) : Dict String Value × Bool × ℤ :=
  let merged := mergeMeta existing.metadata incoming.metadata
  match differingResult existing incoming with
  | none => (merged.1, false, merged.2)
  | some result =>
      let listed := listValue (merged.1.get? "result_conflicts")
      let conflicts := unionJsonLists listed [resultConflict H result]
      (merged.1.set "result_conflicts" (.list conflicts), decide (listed.length < conflicts.length),
        merged.2)

/-- One round of the second loop. -/
def mergeNode (s : dst.State) (report : MergeReport) (incoming : Node) :
    Except PyError (dst.State × MergeReport) :=
  match dst.find? s incoming.id with
  | none => (dst.put s incoming).map fun t => (t, { report with copied := report.copied + 1 })
  | some existing =>
      let merged := mergedMeta H existing incoming
      let report := { report with
        existing := report.existing + 1
        resultConflicts := report.resultConflicts + merged.2.1.toNat
        metaConflicts := report.metaConflicts + merged.2.2 }
      if Value.pyEq (.dict merged.1.entries) (.dict existing.metadata.entries) = true then
        .ok (s, report)
      else (dst.updateMeta s existing.id merged.1).map fun t => (t, report)

def mergeNodes : dst.State → MergeReport → List Node → Except PyError (dst.State × MergeReport)
  | s, report, [] => .ok (s, report)
  | s, report, incoming :: rest =>
      (mergeNode H dst s report incoming).bind fun step => mergeNodes step.1 step.2 rest

/-- `_merge_prepared` -/
def mergePrepared (s : dst.State) (plan : List Node) : Except PyError (dst.State × MergeReport) :=
  (precheck dst replay s plan).bind fun _ => mergeNodes H dst s ⟨0, 0, 0, 0⟩ plan

/-- `merge` -/
def merge (s : dst.State) (src : Source) : Except PyError (dst.State × MergeReport) :=
  (prepareMerge H src).bind fun plan => mergePrepared H dst replay s plan

end Run

/-! ## The conflicts of one node -/

theorem get?_mergeMeta (existing incoming : Dict String Value) {key : String}
    (h : key ≠ "merge_conflicts") : (mergeMeta existing incoming).1.get? key =
      (mergedOption (fun current value => mergeMetaValue current value [key])
        (existing.get? key) (incoming.get? key)).1 := by
  have hkeys : (mergeKeys existing incoming).1.get? key =
      (mergedOption (fun current value => mergeMetaValue current value [key])
        (existing.get? key) (incoming.get? key)).1 := by
    have herase : Assoc.lookup (incoming.erase "merge_conflicts").entries key =
        incoming.get? key := by
      rw [← Dict.get?, Dict.get?_erase, if_neg h.symm]
    rw [mergeKeys]
    dsimp only [Dict.get?]
    rw [lookup_mergeEntries, mergedEntry_eq _ _ (fun key current value =>
      mergeMetaValue current value [key]), herase]
    rfl
  rw [mergeMeta]
  dsimp only
  split
  · exact hkeys
  · rw [Dict.get?_set_of_ne _ _ h.symm, hkeys]

/-- The conflicts a node lists. -/
def listed (node : Node) : List Value := listValue (node.metadata.get? "result_conflicts")

/-- The same JSON is in the list. -/
def lists (conflicts : List Value) (conflict : Value) : Bool :=
  decide (conflict.canonical ∈ conflicts.map Value.canonical)

/-- Some JSON is in the list twice. -/
def repeats (conflicts : List Value) : Bool := !decide (conflicts.map Value.canonical).Nodup

/-- Both nodes have a list, and Python does not take the lists for equal. -/
def united (existing incoming : Node) : Bool :=
  match existing.metadata.get? "result_conflicts", incoming.metadata.get? "result_conflicts" with
  | some (.list old), some (.list new) => !Value.pyEq (.list old) (.list new)
  | _, _ => false

/-- The list of the node that is there, if it has anything for one, or else the other list. -/
def takenOver (existing incoming : Node) : List Value :=
  listValue ((existing.metadata.get? "result_conflicts").or
    (incoming.metadata.get? "result_conflicts"))

/-- The list the conflict is added to. -/
theorem listValue_mergeMeta (existing incoming : Node) :
    listValue ((mergeMeta existing.metadata incoming.metadata).1.get? "result_conflicts") =
      if united existing incoming = true then unionJsonLists (listed existing) (listed incoming)
      else takenOver existing incoming := by
  rw [get?_mergeMeta _ _ (by decide), united, takenOver, listed, listed]
  cases hold : existing.metadata.get? "result_conflicts" with
  | none => cases incoming.metadata.get? "result_conflicts" <;> rfl
  | some old =>
      cases hnew : incoming.metadata.get? "result_conflicts" with
      | none => cases old <;> rfl
      | some new =>
          rw [mergedOption, Option.some_or]
          by_cases heq : old.pyEq new = true
          · rw [mergeMetaValue_of_pyEq heq, if_neg]
            split
            · next old' new' hold' hnew' =>
                obtain rfl := Option.some.inj hold'
                obtain rfl := Option.some.inj hnew'
                rw [heq]
                decide
            · exact Bool.false_ne_true
          by_cases hlists : ∃ old' new', old = .list old' ∧ new = .list new'
          · obtain ⟨old', new', rfl, rfl⟩ := hlists
            rw [mergeMetaValue_list heq]
            simp [heq, listValue]
          · have hfalse : (match some old, some new with
                | some (.list old), some (.list new) => !Value.pyEq (.list old) (.list new)
                | _, _ => false) = false := by
              split
              · next old' new' hold' hnew' =>
                  exact absurd ⟨old', new', Option.some.inj hold', Option.some.inj hnew'⟩ hlists
              · rfl
            rw [hfalse, if_neg Bool.false_ne_true]
            by_cases hdicts : ∃ old' new', old = .dict old' ∧ new = .dict new'
            · obtain ⟨old', new', rfl, rfl⟩ := hdicts
              obtain ⟨merged, hmerged, -⟩ := mergeMetaValue_dict heq ["result_conflicts"]
              rw [hmerged]
              rfl
            · rw [mergeMetaValue_conflict heq (fun _ _ h => hdicts ⟨_, _, h⟩)
                (fun _ _ h => hlists ⟨_, _, h⟩)]

/-! ## When a list gets longer -/

theorem lists_iff {conflicts : List Value} {conflict : Value} :
    lists conflicts conflict = true ↔ conflict.canonical ∈ conflicts.map Value.canonical :=
  decide_eq_true_iff

/-- A union has each JSON once. -/
theorem length_unionJsonLists (first second : List Value) :
    (unionJsonLists first second).length =
      ((first ++ second).map Value.canonical).dedup.length := by
  rw [← List.length_map Value.canonical]
  refine List.Perm.length_eq ((List.perm_ext_iff_of_nodup
    (KeyedUnion.nodup_union Value.canonical Value.dumps first second) (List.nodup_dedup _)).mpr ?_)
  intro value
  rw [List.mem_dedup, List.mem_map, List.mem_map]
  constructor
  · rintro ⟨item, hitem, rfl⟩
    exact ⟨item, List.mem_append.mpr (mem_of_mem_unionJsonLists hitem), rfl⟩
  · rintro ⟨item, hitem, rfl⟩
    exact KeyedUnion.exists_mem_union Value.canonical Value.dumps (List.mem_append.mp hitem)

/-- One more conflict makes a list longer only if the list repeats nothing, as what it repeats
goes at the same time. -/
theorem length_lt_union_iff (conflicts : List Value) (conflict : Value) :
    conflicts.length < (unionJsonLists conflicts [conflict]).length ↔
      lists conflicts conflict = false ∧ repeats conflicts = false := by
  have hle := List.Sublist.length_le (List.dedup_sublist (conflicts.map Value.canonical))
  rw [List.length_map] at hle
  have hnodup : (conflicts.map Value.canonical).Nodup ↔
      conflicts.length ≤ (conflicts.map Value.canonical).dedup.length := by
    rw [← List.dedup_eq_self]
    constructor
    · intro heq
      rw [heq, List.length_map]
    · intro hlength
      refine (List.dedup_sublist _).eq_of_length_le ?_
      rwa [List.length_map]
  have hlists : lists conflicts conflict = false ↔
      conflict.canonical ∉ conflicts.map Value.canonical := by
    rw [← lists_iff, Bool.not_eq_true]
  have hrepeats : repeats conflicts = false ↔ (conflicts.map Value.canonical).Nodup := by
    rw [repeats, Bool.not_eq_false', decide_eq_true_iff]
  rw [length_unionJsonLists, List.map_append, List.map_singleton, hlists, hrepeats, hnodup]
  have hperm : (conflicts.map Value.canonical ++ [conflict.canonical]).dedup.length =
      (conflict.canonical :: conflicts.map Value.canonical).dedup.length :=
    (List.perm_append_singleton _ _).dedup.length_eq
  rw [hperm]
  by_cases hmem : conflict.canonical ∈ conflicts.map Value.canonical
  · rw [List.dedup_cons_of_mem hmem]
    exact ⟨fun h => absurd h (by omega), fun h => absurd hmem h.1⟩
  · rw [List.dedup_cons_of_notMem hmem, List.length_cons]
    exact ⟨fun h => ⟨hmem, by omega⟩, fun h => by omega⟩

theorem lists_union (first second : List Value) (conflict : Value) :
    lists (unionJsonLists first second) conflict =
      (lists first conflict || lists second conflict) := by
  rw [Bool.eq_iff_iff, Bool.or_eq_true, lists_iff, lists_iff, lists_iff]
  simp only [List.mem_map]
  constructor
  · rintro ⟨item, hitem, heq⟩
    rcases mem_of_mem_unionJsonLists hitem with hitem | hitem
    · exact .inl ⟨item, hitem, heq⟩
    · exact .inr ⟨item, hitem, heq⟩
  · intro h
    obtain ⟨item, hitem, heq⟩ : ∃ item, (item ∈ first ∨ item ∈ second) ∧
        item.canonical = conflict.canonical := by
      rcases h with ⟨item, hitem, heq⟩ | ⟨item, hitem, heq⟩
      · exact ⟨item, .inl hitem, heq⟩
      · exact ⟨item, .inr hitem, heq⟩
    obtain ⟨other, hother, hsame⟩ := exists_mem_unionJsonLists hitem
    exact ⟨other, hother, hsame.symm.trans heq⟩

theorem repeats_union (first second : List Value) :
    repeats (unionJsonLists first second) = false := by
  rw [repeats, Bool.not_eq_false', decide_eq_true_iff]
  exact KeyedUnion.nodup_union Value.canonical Value.dumps first second

/-- What is taken over is one of the two lists, and the first one if it has anything. -/
theorem takenOver_eq (existing incoming : Node) :
    takenOver existing incoming = listed existing ∨
      listed existing = [] ∧ takenOver existing incoming = listed incoming := by
  rw [takenOver, listed, listed]
  cases existing.metadata.get? "result_conflicts" with
  | none => exact .inr ⟨rfl, rfl⟩
  | some old => exact .inl rfl

/-! ## What should be counted, and what goes wrong -/

section Counts

variable (H : Hashing)

/-- The incoming result is another one, and neither node lists it. -/
def newConflict (existing incoming : Node) : Bool :=
  match differingResult existing incoming with
  | none => false
  | some result => !lists (listed existing) (resultConflict H result) &&
      !lists (listed incoming) (resultConflict H result)

/-- A new conflict that takes the place of a repetition. -/
def missed (existing incoming : Node) : Bool :=
  newConflict H existing incoming && !united existing incoming &&
    repeats (takenOver existing incoming)

/-- A conflict the incoming node lists, in a list that is not taken over. -/
def overcounted (existing incoming : Node) : Bool :=
  match differingResult existing incoming with
  | none => false
  | some result => lists (listed incoming) (resultConflict H result) &&
      !lists (takenOver existing incoming) (resultConflict H result) &&
      !united existing incoming && !repeats (takenOver existing incoming)

/-- Of one node, what is counted is what should be, but for what is missed or too much. -/
theorem counted_balance (existing incoming : Node) :
    (mergedMeta H existing incoming).2.1.toNat + (missed H existing incoming).toNat =
      (newConflict H existing incoming).toNat + (overcounted H existing incoming).toNat := by
  unfold mergedMeta missed overcounted newConflict
  cases hresult : differingResult existing incoming with
  | none => rfl
  | some result =>
      dsimp only
      generalize resultConflict H result = conflict
      have hcounted := length_lt_union_iff
        (listValue ((mergeMeta existing.metadata incoming.metadata).1.get? "result_conflicts"))
        conflict
      simp only [decide_eq_decide.mpr hcounted]
      rw [listValue_mergeMeta]
      by_cases hunited : united existing incoming = true
      · rw [if_pos hunited, lists_union, repeats_union, hunited]
        cases lists (listed existing) conflict <;> cases lists (listed incoming) conflict <;> simp
      · rw [if_neg hunited, Bool.not_eq_true] at *
        rcases takenOver_eq existing incoming with htaken | ⟨hnil, htaken⟩
        · rw [htaken, hunited]
          cases lists (listed existing) conflict <;> cases lists (listed incoming) conflict <;>
            cases repeats (listed existing) <;> decide
        · rw [htaken, hnil, hunited, show lists [] conflict = false from rfl]
          cases lists (listed incoming) conflict <;> cases repeats (listed incoming) <;> decide

end Counts

/-! ## The run -/

section Run

variable {H : Hashing} {dst : Destination} {replay : Bool}

/-- Whether a node is there and something holds of it and the incoming one. -/
def present (dst : Destination) (s : dst.State) (flag : Node → Node → Bool) (incoming : Node) :
    Bool :=
  match dst.find? s incoming.id with
  | none => false
  | some existing => flag existing incoming

/-- What one round does to the nodes and to the counts. -/
theorem mergeNode_spec {s t : dst.State} {report report' : MergeReport} {incoming : Node}
    (h : mergeNode H dst s report incoming = .ok (t, report')) :
    (∀ id, id ≠ incoming.id → dst.find? t id = dst.find? s id) ∧
      (dst.find? t incoming.id).isSome = true ∧
      report'.copied = report.copied + (dst.find? s incoming.id).isNone.toNat ∧
      report'.resultConflicts = report.resultConflicts +
        (present dst s (fun e n => (mergedMeta H e n).2.1) incoming).toNat := by
  rw [mergeNode] at h
  rw [present]
  cases hfind : dst.find? s incoming.id with
  | none =>
      rw [hfind] at h
      obtain ⟨t', hput, heq⟩ := Fallible.map_ok_iff.mp h
      cases heq
      exact ⟨fun id hne => dst.put_other hfind hput hne, dst.put_self hfind hput, rfl, rfl⟩
  | some existing =>
      rw [hfind] at h
      dsimp only at h
      have hid := dst.find?_id hfind
      split at h
      · cases h
        exact ⟨fun _ _ => rfl, by rw [hfind]; rfl, rfl, rfl⟩
      · obtain ⟨t', hupdate, heq⟩ := Fallible.map_ok_iff.mp h
        cases heq
        refine ⟨fun id hne => dst.updateMeta_other hupdate (hid ▸ hne), ?_, rfl, rfl⟩
        rw [← hid, dst.updateMeta_self hupdate, hid, hfind]
        rfl

theorem present_congr {s t : dst.State} {flag : Node → Node → Bool} {incoming : Node}
    (h : dst.find? t incoming.id = dst.find? s incoming.id) :
    present dst t flag incoming = present dst s flag incoming := by
  rw [present, present, h]

/-- The counts of the loop are counts over the store it started from. -/
theorem mergeNodes_spec {s t : dst.State} {report report' : MergeReport} {plan : List Node}
    (hnodup : (plan.map Node.id).Nodup)
    (h : mergeNodes H dst s report plan = .ok (t, report')) :
    (∀ id, (dst.find? t id).isSome = true ↔
        (dst.find? s id).isSome = true ∨ id ∈ plan.map Node.id) ∧
      report'.copied = report.copied +
        plan.countP (fun incoming => (dst.find? s incoming.id).isNone) ∧
      report'.resultConflicts = report.resultConflicts +
        plan.countP (present dst s fun e n => (mergedMeta H e n).2.1) := by
  induction plan generalizing s report with
  | nil =>
      cases h
      exact ⟨fun id => by simp, rfl, rfl⟩
  | cons incoming rest ih =>
      rw [List.map_cons, List.nodup_cons] at hnodup
      obtain ⟨⟨s', mid⟩, hstep, hrest⟩ := Fallible.bind_ok_iff.mp h
      obtain ⟨hothers, hself, hcopied, hconflicts⟩ := mergeNode_spec hstep
      obtain ⟨hpresent, hcopiedRest, hconflictsRest⟩ := ih hnodup.2 hrest
      have hkeeps : ∀ node ∈ rest, dst.find? s' node.id = dst.find? s node.id := fun node hnode =>
        hothers node.id fun heq => hnodup.1 (heq ▸ List.mem_map_of_mem hnode)
      refine ⟨fun id => ?_, ?_, ?_⟩
      · rw [hpresent, List.map_cons, List.mem_cons]
        by_cases hid : id = incoming.id
        · subst hid
          exact ⟨fun _ => .inr (.inl rfl), fun _ => .inl hself⟩
        · rw [hothers id hid]
          simp [hid]
      · have hcount : rest.countP (fun node => (dst.find? s' node.id).isNone) =
            rest.countP (fun node => (dst.find? s node.id).isNone) :=
          List.countP_congr fun node hnode => by rw [hkeeps node hnode]
        rw [hcopiedRest, hcopied, hcount, List.countP_cons]
        cases (dst.find? s incoming.id).isNone <;> simp only [Bool.toNat_true, Bool.toNat_false,
          Bool.false_eq_true, if_true, if_false] <;> omega
      · have hcount : rest.countP (present dst s' fun e n => (mergedMeta H e n).2.1) =
            rest.countP (present dst s fun e n => (mergedMeta H e n).2.1) :=
          List.countP_congr fun node hnode => by rw [present_congr (hkeeps node hnode)]
        rw [hconflictsRest, hconflicts, hcount, List.countP_cons]
        cases present dst s (fun e n => (mergedMeta H e n).2.1) incoming <;>
          simp only [Bool.toNat_true, Bool.toNat_false, Bool.false_eq_true, if_true, if_false] <;>
            omega

/-- Over a plan as over one node. -/
theorem countP_balance (s : dst.State) (plan : List Node) :
    plan.countP (present dst s fun e n => (mergedMeta H e n).2.1) +
        plan.countP (present dst s (missed H)) =
      plan.countP (present dst s (newConflict H)) +
        plan.countP (present dst s (overcounted H)) := by
  induction plan with
  | nil => rfl
  | cons incoming rest ih =>
      have hone : (present dst s (fun e n => (mergedMeta H e n).2.1) incoming).toNat +
          (present dst s (missed H) incoming).toNat =
          (present dst s (newConflict H) incoming).toNat +
            (present dst s (overcounted H) incoming).toNat := by
        unfold present
        cases dst.find? s incoming.id with
        | none => rfl
        | some existing => exact counted_balance H existing incoming
      have hif (b : Bool) : (if b = true then 1 else 0) = b.toNat := by cases b <;> rfl
      rw [List.countP_cons, List.countP_cons, List.countP_cons, List.countP_cons, hif, hif, hif, hif]
      omega

/-! ## The plan has each node once -/

theorem nodup_prepareWalk {nodes plan plan' : List Node} (hnodup : (plan.map Node.id).Nodup)
    (h : prepareWalk H nodes plan = .ok plan') : (plan'.map Node.id).Nodup := by
  induction nodes generalizing plan with
  | nil =>
      cases h
      exact hnodup
  | cons incoming rest ih =>
      obtain ⟨-, -, hrest⟩ := Fallible.bind_ok_iff.mp h
      refine ih ?_ hrest
      split
      · exact hnodup
      · next hnew =>
          rw [List.map_append, List.map_singleton, ← List.concat_eq_append]
          exact hnodup.concat hnew

theorem nodup_prepareRoots {src : Source} {roots : List String} {plan plan' : List Node}
    (hnodup : (plan.map Node.id).Nodup) (h : prepareRoots H src roots plan = .ok plan') :
    (plan'.map Node.id).Nodup := by
  induction roots generalizing plan with
  | nil =>
      cases h
      exact hnodup
  | cons root roots ih =>
      obtain ⟨nodes, -, h⟩ := Fallible.bind_ok_iff.mp h
      obtain ⟨walked, hwalk, hrest⟩ := Fallible.bind_ok_iff.mp h
      exact ih (nodup_prepareWalk hnodup hwalk) hrest

/-- Copied nodes are counted exactly.  New conflicts are, if and only if as many are missed for
a repetition as are counted although the incoming node lists them. -/
theorem mergeReport_exact {s t : dst.State} {src : Source} {report : MergeReport}
    (h : merge H dst replay s src = .ok (t, report)) :
    ∃ plan, prepareMerge H src = .ok plan ∧
      (∃ added : List String, added.Nodup ∧
        (∀ id, id ∈ added ↔ dst.find? s id = none ∧ (dst.find? t id).isSome = true) ∧
          report.copied = added.length) ∧
      (report.resultConflicts = plan.countP (present dst s (newConflict H)) ↔
        plan.countP (present dst s (missed H)) = plan.countP (present dst s (overcounted H))) := by
  obtain ⟨plan, hplan, h⟩ := Fallible.bind_ok_iff.mp h
  obtain ⟨-, -, h⟩ := Fallible.bind_ok_iff.mp h
  have hnodup := @nodup_prepareRoots H src _ [] plan List.nodup_nil hplan
  obtain ⟨hpresent, hcopied, hconflicts⟩ := mergeNodes_spec hnodup h
  refine ⟨plan, hplan, ⟨(plan.filter fun node => (dst.find? s node.id).isNone).map Node.id, ?_, ?_,
    ?_⟩, ?_⟩
  · exact hnodup.sublist (List.Sublist.map _ List.filter_sublist)
  · intro id
    rw [hpresent, List.mem_map]
    simp only [List.mem_filter, Option.isNone_iff_eq_none]
    constructor
    · rintro ⟨node, ⟨hnode, hnone⟩, rfl⟩
      exact ⟨hnone, .inr (List.mem_map_of_mem hnode)⟩
    · rintro ⟨hnone, hsome | hmem⟩
      · rw [hnone] at hsome
        cases hsome
      · obtain ⟨node, hnode, rfl⟩ := List.mem_map.mp hmem
        exact ⟨node, ⟨hnode, hnone⟩, rfl⟩
  · rw [List.length_map, ← List.countP_eq_length_filter, hcopied, Nat.zero_add]
  · have hbalance := countP_balance (H := H) s plan
    rw [hconflicts]
    dsimp only
    omega

end Run

/-! ## A repetition -/

/-- A root and a node below it that has this result, put into a store as often as there are
results. -/
def recorded (results : List Value) : Except PyError MemoryStore := do
  let root ← Node.make .plain .root none (.dict [("run", .str "r")])
  let store ← MemoryStore.empty.put .plain root
  results.foldlM (fun store result => do
    let node ← Node.make .plain .toolCall (some root.id) (.dict []) 0 (some result)
    store.put .plain node) store

/-- A store that met one other result twice misses the next one. -/
theorem mergeReport_misses_conflict :
    (do
      let dst ← recorded [.int 1, .int 2, .int 2]
      let src ← recorded [.int 3]
      let plan ← prepareMerge .plain (.memory (fun _ => "") src)
      let (_, report) ← merge .plain (.memory .plain) false dst (.memory (fun _ => "") src)
      return (report.resultConflicts,
        plan.countP (present (.memory .plain) dst (newConflict .plain)))) =
      (.ok (0, 1) : Except PyError (ℕ × ℕ)) := by
  decide +kernel

/-- A merge that reports. -/
theorem mergeReport_exact_recorded :
    ∃ dst src, recorded [.int 1, .int 2, .int 2] = .ok dst ∧ recorded [.int 3] = .ok src ∧
      ∃ (report : MergeReport) (plan : List Node), prepareMerge .plain (.memory (fun _ => "") src) = .ok plan ∧
        (report.resultConflicts = plan.countP
            (present (.memory .plain) dst (newConflict .plain)) ↔
          plan.countP (present (.memory .plain) dst (missed .plain)) =
            plan.countP (present (.memory .plain) dst (overcounted .plain))) := by
  have hok : ((recorded [.int 1, .int 2, .int 2]).bind fun dst =>
      (recorded [.int 3]).bind fun src =>
        merge .plain (.memory .plain) false dst (.memory (fun _ => "") src)).isOk = true := by
    decide +kernel
  obtain ⟨⟨t, report⟩, hrun⟩ := Fallible.isOk_iff.mp hok
  obtain ⟨dst, hdst, hrun⟩ := Fallible.bind_ok_iff.mp hrun
  obtain ⟨src, hsrc, hrun⟩ := Fallible.bind_ok_iff.mp hrun
  obtain ⟨plan, hplan, -, hcounts⟩ := mergeReport_exact hrun
  exact ⟨dst, src, hdst, hsrc, report, plan, hplan, hcounts⟩

end Pollard.Merge
