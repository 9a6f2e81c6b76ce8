import Pollard.Lib.Forest
import Pollard.Rust.Readback

/-!
# Steps of the memory store in Rust

What a put or a patch does to the nodes, and how a store that reads the same records keeps up.
-/

namespace Pollard.Rust

open Lib Fallible

variable {lib : Library}

/-! ## Metadata of nodes -/

namespace Node

theorem Fit.withMetadata {node : Node} (h : node.Fit lib) {metadata : Json}
    (hdistinct : metadata.distinct = true) (hobject : metadata.isObject = true) :
    ({ node with metadata } : Node).Fit lib where
  payload := h.payload
  metadata := hdistinct
  result := h.result
  hex := h.hex
  parent := h.parent
  payloadObject := h.payloadObject
  metadataObject := hobject
  written := h.written
  digest := h.digest
  expected := h.expected
  validResult := h.validResult

theorem Reads.withMetadata {live read : Node} (h : Reads lib live read) {metadata other : Json}
    (hsame : other.resultValuesEqual lib metadata = true) :
    Reads lib { live with metadata } { read with metadata := other } where
  id := h.id
  parent := h.parent
  kind := h.kind
  attempt := h.attempt
  payload := h.payload
  resultText := h.resultText
  resultDigest := h.resultDigest
  result := h.result
  metadata := hsame

theorem distinct_ofOption (text : Option String) : (Json.ofOption text).distinct = true := by
  cases text <;> rfl

theorem distinct_conflict {node : Node} (h : node.WellFormed) : node.conflict.distinct = true := by
  rw [conflict, Json.distinct_object_iff]
  refine ⟨by simp [Assoc.keys], ?_⟩
  rw [List.forall_mem_cons, List.forall_mem_singleton]
  refine ⟨distinct_ofOption _, ?_⟩
  cases hresult : node.result with
  | none => rfl
  | some result => exact h.result result hresult

theorem Reads.conflict {live read : Node} (h : Reads lib live read) :
    read.conflict.resultValuesEqual lib live.conflict = true := by
  have hdigest : (Json.ofOption read.resultDigest).resultValuesEqual lib
      (.ofOption live.resultDigest) = true := by
    rw [h.resultDigest]
    cases live.resultDigest <;> simp [Json.ofOption, Json.resultValuesEqual, Json.equalWith]
  have hresult : (read.result.getD .null).resultValuesEqual lib (live.result.getD .null) = true := by
    have hsame := h.result
    cases hread : read.result <;> cases hlive : live.result <;> rw [hread, hlive] at hsame
    · rfl
    · cases hsame
    · cases hsame
    · exact hsame
  rw [Json.resultValuesEqual] at hdigest hresult
  simp [Node.conflict, Json.resultValuesEqual, Json.equalWith, Json.equalEntries, Assoc.lookup,
    hdigest, hresult]

theorem asArray_eq_some {value : Option Json} {items : List Json}
    (h : (value.getD (.array [])).asArray = some items) :
    value = some (.array items) ∨ value = none ∧ items = [] := by
  cases value with
  | none => exact .inr ⟨rfl, (Option.some.inj h).symm⟩
  | some value =>
      cases value with
      | array others => exact .inl (by rw [Option.some.inj h])
      | _ => cases h

theorem distinct_conflicts {node : Node} (h : node.metadata.distinct = true)
    {conflicts : List Json} (hconflicts : node.conflicts = some conflicts) :
    ∀ item ∈ conflicts, item.distinct = true := by
  rcases asArray_eq_some hconflicts with hget | ⟨-, rfl⟩
  · exact Json.distinctItems_iff.mp (Json.distinct_of_get? h hget)
  · exact nofun

theorem Fit.withConflicts {node : Node} (h : node.Fit lib) {conflicts : List Json}
    (hdistinct : ∀ item ∈ conflicts, item.distinct = true) :
    (node.withConflicts conflicts).Fit lib := by
  have harray : (Json.array conflicts).distinct = true := Json.distinctItems_iff.mpr hdistinct
  refine h.withMetadata (Json.distinct_insert h.metadata harray _) ?_
  rw [Json.isObject_insert, h.metadataObject]

/-- The conflicts a node records are read back. -/
theorem Reads.conflicts {live read : Node} (h : Reads lib live read) (hlive : live.Fit lib)
    (hread : read.Fit lib) {conflicts : List Json} (hconflicts : live.conflicts = some conflicts) :
    ∃ others, read.conflicts = some others ∧
      Json.equalItems (Json.sameNumber lib) others conflicts = true := by
  have hat := Json.alikeAt_get? hread.metadata hlive.metadata h.metadata "result_conflicts"
  rcases asArray_eq_some hconflicts with hget | ⟨hget, rfl⟩
  · rw [hget] at hat
    obtain ⟨found, hfound, hequal⟩ := hat.exists_left
    cases found with
    | array others => exact ⟨others, by rw [Node.conflicts, hfound]; rfl, hequal⟩
    | _ => cases hequal
  · rw [hget] at hat
    cases hfound : read.metadata.get? "result_conflicts" with
    | none => exact ⟨[], by rw [Node.conflicts, hfound]; rfl, rfl⟩
    | some found =>
        rw [hfound] at hat
        exact hat.elim

theorem Reads.withConflicts {live read : Node} (h : Reads lib live read) (hlive : live.Fit lib)
    (hread : read.Fit lib) {conflicts others : List Json}
    (hlive' : (live.withConflicts conflicts).Fit lib)
    (hread' : (read.withConflicts others).Fit lib)
    (hitems : Json.equalItems (Json.sameNumber lib) others conflicts = true) :
    Reads lib (live.withConflicts conflicts) (read.withConflicts others) := by
  refine h.withMetadata ?_
  refine Json.equalWith_of_get? hread'.metadata hlive'.metadata hread'.metadataObject
    hlive'.metadataObject fun key => ?_
  rw [Json.get?_insert hread.metadataObject, Json.get?_insert hlive.metadataObject]
  split
  · exact hitems
  · exact Json.alikeAt_get? hread.metadata hlive.metadata h.metadata key

/-- A patch reads back as its text does. -/
theorem Reads.extend (hlaw : lib.Lawful) {live read : Node} (h : Reads lib live read)
    (hlive : live.Fit lib) (hread : read.Fit lib) {patch entries : List (String × Json)}
    (hdistinct : (Json.object patch).distinct = true)
    (hspelled : (Json.object patch).spelled lib = .ok (.object entries)) :
    ({ live with metadata := live.metadata.extend patch } : Node).Fit lib ∧
    ({ read with metadata := read.metadata.extend entries } : Node).Fit lib ∧
    Reads lib { live with metadata := live.metadata.extend patch }
      { read with metadata := read.metadata.extend entries } := by
  have hspells := Json.spells_of_spelled hlaw hdistinct hspelled
  obtain ⟨hnodup, hvalues⟩ := Json.distinct_object_iff.mp hdistinct
  obtain ⟨hnodup', hvalues'⟩ := Json.distinct_object_iff.mp hspells.distinct
  have hlive' := Json.distinct_extend hlive.metadata hvalues
  have hread' := Json.distinct_extend hread.metadata hvalues'
  have hobject : (live.metadata.extend patch).isObject = true := by
    rw [Json.isObject_extend, hlive.metadataObject]
  have hobject' : (read.metadata.extend entries).isObject = true := by
    rw [Json.isObject_extend, hread.metadataObject]
  refine ⟨hlive.withMetadata hlive' hobject, hread.withMetadata hread' hobject',
    h.withMetadata ?_⟩
  refine Json.equalWith_of_get? hread' hlive' hobject' hobject fun key => ?_
  rw [Json.get?_extend hread.metadataObject hnodup', Json.get?_extend hlive.metadataObject hnodup]
  exact .or (Json.alikeAt_get? hspells.distinct hdistinct hspells.alike key)
    (Json.alikeAt_get? hread.metadata hlive.metadata h.metadata key)

end Node

/-! ## The nodes of a store -/

/-- Ids with the ids of their parents, newest first. -/
def edges (nodes : Dict String Node) : Forest.Edges String :=
  nodes.entries.reverse.map fun e => (e.1, e.2.parent)

theorem mem_keys_edges {nodes : Dict String Node} {id : String} :
    id ∈ Forest.keys (edges nodes) ↔ ∃ node, nodes.get? id = some node := by
  rw [Forest.keys, edges, List.map_map, List.mem_map]
  constructor
  · rintro ⟨e, he, rfl⟩
    exact ⟨e.2, Dict.mem_entries_iff.mp (List.mem_reverse.mp he)⟩
  · rintro ⟨node, hnode⟩
    exact ⟨(id, node), List.mem_reverse.mpr (Dict.mem_entries_iff.mpr hnode), rfl⟩

theorem mem_edges {nodes : Dict String Node} {id : String} {parent : Option String} :
    (id, parent) ∈ edges nodes ↔ ∃ node, nodes.get? id = some node ∧ node.parent = parent := by
  rw [edges, List.mem_map]
  constructor
  · rintro ⟨e, he, heq⟩
    cases heq
    exact ⟨e.2, Dict.mem_entries_iff.mp (List.mem_reverse.mp he), rfl⟩
  · rintro ⟨node, hnode, rfl⟩
    exact ⟨(id, node), List.mem_reverse.mpr (Dict.mem_entries_iff.mpr hnode), rfl⟩

theorem edges_set_new {nodes : Dict String Node} {id : String} (node : Node)
    (h : nodes.get? id = none) : edges (nodes.set id node) = (id, node.parent) :: edges nodes := by
  rw [edges, Dict.entries_set_of_get?_none node h, List.reverse_append, List.map_append]
  rfl

theorem edges_set_same {nodes : Dict String Node} {id : String} {old node : Node}
    (h : nodes.get? id = some old) (hparent : node.parent = old.parent) :
    edges (nodes.set id node) = edges nodes := by
  obtain ⟨pre, post, hentries, hset, -⟩ := Dict.entries_set_of_get?_some node h
  rw [edges, edges, hentries, hset]
  simp [hparent]

namespace MemoryStore

/-- What holds of the nodes of a memory store, whatever was done to it. -/
structure WellFormed (lib : Library) (s : MemoryStore) : Prop where
  keyed : ∀ {id node}, s.nodes.get? id = some node → node.id = id
  fit : ∀ {id node}, s.nodes.get? id = some node → node.Fit lib
  grounded : Forest.Grounded (edges s.nodes)
  indexed : ∀ {parent e}, e ∈ s.childIndex.getD parent [] ↔
    ∃ node, s.nodes.get? e.2 = some node ∧ node.parent = some parent ∧ e.1 = node.kind.value
  nodup : ∀ parent, (s.childIndex.getD parent []).Nodup

theorem wellFormed_empty : WellFormed lib empty where
  keyed := nofun
  fit := nofun
  grounded := trivial
  indexed := ⟨nofun, fun ⟨_, h, _⟩ => nomatch h⟩
  nodup := fun _ => List.nodup_nil

theorem exists?_iff {s : MemoryStore} {id : String} :
    s.exists? id = true ↔ ∃ node, s.nodes.get? id = some node := Option.isSome_iff_exists

theorem WellFormed.parent_exists {s : MemoryStore} (h : s.WellFormed lib) {id parent : String}
    {node : Node} (hnode : s.nodes.get? id = some node) (hparent : node.parent = some parent) :
    ∃ node, s.nodes.get? parent = some node :=
  mem_keys_edges.mp (h.grounded.parent_mem (mem_edges.mpr ⟨node, hnode, hparent⟩))

theorem getD_index_inserted (s : MemoryStore) (node : Node) (parent : String) :
    (s.inserted node).childIndex.getD parent [] =
      if node.parent = some parent ∧
          (node.kind.value, node.id) ∉ s.childIndex.getD parent [] then
        (node.kind.value, node.id) :: s.childIndex.getD parent []
      else s.childIndex.getD parent [] := by
  unfold inserted
  cases hparent : node.parent with
  | none => simp
  | some own =>
      dsimp only
      by_cases howner : own = parent
      · subst howner
        split
        · next hmem => simp [hmem]
        · next hmem => simp [hmem, Dict.getD_set]
      · have hne : some own ≠ some parent := fun h => howner (Option.some.inj h)
        split <;> simp [howner, Dict.getD_set]

theorem WellFormed.inserted {s : MemoryStore} (h : s.WellFormed lib) {node : Node}
    (hfit : node.Fit lib) (hnew : s.nodes.get? node.id = none)
    (hparent : ∀ parent, node.parent = some parent → ∃ node, s.nodes.get? parent = some node) :
    (s.inserted node).WellFormed lib where
  keyed := by
    intro id found hfound
    change (s.nodes.set node.id node).get? id = _ at hfound
    rw [Dict.get?_set] at hfound
    split at hfound
    · next heq => rw [← Option.some.inj hfound, heq]
    · exact h.keyed hfound
  fit := by
    intro id found hfound
    change (s.nodes.set node.id node).get? id = _ at hfound
    rw [Dict.get?_set] at hfound
    split at hfound
    · exact Option.some.inj hfound ▸ hfit
    · exact h.fit hfound
  grounded := by
    change Forest.Grounded (edges (s.nodes.set node.id node))
    rw [edges_set_new node hnew]
    refine ⟨fun hmem => ?_, fun parent hmem => mem_keys_edges.mpr (hparent parent hmem), h.grounded⟩
    obtain ⟨found, hfound⟩ := mem_keys_edges.mp hmem
    rw [hnew] at hfound
    cases hfound
  indexed := by
    intro parent e
    have hfree : (node.kind.value, node.id) ∉ s.childIndex.getD parent [] := by
      intro hmem
      obtain ⟨found, hfound, -⟩ := h.indexed.mp hmem
      rw [hnew] at hfound
      cases hfound
    rw [getD_index_inserted]
    change _ ↔ ∃ found, (s.nodes.set node.id node).get? e.2 = some found ∧ _
    rw [Dict.get?_set]
    by_cases hid : node.id = e.2
    · have hold : e ∉ s.childIndex.getD parent [] := by
        intro hmem
        obtain ⟨found, hfound, -⟩ := h.indexed.mp hmem
        rw [← hid, hnew] at hfound
        cases hfound
      rw [if_pos hid]
      by_cases hown : node.parent = some parent
      · rw [if_pos ⟨hown, hfree⟩, List.mem_cons, or_iff_left hold]
        constructor
        · rintro rfl
          exact ⟨node, rfl, hown, rfl⟩
        · rintro ⟨found, ⟨⟩, -, hkind⟩
          exact Prod.ext hkind hid.symm
      · rw [if_neg fun hand => hown hand.1]
        refine iff_of_false hold ?_
        rintro ⟨found, hfound, hp, -⟩
        exact hown (Option.some.inj hfound ▸ hp)
    · rw [if_neg hid, ← h.indexed]
      split
      · rw [List.mem_cons]
        exact or_iff_right fun heq => hid (congrArg Prod.snd heq).symm
      · exact Iff.rfl
  nodup := by
    intro parent
    rw [getD_index_inserted]
    split
    · next hand => exact List.nodup_cons.mpr ⟨hand.2, h.nodup parent⟩
    · exact h.nodup parent

theorem WellFormed.replaced {s : MemoryStore} (h : s.WellFormed lib) {old node : Node}
    (hfit : node.Fit lib) (hold : s.nodes.get? node.id = some old)
    (hparent : node.parent = old.parent) (hkind : node.kind = old.kind) :
    (s.replaced node).WellFormed lib where
  keyed := by
    intro id found hfound
    change (s.nodes.set node.id node).get? id = _ at hfound
    rw [Dict.get?_set] at hfound
    split at hfound
    · next heq => rw [← Option.some.inj hfound, heq]
    · exact h.keyed hfound
  fit := by
    intro id found hfound
    change (s.nodes.set node.id node).get? id = _ at hfound
    rw [Dict.get?_set] at hfound
    split at hfound
    · exact Option.some.inj hfound ▸ hfit
    · exact h.fit hfound
  grounded := by
    change Forest.Grounded (edges (s.nodes.set node.id node))
    rw [edges_set_same hold hparent]
    exact h.grounded
  indexed := by
    intro parent e
    change e ∈ s.childIndex.getD parent [] ↔
      ∃ found, (s.nodes.set node.id node).get? e.2 = some found ∧ _
    rw [h.indexed, Dict.get?_set]
    by_cases hid : node.id = e.2
    · rw [if_pos hid, ← hid, hold]
      constructor
      · rintro ⟨found, ⟨⟩, hp, hk⟩
        exact ⟨node, rfl, hparent.trans hp, hk.trans (congrArg _ hkind.symm)⟩
      · rintro ⟨found, ⟨⟩, hp, hk⟩
        exact ⟨old, rfl, hparent.symm.trans hp, hk.trans (congrArg _ hkind)⟩
    · rw [if_neg hid]
  nodup := h.nodup

theorem WellFormed.withPending {s : MemoryStore} (h : s.WellFormed lib) (pending : List String) :
    { s with pending }.WellFormed lib :=
  ⟨h.keyed, h.fit, h.grounded, h.indexed, h.nodup⟩

/-! ### put -/

/-- What `put` does to a store. -/
inductive Puts (s : MemoryStore) (node : Node) : MemoryStore → Prop where
  | inserted (hnew : s.nodes.get? node.id = none) : Puts s node (s.inserted node)
  | same (existing : Node) (hget : s.nodes.get? node.id = some existing)
      (hsame : existing.sameIdentity node = true) (hdiffers : existing.differs node = false) :
      Puts s node s
  | conflict (existing : Node) (hget : s.nodes.get? node.id = some existing)
      (hsame : existing.sameIdentity node = true) (hdiffers : existing.differs node = true)
      (conflicts : List Json) (hconflicts : existing.conflicts = some conflicts) :
      Puts s node (s.replaced (existing.withConflicts (conflicts ++ [node.conflict])))

theorem put_ok_iff {s after : MemoryStore} {node : Node} :
    s.put lib node = .ok after ↔ node.validate lib = .ok () ∧
      (∀ parent, node.parent = some parent → s.exists? parent = true) ∧ s.Puts node after := by
  unfold put
  constructor
  · intro h
    obtain ⟨_, hvalid, h⟩ := bind_ok_iff.mp h
    obtain ⟨_, hparent, h⟩ := bind_ok_iff.mp h
    refine ⟨hvalid, Node.checkParent_ok_iff.mp hparent, ?_⟩
    cases hget : s.nodes.get? node.id with
    | none =>
        rw [hget] at h
        cases h
        exact .inserted hget
    | some existing =>
        rw [hget] at h
        obtain ⟨_, hsame, h⟩ := bind_ok_iff.mp h
        rw [ensure_ok_iff] at hsame
        split at h
        · next hdiffers =>
            cases hconflicts : existing.conflicts with
            | none =>
                rw [hconflicts] at h
                cases h
            | some conflicts =>
                rw [hconflicts] at h
                cases h
                exact .conflict existing hget hsame hdiffers conflicts hconflicts
        · next hdiffers =>
            cases h
            exact .same existing hget hsame (Bool.not_eq_true _ ▸ hdiffers)
  · rintro ⟨hvalid, hparent, hputs⟩
    rw [hvalid]
    change (node.checkParent _).bind _ = _
    rw [Node.checkParent_ok_iff.mpr hparent]
    dsimp only [Except.bind]
    cases hputs with
    | inserted hnew => rw [hnew]
    | same existing hget hsame hdiffers =>
        rw [hget]
        change (ensure _ _).bind _ = _
        rw [ensure_ok_iff.mpr hsame]
        exact if_neg (by rw [hdiffers]; exact Bool.false_ne_true)
    | conflict existing hget hsame hdiffers conflicts hconflicts =>
        rw [hget]
        change (ensure _ _).bind _ = _
        rw [ensure_ok_iff.mpr hsame]
        refine (if_pos hdiffers).trans ?_
        rw [hconflicts]

theorem sameIdentity_iff {a b : Node} : a.sameIdentity b = true ↔
    a.parent = b.parent ∧ a.kind = b.kind ∧ a.attempt = b.attempt ∧
      a.payload.equal b.payload = true := by
  simp [Node.sameIdentity]

theorem WellFormed.put {s after : MemoryStore} (h : s.WellFormed lib) {node : Node}
    (hnode : node.WellFormed) (hput : s.put lib node = .ok after) : after.WellFormed lib := by
  obtain ⟨hvalid, hparent, hputs⟩ := put_ok_iff.mp hput
  cases hputs with
  | inserted hnew =>
      exact h.inserted (Node.fit_of_validate hnode hvalid) hnew fun parent hp =>
        exists?_iff.mp (hparent parent hp)
  | same => exact h
  | conflict existing hget hsame hdiffers conflicts hconflicts =>
      have hfit := h.fit hget
      have hget' : s.nodes.get? existing.id = some existing := (h.keyed hget).symm ▸ hget
      refine h.replaced (hfit.withConflicts ?_) hget' rfl rfl
      rw [List.forall_mem_append, List.forall_mem_singleton]
      exact ⟨Node.distinct_conflicts hfit.metadata hconflicts, Node.distinct_conflict hnode⟩

/-! ### The other operations -/

theorem updateMeta_ok_iff {s after : MemoryStore} {id : String} {patch : Json} :
    s.updateMeta id patch = .ok after ↔ ∃ entries node, patch = .object entries ∧
      s.nodes.get? id = some node ∧
      after = s.replaced { node with metadata := node.metadata.extend entries } := by
  constructor
  · intro h
    cases patch with
    | object entries =>
        unfold updateMeta at h
        cases hget : s.nodes.get? id with
        | none =>
            rw [hget] at h
            cases h
        | some node =>
            rw [hget] at h
            cases h
            exact ⟨entries, node, rfl, rfl, rfl⟩
    | _ => cases h
  · rintro ⟨entries, node, rfl, hget, rfl⟩
    unfold updateMeta
    rw [hget]

theorem WellFormed.updateMeta {s after : MemoryStore} (h : s.WellFormed lib) {id : String}
    {patch : Json} (hpatch : patch.distinct = true) (hupdate : s.updateMeta id patch = .ok after) :
    after.WellFormed lib := by
  obtain ⟨entries, node, rfl, hget, rfl⟩ := updateMeta_ok_iff.mp hupdate
  have hfit := h.fit hget
  have hget' : s.nodes.get? node.id = some node := (h.keyed hget).symm ▸ hget
  have hdistinct := Json.distinct_extend hfit.metadata (Json.distinct_object_iff.mp hpatch).2
  have hobject : (node.metadata.extend entries).isObject = true := by
    rw [Json.isObject_extend, hfit.metadataObject]
  exact h.replaced (hfit.withMetadata hdistinct hobject) hget' rfl rfl

theorem finalize_ok {s after : MemoryStore} {node : Node} (h : s.finalize lib node = .ok after) :
    node.validate lib = .ok () ∧
    (∃ old, s.nodes.get? node.id = some old ∧ old.sameIdentity node = true) ∧
    node.state.getD "" ∈ ["completed", "failed"] ∧
    after = { s.replaced node with pending := s.pending.filter fun id => id ≠ node.id } := by
  obtain ⟨_, hvalid, h⟩ := bind_ok_iff.mp h
  obtain ⟨old, hget, h⟩ := bind_ok_iff.mp h
  obtain ⟨_, hsame, h⟩ := bind_ok_iff.mp h
  obtain ⟨_, hstate, h⟩ := bind_ok_iff.mp h
  cases h
  exact ⟨hvalid, ⟨old, get_ok_iff.mp hget, (ensure_ok_iff.mp hsame).2.2.2⟩,
    ensure_ok_iff.mp hstate, rfl⟩

theorem WellFormed.finalize {s after : MemoryStore} (h : s.WellFormed lib) {node : Node}
    (hnode : node.WellFormed) (hfinal : s.finalize lib node = .ok after) :
    after.WellFormed lib := by
  obtain ⟨hvalid, ⟨old, hget, hsame⟩, -, rfl⟩ := finalize_ok hfinal
  obtain ⟨hparent, hkind, -, -⟩ := sameIdentity_iff.mp hsame
  exact (h.replaced (Node.fit_of_validate hnode hvalid) hget hparent.symm hkind.symm).withPending _

theorem dropNodes_ok {s after : MemoryStore} (hs : s.WellFormed lib) {ids : List String}
    (h : s.dropNodes ids = .ok after) :
    (∀ {id node parent}, s.nodes.get? id = some node → id ∉ ids → node.parent = some parent →
      parent ∉ ids) ∧
    (∀ id, after.nodes.get? id = if id ∈ ids then none else s.nodes.get? id) ∧
    after.nodes = s.nodes.filter (fun e => e.1 ∉ ids) ∧
    ∀ parent, after.childIndex.getD parent [] =
      if parent ∈ ids then [] else
        (s.childIndex.getD parent []).filter fun child => child.2 ∉ ids := by
  obtain ⟨_, hensure, h⟩ := bind_ok_iff.mp h
  cases h
  rw [ensure_ok_iff] at hensure
  refine ⟨?_, fun id => ?_, rfl, fun parent => ?_⟩
  · intro id node parent hget hid hparent hmem
    refine hensure ⟨node, Dict.mem_values_of_get? hget, by rwa [hs.keyed hget], ?_⟩
    rw [hparent]
    simpa using hmem
  · change (s.nodes.filter _).get? id = _
    rw [Dict.get?_filter]
    by_cases hid : id ∈ ids
    · cases s.nodes.get? id <;> simp [hid]
    · cases s.nodes.get? id <;> simp [hid]
  · rw [Dict.getD, Dict.get?_map, Dict.get?_filter, Dict.getD]
    by_cases hparent : parent ∈ ids
    · cases s.childIndex.get? parent <;> simp [hparent]
    · cases s.childIndex.get? parent <;> simp [hparent, Option.filter_some]

theorem WellFormed.dropNodes {s after : MemoryStore} (h : s.WellFormed lib) {ids : List String}
    (hdrop : s.dropNodes ids = .ok after) : after.WellFormed lib := by
  obtain ⟨hkept, hget, hnodes, hindex⟩ := dropNodes_ok h hdrop
  have hold {id node} (hnode : after.nodes.get? id = some node) :
      id ∉ ids ∧ s.nodes.get? id = some node := by
    rw [hget] at hnode
    split at hnode
    · cases hnode
    · next hid => exact ⟨hid, hnode⟩
  refine ⟨fun hnode => h.keyed (hold hnode).2, fun hnode => h.fit (hold hnode).2, ?_, ?_, ?_⟩
  · have hedges : edges after.nodes = (edges s.nodes).filter fun e => e.1 ∉ ids := by
      rw [edges, edges, hnodes, Dict.filter, ← List.filter_reverse, List.filter_map]
      rfl
    rw [hedges]
    refine @Forest.Grounded.filter _ _ h.grounded (fun id => id ∉ ids) fun id parent hmem hid => ?_
    obtain ⟨node, hnode, hparent⟩ := mem_edges.mp hmem
    simpa using hkept hnode (by simpa using hid) hparent
  · intro parent e
    rw [hindex, hget]
    split
    · next hparent =>
        refine iff_of_false List.not_mem_nil ?_
        rintro ⟨node, hnode, hp, -⟩
        split at hnode
        · cases hnode
        · next hid => exact hkept hnode hid hp hparent
    · rw [List.mem_filter, h.indexed]
      split
      · next hid => simp [hid]
      · next hid => simp [hid]
  · intro parent
    rw [hindex]
    split
    · exact List.nodup_nil
    · exact (h.nodup parent).filter _

end MemoryStore

end Pollard.Rust
