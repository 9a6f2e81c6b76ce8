import Pollard.Governance.Atomic

/-!
# Subtrees come back from their manifests

The nodes of an exported subtree are read as they were, in JSON form, in the order of the
walk, with their seal.
-/

namespace Pollard

open Lib Lib.Fallible Stores Stores.ObjectStore

namespace Governance

/-- The texts of a node's record spell what was written, and its payload is read as it was. -/
structure ReadsBack (spelled : Codes → Option Obj) (node : ObjectNode) : Prop where
  payload : (spelled (codes node.payload.canonical.dumps)).map (fun value => value.loads.toValue) =
    some node.payload.canonical
  result : ∀ result ∈ node.result, spelled result.text = some result.value.dumped
  metadata : spelled (Obj.dict node.metadata.entries).dumped.write =
    some (Obj.dict node.metadata.entries).dumped

section RoundTrip

variable {H : Hashing} {digest : Codes → String} {sealDigest : Value → String}
  {spelled : Codes → Option Obj}

theorem nameOf_codes (s : String) : nameOf (codes s) = .ok s := by
  rw [nameOf, if_pos (utf8_codes s), ofList_codes]

theorem nameOf?_codes (s : Option String) : nameOf? (s.map codes) = .ok s := by
  cases s with
  | none => rfl
  | some s => rw [Option.map_some, nameOf?, nameOf_codes]; rfl

/-- What is under a name of an object that was written and read. -/
theorem field_read {entries : List (String × Obj)} (hnodup : (entries.map Prod.fst).Nodup) :
    ∃ read, (object entries).jsonForm = .dict read ∧
      ∀ name, field read name = ((Assoc.lookup entries name).getD .none).jsonForm := by
  obtain ⟨read, hread, -, hlookup⟩ := Obj.read_names hnodup
  refine ⟨read, hread, fun name => ?_⟩
  rw [field, hlookup]
  cases Assoc.lookup entries name <;> rfl

theorem jsonForm_optional (s : Option String) : (optional s).jsonForm = optional s := by
  cases s <;> rfl

/-- The texts of a record that was written and read. -/
theorem recordTexts_nodeRecord {node : ObjectNode} {record : Obj}
    (hrecord : nodeRecord node = .ok record) :
    recordTexts record.jsonForm = .ok ⟨codes node.id, node.parent.map codes,
      codes node.kind.value, node.attempt, codes node.payload.canonical.dumps,
      node.result.map ResultText.text, node.resultDigest.map codes,
      (Obj.dict node.metadata.entries).dumped.write⟩ := by
  obtain ⟨payload, hpayload, hrest⟩ := bind_ok_iff.mp hrecord
  obtain ⟨metadata, hmeta, rfl⟩ := map_ok_iff.mp hrest
  obtain ⟨rfl, -⟩ := Value.isIdentity_of_canonicalBytes hpayload
  obtain ⟨-, rfl⟩ := Obj.dumps_ok hmeta
  obtain ⟨read, hread, hfield⟩ := @field_read
    [("id", .str (codes node.id)), ("parent", optional node.parent),
      ("kind", .str (codes node.kind.value)), ("attempt", .int node.attempt),
      ("payload", .str (codes node.payload.canonical.dumps)),
      ("result", node.result.elim .none fun result => .str result.text),
      ("result_digest", optional node.resultDigest),
      ("meta", .str (Obj.dict node.metadata.entries).dumped.write)] (by simp)
  have hstr : ∀ name s, field read name = .str s → requiredStr read name = .ok s := by
    intro name s h
    rw [requiredStr, h]
  have hopt : ∀ (name : String) (s : Option String), field read name = optional s →
      optionalStr read name = .ok (s.map codes) := by
    intro name s h
    rw [optionalStr, h]
    cases s <;> rfl
  rw [hread]
  simp only [recordTexts]
  rw [hstr "id" _ ((hfield _).trans rfl), hopt "parent" node.parent ((hfield _).trans
    (jsonForm_optional _)), hstr "kind" _ ((hfield _).trans rfl)]
  have hattempt : requiredInt read "attempt" = .ok node.attempt := by
    rw [requiredInt, (hfield _).trans (show _ = Obj.int node.attempt from rfl)]
  have hresult : optionalStr read "result" = .ok (node.result.map ResultText.text) := by
    have hvalue : field read "result" =
        node.result.elim .none fun result => .str result.text := by
      refine (hfield _).trans ?_
      cases node.result <;> rfl
    rw [optionalStr, hvalue]
    cases node.result <;> rfl
  rw [hattempt, hstr "payload" _ ((hfield _).trans rfl), hresult, hopt "result_digest"
    node.resultDigest ((hfield _).trans (jsonForm_optional _)),
    hstr "meta" _ ((hfield _).trans rfl)]
  rfl

/-- The record of a stored node is read as the node in JSON form. -/
theorem nodeFromRecord_nodeRecord {node : ObjectNode} {record : Obj} (hbuilt : node.Built)
    (hvalid : node.validateForPut H digest = .ok ()) (hreads : ReadsBack spelled node)
    (hrecord : nodeRecord node = .ok record) :
    nodeFromRecord digest spelled record.jsonForm = .ok node.jsonForm := by
  obtain ⟨payload, hpayload, hrest⟩ := bind_ok_iff.mp hrecord
  obtain ⟨metadata, hmeta, -⟩ := map_ok_iff.mp hrest
  obtain ⟨value, hspelled, hvalue⟩ := Option.map_eq_some_iff.mp hreads.payload
  have hresult : spelledResult spelled (node.result.map ResultText.text) =
      .ok (node.result.map ResultText.dumped) := by
    cases hnode : node.result with
    | none => rfl
    | some result =>
        rw [Option.map_some, Option.map_some, spelledResult, spelledText,
          hreads.result result hnode]
        rfl
  refine bind_ok_iff.mpr ⟨_, recordTexts_nodeRecord hrecord, wrapped_ok_iff.mpr ?_⟩
  refine bind_ok_iff.mpr ⟨value, by rw [spelledText, hspelled], ?_⟩
  refine bind_ok_iff.mpr ⟨_, hresult, ?_⟩
  refine bind_ok_iff.mpr ⟨_, by rw [spelledText, hreads.metadata], ?_⟩
  refine bind_ok_iff.mpr ⟨_, nameOf_codes _, bind_ok_iff.mpr ⟨_, nameOf?_codes _, ?_⟩⟩
  refine bind_ok_iff.mpr ⟨_, nameOf_codes _, bind_ok_iff.mpr ⟨_, nameOf?_codes _, ?_⟩⟩
  rw [hvalue]
  refine ObjectNode.fromRecord_record hbuilt hvalid ?_
  rw [ObjectNode.record, hmeta, (Obj.dumps_ok hmeta).2]
  rfl

/-- The names of a manifest with what they hold. -/
def manifestEntries (rootId : String) (report : Seal.SealReport) (records : List Obj) :
    List (String × Obj) :=
  [("format", exportFormat), ("root_id", .str (codes rootId)), ("seal", .ofValue report.toDict),
    ("nodes", .list records)]

variable (H digest sealDigest) in
/-- What an export has read and written. -/
structure Exported (nodes : Nodes) (rootId : String) (text : Obj) (report : ExportReport)
    (subtree : List ObjectNode) (records : List Obj) (sealed : Seal.SealReport) : Prop where
  walked : walk nodes rootId = .ok subtree
  valid : ∀ node ∈ subtree, validateNode H digest node = .ok ()
  rolled : Seal.sealNodes sealDigest rootId (subtree.map covered) = sealed
  recorded : List.Forall₂ (fun node record => nodeRecord node = .ok record) subtree records
  written : text = (object (manifestEntries rootId sealed records)).dumped
  utf8 : text.utf8 = true
  report : report = ⟨rootId, sealed.digest, subtree.length⟩

theorem exported_of_ok {nodes : Nodes} {rootId : String} {text : Obj} {report : ExportReport}
    (h : exportSubtree H digest sealDigest nodes rootId = .ok (text, report)) :
    ∃ subtree records sealed, Exported H digest sealDigest
      nodes rootId text report subtree records sealed := by
  obtain ⟨sealed, hsealed, hrest⟩ := bind_ok_iff.mp h
  obtain ⟨subtree, hwalk, hrecords⟩ := bind_ok_iff.mp hrest
  obtain ⟨records, hwritten, htext⟩ := bind_ok_iff.mp hrecords
  obtain ⟨bytes, hbytes, heq⟩ := map_ok_iff.mp htext
  cases heq
  obtain ⟨-, htext, hutf8⟩ := Obj.jsonBytes_ok_iff.mp hbytes
  obtain ⟨subtree', hwalk', hvalid, hseal⟩ := sealSubtree_ok_iff.mp hsealed
  obtain rfl := Except.ok.inj (hwalk.symm.trans hwalk')
  exact ⟨subtree, records, sealed, hwalk, hvalid, hseal, mapM_ok_iff.mp hwritten, htext,
    htext ▸ hutf8, rfl⟩

/-- The nodes of a walk, each under its id. -/
theorem walk_ok {nodes : Nodes} (h : WellFormed H digest nodes) {rootId : String}
    {subtree : List ObjectNode} (hwalk : walk nodes rootId = .ok subtree) :
    List.Forall₂ (fun id node => nodes.get? id = some node) (walkIds nodes rootId) subtree ∧
      rootId ∈ nodes.keys ∧ subtree.map ObjectNode.id = walkIds nodes rootId := by
  have hall : List.Forall₂ (fun id node => nodes.get? id = some node) (walkIds nodes rootId)
      subtree := by
    refine (mapM_ok_iff.mp hwalk).imp fun id node hget => ?_
    rw [ObjectStore.get] at hget
    split at hget
    · next hfound => rw [hfound, Except.ok.inj hget]
    · cases hget
  refine ⟨hall, ?_, ?_⟩
  · rw [walkIds, Forest.walk] at hall
    cases hall with
    | cons hroot _ => exact mem_keys_iff.mpr ⟨_, hroot⟩
  · clear hwalk
    generalize walkIds nodes rootId = ids at hall
    induction hall with
    | nil => rfl
    | cons hget _ ih => rw [List.map_cons, h.named hget, ih]

/-- In the order of a walk every parent comes first. -/
theorem checkParents_walk {nodes : Nodes} (h : WellFormed H digest nodes) :
    ∀ (fuel : ℕ) (pending seen : List String) (visited : List ObjectNode),
      List.Forall₂ (fun id node => nodes.get? id = some node)
        (Forest.walk (children nodes) fuel pending) visited →
      (∀ id ∈ pending, ∃ node p, nodes.get? id = some node ∧ node.parent = some p ∧ p ∈ seen) →
      checkParents seen (visited.map ObjectNode.jsonForm) = .ok () := by
  intro fuel
  induction fuel with
  | zero =>
      intro pending seen visited hall _
      cases hall
      rfl
  | succ fuel ih =>
      intro pending seen visited hall hpending
      cases pending with
      | nil =>
          cases hall
          rfl
      | cons id pending =>
          rw [Forest.walk] at hall
          cases hall with
          | @cons _ node _ visited hget hrest =>
              rw [List.forall_mem_cons] at hpending
              obtain ⟨⟨first, p, hfirst, hparent, hseen⟩, hpending⟩ := hpending
              obtain rfl := Option.some.inj (hget.symm.trans hfirst)
              rw [List.map_cons, checkParents]
              have hany : (node.jsonForm.parent.any fun p => p ∈ seen) = true := by
                rw [show node.jsonForm.parent = some p from hparent, Option.any_some]
                exact decide_eq_true hseen
              rw [if_pos hany]
              refine ih _ _ visited hrest fun other hother => ?_
              rcases List.mem_append.mp hother with hchild | hold
              · obtain ⟨child, hchild, hparent⟩ := mem_children_iff.mp hchild
                refine ⟨child, id, hchild, hparent, ?_⟩
                exact List.mem_cons.mpr (.inl (h.named hget).symm)
              · obtain ⟨other, p, hget, hparent, hp⟩ := hpending other hold
                exact ⟨other, p, hget, hparent, List.mem_cons_of_mem _ hp⟩

theorem map_id_jsonForm (nodes : List ObjectNode) :
    (nodes.map ObjectNode.jsonForm).map ObjectNode.id = nodes.map ObjectNode.id := by
  rw [List.map_map]
  rfl

/-- What a manifest store holds under an id. -/
theorem get?_staged_iff {nodes : List ObjectNode} (hnodup : (nodes.map ObjectNode.id).Nodup)
    {id : String} {node : ObjectNode} :
    Dict.get? (Dict.ofList (nodes.map fun node => (node.id, node))) id = some node ↔
      node ∈ nodes ∧ node.id = id := by
  constructor
  · intro hget
    have hmem := Dict.mem_of_mem_ofList (Dict.mem_entries_iff.mpr hget)
    obtain ⟨other, hother, heq⟩ := List.mem_map.mp hmem
    cases heq
    exact ⟨hother, rfl⟩
  · rintro ⟨hnode, rfl⟩
    refine Dict.get?_ofList_of_mem (e := (node.id, node))
      (List.mem_map_of_mem (f := fun node => (node.id, node)) hnode) fun e he hid => ?_
    obtain ⟨other, hother, rfl⟩ := List.mem_map.mp he
    exact List.inj_on_of_nodup_map hnodup hother hnode hid

/-- The nodes of a walk, in JSON form, are a manifest store. -/
theorem manifestStore_walk {nodes : Nodes} (h : WellFormed H digest nodes)
    {root : ObjectNode} {rest : List ObjectNode}
    (hwalk : walk nodes root.id = .ok (root :: rest)) :
    ∃ staged, manifestStore root.jsonForm (rest.map ObjectNode.jsonForm) = .ok staged ∧
      walk staged root.id = .ok ((root :: rest).map ObjectNode.jsonForm) := by
  obtain ⟨hall, hroot, hids⟩ := walk_ok h hwalk
  have hnodup := h.nodup_walkIds hroot
  have hsame : ((root :: rest).map ObjectNode.jsonForm).map ObjectNode.id =
      walkIds nodes root.id := (map_id_jsonForm _).trans hids
  have hjson : (((root :: rest).map ObjectNode.jsonForm).map ObjectNode.id).Nodup :=
    hsame ▸ hnodup
  have hget := hall
  rw [walkIds, Forest.walk] at hall
  obtain ⟨hrootGet, hrestGet⟩ := List.forall₂_cons.mp hall
  have hstored : ∀ node ∈ root :: rest, nodes.get? node.id = some node := by
    intro node hnode
    obtain ⟨id, -, hfound⟩ := exists_left_of_forall₂ hget hnode
    rwa [h.named hfound]
  have hwalked : walkIds (Dict.ofList (((root :: rest).map ObjectNode.jsonForm).map
      fun node => (node.id, node))) root.id = walkIds nodes root.id := by
    refine h.walkIds_eq hroot (fun id hid => ?_) fun id node parent hfound _ _ => ?_
    · rw [← hids] at hid
      obtain ⟨node, hnode, rfl⟩ := List.mem_map.mp hid
      exact ⟨node, node.jsonForm, hstored node hnode,
        (get?_staged_iff hjson).mpr ⟨List.mem_map_of_mem hnode, rfl⟩, rfl, rfl⟩
    · obtain ⟨hnode, rfl⟩ := (get?_staged_iff hjson).mp hfound
      rw [← hsame]
      exact List.mem_map_of_mem hnode
  refine ⟨_, manifestStore_ok_iff.mpr ⟨hjson, fun p hp => ?_, ?_, hwalked.trans hsame.symm, rfl⟩, ?_⟩
  · change p ∉ ((root :: rest).map ObjectNode.jsonForm).map ObjectNode.id
    rw [hsame]
    exact h.parent_not_mem_walkIds hroot ⟨root, hrootGet, hp⟩
  · refine checkParents_walk h _ _ [root.id] rest hrestGet fun id hid => ?_
    rw [List.append_nil] at hid
    obtain ⟨child, hchild, hparent⟩ := mem_children_iff.mp hid
    exact ⟨child, root.id, hchild, hparent, List.mem_singleton.mpr rfl⟩
  · rw [walk]
    rw [hwalked, ← hsame]
    exact mapM_get_staged hjson

/-! ### The target -/

/-- A stored node has the identity, result and metadata of another, as JSON has them. -/
structure Reproduces (node found : ObjectNode) : Prop where
  identity : found.identity = node.identity
  result : found.result.map ResultText.text = node.result.map ResultText.text
  resultDigest : found.resultDigest = node.resultDigest
  metadata : Obj.canonicalText (.dict found.metadata.entries) =
    Obj.canonicalText (.dict node.metadata.entries)

/-- What a target holds of a subtree is the same, and it holds no other node below it. -/
structure Fits (target : Nodes) (subtree : List ObjectNode) : Prop where
  same : ∀ node ∈ subtree, ∀ found, target.get? node.id = some found → Reproduces node found
  closed : ∀ id node parent, target.get? id = some node → node.parent = some parent →
    parent ∈ subtree.map ObjectNode.id → id ∈ subtree.map ObjectNode.id

theorem reproduces_jsonForm (node : ObjectNode) : Reproduces node node.jsonForm := by
  refine ⟨?_, ?_, rfl, ?_⟩
  · rw [ObjectNode.identity, ObjectNode.identity]
    exact congrArg (Identity.mk _ _ _) (Value.canonical_canonical _)
  · change (node.result.map ResultText.jsonForm).map ResultText.text = _
    rw [Option.map_map]
    rfl
  · change Obj.canonicalText (.dict (Obj.jsonFormDict node.metadata).entries) = _
    rw [← Obj.jsonForm_dict, Obj.canonicalText_jsonForm]

/-- What is under an id after nodes were added. -/
theorem get?_added {target : Nodes} {nodes : List ObjectNode}
    (hnodup : (nodes.map ObjectNode.id).Nodup) (id : String) :
    (added target nodes).get? id =
      (target.get? id).or (nodes.find? fun node => node.id = id) := by
  induction nodes generalizing target with
  | nil => rw [List.find?_nil, Option.or_none]; rfl
  | cons node nodes ih =>
      rw [List.map_cons, List.nodup_cons] at hnodup
      rw [added, List.foldl_cons, ← added, ih hnodup.2]
      cases hstored : target.contains node.id with
      | true =>
          rw [if_pos rfl]
          by_cases hid : node.id = id
          · obtain ⟨found, hfound⟩ := contains_iff.mp hstored
            rw [← hid, hfound, Option.some_or, Option.some_or]
          · rw [List.find?_cons_of_neg (by simpa using hid)]
      | false =>
          have hget : target.get? node.id = none := by
            rwa [Dict.contains, Option.isSome_eq_false_iff, Option.isNone_iff_eq_none] at hstored
          rw [if_neg (by simp), Dict.get?_set]
          by_cases hid : node.id = id
          · rw [if_pos hid, ← hid, hget, Option.none_or, Option.some_or,
              List.find?_cons_of_pos (by simp)]
          · rw [if_neg hid, List.find?_cons_of_neg (by simpa using hid)]

theorem find?_id {nodes : List ObjectNode} (hnodup : (nodes.map ObjectNode.id).Nodup)
    {node : ObjectNode} (hnode : node ∈ nodes) :
    (nodes.find? fun other => other.id = node.id) = some node := by
  induction nodes with
  | nil => cases hnode
  | cons first nodes ih =>
      rw [List.map_cons, List.nodup_cons] at hnodup
      rcases List.mem_cons.mp hnode with rfl | hnode
      · exact List.find?_cons_of_pos (by simp)
      · have hne : first.id ≠ node.id := fun heq => hnodup.1 (heq ▸ List.mem_map_of_mem hnode)
        rw [List.find?_cons_of_neg (by simpa using hne)]
        exact ih hnodup.2 hnode

theorem checkTarget_ok {target : Nodes} {nodes : List ObjectNode}
    (h : ∀ node ∈ nodes, ∀ found, target.get? node.id = some found → Reproduces node found) :
    ∃ existing, checkTarget target (nodes.map ObjectNode.jsonForm) = .ok existing := by
  induction nodes with
  | nil => exact ⟨0, rfl⟩
  | cons node nodes ih =>
      rw [List.forall_mem_cons] at h
      obtain ⟨existing, hrest⟩ := ih h.2
      rw [List.map_cons, checkTarget]
      cases hfound : target.get? node.jsonForm.id with
      | none => exact ⟨existing, hrest⟩
      | some found =>
          have hjson := reproduces_jsonForm node
          have hsame := h.1 found hfound
          refine ⟨existing + 1, ?_⟩
          dsimp only
          rw [if_neg (not_not.mpr (hsame.identity.trans hjson.identity.symm)), if_neg (by
            rw [not_or, not_not, not_not]
            exact ⟨hsame.result.trans hjson.result.symm, hsame.resultDigest⟩), hrest]
          rfl

/-- The nodes of a manifest are written to a target that fits. -/
theorem get?_added_jsonForm {target : Nodes} {subtree : List ObjectNode}
    (hnodup : (subtree.map ObjectNode.id).Nodup) {node : ObjectNode} (hnode : node ∈ subtree) :
    (added target (subtree.map ObjectNode.jsonForm)).get? node.id =
      some ((target.get? node.id).getD node.jsonForm) := by
  have hjson : ((subtree.map ObjectNode.jsonForm).map ObjectNode.id).Nodup := by
    rw [map_id_jsonForm]
    exact hnodup
  have hfind : ((subtree.map ObjectNode.jsonForm).find? fun other => other.id = node.id) =
      some node.jsonForm := find?_id hjson (List.mem_map_of_mem hnode)
  rw [get?_added hjson, hfind]
  cases target.get? node.id <;> rfl

theorem validateNode_jsonForm {node : ObjectNode} (h : validateNode H digest node = .ok ()) :
    validateNode H digest node.jsonForm = .ok () := by
  have hid : node.jsonForm.expectedId H = node.expectedId H := by
    rw [ObjectNode.expectedId, ObjectNode.jsonForm, Hashing.nodeId, Value.canonical_canonical]
    rfl
  rw [validateNode] at h ⊢
  rw [hid]
  cases hresult : node.result with
  | none =>
      rw [hresult] at h
      rw [show node.jsonForm.result = none by rw [ObjectNode.jsonForm, hresult]; rfl]
      exact h
  | some result =>
      rw [hresult] at h
      rw [show node.jsonForm.result = some result.jsonForm by
        rw [ObjectNode.jsonForm, hresult]; rfl]
      exact h

/-- The dictionary of a seal equals itself written and read. -/
theorem survives_toDict (report : Seal.SealReport) : Obj.Survives report.toDict := by
  have hoptional : ∀ s : Option String, Obj.Survives (Seal.optional s) := by
    intro s
    cases s with
    | none => exact Obj.survives_none
    | some s => exact Obj.survives_str s
  have hentry : ∀ entry : Seal.SealEntry, Obj.Survives entry.toDict := by
    intro entry
    refine Obj.survives_dict (by simp) ?_
    simp [hoptional, Obj.survives_str, Obj.survives_int]
  have hentries : Obj.Survives (.list (report.entries.map Seal.SealEntry.toDict)) :=
    Obj.survives_list (List.forall_mem_map.mpr fun entry _ => hentry entry)
  refine Obj.survives_dict (by simp) ?_
  simp [Obj.survives_str, hentries]

/-- The document of an exported subtree has its nodes, in JSON form, and its seal. -/
theorem parseManifest_exported {nodes : Nodes} (h : WellFormed H digest nodes) {root : ObjectNode}
    {rest : List ObjectNode} {text : Obj} {report : ExportReport} {records : List Obj}
    {sealed : Seal.SealReport}
    (hexported : Exported H digest sealDigest nodes root.id text
      report (root :: rest) records sealed)
    (hreads : ∀ node ∈ root :: rest, ReadsBack spelled node) :
    parseManifest digest spelled text.loads = .ok (root.jsonForm, rest.map ObjectNode.jsonForm,
      (Obj.ofValue sealed.toDict).jsonForm) := by
  obtain ⟨hall, -, -⟩ := walk_ok h hexported.walked
  obtain ⟨read, hread, hfield⟩ :=
    @field_read (manifestEntries root.id sealed records) (by simp [manifestEntries])
  have hformat : field read "format" = exportFormat := (hfield _).trans rfl
  have hroot : field read "root_id" = .str (codes root.id) := (hfield _).trans rfl
  have hseal : field read "seal" = (Obj.ofValue sealed.toDict).jsonForm := (hfield _).trans rfl
  have hnodes : field read "nodes" = .list (records.map Obj.jsonForm) := by
    refine (hfield "nodes").trans ?_
    change Obj.jsonForm (.list records) = _
    rw [Obj.jsonForm, Obj.dumped, Obj.loads, Obj.dumpedItems_eq_map, Obj.loadsItems_eq_map,
      List.map_map]
    rfl
  have hdict : ∃ expected, (Obj.ofValue sealed.toDict).jsonForm = .dict expected := by
    rw [Seal.SealReport.toDict, Obj.ofValue, Obj.jsonForm, Obj.dumped_dict, Obj.loads]
    exact ⟨_, rfl⟩
  obtain ⟨expected, hexpected⟩ := hdict
  have hrecords : (records.map Obj.jsonForm).mapM (nodeFromRecord digest spelled) =
      .ok ((root :: rest).map ObjectNode.jsonForm) := by
    rw [mapM_ok_iff, List.forall₂_map_left_iff, List.forall₂_map_right_iff]
    refine (forall₂_imp_of_mem hexported.recorded fun node hnode record hrecord => ?_).flip
    obtain ⟨id, -, hget⟩ := exists_left_of_forall₂ hall hnode
    exact nodeFromRecord_nodeRecord (h.built hget) (h.valid hget) (hreads node hnode) hrecord
  rw [hexported.written, ← Obj.jsonForm, hread, parseManifest, if_neg (not_not.mpr hformat), hroot,
    hnodes]
  dsimp only
  rw [hseal, hexpected]
  refine bind_ok_iff.mpr ⟨_, hrecords, ?_⟩
  exact if_pos rfl

/-- What was exported is checked against a target that fits, with the seal it was exported
with. -/
theorem checked_of_exported {nodes target : Nodes} (h : WellFormed H digest nodes)
    {root : ObjectNode} {rest : List ObjectNode} {text : Obj} {report : ExportReport}
    {records : List Obj} {sealed : Seal.SealReport}
    (hexported : Exported H digest sealDigest nodes root.id text
      report (root :: rest) records sealed)
    (hreads : ∀ node ∈ root :: rest, ReadsBack spelled node)
    (hparent : ∀ p ∈ root.parent, target.contains p = true)
    (hsame : ∀ node ∈ root :: rest, ∀ found, target.get? node.id = some found →
      Reproduces node found) :
    ∃ existing, checked H digest sealDigest spelled text.loads target =
      .ok (sealed, (root :: rest).map ObjectNode.jsonForm, existing) := by
  obtain ⟨staged, hstaged, hwalk⟩ := manifestStore_walk h hexported.walked
  obtain ⟨existing, htarget⟩ := checkTarget_ok hsame
  have hsealed : sealSubtree H digest sealDigest staged root.jsonForm.id = .ok sealed := by
    refine sealSubtree_ok_iff.mpr ⟨_, hwalk, List.forall_mem_map.mpr fun node hnode =>
      validateNode_jsonForm (hexported.valid node hnode), ?_⟩
    rw [← hexported.rolled, List.map_map]
    rfl
  refine ⟨existing, bind_ok_iff.mpr ⟨_, parseManifest_exported h hexported hreads, ?_⟩⟩
  refine bind_ok_iff.mpr ⟨staged, hstaged, bind_ok_iff.mpr ⟨sealed, hsealed, ?_⟩⟩
  have hequal : Value.pyEq sealed.toDict (Obj.ofValue sealed.toDict).jsonForm.toValue = true :=
    survives_toDict sealed
  have hstored : (root.jsonForm.parent.filter fun p => ¬ target.contains p) = none := by
    rw [Option.filter_eq_none_iff]
    intro p hp
    simpa using hparent p hp
  rw [if_neg (by rw [hequal]; simp), hstored]
  exact map_ok_iff.mpr ⟨existing, htarget, rfl⟩

/-! ### There and back -/

/-- The subtree is imported, every node of it is reproduced, and it has the same seal. -/
structure RoundTrips {σ : Type} (H : Hashing) (digest : Codes → String)
    (sealDigest : Value → String) (spelled : Codes → Option Obj) (store : Backend σ)
    (nodes : Nodes) (rootId : String) (text : Obj) (s : σ) : Prop where
  imported : ∃ report, (importSubtree H digest sealDigest spelled store text.loads s).2 = .ok report
  reproduced : ∀ subtree, walk nodes rootId = .ok subtree → ∀ node ∈ subtree, ∃ found,
    (store.nodes (importSubtree H digest sealDigest spelled store text.loads s).1).get? node.id =
      some found ∧ Reproduces node found
  sealed : sealSubtree H digest sealDigest
      (store.nodes (importSubtree H digest sealDigest spelled store text.loads s).1) rootId =
    sealSubtree H digest sealDigest nodes rootId

/-- Accepted nodes are written to a state of a store. -/
def Writes {σ : Type} (store : Backend σ) (s : σ) (nodes : List ObjectNode) : Prop :=
  (∃ imported, (writeAll store s nodes).2 = .ok imported) ∧
    store.nodes (writeAll store s nodes).1 = added (store.nodes s) nodes

theorem wellFormed_added {target : Nodes} {nodes : List ObjectNode}
    (htarget : WellFormed H digest target) (h : Accepted H digest target nodes) :
    WellFormed H digest (added target nodes) := by
  induction nodes generalizing target with
  | nil => exact htarget
  | cons node nodes ih =>
      rw [added, List.foldl_cons]
      cases hnew : target.contains node.id with
      | true =>
          rw [if_pos rfl]
          refine ih htarget (h.tail ?_)
          rintro id (hid | rfl)
          · exact hid
          · exact hnew
      | false =>
          have hget : target.get? node.id = none := by
            rwa [Dict.contains, Option.isSome_eq_false_iff, Option.isNone_iff_eq_none] at hnew
          rw [if_neg (by simp)]
          exact ih (htarget.set_new (h.built node List.mem_cons_self)
            (h.valid node List.mem_cons_self) h.linked.1 hget)
            (h.tail fun id hid => contains_set.mpr hid)

theorem validateNode_of_valid {node : ObjectNode} (h : node.validateForPut H digest = .ok ()) :
    validateNode H digest node = .ok () := by
  rw [ObjectNode.validateForPut] at h
  split at h
  · cases h
  · next hid =>
      obtain ⟨⟨⟩, hcheck, -⟩ := bind_ok_iff.mp h
      rw [validateNode, if_neg hid]
      rw [ObjectNode.checkResult] at hcheck
      cases hresult : node.result with
      | none => rfl
      | some result =>
          cases hstored : node.resultDigest with
          | none =>
              rw [hresult, hstored] at hcheck
              cases hcheck
          | some stored =>
              rw [hresult, hstored] at hcheck
              obtain ⟨expected, hexpected, hsame⟩ := bind_ok_iff.mp hcheck
              split at hsame
              · next heq =>
                  refine bind_ok_iff.mpr ⟨expected, hexpected, ?_⟩
                  rw [heq, if_neg (by simp)]
              · cases hsame

/-- A reproduced node is at the same place. -/
theorem Reproduces.place {node found : ObjectNode} (h : Reproduces node found)
    (hnode : node.Built) (hfound : found.Built) :
    found.kind = node.kind ∧ found.parent = node.parent := by
  have hkind : found.kind = node.kind := congrArg Identity.kind h.identity
  have hparent : found.parent.getD "" = node.parent.getD "" := congrArg Identity.parent h.identity
  have hroot : ∀ n : ObjectNode, n.Built → (n.kind = .root ↔ n.parent = none) := by
    intro n hn
    obtain ⟨⟨⟩, hfields, -⟩ := bind_ok_iff.mp hn.checked
    exact (Node.checkFields_ok_iff.mp hfields).2.2.1
  refine ⟨hkind, ?_⟩
  have hiff : found.parent = none ↔ node.parent = none := by
    rw [← hroot found hfound, ← hroot node hnode, hkind]
  cases hf : found.parent with
  | none => exact (hiff.mp hf).symm
  | some p =>
      cases hn : node.parent with
      | none => exact absurd (hiff.mpr hn) (by rw [hf]; exact nofun)
      | some q =>
          rw [hf, hn] at hparent
          exact congrArg some hparent

/-- A seal tells what it covers. -/
theorem covered_of_sealNodes {rootId : String} {as bs : List Seal.Covered}
    (h : Seal.sealNodes sealDigest rootId as = Seal.sealNodes sealDigest rootId bs) : as = bs := by
  have hentries := congrArg (fun report => report.entries.map Seal.SealEntry.covered) h
  rwa [Seal.sealNodes, Seal.sealNodes, Seal.covered_sealFrom, Seal.covered_sealFrom] at hentries

/-- In a store with the subtree reproduced and nothing else below it, the subtree has the same
seal. -/
theorem seal_reproduced {nodes after : Nodes} (h : WellFormed H digest nodes)
    (hafter : WellFormed H digest after) {rootId : String} {subtree : List ObjectNode}
    (hwalk : walk nodes rootId = .ok subtree)
    (hfound : ∀ node ∈ subtree, ∃ found, after.get? node.id = some found ∧ Reproduces node found)
    (hclosed : ∀ id node parent, after.get? id = some node → node.parent = some parent →
      parent ∈ walkIds nodes rootId → id ∈ walkIds nodes rootId) :
    sealSubtree H digest sealDigest after rootId =
      .ok (Seal.sealNodes sealDigest rootId (subtree.map covered)) := by
  obtain ⟨hall, hroot, hids⟩ := walk_ok h hwalk
  have hstored : ∀ node ∈ subtree, nodes.get? node.id = some node := by
    intro node hnode
    obtain ⟨id, -, hget⟩ := exists_left_of_forall₂ hall hnode
    rwa [h.named hget]
  have hsame : walkIds after rootId = walkIds nodes rootId := by
    refine h.walkIds_eq hroot (fun id hid => ?_) hclosed
    rw [← hids] at hid
    obtain ⟨node, hnode, rfl⟩ := List.mem_map.mp hid
    obtain ⟨found, hget, hreproduces⟩ := hfound node hnode
    have hplace := hreproduces.place (h.built (hstored node hnode)) (hafter.built hget)
    exact ⟨node, found, hstored node hnode, hget, hplace⟩
  obtain ⟨founds, hfounds, hrel⟩ := mapM_ok (f := ObjectStore.get after)
    (R := fun id found => after.get? id = some found) (l := walkIds nodes rootId) (by
      intro id hid
      rw [← hids] at hid
      obtain ⟨node, hnode, rfl⟩ := List.mem_map.mp hid
      obtain ⟨found, hget, -⟩ := hfound node hnode
      exact ⟨found, by rw [ObjectStore.get, hget], hget⟩)
  refine sealSubtree_ok_iff.mpr ⟨founds, by rw [walk, hsame, hfounds], fun found hmem => ?_, ?_⟩
  · obtain ⟨id, -, hget⟩ := exists_left_of_forall₂ hrel hmem
    exact validateNode_of_valid (hafter.valid hget)
  · refine congrArg (Seal.sealNodes sealDigest rootId) ?_
    rw [← hids] at hrel
    clear hfounds hids hwalk hall
    induction subtree generalizing founds with
    | nil =>
        cases hrel
        rfl
    | cons node subtree ih =>
        rw [List.map_cons] at hrel
        cases hrel with
        | @cons _ found _ founds hget hrest =>
            rw [List.forall_mem_cons] at hfound hstored
            obtain ⟨other, hother, hreproduces⟩ := hfound.1
            obtain rfl := Option.some.inj (hget.symm.trans hother)
            have hplace := hreproduces.place (h.built hstored.1) (hafter.built hget)
            rw [List.map_cons, List.map_cons, ih hfound.2 hstored.2 founds hrest, covered, covered,
              hplace.1, hplace.2, hreproduces.resultDigest, hafter.named hget]

/-- The target holds the parent of the subtree, if it has one. -/
def HoldsParent (nodes : Nodes) (rootId : String) (target : Nodes) : Prop :=
  ∀ root, nodes.get? rootId = some root → ∀ p ∈ root.parent, target.contains p = true

theorem parsed_of_checked {document : Obj} {target : Nodes} {report : Seal.SealReport}
    {accepted : List ObjectNode} {existing : ℕ} {root : ObjectNode} {rest : List ObjectNode}
    {expected : Obj}
    (h : checked H digest sealDigest spelled document target = .ok (report, accepted, existing))
    (hparse : parseManifest digest spelled document = .ok (root, rest, expected)) :
    accepted = root :: rest := by
  obtain ⟨⟨root', rest', expected'⟩, hparse', hrest⟩ := bind_ok_iff.mp h
  cases hparse'.symm.trans hparse
  obtain ⟨staged, -, hsealed⟩ := bind_ok_iff.mp hrest
  obtain ⟨actual, -, hcompare⟩ := bind_ok_iff.mp hsealed
  split at hcompare
  · cases hcompare
  · split at hcompare
    · cases hcompare
    · obtain ⟨count, -, heq⟩ := map_ok_iff.mp hcompare
      cases heq
      rfl

/-- An exported subtree comes back in a store that writes what it accepted exactly if what the
store holds already fits. -/
theorem roundTrips_iff {σ : Type} {store : Backend σ} {s : σ} {nodes : Nodes}
    (h : WellFormed H digest nodes) (hs : WellFormed H digest (store.nodes s)) {rootId : String}
    {text : Obj} {report : ExportReport} {subtree : List ObjectNode} {records : List Obj}
    {sealed : Seal.SealReport}
    (hexported : Exported H digest sealDigest nodes rootId text
      report subtree records sealed)
    (hreads : ∀ node ∈ subtree, ReadsBack spelled node)
    (hparent : HoldsParent nodes rootId (store.nodes s))
    (hwrites : Accepted H digest (store.nodes s) (subtree.map ObjectNode.jsonForm) →
      Writes store s (subtree.map ObjectNode.jsonForm)) :
    RoundTrips H digest sealDigest spelled store nodes rootId text s ↔
      Fits (store.nodes s) subtree := by
  obtain ⟨hall, hroot, hids⟩ := walk_ok h hexported.walked
  have hnodup : (subtree.map ObjectNode.id).Nodup := hids ▸ h.nodup_walkIds hroot
  have hstored : ∀ node ∈ subtree, nodes.get? node.id = some node := by
    intro node hnode
    obtain ⟨id, -, hget⟩ := exists_left_of_forall₂ hall hnode
    rwa [h.named hget]
  have hseal : sealSubtree H digest sealDigest nodes rootId = .ok sealed :=
    sealSubtree_ok_iff.mpr ⟨subtree, hexported.walked, hexported.valid, hexported.rolled⟩
  obtain ⟨root, rest, rfl⟩ : ∃ root rest, subtree = root :: rest := by
    cases subtree with
    | nil =>
        rw [walkIds, Forest.walk] at hids
        cases hids
    | cons root rest => exact ⟨root, rest, rfl⟩
  obtain rfl : root.id = rootId := by
    rw [walkIds, Forest.walk, List.map_cons] at hids
    exact (List.cons.inj hids).1
  have hparse := parseManifest_exported h hexported hreads
  constructor
  · rintro ⟨⟨imported, himported⟩, hreproduced, hsealed⟩
    rw [importSubtree] at himported hreproduced hsealed
    cases hchecked : checked H digest sealDigest spelled text.loads (store.nodes s) with
    | error e =>
        rw [hchecked] at himported
        cases himported
    | ok accepted =>
        obtain ⟨actual, accepted, existing⟩ := accepted
        obtain rfl := parsed_of_checked hchecked hparse
        have haccepted := accepted_of_checked hchecked
        have hafter := (hwrites haccepted).2
        simp only [hchecked] at hreproduced hsealed
        change store.nodes (writeAll store s ((root :: rest).map ObjectNode.jsonForm)).1 = _
          at hafter
        rw [List.map_cons] at hafter
        rw [hafter] at hreproduced hsealed
        have hwell := wellFormed_added hs haccepted
        refine ⟨fun node hnode found hfound => ?_, fun id node parent hget hat hmem => ?_⟩
        · obtain ⟨other, hother, hreproduces⟩ :=
            hreproduced _ hexported.walked node hnode
          have hget := @get?_added_jsonForm (store.nodes s) _ hnodup _ hnode
          rw [List.map_cons, hother, hfound, Option.getD_some, Option.some.injEq] at hget
          exact hget ▸ hreproduces
        · rw [hseal] at hsealed
          obtain ⟨founds, hwalk, -, hrolled⟩ := sealSubtree_ok_iff.mp hsealed
          have hcovered := covered_of_sealNodes (hrolled.trans hexported.rolled.symm)
          obtain ⟨-, hrootAfter, hidsAfter⟩ := walk_ok hwell hwalk
          have hsameIds : founds.map ObjectNode.id = (root :: rest).map ObjectNode.id := by
            have hmap := congrArg (List.map Seal.Covered.nodeId) hcovered
            rw [List.map_map, List.map_map] at hmap
            exact hmap
          rw [← hsameIds, hidsAfter] at hmem ⊢
          refine hwell.mem_walkIds_of_child hrootAfter hmem (mem_children_iff.mpr ⟨node, ?_, hat⟩)
          have hjson : (((root :: rest).map ObjectNode.jsonForm).map ObjectNode.id).Nodup := by
            rw [map_id_jsonForm]
            exact hnodup
          rw [List.map_cons] at hjson
          rw [get?_added hjson, hget, Option.some_or]
  · intro hfits
    obtain ⟨existing, hchecked⟩ := checked_of_exported h hexported hreads
      (hparent root (hstored root List.mem_cons_self)) hfits.same
    have haccepted := accepted_of_checked hchecked
    obtain ⟨⟨imported, himported⟩, hafter⟩ := hwrites haccepted
    have hwell := wellFormed_added hs haccepted
    have hfound : ∀ node ∈ root :: rest, ∃ found,
        (added (store.nodes s) ((root :: rest).map ObjectNode.jsonForm)).get? node.id =
          some found ∧ Reproduces node found := by
      intro node hnode
      refine ⟨_, get?_added_jsonForm hnodup hnode, ?_⟩
      cases hget : (store.nodes s).get? node.id with
      | none => exact reproduces_jsonForm node
      | some found => exact hfits.same node hnode found hget
    have hresult : importSubtree H digest sealDigest spelled store text.loads s =
        ((writeAll store s ((root :: rest).map ObjectNode.jsonForm)).1,
          .ok ⟨sealed.rootId, sealed.digest, imported, existing⟩) := by
      simp only [importSubtree, hchecked, himported]
      rfl
    refine ⟨⟨_, by rw [hresult]⟩, fun other hother node hnode => ?_, ?_⟩
    · obtain rfl := Except.ok.inj (hexported.walked.symm.trans hother)
      rw [hresult, hafter]
      exact hfound node hnode
    · rw [hresult, hafter, hseal, ← hexported.rolled]
      refine seal_reproduced h hwell hexported.walked hfound fun id node parent hget hat hmem => ?_
      have hjson : (((root :: rest).map ObjectNode.jsonForm).map ObjectNode.id).Nodup := by
        rw [map_id_jsonForm]
        exact hnodup
      rw [get?_added hjson, Option.or_eq_some_iff] at hget
      rw [← hids] at hmem ⊢
      rcases hget with hold | ⟨-, hnew⟩
      · exact hfits.closed id node parent hold hat hmem
      · have hid : node.id = id := by simpa using List.find?_some hnew
        rw [← map_id_jsonForm, ← hid]
        exact List.mem_map_of_mem (List.mem_of_find?_eq_some hnew)

theorem writes_memory {target : Nodes} {nodes : List ObjectNode}
    (h : Accepted H digest target nodes) : Writes (memory H digest) target nodes := by
  obtain ⟨imported, hwritten⟩ := writeAll_memory h
  exact ⟨⟨imported, by rw [hwritten]⟩, by rw [hwritten]; rfl⟩

theorem writes_hashRope {s : HashRope.State} {nodes : List ObjectNode}
    (h : Accepted H digest s.nodes nodes) (hwritable : Writable s nodes) :
    Writes (hashRope H digest) s nodes := by
  obtain ⟨log, imported, hwritten⟩ := writeAll_hashRope h hwritable
  exact ⟨⟨imported, by rw [hwritten]⟩, by rw [hwritten]; rfl⟩

/-- What a file with a UTF-8 form was exported to can be logged. -/
theorem writable_exported {nodes : Nodes} {rootId : String} {text : Obj} {report : ExportReport}
    {subtree : List ObjectNode} {records : List Obj} {sealed : Seal.SealReport}
    (hexported : Exported H digest sealDigest nodes rootId text
      report subtree records sealed) (s : HashRope.State) :
    Writable s (subtree.map ObjectNode.jsonForm) := by
  intro other hother _
  obtain ⟨node, hnode, rfl⟩ := List.mem_map.mp hother
  obtain ⟨record, hmem, hrecord⟩ := exists_of_forall₂ hexported.recorded hnode
  obtain ⟨payload, -, hrest⟩ := bind_ok_iff.mp hrecord
  obtain ⟨metadata, hmeta, rfl⟩ := map_ok_iff.mp hrest
  obtain ⟨hdumpable, rfl⟩ := Obj.dumps_ok hmeta
  have hutf8 := hexported.utf8
  rw [hexported.written, object, Obj.utf8_dumped_dict] at hutf8
  have hnodes := (hutf8 (.str (codes "nodes"), .list records) (by simp [manifestEntries])).2
  rw [Obj.dumped, Obj.utf8, Obj.utf8Items_iff, Obj.dumpedItems_eq_map, List.forall_mem_map]
    at hnodes
  have hfields := hnodes _ hmem
  rw [object, Obj.utf8_dumped_dict, List.forall_mem_map] at hfields
  have hmetaUtf8 : Codes.utf8 (Obj.dict node.metadata.entries).dumped.write = true :=
    (hfields ("meta", .str (Obj.dict node.metadata.entries).dumped.write) (by simp)).2
  have hresultUtf8 : (node.result.elim Obj.none fun result => .str result.text).dumped.utf8 =
      true :=
    (hfields ("result", node.result.elim .none fun result => .str result.text) (by simp)).2
  have hform := Obj.utf8_jsonForm _ (Obj.utf8_of_write _ hmetaUtf8)
  rw [Obj.jsonForm_dict] at hform
  have hagain : (Obj.dict node.metadata.entries).jsonForm.dumpable true = true :=
    Obj.dumpable_jsonForm _ hdumpable
  rw [Obj.jsonForm_dict] at hagain
  refine isOk_iff.mpr ⟨_, HashRope.putLine_ok_iff.mpr ⟨_, map_ok_iff.mpr ⟨_, if_pos hagain, rfl⟩,
    ?_, rfl⟩⟩
  rw [NodeRecord.utf8, Bool.and_eq_true]
  refine ⟨hform, ?_⟩
  cases hresult : node.result with
  | none => simp [ObjectNode.jsonForm, hresult]
  | some result =>
      rw [hresult] at hresultUtf8
      simpa [ObjectNode.jsonForm, hresult, ResultText.jsonForm, ResultText.dumped,
        ResultText.loads, Obj.dumped, Obj.utf8] using hresultUtf8

end RoundTrip

/-! ### A subtree of one node -/

/-- The texts of the record of `sampleRoot`, and one with a lone surrogate. -/
def sampleSpelled (text : Codes) : Option Obj :=
  if text = codes "\x7b\"run\":\"hashrope\"\x7d" then
    some (.dict [(.str (codes "run"), .str (codes "hashrope"))])
  else if text = codes "\x7b\x7d" then some (.dict [])
  else if text = codes "\x7b\"k\":\"\\ud800\"\x7d" then
    some (.dict [(.str (codes "k"), .str [0xD800])])
  else none

def sampleNodes : Nodes := (∅ : Nodes).set HashRope.sampleRoot.id HashRope.sampleRoot

theorem wellFormed_sampleNodes : WellFormed Hashing.plain (fun _ => "digest") sampleNodes :=
  wellFormed_empty.set_new HashRope.built_sampleRoot (by decide +kernel) nofun rfl

theorem readsBack_sampleRoot : ReadsBack sampleSpelled HashRope.sampleRoot :=
  ⟨by decide +kernel, nofun, by decide +kernel⟩

/-- The manifest of the root with metadata that has a lone surrogate. -/
def surrogateDocument : Obj :=
  object [("format", exportFormat), ("root_id", .str (codes HashRope.sampleRoot.id)),
    ("seal", .ofValue (Seal.sealNodes (fun _ => "seal") HashRope.sampleRoot.id
      [covered HashRope.sampleRoot]).toDict),
    ("nodes", .list [object [("id", .str (codes HashRope.sampleRoot.id)), ("parent", .none),
      ("kind", .str (codes "root")), ("attempt", .int 0),
      ("payload", .str (codes "\x7b\"run\":\"hashrope\"\x7d")), ("result", .none),
      ("result_digest", .none), ("meta", .str (codes "\x7b\"k\":\"\\ud800\"\x7d"))]])]

end Governance

end Pollard
