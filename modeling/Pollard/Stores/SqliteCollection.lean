import Pollard.Stores.SqliteNodes
import Pollard.Lib.Machine

/-!
# Runs of the SQLite store

Whatever is put, patched, dropped and compacted, a row that is there reads back as the payload
it was put with.
-/

namespace Pollard.Stores.SqliteNodes

open Lib Lib.Fallible Interning

/-- A node as its constructor leaves it. -/
structure NodeObject where
  node : Node
  checked : Node.checkFields node.kind node.parent node.payload node.attempt node.result
    node.metadata = .ok ()
  object : node.payload.isDict = true
  distinct : distinctKeys node.payload

inductive Op where
  | put (settings : Settings) (object : NodeObject)
  | updateMeta (id : String) (patch : Dict String Value)
  | gc (mode : GCMode)

/-- The tables, and the payload of the last node put under each id. -/
structure World where
  tables : Tables
  putWith : Dict String Value

def World.empty : World := ⟨.empty, ∅⟩

section Runs

variable (H : Hashing) (sha256 : String → String) (sealDigest : Value → String)
  (str : Value → String)

/-- An operation that raises is rolled back. -/
def step (w : World) : Op → World
  | .put settings object =>
      match w.tables.put H sha256 settings object.node with
      | .ok tables => ⟨tables, w.putWith.set object.node.id object.node.payload⟩
      | .error _ => w
  | .updateMeta id patch =>
      match w.tables.updateMeta id patch with
      | .ok tables => { w with tables }
      | .error _ => w
  | .gc mode => { w with tables := (w.tables.gc H sealDigest str mode).1 }

/-- The digests of the strings an operation interns do not collide. -/
def Op.CollisionFree : Op → Prop
  | .put settings object => Interning.CollisionFree sha256 settings object.node.payload
  | _ => True

end Runs

/-! ## Sound tables -/

section Sound

variable {H : Hashing} {sha256 : String → String} {sealDigest : Value → String}
  {str : Value → String} {t : Tables} {putWith : Dict String Value}

/-- A row reads back as a payload. -/
structure RowSound (H : Hashing) (t : Tables) (row : Node) (payload : Value) : Prop where
  named : row.id = H.nodeId row.kind row.parent row.attempt payload
  rehydrated : rehydrate (t.literalPaths row.id) t.blobValue row.payload [] =
    .ok payload.canonical
  checked : Node.checkFields row.kind row.parent payload.canonical row.attempt row.result
    row.metadata = .ok ()
  object : payload.isDict = true

structure Sound (H : Hashing) (t : Tables) (putWith : Dict String Value) : Prop where
  grounded : Forest.Grounded t.edges
  literals : ∀ e ∈ t.literals, t.contains e.1 = true
  rows : ∀ row ∈ t.rows, ∃ payload, putWith.get? row.id = some payload ∧ RowSound H t row payload

theorem RowSound.load {row : Node} {payload : Value} (h : RowSound H t row payload) :
    t.load row = .ok { row with payload := payload.canonical } := by
  have hidentity := (Node.checkFields_ok_iff.mp h.checked).2.1
  rw [Tables.load, h.rehydrated]
  simp only [Except.bind]
  rw [Value.canonicalBytes_ok hidentity, Value.canonical_canonical]
  simp only [Node.fromStorage, Value.isDict_canonical, h.object, NodeKind.ofValue?_value, h.checked]
  rfl

theorem find?_of_mem (hgrounded : Forest.Grounded t.edges) {row : Node} (h : row ∈ t.rows) :
    t.find? row.id = some row := @MemoryStore.find?_of_mem ⟨t.rows, hgrounded⟩ row h

theorem mem_of_find? {id : String} {row : Node} (h : t.find? id = some row) :
    row ∈ t.rows ∧ row.id = id :=
  ⟨List.mem_of_find?_eq_some h, by simpa using List.find?_some h⟩

theorem mem_keys_iff {id : String} : id ∈ Forest.keys t.edges ↔ t.contains id = true := by
  simp [Forest.keys, Tables.edges, Tables.contains, Tables.find?, Node.edge]

theorem sound_empty : Sound H .empty ∅ where
  grounded := trivial
  literals := by simp [Tables.empty]
  rows := by simp [Tables.empty]

/-! ### Metadata -/

theorem edges_setMeta (id : String) (metadata : Dict String Value) :
    (t.setMeta id metadata).edges = t.edges := MemoryStore.map_edge_replace t.rows id metadata

theorem contains_setMeta (id : String) (metadata : Dict String Value) (other : String) :
    (t.setMeta id metadata).contains other = t.contains other := by
  rw [Bool.eq_iff_iff, ← mem_keys_iff, ← mem_keys_iff, edges_setMeta]

theorem sound_setMeta (h : Sound H t putWith) {id : String} {metadata : Dict String Value}
    (hjson : ∀ value ∈ metadata.values, value.isJson = true) :
    Sound H (t.setMeta id metadata) putWith where
  grounded := by
    rw [edges_setMeta]
    exact h.grounded
  literals := fun e he => by
    rw [contains_setMeta]
    exact h.literals e he
  rows := by
    intro row hrow
    obtain ⟨old, hold, rfl⟩ := List.mem_map.mp hrow
    obtain ⟨payload, hput, hsound⟩ := h.rows old hold
    split
    · refine ⟨payload, hput, hsound.named, hsound.rehydrated, ?_, hsound.object⟩
      obtain ⟨hresult, hidentity, hroot, hattempt, -⟩ :=
        Node.checkFields_ok_iff.mp hsound.checked
      exact Node.checkFields_ok_iff.mpr ⟨hresult, hidentity, hroot, hattempt, hjson⟩
    · exact ⟨payload, hput, hsound.named, hsound.rehydrated, hsound.checked, hsound.object⟩

theorem isJson_jsonText {metadata : Dict String Value}
    (h : ∀ value ∈ metadata.values, value.isJson = true) :
    ∀ value ∈ (jsonText metadata).values, value.isJson = true := by
  intro value hvalue
  obtain ⟨key, hkey⟩ := Dict.exists_get?_of_mem_values hvalue
  rw [jsonText, Dict.get?_sorted, Dict.get?_map] at hkey
  obtain ⟨old, hold, rfl⟩ := Option.map_eq_some_iff.mp hkey
  rw [Value.isJson_canonical]
  exact h old (Dict.mem_values_of_get? hold)

theorem sound_updateMeta (h : Sound H t putWith) {id : String} {patch : Dict String Value}
    {after : Tables} (hupdate : t.updateMeta id patch = .ok after) : Sound H after putWith := by
  unfold Tables.updateMeta at hupdate
  split at hupdate
  · cases hupdate
  · next row hrow =>
      dsimp only at hupdate
      split at hupdate
      · cases hupdate
      · next hjson =>
          cases hupdate
          exact sound_setMeta h (isJson_jsonText (by simpa using hjson))

/-! ### Puts -/

/-- A row reads the same from tables that have its literals and blobs. -/
theorem RowSound.congr {after : Tables} {row : Node} {payload : Value}
    (h : RowSound H t row payload)
    (hliterals : after.literalPaths row.id = t.literalPaths row.id)
    (hblobs : ∀ digest ∈ referencedBlobs (t.literalPaths row.id) row.payload [], ∀ text,
      t.blobs.get? digest = some text → after.blobs.get? digest = some text) :
    RowSound H after row payload where
  named := h.named
  rehydrated := by
    obtain ⟨hfound, hsame⟩ := rehydrate_determined row.payload [] _ h.rehydrated
    rw [hliterals]
    refine hsame after.blobValue fun digest hdigest => ?_
    obtain ⟨text, htext⟩ := hfound digest hdigest
    have hget : t.blobs.get? digest = some text := by
      unfold Tables.blobValue at htext
      split at htext
      · next stored hstored => rw [hstored, Except.ok.inj htext]
      · cases htext
    rw [htext, Tables.blobValue, hblobs digest hdigest text hget]
  checked := h.checked
  object := h.object

/-- Inserting blobs keeps the ones there are. -/
theorem insertBlobs_ok {entries : List (String × String)} {blobs after : Dict String String}
    (h : Tables.insertBlobs blobs entries = .ok after) :
    (∀ digest text, blobs.get? digest = some text → after.get? digest = some text) ∧
      ∀ e ∈ entries, after.get? e.1 = some e.2 := by
  induction entries generalizing blobs with
  | nil =>
      cases h
      exact ⟨fun _ _ h => h, by simp⟩
  | cons e entries ih =>
      obtain ⟨digest, value⟩ := e
      rw [Tables.insertBlobs] at h
      split at h
      · next stored hstored =>
          split at h
          · cases h
          · next hsame =>
              obtain ⟨hkeep, hnew⟩ := ih h
              rw [not_not.mp hsame] at hstored
              exact ⟨hkeep, List.forall_mem_cons.mpr ⟨hkeep _ _ hstored, hnew⟩⟩
      · next hfresh =>
          obtain ⟨hkeep, hnew⟩ := ih h
          refine ⟨fun d text hd => hkeep d text ?_, List.forall_mem_cons.mpr ⟨?_, hnew⟩⟩
          · rw [Dict.get?_set_of_ne _ _ (fun heq => by rw [← heq, hfresh] at hd; cases hd)]
            exact hd
          · exact hkeep _ _ (by rw [Dict.get?_set, if_pos rfl])

theorem literalPaths_insert_of_ne {after : List (String × Path)} {id other : String}
    {paths : List Path} (hafter : after = t.literals ++ paths.map fun path => (id, path))
    (hne : other ≠ id) :
    (after.filter fun e => e.1 = other).map Prod.snd = t.literalPaths other := by
  have hnone : (paths.map fun path => (id, path)).filter (fun e => e.1 = other) = [] := by
    rw [List.filter_eq_nil_iff]
    intro e he
    obtain ⟨path, -, rfl⟩ := List.mem_map.mp he
    simpa using hne.symm
  rw [hafter, List.filter_append, hnone, List.append_nil, Tables.literalPaths]

theorem literalPaths_insert_self {after : List (String × Path)} {id : String}
    {paths : List Path} (hafter : after = t.literals ++ paths.map fun path => (id, path))
    (hfresh : ∀ e ∈ t.literals, e.1 ≠ id) :
    (after.filter fun e => e.1 = id).map Prod.snd = paths := by
  have hold : t.literals.filter (fun e => e.1 = id) = [] := by
    rw [List.filter_eq_nil_iff]
    exact fun e he => by simpa using hfresh e he
  have hnew : (paths.map fun path => (id, path)).filter (fun e => e.1 = id) =
      paths.map fun path => (id, path) := by
    rw [List.filter_eq_self]
    intro e he
    obtain ⟨path, -, rfl⟩ := List.mem_map.mp he
    simp
  rw [hafter, List.filter_append, hold, hnew, List.nil_append, List.map_map]
  exact List.map_id paths

theorem sound_insert (hhex : ∀ text, isDigest (sha256 text) = true) (h : Sound H t putWith)
    {settings : Settings} {object : NodeObject} {after : Tables}
    (hfree : Interning.CollisionFree sha256 settings object.node.payload)
    (hnamed : object.node.id = object.node.expectedId H)
    (hparent : ∀ p ∈ object.node.parent, t.contains p = true)
    (hfind : t.find? object.node.id = none)
    (hinsert : t.insert sha256 settings object.node = .ok after) :
    Sound H after (putWith.set object.node.id object.node.payload) := by
  obtain ⟨node, hchecked, hobject, hdistinct⟩ := object
  obtain ⟨blobs, hblobs, rfl⟩ := map_ok_iff.mp hinsert
  obtain ⟨hkeep, hnew⟩ := insertBlobs_ok hblobs
  have hfresh : t.contains node.id = false := by rw [Tables.contains, hfind, Option.isSome_none]
  have hne : ∀ other, t.contains other = true → other ≠ node.id := by
    rintro other hother rfl
    rw [hfresh] at hother
    cases hother
  refine ⟨⟨?_, ?_, h.grounded⟩, ?_, ?_⟩
  · exact fun hmem => hne _ (mem_keys_iff.mp hmem) rfl
  · exact fun p hp => mem_keys_iff.mpr (hparent p hp)
  · intro e he
    rcases List.mem_append.mp he with he | he
    · rw [← mem_keys_iff]
      exact List.mem_cons_of_mem _ (mem_keys_iff.mpr (h.literals e he))
    · obtain ⟨path, -, rfl⟩ := List.mem_map.mp he
      rw [← mem_keys_iff]
      exact List.mem_cons_self
  · intro row hrow
    rcases List.mem_cons.mp hrow with rfl | hrow
    · refine ⟨node.payload, by rw [Dict.get?_set, if_pos rfl], hnamed, ?_, ?_, hobject⟩
      · refine rehydrate_canonical _ _ _ ?_
        rw [Tables.literalPaths, literalPaths_insert_self rfl fun e he => hne _ (h.literals e he)]
        refine rehydrate_internPayload hhex hdistinct fun e he => ?_
        have hentry := Dict.mem_entries_iff.mpr (get?_internPayload hfree he)
        rw [Tables.blobValue, hnew e hentry]
      · obtain ⟨hresult, hidentity, hroot, hattempt, hjson⟩ := Node.checkFields_ok_iff.mp hchecked
        refine Node.checkFields_ok_iff.mpr ⟨?_, ?_, hroot, hattempt, isJson_jsonText hjson⟩
        · intro value hvalue
          obtain ⟨result, hres, rfl⟩ := Option.mem_map.mp hvalue
          rw [Value.isJson_canonical]
          exact hresult result hres
        · rw [Value.isIdentity_canonical]
          exact hidentity
    · obtain ⟨payload, hput, hsound⟩ := h.rows row hrow
      have hother : row.id ≠ node.id :=
        hne _ (mem_keys_iff.mp (List.mem_map_of_mem (List.mem_map_of_mem hrow)))
      refine ⟨payload, by rw [Dict.get?_set_of_ne _ _ hother.symm]; exact hput, ?_⟩
      exact hsound.congr (literalPaths_insert_of_ne rfl hother)
        fun digest _ text htext => hkeep digest text htext

/-- A node that is there is put again with the same payload. -/
theorem sound_again (h : Sound H t putWith) {row : Node} (hrow : row ∈ t.rows)
    {payload old : Value} (hold : RowSound H t row old)
    (hsame : payload.canonical = old.canonical) :
    Sound H t (putWith.set row.id payload) := by
  refine ⟨h.grounded, h.literals, fun other hother => ?_⟩
  by_cases hid : other.id = row.id
  · have heq : other = row := by
      have hfind := find?_of_mem h.grounded hother
      rw [hid, find?_of_mem h.grounded hrow] at hfind
      exact (Option.some.inj hfind).symm
    subst heq
    refine ⟨payload, by rw [Dict.get?_set, if_pos rfl], ?_, ?_, ?_, ?_⟩
    · rw [hold.named, Hashing.nodeId, Hashing.nodeId, hsame]
    · rw [hsame]
      exact hold.rehydrated
    · rw [hsame]
      exact hold.checked
    · rw [← Value.isDict_canonical, hsame, Value.isDict_canonical]
      exact hold.object
  · obtain ⟨p, hput, hsound⟩ := h.rows other hother
    exact ⟨p, by rw [Dict.get?_set_of_ne _ _ (Ne.symm hid)]; exact hput, hsound⟩

theorem isJson_resultConflicts {node : Node}
    (h : ∀ value ∈ node.metadata.values, value.isJson = true) {result : Value}
    (hresult : result.isJson = true) (digest : String) :
    (Value.list (MemoryStore.resultConflicts node ++
      [.dict [("result_digest", .str digest), ("result", result)]])).isJson = true := by
  have hlist : ∀ items : List Value,
      Value.isJsonItems items = true ↔ ∀ item ∈ items, item.isJson = true := by
    intro items
    induction items with
    | nil => simp [Value.isJsonItems]
    | cons item items ih => rw [Value.isJsonItems, Bool.and_eq_true, ih, List.forall_mem_cons]
  rw [Value.isJson, hlist, List.forall_mem_append]
  refine ⟨?_, by simp [Value.isJson, Value.isJsonEntries, hresult]⟩
  unfold MemoryStore.resultConflicts
  split
  · next conflicts hconflicts =>
      have hjson := h _ (Dict.mem_values_of_get? hconflicts)
      rwa [Value.isJson, hlist] at hjson
  · simp

theorem sound_handleExisting (h : Sound H t putWith) {row : Node} (hrow : row ∈ t.rows)
    {existing : Node} (hexisting : t.load row = .ok existing) {object : NodeObject}
    (hid : object.node.id = row.id) {after : Tables}
    (hafter : t.handleExisting H existing object.node = .ok after) :
    Sound H after (putWith.set object.node.id object.node.payload) := by
  obtain ⟨node, hchecked, _, _⟩ := object
  obtain ⟨old, hput, hold⟩ := h.rows row hrow
  obtain rfl := Except.ok.inj (hold.load.symm.trans hexisting)
  unfold Tables.handleExisting at hafter
  split at hafter
  · cases hafter
  · next hidentity =>
      have hsame : node.payload.canonical = old.canonical := by
        have hpayload := congrArg Identity.payload (not_not.mp hidentity)
        simpa [Node.identity, Value.canonical_canonical] using hpayload.symm
      have hagain := sound_again h hrow hold hsame
      rw [← hid] at hagain
      split at hafter
      · cases hafter
        exact hagain
      · next result hresult =>
          split at hafter
          · cases hafter
            exact hagain
          · cases hafter
            obtain ⟨hresults, -, -, -, -⟩ := Node.checkFields_ok_iff.mp hchecked
            obtain ⟨-, -, -, -, hmeta⟩ := Node.checkFields_ok_iff.mp hold.checked
            refine sound_setMeta hagain (isJson_jsonText ?_)
            exact Dict.forall_values_set hmeta
              (isJson_resultConflicts hmeta (hresults result hresult) _)

theorem validateForPut_ok {node : Node} {u : Unit} (h : validateForPut H node = .ok u) :
    node.id = node.expectedId H := by
  unfold validateForPut at h
  split at h
  · cases h
  · next hid => exact not_not.mp hid

theorem sound_put (hhex : ∀ text, isDigest (sha256 text) = true) (h : Sound H t putWith)
    {settings : Settings} {object : NodeObject} {after : Tables}
    (hfree : Interning.CollisionFree sha256 settings object.node.payload)
    (hput : t.put H sha256 settings object.node = .ok after) :
    Sound H after (putWith.set object.node.id object.node.payload) := by
  obtain ⟨u, hvalid, hput⟩ := bind_ok_iff.mp hput
  split at hput
  · next hparent =>
      split at hput
      · next row hrow =>
          obtain ⟨hmem, hid⟩ := mem_of_find? hrow
          obtain ⟨existing, hexisting, hput⟩ := bind_ok_iff.mp hput
          exact sound_handleExisting h hmem hexisting hid.symm hput
      · next hfind =>
          exact sound_insert hhex h hfree (validateForPut_ok hvalid) hparent hfind hput
  · cases hput

/-- A node that was put is there. -/
theorem contains_of_put {settings : Settings} {node : Node} {after : Tables}
    (h : t.put H sha256 settings node = .ok after) : after.contains node.id = true := by
  obtain ⟨u, -, h⟩ := bind_ok_iff.mp h
  split at h
  · split at h
    · next row hrow =>
        have hcontains : t.contains node.id = true := by rw [Tables.contains, hrow]; rfl
        obtain ⟨existing, -, h⟩ := bind_ok_iff.mp h
        unfold Tables.handleExisting at h
        split at h
        · cases h
        · split at h
          · cases h
            exact hcontains
          · split at h
            · cases h
              exact hcontains
            · cases h
              rw [contains_setMeta]
              exact hcontains
    · obtain ⟨blobs, -, rfl⟩ := map_ok_iff.mp h
      rw [← mem_keys_iff]
      exact List.mem_cons_self
  · cases h

/-! ### Reading -/

theorem children_perm (hgrounded : Forest.Grounded t.edges) (id : String) :
    (t.children id).Perm (Forest.childrenOf t.edges id) :=
  MemoryStore.children_perm ⟨t.rows, hgrounded⟩ id

/-- A walk visits what is at or below its root. -/
theorem mem_walkIds (hgrounded : Forest.Grounded t.edges) {rootId : String}
    (h : t.contains rootId = true) {id : String} :
    id ∈ t.walkIds rootId ↔ rootId ∈ Forest.chain t.edges id := by
  have hperm : (t.walkIds rootId).Perm (Forest.below t.edges rootId) :=
    Forest.walk_below hgrounded (children_perm hgrounded) (mem_keys_iff.mpr h)
      (by simp [Tables.edges])
  rw [hperm.mem_iff, Forest.below, List.mem_filter, decide_eq_true_iff]
  exact and_iff_right_of_imp Forest.mem_keys_of_chain

theorem contains_of_mem_walkIds (hgrounded : Forest.Grounded t.edges) {rootId : String}
    (h : t.contains rootId = true) {id : String} (hid : id ∈ t.walkIds rootId) :
    t.contains id = true :=
  mem_keys_iff.mp (Forest.mem_keys_of_chain ((mem_walkIds hgrounded h).mp hid))

theorem Sound.get (h : Sound H t putWith) {id : String} (hid : t.contains id = true) :
    ∃ row ∈ t.rows, row.id = id ∧ ∃ payload, putWith.get? id = some payload ∧
      RowSound H t row payload ∧ t.get id = .ok { row with payload := payload.canonical } := by
  obtain ⟨row, hrow⟩ := Option.isSome_iff_exists.mp hid
  obtain ⟨hmem, rfl⟩ := mem_of_find? hrow
  obtain ⟨payload, hput, hsound⟩ := h.rows row hmem
  refine ⟨row, hmem, rfl, payload, hput, hsound, ?_⟩
  rw [Tables.get, hrow]
  exact hsound.load

/-- The nodes a walk reads are rows, but for their payloads. -/
theorem Sound.walk (h : Sound H t putWith) {rootId : String} (hroot : t.contains rootId = true) :
    ∃ nodes, t.walk rootId = .ok nodes ∧ nodes.map Node.id = t.walkIds rootId ∧
      ∀ node ∈ nodes, ∃ row ∈ t.rows, node.id = row.id ∧ node.metadata = row.metadata := by
  obtain ⟨nodes, hnodes, hread⟩ := mapM_ok (f := t.get) (l := t.walkIds rootId)
    (R := fun id node => node.id = id ∧
      ∃ row ∈ t.rows, node.id = row.id ∧ node.metadata = row.metadata) (by
        intro id hid
        obtain ⟨row, hrow, hsame, payload, -, -, hget⟩ :=
          h.get (contains_of_mem_walkIds h.grounded hroot hid)
        exact ⟨_, hget, hsame, row, hrow, rfl, rfl⟩)
  refine ⟨nodes, hnodes, ?_, fun node hnode => ?_⟩
  · rw [← List.forall₂_eq_eq_eq, List.forall₂_map_left_iff]
    exact hread.flip.imp fun _ _ h => h.1
  · obtain ⟨id, -, -, hrow⟩ := exists_of_forall₂ hread.flip hnode
    exact hrow

theorem Sound.roots (h : Sound H t putWith) (str : Value → String) :
    ∃ ids, t.roots str = .ok ids ∧
      ids.Perm ((t.rows.filter fun row => row.parent = none).map Node.id) := by
  obtain ⟨pairs, hpairs, hids⟩ := mapM_ok
    (f := fun id => (t.get id).map fun node =>
      (str ((node.payload.get? "run").getD (.str "")), id))
    (R := fun id pair => pair.2 = id)
    (l := (t.rows.filter fun row => row.parent = none).map Node.id) (by
      intro id hid
      obtain ⟨row, hrow, rfl⟩ := List.mem_map.mp hid
      have hcontains : t.contains row.id = true := mem_keys_iff.mp
        (List.mem_map_of_mem (List.mem_map_of_mem (List.mem_filter.mp hrow).1))
      obtain ⟨_, -, -, payload, -, -, hget⟩ := h.get hcontains
      exact ⟨_, map_ok_iff.mpr ⟨_, hget, rfl⟩, rfl⟩)
  refine ⟨_, map_ok_iff.mpr ⟨pairs, hpairs, rfl⟩, ?_⟩
  have hsnd : pairs.map Prod.snd = (t.rows.filter fun row => row.parent = none).map Node.id := by
    rw [← List.forall₂_eq_eq_eq, List.forall₂_map_left_iff]
    exact hids.flip
  rw [← hsnd]
  exact (List.perm_insertionSort _ _).map _

theorem Sound.contains_root (h : Sound H t putWith) {ids : List String}
    (hids : t.roots str = .ok ids) {id : String} (hid : id ∈ ids) : t.contains id = true := by
  obtain ⟨ids', hids', hperm⟩ := h.roots str
  obtain rfl := Except.ok.inj (hids'.symm.trans hids)
  obtain ⟨row, hrow, rfl⟩ := List.mem_map.mp (hperm.mem_iff.mp hid)
  exact mem_keys_iff.mp (List.mem_map_of_mem (List.mem_map_of_mem (List.mem_filter.mp hrow).1))

/-- Every row lies below a root. -/
theorem Sound.exists_root (h : Sound H t putWith) {ids : List String}
    (hids : t.roots str = .ok ids) {id : String} (hid : t.contains id = true) :
    ∃ rootId ∈ ids, rootId ∈ Forest.chain t.edges id := by
  obtain ⟨ids', hids', hperm⟩ := h.roots str
  obtain rfl := Except.ok.inj (hids'.symm.trans hids)
  obtain ⟨root, hchain, hroot⟩ := Forest.exists_root h.grounded (mem_keys_iff.mpr hid)
  obtain ⟨row, hrow, heq⟩ := List.mem_map.mp hroot
  obtain ⟨rfl, hparent⟩ := Prod.mk.inj heq
  exact ⟨_, hperm.mem_iff.mpr (List.mem_map_of_mem
    (List.mem_filter.mpr ⟨hrow, by simpa using hparent⟩)), hchain⟩

theorem RowSound.expectedId {row : Node} {payload : Value} (h : RowSound H t row payload) :
    { row with payload := payload.canonical }.id =
      { row with payload := payload.canonical }.expectedId H := by
  rw [Node.expectedId, Hashing.nodeId, Value.canonical_canonical]
  exact h.named

theorem covered_ok {node : Node} (h : node.id = node.expectedId H) :
    Tables.covered H node =
      .ok ⟨node.id, node.parent, node.kind.value, node.resultText.map H.result⟩ :=
  if_neg (not_not.mpr h)

/-- The rows can be sealed. -/
theorem Sound.sealRoots (h : Sound H t putWith) (sealDigest : Value → String)
    (str : Value → String) : ∃ seals, t.sealRoots H sealDigest str = .ok seals := by
  obtain ⟨ids, hids, -⟩ := h.roots str
  have hseal : ∀ id ∈ ids, ∃ pair, (t.sealSubtree H sealDigest id).map
      (fun report => (id, report.digest)) = .ok pair ∧ True := by
    intro id hid
    obtain ⟨covers, hcovers, -⟩ := mapM_ok (f := fun id => (t.get id).bind (Tables.covered H))
      (R := fun _ _ => True) (l := t.walkIds id) (by
        intro other hother
        obtain ⟨row, -, -, payload, -, hsound, hget⟩ :=
          h.get (contains_of_mem_walkIds h.grounded (h.contains_root hids hid) hother)
        exact ⟨_, bind_ok_iff.mpr ⟨_, hget, covered_ok hsound.expectedId⟩, trivial⟩)
    exact ⟨_, map_ok_iff.mpr ⟨_, map_ok_iff.mpr ⟨covers, hcovers, rfl⟩, rfl⟩, trivial⟩
  obtain ⟨seals, hseals, -⟩ := mapM_ok hseal
  exact ⟨seals, bind_ok_iff.mpr ⟨ids, hids, hseals⟩⟩

/-! ### Dropping -/

/-- What a collection that has visited some nodes removes. -/
def Removed (t : Tables) (visited : String → Prop) (removed : List String) : Prop :=
  ∀ id, id ∈ removed ↔
    ∃ row ∈ t.rows, visited row.id ∧ Tables.pruned row ∧ row.id ∈ Forest.chain t.edges id

theorem Sound.removeFrom (h : Sound H t putWith) {nodes : List Node} {visited : String → Prop}
    {removed : List String} (hremoved : Removed t visited removed)
    (hnodes : ∀ node ∈ nodes, ∃ row ∈ t.rows, node.id = row.id ∧ node.metadata = row.metadata) :
    ∃ after, t.removeFrom removed nodes = .ok after ∧
      Removed t (fun id => visited id ∨ id ∈ nodes.map Node.id) after := by
  induction nodes generalizing visited removed with
  | nil => exact ⟨removed, rfl, by simpa using hremoved⟩
  | cons node nodes ih =>
      rw [List.forall_mem_cons] at hnodes
      obtain ⟨⟨row, hrow, hid, hmeta⟩, hnodes⟩ := hnodes
      have hself : ∀ other ∈ t.rows, other.id = node.id → other = row := by
        intro other hother hsame
        have hfind := find?_of_mem h.grounded hother
        rw [hsame, hid, find?_of_mem h.grounded hrow] at hfind
        exact (Option.some.inj hfind).symm
      have hpruned : Tables.pruned node = Tables.pruned row := by
        rw [Tables.pruned, hmeta, Tables.pruned]
      have hcontains : t.contains node.id = true :=
        hid ▸ mem_keys_iff.mp (List.mem_map_of_mem (List.mem_map_of_mem hrow))
      suffices hstep : ∀ next, Removed t (fun id => visited id ∨ id = node.id) next →
          ∃ after, t.removeFrom next nodes = .ok after ∧
            Removed t (fun id => visited id ∨ id ∈ (node :: nodes).map Node.id) after by
        rw [Tables.removeFrom]
        split
        · next hnew =>
            obtain ⟨below, hbelow, hids, -⟩ := h.walk hcontains
            rw [hbelow]
            refine hstep _ fun id => ?_
            rw [List.mem_append, hids, mem_walkIds h.grounded hcontains, hremoved id]
            constructor
            · rintro (⟨q, hq, hvisited, hqpruned, hchain⟩ | hchain)
              · exact ⟨q, hq, .inl hvisited, hqpruned, hchain⟩
              · exact ⟨row, hrow, .inr hid.symm, hpruned ▸ hnew.2, hid ▸ hchain⟩
            · rintro ⟨q, hq, hvisited | hsame, hqpruned, hchain⟩
              · exact .inl ⟨q, hq, hvisited, hqpruned, hchain⟩
              · exact .inr (hsame ▸ hchain)
        · next hskip =>
            refine hstep _ fun id => ?_
            rw [hremoved id]
            constructor
            · rintro ⟨q, hq, hvisited, hqpruned, hchain⟩
              exact ⟨q, hq, .inl hvisited, hqpruned, hchain⟩
            · rintro ⟨q, hq, hvisited | hsame, hqpruned, hchain⟩
              · exact ⟨q, hq, hvisited, hqpruned, hchain⟩
              · -- a pruned node is skipped only if it goes with an ancestor
                have hmem : node.id ∈ removed := by
                  by_contra hnot
                  refine hskip ⟨hnot, ?_⟩
                  rw [hpruned, ← hself q hq hsame]
                  exact hqpruned
                obtain ⟨p, hp, hvisited, hppruned, habove⟩ := (hremoved _).mp hmem
                exact ⟨p, hp, hvisited, hppruned,
                  Forest.chain_trans h.grounded habove (hsame ▸ hchain)⟩
      intro next hnext
      obtain ⟨after, hafter, hall⟩ := ih hnext hnodes
      refine ⟨after, hafter, fun id => (hall id).trans ?_⟩
      simp only [List.map_cons, List.mem_cons, or_assoc]

theorem Sound.removeFromRoots (h : Sound H t putWith) {ids : List String}
    {visited : String → Prop} {removed : List String} (hremoved : Removed t visited removed)
    (hids : ∀ id ∈ ids, t.contains id = true) :
    ∃ after, t.removeFromRoots removed ids = .ok after ∧
      Removed t (fun id => visited id ∨ ∃ rootId ∈ ids, rootId ∈ Forest.chain t.edges id)
        after := by
  induction ids generalizing visited removed with
  | nil => exact ⟨removed, rfl, by simpa using hremoved⟩
  | cons rootId ids ih =>
      rw [List.forall_mem_cons] at hids
      obtain ⟨nodes, hwalk, hmap, hnodes⟩ := h.walk hids.1
      obtain ⟨middle, hmiddle, hone⟩ := h.removeFrom hremoved hnodes
      obtain ⟨after, hafter, hall⟩ := ih hone hids.2
      refine ⟨after, ?_, fun id => (hall id).trans ?_⟩
      · rw [Tables.removeFromRoots, hwalk]
        refine bind_ok_iff.mpr ⟨nodes, rfl, ?_⟩
        exact bind_ok_iff.mpr ⟨middle, hmiddle, hafter⟩
      · simp only [hmap, mem_walkIds h.grounded hids.1, List.exists_mem_cons_iff, or_assoc]

/-- The nodes that go: the pruned ones and what lies below them. -/
def Dropped (t : Tables) (id : String) : Prop :=
  ∃ row ∈ t.rows, Tables.pruned row ∧ row.id ∈ Forest.chain t.edges id

theorem Sound.removed (h : Sound H t putWith) (str : Value → String) :
    ∃ removed, (t.roots str).bind (t.removeFromRoots []) = .ok removed ∧
      ∀ id, id ∈ removed ↔ Dropped t id := by
  obtain ⟨ids, hids, -⟩ := h.roots str
  obtain ⟨removed, hremoved, hall⟩ := @Sound.removeFromRoots _ _ _ h ids (fun _ => False) []
    (fun id => by simp) fun id hid => h.contains_root hids hid
  refine ⟨removed, bind_ok_iff.mpr ⟨ids, hids, hremoved⟩, fun id => (hall id).trans ?_⟩
  refine exists_congr fun row => and_congr_right fun hrow => ?_
  have hcontains : t.contains row.id = true :=
    mem_keys_iff.mp (List.mem_map_of_mem (List.mem_map_of_mem hrow))
  exact and_iff_right (.inr (h.exists_root hids hcontains))

/-- A child of a node that goes goes too. -/
theorem Dropped.of_parent (hgrounded : Forest.Grounded t.edges) {id p : String}
    (hedge : (id, some p) ∈ t.edges) (h : Dropped t p) : Dropped t id := by
  obtain ⟨row, hrow, hpruned, hchain⟩ := h
  refine ⟨row, hrow, hpruned, ?_⟩
  rw [Forest.chain_of_parent hgrounded hedge]
  exact List.mem_cons_of_mem _ hchain

theorem sound_dropNodes (h : Sound H t putWith) {removed : List String}
    (hremoved : ∀ id, id ∈ removed ↔ Dropped t id) : Sound H (t.dropNodes removed) putWith := by
  have hedges : (t.dropNodes removed).edges =
      t.edges.filter fun e => decide (e.1 ∉ removed) := by
    rw [Tables.edges, Tables.edges, List.filter_map]
    rfl
  refine ⟨?_, ?_, ?_⟩
  · rw [hedges]
    refine @Forest.Grounded.filter _ _ h.grounded (fun id => decide (id ∉ removed)) ?_
    intro id p hedge hkeep
    rw [decide_eq_true_iff, hremoved] at hkeep ⊢
    exact fun hdropped => hkeep (hdropped.of_parent h.grounded hedge)
  · intro e he
    obtain ⟨hmem, hkeep⟩ := List.mem_filter.mp he
    obtain ⟨row, hrow⟩ := Option.isSome_iff_exists.mp (h.literals e hmem)
    obtain ⟨hrows, hid⟩ := mem_of_find? hrow
    rw [← mem_keys_iff, hedges, Forest.keys, List.mem_map]
    refine ⟨row.edge, List.mem_filter.mpr ⟨List.mem_map_of_mem hrows, ?_⟩, hid⟩
    rw [Node.edge, hid]
    exact hkeep
  · intro row hrow
    obtain ⟨hmem, hkeep⟩ := List.mem_filter.mp hrow
    obtain ⟨payload, hput, hsound⟩ := h.rows row hmem
    refine ⟨payload, hput, hsound.congr ?_ fun _ _ _ htext => htext⟩
    rw [Tables.literalPaths, Tables.dropNodes, List.filter_filter, Tables.literalPaths]
    refine congrArg _ (List.filter_congr fun e _ => ?_)
    by_cases he : e.1 = row.id
    · simpa [he] using hkeep
    · simp [he]

/-- Compaction keeps what is referred to. -/
theorem sound_compact (h : Sound H t putWith) : Sound H t.compact.1 putWith := by
  refine ⟨h.grounded, h.literals, fun row hrow => ?_⟩
  obtain ⟨payload, hput, hsound⟩ := h.rows row hrow
  refine ⟨payload, hput, hsound.congr rfl fun digest hdigest text htext => ?_⟩
  have hmem : digest ∈ t.referenced := List.mem_flatMap.mpr ⟨row, hrow, hdigest⟩
  rw [Tables.compact, Dict.get?_filter, htext]
  simp [hmem]

/-- A collection that drops leaves the tables without what goes, and returns. -/
theorem Sound.gc_dropPruned (h : Sound H t putWith) (sealDigest str : Value → String) :
    ∃ removed report, t.gc H sealDigest str .dropPruned = (t.dropNodes removed, .ok report) ∧
      ∀ id, id ∈ removed ↔ Dropped t id := by
  obtain ⟨seals, hseals⟩ := h.sealRoots sealDigest str
  obtain ⟨removed, hremoved, hall⟩ := h.removed str
  obtain ⟨after, hafter⟩ := (sound_dropNodes h hall).sealRoots sealDigest str
  refine ⟨removed, ⟨.dropPruned, removed.dedup.insertionSort (· ≤ ·), 0, after⟩, ?_, hall⟩
  rw [Tables.gc, hseals]
  dsimp only
  rw [hremoved]
  dsimp only
  rw [hafter]
  rfl

theorem Sound.gc_compact (h : Sound H t putWith) (sealDigest str : Value → String) :
    ∃ report, t.gc H sealDigest str .compact = (t.compact.1, .ok report) := by
  obtain ⟨seals, hseals⟩ := h.sealRoots sealDigest str
  obtain ⟨after, hafter⟩ := (sound_compact h).sealRoots sealDigest str
  refine ⟨⟨.compact, [], t.compact.2, after⟩, ?_⟩
  rw [Tables.gc, hseals]
  dsimp only
  rw [hafter]
  rfl

theorem sound_gc (h : Sound H t putWith) (mode : GCMode) :
    Sound H (t.gc H sealDigest str mode).1 putWith := by
  cases mode with
  | dropPruned =>
      obtain ⟨removed, report, hgc, hall⟩ := h.gc_dropPruned sealDigest str
      rw [hgc]
      exact sound_dropNodes h hall
  | compact =>
      obtain ⟨report, hgc⟩ := h.gc_compact sealDigest str
      rw [hgc]
      exact sound_compact h

/-! ### Runs -/

theorem sound_step (hhex : ∀ text, isDigest (sha256 text) = true) (w : World) (op : Op)
    (h : Sound H w.tables w.putWith) (hop : op.CollisionFree sha256) :
    Sound H (step H sha256 sealDigest str w op).tables
      (step H sha256 sealDigest str w op).putWith := by
  cases op with
  | put settings object =>
      rw [step]
      cases hput : w.tables.put H sha256 settings object.node with
      | error error => exact h
      | ok after => exact sound_put hhex h hop hput
  | updateMeta id patch =>
      rw [step]
      cases hupdate : w.tables.updateMeta id patch with
      | error error => exact h
      | ok after => exact sound_updateMeta h hupdate
  | gc mode => exact sound_gc h mode

/-- Every run keeps the tables sound. -/
theorem sound_run (hhex : ∀ text, isDigest (sha256 text) = true) {ops : List Op}
    (hops : ∀ op ∈ ops, op.CollisionFree sha256) :
    Sound H (Machine.run (step H sha256 sealDigest str) .empty ops).tables
      (Machine.run (step H sha256 sealDigest str) .empty ops).putWith :=
  Machine.invariant_run (P := fun _ op => op.CollisionFree sha256)
    (fun w => Sound H w.tables w.putWith) (fun w op => sound_step hhex w op) sound_empty
    (Machine.along_of_forall hops _)

end Sound

/-! ## Results -/

section Results

variable (H : Hashing) (sha256 : String → String) (sealDigest str : Value → String)

/-- What a payload is interned as reads back as the payload, whatever the settings are and
whatever the payload looks like; and so does the node that was put. -/
theorem interning_invisible (hhex : ∀ text, isDigest (sha256 text) = true) :
    (∀ (settings : Settings) (payload : Value), distinctKeys payload →
      Interning.CollisionFree sha256 settings payload →
        ∀ blobs : Dict String String,
          (∀ e ∈ (internPayload sha256 settings payload).2.1.entries,
            blobs.get? e.1 = some e.2) →
          rehydrate (internPayload sha256 settings payload).2.2
            (Tables.blobValue { Tables.empty with blobs })
            (internPayload sha256 settings payload).1 [] = .ok payload ∧
          ∀ read, rehydrate (internPayload sha256 settings payload).2.2
              (Tables.blobValue { Tables.empty with blobs })
              (internPayload sha256 settings payload).1 [] = .ok read →
            internPayload sha256 settings read = internPayload sha256 settings payload) ∧
    ∀ ops : List Op, (∀ op ∈ ops, op.CollisionFree sha256) →
      ∀ (settings : Settings) (object : NodeObject) (after : Tables),
        Interning.CollisionFree sha256 settings object.node.payload →
        (Machine.run (step H sha256 sealDigest str) .empty ops).tables.put H sha256 settings
          object.node = .ok after →
        ∃ read, after.get object.node.id = .ok read ∧
          read.payload = object.node.payload.canonical ∧ read.id = object.node.id ∧
            read.expectedId H = object.node.id := by
  refine ⟨fun settings payload hkeys hfree blobs hblobs => ?_,
    fun ops hops settings object after hfree hput => ?_⟩
  · have hread : rehydrate (internPayload sha256 settings payload).2.2
        (Tables.blobValue { Tables.empty with blobs })
        (internPayload sha256 settings payload).1 [] = .ok payload := by
      refine rehydrate_internPayload hhex hkeys fun e he => ?_
      have hentry := Dict.mem_entries_iff.mpr (get?_internPayload hfree he)
      rw [Tables.blobValue, hblobs e hentry]
    refine ⟨hread, fun read hother => ?_⟩
    rw [Except.ok.inj (hother.symm.trans hread)]
  · have hsound := sound_put hhex (sound_run hhex hops) hfree hput
    obtain ⟨row, -, hid, payload, hpayload, hrow, hget⟩ := hsound.get (contains_of_put hput)
    rw [Dict.get?_set, if_pos rfl, Option.some.injEq] at hpayload
    subst hpayload
    exact ⟨_, hget, rfl, hid, hrow.expectedId.symm.trans hid⟩

/-- A digest that tells two strings apart. -/
def sampleDigest (text : String) : String :=
  if text = "one" then "1111111111111111111111111111111111111111111111111111111111111111"
  else "2222222222222222222222222222222222222222222222222222222222222222"

theorem isDigest_sampleDigest (text : String) : isDigest (sampleDigest text) = true := by
  unfold sampleDigest
  split <;> decide +kernel

/-- A payload with two strings to intern, and what looks like a reference. -/
def samplePayload : Value :=
  .dict [("run", .str "one"), ("list", .list [.str "other"]), ("ref", .dict [(blobRef,
    .str "1111111111111111111111111111111111111111111111111111111111111111")])]

def sampleSettings : Settings := ⟨true, 1, le_refl 1⟩

def sampleObject : NodeObject where
  node := ⟨Hashing.plain.nodeId .root none 0 samplePayload, none, .root, 0, samplePayload, none, ∅⟩
  checked := by decide +kernel
  object := rfl
  distinct := by
    simp [samplePayload, distinctKeys, distinctKeysEntries, distinctKeysItems, Assoc.keys]

theorem collisionFree_sample :
    Interning.CollisionFree sampleDigest sampleSettings samplePayload := by
  unfold Interning.CollisionFree
  decide +kernel

theorem put_sample : ∃ after, Tables.empty.put Hashing.plain sampleDigest sampleSettings
    sampleObject.node = .ok after := by
  have hok : (Tables.empty.put Hashing.plain sampleDigest sampleSettings
    sampleObject.node).isOk = true := by decide +kernel
  revert hok
  cases Tables.empty.put Hashing.plain sampleDigest sampleSettings sampleObject.node with
  | error e => exact nofun
  | ok after => exact fun _ => ⟨after, rfl⟩

/-- A payload that imitates a reference reads back, on its own and from the store. -/
theorem interning_invisible_imitation :
    (∃ blobs, rehydrate (internPayload sampleDigest sampleSettings samplePayload).2.2
      (Tables.blobValue { Tables.empty with blobs })
      (internPayload sampleDigest sampleSettings samplePayload).1 [] = .ok samplePayload) ∧
    ∃ after read, Tables.empty.put Hashing.plain sampleDigest sampleSettings sampleObject.node =
        .ok after ∧
      after.get sampleObject.node.id = .ok read ∧ read.payload = samplePayload.canonical ∧
        read.expectedId Hashing.plain = sampleObject.node.id := by
  have hall := interning_invisible Hashing.plain sampleDigest Value.text Value.text
    isDigest_sampleDigest
  refine ⟨⟨(internPayload sampleDigest sampleSettings samplePayload).2.1,
    (hall.1 sampleSettings samplePayload sampleObject.distinct collisionFree_sample _
      fun e he => Dict.mem_entries_iff.mp he).1⟩, ?_⟩
  obtain ⟨after, hput⟩ := put_sample
  obtain ⟨read, hget, hpayload, -, hid⟩ :=
    hall.2 [] (by simp) sampleSettings sampleObject after collisionFree_sample hput
  exact ⟨after, read, hput, hget, hpayload, hid⟩

/-- Whatever was put, patched and collected before, every row reads back as the payload it was
put with, what it refers to is there, and so is its parent; and a collection drops exactly the
pruned nodes and what lies below them, and compaction no node. -/
theorem collection_safe (hhex : ∀ text, isDigest (sha256 text) = true) (ops : List Op)
    (hops : ∀ op ∈ ops, op.CollisionFree sha256) :
    let w := Machine.run (step H sha256 sealDigest str) .empty ops
    (∀ row ∈ w.tables.rows,
      (∃ payload node, w.putWith.get? row.id = some payload ∧
        w.tables.get row.id = .ok node ∧ node.payload = payload.canonical) ∧
      (∀ digest ∈ referencedBlobs (w.tables.literalPaths row.id) row.payload [],
        ∃ text, w.tables.blobs.get? digest = some text) ∧
      ∀ p ∈ row.parent, w.tables.contains p = true) ∧
    (∃ report, (w.tables.gc H sealDigest str .dropPruned).2 = .ok report ∧
      ∀ row, row ∈ (w.tables.gc H sealDigest str .dropPruned).1.rows ↔
        row ∈ w.tables.rows ∧ ¬ Dropped w.tables row.id) ∧
    ∃ report, (w.tables.gc H sealDigest str .compact).2 = .ok report ∧
      (w.tables.gc H sealDigest str .compact).1.rows = w.tables.rows := by
  intro w
  have h : Sound H w.tables w.putWith := sound_run hhex hops
  refine ⟨fun row hrow => ⟨?_, ?_, fun p hp => ?_⟩, ?_, ?_⟩
  · have hcontains : w.tables.contains row.id = true :=
      mem_keys_iff.mp (List.mem_map_of_mem (List.mem_map_of_mem hrow))
    obtain ⟨_, -, -, payload, hput, -, hget⟩ := h.get hcontains
    exact ⟨payload, _, hput, hget, rfl⟩
  · obtain ⟨payload, -, hsound⟩ := h.rows row hrow
    intro digest hdigest
    obtain ⟨text, htext⟩ := (rehydrate_determined _ _ _ hsound.rehydrated).1 digest hdigest
    unfold Tables.blobValue at htext
    split at htext
    · next stored hstored => exact ⟨stored, hstored⟩
    · cases htext
  · refine mem_keys_iff.mp (h.grounded.parent_mem (k := row.id) ?_)
    rw [← Option.mem_def.mp hp]
    exact List.mem_map_of_mem hrow
  · obtain ⟨removed, report, hgc, hall⟩ := h.gc_dropPruned sealDigest str
    refine ⟨report, by rw [hgc], fun row => ?_⟩
    rw [hgc, Tables.dropNodes, List.mem_filter, decide_eq_true_iff, hall]
  · obtain ⟨report, hgc⟩ := h.gc_compact sealDigest str
    exact ⟨report, by rw [hgc], by rw [hgc]; rfl⟩

/-- A child of the sample that is pruned. -/
def sampleChild : NodeObject where
  node :=
    let payload := Value.dict [("text", .str "one")]
    ⟨Hashing.plain.nodeId .note (some sampleObject.node.id) 0 payload,
      some sampleObject.node.id, .note, 0, payload, none, ∅⟩
  checked := by decide +kernel
  object := rfl
  distinct := by simp [distinctKeys, distinctKeysEntries, Assoc.keys]

def sampleOps : List Op :=
  [.put sampleSettings sampleObject, .put sampleSettings sampleChild,
    .updateMeta sampleChild.node.id (Dict.ofList [("pruned", .bool true)])]

def sampleWorld : World :=
  Machine.run (step Hashing.plain sampleDigest Value.text Value.text) .empty sampleOps

theorem collision_sampleOps : ∀ op ∈ sampleOps, op.CollisionFree sampleDigest := by
  have hchild : Interning.CollisionFree sampleDigest sampleSettings sampleChild.node.payload := by
    unfold Interning.CollisionFree
    decide +kernel
  simp [sampleOps, Op.CollisionFree, hchild, sampleObject, collisionFree_sample]

theorem collection_safe_prunedChild :
    (∀ row ∈ sampleWorld.tables.rows, ∃ payload node,
      sampleWorld.putWith.get? row.id = some payload ∧
        sampleWorld.tables.get row.id = .ok node ∧ node.payload = payload.canonical) ∧
    (∀ row, row ∈ (sampleWorld.tables.gc Hashing.plain Value.text Value.text .dropPruned).1.rows ↔
      row ∈ sampleWorld.tables.rows ∧ ¬ Dropped sampleWorld.tables row.id) ∧
    sampleWorld.tables.rows.map Node.id = [sampleChild.node.id, sampleObject.node.id] ∧
    (sampleWorld.tables.gc Hashing.plain Value.text Value.text .dropPruned).1.rows.map Node.id =
      [sampleObject.node.id] := by
  have hall := collection_safe Hashing.plain sampleDigest Value.text Value.text
    isDigest_sampleDigest sampleOps collision_sampleOps
  obtain ⟨hrows, ⟨report, -, hdropped⟩, -⟩ := hall
  exact ⟨fun row hrow => (hrows row hrow).1, hdropped, by decide +kernel, by decide +kernel⟩

end Results

end Pollard.Stores.SqliteNodes
