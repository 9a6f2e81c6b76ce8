import Pollard.Rust.CachedStores
import Pollard.Rust.Sqlite

/-!
# The SQLite store with a cache revision

`SQLiteStore` as a runtime sees it.  A transaction of this store counts as a mutation of its own
before it starts, and every commit of another connection changes `data_version`.
-/

namespace Pollard.Rust

open Lib Fallible

/-! ## Blobs -/

section Blobs

variable {sha : List ℕ → String} {blobs more : Dict String String} {literals : List String}

/-- All that is read of blobs is read of more of them. -/
def ReadsAlike (sha : List ℕ → String) (blobs more : Dict String String) : Prop :=
  ∀ digest text, readBlob sha blobs digest = .ok text → readBlob sha more digest = .ok text

theorem readsAlike_of_subset
    (h : ∀ digest text, blobs.get? digest = some text → more.get? digest = some text) :
    ReadsAlike sha blobs more := by
  intro digest text hread
  unfold readBlob at hread ⊢
  cases hget : blobs.get? digest with
  | none =>
      rw [hget] at hread
      cases hread
  | some blob =>
      rw [hget] at hread
      rw [h digest blob hget]
      exact hread

mutual

theorem rehydrate_more (h : ReadsAlike sha blobs more) : ∀ (value : Json) (path : List Json) (read : Json),
    rehydrate sha blobs literals value path = .ok read →
      rehydrate sha more literals value path = .ok read
  | .object entries, path, read, hread => by
      cases hdigest : blobDigest (.object entries) with
      | some digest =>
          simp only [rehydrate, hdigest] at hread ⊢
          obtain ⟨text, htext, hread⟩ := bind_ok_iff.mp hread
          apply bind_ok_iff.mpr
          refine ⟨text, htext, ?_⟩
          split at hread
          · next hliteral => rwa [if_pos hliteral]
          · next hliteral =>
              rw [if_neg hliteral]
              obtain ⟨blob, hblob, hread⟩ := bind_ok_iff.mp hread
              exact bind_ok_iff.mpr ⟨blob, h digest blob hblob, hread⟩
      | none =>
          simp only [rehydrate, hdigest] at hread ⊢
          obtain ⟨others, hothers, hread⟩ := bind_ok_iff.mp hread
          exact bind_ok_iff.mpr
            ⟨others, rehydrateEntries_more h entries path others hothers, hread⟩
  | .array items, path, read, hread => by
      rw [rehydrate] at hread ⊢
      obtain ⟨others, hothers, hread⟩ := bind_ok_iff.mp hread
      exact bind_ok_iff.mpr ⟨others, rehydrateItems_more h items path 0 others hothers, hread⟩
  | .null, _, _, hread | .bool _, _, _, hread | .number _, _, _, hread
  | .string _, _, _, hread => hread

theorem rehydrateEntries_more (h : ReadsAlike sha blobs more) :
    ∀ (entries : List (String × Json)) (path : List Json) (read : List (String × Json)),
      rehydrateEntries sha blobs literals entries path = .ok read →
        rehydrateEntries sha more literals entries path = .ok read
  | [], _, _, hread => hread
  | (key, value) :: entries, path, read, hread => by
      rw [rehydrateEntries] at hread ⊢
      obtain ⟨own, hown, hread⟩ := bind_ok_iff.mp hread
      obtain ⟨others, hothers, hread⟩ := bind_ok_iff.mp hread
      apply bind_ok_iff.mpr
      refine ⟨own, rehydrate_more h value _ own hown, ?_⟩
      exact bind_ok_iff.mpr ⟨others, rehydrateEntries_more h entries path others hothers, hread⟩

theorem rehydrateItems_more (h : ReadsAlike sha blobs more) :
    ∀ (items : List Json) (path : List Json) (index : ℕ) (read : List Json),
      rehydrateItems sha blobs literals items path index = .ok read →
        rehydrateItems sha more literals items path index = .ok read
  | [], _, _, _, hread => hread
  | item :: items, path, index, read, hread => by
      rw [rehydrateItems] at hread ⊢
      obtain ⟨own, hown, hread⟩ := bind_ok_iff.mp hread
      obtain ⟨others, hothers, hread⟩ := bind_ok_iff.mp hread
      apply bind_ok_iff.mpr
      refine ⟨own, rehydrate_more h item _ own hown, ?_⟩
      exact bind_ok_iff.mpr
        ⟨others, rehydrateItems_more h items path (index + 1) others hothers, hread⟩

end

end Blobs

/-! ## Rows -/

namespace SqliteNodes

/-- The payload of a row stands beside its other columns. -/
def Aligned (s : SqliteNodes) : Prop :=
  ∀ id, s.columns.get? id = none ↔ s.payloads.rows.get? id = none

/-- What the columns of children tell of them. -/
def childColumns (columns : Dict String Columns) (id : String) : List (String × String) :=
  (columns.entries.filter fun e => e.2.parent = some id).map fun e => (e.2.kind.value, e.1)

/-- `children` -/
def children (s : SqliteNodes) (id : String) : List String :=
  sortedIds (childColumns s.columns id)

/-- `drop_nodes` -/
def dropNodes (s : SqliteNodes) (ids : List String) : Except Error SqliteNodes := do
  ensure (∀ id ∈ ids, ∀ child ∈ s.children id, child ∈ ids)
    (.integrity "garbage collection would orphan a child")
  return ⟨s.columns.filter fun e => e.1 ∉ ids,
    { s.payloads with rows := s.payloads.rows.filter fun e => e.1 ∉ ids }⟩

section Library

variable (lib : Library)

/-- The transaction of `finalize`. -/
def finalizeLocked (s : SqliteNodes) (node : Node) : Except Error SqliteNodes := do
  let old ← s.get lib node.id
  ensure (old.state = some "pending" ∧ old.resultText = none ∧ old.sameNode node)
    (.integrity "only the same pending identity may be finalized")
  ensure (node.state.getD "" ∈ ["completed", "failed"])
    (.integrity "finalized state must be completed or failed")
  let _ ← encode node.metadata
  match s.columns.get? node.id with
  | none => return s
  | some columns =>
      return { s with
        columns := s.columns.set node.id
          { columns with
            result := node.resultText
            resultDigest := node.resultDigest
            metadata := node.metadata } }

/-- The transaction of a mutation of one node. -/
def writeLocked (settings : Stores.Interning.Settings) (s : SqliteNodes) :
    NodeWrite → Except Error SqliteNodes
  | .put node | .stagePending node => s.put lib settings node.1
  | .finalize node => s.finalizeLocked lib node.1
  | .updateMeta id patch => s.updateMeta lib id patch.1

end Library

/-! ### Reads -/

variable {lib : Library} {s t : SqliteNodes} {id : String} {node : Node}

theorem get_ok_iff : s.get lib id = .ok node ↔ ∃ columns row payload,
    s.columns.get? id = some columns ∧ s.payloads.rows.get? id = some row ∧
      s.payloads.rustGet lib.sha row = .ok payload ∧
        Node.fromStorage lib ⟨id, columns.parent, columns.kind, columns.attempt, payload,
          columns.result, columns.resultDigest, columns.metadata⟩ = .ok node := by
  unfold get getOptional
  constructor
  · intro h
    obtain ⟨found, hfound, h⟩ := bind_ok_iff.mp h
    split at hfound
    · next columns row hcolumns hrow =>
        obtain ⟨payload, hpayload, hfound⟩ := bind_ok_iff.mp hfound
        obtain ⟨own, hown, hfound⟩ := bind_ok_iff.mp hfound
        cases hfound
        cases h
        exact ⟨columns, row, payload, hcolumns, hrow, hpayload, hown⟩
    · cases hfound
      cases h
  · rintro ⟨columns, row, payload, hcolumns, hrow, hpayload, hnode⟩
    rw [hcolumns, hrow]
    apply bind_ok_iff.mpr
    refine ⟨some node, ?_, rfl⟩
    apply bind_ok_iff.mpr
    refine ⟨payload, hpayload, ?_⟩
    exact bind_ok_iff.mpr ⟨node, hnode, rfl⟩

theorem getOptional_some (h : s.getOptional lib id = .ok (some node)) :
    s.get lib id = .ok node := by
  unfold get
  exact bind_ok_iff.mpr ⟨some node, h, rfl⟩

theorem getOptional_none (hs : s.Aligned) (h : s.getOptional lib id = .ok none) :
    s.columns.get? id = none := by
  unfold getOptional at h
  split at h
  · obtain ⟨_, -, h⟩ := bind_ok_iff.mp h
    obtain ⟨_, -, h⟩ := bind_ok_iff.mp h
    cases h
  · next hnone =>
      cases hcolumns : s.columns.get? id with
      | none => rfl
      | some columns =>
          cases hrow : s.payloads.rows.get? id with
          | none =>
              rw [(hs id).mpr hrow] at hcolumns
              cases hcolumns
          | some row => exact absurd hrow (hnone columns row hcolumns)

/-- A node is read from the columns of its id. -/
theorem columns_of_get (h : s.get lib id = .ok node) :
    ∃ columns, s.columns.get? id = some columns ∧ node.id = id ∧
      node.parent = columns.parent ∧ node.kind = columns.kind := by
  obtain ⟨columns, _, payload, hcolumns, -, -, hnode⟩ := get_ok_iff.mp h
  obtain ⟨_, -, hnode⟩ := bind_ok_iff.mp hnode
  obtain ⟨_, -, hnode⟩ := bind_ok_iff.mp hnode
  obtain ⟨_, -, hnode⟩ := bind_ok_iff.mp hnode
  cases hnode
  exact ⟨columns, hcolumns, rfl, rfl, rfl⟩

/-- A row is read as before where nothing of it has changed and the blobs are still there. -/
theorem get_of_frame (hcolumns : t.columns.get? id = s.columns.get? id)
    (hrow : t.payloads.rows.get? id = s.payloads.rows.get? id)
    (hblobs : ∀ digest text, s.payloads.blobs.get? digest = some text →
      t.payloads.blobs.get? digest = some text)
    (h : s.get lib id = .ok node) : t.get lib id = .ok node := by
  obtain ⟨columns, row, payload, hc, hr, hpayload, hnode⟩ := get_ok_iff.mp h
  apply get_ok_iff.mpr
  refine ⟨columns, row, payload, hcolumns.trans hc, hrow.trans hr, ?_, hnode⟩
  obtain ⟨stored, hstored, hpayload⟩ := bind_ok_iff.mp hpayload
  obtain ⟨value, hvalue, hpayload⟩ := bind_ok_iff.mp hpayload
  apply bind_ok_iff.mpr
  refine ⟨stored, hstored, ?_⟩
  apply bind_ok_iff.mpr
  exact ⟨value, rehydrate_more (readsAlike_of_subset hblobs) stored [] value hvalue, hpayload⟩

theorem mem_childColumns {columns : Dict String Columns} {child : String × String} :
    child ∈ childColumns columns id ↔ ∃ own, columns.get? child.2 = some own ∧
      own.parent = some id ∧ own.kind.value = child.1 := by
  rw [childColumns, List.mem_map]
  constructor
  · rintro ⟨e, he, rfl⟩
    obtain ⟨hmem, hparent⟩ := List.mem_filter.mp he
    exact ⟨e.2, Dict.mem_entries_iff.mp hmem, of_decide_eq_true hparent, rfl⟩
  · rintro ⟨own, hget, hparent, hkind⟩
    refine ⟨(child.2, own), ?_, Prod.ext hkind rfl⟩
    exact List.mem_filter.mpr ⟨Dict.mem_entries_iff.mpr hget, decide_eq_true hparent⟩

/-- Children do not depend on the other columns. -/
theorem childColumns_set_same {columns : Dict String Columns} {old new : Columns}
    (hget : columns.get? id = some old) (hparent : new.parent = old.parent)
    (hkind : new.kind = old.kind) (other : String) :
    childColumns (columns.set id new) other = childColumns columns other := by
  obtain ⟨pre, post, hentries, hset, -⟩ := Dict.entries_set_of_get?_some new hget
  rw [childColumns, childColumns, hentries, hset, List.filter_append, List.filter_append,
    List.map_append, List.map_append, List.filter_cons, List.filter_cons]
  simp only [hparent]
  split
  · rw [List.map_cons, List.map_cons, hkind]
  · rfl

/-! ### What is written -/

/-- The reads of rows. -/
def reads (lib : Library) : StoreReads { s : SqliteNodes // s.Aligned } where
  get s := s.1.get lib
  stored s := s.1.columns.contains
  children s := s.1.children

theorem rows_reads : (reads lib).Rows where
  keyed := by
    intro s id node h
    obtain ⟨_, -, hid, -⟩ := columns_of_get h
    exact hid
  stored := by
    intro s id node h
    obtain ⟨columns, hcolumns, -⟩ := columns_of_get h
    exact Option.isSome_iff_exists.mpr ⟨columns, hcolumns⟩
  listed := by
    intro s id child node hchild h
    obtain ⟨columns, hcolumns, -, hparent, -⟩ := columns_of_get h
    obtain ⟨entry, hentry, rfl⟩ := mem_sortedIds.mp hchild
    obtain ⟨own, hown, hid, -⟩ := mem_childColumns.mp hentry
    obtain rfl := Option.some.inj (hcolumns.symm.trans hown)
    exact hparent.trans hid
  found := by
    intro s id parent node h hparent
    obtain ⟨columns, hcolumns, -, hown, -⟩ := columns_of_get h
    apply mem_sortedIds.mpr
    refine ⟨(columns.kind.value, id), ?_, rfl⟩
    exact mem_childColumns.mpr ⟨columns, hcolumns, hown.symm.trans hparent, rfl⟩

/-- An update of the columns of a row but its parent and kind. -/
structure Updated (id : String) (s t : SqliteNodes) (old new : Columns) : Prop where
  before : s.columns.get? id = some old
  after : t.columns = s.columns.set id new
  parent : new.parent = old.parent
  kind : new.kind = old.kind
  payloads : t.payloads = s.payloads

/-- An insertion of a row. -/
structure Added (id : String) (s t : SqliteNodes) (new : Columns) : Prop where
  fresh : s.columns.get? id = none
  after : t.columns = s.columns.set id new
  row : ∃ row, t.payloads.rows = s.payloads.rows.set id row
  blobs : ∀ digest text, s.payloads.blobs.get? digest = some text →
    t.payloads.blobs.get? digest = some text
  parent : ∀ parent, new.parent = some parent → s.columns.contains parent = true

/-- What a transaction does to the rows. -/
inductive Effect (id : String) (s t : SqliteNodes) : Prop where
  | same (h : t = s)
  | updated (old new : Columns) (h : Updated id s t old new)
  | added (new : Columns) (h : Added id s t new)

theorem Effect.aligned (hs : s.Aligned) (h : Effect id s t) : t.Aligned := by
  cases h with
  | same h => exact h ▸ hs
  | updated old new h =>
      intro other
      rw [h.after, h.payloads, Dict.get?_set]
      split
      · next heq =>
          subst heq
          rw [← hs, h.before]
          exact iff_of_false (fun hnone => by cases hnone) fun hnone => by cases hnone
      · exact hs other
  | added new h =>
      obtain ⟨row, hrow⟩ := h.row
      intro other
      rw [h.after, hrow, Dict.get?_set, Dict.get?_set]
      split
      · exact iff_of_false (fun hnone => by cases hnone) fun hnone => by cases hnone
      · exact hs other

theorem Effect.wrote {s t : { s : SqliteNodes // s.Aligned }} (h : Effect id s.1 t.1)
    (hbefore : s.1.columns.contains id = true → ∃ old, s.1.get lib id = .ok old)
    (hafter : t.1.get lib id = .ok node) : (reads lib).Wrote id s t := by
  cases h with
  | same h =>
      obtain rfl : t = s := Subtype.ext h
      exact .same ⟨rfl, rfl⟩
  | updated own new h =>
      obtain ⟨old, hold⟩ := hbefore (Option.isSome_iff_exists.mpr ⟨own, h.before⟩)
      refine .changed old node ⟨hold, hafter, ?_, ?_, ?_⟩
      · obtain ⟨before, hown, -, hparent, -⟩ := columns_of_get hold
        obtain ⟨after, hnew, -, hparent', -⟩ := columns_of_get hafter
        rw [h.before] at hown
        rw [h.after, Dict.get?_set_self] at hnew
        cases hown
        cases hnew
        exact hparent'.trans (h.parent.trans hparent.symm)
      · intro other found hne hget
        refine get_of_frame ?_ (by rw [h.payloads]) (fun _ _ hblob => by rwa [h.payloads]) hget
        rw [h.after]
        exact Dict.get?_set_of_ne _ _ (Ne.symm hne)
      · funext other
        change sortedIds _ = sortedIds _
        rw [h.after, childColumns_set_same h.before h.parent h.kind]
  | added new h =>
      obtain ⟨columns, hown, -, hparent, -⟩ := columns_of_get hafter
      rw [h.after, Dict.get?_set_self] at hown
      cases hown
      have hfresh : s.1.columns.contains id = false := by
        rw [Dict.contains, h.fresh]
        rfl
      have hentries : t.1.columns.entries = s.1.columns.entries ++ [(id, new)] := by
        rw [h.after]
        exact Dict.entries_set_of_get?_none new h.fresh
      refine .inserted node ⟨hfresh, hafter, ?_, ?_, ?_, ?_⟩
      · intro other found hne hget
        obtain ⟨row, hrow⟩ := h.row
        refine get_of_frame ?_ ?_ h.blobs hget
        · rw [h.after]
          exact Dict.get?_set_of_ne _ _ (Ne.symm hne)
        · rw [hrow]
          exact Dict.get?_set_of_ne _ _ (Ne.symm hne)
      · intro heq
        have hcontains := h.parent id (hparent.symm.trans heq)
        rw [hfresh] at hcontains
        cases hcontains
      · intro other hother
        change sortedIds _ = sortedIds _
        rw [childColumns, hentries, List.filter_append, List.map_append]
        have hnone : (List.filter (fun e => decide (e.2.parent = some other)) [(id, new)]) = [] := by
          apply List.filter_eq_nil_iff.mpr
          intro e he hdec
          obtain rfl := List.mem_singleton.mp he
          exact hother (hparent.trans (of_decide_eq_true hdec))
        rw [hnone, List.map_nil, List.append_nil, childColumns]
      · intro parent hown
        change ∃ before after, sortedIds _ = _ ∧ sortedIds _ = _
        have hperm : (childColumns t.1.columns parent).Perm
            ((new.kind.value, id) :: childColumns s.1.columns parent) := by
          rw [childColumns, hentries, List.filter_append, List.map_append]
          have hone : (List.filter (fun e => decide (e.2.parent = some parent)) [(id, new)]) =
              [(id, new)] := by
            apply List.filter_eq_self.mpr
            intro e he
            obtain rfl := List.mem_singleton.mp he
            exact decide_eq_true (hparent.symm.trans hown)
          rw [hone]
          exact List.perm_append_singleton _ _
        rw [sortedIds_of_perm hperm]
        exact sortedIds_cons _ _

section Written

variable {settings : Stores.Interning.Settings} (hs : s.Aligned)

/-- Nothing is written of a row that is not read. -/
structure Written (lib : Library) (id : String) (s t : SqliteNodes) : Prop where
  effect : Effect id s t
  read : s.columns.contains id = true → ∃ old, s.get lib id = .ok old

theorem updateMeta_written {patch : Json} (h : s.updateMeta lib id patch = .ok t) :
    Written lib id s t := by
  unfold updateMeta at h
  split at h
  · next patch =>
      obtain ⟨old, hold, h⟩ := bind_ok_iff.mp h
      obtain ⟨_, -, h⟩ := bind_ok_iff.mp h
      refine ⟨?_, fun _ => ⟨old, hold⟩⟩
      split at h
      · cases h
        exact .same rfl
      · next columns hcolumns =>
          cases h
          exact .updated columns _ ⟨hcolumns, rfl, rfl, rfl, rfl⟩
  · cases h

theorem finalizeLocked_written (h : s.finalizeLocked lib node = .ok t) :
    Written lib node.id s t := by
  obtain ⟨old, hold, h⟩ := bind_ok_iff.mp h
  obtain ⟨_, -, h⟩ := bind_ok_iff.mp h
  obtain ⟨_, -, h⟩ := bind_ok_iff.mp h
  obtain ⟨_, -, h⟩ := bind_ok_iff.mp h
  refine ⟨?_, fun _ => ⟨old, hold⟩⟩
  split at h
  · cases h
    exact .same rfl
  · next columns hcolumns =>
      cases h
      exact .updated columns _ ⟨hcolumns, rfl, rfl, rfl, rfl⟩

include hs

theorem put_written (h : s.put lib settings node = .ok t) : Written lib node.id s t := by
  obtain ⟨_, -, h⟩ := bind_ok_iff.mp h
  obtain ⟨_, hparent, h⟩ := bind_ok_iff.mp h
  obtain ⟨found, hfound, h⟩ := bind_ok_iff.mp h
  cases found with
  | some old =>
      have hold := getOptional_some hfound
      obtain ⟨_, _, hid, -⟩ := columns_of_get hold
      obtain ⟨_, -, h⟩ := bind_ok_iff.mp h
      split at h
      · split at h
        · cases h
        · exact hid ▸ updateMeta_written h
      · cases h
        exact ⟨.same rfl, fun _ => ⟨old, hold⟩⟩
  | none =>
      have hfresh := getOptional_none hs hfound
      obtain ⟨payloads, hpayloads, h⟩ := bind_ok_iff.mp h
      obtain ⟨_, -, h⟩ := bind_ok_iff.mp h
      cases h
      obtain ⟨_, -, hpayloads⟩ := bind_ok_iff.mp hpayloads
      obtain ⟨blobs, hblobs, hpayloads⟩ := bind_ok_iff.mp hpayloads
      obtain ⟨_, -, hpayloads⟩ := bind_ok_iff.mp hpayloads
      obtain ⟨_, -, hpayloads⟩ := bind_ok_iff.mp hpayloads
      cases hpayloads
      have hkept := (Stores.SqliteNodes.insertBlobs_ok (mapError_ok hblobs)).1
      refine ⟨.added _ ⟨hfresh, rfl, ⟨_, rfl⟩, hkept, Node.checkParent_ok_iff.mp hparent⟩, ?_⟩
      intro hcontains
      rw [Dict.contains, hfresh] at hcontains
      cases hcontains

theorem writeLocked_written {w : NodeWrite} (h : s.writeLocked lib settings w = .ok t) :
    Written lib w.id s t := by
  cases w with
  | put node | stagePending node => exact put_written hs h
  | finalize node => exact finalizeLocked_written h
  | updateMeta id patch => exact updateMeta_written h

theorem aligned_dropNodes {ids : List String} (h : s.dropNodes ids = .ok t) : t.Aligned := by
  obtain ⟨_, -, h⟩ := bind_ok_iff.mp h
  cases h
  intro other
  rw [Dict.get?_filter, Dict.get?_filter]
  by_cases hmem : other ∈ ids
  · cases s.columns.get? other <;> cases s.payloads.rows.get? other <;> simp [hmem]
  · have hsame := hs other
    cases hc : s.columns.get? other <;> cases hr : s.payloads.rows.get? other <;>
      simp_all

end Written

end SqliteNodes

/-! ## Connections -/

/-- The rows a database gets into. -/
abbrev SqliteRows := { s : SqliteNodes // s.Aligned }

/-- The rows of a transaction that keeps them aligned. -/
def SqliteRows.of (x : Except Error SqliteNodes) (h : ∀ s, x = .ok s → s.Aligned) :
    Except Error SqliteRows :=
  match x, h with
  | .ok s, h => .ok ⟨s, h s rfl⟩
  | .error e, _ => .error e

theorem SqliteRows.of_ok {x : Except Error SqliteNodes} {h : ∀ s, x = .ok s → s.Aligned}
    {rows : SqliteRows} (hrows : of x h = .ok rows) : x = .ok rows.1 := by
  cases x with
  | ok s =>
      cases hrows
      rfl
  | error e => cases hrows

/-- `SQLiteStore`: the rows, what triggers make of a write, and the counters of
`cache_revision`. -/
structure SqliteState where
  rows : SqliteRows
  triggers : Option (SqliteRows → SqliteRows → Except Error SqliteRows)
  revision : StoreRevision

/-- What another connection commits: rows, and triggers on them. -/
structure SqliteCommit where
  rows : SqliteRows
  triggers : Option (SqliteRows → SqliteRows → Except Error SqliteRows)

namespace SqliteState

variable (lib : Library) (settings : Stores.Interning.Settings)

/-- `BEGIN IMMEDIATE` -/
def begun (s : SqliteState) : SqliteState :=
  { s with revision := ⟨s.revision.own + 1, s.revision.external⟩ }

/-- `transaction` -/
def transaction (s : SqliteState) (x : Except Error SqliteRows) :
    Except Error Unit × SqliteState :=
  match x with
  | .ok rows => (.ok (), { s.begun with rows })
  | .error e => (.error e, s.begun)

/-- What triggers make of the rows that are written. -/
def triggered (s : SqliteState) (x : Except Error SqliteRows) : Except Error SqliteRows :=
  match s.triggers with
  | none => x
  | some trigger => x.bind (trigger s.rows)

def write (w : NodeWrite) (s : SqliteState) : Except Error Unit × SqliteState :=
  let locked := SqliteRows.of (s.rows.1.writeLocked lib settings w) fun _ h =>
    (SqliteNodes.writeLocked_written s.rows.2 h).effect.aligned s.rows.2
  let written := s.transaction (s.triggered locked)
  match w with
  | .finalize node =>
      match node.1.validate lib with
      | .ok () => written
      | .error e => (.error e, s)
  | _ => written

def dropNodes (ids : List String) (s : SqliteState) : Except Error Unit × SqliteState :=
  s.transaction (s.triggered (SqliteRows.of (s.rows.1.dropNodes ids) fun _ =>
    SqliteNodes.aligned_dropNodes s.rows.2))

/-- `ancestry_nodes`; it sees no more nodes than there are. -/
def ancestryFrom (get : String → Except Error Node) :
    ℕ → String → List String → Except Error (List Node)
  | 0, id, _ => .error (.notFound id)
  | fuel + 1, id, seen => do
      ensure (id ∉ seen) (.integrity "cycle in ancestry")
      let node ← get id
      ensure (node.id = id) (.integrity "lookup key differs from node id")
      node.validate lib
      match node.parent with
      | none => return [node]
      | some parent => return node :: (← ancestryFrom get fuel parent (id :: seen))

def ancestryNodes (s : SqliteState) (id : String) : Except Error (List Node) :=
  ancestryFrom lib (s.rows.1.get lib) (s.rows.1.columns.entries.length + 1) id []

/-- `subtree_snapshot` -/
def subtreeSnapshot (s : SqliteState) (root : String) : Except Error (Option (List Node)) := do
  let _ ← s.ancestryNodes lib root
  let nodes ← (SqliteNodes.reads lib).walk (s.rows.1.columns.entries.length + 1) s.rows root
  return some nodes

/-- `SQLiteStore` as a runtime sees it. -/
def recording : RecordingStore SqliteState where
  toStoreReads := (SqliteNodes.reads lib).comap rows
  counters := revision
  cacheable s := s.triggers.isNone
  ancestrySnapshot s id := (s.ancestryNodes lib id).map some
  subtreeSnapshot := subtreeSnapshot lib
  write := write lib settings
  dropNodes := dropNodes
  reserve := begun
  Commit := SqliteCommit
  commit c s := ⟨c.rows, c.triggers, ⟨s.revision.own, s.revision.external + 1⟩⟩

variable {lib settings}

theorem later_of_own {s t : SqliteState}
    (h : t = s ∨ t.revision = ⟨s.revision.own + 1, s.revision.external⟩) :
    (recording lib settings).Later s t := by
  rcases h with rfl | h
  · exact .refl t
  · refine ⟨?_, ?_, fun hsame => ?_⟩
    · change s.revision.own ≤ t.revision.own
      rw [h]
      exact Nat.le_succ _
    · change s.revision.external ≤ t.revision.external
      rw [h]
    · have hown : t.revision.own = s.revision.own := congrArg StoreRevision.own hsame
      rw [h] at hown
      exact absurd hown (Nat.succ_ne_self _)

theorem transaction_revision (s : SqliteState) (x : Except Error SqliteRows) :
    (s.transaction x).2.revision = ⟨s.revision.own + 1, s.revision.external⟩ := by
  cases x <;> rfl

theorem write_revision (w : NodeWrite) (s : SqliteState) :
    (s.write lib settings w).2 = s ∨
      (s.write lib settings w).2.revision = ⟨s.revision.own + 1, s.revision.external⟩ := by
  cases w with
  | put node | stagePending node | updateMeta id patch =>
      exact .inr (transaction_revision s _)
  | finalize node =>
      unfold write
      dsimp only
      split
      · exact .inr (transaction_revision s _)
      · exact .inl rfl

/-- A write that returns has run its transaction. -/
theorem write_rows {w : NodeWrite} {s : SqliteState} (htriggers : s.triggers = none)
    (h : (s.write lib settings w).1 = .ok ()) :
    s.rows.1.writeLocked lib settings w = .ok (s.write lib settings w).2.rows.1 := by
  have htransaction : ∀ x : Except Error SqliteRows, (s.transaction (s.triggered x)).1 = .ok () →
      x = .ok (s.transaction (s.triggered x)).2.rows := by
    intro x hok
    unfold triggered at hok ⊢
    rw [htriggers] at hok ⊢
    cases x with
    | ok rows => rfl
    | error e => cases hok
  cases w with
  | put node | stagePending node | updateMeta id patch =>
      exact SqliteRows.of_ok (htransaction _ h)
  | finalize node =>
      unfold write at h ⊢
      cases hvalid : node.1.validate lib with
      | ok _ =>
          simp only [hvalid] at h ⊢
          exact SqliteRows.of_ok (htransaction _ h)
      | error e =>
          simp only [hvalid] at h
          cases h

theorem recording_documented (lib : Library) (settings : Stores.Interning.Settings) :
    (recording lib settings).Documented where
  rows := {
    keyed := SqliteNodes.rows_reads.keyed
    stored := SqliteNodes.rows_reads.stored
    listed := SqliteNodes.rows_reads.listed
    found := SqliteNodes.rows_reads.found }
  write_later := fun w s => later_of_own (write_revision w s)
  write_one := by
    intro w s node hcacheable hok _ hget
    have hrows := write_rows (Option.isNone_iff_eq_none.mp hcacheable) hok
    obtain ⟨heffect, hread⟩ := SqliteNodes.writeLocked_written s.rows.2 hrows
    exact StoreReads.Wrote.comap (heffect.wrote hread hget)
  dropNodes_later := fun ids s => later_of_own (.inr (transaction_revision s _))
  reserve_later := fun s => later_of_own (.inr rfl)
  commit_later := by
    intro c s
    refine ⟨le_rfl, Nat.le_succ _, fun hsame => ?_⟩
    have hexternal : s.revision.external + 1 = s.revision.external :=
      congrArg StoreRevision.external hsame
    exact absurd hexternal (Nat.succ_ne_self _)
  commit_own := fun _ _ => rfl

end SqliteState

end Pollard.Rust
