import Pollard.Lib.Machine
import Pollard.Lib.Replay
import Pollard.Stores.ObjectStore

/-!
# The store with its log in a hash rope

`put` and `update_meta` change the nodes first and append their record then; the log is read
again line by line.  A line is held as the object its bytes spell.
-/

namespace Pollard.Stores.HashRope

open Lib Lib.Fallible ObjectStore

inductive Line where
  | put (record : NodeRecord)
  | patch (nodeId : String) (patch : Obj)
deriving DecidableEq

structure State where
  nodes : Nodes
  log : List Line
deriving DecidableEq

def State.empty : State := ⟨∅, []⟩

section Store

variable (H : Hashing) (digest : Codes → String)

/-- The line of `put`. -/
def putLine (node : ObjectNode) : Except PyError Line :=
  node.record.bind fun record =>
    if record.utf8 then .ok (.put record) else .error .unicodeEncodeError

/-- The line of `update_meta`. -/
def metaLine (nodeId : String) (patch : Dict Key Obj) : Except PyError Line :=
  (Obj.jsonBytes (.dict patch.entries)).map (.patch nodeId)

/-- One step of `_replay`. -/
def replayLine (number : ℕ) (nodes : Nodes) : Line → Except PyError Nodes
  | .put record =>
      (ObjectNode.fromRecord digest record).bind fun node =>
        (applyPut H digest nodes node).map fun changed => changed.getD nodes
  | .patch nodeId patch =>
      match patch.loads with
      | .dict entries => applyMeta nodes nodeId (Dict.ofList entries)
      | _ => .error (.integrityError s!"hashrope log line {number} has invalid meta patch")

/-- The nodes of a store opened on a log. -/
def reopen (log : List Line) : Except PyError Nodes :=
  Replay.replay (replayLine H digest) 1 ∅ log

/-! ## The operations -/

/-- The nodes are changed, and then the line is appended. -/
def logged (s : State) (nodes : Nodes) (line : Except PyError Line) :
    State × Except PyError Unit :=
  match line with
  | .ok line => (⟨nodes, s.log ++ [line]⟩, .ok ())
  | .error e => (⟨nodes, s.log⟩, .error e)

def put (s : State) (node : ObjectNode) : State × Except PyError Unit :=
  match applyPut H digest s.nodes node with
  | .error e => (s, .error e)
  | .ok none => (s, .ok ())
  | .ok (some nodes) => logged s nodes (putLine node)

def updateMeta (s : State) (nodeId : String) (patch : Dict Key Obj) :
    State × Except PyError Unit :=
  match applyMeta s.nodes nodeId patch with
  | .error e => (s, .error e)
  | .ok nodes => logged s nodes (metaLine nodeId patch)

end Store

/-! ## Reading metadata back -/

/-- What `json.loads` finds under a name in a text with the entries in this order. -/
def lastText : List (Key × Obj) → Codes → Option Obj
  | [], _ => none
  | (key, value) :: entries, t =>
      (lastText entries t).or (if key.text = t then some value else none)

theorem lastText_eq_none_iff {entries : List (Key × Obj)} {t : Codes} :
    lastText entries t = none ↔ ∀ e ∈ entries, e.1.text ≠ t := by
  induction entries with
  | nil => simp [lastText]
  | cons e entries ih =>
      rw [lastText, Option.or_eq_none_iff, ih, List.forall_mem_cons, and_comm]
      simp

theorem mem_of_lastText {entries : List (Key × Obj)} {t : Codes} {value : Obj}
    (h : lastText entries t = some value) : ∃ key, (key, value) ∈ entries ∧ key.text = t := by
  induction entries with
  | nil => cases h
  | cons e entries ih =>
      obtain ⟨key, v⟩ := e
      rw [lastText, Option.or_eq_some_iff] at h
      rcases h with h | ⟨-, h⟩
      · obtain ⟨k, hk, ht⟩ := ih h
        exact ⟨k, List.mem_cons_of_mem _ hk, ht⟩
      · split at h
        · next ht =>
            cases h
            exact ⟨key, List.mem_cons_self, ht⟩
        · cases h

/-- A name that only the string has is looked up as the string. -/
theorem lastText_eq_lookup {entries : List (Key × Obj)} (hnodup : (Assoc.keys entries).Nodup)
    {t : Codes} (h : ∀ key ∈ Assoc.keys entries, key.text = t → key = .str t) :
    lastText entries t = Assoc.lookup entries (.str t) := by
  induction entries with
  | nil => rfl
  | cons e entries ih =>
      obtain ⟨key, value⟩ := e
      rw [Assoc.keys, List.map_cons, List.nodup_cons] at hnodup
      rw [Assoc.keys, List.map_cons, List.forall_mem_cons] at h
      rw [lastText, Assoc.lookup, ih hnodup.2 h.2]
      by_cases hkey : key = .str t
      · rw [if_pos hkey, if_pos (by rw [hkey, Key.text]),
          Assoc.lookup_eq_none_iff.mpr (hkey ▸ hnodup.1), Option.none_or]
      · rw [if_neg hkey, if_neg fun ht => hkey (h.1 ht), Option.or_none]

/-- After a string come only strings. -/
def StringsLast (keys : List Key) : Prop :=
  keys.Pairwise fun a b => a.isStr = true → b.isStr = true

/-- A string set after the keys of other kinds replaces what was read under its name. -/
theorem lastText_upsert {entries : List (Key × Obj)} (hnodup : (Assoc.keys entries).Nodup)
    (hlast : StringsLast (Assoc.keys entries)) (s t : Codes) (value : Obj) :
    lastText (Assoc.upsert entries (.str s) value) t =
      if s = t then some value else lastText entries t := by
  induction entries with
  | nil =>
      rw [Assoc.upsert, lastText, lastText, lastText, Key.text, Option.none_or]
  | cons e entries ih =>
      obtain ⟨key, v⟩ := e
      rw [Assoc.keys, List.map_cons, List.nodup_cons] at hnodup
      rw [StringsLast, Assoc.keys, List.map_cons, List.pairwise_cons] at hlast
      rw [Assoc.upsert]
      split
      · next hkey =>
          subst hkey
          have hnone : lastText entries s = none := by
            rw [lastText_eq_none_iff]
            intro e he ht
            have hmem : e.1 ∈ Assoc.keys entries := List.mem_map_of_mem he
            have hkey := Key.eq_str (hlast.1 e.1 hmem rfl)
            rw [ht] at hkey
            exact hnodup.1 (hkey ▸ hmem)
          rw [lastText, lastText, Key.text]
          split
          · next hst => rw [← hst, hnone, Option.none_or]
          · rfl
      · rw [lastText, lastText, ih hnodup.2 hlast.2]
        split
        · rw [Option.some_or]
        · rfl

theorem stringsLast_set {d : Dict Key Obj} (h : StringsLast d.keys) (s : Codes) (value : Obj) :
    StringsLast (d.set (.str s) value).keys := by
  rw [Dict.keys_set]
  split
  · exact h
  · rw [StringsLast, List.pairwise_append]
    refine ⟨h, List.pairwise_singleton _ _, fun a _ b hb _ => ?_⟩
    rw [List.mem_singleton] at hb
    rw [hb, Key.isStr]

/-- Strings set one after another replace what was read under their names. -/
theorem lastText_foldl_set {entries : List (Key × Obj)} {d : Dict Key Obj}
    (hnodup : (Assoc.keys entries).Nodup) (hstr : ∀ e ∈ entries, e.1.isStr = true)
    (hlast : StringsLast d.keys) :
    StringsLast (entries.foldl (fun m e => m.set e.1 e.2) d).keys ∧
      ∀ t, lastText (entries.foldl (fun m e => m.set e.1 e.2) d).entries t =
        (Assoc.lookup entries (.str t)).or (lastText d.entries t) := by
  induction entries generalizing d with
  | nil => exact ⟨hlast, fun t => rfl⟩
  | cons e entries ih =>
      obtain ⟨key, value⟩ := e
      rw [List.forall_mem_cons] at hstr
      rw [Assoc.keys, List.map_cons, List.nodup_cons] at hnodup
      cases key with
      | str s =>
          obtain ⟨hkeys, hread⟩ := ih hnodup.2 hstr.2 (stringsLast_set hlast s value)
          refine ⟨hkeys, fun t => ?_⟩
          rw [List.foldl_cons, hread, Dict.set, lastText_upsert d.nodupKeys hlast, Assoc.lookup]
          by_cases hst : s = t
          · rw [if_pos hst, if_pos (congrArg Key.str hst), ← hst,
              Assoc.lookup_eq_none_iff.mpr hnodup.1, Option.none_or, Option.some_or]
          · rw [if_neg hst, if_neg fun h => hst (Key.str.inj h)]
      | _ => exact absurd hstr.1 Bool.false_ne_true

/-- A value, and what it is once it was written and read; the elements of a list are compared
by their texts. -/
def Follows (value read : Obj) : Prop :=
  read.canonicalText = value.canonicalText ∧
    (read = value.jsonForm ∨ ∃ items, value = .list items)

theorem follows_jsonForm (value : Obj) : Follows value value.jsonForm :=
  ⟨Obj.canonicalText_jsonForm value, .inl rfl⟩

/-- Metadata in memory and as the log gives it. -/
structure Tracks (live read : Dict Key Obj) : Prop where
  same : ∀ t, Option.Rel Follows (lastText live.entries t) (read.get? (.str t))
  stringsLast : StringsLast live.keys
  conflicts : ∀ key ∈ live.keys, key.text = codes "result_conflicts" → key = conflictsKey
  strings : ∀ e ∈ read.entries, e.1.isStr = true
  dumpable : ∀ e ∈ read.entries, e.2.dumpable false = true

namespace Tracks

theorem foldl_set {live read : Dict Key Obj} (h : Tracks live read)
    {entries texts : List (Key × Obj)} (hnodup : (Assoc.keys entries).Nodup)
    (hstr : ∀ e ∈ entries, e.1.isStr = true) (htexts : (Assoc.keys texts).Nodup)
    (hsame : ∀ t, Option.Rel Follows (Assoc.lookup entries (.str t)) (Assoc.lookup texts (.str t)))
    (hread : ∀ e ∈ texts, e.1.isStr = true ∧ e.2.dumpable false = true) :
    Tracks (entries.foldl (fun m e => m.set e.1 e.2) live)
      (texts.foldl (fun m e => m.set e.1 e.2) read) := by
  obtain ⟨hlast, hlookup⟩ := lastText_foldl_set hnodup hstr h.stringsLast
  refine ⟨fun t => ?_, hlast, fun key hkey htext => ?_, fun e he => ?_, fun e he => ?_⟩
  · rw [hlookup, Dict.get?_foldl_set htexts]
    have hone := hsame t
    revert hone
    cases Assoc.lookup entries (.str t) <;> cases Assoc.lookup texts (.str t) <;> intro hone
    · exact h.same t
    · cases hone
    · cases hone
    · exact hone
  · obtain ⟨e, he, rfl⟩ := List.mem_map.mp hkey
    rcases Dict.mem_of_mem_foldl_set he with he | he
    · exact h.conflicts e.1 (List.mem_map_of_mem he) htext
    · rw [Key.eq_str (hstr e he), htext, conflictsKey]
  · rcases Dict.mem_of_mem_foldl_set he with he | he
    · exact h.strings e he
    · exact (hread e he).1
  · rcases Dict.mem_of_mem_foldl_set he with he | he
    · exact h.dumpable e he
    · exact (hread e he).2

theorem set {live read : Dict Key Obj} (h : Tracks live read) {s : Codes} {value text : Obj}
    (hfollows : Follows value text) (hdumpable : text.dumpable false = true) :
    Tracks (live.set (.str s) value) (read.set (.str s) text) := by
  refine @foldl_set _ _ h [(.str s, value)] [(.str s, text)]
    (List.nodup_singleton _) (by simp [Key.isStr]) (List.nodup_singleton _) (fun t => ?_)
    (by simpa [Key.isStr] using hdumpable)
  rw [Assoc.lookup, Assoc.lookup, Assoc.lookup, Assoc.lookup]
  by_cases hst : Key.str s = Key.str t
  · rw [if_pos hst, if_pos hst]
    exact .some hfollows
  · rw [if_neg hst, if_neg hst]
    exact .none

end Tracks

/-- Different keys have different texts, the key of the conflicts among them. -/
def DistinctTexts (d : Dict Key Obj) : Prop :=
  ∀ a ∈ conflictsKey :: d.keys, ∀ b ∈ conflictsKey :: d.keys, a.text = b.text → a = b

instance (d : Dict Key Obj) : Decidable (DistinctTexts d) := by
  unfold DistinctTexts
  infer_instance

theorem mem_read_iff {d : Dict Key Obj} {e : Key × Obj} :
    e ∈ Obj.loadsEntries (Obj.textEntries d.entries) ↔
      ∃ old ∈ d.entries, (.str old.1.text, old.2.jsonForm) = e := by
  rw [Obj.loadsEntries_eq_map, Obj.textEntries, List.map_map, List.mem_map]
  exact exists_congr fun old => and_congr_left' Obj.mem_sortEntries

theorem stringsLast_of_sortable {keys : List Key} (h : Key.sortable keys = true) :
    StringsLast keys := by
  rw [Key.sortable, decide_eq_true_iff] at h
  rcases h with h | h | h
  · match keys, h with
    | [], _ => exact .nil
    | [key], _ => exact List.pairwise_singleton _ _
  · rw [List.all_eq_true] at h
    exact List.pairwise_of_forall_mem_list fun a _ b hb _ => h b hb
  · rw [List.all_eq_true] at h
    refine List.pairwise_of_forall_mem_list fun a ha b _ hstr => ?_
    have hnumber := h a ha
    rw [Key.eq_str hstr] at hnumber
    cases hnumber

/-- The metadata of a record is tracked by what is read from the record. -/
theorem tracks_jsonFormDict {d : Dict Key Obj} (hdumpable : (Obj.dict d.entries).dumpable true = true)
    (hdistinct : DistinctTexts d) : Tracks d (Obj.jsonFormDict d) := by
  have hagain : (Obj.dict d.entries).jsonForm.dumpable false = true :=
    Obj.dumpable_jsonForm _ hdumpable
  rw [Obj.jsonForm_dict, Obj.dumpable, Bool.not_false, Bool.true_or, Bool.true_and,
    Obj.dumpableEntries_iff] at hagain
  rw [Obj.dumpable, Bool.not_true, Bool.false_or, Bool.and_eq_true] at hdumpable
  refine ⟨fun t => ?_, stringsLast_of_sortable hdumpable.1, fun key hkey htext => ?_,
    fun e he => ?_, fun e he => (hagain e he).2⟩
  · cases hfound : lastText d.entries t with
    | none =>
        have hnone : (Obj.jsonFormDict d).get? (.str t) = none := by
          rw [Option.eq_none_iff_forall_ne_some]
          intro value hvalue
          have hmem := Dict.mem_of_mem_ofList (Dict.mem_entries_iff.mpr hvalue)
          obtain ⟨old, hold, heq⟩ := mem_read_iff.mp hmem
          have hkey := congrArg Prod.fst heq
          exact lastText_eq_none_iff.mp hfound old hold (Key.str.inj hkey)
        rw [hnone]
        exact .none
    | some value =>
        obtain ⟨key, hmem, ht⟩ := mem_of_lastText hfound
        have hread : (Obj.jsonFormDict d).get? (.str t) = some value.jsonForm := by
          refine Dict.get?_ofList_of_mem (e := (.str t, value.jsonForm))
            (mem_read_iff.mpr ⟨_, hmem, by rw [ht]⟩) fun f hf hkey => ?_
          obtain ⟨old, hold, rfl⟩ := mem_read_iff.mp hf
          have hsame : old.1 = key := by
            refine hdistinct _ (List.mem_cons_of_mem _ (List.mem_map_of_mem hold)) _
              (List.mem_cons_of_mem _ (List.mem_map_of_mem hmem)) ?_
            rw [ht]
            exact Key.str.inj hkey
          have hvalue := (Dict.mem_entries_iff.mp hold).symm.trans
            (hsame ▸ Dict.mem_entries_iff.mp hmem)
          rw [Option.some.inj hvalue]
        rw [hread]
        exact .some (follows_jsonForm value)
  · exact hdistinct key (List.mem_cons_of_mem _ hkey) conflictsKey List.mem_cons_self htext
  · rw [Obj.str_of_mem_read e he, Key.isStr]

/-! ## The nodes that the log gives -/

/-- A node as the log gives it. -/
structure Reads (live read : ObjectNode) : Prop where
  fields : read = { live.jsonForm with metadata := read.metadata }
  tracks : Tracks live.metadata read.metadata

structure NodesRead (live read : Nodes) : Prop where
  keys : live.keys = read.keys
  nodes : ∀ {id a b}, live.get? id = some a → read.get? id = some b → Reads a b

/-- `list` makes the same of a value that was written and read. -/
def ListsAlike : Obj → Prop
  | .dict entries =>
      (∀ e ∈ entries, e.1.isStr = true) ∧ entries.Pairwise fun a b => a.1.text < b.1.text
  | _ => True

instance : ∀ value, Decidable (ListsAlike value)
  | .dict entries => inferInstanceAs (Decidable ((∀ e ∈ entries, e.1.isStr = true) ∧
      entries.Pairwise fun a b => a.1.text < b.1.text))
  | .none | .bool _ | .int _ | .float _ | .str _ | .list _ | .foreign _ =>
      inferInstanceAs (Decidable True)

namespace NodesRead

variable {live read : Nodes} (h : NodesRead live read)

include h

theorem get?_none_iff {id : String} : live.get? id = none ↔ read.get? id = none := by
  rw [Dict.get?_eq_none_iff, Dict.get?_eq_none_iff, h.keys]

theorem contains (id : String) : live.contains id = read.contains id := by
  rw [Dict.contains, Dict.contains, Bool.eq_iff_iff, Option.isSome_iff_ne_none,
    Option.isSome_iff_ne_none, ne_eq, ne_eq, h.get?_none_iff]

theorem exists_read {id : String} {node : ObjectNode} (hnode : live.get? id = some node) :
    ∃ node', read.get? id = some node' ∧ Reads node node' := by
  cases hread : read.get? id with
  | none => rw [h.get?_none_iff.mpr hread] at hnode; cases hnode
  | some node' => exact ⟨node', rfl, h.nodes hnode hread⟩

theorem set {id : String} {node node' : ObjectNode} (hnode : Reads node node') :
    NodesRead (live.set id node) (read.set id node') := by
  refine ⟨?_, fun {i a b} ha hb => ?_⟩
  · rw [Dict.keys_set, Dict.keys_set, h.keys]
  · rw [Dict.get?_set] at ha hb
    split at ha
    · next heq =>
        rw [if_pos heq] at hb
        cases ha
        cases hb
        exact hnode
    · next hne =>
        rw [if_neg hne] at hb
        exact h.nodes ha hb

theorem children (id : String) :
    ObjectStore.children live id = ObjectStore.children read id := by
  have hmap : ∀ {α : Type} (f : ObjectNode → α), (∀ a b, Reads a b → f a = f b) →
      ∀ i, (live.get? i).map f = (read.get? i).map f := by
    intro α f hf i
    cases hlive : live.get? i with
    | none => rw [h.get?_none_iff.mp hlive]
    | some node =>
        obtain ⟨node', hread, hreads⟩ := h.exists_read hlive
        rw [hread, Option.map_some, Option.map_some, hf node node' hreads]
  have hparent : hasParent live id = hasParent read id := by
    funext i
    have hsame := hmap ObjectNode.parent (fun a b hab => by rw [hab.fields]; rfl) i
    rw [hasParent, hasParent, ← Option.any_map (f := ObjectNode.parent)
      (p := fun p => decide (p = some id)), hsame, Option.any_map]
  have hkey : sortKey live = sortKey read := by
    funext i
    rw [sortKey, sortKey, hmap (fun node => node.kind.value) (fun a b hab => by
      rw [hab.fields]; rfl)]
  rw [ObjectStore.children, ObjectStore.children, hparent, hkey, h.keys]

end NodesRead

theorem reads_jsonForm {node : ObjectNode}
    (hdumpable : (Obj.dict node.metadata.entries).dumpable true = true)
    (hdistinct : DistinctTexts node.metadata) : Reads node node.jsonForm :=
  ⟨rfl, tracks_jsonFormDict hdumpable hdistinct⟩

theorem checkFields_dumpable {kind : NodeKind} {parent : Option String} {payload : Value}
    {attempt : ℤ} {metadata : Dict Key Obj} :
    ObjectNode.checkFields kind parent payload attempt metadata = .ok () ↔
      Node.checkFields kind parent payload attempt none ∅ = .ok () ∧
        (Obj.dict metadata.entries).dumpable false = true := by
  rw [ObjectNode.checkFields, bind_ok_iff]
  constructor
  · rintro ⟨u, hfields, hrest⟩
    split at hrest
    · next hdumpable => exact ⟨hfields, hdumpable⟩
    · cases hrest
  · rintro ⟨hfields, hdumpable⟩
    exact ⟨(), hfields, by rw [if_pos hdumpable]⟩

theorem dumpable_dict_iff {entries : List (Key × Obj)} :
    (Obj.dict entries).dumpable false = true ↔
      ∀ e ∈ entries, e.1.encodable = true ∧ e.2.dumpable false = true := by
  rw [Obj.dumpable, Bool.not_false, Bool.true_or, Bool.true_and, Obj.dumpableEntries_iff]

/-- Metadata that is tracked takes the place of the old in both. -/
theorem setMeta_reads {live read : Nodes} (h : NodesRead live read) {id : String}
    {node node' : ObjectNode} (hnode : Reads node node') {metadata metadata' : Dict Key Obj}
    (hmeta : Tracks metadata metadata') {live' : Nodes}
    (hset : setMeta live id node metadata = .ok live') :
    ∃ read', setMeta read id node' metadata' = .ok read' ∧ NodesRead live' read' := by
  obtain ⟨u, hcheck, rfl⟩ := map_ok_iff.mp hset
  have hfields := (checkFields_dumpable.mp hcheck).1
  have hread : ObjectNode.checkFields node'.kind node'.parent node'.payload node'.attempt
      metadata' = .ok () := by
    refine checkFields_dumpable.mpr ⟨?_, dumpable_dict_iff.mpr fun e he => ?_⟩
    · rw [hnode.fields]
      obtain ⟨hresult, hidentity, hroot, hattempt, hempty⟩ := Node.checkFields_ok_iff.mp hfields
      refine Node.checkFields_ok_iff.mpr ⟨hresult, ?_, hroot, hattempt, hempty⟩
      exact (Value.isIdentity_canonical _).trans hidentity
    · refine ⟨?_, hmeta.dumpable e he⟩
      rw [Key.eq_str (hmeta.strings e he)]
      rfl
  refine ⟨_, map_ok_iff.mpr ⟨(), hread, rfl⟩, h.set ⟨?_, hmeta⟩⟩
  rw [hnode.fields]
  rfl

/-! ## Conflicts -/

/-- `list` of a value gives elements with the texts of the elements of the value read. -/
theorem pyList_follows {value read : Obj} {items : List Obj} (h : Follows value read)
    (halike : ListsAlike value) (hdumpable : read.dumpable false = true)
    (hlist : pyList value = .ok items) :
    ∃ items', pyList read = .ok items' ∧
      items'.map Obj.canonicalText = items.map Obj.canonicalText ∧
      ∀ item ∈ items', item.dumpable false = true := by
  obtain ⟨htext, hread⟩ := h
  cases value with
  | list elements =>
      cases hlist
      rw [Obj.canonicalText_list] at htext
      cases read with
      | list elements' =>
          rw [Obj.canonicalText_list, Obj.list.injEq] at htext
          rw [Obj.dumpable, Obj.dumpableItems_iff] at hdumpable
          exact ⟨elements', rfl, htext, hdumpable⟩
      | _ => cases htext
  | str s =>
      cases hlist
      obtain rfl := hread.resolve_right nofun
      exact ⟨_, rfl, rfl, List.forall_mem_map.mpr fun c _ => rfl⟩
  | dict entries =>
      cases hlist
      obtain rfl := hread.resolve_right nofun
      obtain ⟨hstr, hsorted⟩ := halike
      have hsame : Assoc.keys (Obj.textEntries entries) = Assoc.keys entries := by
        rw [Obj.textEntries, Obj.sortEntries_of_pairwise (fun e he => Key.eq_str (hstr e he))
          hsorted, Assoc.keys, Assoc.keys, List.map_map]
        exact List.map_congr_left fun e he => (Key.eq_str (hstr e he)).symm
      have hkeys : Assoc.keys (Obj.dictEntries (Obj.loadsEntries (Obj.textEntries entries))) =
          Assoc.keys entries := by
        rw [Obj.dictEntries_of_nodup, Obj.keys_loadsEntries, hsame]
        rw [Obj.keys_loadsEntries, hsame]
        exact Obj.nodup_of_pairwise hsorted
      refine ⟨(Assoc.keys entries).map Obj.ofKey, ?_, rfl, fun item hitem => ?_⟩
      · rw [Obj.jsonForm, Obj.dumped_dict, Obj.loads, pyList, hkeys]
      · obtain ⟨key, hkey, rfl⟩ := List.mem_map.mp hitem
        obtain ⟨e, he, rfl⟩ := List.mem_map.mp hkey
        rw [Key.eq_str (hstr e he)]
        rfl
  | _ => cases hlist

theorem canonicalText_conflict (node : ObjectNode) (result : ResultText) :
    (conflict node.jsonForm result.jsonForm).canonicalText =
      (conflict node result).canonicalText := by
  have hdigest : ∀ d : Option String, (d.elim Obj.none fun s => .str (codes s)).jsonForm =
      d.elim Obj.none fun s => .str (codes s) := by
    intro d
    cases d <;> rfl
  have hread : conflict node.jsonForm result.jsonForm = .dict
      ([(Key.str (codes "result_digest"), node.resultDigest.elim .none fun s => .str (codes s)),
        (.str (codes "result"), result.value)].map fun e => (e.1, e.2.jsonForm)) := by
    rw [List.map_cons, List.map_cons, hdigest]
    rfl
  rw [hread, conflict]
  refine Obj.canonicalText_dict_map (by simp [Key.isStr]) ?_
    fun e _ => Obj.canonicalText_jsonForm e.2
  change [Key.str (codes "result_digest"), Key.str (codes "result")].Nodup
  decide

theorem dumpable_conflict {node : ObjectNode} {result : ResultText}
    (h : (conflict node result).dumpable false = true) :
    (conflict node.jsonForm result.jsonForm).dumpable false = true := by
  rw [conflict, dumpable_dict_iff, List.forall_mem_cons, List.forall_mem_singleton] at h ⊢
  exact ⟨h.1, h.2.1, Obj.dumpable_jsonForm _ h.2.2⟩

/-- Appending a conflict keeps the metadata tracked. -/
theorem conflicts_track {live read : Dict Key Obj} (h : Tracks live read)
    (halike : ListsAlike (live.getD conflictsKey (.list []))) {conflicts : List Obj}
    (hlist : pyList (live.getD conflictsKey (.list [])) = .ok conflicts) {new new' : Obj}
    (htext : new'.canonicalText = new.canonicalText) (hnew : new'.dumpable false = true) :
    ∃ conflicts', pyList (read.getD conflictsKey (.list [])) = .ok conflicts' ∧
      Tracks (live.set conflictsKey (.list (conflicts ++ [new])))
        (read.set conflictsKey (.list (conflicts' ++ [new']))) := by
  have hsame := h.same (codes "result_conflicts")
  rw [lastText_eq_lookup live.nodupKeys h.conflicts] at hsame
  change Option.Rel Follows (live.get? conflictsKey) (read.get? conflictsKey) at hsame
  have hfollows : Follows (live.getD conflictsKey (.list []))
      (read.getD conflictsKey (.list [])) := by
    rw [Dict.getD, Dict.getD]
    revert hsame
    cases live.get? conflictsKey <;> cases read.get? conflictsKey <;> intro hsame
    · exact follows_jsonForm (.list [])
    · cases hsame
    · cases hsame
    · cases hsame
      assumption
  have hold : (read.getD conflictsKey (.list [])).dumpable false = true := by
    rw [Dict.getD]
    cases hget : read.get? conflictsKey with
    | none => rfl
    | some value => exact h.dumpable _ (Dict.mem_entries_iff.mpr hget)
  obtain ⟨conflicts', hlist', htexts, hdumpable⟩ := pyList_follows hfollows halike hold hlist
  refine ⟨conflicts', hlist', h.set ⟨?_, .inr ⟨_, rfl⟩⟩ ?_⟩
  · rw [Obj.canonicalText_list, Obj.canonicalText_list, List.map_append, List.map_append, htexts,
      List.map_singleton, List.map_singleton, htext]
  · rw [Obj.dumpable, Obj.dumpableItems_iff, List.forall_mem_append]
    exact ⟨hdumpable, by simpa using hnew⟩

/-- A result that conflicts with a stored one is folded alike in both. -/
theorem handleExisting_reads {live read live' : Nodes} (h : NodesRead live read)
    {existing existing' incoming : ObjectNode} (hexisting : Reads existing existing')
    (halike : ListsAlike (existing.metadata.getD conflictsKey (.list [])))
    (hhandle : handleExisting live existing incoming = .ok (some live')) :
    ∃ read', handleExisting read existing' incoming.jsonForm = .ok (some read') ∧
      NodesRead live' read' := by
  have hid : existing'.id = existing.id := by rw [hexisting.fields]; rfl
  have hidentity : existing'.identity = existing.identity := by
    rw [hexisting.fields, ObjectNode.identity, ObjectNode.identity]
    exact congrArg (Identity.mk _ _ _) (Value.canonical_canonical _)
  have hincoming : incoming.jsonForm.identity = incoming.identity := by
    rw [ObjectNode.identity, ObjectNode.identity]
    exact congrArg (Identity.mk _ _ _) (Value.canonical_canonical _)
  have htexts : existing'.result.map ResultText.text = existing.result.map ResultText.text := by
    have hresult : existing'.result = existing.result.map ResultText.jsonForm := by
      rw [hexisting.fields]
      rfl
    rw [hresult, Option.map_map]
    rfl
  rw [handleExisting] at hhandle ⊢
  rw [hidentity, hincoming, htexts, hid]
  split at hhandle
  · cases hhandle
  · next hsame =>
      rw [if_neg hsame]
      cases hresult : incoming.result with
      | none =>
          rw [hresult] at hhandle
          cases hhandle
      | some result =>
          have hread : incoming.jsonForm.result = some result.jsonForm := by
            rw [ObjectNode.jsonForm, hresult, Option.map_some]
          rw [hresult] at hhandle
          rw [hread]
          dsimp only at hhandle ⊢
          split at hhandle
          · cases hhandle
          · next hdiffer =>
              rw [if_neg (show ¬ _ = some result.jsonForm.text from hdiffer)]
              obtain ⟨conflicts, hlist, hrest⟩ := bind_ok_iff.mp hhandle
              obtain ⟨nodes, hset, hnodes⟩ := map_ok_iff.mp hrest
              cases hnodes
              have hnew : (conflict incoming result).dumpable false = true := by
                obtain ⟨u, hcheck, -⟩ := map_ok_iff.mp hset
                obtain ⟨-, hlisted⟩ := dumpable_dict_iff.mp (checkFields_dumpable.mp hcheck).2 _
                  (Dict.mem_entries_iff.mpr (Dict.get?_set_self _ _ _))
                rw [Obj.dumpable, Obj.dumpableItems_iff] at hlisted
                exact hlisted _ (List.mem_append_right _ (List.mem_singleton.mpr rfl))
              obtain ⟨conflicts', hlist', htracks⟩ := conflicts_track hexisting.tracks halike hlist
                (canonicalText_conflict incoming result) (dumpable_conflict hnew)
              obtain ⟨read', hread', hnodes⟩ := setMeta_reads h hexisting htracks hset
              exact ⟨read', bind_ok_iff.mpr ⟨_, hlist', map_ok_iff.mpr ⟨_, hread', rfl⟩⟩, hnodes⟩

/-! ## Runs -/

/-- A node that was built, or a patch under strings. -/
inductive Op where
  | put (node : ObjectNode) (built : node.Built)
  | updateMeta (nodeId : String) (patch : Dict Key Obj)
      (strings : ∀ e ∈ patch.entries, e.1.isStr = true)

section Runs

variable (H : Hashing) (digest : Codes → String)

def apply (s : State) : Op → State × Except PyError Unit
  | .put node _ => put H digest s node
  | .updateMeta nodeId patch _ => updateMeta s nodeId patch

def step (s : State) (op : Op) : State := (apply H digest s op).1

/-- The nodes in memory stay well-formed, whatever becomes of the log. -/
theorem wellFormed_step {s : State} (h : WellFormed H digest s.nodes) (op : Op) :
    WellFormed H digest (step H digest s op).nodes := by
  cases op with
  | put node built =>
      rw [step, apply, put]
      cases happly : applyPut H digest s.nodes node with
      | error e => exact h
      | ok changed =>
          cases changed with
          | none => exact h
          | some nodes =>
              have hnodes := h.applyPut built happly
              cases hline : putLine node <;> exact hnodes
  | updateMeta nodeId patch strings =>
      rw [step, apply, updateMeta]
      cases happly : applyMeta s.nodes nodeId patch with
      | error e => exact h
      | ok nodes =>
          have hnodes := h.applyMeta happly
          cases hline : metaLine nodeId patch <;> exact hnodes

theorem wellFormed_run (ops : List Op) :
    WellFormed H digest (Machine.run (step H digest) State.empty ops).nodes :=
  Machine.preserved_run (fun s : State => WellFormed H digest s.nodes)
    (fun _ op h => wellFormed_step H digest h op) wellFormed_empty ops

/-- What a `put` asks of a node that changes the stored ones. -/
def Writable (nodes : Nodes) (node : ObjectNode) : Prop :=
  (putLine node).isOk = true ∧
    match nodes.get? node.id with
    | none => DistinctTexts node.metadata
    | some existing => ListsAlike (existing.metadata.getD conflictsKey (.list []))

instance (nodes : Nodes) (node : ObjectNode) : Decidable (Writable nodes node) := by
  unfold Writable
  split <;> infer_instance

/-- An operation that changes the nodes has a line that can be written and read again. -/
def Loggable (s : State) : Op → Prop
  | .put node _ =>
      match applyPut H digest s.nodes node with
      | .ok (some _) => Writable s.nodes node
      | _ => True
  | .updateMeta nodeId patch _ =>
      match applyMeta s.nodes nodeId patch with
      | .ok _ => (metaLine nodeId patch).isOk = true
      | .error _ => True

instance (s : State) : ∀ op, Decidable (Loggable H digest s op)
  | .put node _ => by
      unfold Loggable
      dsimp only
      split <;> infer_instance
  | .updateMeta nodeId patch _ => by
      unfold Loggable
      dsimp only
      split <;> infer_instance

/-- An operation that raises has changed nothing. -/
def RaisesCleanly (s : State) (op : Op) : Prop :=
  ∀ e, (apply H digest s op).2 = .error e → step H digest s op = s

end Runs

/-- Metadata in JSON form, up to the order of keys. -/
def SameMeta (live read : Dict Key Obj) : Prop :=
  (∀ e ∈ read.entries, e.1.isStr = true) ∧
    ∀ t, (lastText live.entries t).map Obj.canonicalText =
      (read.get? (.str t)).map Obj.canonicalText

/-- A node in memory, and the one read from the log. -/
def SameNode (live read : ObjectNode) : Prop :=
  read = { live.jsonForm with metadata := read.metadata } ∧ SameMeta live.metadata read.metadata

structure SameNodes (live read : Nodes) : Prop where
  keys : live.keys = read.keys
  nodes : ∀ {id a b}, live.get? id = some a → read.get? id = some b → SameNode a b
  children : ∀ id, ObjectStore.children live id = ObjectStore.children read id

/-- The log can be opened, and gives what is in memory. -/
def Reopens (H : Hashing) (digest : Codes → String) (s : State) : Prop :=
  ∃ read, reopen H digest s.log = .ok read ∧ SameNodes s.nodes read

/-- What a log that can be opened gives. -/
def Sound (H : Hashing) (digest : Codes → String) (s : State) : Prop :=
  ∃ read, reopen H digest s.log = .ok read ∧ NodesRead s.nodes read

section Steps

variable {H : Hashing} {digest : Codes → String}

theorem applyMeta_reads {live read live' : Nodes} (h : NodesRead live read) {nodeId : String}
    {patch : Dict Key Obj} (hstr : ∀ e ∈ patch.entries, e.1.isStr = true)
    (hdumpable : (Obj.dict patch.entries).dumpable true = true)
    (happly : applyMeta live nodeId patch = .ok live') :
    ∃ read', applyMeta read nodeId (Obj.jsonFormDict patch) = .ok read' ∧
      NodesRead live' read' := by
  have hagain : (Obj.dict patch.entries).jsonForm.dumpable false = true :=
    Obj.dumpable_jsonForm _ hdumpable
  rw [Obj.jsonForm_dict, dumpable_dict_iff] at hagain
  rw [applyMeta] at happly ⊢
  cases hnode : live.get? nodeId with
  | none =>
      rw [hnode] at happly
      cases happly
  | some node =>
      obtain ⟨node', hread, hreads⟩ := h.exists_read hnode
      rw [hnode] at happly
      rw [hread]
      refine setMeta_reads h hreads (hreads.tracks.foldl_set patch.nodupKeys hstr
        (Obj.jsonFormDict patch).nodupKeys (fun t => ?_) fun e he => ⟨?_, (hagain e he).2⟩) happly
      · change Option.Rel Follows (patch.get? (.str t)) ((Obj.jsonFormDict patch).get? (.str t))
        rw [Obj.get?_jsonFormDict hstr]
        cases patch.get? (.str t) with
        | none => exact .none
        | some value => exact .some (follows_jsonForm value)
      · rw [Obj.str_of_mem_read e he, Key.isStr]

theorem putLine_ok_iff {node : ObjectNode} {line : Line} :
    putLine node = .ok line ↔
      ∃ record, node.record = .ok record ∧ record.utf8 = true ∧ line = .put record := by
  rw [putLine, bind_ok_iff]
  refine exists_congr fun record => and_congr_right fun _ => ?_
  cases record.utf8 <;> simp [eq_comm]

theorem applyPut_reads {live read live' : Nodes} (h : NodesRead live read) {node : ObjectNode}
    (hwritable : Writable live node)
    (happly : applyPut H digest live node = .ok (some live')) :
    ∃ read', applyPut H digest read node.jsonForm = .ok (some read') ∧
      NodesRead live' read' := by
  obtain ⟨u, hvalid, hrest⟩ := bind_ok_iff.mp happly
  obtain ⟨hline, hmatch⟩ := hwritable
  have hparent : (node.jsonForm.parent.filter fun p => ¬ read.contains p) =
      node.parent.filter fun p => ¬ live.contains p := by
    simp only [h.contains]
    rfl
  have hvalid' := ObjectNode.validateForPut_jsonForm hvalid
  simp only [applyPut, hvalid', hparent, Except.bind]
  split at hrest
  · cases hrest
  · cases hlive : live.get? node.id with
    | none =>
        rw [hlive] at hrest hmatch
        obtain ⟨line, hput⟩ := isOk_iff.mp hline
        obtain ⟨record, hrecord, -, -⟩ := putLine_ok_iff.mp hput
        obtain ⟨text, htext, -⟩ := map_ok_iff.mp hrecord
        cases hrest
        refine ⟨read.set node.id node.jsonForm, ?_,
          h.set (reads_jsonForm (Obj.dumps_ok htext).1 hmatch)⟩
        rw [show node.jsonForm.id = node.id from rfl, h.get?_none_iff.mp hlive]
    | some existing =>
        rw [hlive] at hrest hmatch
        obtain ⟨existing', hread, hreads⟩ := h.exists_read hlive
        rw [show node.jsonForm.id = node.id from rfl, hread]
        exact handleExisting_reads h hreads hmatch hrest

/-- The line of an operation that changed the nodes is read as the operation. -/
theorem put_reads {live read live' : Nodes} (h : NodesRead live read) {node : ObjectNode}
    (hbuilt : node.Built) (hwritable : Writable live node)
    (happly : applyPut H digest live node = .ok (some live')) (number : ℕ) :
    ∃ line, putLine node = .ok line ∧ ∃ read', replayLine H digest number read line = .ok read' ∧
      NodesRead live' read' := by
  obtain ⟨line, hput⟩ := isOk_iff.mp hwritable.1
  obtain ⟨record, hrecord, -, rfl⟩ := putLine_ok_iff.mp hput
  obtain ⟨u, hvalid, -⟩ := bind_ok_iff.mp happly
  obtain ⟨read', hread, hnodes⟩ := applyPut_reads h hwritable happly
  refine ⟨_, hput, read', ?_, hnodes⟩
  exact bind_ok_iff.mpr ⟨_, ObjectNode.fromRecord_record hbuilt hvalid hrecord,
    map_ok_iff.mpr ⟨_, hread, rfl⟩⟩

theorem updateMeta_reads {live read live' : Nodes} (h : NodesRead live read) {nodeId : String}
    {patch : Dict Key Obj} (hstr : ∀ e ∈ patch.entries, e.1.isStr = true)
    (hline : (metaLine nodeId patch).isOk = true)
    (happly : applyMeta live nodeId patch = .ok live') (number : ℕ) :
    ∃ line, metaLine nodeId patch = .ok line ∧
      ∃ read', replayLine H digest number read line = .ok read' ∧ NodesRead live' read' := by
  obtain ⟨line, hmeta⟩ := isOk_iff.mp hline
  obtain ⟨bytes, hbytes, rfl⟩ := map_ok_iff.mp hmeta
  obtain ⟨hdumpable, rfl, -⟩ := Obj.jsonBytes_ok_iff.mp hbytes
  obtain ⟨read', hread, hnodes⟩ := applyMeta_reads h hstr hdumpable happly
  refine ⟨_, hmeta, read', ?_, hnodes⟩
  have hloads : (Obj.dict patch.entries).dumped.loads = .dict (Obj.jsonFormDict patch).entries :=
    Obj.jsonForm_dict patch
  simp only [replayLine, hloads, Dict.ofList_entries, hread]

/-- Nodes that were changed, and a line that is read as the change, leave the log sound. -/
theorem sound_logged {s : State} {live' : Nodes} {line : Except PyError Line}
    (hs : Sound H digest s)
    (h : ∀ read, NodesRead s.nodes read → ∃ l, line = .ok l ∧
      ∃ read', replayLine H digest (1 + s.log.length) read l = .ok read' ∧
        NodesRead live' read') :
    Sound H digest (logged s live' line).1 ∧ (logged s live' line).2 = .ok () := by
  obtain ⟨read, hreopen, hread⟩ := hs
  obtain ⟨l, rfl, read', hline, hnodes⟩ := h read hread
  refine ⟨⟨read', ?_, hnodes⟩, rfl⟩
  rw [reopen] at hreopen
  simp only [logged, reopen]
  rw [Replay.replay_append, hreopen]
  exact bind_ok_iff.mpr ⟨read, rfl, bind_ok_iff.mpr ⟨read', hline, rfl⟩⟩

/-- A loggable operation keeps the log sound, and leaves everything as it was if it raises. -/
theorem sound_step {s : State} {op : Op} (hs : Sound H digest s) (hop : Loggable H digest s op) :
    Sound H digest (step H digest s op) ∧ RaisesCleanly H digest s op := by
  cases op with
  | put node built =>
      rw [RaisesCleanly, step, apply, put]
      rw [Loggable] at hop
      cases happly : applyPut H digest s.nodes node with
      | error e => exact ⟨hs, fun _ _ => rfl⟩
      | ok changed =>
          cases changed with
          | none => exact ⟨hs, fun _ _ => rfl⟩
          | some live' =>
              rw [happly] at hop
              obtain ⟨hsound, hok⟩ := sound_logged hs fun read hread =>
                put_reads hread built hop happly _
              exact ⟨hsound, fun e he => absurd (he.symm.trans hok) nofun⟩
  | updateMeta nodeId patch strings =>
      rw [RaisesCleanly, step, apply, updateMeta]
      rw [Loggable] at hop
      cases happly : applyMeta s.nodes nodeId patch with
      | error e => exact ⟨hs, fun _ _ => rfl⟩
      | ok live' =>
          rw [happly] at hop
          obtain ⟨hsound, hok⟩ := @sound_logged H digest _ _ _ hs fun read hread =>
            updateMeta_reads hread strings hop happly _
          exact ⟨hsound, fun e he => absurd (he.symm.trans hok) nofun⟩

theorem sound_empty : Sound H digest State.empty := by
  refine ⟨∅, rfl, rfl, fun {id a b} ha _ => ?_⟩
  cases ha

theorem reopens_of_sound {s : State} (h : Sound H digest s) : Reopens H digest s := by
  obtain ⟨read, hreopen, hread⟩ := h
  refine ⟨read, hreopen, hread.keys, fun {id a b} ha hb => ?_, hread.children⟩
  obtain ⟨hfields, htracks⟩ := hread.nodes ha hb
  refine ⟨hfields, htracks.strings, fun t => ?_⟩
  have hsame := htracks.same t
  revert hsame
  cases lastText a.metadata.entries t <;> cases b.metadata.get? (.str t) <;> intro hsame
  · rfl
  · cases hsame
  · cases hsame
  · cases hsame with
    | some hfollows => exact congrArg some hfollows.1.symm

/-- In a run of loggable operations the log is the state after every one of them, and those
that raise change nothing. -/
theorem log_is_state (H : Hashing) (digest : Codes → String) (ops : List Op)
    (hops : Machine.Along (step H digest) (Loggable H digest) State.empty ops) :
    Reopens H digest (Machine.run (step H digest) State.empty ops) ∧
      Machine.Along (step H digest) (RaisesCleanly H digest) State.empty ops := by
  constructor
  · exact reopens_of_sound (Machine.invariant_run (Sound H digest)
      (fun s op hs hop => (sound_step hs hop).1) sound_empty hops)
  · exact Machine.along_of_invariant (Sound H digest) (fun s op hs hop => (sound_step hs hop).1)
      (fun s op hs hop => (sound_step hs hop).2) sound_empty hops

end Steps

def sampleRoot : ObjectNode :=
  ⟨Hashing.plain.nodeId .root none 0 (.dict [("run", .str "hashrope")]), none, .root, 0,
    .dict [("run", .str "hashrope")], none, none, ∅⟩

theorem built_sampleRoot : sampleRoot.Built := ⟨by decide +kernel, rfl⟩

/-- The root with a patch of one string. -/
def labelled (label : Codes) : List Op :=
  [.put sampleRoot built_sampleRoot,
    .updateMeta sampleRoot.id (Dict.ofList [(.str (codes "label"), .str label)])
      (by simp [Dict.ofList, Dict.set, Assoc.upsert, Key.isStr])]

theorem log_is_state_labelled :
    Reopens Hashing.plain (fun _ => "digest")
        (Machine.run (step Hashing.plain fun _ => "digest") State.empty
          (labelled (codes "kept"))) ∧
      Machine.Along (step Hashing.plain fun _ => "digest")
        (RaisesCleanly Hashing.plain fun _ => "digest") State.empty (labelled (codes "kept")) :=
  log_is_state Hashing.plain (fun _ => "digest") (labelled (codes "kept")) (by decide +kernel)

/-- A lone surrogate is in memory after `update_meta` raised, and not in the log. -/
theorem surrogate_kept_in_memory :
    ¬ ∀ ops : List Op,
      Reopens Hashing.plain (fun _ => "digest")
          (Machine.run (step Hashing.plain fun _ => "digest") State.empty ops) ∧
        Machine.Along (step Hashing.plain fun _ => "digest")
          (RaisesCleanly Hashing.plain fun _ => "digest") State.empty ops := by
  intro h
  have hclean := (h (labelled [0xD800])).2.2.1 .unicodeEncodeError (by decide +kernel)
  revert hclean
  decide +kernel

end Pollard.Stores.HashRope
