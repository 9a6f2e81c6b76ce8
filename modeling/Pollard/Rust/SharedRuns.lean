import Pollard.Rust.KeyValue
import Pollard.Rust.MemorySteps
import Pollard.Rust.Replaying
import Pollard.Lib.Machine

/-!
# Runs that share a key-value store in Rust

Any number of runs in different processes on one `TransactionalKvStore`.  A transaction is one
step.  A call that fails removes the node it would have published, and what other runs have
published stays exactly when no such node was there.
-/

namespace Pollard.Rust

open Lib Fallible

/-! ## The runs -/

/-- A node as `serde_json` holds its values. -/
abbrev HeldNode := { node : Node // node.WellFormed }

/-- The keys of metadata that a run patches. -/
inductive PatchKey where
  | avoided
  | pruned
  | registryDigest
  | windowEvents
deriving DecidableEq

def PatchKey.text : PatchKey → String
  | avoided => "avoided"
  | pruned => "pruned"
  | registryDigest => "registry_digest"
  | windowEvents => "window_events"

/-- What a run knows of a call it has dispatched: `duplicate` is whether the store had the node
before. -/
structure PendingDispatch where
  pending : HeldNode
  duplicate : Bool

/-- The store, the call each run has dispatched, and the nodes whose `put` or `finalize`
returned. -/
structure Sharing where
  store : KvNodes
  dispatches : Dict ℕ PendingDispatch
  published : List HeldNode

/-- What completes a pending node. -/
structure Completion where
  result : Option Json
  resultText : Option String
  resultDigest : Option String
  metadata : Json

/-- The node of a call with its outcome. -/
def Completion.node (completion : Completion) (pending : Node) : Node :=
  { pending with
    result := completion.result
    resultText := completion.resultText
    resultDigest := completion.resultDigest
    metadata := completion.metadata }

/-- A completion as `serde_json` holds its values. -/
abbrev HeldCompletion := { completion : Completion //
  completion.metadata.distinct = true ∧
    ∀ result, completion.result = some result → result.distinct = true }

def HeldCompletion.node (completion : HeldCompletion) (pending : HeldNode) : HeldNode :=
  ⟨completion.1.node pending.1, pending.2.payload, completion.2.1, completion.2.2⟩

/-- A value as `serde_json` holds it. -/
abbrev HeldJson := { value : Json // value.distinct = true }

/-- The step of one run. -/
inductive Move where
  /-- `structural`: a root, a note, a refusal, an observation. -/
  | structural (node : HeldNode)
  /-- `update_meta` -/
  | patch (id : String) (key : PatchKey) (value : HeldJson)
  /-- `prepare_call_metered`, which looks whether the store has the node.  Staging is a no-op. -/
  | prepare (pending : HeldNode)
  /-- `finish_call`: the callback has returned this. -/
  | finish (completion : HeldCompletion)
  /-- `discard_pending`: the callback has returned a plain error. -/
  | discard
  /-- `fail_pending`, or the drop of a dispatch: the outcome is unknown, or the call was
  cancelled. -/
  | fail (completion : HeldCompletion)
  /-- The call ends without a write. -/
  | leave

namespace Sharing

variable (lib : Library)

def start : Sharing := ⟨.empty, ∅, []⟩

/-- `put` and `finalize`, which are one; an error leaves the store. -/
def put (s : Sharing) (node : HeldNode) : Sharing :=
  match s.store.put lib node.1 with
  | .ok store => { s with store, published := node :: s.published }
  | .error _ => s

/-- A put that ends the call, if it returns. -/
def conclude (s : Sharing) (run : ℕ) (node : HeldNode) : Sharing :=
  match s.store.put lib node.1 with
  | .ok store =>
      { s with store, published := node :: s.published, dispatches := s.dispatches.erase run }
  | .error _ => s

/-- One step of a run. -/
def move (s : Sharing) (run : ℕ) : Move → Sharing
  | .structural node => s.put lib node
  | .patch id key value =>
      match s.store.updateMeta lib id (.object [(key.text, value.1)]) with
      | .ok store => { s with store }
      | .error _ => s
  | .prepare pending =>
      { s with
        dispatches := s.dispatches.set run
          ⟨pending, s.store.documents.contains pending.1.id⟩ }
  | .finish completion =>
      match s.dispatches.get? run with
      | some dispatch => s.conclude lib run (completion.node dispatch.pending)
      | none => s
  | .discard =>
      match s.dispatches.get? run with
      | some dispatch =>
          { s with
            store :=
              if dispatch.duplicate then s.store
              else s.store.dropNodes [dispatch.pending.1.id]
            dispatches := s.dispatches.erase run }
      | none => s
  | .fail completion =>
      match s.dispatches.get? run with
      | some dispatch =>
          if dispatch.duplicate then { s with dispatches := s.dispatches.erase run }
          else s.conclude lib run (completion.node dispatch.pending)
      | none => s
  | .leave => { s with dispatches := s.dispatches.erase run }

def step (s : Sharing) (i : ℕ × Move) : Sharing := s.move lib i.1 i.2

end Sharing

/-! ## Recorded conflicts -/

/-- Metadata lists a conflict with this digest. -/
def Json.Lists (metadata : Json) (digest : Option String) : Prop :=
  ∃ conflicts, metadata.get? "result_conflicts" = some (.array conflicts) ∧
    ∃ conflict ∈ conflicts, conflict.get? "result_digest" = some (.ofOption digest)

theorem Json.Lists.spelled {lib : Library} {metadata read : Json} {digest : Option String}
    (h : metadata.Lists digest) (hdistinct : metadata.distinct = true)
    (hspelled : metadata.spelled lib = .ok read) : read.Lists digest := by
  obtain ⟨conflicts, hget, conflict, hmem, hdigest⟩ := h
  obtain ⟨found, hfound, hread⟩ := get?_of_spelled hdistinct hspelled hget
  rw [Json.spelled, spelledItems_eq_map] at hfound
  obtain ⟨others, hothers, hfound⟩ := bind_ok_iff.mp hfound
  cases hfound
  rw [mapM_ok_iff, List.forall₂_map_left_iff] at hothers
  obtain ⟨other, hother, hsame⟩ := exists_of_forall₂ hothers hmem
  have hitems := distinctItems_iff.mp (distinct_of_get? hdistinct hget) conflict hmem
  obtain ⟨own, hown, hget'⟩ := get?_of_spelled hitems hsame hdigest
  refine ⟨others, hread, other, hother, hget'.trans ?_⟩
  cases digest <;> cases hown <;> rfl

/-! ## Documents -/

/-- A document under its id, as the store writes it. -/
structure Record.Sound (id : String) (record : Record) : Prop where
  id : record.id = id
  payload : record.payload.wellFormed = true
  respelled : record.payload.respelled = record.payload
  metadata : record.metadata.distinct = true

/-- A later document of the same node: the identity and the result stay, and so do the recorded
conflicts. -/
structure Record.Extends (old new : Record) : Prop where
  parent : new.parent = old.parent
  kind : new.kind = old.kind
  attempt : new.attempt = old.attempt
  payload : new.payload = old.payload
  result : new.result = old.result
  resultDigest : new.resultDigest = old.resultDigest
  lists : ∀ digest, old.metadata.Lists digest → new.metadata.Lists digest

theorem Record.Extends.refl (record : Record) : record.Extends record :=
  ⟨rfl, rfl, rfl, rfl, rfl, rfl, fun _ h => h⟩

/-- A document holds the identity of a node, and its result or the conflict with it. -/
structure Record.Holds (record : Record) (node : Node) : Prop where
  parent : record.parent = node.parent
  kind : record.kind = node.kind
  attempt : record.attempt = node.attempt
  payload : record.payload = node.payload.respelled
  result : node.resultText = none ∨ record.result = node.resultText ∨
    record.metadata.Lists node.resultDigest

theorem Record.Holds.extends {old new : Record} {node : Node} (h : old.Holds node)
    (hnew : old.Extends new) : new.Holds node where
  parent := hnew.parent.trans h.parent
  kind := hnew.kind.trans h.kind
  attempt := hnew.attempt.trans h.attempt
  payload := hnew.payload.trans h.payload
  result := h.result.imp_right fun h => h.imp hnew.result.trans (hnew.lists _)

namespace KvNodes

variable {lib : Library} {s after : KvNodes}

def Sound (s : KvNodes) : Prop :=
  ∀ id record, s.documents.get? id = some record → record.Sound id

/-- Every document is still there, or a later one of its node. -/
def Extends (s after : KvNodes) : Prop :=
  ∀ id record, s.documents.get? id = some record →
    ∃ later, after.documents.get? id = some later ∧ record.Extends later

theorem Extends.refl (s : KvNodes) : s.Extends s :=
  fun _ record h => ⟨record, h, .refl record⟩

/-- The store has a node, and its parent. -/
def Holds (s : KvNodes) (node : Node) : Prop :=
  (∃ record, s.documents.get? node.id = some record ∧ record.Holds node) ∧
    ∀ parent, node.parent = some parent → s.documents.contains parent = true

theorem Extends.contains (h : s.Extends after) {id : String}
    (hid : s.documents.contains id = true) : after.documents.contains id = true := by
  obtain ⟨record, hrecord⟩ := Option.isSome_iff_exists.mp hid
  obtain ⟨later, hlater, -⟩ := h id record hrecord
  rw [Dict.contains, hlater]
  rfl

theorem Holds.extends {node : Node} (h : s.Holds node) (hafter : s.Extends after) :
    after.Holds node := by
  obtain ⟨⟨record, hrecord, hholds⟩, hparent⟩ := h
  obtain ⟨later, hlater, hextends⟩ := hafter node.id record hrecord
  exact ⟨⟨later, hlater, hholds.extends hextends⟩, fun parent hp =>
    hafter.contains (hparent parent hp)⟩

theorem write_ok {node : Node} (h : s.write lib node = .ok after) :
    ∃ metadata, node.metadata.spelled lib = .ok metadata ∧
      (∃ octets, node.payload.write = .ok octets) ∧
      after.documents = s.documents.set node.id
        ⟨node.id, node.parent, node.kind, node.attempt, node.payload.respelled,
          node.resultText, node.resultDigest, metadata⟩ := by
  obtain ⟨record, hrecord, h⟩ := bind_ok_iff.mp h
  obtain ⟨octets, hwritten, hrecord⟩ := bind_ok_iff.mp hrecord
  obtain ⟨metadata, hmetadata, hrecord⟩ := bind_ok_iff.mp hrecord
  cases hrecord
  cases h
  exact ⟨metadata, hmetadata, ⟨octets, Json.canonicalBytes_ok_iff.mp hwritten⟩, rfl⟩

theorem contains_set {id other : String} {record : Record}
    (h : Dict.contains (s.documents.set id record) other = true) :
    s.documents.contains other = true ∨ other = id := by
  rw [Dict.contains, Dict.get?_set] at h
  split at h
  · next heq => exact .inr heq.symm
  · exact .inl h

/-- A document is written with the identity it was read with. -/
theorem sound_set {id : String} {record : Record} (h : s.Sound) (hrecord : record.Sound id) :
    Sound ⟨s.documents.set id record⟩ := by
  intro other found hfound
  change (s.documents.set id record).get? other = _ at hfound
  rw [Dict.get?_set] at hfound
  split at hfound
  · next heq =>
      cases hfound
      exact heq ▸ hrecord
  · exact h other found hfound

theorem extends_set_fresh {id : String} (record : Record)
    (hfresh : s.documents.get? id = none) : s.Extends ⟨s.documents.set id record⟩ := by
  intro other found hfound
  refine ⟨found, ?_, .refl found⟩
  change (s.documents.set id record).get? other = _
  rw [Dict.get?_set_of_ne, hfound]
  rintro rfl
  rw [hfresh] at hfound
  cases hfound

theorem extends_set {id : String} {old record : Record} (hold : s.documents.get? id = some old)
    (hextends : old.Extends record) : s.Extends ⟨s.documents.set id record⟩ := by
  intro other found hfound
  change ∃ later, (s.documents.set id record).get? other = _ ∧ _
  rw [Dict.get?_set]
  split
  · next heq =>
      subst heq
      rw [hold] at hfound
      cases hfound
      exact ⟨record, rfl, hextends⟩
  · exact ⟨found, hfound, .refl found⟩

/-- What is read of a document. -/
theorem nodeFromText_ok {record : Record} {node : Node}
    (h : nodeFromText lib record = .ok node) :
    node.id = record.id ∧ node.parent = record.parent ∧ node.kind = record.kind ∧
      node.attempt = record.attempt ∧ node.payload = record.payload ∧
      node.resultText = record.result ∧ node.resultDigest = record.resultDigest ∧
      node.metadata = record.metadata ∧ node.metadata.isObject = true := by
  obtain ⟨result, -, h⟩ := bind_ok_iff.mp (mapError_ok h)
  obtain ⟨_, -, h⟩ := bind_ok_iff.mp h
  obtain ⟨_, hshape, h⟩ := bind_ok_iff.mp h
  cases h
  exact ⟨rfl, rfl, rfl, rfl, rfl, rfl, rfl, rfl, (Node.shaped_of_validateShape lib hshape).metadata⟩

/-- A node that was read is written back with other metadata. -/
theorem rewrite_ok {id : String} {record : Record} {existing : Node} {metadata : Json}
    (h : s.Sound) (hrecord : s.documents.get? id = some record)
    (hread : nodeFromText lib record = .ok existing) (hdistinct : metadata.distinct = true)
    (hlists : ∀ digest, existing.metadata.Lists digest → metadata.Lists digest)
    (hwrite : s.write lib { existing with metadata } = .ok after) :
    (after.Sound ∧ s.Extends after ∧ ∀ other, after.documents.contains other = true →
      s.documents.contains other = true) ∧ ∃ later, after.documents.get? id = some later ∧
        record.Extends later ∧
          ∀ digest, metadata.Lists digest → later.metadata.Lists digest := by
  obtain ⟨hid, hparent, hkind, hattempt, hpayload, hresult, hdigest, hmeta, -⟩ :=
    nodeFromText_ok hread
  obtain ⟨spelled, hspelled, -, hafter⟩ := write_ok hwrite
  have hsound := h id record hrecord
  change after.documents = s.documents.set existing.id ⟨existing.id, existing.parent,
    existing.kind, existing.attempt, existing.payload.respelled, existing.resultText,
    existing.resultDigest, spelled⟩ at hafter
  rw [hid, hsound.id, hparent, hkind, hattempt, hpayload, hsound.respelled, hresult,
    hdigest] at hafter
  have hall : ∀ digest, metadata.Lists digest → spelled.Lists digest :=
    fun digest hd => hd.spelled hdistinct hspelled
  have hextends : record.Extends ⟨id, record.parent, record.kind, record.attempt,
      record.payload, record.result, record.resultDigest, spelled⟩ :=
    ⟨rfl, rfl, rfl, rfl, rfl, rfl, fun digest hd => hall digest (hlists digest (hmeta ▸ hd))⟩
  obtain ⟨documents⟩ := after
  change documents = _ at hafter
  subst hafter
  refine ⟨⟨sound_set h ⟨rfl, hsound.payload, hsound.respelled,
    Json.distinct_of_spelled hdistinct hspelled⟩, extends_set hrecord hextends,
    fun other hother => (contains_set hother).elim (fun h => h) fun heq => ?_⟩, _,
    Dict.get?_set_self _ _ _, hextends, hall⟩
  rw [heq, Dict.contains, hrecord]
  rfl

theorem conflicts_listed {node : Node} {conflicts : List Json} {digest : Option String}
    (h : node.conflicts = some conflicts) (hlists : node.metadata.Lists digest) :
    ∃ conflict ∈ conflicts, conflict.get? "result_digest" = some (.ofOption digest) := by
  obtain ⟨others, hget, hlisted⟩ := hlists
  rw [Node.conflicts, hget] at h
  cases h
  exact hlisted

/-- What a put that returns leaves. -/
theorem put_ok {node : Node} (h : s.Sound) (hnode : node.WellFormed)
    (hput : s.put lib node = .ok after) :
    (after.Sound ∧ s.Extends after ∧ ∀ other, after.documents.contains other = true →
      s.documents.contains other = true ∨ other = node.id) ∧ after.Holds node := by
  unfold KvNodes.put at hput
  obtain ⟨_, hvalid, hput⟩ := bind_ok_iff.mp hput
  obtain ⟨_, hparent, hput⟩ := bind_ok_iff.mp hput
  have hparent := Node.checkParent_ok_iff.mp hparent
  cases hfound : s.documents.get? node.id with
  | none =>
      rw [hfound] at hput
      obtain ⟨metadata, hmetadata, ⟨octets, hwritten⟩, hafter⟩ := write_ok hput
      have hidentity := (Json.write_eq_of_ok _ hnode.payload hwritten).1
      have hrespelled : node.payload.respelled.respelled = node.payload.respelled := by
        rw [Json.respelled, Json.toValue_respelled hnode.payload hidentity,
          Value.canonical_canonical, Json.respelled]
      obtain ⟨documents⟩ := after
      change documents = _ at hafter
      subst hafter
      have hextends : s.Extends ⟨s.documents.set node.id ⟨node.id, node.parent, node.kind,
          node.attempt, node.payload.respelled, node.resultText, node.resultDigest,
          metadata⟩⟩ := extends_set_fresh _ hfound
      exact ⟨⟨sound_set h ⟨rfl, Json.wellFormed_respelled hnode.payload hidentity, hrespelled,
        Json.distinct_of_spelled hnode.metadata hmetadata⟩, hextends, fun _ => contains_set⟩,
        ⟨_, Dict.get?_set_self _ _ _, rfl, rfl, rfl, rfl, .inr (.inl rfl)⟩,
        fun parent hp => hextends.contains (hparent parent hp)⟩
  | some record =>
      rw [hfound] at hput
      obtain ⟨existing, hread, hput⟩ := bind_ok_iff.mp hput
      obtain ⟨_, hsame, hput⟩ := bind_ok_iff.mp hput
      have hsame := of_decide_eq_true (ensure_ok_iff.mp hsame)
      obtain ⟨hid, hp, hkind, hattempt, hpayload, hresult, hdigest, hmeta, hobject⟩ :=
        nodeFromText_ok hread
      have hsound := h node.id record hfound
      have hidentity : record.parent = node.parent ∧ record.kind = node.kind ∧
          record.attempt = node.attempt ∧ record.payload = node.payload.respelled := by
        refine ⟨hp ▸ hsame.1, hkind ▸ hsame.2.1, hattempt ▸ hsame.2.2.1, ?_⟩
        rw [← hsound.respelled]
        exact Json.respelled_of_equal hsound.payload hnode.payload (hpayload ▸ hsame.2.2.2)
      obtain ⟨hparents, hkinds, hattempts, hpayloads⟩ := hidentity
      have hunchanged (hsettled : node.resultText = none ∨ record.result = node.resultText ∨
          record.metadata.Lists node.resultDigest) : s.Holds node :=
        ⟨⟨record, hfound, hparents, hkinds, hattempts, hpayloads, hsettled⟩, hparent⟩
      by_cases hdiffers : existing.differs node = true
      · rw [if_pos hdiffers] at hput
        cases hconflicts : existing.conflicts with
        | none =>
            rw [hconflicts] at hput
            cases hput
        | some conflicts =>
            simp only [hconflicts] at hput
            have hdistinct : existing.metadata.distinct = true := hmeta ▸ hsound.metadata
            have hitems := Node.distinct_conflicts hdistinct hconflicts
            split at hput
            · next hany =>
                cases hput
                refine ⟨⟨h, .refl s, fun _ => .inl⟩, hunchanged (.inr (.inr ?_))⟩
                obtain ⟨conflict, hmem, hequal⟩ := List.any_eq_true.mp hany
                have hat := Json.alikeAt_get? (hitems conflict hmem)
                  (Node.distinct_conflict hnode) hequal "result_digest"
                have hget : node.conflict.get? "result_digest" =
                    some (.ofOption node.resultDigest) := rfl
                rw [hget] at hat
                obtain ⟨found, hfound', hequal'⟩ := hat.exists_left
                have hdigests : found = .ofOption node.resultDigest := by
                  cases hd : node.resultDigest <;> rw [hd] at hequal' <;> cases found <;>
                    simp_all [Json.ofOption, Json.equalWith]
                rcases Node.asArray_eq_some hconflicts with hget' | ⟨-, rfl⟩
                · exact ⟨conflicts, hmeta ▸ hget', conflict, hmem, hdigests ▸ hfound'⟩
                · cases hmem
            · let metadata := existing.metadata.insert "result_conflicts"
                (.array (conflicts ++ [node.conflict]))
              have hget : metadata.get? "result_conflicts" =
                  some (.array (conflicts ++ [node.conflict])) := by
                rw [Json.get?_insert hobject, if_pos rfl]
              have harray : (Json.array (conflicts ++ [node.conflict])).distinct = true := by
                rw [Json.distinct, Json.distinctItems_iff]
                intro item hitem
                rcases List.mem_append.mp hitem with hitem | hitem
                · exact hitems item hitem
                · rw [List.mem_singleton.mp hitem]
                  exact Node.distinct_conflict hnode
              obtain ⟨⟨hafter, hextends, hids⟩, later, hlater, hgrown, hlists⟩ := rewrite_ok h hfound
                hread (Json.distinct_insert hdistinct harray "result_conflicts")
                (fun digest hd => by
                  obtain ⟨conflict, hmem, hlisted⟩ := conflicts_listed hconflicts hd
                  exact ⟨_, hget, conflict, List.mem_append_left _ hmem, hlisted⟩) hput
              refine ⟨⟨hafter, hextends, fun other hother => .inl (hids other hother)⟩,
                ⟨later, hlater, ?_⟩, fun parent hparent' =>
                  hextends.contains (hparent parent hparent')⟩
              exact ⟨hgrown.parent.trans hparents, hgrown.kind.trans hkinds,
                hgrown.attempt.trans hattempts, hgrown.payload.trans hpayloads,
                .inr (.inr (hlists _ ⟨_, hget, node.conflict,
                  List.mem_append_right _ List.mem_cons_self, rfl⟩))⟩
      · rw [if_neg hdiffers] at hput
        cases hput
        refine ⟨⟨h, .refl s, fun _ => .inl⟩, hunchanged ?_⟩
        rw [Node.differs, decide_eq_true_eq, not_and_or, not_not] at hdiffers
        rcases hdiffers with hnone | hequal
        · exact .inl (by simpa using hnone)
        · exact .inr (.inl (hresult ▸ hequal.symm))

theorem updateMeta_ok {id : String} {key : PatchKey} {value : HeldJson} (h : s.Sound)
    (hupdate : s.updateMeta lib id (.object [(key.text, value.1)]) = .ok after) :
    after.Sound ∧ s.Extends after ∧ ∀ other, after.documents.contains other = true →
      s.documents.contains other = true := by
  obtain ⟨node, hget, hupdate⟩ := bind_ok_iff.mp hupdate
  obtain ⟨_, -, hupdate⟩ := bind_ok_iff.mp hupdate
  obtain ⟨record, hrecord, hread⟩ := get_ok_iff.mp hget
  have hmeta := (nodeFromText_ok hread).2.2.2.2.2.2.2
  have hsound := h id record hrecord
  have hid : node.id = id := (nodeFromText_ok hread).1.trans hsound.id
  have hkey : key.text ≠ "result_conflicts" := by cases key <;> decide
  have hdistinct : (node.metadata.extend [(key.text, value.1)]).distinct = true :=
    Json.distinct_extend (hmeta.1 ▸ hsound.metadata) (by simpa using value.2)
  have hlists : ∀ digest, node.metadata.Lists digest →
      (node.metadata.extend [(key.text, value.1)]).Lists digest := by
    rintro digest ⟨conflicts, hconflicts, hlisted⟩
    refine ⟨conflicts, ?_, hlisted⟩
    rw [Json.get?_extend hmeta.2 (by simp [Assoc.keys]), Assoc.lookup, if_neg hkey]
    exact hconflicts
  have hwrite : s.write lib { node with metadata := node.metadata.extend [(key.text, value.1)] } =
      .ok after := by
    rw [← hid] at hupdate
    exact hupdate
  exact (rewrite_ok h hrecord hread hdistinct hlists hwrite).1

theorem get?_dropNodes (s : KvNodes) (id other : String) :
    (s.dropNodes [id]).documents.get? other =
      if other = id then none else s.documents.get? other := by
  change (s.documents.filter fun e => e.1 ≠ id).get? other = _
  rw [Dict.get?_filter]
  by_cases heq : other = id
  · rw [if_pos heq]
    cases s.documents.get? other <;> simp [heq]
  · rw [if_neg heq]
    cases s.documents.get? other <;> simp [heq]

end KvNodes

/-! ## Whole runs -/

namespace Sharing

variable {lib : Library} {s : Sharing}

/-- Every node that is published stays in the store, with its parent. -/
def Evidence (s : Sharing) : Prop := ∀ node ∈ s.published, s.store.Holds node.1

/-- A call that fails finds nothing to remove. -/
def Unpublished (s : Sharing) (i : ℕ × Move) : Prop :=
  match i.2 with
  | .discard => ∀ dispatch ∈ s.dispatches.get? i.1, dispatch.duplicate = false →
      s.store.documents.contains dispatch.pending.1.id = false
  | _ => True

/-- What holds of the store whatever the runs do: a document is one of a published node. -/
structure Kept (s : Sharing) : Prop where
  sound : s.store.Sound
  published : ∀ id, s.store.documents.contains id = true → ∃ node ∈ s.published, node.1.id = id

theorem Kept.start : Kept start := ⟨fun _ _ h => (by cases h), fun _ h => (by cases h)⟩

/-- What a step that removes nothing does. -/
structure Grows (s after : Sharing) : Prop where
  sound : after.store.Sound
  extends_ : s.store.Extends after.store
  ids : ∀ id, after.store.documents.contains id = true →
    s.store.documents.contains id = true ∨ ∃ node ∈ after.published, node.1.id = id
  new : ∀ node ∈ after.published, node ∈ s.published ∨ after.store.Holds node.1
  old : ∀ node ∈ s.published, node ∈ after.published

theorem Grows.kept {after : Sharing} (hgrows : s.Grows after) (h : s.Kept) : after.Kept := by
  refine ⟨hgrows.sound, fun id hid => ?_⟩
  rcases hgrows.ids id hid with hold | hnew
  · obtain ⟨node, hnode, heq⟩ := h.published id hold
    exact ⟨node, hgrows.old node hnode, heq⟩
  · exact hnew

theorem Grows.evidence {after : Sharing} (hgrows : s.Grows after) (h : s.Evidence) :
    after.Evidence := fun node hnode =>
  (hgrows.new node hnode).elim (fun hold => (h node hold).extends hgrows.extends_) fun h => h

theorem Kept.stays (h : s.Kept) (dispatches : Dict ℕ PendingDispatch) :
    s.Grows { s with dispatches } :=
  ⟨h.sound, .refl _, fun _ => .inl, fun _ => .inl, fun _ h => h⟩

theorem Kept.puts (h : s.Kept) {node : HeldNode} {store : KvNodes}
    (hput : s.store.put lib node.1 = .ok store) (dispatches : Dict ℕ PendingDispatch) :
    s.Grows { store, dispatches, published := node :: s.published } := by
  obtain ⟨⟨hsound, hextends, hids⟩, hholds⟩ := KvNodes.put_ok h.sound node.2 hput
  refine ⟨hsound, hextends, fun id hid => (hids id hid).imp_right fun heq =>
    ⟨node, List.mem_cons_self, heq.symm⟩, fun other hother => ?_,
    fun _ => List.mem_cons_of_mem _⟩
  rcases List.mem_cons.mp hother with rfl | hother
  · exact .inr hholds
  · exact .inl hother

theorem Kept.concludes (h : s.Kept) (run : ℕ) (node : HeldNode) :
    s.Grows (s.conclude lib run node) := by
  rw [conclude]
  split
  · next store hput => exact h.puts hput _
  · exact h.stays _

/-- A step removes nothing, or a failed call drops its node. -/
theorem Kept.step (lib : Library) (h : s.Kept) (i : ℕ × Move) : s.Grows (s.step lib i) ∨
    ∃ dispatch, s.dispatches.get? i.1 = some dispatch ∧ i.2 = .discard ∧
      dispatch.duplicate = false ∧
        s.step lib i = { s with
          store := s.store.dropNodes [dispatch.pending.1.id]
          dispatches := s.dispatches.erase i.1 } := by
  obtain ⟨run, move⟩ := i
  unfold Sharing.step Sharing.move
  cases move with
  | structural node =>
      left
      dsimp only
      rw [put]
      split
      · next store hput => exact h.puts hput _
      · exact h.stays _
  | patch id key value =>
      left
      dsimp only
      split
      · next store hupdate =>
          obtain ⟨hsound, hextends, hids⟩ := KvNodes.updateMeta_ok h.sound hupdate
          exact ⟨hsound, hextends, fun id hid => .inl (hids id hid), fun _ => .inl, fun _ h => h⟩
      · exact h.stays _
  | prepare pending => exact .inl (h.stays _)
  | finish completion =>
      left
      dsimp only
      split
      · exact h.concludes _ _
      · exact h.stays _
  | discard =>
      dsimp only
      cases hdispatch : s.dispatches.get? run with
      | none => exact .inl (h.stays _)
      | some dispatch =>
          cases hduplicate : dispatch.duplicate with
          | true =>
              left
              simp only [hduplicate, if_true]
              exact h.stays _
          | false =>
              refine .inr ⟨dispatch, rfl, rfl, hduplicate, ?_⟩
              simp only [hduplicate, Bool.false_eq_true, if_false]
  | fail completion =>
      left
      dsimp only
      split
      · split
        · exact h.stays _
        · exact h.concludes _ _
      · exact h.stays _
  | leave => exact .inl (h.stays _)

theorem contains_dropNodes {store : KvNodes} {id other : String}
    (h : (store.dropNodes [id]).documents.contains other = true) :
    store.documents.contains other = true := by
  rw [Dict.contains, KvNodes.get?_dropNodes] at h
  split at h
  · cases h
  · exact h

theorem Kept.next (h : s.Kept) (i : ℕ × Move) : (s.step lib i).Kept := by
  rcases h.step lib i with hgrows | ⟨dispatch, -, -, -, heq⟩
  · exact hgrows.kept h
  · rw [heq]
    refine ⟨fun id record hrecord => ?_, fun id hid => h.published id (contains_dropNodes hid)⟩
    rw [KvNodes.get?_dropNodes] at hrecord
    split at hrecord
    · cases hrecord
    · exact h.sound id record hrecord

/-- Dropping an id that is not there drops nothing. -/
theorem grows_of_absent (h : s.Kept) {id : String}
    (habsent : s.store.documents.contains id = false) (dispatches : Dict ℕ PendingDispatch) :
    s.Grows { s with store := s.store.dropNodes [id], dispatches } := by
  refine ⟨fun other record hrecord => ?_, fun other record hrecord => ⟨record, ?_, .refl record⟩,
    fun other hother => .inl (contains_dropNodes hother), fun _ => .inl, fun _ h => h⟩
  · rw [KvNodes.get?_dropNodes] at hrecord
    split at hrecord
    · cases hrecord
    · exact h.sound other record hrecord
  · rw [KvNodes.get?_dropNodes, if_neg]
    · exact hrecord
    · rintro rfl
      rw [Dict.contains, hrecord] at habsent
      cases habsent

theorem Kept.evidence_step (h : s.Kept) (hevidence : s.Evidence) {i : ℕ × Move}
    (hquiet : s.Unpublished i) : (s.step lib i).Evidence := by
  rcases h.step lib i with hgrows | ⟨dispatch, hdispatch, hmove, hduplicate, heq⟩
  · exact hgrows.evidence hevidence
  · rw [heq]
    rw [Unpublished, hmove] at hquiet
    exact (grows_of_absent h (hquiet dispatch hdispatch hduplicate) _).evidence hevidence

/-- A call that fails and removes a node takes away what was published. -/
theorem Kept.unpublished_of_evidence (h : s.Kept) {i : ℕ × Move}
    (hevidence : (s.step lib i).Evidence) : s.Unpublished i := by
  rw [Unpublished]
  split
  · next hmove =>
      intro dispatch hdispatch hduplicate
      by_contra hcontains
      rw [Bool.not_eq_false] at hcontains
      obtain ⟨node, hnode, hid⟩ := h.published _ hcontains
      have hstep : s.step lib i = { s with
          store := s.store.dropNodes [dispatch.pending.1.id]
          dispatches := s.dispatches.erase i.1 } := by
        obtain ⟨run, move⟩ := i
        cases hmove
        unfold Sharing.step Sharing.move
        dsimp only
        rw [Option.mem_def.mp hdispatch]
        simp only [hduplicate, Bool.false_eq_true, if_false]
      rw [hstep] at hevidence
      obtain ⟨⟨record, hrecord, -⟩, -⟩ := hevidence node hnode
      rw [hid, KvNodes.get?_dropNodes, if_pos rfl] at hrecord
      cases hrecord
  · trivial

/-- Every published node stays in the store with its identity, its result and its parent, in
every state of a run, exactly when no call that fails finds its node in the store. -/
theorem evidence_kept_iff (lib : Library) (inputs : List (ℕ × Move)) :
    (∀ count, (Machine.run (step lib) start (inputs.take count)).Evidence) ↔
      Machine.Along (step lib) Unpublished start inputs := by
  have hall : ∀ (inputs : List (ℕ × Move)) (s : Sharing), s.Kept → s.Evidence →
      ((∀ count, (Machine.run (step lib) s (inputs.take count)).Evidence) ↔
        Machine.Along (step lib) Unpublished s inputs) := by
    intro inputs
    induction inputs with
    | nil => exact fun s _ hevidence => by simpa [Machine.Along] using hevidence
    | cons i inputs ih =>
        intro s hkept hevidence
        constructor
        · intro h
          have hfirst : (s.step lib i).Evidence := by simpa using h 1
          refine ⟨hkept.unpublished_of_evidence hfirst, ?_⟩
          exact (ih _ (hkept.next i) hfirst).mp fun count => by simpa using h (count + 1)
        · rintro ⟨hquiet, hrest⟩ count
          cases count with
          | zero => exact hevidence
          | succ count =>
              rw [List.take_succ_cons, Machine.run_cons]
              exact (ih _ (hkept.next i) (hkept.evidence_step hevidence hquiet)).mpr hrest count
  exact hall inputs start .start fun _ h => (by cases h)

/-! ## A call that two runs make at once -/

/-- A library that hashes octets by their length and reads every result as null. -/
def lengthLibrary : Library :=
  ⟨fun octets => String.ofList (List.replicate 64 (if octets.length < 80 then 'a' else 'b')),
    fun _ => some .null, fun _ => true, fun _ => none, fun _ => ""⟩

def sharedRoot : HeldNode :=
  ⟨⟨lengthLibrary.sha [], none, .root, 0, .object [], none, none, none, .object []⟩,
    by decide, by decide, fun _ h => (by cases h)⟩

def sharedCall : HeldNode :=
  ⟨⟨lengthLibrary.sha (List.replicate 80 0), some sharedRoot.1.id, .toolCall, 0, .object [], none,
    none, none, .object []⟩, by decide, by decide, fun _ h => (by cases h)⟩

def nullCompletion : HeldCompletion :=
  ⟨⟨some .null, some "null", some (Json.resultDigestFromText lengthLibrary "null"), .object []⟩,
    by decide, fun _ h => (by cases h; decide)⟩

/-- Both runs find that the store has no such call; the second one's callback returns, and then the
first one's fails. -/
def sharedCallRuns : List (ℕ × Move) :=
  [(0, .structural sharedRoot), (0, .prepare sharedCall), (1, .structural sharedRoot),
    (1, .prepare sharedCall), (1, .finish nullCompletion), (0, .discard)]

theorem failed_call_removes_published :
    (Machine.run (step lengthLibrary) start (sharedCallRuns.take 5)).store.documents.contains
        sharedCall.1.id = true ∧
      (∃ node ∈ (Machine.run (step lengthLibrary) start sharedCallRuns).published,
        node.1.id = sharedCall.1.id) ∧
      ¬ (Machine.run (step lengthLibrary) start sharedCallRuns).Evidence := by
  have hruns : (Machine.run (step lengthLibrary) start
        (sharedCallRuns.take 5)).store.documents.contains sharedCall.1.id = true ∧
      ((Machine.run (step lengthLibrary) start sharedCallRuns).published.any
        fun node => node.1.id = sharedCall.1.id) = true ∧
      (Machine.run (step lengthLibrary) start sharedCallRuns).store.documents.contains
        sharedCall.1.id = false := by decide +kernel
  obtain ⟨hbefore, hpublished, hgone⟩ := hruns
  obtain ⟨node, hnode, hid⟩ := List.any_eq_true.mp hpublished
  have hid := of_decide_eq_true hid
  refine ⟨hbefore, ⟨node, hnode, hid⟩, fun hevidence => ?_⟩
  obtain ⟨⟨record, hrecord, -⟩, -⟩ := hevidence node hnode
  rw [hid] at hrecord
  rw [Dict.contains, hrecord] at hgone
  cases hgone

end Sharing

end Pollard.Rust
