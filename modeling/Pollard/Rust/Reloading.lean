import Pollard.Lib.Machine
import Pollard.Rust.Rewriting

/-!
# Hash rope stores and their logs

A log is read back as the nodes of the store that are not staged, as long as no node is logged
while its parent is staged and every text that is logged is read back as it was.
-/

namespace Pollard.Rust

open Lib Fallible

namespace HashRopeStore

open Pollard.Rust.MemoryStore (Mirrors Puts exists?_iff put_ok_iff updateMeta_ok_iff)

/-! ## Operations -/

inductive Op where
  | put (node : Node)
  | updateMeta (id : String) (patch : Json)
  | applyBatch (nodes : List Node) (patches : List (String × Json))
  | stagePending (node : Node)
  | finalize (node : Node)
  | dropNodes (ids : List String)
  | compact

/-- The values of an operation are ones `serde_json` can hold. -/
def Op.WellFormed : Op → Prop
  | .put node => node.WellFormed
  | .updateMeta _ patch => patch.distinct = true
  | .applyBatch nodes patches =>
      (∀ node ∈ nodes, node.WellFormed) ∧ ∀ patch ∈ patches, patch.2.distinct = true
  | .stagePending node => node.WellFormed
  | .finalize node => node.WellFormed
  | .dropNodes _ => True
  | .compact => True

section Library

variable (lib : Library)

def perform (s : HashRopeStore) : Op → Except Error HashRopeStore
  | .put node => s.put lib node
  | .updateMeta id patch => s.updateMeta lib id patch
  | .applyBatch nodes patches => s.applyBatch lib nodes patches
  | .stagePending node => s.stagePending lib node
  | .finalize node => s.finalize lib node
  | .dropNodes ids => s.dropNodes lib ids
  | .compact => s.compact lib

/-- An operation that fails leaves the store as it was. -/
def step (s : HashRopeStore) (op : Op) : HashRopeStore :=
  match s.perform lib op with
  | .ok after => after
  | .error _ => s

/-- A valid node that is new can be logged, and so can the metadata of one that is logged. -/
def PutLoggable (s : HashRopeStore) (node : Node) : Prop :=
  node.validate lib = .ok () →
    (s.inner.nodes.get? node.id = none → node.Settled lib s.staged) ∧
    ((∀ existing, s.inner.nodes.get? node.id = some existing → existing.differs node = true) →
      node.metadata.TextReads lib)

def PatchLoggable (s : HashRopeStore) (id : String) (patch : Json) : Prop :=
  id ∉ s.staged → ∀ text, patch.spelled lib = .ok text → lib.reads (patchRecord id text) = true

/-- What an operation logs is not below a staged node, and its texts are read. -/
def Loggable (s : HashRopeStore) : Op → Prop
  | .put node => s.PutLoggable lib node
  | .updateMeta id patch => s.inner.exists? id = true → s.PatchLoggable lib id patch
  | .applyBatch nodes patches =>
      (∀ node ∈ nodes, s.PutLoggable lib node) ∧
        ∀ patch ∈ patches, s.PatchLoggable lib patch.1 patch.2
  | .stagePending _ => True
  | .finalize node =>
      node.validate lib = .ok () → node.id ∈ s.staged →
        node.state.getD "" ∈ ["completed", "failed"] →
          node.Settled lib s.staged ∧ node.metadata.TextReads lib
  | .dropNodes ids => ∀ {id node}, s.inner.nodes.get? id = some node → id ∉ s.staged → id ∉ ids →
      node.metadata.TextReads lib
  | .compact => s.AllRead lib

/-- A store whose log is read back. -/
structure Reloads (s : HashRopeStore) : Prop where
  inner : s.inner.WellFormed lib
  staged : ∀ id ∈ s.staged, s.inner.exists? id = true
  settled : s.AllSettled lib
  replayed : ∃ read, s.log.foldlM (replayLine lib) .empty = .ok read ∧
    Mirrors lib s.inner s.staged read

end Library

variable {lib : Library} {s after : HashRopeStore}

theorem reloads_new : new.Reloads lib where
  inner := MemoryStore.wellFormed_empty
  staged := nofun
  settled := nofun
  replayed := ⟨.empty, rfl, ⟨MemoryStore.wellFormed_empty, nofun⟩, nofun⟩

/-! ## put and update_meta -/

/-- The node of a put that changes the store can be logged, and so can what the store holds. -/
theorem Reloads.settled_of_puts (h : s.Reloads lib) {node : Node} (hwell : node.WellFormed)
    {inner : MemoryStore} (hvalid : node.validate lib = .ok ()) (hputs : s.inner.Puts node inner)
    (hlog : s.PutLoggable lib node) (hout : node.id ∉ s.staged) :
    inner = s.inner ∨ s.inner.revision ≠ inner.revision ∧
      (∀ parent, node.parent = some parent → parent ∉ s.staged) ∧
      lib.reads node.payload.respelled = true ∧ node.metadata.TextReads lib ∧
      ∃ own, inner.nodes = s.inner.nodes.set node.id own ∧ own.Settled lib s.staged := by
  obtain ⟨hsettled, hmeta⟩ := hlog hvalid
  cases hputs with
  | inserted hnew =>
      have hnode := hsettled hnew
      refine .inr ⟨(Nat.succ_ne_self _).symm, hnode.parent, hnode.read, hmeta ?_, node, rfl, hnode⟩
      intro existing hget
      rw [hnew] at hget
      cases hget
  | same => exact .inl rfl
  | conflict existing hget hsame hdiffers conflicts _ =>
      obtain ⟨hparent, -, -, hpayload⟩ := MemoryStore.sameIdentity_iff.mp hsame
      have hexisting := h.settled hget hout
      have hrespelled := Json.respelled_of_equal (h.inner.fit hget).payload hwell.payload hpayload
      refine .inr ⟨(Nat.succ_ne_self _).symm, hparent ▸ hexisting.parent,
        hrespelled ▸ hexisting.read, hmeta ?_,
        existing.withConflicts (conflicts ++ [node.conflict]), ?_,
        ⟨hexisting.parent, hexisting.plain, hexisting.read⟩⟩
      · intro other hother
        rw [hget] at hother
        rwa [← Option.some.inj hother]
      · change s.inner.nodes.set existing.id _ = _
        rw [h.inner.keyed hget]

theorem Reloads.put (hlaw : lib.Lawful) (h : s.Reloads lib) {node : Node}
    (hwell : node.WellFormed) (hlog : s.PutLoggable lib node) (hput : s.put lib node = .ok after) :
    after.Reloads lib := by
  obtain ⟨_, hout, hput⟩ := bind_ok_iff.mp hput
  obtain ⟨line, hline, hput⟩ := bind_ok_iff.mp hput
  obtain ⟨inner, hinner, hput⟩ := bind_ok_iff.mp hput
  cases hput
  rw [ensure_ok_iff] at hout
  obtain ⟨hvalid, -, hputs⟩ := put_ok_iff.mp hinner
  obtain ⟨read, hread, hmirrors⟩ := h.replayed
  rcases h.settled_of_puts hwell hvalid hputs hlog hout with rfl |
    ⟨hrevision, hparent, hpayload, hmeta, own, hnodes, hown⟩
  · rw [if_neg fun hne => hne rfl]
    exact ⟨h.inner, h.staged, h.settled, read, hread, hmirrors⟩
  · rw [if_pos hrevision]
    obtain ⟨other, hreads, hother, hvalid', hreplay⟩ := exists_replay_put hlaw
      (Node.fit_of_validate hwell hvalid) hline hpayload hmeta
    obtain ⟨read', hread', hmirrors'⟩ := hmirrors.put h.inner hwell hinner hout hparent hreads
      hother hvalid'
    refine ⟨h.inner.put hwell hinner, fun id hid => ?_, fun {id found} hfound hid => ?_, read',
      replay_append hread ((hreplay read).trans hread'), hmirrors'⟩
    · obtain ⟨found, hfound⟩ := exists?_iff.mp (h.staged id hid)
      have hne : node.id ≠ id := fun heq => hout (heq.symm ▸ hid)
      exact exists?_iff.mpr ⟨found, by rw [hnodes, Dict.get?_set, if_neg hne, hfound]⟩
    · rw [hnodes, Dict.get?_set] at hfound
      split at hfound
      · exact Option.some.inj hfound ▸ hown
      · exact h.settled hfound hid

theorem put_staged {node : Node} (hput : s.put lib node = .ok after) : after.staged = s.staged := by
  obtain ⟨_, -, hput⟩ := bind_ok_iff.mp hput
  obtain ⟨_, -, hput⟩ := bind_ok_iff.mp hput
  obtain ⟨_, -, hput⟩ := bind_ok_iff.mp hput
  cases hput
  rfl

theorem updateMeta_staged {id : String} {patch : Json}
    (hupdate : s.updateMeta lib id patch = .ok after) : after.staged = s.staged := by
  obtain ⟨_, -, hupdate⟩ := bind_ok_iff.mp hupdate
  obtain ⟨_, -, hupdate⟩ := bind_ok_iff.mp hupdate
  cases hupdate
  rfl

theorem Reloads.updateMeta (hlaw : lib.Lawful) (h : s.Reloads lib) {id : String} {patch : Json}
    (hdistinct : patch.distinct = true)
    (hlog : s.inner.exists? id = true → s.PatchLoggable lib id patch)
    (hupdate : s.updateMeta lib id patch = .ok after) : after.Reloads lib := by
  obtain ⟨spelled, hspelled, hupdate⟩ := bind_ok_iff.mp hupdate
  obtain ⟨inner, hinner, hupdate⟩ := bind_ok_iff.mp hupdate
  cases hupdate
  obtain ⟨entries, own, rfl, hown, hafter⟩ := updateMeta_ok_iff.mp hinner
  have hwell := h.inner.updateMeta hdistinct hinner
  have hget : ∀ other, inner.nodes.get? other =
      if own.id = other then some { own with metadata := own.metadata.extend entries }
      else s.inner.nodes.get? other := fun other => by
    rw [hafter]
    exact Dict.get?_set _ _ _ _
  have hkey := h.inner.keyed hown
  have hstaged : ∀ other ∈ s.staged, inner.exists? other = true := by
    intro other hother
    obtain ⟨found, hfound⟩ := exists?_iff.mp (h.staged other hother)
    rw [exists?_iff, hget]
    split
    · exact ⟨_, rfl⟩
    · exact ⟨found, hfound⟩
  have hsettled : ∀ {other node}, inner.nodes.get? other = some node → other ∉ s.staged →
      node.Settled lib s.staged := by
    intro other node hnode hout
    rw [hget] at hnode
    split at hnode
    · next heq =>
        have hold := h.settled hown (by rwa [← hkey, heq])
        rw [← Option.some.inj hnode]
        exact ⟨hold.parent, hold.plain, hold.read⟩
    · exact h.settled hnode hout
  obtain ⟨read, hread, hmirrors⟩ := h.replayed
  refine ⟨hwell, hstaged, hsettled, ?_⟩
  by_cases hid : id ∈ s.staged
  · exact ⟨read, by rwa [if_pos hid], hmirrors.updateMeta_staged h.inner hinner hid⟩
  · have hreads := hlog (exists?_iff.mpr ⟨own, hown⟩) hid spelled hspelled
    obtain ⟨read', hread', hmirrors'⟩ :=
      hmirrors.updateMeta hlaw h.inner hdistinct hspelled hinner hid
    refine ⟨read', ?_, hmirrors'⟩
    rw [if_neg hid]
    exact replay_append hread
      ((replay_patch hlaw hdistinct hspelled rfl hreads read).trans hread')

/-! ## apply_batch -/

/-- A put keeps the texts of the results that a store has. -/
theorem Reloads.kept (h : s.Reloads lib) {other : Node} {inner : MemoryStore}
    (hputs : s.inner.Puts other inner) {id : String} {existing : Node}
    (hget : s.inner.nodes.get? id = some existing) :
    ∃ kept, inner.nodes.get? id = some kept ∧ kept.resultText = existing.resultText := by
  cases hputs with
  | inserted hnew =>
      refine ⟨existing, ?_, rfl⟩
      change (s.inner.nodes.set other.id other).get? id = _
      rw [Dict.get?_set, if_neg, hget]
      rintro rfl
      rw [hnew] at hget
      cases hget
  | same => exact ⟨existing, hget, rfl⟩
  | conflict old hold hsame hdiffers conflicts _ =>
      change ∃ kept, (s.inner.nodes.set old.id _).get? id = some kept ∧ _
      rw [Dict.get?_set]
      split
      · next hid =>
          rw [← hid, h.inner.keyed hold, hold] at hget
          exact ⟨_, rfl, by rw [← Option.some.inj hget]; rfl⟩
      · exact ⟨existing, hget, rfl⟩

/-- What can be logged can be logged after another put. -/
theorem Reloads.putLoggable (h : s.Reloads lib) {node other : Node}
    (hlog : s.PutLoggable lib node) (hput : s.put lib other = .ok after) :
    after.PutLoggable lib node := by
  have hstaged := put_staged hput
  obtain ⟨_, -, hput⟩ := bind_ok_iff.mp hput
  obtain ⟨_, -, hput⟩ := bind_ok_iff.mp hput
  obtain ⟨inner, hinner, hput⟩ := bind_ok_iff.mp hput
  have hafter : after.inner = inner := (congrArg HashRopeStore.inner (Except.ok.inj hput)).symm
  obtain ⟨-, -, hputs⟩ := put_ok_iff.mp hinner
  intro hvalid
  obtain ⟨hsettled, hmeta⟩ := hlog hvalid
  rw [hstaged, hafter]
  refine ⟨fun hnew => hsettled ?_, fun hdiffers => hmeta fun existing hget => ?_⟩
  · cases hget : s.inner.nodes.get? node.id with
    | none => rfl
    | some existing =>
        obtain ⟨kept, hkept, -⟩ := h.kept hputs hget
        rw [hnew] at hkept
        cases hkept
  · obtain ⟨kept, hkept, htext⟩ := h.kept hputs hget
    have hkeptDiffers := hdiffers kept hkept
    rwa [Node.differs, htext] at hkeptDiffers

theorem Reloads.putAll (hlaw : lib.Lawful) {nodes : List Node} (h : s.Reloads lib)
    (hwell : ∀ node ∈ nodes, node.WellFormed) (hlog : ∀ node ∈ nodes, s.PutLoggable lib node)
    (hputs : nodes.foldlM (fun s node => s.put lib node) s = .ok after) :
    after.Reloads lib ∧ after.staged = s.staged := by
  induction nodes generalizing s with
  | nil =>
      cases hputs
      exact ⟨h, rfl⟩
  | cons node nodes ih =>
      rw [List.forall_mem_cons] at hwell hlog
      rw [List.foldlM_cons] at hputs
      obtain ⟨middle, hput, hputs⟩ := bind_ok_iff.mp hputs
      have hmiddle := h.put hlaw hwell.1 hlog.1 hput
      obtain ⟨hafter, hstaged⟩ := ih hmiddle hwell.2
        (fun other hother => h.putLoggable (hlog.2 other hother) hput) hputs
      exact ⟨hafter, hstaged.trans (put_staged hput)⟩

theorem Reloads.updateAll (hlaw : lib.Lawful) {patches : List (String × Json)}
    (h : s.Reloads lib) (hwell : ∀ patch ∈ patches, patch.2.distinct = true)
    (hlog : ∀ patch ∈ patches, s.PatchLoggable lib patch.1 patch.2)
    (hupdates : patches.foldlM (fun s patch => s.updateMeta lib patch.1 patch.2) s = .ok after) :
    after.Reloads lib := by
  induction patches generalizing s with
  | nil =>
      cases hupdates
      exact h
  | cons patch patches ih =>
      rw [List.forall_mem_cons] at hwell hlog
      rw [List.foldlM_cons] at hupdates
      obtain ⟨middle, hupdate, hupdates⟩ := bind_ok_iff.mp hupdates
      refine ih (h.updateMeta hlaw hwell.1 (fun _ => hlog.1) hupdate) hwell.2 ?_ hupdates
      intro other hother
      rw [PatchLoggable, updateMeta_staged hupdate]
      exact hlog.2 other hother

theorem Reloads.applyBatch (hlaw : lib.Lawful) (h : s.Reloads lib) {nodes : List Node}
    {patches : List (String × Json)} (hwell : (Op.applyBatch nodes patches).WellFormed)
    (hlog : s.Loggable lib (.applyBatch nodes patches))
    (hbatch : s.applyBatch lib nodes patches = .ok after) : after.Reloads lib := by
  obtain ⟨middle, hputs, hupdates⟩ := bind_ok_iff.mp hbatch
  obtain ⟨hmiddle, hstaged⟩ := h.putAll hlaw hwell.1 hlog.1 hputs
  refine hmiddle.updateAll hlaw hwell.2 (fun patch hpatch => ?_) hupdates
  rw [PatchLoggable, hstaged]
  exact hlog.2 patch hpatch

/-! ## stage_pending and finalize -/

theorem Reloads.stagePending (h : s.Reloads lib) {node : Node} (hwell : node.WellFormed)
    (hstage : s.stagePending lib node = .ok after) : after.Reloads lib := by
  obtain ⟨_, hpending, hstage⟩ := bind_ok_iff.mp hstage
  obtain ⟨inner, hinner, hstage⟩ := bind_ok_iff.mp hstage
  cases hstage
  obtain ⟨hnew, -, -⟩ := ensure_ok_iff.mp hpending
  have hnone : s.inner.nodes.get? node.id = none :=
    Option.not_isSome_iff_eq_none.mp hnew
  obtain ⟨hvalid, hexists, hputs⟩ := put_ok_iff.mp hinner
  have hinserted : inner = s.inner.inserted node := by
    cases hputs with
    | inserted => rfl
    | same existing hget | conflict existing hget =>
        rw [hnone] at hget
        cases hget
  subst hinserted
  have hget : ∀ id, (s.inner.inserted node).nodes.get? id =
      if node.id = id then some node else s.inner.nodes.get? id := Dict.get?_set _ _ _
  obtain ⟨read, hread, hmirrors⟩ := h.replayed
  refine ⟨h.inner.put hwell hinner, ?_, fun {id own} hown hout => ?_, read, hread, ?_⟩
  · intro id hid
    rw [exists?_iff, hget]
    split
    · exact ⟨node, rfl⟩
    · next hne =>
        exact exists?_iff.mp (h.staged id ((List.mem_cons.mp hid).resolve_left (Ne.symm hne)))
  · rw [List.mem_cons, not_or] at hout
    rw [hget, if_neg (Ne.symm hout.1)] at hown
    have hold := h.settled hown hout.2
    refine ⟨fun parent hparent hmem => ?_, hold.plain, hold.read⟩
    rcases List.mem_cons.mp hmem with rfl | hmem
    · obtain ⟨found, hfound⟩ := h.inner.parent_exists hown hparent
      rw [hnone] at hfound
      cases hfound
    · exact hold.parent parent hparent hmem
  · exact hmirrors.stage node rfl (hmirrors.get_new hnone) fun id =>
      List.mem_cons.trans or_comm

theorem Reloads.finalize (hlaw : lib.Lawful) (h : s.Reloads lib) {node : Node}
    (hwell : node.WellFormed) (hlog : s.Loggable lib (.finalize node))
    (hfinal : s.finalize lib node = .ok after) : after.Reloads lib := by
  obtain ⟨_, hstaged, hfinal⟩ := bind_ok_iff.mp hfinal
  obtain ⟨line, hline, hfinal⟩ := bind_ok_iff.mp hfinal
  obtain ⟨inner, hinner, hfinal⟩ := bind_ok_iff.mp hfinal
  cases hfinal
  rw [ensure_ok_iff] at hstaged
  obtain ⟨hvalid, ⟨old, hold, hsame⟩, hstate, hafter⟩ := MemoryStore.finalize_ok hinner
  obtain ⟨hsettled, hmeta⟩ := hlog hvalid hstaged hstate
  have hget : ∀ id, inner.nodes.get? id =
      if node.id = id then some node else s.inner.nodes.get? id := fun id => by
    rw [hafter]
    exact Dict.get?_set _ _ _ _
  have hmem : ∀ id, id ∈ (s.staged.filter fun id => id ≠ node.id) ↔ id ∈ s.staged ∧ id ≠ node.id :=
    fun id => by simp
  obtain ⟨read, hread, hmirrors⟩ := h.replayed
  obtain ⟨other, hreads, hother, hvalid', hreplay⟩ := exists_replay_put hlaw
    (Node.fit_of_validate hwell hvalid) hline hsettled.read hmeta
  have hparents : ∀ parent, other.parent = some parent → read.exists? parent = true := by
    intro parent hparent
    rw [hreads.parent] at hparent
    obtain ⟨hsameParent, -⟩ := MemoryStore.sameIdentity_iff.mp hsame
    obtain ⟨own, hown⟩ := h.inner.parent_exists hold (hsameParent.trans hparent)
    exact exists?_iff.mpr (hmirrors.complete hown (hsettled.parent parent hparent))
  have hnone : read.nodes.get? other.id = none := hreads.id ▸ hmirrors.get_staged hstaged
  have hput : read.put lib other = .ok (read.inserted other) :=
    put_ok_iff.mpr ⟨hvalid', hparents, .inserted hnone⟩
  refine ⟨h.inner.finalize hwell hinner, fun id hid => ?_, fun {id own} hown hout => ?_,
    read.inserted other, replay_append hread ((hreplay read).trans hput), ?_⟩
  · rw [hmem] at hid
    rw [exists?_iff, hget, if_neg (Ne.symm hid.2)]
    exact exists?_iff.mp (h.staged id hid.1)
  · have hall : ∀ {own : Node}, own.Settled lib s.staged →
        own.Settled lib (s.staged.filter fun id => id ≠ node.id) := fun hown =>
      ⟨fun parent hparent hp => hown.parent parent hparent ((hmem parent).mp hp).1, hown.plain,
        hown.read⟩
    rw [hget] at hown
    split at hown
    · exact Option.some.inj hown ▸ hall hsettled
    · next hne =>
        exact hall (h.settled hown fun hid => hout ((hmem id).mpr ⟨hid, Ne.symm hne⟩))
  · refine hmirrors.set hreads ?_ ?_ (hmirrors.wellFormed.put hother.toWellFormed hput) hmem
    · rw [hafter]
      rfl
    · rw [← hreads.id]
      rfl

/-! ## drop_nodes and compact -/

theorem Reloads.rewritten (hlaw : lib.Lawful) (hinner : s.inner.WellFormed lib)
    (hstaged : ∀ id ∈ s.staged, s.inner.exists? id = true) (hsettled : s.AllSettled lib)
    (hread : s.AllRead lib) {log : List Line} (hlog : s.rewrittenLog lib = .ok log) :
    ({ s with log } : HashRopeStore).Reloads lib :=
  ⟨hinner, hstaged, hsettled, exists_replay_rewritten hlaw hinner hsettled hread hlog⟩

theorem Reloads.compact (hlaw : lib.Lawful) (h : s.Reloads lib) (hread : s.AllRead lib)
    (hcompact : s.compact lib = .ok after) : after.Reloads lib := by
  obtain ⟨log, hlog, hcompact⟩ := bind_ok_iff.mp hcompact
  cases hcompact
  exact .rewritten hlaw h.inner h.staged h.settled hread hlog

theorem Reloads.dropNodes (hlaw : lib.Lawful) (h : s.Reloads lib) {ids : List String}
    (hlog : s.Loggable lib (.dropNodes ids)) (hdrop : s.dropNodes lib ids = .ok after) :
    after.Reloads lib := by
  obtain ⟨inner, hinner, hdrop⟩ := bind_ok_iff.mp hdrop
  obtain ⟨log, hrewritten, hdrop⟩ := bind_ok_iff.mp hdrop
  cases hdrop
  obtain ⟨hkept, hget, -, -⟩ := MemoryStore.dropNodes_ok h.inner hinner
  have hmem : ∀ id, id ∈ (s.staged.filter fun id => id ∉ ids) ↔ id ∈ s.staged ∧ id ∉ ids :=
    fun id => by simp
  have hold {id node} (hnode : inner.nodes.get? id = some node)
      (hout : id ∉ s.staged.filter fun id => id ∉ ids) :
      s.inner.nodes.get? id = some node ∧ id ∉ s.staged ∧ id ∉ ids := by
    rw [hget] at hnode
    split at hnode
    · cases hnode
    · next hid => exact ⟨hnode, fun hstaged => hout ((hmem id).mpr ⟨hstaged, hid⟩), hid⟩
  refine .rewritten (s := { s with inner, staged := s.staged.filter fun id => id ∉ ids }) hlaw
    (h.inner.dropNodes hinner) ?_ ?_ ?_ hrewritten
  · intro id hid
    rw [hmem] at hid
    rw [exists?_iff, hget, if_neg hid.2]
    exact exists?_iff.mp (h.staged id hid.1)
  · intro id node hnode hout
    obtain ⟨hnode, hstaged, -⟩ := hold hnode hout
    have hsettled := h.settled hnode hstaged
    exact ⟨fun parent hparent hp => hsettled.parent parent hparent ((hmem parent).mp hp).1,
      hsettled.plain, hsettled.read⟩
  · intro id node hnode hout
    obtain ⟨hnode, hstaged, hid⟩ := hold hnode hout
    exact hlog hnode hstaged hid

/-! ## Runs -/

theorem Reloads.step (hlaw : lib.Lawful) (h : s.Reloads lib) {op : Op} (hwell : op.WellFormed)
    (hlog : s.Loggable lib op) : (s.step lib op).Reloads lib := by
  unfold HashRopeStore.step
  split
  · next after hafter =>
      cases op with
      | put node => exact h.put hlaw hwell hlog hafter
      | updateMeta id patch => exact h.updateMeta hlaw hwell hlog hafter
      | applyBatch nodes patches => exact h.applyBatch hlaw hwell hlog hafter
      | stagePending node => exact h.stagePending hwell hafter
      | finalize node => exact h.finalize hlaw hwell hlog hafter
      | dropNodes ids => exact h.dropNodes hlaw hlog hafter
      | compact => exact h.compact hlaw hlog hafter
  · exact h

/-- A store with the nodes of another that are not staged, and with their children in order. -/
structure Restricts (lib : Library) (s reloaded : HashRopeStore) : Prop where
  hidden : ∀ id ∈ s.staged, reloaded.inner.nodes.get? id = none
  nodes : ∀ id, id ∉ s.staged → Option.Rel (fun live read : Node => read.equal lib live = true)
    (s.inner.nodes.get? id) (reloaded.inner.nodes.get? id)
  children : ∀ id, reloaded.inner.children id =
    (s.inner.children id).filter fun child => child ∉ s.staged

/-- Nodes that are read back are equal if their payloads spell no zero with a minus sign. -/
theorem equal_of_reads {live read : Node} (h : Node.Reads lib live read) (hfit : live.Fit lib)
    (hplain : live.payload.ZerosPlain) : read.equal lib live = true := by
  have hpayload : read.payload.equal live.payload = true := by
    rw [h.payload]
    exact Json.respelled_equal hfit.payload hfit.identity hplain
  simp [Node.equal, Node.sameIdentity, h.id, h.parent, h.kind, h.attempt, h.resultText,
    h.resultDigest, h.result, h.metadata, hpayload]

theorem Reloads.children (h : s.Reloads lib) {read : MemoryStore}
    (hmirrors : Mirrors lib s.inner s.staged read) (id : String) :
    read.children id = (s.inner.children id).filter fun child => child ∉ s.staged := by
  have hperm : (read.childIndex.getD id []).Perm
      ((s.inner.childIndex.getD id []).filter fun child => child.2 ∉ s.staged) := by
    refine (List.perm_ext_iff_of_nodup (hmirrors.wellFormed.nodup id)
      ((h.inner.nodup id).filter _)).mpr fun child => ?_
    rw [List.mem_filter, hmirrors.wellFormed.indexed, h.inner.indexed, decide_eq_true_eq]
    constructor
    · rintro ⟨node, hnode, hparent, hkind⟩
      obtain ⟨hout, own, hown, hreads⟩ := hmirrors.reads hnode
      exact ⟨⟨own, hown, hreads.parent ▸ hparent, hreads.kind ▸ hkind⟩, hout⟩
    · rintro ⟨⟨own, hown, hparent, hkind⟩, hout⟩
      obtain ⟨node, hnode, hreads⟩ := hmirrors.get hown hout
      exact ⟨node, hnode, hreads.parent.trans hparent, hkind.trans (by rw [hreads.kind])⟩
  have : Std.Total PairLE := ⟨PairLE.total⟩
  have : IsTrans (String × String) PairLE := ⟨fun _ _ _ => PairLE.trans⟩
  have hsorted : (read.childIndex.getD id []).insertionSort PairLE =
      ((s.inner.childIndex.getD id []).insertionSort PairLE).filter
        fun child => child.2 ∉ s.staged :=
    List.Perm.eq_of_pairwise (fun _ _ _ _ => PairLE.antisymm) (List.pairwise_insertionSort _ _)
      ((List.pairwise_insertionSort _ _).filter _)
      (((List.perm_insertionSort _ _).trans hperm).trans
        ((List.perm_insertionSort _ _).symm.filter _))
  unfold MemoryStore.children
  rw [hsorted, List.filter_map]
  rfl

theorem Reloads.restricts (h : s.Reloads lib) :
    ∃ reloaded, fromBytes lib s.log = .ok reloaded ∧ s.Restricts lib reloaded := by
  obtain ⟨read, hread, hmirrors⟩ := h.replayed
  refine ⟨⟨read, s.log, []⟩, ?_, fun id hid => hmirrors.get_staged hid, fun id hout => ?_,
    h.children hmirrors⟩
  · unfold fromBytes
    rw [hread]
    rfl
  · change Option.Rel _ _ (read.nodes.get? id)
    cases hown : s.inner.nodes.get? id with
    | none =>
        rw [hmirrors.get_new hown]
        exact .none
    | some own =>
        obtain ⟨node, hnode, hreads⟩ := hmirrors.get hown hout
        rw [hnode]
        exact .some (equal_of_reads hreads (h.inner.fit hown) (h.settled hown hout).plain)

/-- The log of a store is read back, as long as no node is logged below a staged one and the texts
that are logged are read back as they were. -/
theorem log_reloads (lib : Library) (hlaw : lib.Lawful) (ops : List Op)
    (hwell : ∀ op ∈ ops, op.WellFormed)
    (hrun : Machine.Along (HashRopeStore.step lib) (HashRopeStore.Loggable lib) new ops) :
    ∃ reloaded, fromBytes lib (Machine.run (HashRopeStore.step lib) new ops).log = .ok reloaded ∧
      (Machine.run (HashRopeStore.step lib) new ops).Restricts lib reloaded :=
  Reloads.restricts (Machine.invariant_run (Reloads lib)
    (fun _ _ h hop => h.step hlaw hop.1 hop.2) reloads_new (hrun.and_inputs hwell))

/-! ## A node below a staged one -/

def rootNode : Node :=
  ⟨"cacbc19a1b31e8c433b90582bd99f62051b2183a79de45ab224cf6a86788a781", none, .root, 0,
    .object [("run", .string "r")], none, none, none, .object []⟩

def callNode : Node :=
  ⟨"eb72e1257489c4ee9d631ee7e100480fd8af00bfd9efc8c9032c4df7e32964f7", some rootNode.id,
    .modelCall, 0, .object [("model", .string "m")], none, none, none,
    .object [("state", .string "pending")]⟩

def noteNode : Node :=
  ⟨"ec07411bbe7b3eed45104df85ca2a16a071856471ab4db5b6819262f9446e297", some callNode.id,
    .note, 0, .object [("note", .string "n")], none, none, none, .object []⟩

/-- A library that hashes the octets of three nodes, which differ in length, to their ids. -/
def hashingLibrary : Library :=
  ⟨fun octets =>
      match octets.length with
      | 53 => rootNode.id
      | 125 => callNode.id
      | _ => noteNode.id,
    fun _ => none, fun _ => true, fun _ => none, fun _ => ""⟩

theorem note_below_staged_unreadable :
    (fromBytes hashingLibrary (Machine.run (HashRopeStore.step hashingLibrary) new
      [.put rootNode, .stagePending callNode, .put noteNode]).log).map (fun _ => ()) =
        .error (.notFound callNode.id) := by
  decide +kernel

theorem plain_rootNode : rootNode.payload.ZerosPlain := by
  intro path h
  match path with
  | [] => cases h
  | .index _ :: _ => cases h
  | .key name :: path =>
      obtain ⟨found, hfound, h⟩ := Option.bind_eq_some_iff.mp h
      have hstring : found = .string "r" := by
        have hmem := Assoc.mem_of_lookup hfound
        rw [List.mem_singleton] at hmem
        exact (Prod.mk.inj hmem).2
      subst hstring
      cases path with
      | nil => cases h
      | cons place path => cases place <;> cases h

theorem staged_call_reloads :
    ∃ reloaded, fromBytes hashingLibrary (Machine.run (HashRopeStore.step hashingLibrary) new
        [.put rootNode, .stagePending callNode]).log = .ok reloaded ∧
      (Machine.run (HashRopeStore.step hashingLibrary) new
        [.put rootNode, .stagePending callNode]).Restricts hashingLibrary reloaded := by
  refine log_reloads hashingLibrary ⟨nofun, nofun⟩ [.put rootNode, .stagePending callNode] ?_
    ⟨fun _ => ⟨fun _ => ⟨nofun, plain_rootNode, rfl⟩, fun _ _ _ => rfl⟩, trivial, trivial⟩
  rw [List.forall_mem_cons, List.forall_mem_singleton]
  exact ⟨⟨by decide, rfl, nofun⟩, ⟨by decide, rfl, nofun⟩⟩

end HashRopeStore

end Pollard.Rust
