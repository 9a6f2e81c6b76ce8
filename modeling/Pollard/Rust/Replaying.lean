import Pollard.Rust.HashRope
import Pollard.Rust.MemorySteps

/-!
# Replaying hash rope logs

A memory store that reads the lines of a log holds the nodes of the store that wrote them as they
are read back.
-/

namespace Pollard.Rust

open Lib Fallible

variable {lib : Library}

theorem Json.respelled_of_equal {a b : Json} (ha : a.wellFormed = true) (hb : b.wellFormed = true)
    (h : a.equal b = true) : a.respelled = b.respelled :=
  congrArg Value.toRust (Json.sameJson_of_equal ha hb h)

theorem Json.equal_refl {value : Json} (hwell : value.wellFormed = true)
    (hidentity : value.toValue.isIdentity = true) : value.equal value = true :=
  (Json.equal_iff_zerosAlike value value hwell hwell hidentity rfl).mpr fun _ => .rfl

/-- Nodes that are read back have one identity if they had one. -/
theorem Node.Reads.sameIdentity {live own read other : Node} (h : Reads lib live read)
    (hown : Reads lib own other) (hlive : live.WellFormed) (hwell : own.WellFormed)
    (hother : other.Fit lib) (hsame : live.sameIdentity own = true) :
    read.sameIdentity other = true := by
  obtain ⟨hparent, hkind, hattempt, hpayload⟩ := MemoryStore.sameIdentity_iff.mp hsame
  refine MemoryStore.sameIdentity_iff.mpr ⟨?_, ?_, ?_, ?_⟩
  · rw [h.parent, hown.parent, hparent]
  · rw [h.kind, hown.kind, hkind]
  · rw [h.attempt, hown.attempt, hattempt]
  · have hrespelled := Json.respelled_of_equal hlive.payload hwell.payload hpayload
    rw [h.payload, hrespelled, ← hown.payload]
    exact Json.equal_refl hother.payload hother.identity

theorem Node.Reads.differs {live own read other : Node} (h : Reads lib live read)
    (hown : Reads lib own other) : read.differs other = live.differs own := by
  simp only [Node.differs, h.resultText, hown.resultText]

namespace MemoryStore

/-! ## Stores that read another -/

/-- The nodes of `read` are nodes of `live`, none of them staged. -/
structure Partly (lib : Library) (live : MemoryStore) (staged : List String) (read : MemoryStore) :
    Prop where
  wellFormed : read.WellFormed lib
  reads : ∀ {id node}, read.nodes.get? id = some node → id ∉ staged ∧
    ∃ own, live.nodes.get? id = some own ∧ Node.Reads lib own node

/-- The nodes of `read` are those of `live` that are not staged. -/
structure Mirrors (lib : Library) (live : MemoryStore) (staged : List String)
    (read : MemoryStore) : Prop extends Partly lib live staged read where
  complete : ∀ {id own}, live.nodes.get? id = some own → id ∉ staged →
    ∃ node, read.nodes.get? id = some node

section Mirrors

variable {live live' read read' : MemoryStore} {staged staged' : List String}

theorem Mirrors.get (h : Mirrors lib live staged read) {id : String} {own : Node}
    (hown : live.nodes.get? id = some own) (hid : id ∉ staged) :
    ∃ node, read.nodes.get? id = some node ∧ Node.Reads lib own node := by
  obtain ⟨node, hnode⟩ := h.complete hown hid
  obtain ⟨-, other, hother, hreads⟩ := h.reads hnode
  rw [hown] at hother
  exact ⟨node, hnode, Option.some.inj hother ▸ hreads⟩

theorem Mirrors.get_new (h : Mirrors lib live staged read) {id : String}
    (hnew : live.nodes.get? id = none) : read.nodes.get? id = none := by
  cases hnode : read.nodes.get? id with
  | none => rfl
  | some node =>
      obtain ⟨-, own, hown, -⟩ := h.reads hnode
      rw [hnew] at hown
      cases hown

theorem Mirrors.get_staged (h : Mirrors lib live staged read) {id : String} (hid : id ∈ staged) :
    read.nodes.get? id = none := by
  cases hnode : read.nodes.get? id with
  | none => rfl
  | some node => exact absurd hid (h.reads hnode).1

/-- Both stores set a node. -/
theorem Mirrors.set (h : Mirrors lib live staged read) {own node : Node}
    (hreads : Node.Reads lib own node) (hlive : live'.nodes = live.nodes.set own.id own)
    (hread : read'.nodes = read.nodes.set own.id node) (hwell : read'.WellFormed lib)
    (hstaged : ∀ id, id ∈ staged' ↔ id ∈ staged ∧ id ≠ own.id) :
    Mirrors lib live' staged' read' where
  wellFormed := hwell
  reads := by
    intro id found hfound
    rw [hread, Dict.get?_set] at hfound
    rw [hlive, Dict.get?_set, hstaged]
    split at hfound
    · next hid =>
        rw [if_pos hid]
        exact ⟨fun hmem => hmem.2 hid.symm, own, rfl, Option.some.inj hfound ▸ hreads⟩
    · next hid =>
        rw [if_neg hid]
        obtain ⟨hout, hrest⟩ := h.reads hfound
        exact ⟨fun hmem => hout hmem.1, hrest⟩
  complete := by
    intro id found hfound hout
    rw [hlive, Dict.get?_set] at hfound
    rw [hread, Dict.get?_set]
    split at hfound
    · next hid => exact ⟨node, if_pos hid⟩
    · next hid =>
        rw [if_neg hid]
        exact h.complete hfound fun hmem => hout ((hstaged id).mpr ⟨hmem, Ne.symm hid⟩)

/-- Only the live store sets a node, which is staged. -/
theorem Mirrors.stage (h : Mirrors lib live staged read) (own : Node)
    (hlive : live'.nodes = live.nodes.set own.id own) (hnone : read.nodes.get? own.id = none)
    (hstaged : ∀ id, id ∈ staged' ↔ id ∈ staged ∨ id = own.id) :
    Mirrors lib live' staged' read where
  wellFormed := h.wellFormed
  reads := by
    intro id found hfound
    have hid : own.id ≠ id := by
      rintro rfl
      rw [hnone] at hfound
      cases hfound
    rw [hlive, Dict.get?_set, if_neg hid, hstaged]
    obtain ⟨hout, hrest⟩ := h.reads hfound
    exact ⟨fun hmem => hmem.elim hout fun heq => hid heq.symm, hrest⟩
  complete := by
    intro id found hfound hout
    rw [hstaged, not_or] at hout
    rw [hlive, Dict.get?_set, if_neg (Ne.symm hout.2)] at hfound
    exact h.complete hfound hout.1

theorem Mirrors.put (h : Mirrors lib live staged read) (hlive : live.WellFormed lib) {node : Node}
    (hwell : node.WellFormed) (hput : live.put lib node = .ok live') (hout : node.id ∉ staged)
    (hparent : ∀ parent, node.parent = some parent → parent ∉ staged) {other : Node}
    (hreads : Node.Reads lib node other) (hother : other.Fit lib)
    (hvalid : other.validate lib = .ok ()) :
    ∃ read', read.put lib other = .ok read' ∧ Mirrors lib live' staged read' := by
  obtain ⟨hnode, hexists, hputs⟩ := put_ok_iff.mp hput
  have hfit := Node.fit_of_validate hwell hnode
  have hparents : ∀ parent, other.parent = some parent → read.exists? parent = true := by
    intro parent hp
    rw [hreads.parent] at hp
    obtain ⟨own, hown⟩ := exists?_iff.mp (hexists parent hp)
    exact exists?_iff.mpr (h.complete hown (hparent parent hp))
  have hstaged : ∀ id, id ∈ staged ↔ id ∈ staged ∧ id ≠ node.id := fun id =>
    ⟨fun hid => ⟨hid, fun heq => hout (heq ▸ hid)⟩, And.left⟩
  cases hputs with
  | inserted hnew =>
      have hnone : read.nodes.get? other.id = none := hreads.id ▸ h.get_new hnew
      refine ⟨read.inserted other, put_ok_iff.mpr ⟨hvalid, hparents, .inserted hnone⟩, ?_⟩
      refine h.set hreads rfl ?_ ?_ hstaged
      · rw [← hreads.id]
        rfl
      · exact h.wellFormed.inserted hother hnone fun parent hp =>
          exists?_iff.mp (hparents parent hp)
  | same existing hget hsame hdiffers =>
      obtain ⟨found, hfound, hexisting⟩ := h.get hget hout
      refine ⟨read, put_ok_iff.mpr ⟨hvalid, hparents, .same found ?_ ?_ ?_⟩, h⟩
      · rw [hreads.id, hfound]
      · exact hexisting.sameIdentity hreads (hlive.fit hget).toWellFormed hwell hother hsame
      · rw [hexisting.differs hreads, hdiffers]
  | conflict existing hget hsame hdiffers conflicts hconflicts =>
      obtain ⟨found, hfound, hexisting⟩ := h.get hget hout
      have hexistingFit := hlive.fit hget
      have hfoundFit := h.wellFormed.fit hfound
      obtain ⟨others, hothers, hitems⟩ := hexisting.conflicts hexistingFit hfoundFit hconflicts
      have hid : existing.id = node.id := hlive.keyed hget
      have hread : read.put lib other =
          .ok (read.replaced (found.withConflicts (others ++ [other.conflict]))) := by
        refine put_ok_iff.mpr ⟨hvalid, hparents, .conflict found ?_ ?_ ?_ others hothers⟩
        · rw [hreads.id, hfound]
        · exact hexisting.sameIdentity hreads hexistingFit.toWellFormed hwell hother hsame
        · rw [hexisting.differs hreads, hdiffers]
      have hall : Json.equalItems (Json.sameNumber lib) (others ++ [other.conflict])
          (conflicts ++ [node.conflict]) = true := by
        rw [Json.equalItems_iff_forall₂] at hitems ⊢
        exact List.rel_append hitems (.cons hreads.conflict .nil)
      have hread' := h.wellFormed.put hother.toWellFormed hread
      have hafter : Node.Reads lib (existing.withConflicts (conflicts ++ [node.conflict]))
          (found.withConflicts (others ++ [other.conflict])) :=
        hexisting.withConflicts hexistingFit hfoundFit
          ((hlive.put hwell hput).fit (Dict.get?_set_self _ _ _))
          (hread'.fit (Dict.get?_set_self _ _ _)) hall
      refine ⟨_, hread, h.set hafter rfl ?_ hread' ?_⟩
      · change read.nodes.set found.id _ = read.nodes.set existing.id _
        rw [hexisting.id]
      · change ∀ id, id ∈ staged ↔ id ∈ staged ∧ id ≠ existing.id
        rw [hid]
        exact hstaged

theorem Mirrors.updateMeta (hlaw : lib.Lawful) (h : Mirrors lib live staged read)
    (hlive : live.WellFormed lib) {id : String} {patch spelled : Json}
    (hdistinct : patch.distinct = true) (hspelled : patch.spelled lib = .ok spelled)
    (hupdate : live.updateMeta id patch = .ok live') (hout : id ∉ staged) :
    ∃ read', read.updateMeta id spelled = .ok read' ∧ Mirrors lib live' staged read' := by
  obtain ⟨entries, own, rfl, hown, rfl⟩ := updateMeta_ok_iff.mp hupdate
  obtain ⟨node, hnode, hreads⟩ := h.get hown hout
  have hspells := Json.spells_of_spelled hlaw hdistinct hspelled
  cases spelled with
  | object others =>
      have hread : read.updateMeta id (.object others) =
          .ok (read.replaced { node with metadata := node.metadata.extend others }) :=
        updateMeta_ok_iff.mpr ⟨others, node, rfl, hnode, rfl⟩
      obtain ⟨-, -, hafter⟩ := hreads.extend hlaw (hlive.fit hown) (h.wellFormed.fit hnode)
        hdistinct hspelled
      refine ⟨_, hread, h.set hafter rfl ?_ (h.wellFormed.updateMeta hspells.distinct hread) ?_⟩
      · change read.nodes.set node.id _ = read.nodes.set own.id _
        rw [hreads.id]
      · intro other
        change _ ↔ _ ∧ other ≠ own.id
        rw [hlive.keyed hown]
        exact ⟨fun hmem => ⟨hmem, fun heq => hout (heq ▸ hmem)⟩, And.left⟩
  | _ => cases hspells.isObject

/-- A patch of a staged node is not read. -/
theorem Mirrors.updateMeta_staged (h : Mirrors lib live staged read) (hlive : live.WellFormed lib)
    {id : String} {patch : Json} (hupdate : live.updateMeta id patch = .ok live')
    (hid : id ∈ staged) : Mirrors lib live' staged read := by
  obtain ⟨entries, own, rfl, hown, rfl⟩ := updateMeta_ok_iff.mp hupdate
  have hkey := hlive.keyed hown
  refine h.stage { own with metadata := own.metadata.extend entries } rfl
    (h.get_staged (hkey.symm ▸ hid)) fun other => ?_
  change _ ↔ _ ∨ other = own.id
  rw [hkey, or_iff_left_of_imp]
  rintro rfl
  exact hid

end Mirrors

end MemoryStore

namespace HashRopeStore

/-! ## Lines -/

/-- The line of a put is a put of the node as it is read back. -/
theorem exists_replay_put (hlaw : lib.Lawful) {node : Node} (hfit : node.Fit lib) {line : Line}
    (hline : putRecord lib node = .ok line) (hpayload : lib.reads node.payload.respelled = true)
    (hmeta : node.metadata.TextReads lib) :
    ∃ other, Node.Reads lib node other ∧ other.Fit lib ∧ other.validate lib = .ok () ∧
      ∀ read, replayLine lib read line = read.put lib other := by
  obtain ⟨record, hrecord, rfl⟩ := map_ok_iff.mp hline
  obtain ⟨other, hstored, hvalid, hother, hreads⟩ := hfit.read hlaw hrecord hpayload hmeta
  refine ⟨other, hreads, hother, hvalid, fun read => ?_⟩
  rw [replayLine, hstored]
  rfl

theorem replay_patch (hlaw : lib.Lawful) {patch spelled : Json} (hdistinct : patch.distinct = true)
    (hspelled : patch.spelled lib = .ok spelled) (hobject : patch.isObject = true) {id : String}
    (hreads : lib.reads (patchRecord id spelled) = true) (read : MemoryStore) :
    replayLine lib read (.patch id spelled) = read.updateMeta id spelled := by
  have hspells := Json.spells_of_spelled hlaw hdistinct hspelled
  rw [replayLine, ensure_ok_iff.mpr hreads, ensure_ok_iff.mpr (hspells.isObject.trans hobject),
    hspells.finite]
  rfl

theorem replay_append {log : List Line} {start read read' : MemoryStore} {line : Line}
    (h : log.foldlM (replayLine lib) start = .ok read)
    (hline : replayLine lib read line = .ok read') :
    (log ++ [line]).foldlM (replayLine lib) start = .ok read' := by
  rw [List.foldlM_append, h]
  change (replayLine lib read line).bind _ = _
  rw [hline]
  rfl

end HashRopeStore

end Pollard.Rust
