import Pollard.Governance.Manifest

/-!
# Imports write all or nothing

What the checks of an import establish, and what is then written: in memory all of it, with
a log as far as the records can be written.
-/

namespace Pollard

open Lib Lib.Fallible Stores Stores.ObjectStore

namespace Governance

/-! ## What a checked manifest gives -/

/-- Parents are stored, or come before. -/
def Linked : (String → Prop) → List ObjectNode → Prop
  | _, [] => True
  | stored, node :: nodes =>
      (∀ p ∈ node.parent, stored p) ∧ Linked (fun id => stored id ∨ id = node.id) nodes

theorem Linked.mono {stored stored' : String → Prop} (h : ∀ id, stored id → stored' id)
    {nodes : List ObjectNode} (hlinked : Linked stored nodes) : Linked stored' nodes := by
  induction nodes generalizing stored stored' with
  | nil => trivial
  | cons node nodes ih =>
      exact ⟨fun p hp => h p (hlinked.1 p hp), ih (fun id => Or.imp_left (h id)) hlinked.2⟩

theorem linked_of_checkParents {seen : List String} {nodes : List ObjectNode}
    (h : checkParents seen nodes = .ok ()) : Linked (· ∈ seen) nodes := by
  induction nodes generalizing seen with
  | nil => trivial
  | cons node nodes ih =>
      rw [checkParents] at h
      split at h
      · next hparent =>
          refine ⟨fun p hp => ?_, (ih h).mono fun id hid => ?_⟩
          · rw [Option.mem_def.mp hp, Option.any_some] at hparent
            exact of_decide_eq_true hparent
          · exact (List.mem_cons.mp hid).symm
      · cases h

/-- Nodes that can be put one after another. -/
structure Accepted (H : Hashing) (digest : Codes → String) (target : Nodes)
    (nodes : List ObjectNode) : Prop where
  built : ∀ node ∈ nodes, node.Built
  valid : ∀ node ∈ nodes, node.validateForPut H digest = .ok ()
  distinct : (nodes.map ObjectNode.id).Nodup
  linked : Linked (fun id => target.contains id = true) nodes

section Checked

variable {H : Hashing} {digest : Codes → String} {sealDigest : Value → String}
  {spelled : Codes → Option Obj}

theorem wrapped_ok_iff {α : Type} {x : Except PyError α} {a : α} :
    wrapped x = .ok a ↔ x = .ok a := by
  cases x with
  | error e => cases e <;> simp [wrapped]
  | ok b => rfl

theorem built_of_nodeFromRecord {record : Obj} {node : ObjectNode}
    (h : nodeFromRecord digest spelled record = .ok node) : node.Built := by
  obtain ⟨texts, -, hwrapped⟩ := bind_ok_iff.mp h
  simp only [wrapped_ok_iff, fromStorage, bind_ok_iff] at hwrapped
  obtain ⟨payload, -, result, -, metadata, -, id, -, parent, -, kind, -, resultDigest, -,
    hrecord⟩ := hwrapped
  exact ObjectNode.built_of_fromRecord hrecord

theorem valid_of_validateNode {node : ObjectNode} (hbuilt : node.Built)
    (h : validateNode H digest node = .ok ()) : node.validateForPut H digest = .ok () := by
  have hroot : ¬ (node.kind = .root ∧ node.parent ≠ none) := by
    obtain ⟨⟨⟩, hfields, -⟩ := bind_ok_iff.mp hbuilt.checked
    exact fun hboth => hboth.2 ((Node.checkFields_ok_iff.mp hfields).2.2.1.mp hboth.1)
  rw [validateNode] at h
  split at h
  · cases h
  · next hid =>
      rw [ObjectNode.validateForPut, if_neg hid]
      refine bind_ok_iff.mpr ⟨(), ?_, if_neg hroot⟩
      rw [ObjectNode.checkResult]
      cases hresult : node.result with
      | none => rfl
      | some result =>
          rw [hresult] at h
          obtain ⟨expected, hexpected, hsame⟩ := bind_ok_iff.mp h
          split at hsame
          · cases hsame
          · next heq =>
              rw [not_not.mp heq]
              exact bind_ok_iff.mpr ⟨expected, hexpected, if_pos rfl⟩

/-- A manifest store gives back its nodes. -/
theorem mapM_get_staged {nodes : List ObjectNode} (hnodup : (nodes.map ObjectNode.id).Nodup) :
    (nodes.map ObjectNode.id).mapM
      (get (Dict.ofList (nodes.map fun node => (node.id, node)))) = .ok nodes := by
  rw [mapM_ok_iff, List.forall₂_map_left_iff, List.forall₂_same]
  intro node hnode
  have hget := Dict.get?_ofList_of_mem (e := (node.id, node))
    (List.mem_map_of_mem (f := fun node => (node.id, node)) hnode) fun e he hid => by
      obtain ⟨other, hother, rfl⟩ := List.mem_map.mp he
      exact List.inj_on_of_nodup_map hnodup hother hnode hid
  simp only [ObjectStore.get, hget]

theorem built_of_parseManifest {document : Obj} {root : ObjectNode} {rest : List ObjectNode}
    {expected : Obj} (h : parseManifest digest spelled document = .ok (root, rest, expected)) :
    ∀ node ∈ root :: rest, node.Built := by
  cases document with
  | dict entries =>
      rw [parseManifest] at h
      split at h
      · cases h
      · split at h
        · split at h
          · obtain ⟨nodes, hnodes, hroot⟩ := bind_ok_iff.mp h
            split at hroot
            · split at hroot
              · cases hroot
                intro node hnode
                obtain ⟨record, -, hrecord⟩ := exists_left_of_forall₂ (mapM_ok_iff.mp hnodes) hnode
                exact built_of_nodeFromRecord hrecord
              · cases hroot
            · cases hroot
          · cases h
        · cases h
  | _ => cases h

/-- What `_ManifestStore` has checked. -/
theorem manifestStore_ok_iff {root : ObjectNode} {rest : List ObjectNode} {staged : Nodes} :
    manifestStore root rest = .ok staged ↔
      ((root :: rest).map ObjectNode.id).Nodup ∧
        (∀ p ∈ root.parent, p ∉ (root :: rest).map ObjectNode.id) ∧
        checkParents [root.id] rest = .ok () ∧
        walkIds staged root.id = (root :: rest).map ObjectNode.id ∧
        staged = Dict.ofList ((root :: rest).map fun node => (node.id, node)) := by
  have hany : (root.parent.any fun p => p ∈ (root :: rest).map ObjectNode.id) = true ↔
      ¬ ∀ p ∈ root.parent, p ∉ (root :: rest).map ObjectNode.id := by
    cases root.parent with
    | none => simp
    | some p =>
        rw [Option.any_some, decide_eq_true_iff]
        simp only [Option.mem_def, Option.some.injEq, forall_eq', not_not]
  simp only [manifestStore]
  by_cases hnodup : ((root :: rest).map ObjectNode.id).Nodup
  · rw [if_neg (not_not.mpr hnodup)]
    by_cases houtside : ∀ p ∈ root.parent, p ∉ (root :: rest).map ObjectNode.id
    · rw [if_neg fun h => hany.mp h houtside, bind_ok_iff]
      constructor
      · rintro ⟨⟨⟩, hparents, hwalk⟩
        split at hwalk
        · cases hwalk
        · next hsame =>
            cases hwalk
            exact ⟨hnodup, houtside, hparents, not_not.mp hsame, rfl⟩
      · rintro ⟨-, -, hparents, hwalk, rfl⟩
        exact ⟨(), hparents, if_neg (not_not.mpr hwalk)⟩
    · rw [if_pos (hany.mpr houtside)]
      exact ⟨fun h => (by cases h), fun h => absurd h.2.1 houtside⟩
  · rw [if_pos hnodup]
    exact ⟨fun h => (by cases h), fun h => absurd h.1 hnodup⟩

theorem sealSubtree_ok_iff {nodes : Nodes} {rootId : String} {report : Seal.SealReport} :
    sealSubtree H digest sealDigest nodes rootId = .ok report ↔
      ∃ subtree, walk nodes rootId = .ok subtree ∧
        (∀ node ∈ subtree, validateNode H digest node = .ok ()) ∧
        Seal.sealNodes sealDigest rootId (subtree.map covered) = report := by
  simp only [sealSubtree, bind_ok_iff, map_ok_iff]
  constructor
  · rintro ⟨subtree, hwalk, ⟨⟩, hvalid, hreport⟩
    exact ⟨subtree, hwalk, checkAll_ok_iff.mp hvalid, hreport⟩
  · rintro ⟨subtree, hwalk, hvalid, hreport⟩
    exact ⟨subtree, hwalk, (), checkAll_ok_iff.mpr hvalid, hreport⟩

theorem accepted_of_checked {document : Obj} {target : Nodes} {report : Seal.SealReport}
    {nodes : List ObjectNode} {existing : ℕ}
    (h : checked H digest sealDigest spelled document target = .ok (report, nodes, existing)) :
    Accepted H digest target nodes := by
  obtain ⟨⟨root, rest, expected⟩, hparse, hrest⟩ := bind_ok_iff.mp h
  obtain ⟨staged, hstaged, hsealed⟩ := bind_ok_iff.mp hrest
  obtain ⟨actual, hactual, hcompare⟩ := bind_ok_iff.mp hsealed
  obtain ⟨hnodup, houtside, hparents, hwalk, rfl⟩ := manifestStore_ok_iff.mp hstaged
  obtain ⟨subtree, hsubtree, hvalid, -⟩ := sealSubtree_ok_iff.mp hactual
  rw [walk, hwalk, mapM_get_staged hnodup] at hsubtree
  cases hsubtree
  have hbuilt := built_of_parseManifest hparse
  split at hcompare
  · cases hcompare
  · split at hcompare
    · cases hcompare
    · next hparent =>
        obtain ⟨count, -, heq⟩ := map_ok_iff.mp hcompare
        cases heq
        refine ⟨hbuilt, fun node hnode => valid_of_validateNode (hbuilt node hnode)
          (hvalid node hnode), hnodup, fun p hp => ?_, ?_⟩
        · simpa using Option.filter_eq_none_iff.mp hparent p hp
        · refine (linked_of_checkParents hparents).mono fun id hid => ?_
          exact .inr (List.mem_singleton.mp hid)

end Checked

/-! ## Writing what was checked -/

section Writing

variable {H : Hashing} {digest : Codes → String}

/-- The nodes after those of a list that are new were added. -/
def added (nodes : Nodes) (new : List ObjectNode) : Nodes :=
  new.foldl (fun nodes node => if nodes.contains node.id then nodes else nodes.set node.id node)
    nodes

/-- A new node that was accepted is put under its id. -/
theorem applyPut_of_accepted {target : Nodes} {node : ObjectNode} {nodes : List ObjectNode}
    (h : Accepted H digest target (node :: nodes)) (hnew : target.contains node.id = false) :
    applyPut H digest target node = .ok (some (target.set node.id node)) := by
  refine bind_ok_iff.mpr ⟨(), h.valid node List.mem_cons_self, ?_⟩
  have hparent : (node.parent.filter fun p => ¬ target.contains p) = none := by
    rw [Option.filter_eq_none_iff]
    intro p hp
    simpa using h.linked.1 p hp
  have hget : target.get? node.id = none := by
    rwa [Dict.contains, Option.isSome_eq_false_iff, Option.isNone_iff_eq_none] at hnew
  rw [hparent, hget]

/-- What is left of accepted nodes is accepted once the first is stored. -/
theorem Accepted.tail {target after : Nodes} {node : ObjectNode} {nodes : List ObjectNode}
    (h : Accepted H digest target (node :: nodes))
    (hafter : ∀ id, (target.contains id = true ∨ id = node.id) → after.contains id = true) :
    Accepted H digest after nodes :=
  ⟨fun other hother => h.built other (List.mem_cons_of_mem _ hother),
    fun other hother => h.valid other (List.mem_cons_of_mem _ hother),
    (List.nodup_cons.mp h.distinct).2, h.linked.2.mono hafter⟩

theorem contains_set {nodes : Nodes} {id other : String} {node : ObjectNode} :
    (nodes.set id node).contains other = true ↔ nodes.contains other = true ∨ other = id := by
  rw [Dict.contains, Dict.get?_set]
  split
  · next h => simp [h]
  · next h => simp [Dict.contains, Ne.symm h]

/-- In memory every accepted node is written. -/
theorem writeAll_memory {target : Nodes} {nodes : List ObjectNode}
    (h : Accepted H digest target nodes) :
    ∃ imported, writeAll (memory H digest) target nodes = (added target nodes, .ok imported) := by
  induction nodes generalizing target with
  | nil => exact ⟨0, rfl⟩
  | cons node nodes ih =>
      rw [writeAll, added, List.foldl_cons]
      cases hnew : target.contains node.id with
      | true =>
          rw [if_pos (show ((memory H digest).nodes target).contains node.id = true from hnew)]
          refine ih (h.tail ?_)
          rintro id (hid | rfl)
          · exact hid
          · exact hnew
      | false =>
          have hput : (memory H digest).put target node = (target.set node.id node, .ok ()) := by
            simp only [memory, applyPut_of_accepted h hnew, Option.getD_some]
          rw [if_neg (show ¬ ((memory H digest).nodes target).contains node.id = true from
            by simpa [memory] using hnew), hput]
          obtain ⟨imported, hrest⟩ := ih (h.tail fun id hid =>
            (@contains_set target _ _ node).mpr hid)
          refine ⟨imported + 1, ?_⟩
          dsimp only
          rw [hrest]
          rfl

/-- The record of every node that is new can be written. -/
def Writable (s : HashRope.State) (nodes : List ObjectNode) : Prop :=
  ∀ node ∈ nodes, s.nodes.contains node.id = false → (HashRope.putLine node).isOk = true

/-- With records that can be written every accepted node is written and logged. -/
theorem writeAll_hashRope {s : HashRope.State} {nodes : List ObjectNode}
    (h : Accepted H digest s.nodes nodes) (hwritable : Writable s nodes) :
    ∃ log imported,
      writeAll (hashRope H digest) s nodes = (⟨added s.nodes nodes, log⟩, .ok imported) := by
  induction nodes generalizing s with
  | nil => exact ⟨s.log, 0, rfl⟩
  | cons node nodes ih =>
      rw [writeAll, added, List.foldl_cons]
      rw [Writable, List.forall_mem_cons] at hwritable
      cases hnew : s.nodes.contains node.id with
      | true =>
          rw [if_pos (show ((hashRope H digest).nodes s).contains node.id = true from hnew)]
          refine ih (h.tail ?_) hwritable.2
          rintro id (hid | rfl)
          · exact hid
          · exact hnew
      | false =>
          obtain ⟨line, hline⟩ := isOk_iff.mp (hwritable.1 hnew)
          have hput : (hashRope H digest).put s node =
              (⟨s.nodes.set node.id node, s.log ++ [line]⟩, .ok ()) := by
            simp only [hashRope, HashRope.put, applyPut_of_accepted h hnew, hline, HashRope.logged]
          rw [if_neg (show ¬ ((hashRope H digest).nodes s).contains node.id = true from
            by simpa [hashRope] using hnew), hput]
          obtain ⟨log, imported, hrest⟩ := ih (s := ⟨s.nodes.set node.id node, s.log ++ [line]⟩)
            (h.tail fun id hid => contains_set.mpr hid) fun other hother hnot =>
              hwritable.2 other hother (Bool.eq_false_iff.mpr fun hold =>
                Bool.eq_false_iff.mp hnot (contains_set.mpr (.inl hold)))
          refine ⟨log, imported + 1, ?_⟩
          dsimp only
          rw [hrest]
          rfl

/-- A new node whose record cannot be written is in memory after the error. -/
theorem writeAll_hashRope_error {s : HashRope.State} {nodes : List ObjectNode}
    (h : Accepted H digest s.nodes nodes) (hwritable : ¬ Writable s nodes) :
    (∃ e, (writeAll (hashRope H digest) s nodes).2 = .error e) ∧
      ∃ id, s.nodes.contains id = false ∧
        (writeAll (hashRope H digest) s nodes).1.nodes.contains id = true := by
  induction nodes generalizing s with
  | nil => exact absurd (fun _ hnode => nomatch hnode) hwritable
  | cons node nodes ih =>
      rw [writeAll]
      cases hnew : s.nodes.contains node.id with
      | true =>
          rw [if_pos (show ((hashRope H digest).nodes s).contains node.id = true from hnew)]
          refine ih (h.tail ?_) fun hrest => hwritable ?_
          · rintro id (hid | rfl)
            · exact hid
            · exact hnew
          · rw [Writable, List.forall_mem_cons]
            exact ⟨fun hnot => absurd (hnew.symm.trans hnot) (by simp), hrest⟩
      | false =>
          rw [if_neg (show ¬ ((hashRope H digest).nodes s).contains node.id = true from
            by simpa [hashRope] using hnew)]
          cases hline : HashRope.putLine node with
          | error e =>
              have hput : (hashRope H digest).put s node =
                  (⟨s.nodes.set node.id node, s.log⟩, .error e) := by
                simp only [hashRope, HashRope.put, applyPut_of_accepted h hnew, hline,
                  HashRope.logged]
              rw [hput]
              exact ⟨⟨e, rfl⟩, node.id, hnew, contains_set.mpr (.inr rfl)⟩
          | ok line =>
              have hput : (hashRope H digest).put s node =
                  (⟨s.nodes.set node.id node, s.log ++ [line]⟩, .ok ()) := by
                simp only [hashRope, HashRope.put, applyPut_of_accepted h hnew, hline,
                  HashRope.logged]
              rw [hput]
              have hdistinct := (List.nodup_cons.mp h.distinct).1
              obtain ⟨⟨e, he⟩, id, hid, hafter⟩ :=
                ih (s := ⟨s.nodes.set node.id node, s.log ++ [line]⟩)
                  (h.tail fun id hid => contains_set.mpr hid) fun hrest => hwritable (by
                    rw [Writable, List.forall_mem_cons]
                    refine ⟨fun _ => by rw [hline]; rfl, fun other hother hnot => ?_⟩
                    refine hrest other hother (Bool.eq_false_iff.mpr fun hold => ?_)
                    rcases contains_set.mp hold with hold | heq
                    · exact Bool.eq_false_iff.mp hnot hold
                    · exact hdistinct (heq ▸ List.mem_map_of_mem hother))
              refine ⟨⟨e, ?_⟩, id, ?_, hafter⟩
              · dsimp only
                rw [he]
                rfl
              · exact Bool.eq_false_iff.mpr fun hold =>
                  Bool.eq_false_iff.mp hid (contains_set.mpr (.inl hold))

end Writing

/-! ## All or nothing -/

section Atomic

variable {H : Hashing} {digest : Codes → String} {sealDigest : Value → String}
  {spelled : Codes → Option Obj}

/-- An import that raises leaves the store as it was. -/
def Atomic {σ : Type} (H : Hashing) (digest : Codes → String) (sealDigest : Value → String)
    (spelled : Codes → Option Obj) (store : Backend σ) (document : Obj) (s : σ) : Prop :=
  ∀ e, (importSubtree H digest sealDigest spelled store document s).2 = .error e →
    (importSubtree H digest sealDigest spelled store document s).1 = s

theorem atomic_memory (document : Obj) (target : Nodes) :
    Atomic H digest sealDigest spelled (memory H digest) document target := by
  intro e he
  rw [importSubtree] at he ⊢
  cases hchecked : checked H digest sealDigest spelled document ((memory H digest).nodes target) with
  | error e => rfl
  | ok accepted =>
      obtain ⟨report, nodes, existing⟩ := accepted
      obtain ⟨imported, hwritten⟩ := writeAll_memory (accepted_of_checked hchecked)
      rw [hchecked] at he
      dsimp only at he
      rw [show writeAll (memory H digest) target nodes = _ from hwritten] at he
      cases he

/-- With its log in a rope, a store is left as it was exactly if the records of what an
accepted manifest adds can be written. -/
theorem atomic_hashRope_iff {document : Obj} {s : HashRope.State} :
    Atomic H digest sealDigest spelled (hashRope H digest) document s ↔
      ∀ report nodes existing,
        checked H digest sealDigest spelled document s.nodes = .ok (report, nodes, existing) →
          Writable s nodes := by
  have hnodes : (hashRope H digest).nodes s = s.nodes := rfl
  constructor
  · intro h report nodes existing hchecked
    by_contra hwritable
    obtain ⟨⟨e, he⟩, id, hid, hafter⟩ :=
      writeAll_hashRope_error (accepted_of_checked hchecked) hwritable
    have hsame := h e (by
      simp only [importSubtree, hnodes, hchecked, he]
      rfl)
    simp only [importSubtree, hnodes, hchecked] at hsame
    rw [hsame, hid] at hafter
    cases hafter
  · intro h e he
    cases hchecked : checked H digest sealDigest spelled document s.nodes with
    | error e => simp only [importSubtree, hnodes, hchecked]
    | ok accepted =>
        obtain ⟨report, nodes, existing⟩ := accepted
        obtain ⟨log, imported, hwritten⟩ :=
          writeAll_hashRope (accepted_of_checked hchecked) (h report nodes existing hchecked)
        simp only [importSubtree, hnodes, hchecked, hwritten] at he
        cases he

end Atomic

end Governance

end Pollard
