import Pollard.Runtime.Runs
import Mathlib.Data.Finset.Max

/-!
# Where a resumed run goes on

`prune` marks one node, and `gc` takes the subtree below it.  What remains of a tree
is what no pruned node is at or above; a resumed run belongs at a deepest leaf of
that.  `_deepest_non_pruned_leaf` looks at the marks of a node and of its children
only, so a node recorded below a pruned one is a leaf to it like any other.
-/

namespace Pollard

open Lib Effect

/-! ## Ranks -/

/-- A leaf is better than another: deeper, or as deep with a smaller id. -/
def Outranks (a b : String × ℕ) : Prop := b.2 < a.2 ∨ a.2 = b.2 ∧ a.1 < b.1

theorem Outranks.irrefl (a : String × ℕ) : ¬ Outranks a a := by
  rintro (h | ⟨-, h⟩)
  · exact lt_irrefl _ h
  · exact lt_irrefl _ h

theorem Outranks.trans {a b c : String × ℕ} (h : Outranks a b) (h' : Outranks b c) :
    Outranks a c := by
  rcases h with h | ⟨h, hid⟩ <;> rcases h' with h' | ⟨h', hid'⟩
  · exact .inl (h'.trans h)
  · exact .inl (h' ▸ h)
  · exact .inl (h ▸ h')
  · exact .inr ⟨h.trans h', hid.trans hid'⟩

theorem Outranks.trichotomy (a b : String × ℕ) : Outranks a b ∨ a = b ∨ Outranks b a := by
  rcases lt_trichotomy a.2 b.2 with h | h | h
  · exact .inr (.inr (.inl h))
  · rcases lt_trichotomy a.1 b.1 with hid | hid | hid
    · exact .inl (.inr ⟨h, hid⟩)
    · exact .inr (.inl (Prod.ext hid h))
    · exact .inr (.inr (.inr ⟨h.symm, hid⟩))
  · exact .inl (.inl h)

/-- Something no better than a third, and better than another, leaves that one worse than
the third. -/
theorem Outranks.of_not {a b c : String × ℕ} (h : Outranks a b) (h' : ¬ Outranks a c) :
    Outranks c b := by
  rcases Outranks.trichotomy a c with hac | rfl | hca
  · exact absurd hac h'
  · exact h
  · exact hca.trans h

namespace MemoryStore

variable (store : MemoryStore) (rootId : String)

/-- An id and the depth of its node. -/
def rank (id : String) : String × ℕ := (id, (store.ancestors id).length - 1)

/-! ## What remains -/

/-- A node of a tree stays when the subtrees of all its pruned nodes are removed. -/
def Remains (node : Node) : Prop :=
  node ∈ store.subtree rootId ∧
    ∀ id ∈ store.ancestors node.id, rootId ∈ store.ancestors id →
      ∀ above ∈ store.find? id, above.pruned = false

/-- A leaf of what remains. -/
structure RemainingLeaf (leaf : Node) : Prop where
  remains : store.Remains rootId leaf
  last : ∀ child ∈ store.nodes, child.parent = some leaf.id → ¬ store.Remains rootId child

/-- The id of a deepest leaf of what remains, the smallest of several; the root's if
nothing remains. -/
def DeepestRemaining (leafId : String) : Prop :=
  (∃ leaf, leaf.id = leafId ∧ store.RemainingLeaf rootId leaf ∧
    ∀ other, store.RemainingLeaf rootId other →
      ¬ Outranks (store.rank other.id) (store.rank leafId)) ∨
  (∀ node, ¬ store.Remains rootId node) ∧ leafId = rootId

/-- Every unpruned node recorded below a pruned one is outranked by a leaf of what
remains. -/
def Overshadowed : Prop :=
  ∀ node ∈ store.subtree rootId, node.pruned = false → ¬ store.Remains rootId node →
    ∃ leaf, store.RemainingLeaf rootId leaf ∧
      Outranks (store.rank leaf.id) (store.rank node.id)

variable {store rootId}

theorem ancestors_of_parent {child : Node} {id : String} (hchild : child ∈ store.nodes)
    (hparent : child.parent = some id) :
    store.ancestors child.id = child.id :: store.ancestors id := by
  refine Forest.chain_of_parent store.grounded ?_
  rw [← hparent]
  exact List.mem_map_of_mem hchild

theorem mem_subtree {node : Node} :
    node ∈ store.subtree rootId ↔ node ∈ store.nodes ∧ rootId ∈ store.ancestors node.id := by
  rw [subtree, List.mem_filter, decide_eq_true_iff]

/-- An unpruned child of a node that stays does. -/
theorem Remains.child {node child : Node} (h : store.Remains rootId node)
    (hchild : child ∈ store.nodes) (hparent : child.parent = some node.id)
    (hunpruned : child.pruned = false) : store.Remains rootId child := by
  have hchain := ancestors_of_parent hchild hparent
  refine ⟨mem_subtree.mpr ⟨hchild, ?_⟩, ?_⟩
  · rw [hchain]
    exact List.mem_cons_of_mem _ (mem_subtree.mp h.1).2
  · intro id hid hbelow above habove
    rw [hchain] at hid
    rcases List.mem_cons.mp hid with rfl | hid
    · rw [find?_of_mem hchild] at habove
      cases habove
      exact hunpruned
    · exact h.2 id hid hbelow above habove

/-- Nothing below a node that goes stays. -/
theorem Remains.of_child {node child : Node} (h : store.Remains rootId child)
    (hnode : node ∈ store.subtree rootId) (hchild : child ∈ store.nodes)
    (hparent : child.parent = some node.id) : store.Remains rootId node := by
  refine ⟨hnode, fun id hid => h.2 id ?_⟩
  rw [ancestors_of_parent hchild hparent]
  exact List.mem_cons_of_mem _ hid

theorem Remains.pruned {node : Node} (h : store.Remains rootId node) :
    node.pruned = false := by
  obtain ⟨hnode, hbelow⟩ := mem_subtree.mp h.1
  have hfind := find?_of_mem hnode
  exact h.2 node.id (mem_ancestors_self (contains_of_find? hfind)) hbelow node hfind

/-! ## What the search chooses from -/

/-- Unpruned, with pruned children only. -/
structure Eligible (store : MemoryStore) (node : Node) : Prop where
  unpruned : node.pruned = false
  last : ∀ child ∈ store.nodes, child.parent = some node.id → child.pruned = true

theorem RemainingLeaf.eligible {leaf : Node} (h : store.RemainingLeaf rootId leaf) :
    store.Eligible leaf := by
  refine ⟨h.remains.pruned, fun child hchild hparent => ?_⟩
  rw [← Bool.not_eq_false]
  exact fun hunpruned => h.last child hchild hparent (h.remains.child hchild hparent hunpruned)

theorem Eligible.remainingLeaf {node : Node} (h : store.Eligible node)
    (hremains : store.Remains rootId node) : store.RemainingLeaf rootId node := by
  refine ⟨hremains, fun child hchild hparent hstays => ?_⟩
  have hunpruned := hstays.pruned
  rw [h.last child hchild hparent] at hunpruned
  cases hunpruned

theorem mem_subtree_child {node child : Node} (hnode : node ∈ store.subtree rootId)
    (hchild : child ∈ store.nodes) (hparent : child.parent = some node.id) :
    child ∈ store.subtree rootId := by
  refine mem_subtree.mpr ⟨hchild, ?_⟩
  rw [ancestors_of_parent hchild hparent]
  exact List.mem_cons_of_mem _ (mem_subtree.mp hnode).2

/-- Among unpruned nodes whose unpruned children are among them, each is eligible or a
deeper one is. -/
theorem exists_eligible {Q : Node → Prop}
    (hchild : ∀ node ∈ store.subtree rootId, Q node → ∀ child ∈ store.nodes,
      child.parent = some node.id → child.pruned = false → Q child)
    {node : Node} (hnode : node ∈ store.subtree rootId) (hunpruned : node.pruned = false)
    (hQ : Q node) :
    ∃ other ∈ store.subtree rootId, store.Eligible other ∧ Q other ∧
      (other = node ∨ Outranks (store.rank other.id) (store.rank node.id)) := by
  classical
  let goers := (store.subtree rootId).toFinset.filter fun other =>
    other.pruned = false ∧ Q other
  have hmem : ∀ other, other ∈ goers ↔
      other ∈ store.subtree rootId ∧ other.pruned = false ∧ Q other := fun other => by
    simp only [goers, Finset.mem_filter, List.mem_toFinset]
  obtain ⟨deepest, hdeepest, hmax⟩ := goers.exists_max_image
    (fun other => (store.ancestors other.id).length)
    ⟨node, (hmem node).mpr ⟨hnode, hunpruned, hQ⟩⟩
  have heligible : ∀ other ∈ goers,
      (store.ancestors deepest.id).length ≤ (store.ancestors other.id).length →
        store.Eligible other := by
    intro other hother hle
    obtain ⟨hin, hlive, ho⟩ := (hmem other).mp hother
    refine ⟨hlive, fun child hstored hparent => ?_⟩
    rw [← Bool.not_eq_false]
    intro hchildlive
    have hbelow := hmax child ((hmem child).mpr ⟨mem_subtree_child hin hstored hparent,
      hchildlive, hchild other hin ho child hstored hparent hchildlive⟩)
    rw [ancestors_of_parent hstored hparent, List.length_cons] at hbelow
    omega
  obtain ⟨hin, -, hdeep⟩ := (hmem deepest).mp hdeepest
  rcases lt_or_ge (store.ancestors node.id).length (store.ancestors deepest.id).length
    with hlt | hge
  · refine ⟨deepest, hin, heligible deepest hdeepest le_rfl, hdeep, .inr (.inl ?_)⟩
    have hpos : 0 < (store.ancestors node.id).length :=
      List.length_pos_of_mem (mem_subtree.mp hnode).2
    change (store.ancestors node.id).length - 1 < (store.ancestors deepest.id).length - 1
    omega
  · exact ⟨node, hnode, heligible node ((hmem node).mpr ⟨hnode, hunpruned, hQ⟩) hge,
      hQ, .inl rfl⟩

/-! ## The search -/

theorem depth_eq {node : Node} (hnode : node ∈ store.nodes) :
    store.depth node.id = .ok (store.rank node.id).2 := by
  rw [depth, get, find?_of_mem hnode]
  rfl

/-- The children of a node, read one by one. -/
theorem mapM_children (node : Node) :
    ∃ children, (store.children node.id).mapM store.get = .ok children ∧
      ∀ child, child ∈ children ↔ child ∈ store.nodes ∧ child.parent = some node.id := by
  have hids : ∀ id, id ∈ store.children node.id ↔
      ∃ child ∈ store.nodes, child.parent = some node.id ∧ child.id = id := by
    intro id
    rw [children, List.mem_map]
    simp only [List.mem_insertionSort, List.mem_filter, decide_eq_true_iff, and_assoc]
  refine ⟨_, mapM_get fun id hid => ?_, fun child => ?_⟩
  · obtain ⟨child, hchild, -, rfl⟩ := (hids id).mp hid
    exact contains_of_find? (find?_of_mem hchild)
  · rw [List.mem_filterMap]
    constructor
    · rintro ⟨id, hid, hfind⟩
      obtain ⟨other, hother, hparent, rfl⟩ := (hids id).mp hid
      rw [find?_of_mem hother] at hfind
      cases hfind
      exact ⟨hother, hparent⟩
    · rintro ⟨hchild, hparent⟩
      exact ⟨child.id, (hids _).mpr ⟨child, hchild, hparent, rfl⟩, find?_of_mem hchild⟩

/-- A step of the search keeps the best so far or takes an eligible node that is
better. -/
theorem deeperLeaf_ok {node : Node} (hnode : node ∈ store.nodes) (best : String × ℕ) :
    ∃ next, deeperLeaf store best node = .ok next ∧
      (next = best ∨ store.Eligible node ∧ next = store.rank node.id ∧ Outranks next best) ∧
      (store.Eligible node → ¬ Outranks (store.rank node.id) next) := by
  obtain ⟨children, hchildren, hmem⟩ := store.mapM_children node
  unfold deeperLeaf
  by_cases hpruned : node.pruned = true
  · rw [if_pos hpruned]
    refine ⟨best, rfl, .inl rfl, fun h => ?_⟩
    rw [h.unpruned] at hpruned
    cases hpruned
  · rw [if_neg hpruned, hchildren]
    simp only [bind, Except.bind]
    by_cases hany : (children.any fun child => ¬ child.pruned) = true
    · rw [if_pos hany]
      refine ⟨best, rfl, .inl rfl, fun h => ?_⟩
      obtain ⟨child, hchild, hlive⟩ := List.any_eq_true.mp hany
      obtain ⟨hin, hparent⟩ := (hmem child).mp hchild
      rw [h.last child hin hparent] at hlive
      simp at hlive
    · have heligible : store.Eligible node := by
        refine ⟨by simpa using hpruned, fun child hchild hparent => ?_⟩
        by_contra hlive
        exact hany (List.any_eq_true.mpr ⟨child, (hmem child).mpr ⟨hchild, hparent⟩, by
          simpa using hlive⟩)
      rw [if_neg hany, depth_eq hnode]
      by_cases hbetter : Outranks (store.rank node.id) best
      · exact ⟨store.rank node.id, if_pos hbetter, .inr ⟨heligible, rfl, hbetter⟩,
          fun _ => Outranks.irrefl _⟩
      · exact ⟨best, if_neg hbetter, .inl rfl, fun _ => hbetter⟩

theorem foldlM_deeperLeaf {nodes : List Node} (hnodes : ∀ node ∈ nodes, node ∈ store.nodes)
    (best : String × ℕ) :
    ∃ last, nodes.foldlM (deeperLeaf store) best = .ok last ∧
      (last = best ∨ ∃ node ∈ nodes, store.Eligible node ∧ last = store.rank node.id) ∧
      ¬ Outranks best last ∧
      ∀ node ∈ nodes, store.Eligible node → ¬ Outranks (store.rank node.id) last := by
  induction nodes generalizing best with
  | nil => exact ⟨best, rfl, .inl rfl, Outranks.irrefl best, fun _ hnode => by cases hnode⟩
  | cons node nodes ih =>
      rw [List.forall_mem_cons] at hnodes
      obtain ⟨next, hstep, hnext, hnode⟩ := deeperLeaf_ok hnodes.1 best
      obtain ⟨last, hrest, hlast, hworse, hall⟩ := ih hnodes.2 next
      have hbest : ∀ other, ¬ Outranks other next → ¬ Outranks other last :=
        fun other hother hbetter => hworse (hbetter.of_not hother)
      refine ⟨last, ?_, ?_, ?_, ?_⟩
      · rw [List.foldlM_cons, hstep]
        exact hrest
      · rcases hlast with rfl | ⟨other, hother, heligible, rfl⟩
        · rcases hnext with hsame | ⟨heligible, hrank, -⟩
          · exact .inl hsame
          · exact .inr ⟨node, List.mem_cons_self, heligible, hrank⟩
        · exact .inr ⟨other, List.mem_cons_of_mem _ hother, heligible, rfl⟩
      · apply hbest
        rcases hnext with rfl | ⟨-, -, hbetter⟩
        · exact Outranks.irrefl next
        · exact fun h => Outranks.irrefl _ (h.trans hbetter)
      · rw [List.forall_mem_cons]
        exact ⟨fun h => hbest _ (hnode h), hall⟩

/-- A node of a tree at depth zero is its root. -/
theorem eq_of_depth_zero {node : Node} (hnode : node ∈ store.subtree rootId)
    (hdepth : (store.rank node.id).2 = 0) : node.id = rootId := by
  obtain ⟨hin, hbelow⟩ := mem_subtree.mp hnode
  have hself := mem_ancestors_self (contains_of_find? (find?_of_mem hin))
  by_contra hne
  have htwo : 2 ≤ (store.ancestors node.id).length :=
    (List.subperm_of_subset (by simpa using hne)
      (List.cons_subset.mpr ⟨hself, List.cons_subset.mpr ⟨hbelow, List.nil_subset _⟩⟩)).length_le
  change (store.ancestors node.id).length - 1 = 0 at hdepth
  omega

/-- The search finds the best eligible node of the tree, or the root if there is none. -/
theorem deepestNonPrunedLeaf_ok (hroot : store.contains rootId = true) :
    ∃ leafId, deepestNonPrunedLeaf store rootId = .ok leafId ∧
      ((∃ leaf ∈ store.subtree rootId, store.Eligible leaf ∧ leaf.id = leafId ∧
        ∀ other ∈ store.subtree rootId, store.Eligible other →
          ¬ Outranks (store.rank other.id) (store.rank leafId)) ∨
      leafId = rootId ∧ ∀ other ∈ store.subtree rootId, ¬ store.Eligible other) := by
  obtain ⟨nodes, hwalk, hperm⟩ := walk_subtree hroot
  have hstored : ∀ node ∈ nodes, node ∈ store.nodes :=
    fun node hnode => (mem_subtree.mp (hperm.mem_iff.mp hnode)).1
  obtain ⟨last, hfold, hlast, -, hall⟩ := foldlM_deeperLeaf hstored (rootId, 0)
  refine ⟨last.1, ?_, ?_⟩
  · rw [deepestNonPrunedLeaf, hwalk]
    simp only [bind, Except.bind, hfold]
    rfl
  · replace hall := fun node hnode => hall node (hperm.mem_iff.mpr hnode)
    rcases hlast with rfl | ⟨leaf, hleaf, heligible, rfl⟩
    · by_cases hnone : ∀ other ∈ store.subtree rootId, ¬ store.Eligible other
      · exact .inr ⟨rfl, hnone⟩
      · -- only the root is no better than the root
        push Not at hnone
        obtain ⟨other, hother, heligible⟩ := hnone
        have hzero : (store.rank other.id).2 = 0 := by
          by_contra hpos
          exact hall other hother heligible (.inl (Nat.pos_of_ne_zero hpos))
        have hid := eq_of_depth_zero hother hzero
        refine .inl ⟨other, hother, heligible, hid, ?_⟩
        have hrank : store.rank rootId = (rootId, 0) := by
          rw [← hid]
          exact Prod.ext rfl hzero
        rw [hrank]
        exact hall
    · exact .inl ⟨leaf, hperm.mem_iff.mp hleaf, heligible, rfl, hall⟩

/-- A pruned node is at or above a node of a tree whose root is not pruned. -/
def Strays (store : MemoryStore) (rootId leafId : String) : Prop :=
  (∃ root ∈ store.find? rootId, root.pruned = false) ∧
    ∃ id ∈ store.ancestors leafId, rootId ∈ store.ancestors id ∧
      ∃ above ∈ store.find? id, above.pruned = true

instance (store : MemoryStore) (rootId leafId : String) :
    Decidable (store.Strays rootId leafId) :=
  inferInstanceAs (Decidable (_ ∧ _))

theorem Strays.not_deepestRemaining {leafId : String} (h : store.Strays rootId leafId) :
    ¬ store.DeepestRemaining rootId leafId := by
  obtain ⟨⟨root, hroot, hlive⟩, id, hid, hbelow, above, habove, hpruned⟩ := h
  rintro (⟨leaf, rfl, hleaf, -⟩ | ⟨hnothing, -⟩)
  · rw [hleaf.remains.2 id hid hbelow above habove] at hpruned
    cases hpruned
  · obtain ⟨hin, rfl⟩ := mem_of_find? hroot
    have hself := mem_ancestors_self (contains_of_find? hroot)
    refine hnothing root ⟨mem_subtree.mpr ⟨hin, hself⟩, fun other hother hbelow node hnode => ?_⟩
    rw [Forest.chain_antisymm store.grounded hother hbelow, hroot] at hnode
    cases hnode
    exact hlive

/-- The search ends at a deepest leaf of what remains exactly where a leaf of what remains
outranks whatever was recorded below a pruned node. -/
theorem deepestRemaining_iff {leafId : String} (hroot : store.contains rootId = true)
    (h : deepestNonPrunedLeaf store rootId = .ok leafId) :
    store.DeepestRemaining rootId leafId ↔ store.Overshadowed rootId := by
  obtain ⟨_, hsame, hfound⟩ := deepestNonPrunedLeaf_ok hroot
  rw [h] at hsame
  cases hsame
  constructor
  · intro hdeepest node hnode hunpruned hgoes
    obtain ⟨goer, hgoer, heligible, hgone, habove⟩ := exists_eligible
      (Q := fun node => ¬ store.Remains rootId node)
      (fun _ hin hgoes _ hchild hparent _ hstays => hgoes (hstays.of_child hin hchild hparent))
      hnode hunpruned hgoes
    -- the goer is eligible, so the search found nothing worse
    obtain ⟨found, hin, helig, rfl, hbest⟩ := hfound.resolve_right fun hnone =>
      hnone.2 goer hgoer heligible
    rcases hdeepest with ⟨leaf, hid, hleaf, -⟩ | ⟨hnothing, rfl⟩
    · have hne : store.rank goer.id ≠ store.rank found.id := by
        intro heq
        have hfind := find?_of_mem (mem_subtree.mp hgoer).1
        rw [show goer.id = found.id from congrArg Prod.fst heq, ← hid,
          find?_of_mem (mem_subtree.mp hleaf.remains.1).1] at hfind
        cases hfind
        exact hgone hleaf.remains
      have houtranks : Outranks (store.rank found.id) (store.rank goer.id) :=
        (Outranks.trichotomy _ _).resolve_right fun hother =>
          hother.elim (fun heq => hne heq.symm) (hbest goer hgoer heligible)
      refine ⟨leaf, hleaf, hid ▸ ?_⟩
      rcases habove with rfl | habove
      · exact houtranks
      · exact houtranks.trans habove
    · -- the root itself was found, so it is not pruned and remains
      refine absurd ⟨hin, fun id hid hbelow above habove => ?_⟩ (hnothing found)
      rw [Forest.chain_antisymm store.grounded hid hbelow,
        find?_of_mem (mem_subtree.mp hin).1] at habove
      cases habove
      exact helig.unpruned
  · intro hshadowed
    rcases hfound with ⟨found, hin, helig, rfl, hbest⟩ | ⟨hid, hnone⟩
    · have hremains : store.Remains rootId found := by
        by_contra hgoes
        obtain ⟨leaf, hleaf, houtranks⟩ := hshadowed found hin helig.unpruned hgoes
        exact hbest leaf hleaf.remains.1 hleaf.eligible houtranks
      exact .inl ⟨found, rfl, helig.remainingLeaf hremains, fun other hother =>
        hbest other hother.remains.1 hother.eligible⟩
    · refine .inr ⟨fun node hremains => ?_, hid⟩
      obtain ⟨leaf, hleaf, heligible, -⟩ := exists_eligible (Q := store.Remains rootId)
        (fun _ _ hstays _ hchild hparent hlive => hstays.child hchild hparent hlive)
        hremains.1 hremains.pruned hremains
      exact hnone leaf hleaf heligible

end MemoryStore

section Runtime

variable (H : Hashing) (rt : Runtime)

/-- A resumed run starts at the leaf the search finds in the store as it is then. -/
theorem resume_cursor {label : String} {budget : Option Budget} {attempt : ℤ}
    {store after : MemoryStore} {run : Run}
    (h : rt.resume H label budget attempt store = .ok run after) :
    after.contains run.rootId = true ∧
      deepestNonPrunedLeaf after run.rootId = .ok run.cursorId := by
  unfold Runtime.resume at h
  obtain ⟨root, m, hroot, h⟩ := bind_eq_ok h
  obtain ⟨-, rfl⟩ := orRaise_eq_ok hroot
  obtain ⟨stored, m, hstored, h⟩ := bind_eq_ok h
  obtain ⟨hid, hin⟩ := storedRoot_ok H rt hstored
  obtain ⟨_, n, hbind, h⟩ := bind_eq_ok h
  obtain ⟨scopes, k, hscopes, h⟩ := bind_eq_ok h
  rw [bind_of_ok (get_apply k)] at h
  obtain ⟨cursorId, k, hleaf, h⟩ := bind_eq_ok h
  obtain ⟨hfound, rfl⟩ := orRaise_eq_ok hleaf
  cases h
  have hkept := ((grown_bindRegistry rt _).of_ok hbind).trans
    ((grown_runScopes H rt _ _).of_ok hscopes)
  exact ⟨by rw [hid]; exact (hkept.kept _ hin).1, hfound⟩

/-- A resumed run goes on at a deepest leaf of what remains of its tree exactly where a
leaf of what remains outranks every unpruned node recorded below a pruned one. -/
theorem resumes_at_deepest_remaining_iff {label : String} {budget : Option Budget} {attempt : ℤ}
    {store after : MemoryStore} {run : Run}
    (h : rt.resume H label budget attempt store = .ok run after) :
    after.DeepestRemaining run.rootId run.cursorId ↔ after.Overshadowed run.rootId :=
  MemoryStore.deepestRemaining_iff (resume_cursor H rt h).1 (resume_cursor H rt h).2

end Runtime

/-! ## A note below a pruned one -/

/-- A run that prunes its first note and goes on below it. -/
def prunedInputs : List Input :=
  [.opened false "r" none 0, .acted 0 .sync .step (.note (.dict []) 0),
    .acted 0 .sync .step .prune, .acted 0 .sync .step (.note (.dict []) 0)]

def bareRuntime : Runtime := { meters := [] }

/-- The store a run of inputs leaves. -/
def storeAfter (inputs : List Input) : MemoryStore :=
  (World.run .plain bareRuntime { store := .empty } inputs).store

theorem resumes_above_pruned_tip :
    ∃ run after, bareRuntime.resume .plain "r" none 0 (storeAfter (prunedInputs.take 3)) =
      .ok run after ∧
      (after.DeepestRemaining run.rootId run.cursorId ↔ after.Overshadowed run.rootId) := by
  have hresumed : Returns (bareRuntime.resume .plain "r" none 0)
      (storeAfter (prunedInputs.take 3)) fun _ _ => True := by decide +kernel
  obtain ⟨run, after, hresume, -⟩ := hresumed.exists
  exact ⟨run, after, hresume, resumes_at_deepest_remaining_iff .plain bareRuntime hresume⟩

/-- The run goes on at the second note, which `gc` would drop with the first. -/
theorem resumes_below_pruned_node :
    ∃ run after, bareRuntime.resume .plain "r" none 0 (storeAfter prunedInputs) =
      .ok run after ∧ ¬ after.DeepestRemaining run.rootId run.cursorId := by
  have hresumed : Returns (bareRuntime.resume .plain "r" none 0) (storeAfter prunedInputs)
      fun run after => after.Strays run.rootId run.cursorId := by decide +kernel
  obtain ⟨run, after, hresume, hstrays⟩ := hresumed.exists
  exact ⟨run, after, hresume, hstrays.not_deepestRemaining⟩

end Pollard
