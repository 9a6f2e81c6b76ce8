import Pollard.Rust.Replaying

/-!
# Rewriting hash rope logs

A walk visits every node below its root, parents first, so the lines of a rewritten log can be
replayed.
-/

namespace Pollard.Rust

open Lib Fallible

variable {lib : Library}

/-- A node that can be logged and read back: its parent is not staged, no zero of its payload has
a minus sign, and the text of its payload is read. -/
structure Node.Settled (lib : Library) (staged : List String) (node : Node) : Prop where
  parent : ∀ parent, node.parent = some parent → parent ∉ staged
  plain : node.payload.ZerosPlain
  read : lib.reads node.payload.respelled = true

namespace MemoryStore

/-! ## Walks -/

theorem WellFormed.mem_children {s : MemoryStore} (h : s.WellFormed lib) {parent id : String} :
    id ∈ s.children parent ↔ ∃ node, s.nodes.get? id = some node ∧ node.parent = some parent := by
  unfold children
  rw [List.mem_map]
  constructor
  · rintro ⟨e, he, rfl⟩
    obtain ⟨node, hnode, hparent, -⟩ := h.indexed.mp ((List.mem_insertionSort _).mp he)
    exact ⟨node, hnode, hparent⟩
  · rintro ⟨node, hnode, hparent⟩
    exact ⟨(node.kind.value, id),
      (List.mem_insertionSort _).mpr (h.indexed.mpr ⟨node, hnode, hparent, rfl⟩), rfl⟩

theorem WellFormed.mem_roots {s : MemoryStore} (h : s.WellFormed lib) {id : String} :
    id ∈ s.roots ↔ ∃ node, s.nodes.get? id = some node ∧ node.parent = none := by
  simp only [roots, List.mem_map, List.mem_insertionSort, List.mem_filter, Option.isNone_iff_eq_none]
  constructor
  · rintro ⟨_, ⟨node, ⟨hmem, hparent⟩, rfl⟩, rfl⟩
    obtain ⟨key, hget⟩ := Dict.exists_get?_of_mem_values hmem
    exact ⟨node, by rwa [h.keyed hget], hparent⟩
  · rintro ⟨node, hget, hparent⟩
    exact ⟨_, ⟨node, ⟨Dict.mem_values_of_get? hget, hparent⟩, rfl⟩, h.keyed hget⟩

/-- Parents come before their children, or were done before. -/
def ParentsFirst : List String → List Node → Prop
  | _, [] => True
  | done, node :: nodes =>
      (∀ parent, node.parent = some parent → parent ∈ done) ∧ ParentsFirst (node.id :: done) nodes

/-- What a walk visited. -/
structure Visited (s : MemoryStore) (pending done : List String) (nodes : List Node) : Prop where
  live : ∀ node ∈ nodes, s.nodes.get? node.id = some node
  pending : ∀ id ∈ pending, ∃ node ∈ nodes, node.id = id
  closed : ∀ node ∈ nodes, ∀ id ∈ s.children node.id, ∃ child ∈ nodes, child.id = id
  ordered : ParentsFirst done nodes

theorem WellFormed.visited {s : MemoryStore} (h : s.WellFormed lib) {fuel : ℕ}
    {pending seen done : List String} {nodes : List Node}
    (hwalk : s.walkFrom fuel pending seen = .ok nodes)
    (hdone : ∀ id ∈ pending, ∀ node parent, s.nodes.get? id = some node →
      node.parent = some parent → parent ∈ done) : s.Visited pending done nodes := by
  induction fuel generalizing pending seen done nodes with
  | zero =>
      cases pending with
      | nil =>
          cases hwalk
          exact ⟨nofun, nofun, nofun, trivial⟩
      | cons id pending => cases hwalk
  | succ fuel ih =>
      cases pending with
      | nil =>
          cases hwalk
          exact ⟨nofun, nofun, nofun, trivial⟩
      | cons id pending =>
          obtain ⟨_, -, hwalk⟩ := bind_ok_iff.mp hwalk
          obtain ⟨node, hnode, hwalk⟩ := bind_ok_iff.mp hwalk
          obtain ⟨rest, hrest, hwalk⟩ := bind_ok_iff.mp hwalk
          cases hwalk
          rw [get_ok_iff] at hnode
          have hid : node.id = id := h.keyed hnode
          have hvisited : s.Visited (s.children id ++ pending) (id :: done) rest := by
            refine ih hrest fun child hchild own parent hown hparent => ?_
            rcases List.mem_append.mp hchild with hchild | hchild
            · obtain ⟨other, hother, hp⟩ := h.mem_children.mp hchild
              rw [hown] at hother
              rw [Option.some.inj hother, hp] at hparent
              exact Option.some.inj hparent ▸ List.mem_cons_self
            · exact List.mem_cons_of_mem _
                (hdone child (List.mem_cons_of_mem _ hchild) own parent hown hparent)
          have hlater {other : String} (hother : other ∈ s.children id ++ pending) :
              ∃ found ∈ node :: rest, found.id = other := by
            obtain ⟨found, hfound, hid⟩ := hvisited.pending other hother
            exact ⟨found, List.mem_cons_of_mem _ hfound, hid⟩
          refine ⟨?_, ?_, ?_, ?_, hid ▸ hvisited.ordered⟩
          · rw [List.forall_mem_cons]
            exact ⟨hid.symm ▸ hnode, hvisited.live⟩
          · rw [List.forall_mem_cons]
            exact ⟨⟨node, List.mem_cons_self, hid⟩, fun other hother =>
              hlater (List.mem_append_right _ hother)⟩
          · rw [List.forall_mem_cons, hid]
            refine ⟨fun child hchild => hlater (List.mem_append_left _ hchild), ?_⟩
            intro own hown child hchild
            obtain ⟨found, hfound, hid⟩ := hvisited.closed own hown child hchild
            exact ⟨found, List.mem_cons_of_mem _ hfound, hid⟩
          · exact fun parent => hdone id List.mem_cons_self node parent hnode

/-! ## Lines of visited nodes -/

section Partly

variable {live read : MemoryStore} {staged : List String}

/-- A store that holds part of another reads one of its nodes. -/
theorem Partly.put (h : Partly lib live staged read) (hlive : live.WellFormed lib) {own : Node}
    (hown : live.nodes.get? own.id = some own) (hout : own.id ∉ staged)
    (hparent : ∀ parent, own.parent = some parent → read.exists? parent = true) {other : Node}
    (hreads : Node.Reads lib own other) (hother : other.Fit lib)
    (hvalid : other.validate lib = .ok ()) :
    ∃ read', read.put lib other = .ok read' ∧ Partly lib live staged read' ∧
      ∀ id, read'.exists? id = true ↔ read.exists? id = true ∨ id = own.id := by
  have hparents : ∀ parent, other.parent = some parent → read.exists? parent = true := by
    rw [hreads.parent]
    exact hparent
  cases hfound : read.nodes.get? own.id with
  | none =>
      have hnone : read.nodes.get? other.id = none := hreads.id ▸ hfound
      refine ⟨_, put_ok_iff.mpr ⟨hvalid, hparents, .inserted hnone⟩, ⟨?_, ?_⟩, fun id => ?_⟩
      · exact h.wellFormed.inserted hother hnone fun parent hp =>
          exists?_iff.mp (hparents parent hp)
      · intro id node hnode
        change (read.nodes.set other.id other).get? id = _ at hnode
        rw [Dict.get?_set, hreads.id] at hnode
        split at hnode
        · next hid =>
            subst hid
            exact ⟨hout, own, hown, Option.some.inj hnode ▸ hreads⟩
        · exact h.reads hnode
      · change ((read.nodes.set other.id other).get? id).isSome = true ↔ _
        rw [Dict.get?_set, hreads.id]
        split
        · next hid => simp [hid]
        · next hid => exact (or_iff_left (Ne.symm hid)).symm
  | some found =>
      obtain ⟨-, existing, hexisting, hfoundReads⟩ := h.reads hfound
      rw [hown] at hexisting
      obtain rfl := Option.some.inj hexisting
      have hfit := hlive.fit hown
      have hsame : own.sameIdentity own = true :=
        sameIdentity_iff.mpr ⟨rfl, rfl, rfl, Json.equal_refl hfit.payload hfit.identity⟩
      refine ⟨read, put_ok_iff.mpr ⟨hvalid, hparents, .same found ?_ ?_ ?_⟩, h, fun id => ?_⟩
      · rw [hreads.id, hfound]
      · exact hfoundReads.sameIdentity hreads hfit.toWellFormed hfit.toWellFormed hother hsame
      · rw [hfoundReads.differs hreads]
        simp [Node.differs]
      · rw [or_iff_left_of_imp]
        rintro rfl
        exact exists?_iff.mpr ⟨found, hfound⟩

end Partly

end MemoryStore

namespace HashRopeStore

open Pollard.Rust.MemoryStore (Partly Mirrors ParentsFirst Visited)

variable {s : HashRopeStore}

/-- What can be logged of the nodes that are not staged. -/
def AllSettled (lib : Library) (s : HashRopeStore) : Prop :=
  ∀ {id node}, s.inner.nodes.get? id = some node → id ∉ s.staged → node.Settled lib s.staged

/-- The metadata of the nodes that are not staged is read. -/
def AllRead (lib : Library) (s : HashRopeStore) : Prop :=
  ∀ {id node}, s.inner.nodes.get? id = some node → id ∉ s.staged → node.metadata.TextReads lib

/-- The lines of nodes after their parents are replayed. -/
theorem exists_replay (hlaw : lib.Lawful) (hinner : s.inner.WellFormed lib)
    (hsettled : s.AllSettled lib) (hread : s.AllRead lib) {nodes : List Node}
    (hlive : ∀ node ∈ nodes, s.inner.nodes.get? node.id = some node) {done : List String}
    (hordered : ParentsFirst done nodes) {lines : List Line}
    (hlines : (nodes.filter fun node => node.id ∉ s.staged).mapM (putRecord lib) = .ok lines)
    {read : MemoryStore} (hpartly : Partly lib s.inner s.staged read)
    (hdone : ∀ id ∈ done, id ∉ s.staged → read.exists? id = true) :
    ∃ read', lines.foldlM (replayLine lib) read = .ok read' ∧
      Partly lib s.inner s.staged read' ∧
      (∀ id, read.exists? id = true → read'.exists? id = true) ∧
      ∀ node ∈ nodes, node.id ∉ s.staged → read'.exists? node.id = true := by
  induction nodes generalizing done lines read with
  | nil =>
      cases hlines
      exact ⟨read, rfl, hpartly, fun _ => id, nofun⟩
  | cons node nodes ih =>
      rw [List.forall_mem_cons] at hlive
      obtain ⟨hparent, hordered⟩ := hordered
      by_cases hout : node.id ∈ s.staged
      · rw [List.filter_cons_of_neg (by simpa using hout)] at hlines
        obtain ⟨read', hfold, hpartly', hmono, hall⟩ := ih hlive.2 hordered hlines hpartly (by
          rw [List.forall_mem_cons]
          exact ⟨fun hnot => absurd hout hnot, hdone⟩)
        refine ⟨read', hfold, hpartly', hmono, ?_⟩
        rw [List.forall_mem_cons]
        exact ⟨fun hnot => absurd hout hnot, hall⟩
      · rw [List.filter_cons_of_pos (by simpa using hout), List.mapM_cons] at hlines
        obtain ⟨line, hline, hlines⟩ := bind_ok_iff.mp hlines
        obtain ⟨rest, hrest, hlines⟩ := bind_ok_iff.mp hlines
        cases hlines
        have hnode := hsettled hlive.1 hout
        obtain ⟨other, hreads, hother, hvalid, hreplay⟩ := exists_replay_put hlaw
          (hinner.fit hlive.1) hline hnode.read (hread hlive.1 hout)
        obtain ⟨read₁, hput, hpartly₁, hexists₁⟩ := hpartly.put hinner hlive.1 hout
          (fun parent hp => hdone parent (hparent parent hp) (hnode.parent parent hp))
          hreads hother hvalid
        obtain ⟨read', hfold, hpartly', hmono, hall⟩ := ih hlive.2 hordered hrest hpartly₁ (by
          rw [List.forall_mem_cons]
          exact ⟨fun _ => (hexists₁ _).mpr (.inr rfl), fun id hid hnot =>
            (hexists₁ id).mpr (.inl (hdone id hid hnot))⟩)
        refine ⟨read', ?_, hpartly', fun id hid => hmono id ((hexists₁ id).mpr (.inl hid)), ?_⟩
        · rw [List.foldlM_cons, hreplay, hput]
          exact hfold
        · rw [List.forall_mem_cons]
          exact ⟨fun _ => hmono _ ((hexists₁ _).mpr (.inr rfl)), hall⟩

/-- The lines of walks from some roots are replayed, and hold what the walks visited. -/
theorem exists_replay_roots (hlaw : lib.Lawful) (hinner : s.inner.WellFormed lib)
    (hsettled : s.AllSettled lib) (hread : s.AllRead lib) {roots : List String}
    (hroots : ∀ root ∈ roots, root ∈ s.inner.roots) {lines : List (List Line)}
    (hlines : List.Forall₂ (fun root lines => (do
      let nodes ← s.inner.walk root
      (nodes.filter fun node : Node => node.id ∉ s.staged).mapM (putRecord lib)) = .ok lines)
      roots lines)
    {read : MemoryStore} (hpartly : Partly lib s.inner s.staged read) :
    ∃ read', lines.flatten.foldlM (replayLine lib) read = .ok read' ∧
      Partly lib s.inner s.staged read' ∧
      (∀ id, read.exists? id = true → read'.exists? id = true) ∧
      ∀ root ∈ roots, ∃ nodes, Visited s.inner [root] [] nodes ∧
        ∀ node ∈ nodes, node.id ∉ s.staged → read'.exists? node.id = true := by
  induction hlines generalizing read with
  | nil => exact ⟨read, rfl, hpartly, fun _ => id, nofun⟩
  | @cons root line roots lines hline _ ih =>
      rw [List.forall_mem_cons] at hroots
      obtain ⟨nodes, hwalk, hline⟩ := bind_ok_iff.mp hline
      have hvisited : Visited s.inner [root] [] nodes := by
        refine hinner.visited hwalk fun id hid node parent hnode hparent => ?_
        obtain ⟨own, hown, hnone⟩ := hinner.mem_roots.mp hroots.1
        rw [List.mem_singleton.mp hid, hown] at hnode
        rw [← Option.some.inj hnode, hnone] at hparent
        cases hparent
      obtain ⟨read₁, hfold₁, hpartly₁, hmono₁, hall₁⟩ := exists_replay hlaw hinner hsettled hread
        hvisited.live hvisited.ordered hline hpartly nofun
      obtain ⟨read', hfold, hpartly', hmono, hall⟩ := ih hroots.2 hpartly₁
      refine ⟨read', ?_, hpartly', fun id hid => hmono id (hmono₁ id hid), ?_⟩
      · rw [List.flatten_cons, List.foldlM_append, hfold₁]
        exact hfold
      · rw [List.forall_mem_cons]
        exact ⟨⟨nodes, hvisited, fun node hnode hout => hmono _ (hall₁ node hnode hout)⟩, hall⟩

/-- A rewritten log reads as the nodes that are not staged. -/
theorem exists_replay_rewritten (hlaw : lib.Lawful) (hinner : s.inner.WellFormed lib)
    (hsettled : s.AllSettled lib) (hread : s.AllRead lib) {log : List Line}
    (h : s.rewrittenLog lib = .ok log) :
    ∃ read, log.foldlM (replayLine lib) .empty = .ok read ∧ Mirrors lib s.inner s.staged read := by
  obtain ⟨lines, hlines, h⟩ := bind_ok_iff.mp h
  cases h
  obtain ⟨read, hfold, hpartly, -, hroots⟩ := exists_replay_roots hlaw hinner hsettled hread
    (fun _ => id) (mapM_ok_iff.mp hlines) ⟨MemoryStore.wellFormed_empty, nofun⟩
  have hvisited : ∀ id ∈ Forest.keys (edges s.inner.nodes),
      ∃ root ∈ s.inner.roots, ∃ nodes, Visited s.inner [root] [] nodes ∧
        (∀ node ∈ nodes, node.id ∉ s.staged → read.exists? node.id = true) ∧
        ∃ node ∈ nodes, node.id = id := by
    refine hinner.grounded.forall_keys (fun id hid => ?_) fun id parent hid ⟨root, hroot, nodes,
      hnodes, hall, own, hown, hparent⟩ => ?_
    · have hroot := hinner.mem_roots.mpr (mem_edges.mp hid)
      obtain ⟨nodes, hnodes, hall⟩ := hroots id hroot
      exact ⟨id, hroot, nodes, hnodes, hall, hnodes.pending id List.mem_cons_self⟩
    · refine ⟨root, hroot, nodes, hnodes, hall, hnodes.closed own hown id ?_⟩
      rw [hparent]
      exact hinner.mem_children.mpr (mem_edges.mp hid)
  refine ⟨read, hfold, hpartly, fun {id own} hown hout => ?_⟩
  obtain ⟨-, -, nodes, -, hall, node, hnode, rfl⟩ :=
    hvisited id (mem_keys_edges.mpr ⟨own, hown⟩)
  exact MemoryStore.exists?_iff.mp (hall node hnode hout)

end HashRopeStore

end Pollard.Rust
