import Pollard.Rust.RuntimeIndex

/-!
# What an index knows of a store

An index is consistent with a state of the store if every ancestry, all charges and every total
that it holds are those the store has there.  A write of one node, after which the index is
refreshed, keeps it so.
-/

namespace Pollard.Rust

open Lib Fallible Effect StoreReads

namespace RuntimeIndex

variable {State : Type} (S : StoreReads State) (floats : Floats)

/-- The ancestry of the index is that of the store. -/
def Located (index : RuntimeIndex) (s : State) : Prop :=
  ∀ id info, index.ancestry.get? id = some info →
    ∃ node, S.get s id = .ok node ∧ index.place node = some info

/-- The charges of the index are those of the store. -/
def Charged (index : RuntimeIndex) (s : State) : Prop :=
  ∀ id charges, index.charges.get? id = some charges →
    ∃ node, S.get s id = .ok node ∧ meterChargesFromMeta floats node.metadata = .ok charges

def Knows (index : RuntimeIndex) (id : String) : Prop :=
  index.ancestry.contains id = true ∧ index.charges.contains id = true

/-- The total is that of a walk, whose nodes the index knows. -/
def Totalled (index : RuntimeIndex) (s : State) (anchor : String) (total : MeterCharges) : Prop :=
  ∃ nodes, S.Walks s [anchor] [] nodes ∧ (∀ id ∈ ids nodes, index.Knows id) ∧
    ∀ name, total.getD name 0 = (nodes.map (amountOf floats name)).sum

/-- What the index holds is what the store has. -/
structure Consistent (index : RuntimeIndex) (s : State) : Prop where
  located : index.Located S s
  verified : ∀ id ∈ index.verified, index.ancestry.contains id = true
  charged : index.Charged S floats s
  totals : ∀ anchor total, index.totals.get? anchor = some total →
    index.Totalled S floats s anchor total

variable {S floats} {index index' : RuntimeIndex} {s t : State}

theorem consistent_fresh (revision : Option StoreRevision) :
    (fresh revision).Consistent S floats s where
  located := fun id info h => by cases h
  verified := fun id h => absurd h List.not_mem_nil
  charged := fun id charges h => by cases h
  totals := fun anchor total h => by cases h

theorem Consistent.of_same (h : index.Consistent S floats s) (hsame : S.Same s t) :
    index.Consistent S floats t where
  located := fun id info hinfo => by
    rw [hsame.get]
    exact h.located id info hinfo
  verified := h.verified
  charged := fun id charges hcharges => by
    rw [hsame.get]
    exact h.charged id charges hcharges
  totals := fun anchor total htotal => by
    obtain ⟨nodes, hwalk, hnodes⟩ := h.totals anchor total htotal
    exact ⟨nodes, hsame.walks hwalk, hnodes⟩

/-! ## Ancestry -/

/-- All that is known of ancestry stays known. -/
def Grows (index index' : RuntimeIndex) : Prop :=
  ∀ id info, index.ancestry.get? id = some info → index'.ancestry.get? id = some info

theorem Grows.contains (h : index.Grows index') {id : String}
    (hid : index.ancestry.contains id = true) : index'.ancestry.contains id = true := by
  obtain ⟨info, hinfo⟩ := Option.isSome_iff_exists.mp hid
  exact Option.isSome_iff_exists.mpr ⟨info, h id info hinfo⟩

theorem Grows.place (h : index.Grows index') {node : Node} {info : Option String × String × ℕ}
    (hplace : index.place node = some info) : index'.place node = some info := by
  unfold RuntimeIndex.place at hplace ⊢
  split at hplace
  · exact hplace
  · next parent hparent =>
      obtain ⟨above, habove, rfl⟩ := Option.map_eq_some_iff.mp hplace
      rw [h parent above habove, Option.map_some]

theorem parent_of_place {node : Node} {info : Option String × String × ℕ}
    (h : index.place node = some info) : info.1 = node.parent := by
  unfold place at h
  split at h
  · next hnone =>
      cases h
      exact hnone.symm
  · next parent hsome =>
      obtain ⟨above, -, rfl⟩ := Option.map_eq_some_iff.mp h
      exact hsome.symm

theorem place_isSome {node : Node}
    (h : ∀ parent, node.parent = some parent → index.ancestry.contains parent = true) :
    ∃ info, index.place node = some info := by
  unfold place
  split
  · exact ⟨_, rfl⟩
  · next parent hsome =>
      obtain ⟨above, habove⟩ := Option.isSome_iff_exists.mp (h parent hsome)
      rw [habove]
      exact ⟨_, rfl⟩

theorem Located.parent_known (h : index.Located S s) {id parent : String} {node : Node}
    (hget : S.get s id = .ok node) (hid : index.ancestry.contains id = true)
    (hparent : node.parent = some parent) : index.ancestry.contains parent = true := by
  obtain ⟨info, hinfo⟩ := Option.isSome_iff_exists.mp hid
  obtain ⟨found, hfound, hplace⟩ := h id info hinfo
  obtain rfl := Except.ok.inj (hfound.symm.trans hget)
  unfold place at hplace
  rw [hparent] at hplace
  obtain ⟨above, habove, -⟩ := Option.map_eq_some_iff.mp hplace
  exact Option.isSome_iff_exists.mpr ⟨above, habove⟩

theorem locate_grows (h : index.Located S s) {node : Node} (hget : S.get s node.id = .ok node) :
    index.Grows (index.locate node) := by
  intro id info hinfo
  unfold locate
  split
  · next placed hplace =>
      dsimp only
      rw [Dict.get?_set]
      split
      · next heq =>
          subst heq
          obtain ⟨found, hfound, hplace'⟩ := h node.id info hinfo
          obtain rfl := Except.ok.inj (hfound.symm.trans hget)
          exact hplace.symm.trans hplace'
      · exact hinfo
  · exact hinfo

theorem located_locate (h : index.Located S s) {node : Node}
    (hget : S.get s node.id = .ok node) : (index.locate node).Located S s := by
  have hgrows := locate_grows h hget
  intro id info hinfo
  have hcases : index.ancestry.get? id = some info ∨
      id = node.id ∧ index.place node = some info := by
    unfold locate at hinfo
    split at hinfo
    · next placed hplace =>
        dsimp only at hinfo
        rw [Dict.get?_set] at hinfo
        split at hinfo
        · next heq => exact .inr ⟨heq.symm, hplace.trans hinfo⟩
        · exact .inl hinfo
    · exact .inl hinfo
  rcases hcases with hold | ⟨rfl, hplace⟩
  · obtain ⟨found, hfound, hplace⟩ := h id info hold
    exact ⟨found, hfound, hgrows.place hplace⟩
  · exact ⟨node, hget, hgrows.place hplace⟩

theorem known_locate {node : Node}
    (h : ∀ parent, node.parent = some parent → index.ancestry.contains parent = true) :
    (index.locate node).ancestry.contains node.id = true := by
  obtain ⟨info, hinfo⟩ := place_isSome h
  unfold locate
  rw [hinfo]
  dsimp only
  rw [Dict.contains, Dict.get?_set_self]
  rfl

theorem Located.wrote (hrows : S.Rows) (h : index.Located S s) {id : String}
    (hwrote : S.Wrote id s t) : index.Located S t := by
  intro other info hinfo
  obtain ⟨node, hget, hplace⟩ := h other info hinfo
  have hplaceOf : ∀ new : Node, new.id = node.id → new.parent = node.parent →
      index.place new = some info := by
    intro new hid hparent
    rw [← hplace]
    unfold place
    rw [hid, hparent]
  cases hwrote with
  | same hsame =>
      rw [hsame.get]
      exact ⟨node, hget, hplace⟩
  | changed old new hchanged =>
      by_cases heq : other = id
      · subst heq
        obtain rfl := Except.ok.inj (hchanged.before.symm.trans hget)
        refine ⟨new, hchanged.after, hplaceOf new ?_ hchanged.parent⟩
        rw [hrows.keyed hchanged.after, hrows.keyed hget]
      · exact ⟨node, hchanged.keeps other node heq hget, hplace⟩
  | inserted new hinserted =>
      have hne : other ≠ id := fun heq => hinserted.not_read hrows (heq ▸ hget)
      exact ⟨node, hinserted.keeps other node hne hget, hplace⟩

/-! ## Descendants -/

section Descends

variable (hrows : S.Rows) (h : index.Located S s) {anchor : String} {nodes : List Node}
  (hwalk : S.Walks s [anchor] [] nodes)

include hrows h hwalk

omit h in
theorem anchor_visited : anchor ∈ ids nodes :=
  hwalk.pending_subset hrows (List.mem_singleton.mpr rfl)

/-- What is below something visited is visited. -/
theorem visited_of_parent {id parent : String} {info : Option String × String × ℕ}
    (hinfo : index.ancestry.get? id = some info) (hparent : info.1 = some parent)
    (hvisited : parent ∈ ids nodes) : id ∈ ids nodes := by
  obtain ⟨node, hget, hplace⟩ := h id info hinfo
  have heq : node.parent = some parent := (parent_of_place hplace).symm.trans hparent
  exact hwalk.closed hrows parent hvisited (hrows.found hget heq)

theorem visited_of_reaches {fuel : ℕ} {id : String} (hreaches : index.reaches anchor fuel id = true) :
    id ∈ ids nodes := by
  induction fuel generalizing id with
  | zero => exact of_decide_eq_true hreaches ▸ anchor_visited hrows hwalk
  | succ fuel ih =>
      rw [reaches] at hreaches
      split at hreaches
      · next heq => exact heq ▸ anchor_visited hrows hwalk
      · split at hreaches
        · next parent root depth hinfo =>
            exact visited_of_parent hrows h hwalk hinfo rfl (ih hreaches)
        · cases hreaches

theorem visited_of_root {id : String} {depth : ℕ} {parent : Option String}
    (hinfo : index.ancestry.get? id = some (parent, anchor, depth)) : id ∈ ids nodes := by
  induction depth generalizing id parent with
  | zero =>
      obtain ⟨node, hget, hplace⟩ := h id _ hinfo
      unfold place at hplace
      split at hplace
      · cases hplace
        rw [← hrows.keyed hget]
        exact anchor_visited hrows hwalk
      · obtain ⟨above, -, habove⟩ := Option.map_eq_some_iff.mp hplace
        cases habove
  | succ depth ih =>
      obtain ⟨node, hget, hplace⟩ := h id _ hinfo
      unfold place at hplace
      split at hplace
      · cases hplace
      · next above habove =>
          obtain ⟨⟨grand, root, d⟩, hget', heq⟩ := Option.map_eq_some_iff.mp hplace
          cases heq
          exact visited_of_parent hrows h hwalk hinfo rfl (ih hget')

theorem reaches_of_visited {depth : ℕ} {id root : String} {parent : Option String}
    (hinfo : index.ancestry.get? id = some (parent, root, depth)) (hid : id ∈ ids nodes) :
    index.reaches anchor depth id = true := by
  induction depth generalizing id parent with
  | zero =>
      rcases hwalk.origin hrows id hid with hanchor | ⟨above, habove, hchild⟩
      · exact decide_eq_true (List.mem_singleton.mp hanchor)
      · obtain ⟨node, hget, hplace⟩ := h id _ hinfo
        unfold place at hplace
        rw [hrows.listed hchild hget] at hplace
        obtain ⟨_, -, heq⟩ := Option.map_eq_some_iff.mp hplace
        cases heq
  | succ depth ih =>
      rw [reaches]
      split
      · rfl
      · next hne =>
          rcases hwalk.origin hrows id hid with hanchor | ⟨above, habove, hchild⟩
          · exact absurd (List.mem_singleton.mp hanchor) hne
          · obtain ⟨node, hget, hplace⟩ := h id _ hinfo
            unfold place at hplace
            rw [hrows.listed hchild hget] at hplace
            obtain ⟨⟨grand, root', d⟩, hget', heq⟩ := Option.map_eq_some_iff.mp hplace
            cases heq
            rw [hinfo]
            exact ih hget' habove

/-- The index tells what a walk from the anchor visits. -/
theorem descends_iff {id : String} (hknown : index.ancestry.contains id = true) :
    index.descends id anchor = true ↔ id ∈ ids nodes := by
  obtain ⟨⟨parent, root, depth⟩, hinfo⟩ := Option.isSome_iff_exists.mp hknown
  unfold descends
  rw [hinfo]
  dsimp only
  rw [Bool.or_eq_true, decide_eq_true_eq]
  constructor
  · rintro (rfl | hreaches)
    · exact visited_of_root hrows h hwalk hinfo
    · exact visited_of_reaches hrows h hwalk hreaches
  · exact fun hid => .inr (reaches_of_visited hrows h hwalk hinfo hid)

end Descends

/-- The depth of the index is the number of parents in the store. -/
theorem depthFrom_of_located (h : index.Located S s) {depth : ℕ} {id root : String}
    {parent : Option String} (hinfo : index.ancestry.get? id = some (parent, root, depth))
    {seen : List String} (hseen : ∀ other ∈ seen, ∃ info, index.ancestry.get? other = some info ∧
      depth < info.2.2) :
    depthFrom (S.get s) (depth + 1) id seen = .ok depth := by
  have hfresh : id ∉ seen := by
    intro hmem
    obtain ⟨info, hother, hlt⟩ := hseen id hmem
    obtain rfl := Option.some.inj (hinfo.symm.trans hother)
    exact lt_irrefl _ hlt
  obtain ⟨node, hget, hplace⟩ := h id _ hinfo
  induction depth generalizing id parent seen node with
  | zero =>
      rw [depthFrom, ensure_ok_iff.mpr hfresh, hget]
      unfold place at hplace
      split at hplace
      · next hnone =>
          dsimp only [bind, Except.bind]
          rw [hnone]
          rfl
      · obtain ⟨above, -, heq⟩ := Option.map_eq_some_iff.mp hplace
        cases heq
  | succ depth ih =>
      rw [depthFrom, ensure_ok_iff.mpr hfresh, hget]
      unfold place at hplace
      split at hplace
      · cases hplace
      · next above hsome =>
          obtain ⟨⟨grand, root', d⟩, hget', heq⟩ := Option.map_eq_some_iff.mp hplace
          cases heq
          obtain ⟨found, hfound, hplace'⟩ := h above _ hget'
          have hseen' : ∀ other ∈ id :: seen, ∃ info, index.ancestry.get? other = some info ∧
              d < info.2.2 := by
            intro other hother
            rcases List.mem_cons.mp hother with rfl | hother
            · exact ⟨_, hinfo, Nat.lt_succ_self d⟩
            · obtain ⟨info, hget, hlt⟩ := hseen other hother
              exact ⟨info, hget, (Nat.lt_succ_self d).trans hlt⟩
          have hfresh' : above ∉ id :: seen := by
            intro hmem
            obtain ⟨info, hother, hlt⟩ := hseen' above hmem
            obtain rfl := Option.some.inj (hget'.symm.trans hother)
            exact lt_irrefl _ hlt
          dsimp only [bind, Except.bind]
          rw [hsome]
          dsimp only
          rw [ih hget' hseen' hfresh' found hfound hplace']
          rfl

/-! ## Remembering -/

/-- The index grows by what it remembers of a state. -/
structure Remembers (S : StoreReads State) (floats : Floats) (s : State)
    (index index' : RuntimeIndex) : Prop where
  revision : index'.revision = index.revision
  totals : index'.totals = index.totals
  grows : index.Located S s → index'.Located S s ∧ index.Grows index'
  charged : index.Charged S floats s → index'.Charged S floats s
  charges : ∀ id, index.charges.contains id = true → index'.charges.contains id = true
  verified : index.Located S s → (∀ id ∈ index.verified, index.ancestry.contains id = true) →
    ∀ id ∈ index'.verified, index'.ancestry.contains id = true

theorem frame_remembers : Frame (Remembers S floats s) where
  refl := fun index => ⟨rfl, rfl, fun h => ⟨h, fun _ _ hinfo => hinfo⟩, id, fun _ => id,
    fun _ h => h⟩
  trans := fun h h' => {
    revision := h'.revision.trans h.revision
    totals := h'.totals.trans h.totals
    grows := fun hlocated => by
      obtain ⟨hmid, hgrows⟩ := h.grows hlocated
      obtain ⟨hend, hgrows'⟩ := h'.grows hmid
      exact ⟨hend, fun id info hinfo => hgrows' id info (hgrows id info hinfo)⟩
    charged := fun hcharged => h'.charged (h.charged hcharged)
    charges := fun id hid => h'.charges id (h.charges id hid)
    verified := fun hlocated hverified =>
      h'.verified (h.grows hlocated).1 (h.verified hlocated hverified) }

theorem Totalled.grows {anchor : String} {total : MeterCharges}
    (h : index.Totalled S floats s anchor total) (hgrows : index.Grows index')
    (hcharges : ∀ id, index.charges.contains id = true → index'.charges.contains id = true) :
    index'.Totalled S floats s anchor total := by
  obtain ⟨nodes, hwalk, hknown, htotal⟩ := h
  exact ⟨nodes, hwalk, fun id hid => ⟨hgrows.contains (hknown id hid).1,
    hcharges id (hknown id hid).2⟩, htotal⟩

theorem Consistent.remembers (h : index.Consistent S floats s)
    (hr : Remembers S floats s index index') : index'.Consistent S floats s where
  located := (hr.grows h.located).1
  verified := hr.verified h.located h.verified
  charged := hr.charged h.charged
  totals := fun anchor total htotal => by
    rw [hr.totals] at htotal
    exact (h.totals anchor total htotal).grows (hr.grows h.located).2 hr.charges

theorem remembers_locate {node : Node} (hget : S.get s node.id = .ok node) :
    Remembers S floats s index (index.locate node) := by
  have hverified : (index.locate node).verified = index.verified ∧
      (index.locate node).charges = index.charges ∧
      (index.locate node).totals = index.totals ∧
      (index.locate node).revision = index.revision := by
    unfold locate
    split <;> exact ⟨rfl, rfl, rfl, rfl⟩
  obtain ⟨hverified, hcharges, htotals, hrevision⟩ := hverified
  refine ⟨hrevision, htotals, fun h => ⟨located_locate h hget, locate_grows h hget⟩, ?_, ?_, ?_⟩
  · intro h id charges hid
    rw [hcharges] at hid
    exact h id charges hid
  · intro id hid
    rwa [hcharges]
  · intro h hknown id hid
    rw [hverified] at hid
    exact (locate_grows h hget).contains (hknown id hid)

theorem remembers_charge {node : Node} {charges : MeterCharges} (hget : S.get s node.id = .ok node)
    (hcharges : meterChargesFromMeta floats node.metadata = .ok charges) :
    Remembers S floats s index { index with charges := index.charges.set node.id charges } := by
  refine ⟨rfl, rfl, fun h => ⟨h, fun _ _ hinfo => hinfo⟩, ?_, ?_, fun _ h => h⟩
  · intro h id found hid
    dsimp only at hid
    rw [Dict.get?_set] at hid
    split at hid
    · next heq =>
        cases hid
        exact heq ▸ ⟨node, hget, hcharges⟩
    · exact h id found hid
  · intro id hid
    rw [Dict.contains, Dict.get?_set]
    split
    · rfl
    · exact hid

theorem keeps_remember {node : Node} (hget : S.get s node.id = .ok node) :
    Keeps (Remembers S floats s) (remember floats node) := by
  have hR : Frame (Remembers S floats s) := frame_remembers
  refine hR.bind (keeps_modify fun index => remembers_locate hget) fun _ => ?_
  refine hR.bind_orRaise fun charges hcharges => ?_
  exact keeps_modify fun index => remembers_charge hget hcharges

/-- The index stays one of its revision. -/
def SameRevision (index index' : RuntimeIndex) : Prop := index'.revision = index.revision

theorem frame_sameRevision : Frame SameRevision :=
  ⟨fun _ => rfl, fun h h' => Eq.trans h' h⟩

theorem keeps_revision_remember (node : Node) :
    Keeps SameRevision (remember floats node) := by
  refine frame_sameRevision.bind (keeps_modify fun index => ?_) fun _ =>
    frame_sameRevision.bind (frame_sameRevision.orRaise _) fun _ => keeps_modify fun _ => rfl
  unfold SameRevision locate
  split <;> rfl

/-- What a run of `remember` that returned has done. -/
theorem remember_ok {node : Node} (hrun : remember floats node index = .ok () index') :
    ∃ charges, meterChargesFromMeta floats node.metadata = .ok charges ∧
      index' = { index.locate node with
        charges := (index.locate node).charges.set node.id charges } := by
  obtain ⟨_, m, hlocate, hrun⟩ := bind_eq_ok hrun
  cases hlocate
  obtain ⟨charges, m, hraise, hrun⟩ := bind_eq_ok hrun
  obtain ⟨hcharges, rfl⟩ := orRaise_eq_ok hraise
  cases hrun
  exact ⟨charges, hcharges, rfl⟩

theorem knows_of_remember {node : Node}
    (hparent : ∀ parent, node.parent = some parent → index.ancestry.contains parent = true)
    (hrun : remember floats node index = .ok () index') : index'.Knows node.id := by
  obtain ⟨charges, -, rfl⟩ := remember_ok hrun
  refine ⟨known_locate hparent, ?_⟩
  dsimp only
  rw [Dict.contains, Dict.get?_set_self]
  rfl

/-- Once a walk is remembered from something whose parent is known on, all its nodes are known. -/
theorem remember_walk (hrows : S.Rows) {pending seen : List String} {nodes : List Node}
    (hwalk : S.Walks s pending seen nodes) (hlocated : index.Located S s)
    (hpending : ∀ id ∈ pending, ∀ node parent, S.get s id = .ok node →
      node.parent = some parent → index.ancestry.contains parent = true)
    (hrun : nodes.forM (remember floats) index = .ok ⟨⟩ index') :
    Remembers S floats s index index' ∧ ∀ id ∈ ids nodes, index'.Knows id := by
  induction hwalk generalizing index with
  | done seen =>
      cases hrun
      exact ⟨frame_remembers.refl _, fun id hid => absurd hid List.not_mem_nil⟩
  | @visit id pending seen node rest hfresh hget hrest ih =>
      have hid := hrows.keyed hget
      have hget' : S.get s node.id = .ok node := hid ▸ hget
      obtain ⟨_, m, hnode, hrun⟩ := bind_eq_ok (x := remember floats node) hrun
      have hkeeps := (keeps_remember hget').of_ok hnode
      obtain ⟨hlocated', hgrows⟩ := hkeeps.grows hlocated
      have hknows : m.Knows node.id :=
        knows_of_remember (fun parent => hpending id List.mem_cons_self node parent hget) hnode
      obtain ⟨hrest', hall⟩ := ih hlocated' (fun other hother found parent hfound heq => by
        rcases List.mem_append.mp hother with hchild | hother
        · have heq' := hrows.listed hchild hfound
          rw [Option.some.inj (heq.symm.trans heq'), ← hid]
          exact hknows.1
        · exact hgrows.contains
            (hpending other (List.mem_cons_of_mem _ hother) found parent hfound heq)) hrun
      refine ⟨frame_remembers.trans hkeeps hrest', fun other hother => ?_⟩
      rcases List.mem_cons.mp hother with rfl | hother
      · exact ⟨(hrest'.grows hlocated').2.contains hknows.1, hrest'.charges _ hknows.2⟩
      · exact hall other hother

/-! ### Verified nodes -/

/-- The nodes lead from an id up to a root or to something verified. -/
def Climbs (index : RuntimeIndex) : String → List Node → Prop
  | id, [] => id ∈ index.verified
  | id, node :: rest => node.id = id ∧
      match node.parent with
      | none => rest = []
      | some parent => index.Climbs parent rest

theorem keeps_revision_rememberVerified (node : Node) :
    Keeps SameRevision (rememberVerified floats node) := by
  refine frame_sameRevision.bind (keeps_revision_remember node) fun _ => ?_
  split
  · exact keeps_modify fun _ => rfl
  · exact frame_sameRevision.pure _

theorem rememberVerified_at {node : Node} (hget : S.get s node.id = .ok node)
    (hparent : ∀ parent, node.parent = some parent → index.ancestry.contains parent = true) :
    Remembers S floats s index (after (rememberVerified floats node) index) ∧
      ∀ index', rememberVerified floats node index = .ok () index' →
        index'.ancestry.contains node.id = true := by
  have hknows : ∀ m, remember floats node index = .ok () m → m.ancestry.contains node.id = true :=
    fun m hm => (knows_of_remember hparent hm).1
  constructor
  · refine frame_remembers.bind_at (keeps_remember hget index) fun _ m hm => ?_
    split
    · refine ⟨rfl, rfl, fun h => ⟨h, fun _ _ hinfo => hinfo⟩, id, fun _ => id, ?_⟩
      intro _ hverified id hid
      rcases List.mem_cons.mp hid with rfl | hid
      · exact hknows m hm
      · exact hverified id hid
    · exact frame_remembers.refl m
  · intro index' hrun
    obtain ⟨_, m, hm, hrun⟩ := bind_eq_ok hrun
    have hknown := hknows m hm
    split at hrun
    · cases hrun
      exact hknown
    · cases hrun
      exact hknown

theorem remember_climb (floats : Floats)
    (hverified : ∀ id ∈ index.verified, index.ancestry.contains id = true) {nodes : List Node}
    (hnodes : ∀ node ∈ nodes, S.get s node.id = .ok node) {id : String}
    (hclimbs : index.Climbs id nodes) :
    Remembers S floats s index (after (nodes.reverse.forM (rememberVerified floats)) index) ∧
      ∀ index', nodes.reverse.forM (rememberVerified floats) index = .ok ⟨⟩ index' →
        index'.ancestry.contains id = true := by
  induction nodes generalizing id with
  | nil =>
      refine ⟨frame_remembers.refl index, fun index' hrun => ?_⟩
      cases hrun
      exact hverified id hclimbs
  | cons node rest ih =>
      obtain ⟨hget, hnodes⟩ := List.forall_mem_cons.mp hnodes
      obtain ⟨rfl, hclimbs⟩ := hclimbs
      have hrest : Remembers S floats s index
          (after (rest.reverse.forM (rememberVerified floats)) index) ∧
            ∀ m, rest.reverse.forM (rememberVerified floats) index = .ok ⟨⟩ m →
              ∀ parent, node.parent = some parent → m.ancestry.contains parent = true := by
        split at hclimbs
        · next hnone =>
            subst hclimbs
            refine ⟨frame_remembers.refl index, fun m _ parent hsome => ?_⟩
            rw [hnone] at hsome
            cases hsome
        · next above hsome =>
            obtain ⟨hremembers, hknown⟩ := ih hnodes hclimbs
            refine ⟨hremembers, fun m hm parent hparent => ?_⟩
            rw [hsome] at hparent
            cases hparent
            exact hknown m hm
      obtain ⟨hremembers, hparent⟩ := hrest
      have hloop : (node :: rest).reverse.forM (rememberVerified floats) =
          rest.reverse.forM (rememberVerified floats) >>= fun _ =>
            rememberVerified floats node := by
        rw [List.reverse_cons]
        change forM (rest.reverse ++ [node]) (rememberVerified floats) = _
        rw [List.forM_append]
        refine bind_congr fun _ => ?_
        rw [List.forM_cons, List.forM_nil, bind_pure_unit]
      rw [hloop]
      constructor
      · exact frame_remembers.bind_at hremembers fun _ m hm =>
          (rememberVerified_at hget (hparent m hm)).1
      · intro index' hrun
        obtain ⟨_, m, hm, hrun⟩ := bind_eq_ok hrun
        exact (rememberVerified_at hget (hparent m hm)).2 index' hrun

/-! ## Refreshing -/

theorem forM_onTotal (index : RuntimeIndex) {x : EStateM Error MeterCharges Unit} {P : String → MeterCharges → Prop}
    {anchors : List String} (hnodup : anchors.Nodup)
    (hx : ∀ anchor ∈ anchors, ∃ total, x (index.totals.getD anchor ∅) = .ok () total ∧
      P anchor total) :
    ∃ totals : Dict String MeterCharges,
      anchors.forM (fun anchor => onTotal anchor x) index = .ok ⟨⟩ { index with totals } ∧
      ∀ anchor total, totals.get? anchor = some total →
        anchor ∈ anchors ∧ P anchor total ∨
          anchor ∉ anchors ∧ index.totals.get? anchor = some total := by
  induction anchors generalizing index with
  | nil => exact ⟨index.totals, rfl, fun anchor total h => .inr ⟨List.not_mem_nil, h⟩⟩
  | cons anchor anchors ih =>
      obtain ⟨hfresh, hnodup⟩ := List.nodup_cons.mp hnodup
      obtain ⟨⟨total, htotal, hP⟩, hx⟩ := List.forall_mem_cons.mp hx
      have hstep : onTotal anchor x index =
          .ok () { index with totals := index.totals.set anchor total } := by
        rw [onTotal, focus, htotal]
      have hrest : ∀ other ∈ anchors, ∃ found,
          x ((index.totals.set anchor total).getD other ∅) = .ok () found ∧ P other found := by
        intro other hother
        have hne : anchor ≠ other := fun heq => hfresh (heq ▸ hother)
        rw [Dict.getD_set, if_neg hne]
        exact hx other hother
      obtain ⟨totals, hrun, hall⟩ :=
        ih { index with totals := index.totals.set anchor total } hnodup hrest
      refine ⟨totals, ?_, fun other found hfound => ?_⟩
      · change (onTotal anchor x >>= fun _ =>
          anchors.forM fun anchor => onTotal anchor x) index = _
        rw [bind_of_ok hstep, hrun]
      · rcases hall other found hfound with ⟨hmem, hP'⟩ | ⟨hnot, hget⟩
        · exact .inl ⟨List.mem_cons_of_mem _ hmem, hP'⟩
        · dsimp only at hget
          rw [Dict.get?_set] at hget
          split at hget
          · next heq =>
              cases hget
              exact .inl ⟨heq ▸ List.mem_cons_self, heq ▸ hP⟩
          · next hne =>
              refine .inr ⟨fun hmem => ?_, hget⟩
              exact (List.mem_cons.mp hmem).elim (fun heq => hne heq.symm) hnot

section Refresh

variable (hrows : S.Rows) (h : index.Consistent S floats s) {id : String} {node : Node}
  (hwrote : S.Wrote id s t) (hget : S.get t id = .ok node) {m : RuntimeIndex}
  (hm : remember floats node index = .ok () m)

include hrows h hwrote hget hm

theorem remembers_written : Remembers S floats t index m ∧ m.Located S t ∧ index.Grows m := by
  have hget' : S.get t node.id = .ok node := (hrows.keyed hget).symm ▸ hget
  have hremembers := (keeps_remember hget').of_ok hm
  exact ⟨hremembers, hremembers.grows (h.located.wrote hrows hwrote)⟩

theorem charged_written : m.Charged S floats t := by
  obtain ⟨charges, hcharges, rfl⟩ := remember_ok hm
  have hid := hrows.keyed hget
  have hold : (index.locate node).charges = index.charges := by
    unfold locate
    split <;> rfl
  intro other found hfound
  dsimp only at hfound
  rw [Dict.get?_set] at hfound
  split at hfound
  · next heq =>
      cases hfound
      rw [← heq, hid]
      exact ⟨node, hget, hcharges⟩
  · next hne =>
      rw [hold] at hfound
      obtain ⟨old, hread, hcharges'⟩ := h.charged other found hfound
      have hother : other ≠ id := fun heq => hne (hid.trans heq.symm)
      exact ⟨old, hwrote.keeps other old hother hread, hcharges'⟩

omit h hwrote in
/-- The new charges of the node that was written. -/
theorem new_amount (name : String) :
    (m.charges.getD id ∅).getD name 0 = amountOf floats name node := by
  obtain ⟨charges, hcharges, rfl⟩ := remember_ok hm
  dsimp only
  rw [hrows.keyed hget, Dict.getD_set, if_pos rfl, amountOf_of_ok hcharges]

/-- A total of the index after the write: the walk, whose nodes are known, and its sums. -/
theorem total_written (hrooted : S.Rooted s) {anchor : String} {total : MeterCharges}
    (htotal : index.totals.get? anchor = some total) :
    ∃ nodes nodes', S.Walks s [anchor] [] nodes ∧ S.Walks t [anchor] [] nodes' ∧
      (∀ other ∈ ids nodes', m.Knows other) ∧
      (m.descends id anchor = true ↔ id ∈ ids nodes') ∧
      (∀ name, total.getD name 0 = (nodes.map (amountOf floats name)).sum) ∧
      (id ∉ ids nodes' → nodes' = nodes) ∧
      (id ∈ ids nodes' → ∀ name, (nodes'.map (amountOf floats name)).sum =
        total.getD name 0 - (index.charges.getD id ∅).getD name 0 + amountOf floats name node) ∧
      (id ∈ ids nodes' → ∀ name, (index.charges.getD id ∅).getD name 0 = 0 ∨
        ∃ old ∈ nodes, amountOf floats name old = (index.charges.getD id ∅).getD name 0) := by
  obtain ⟨nodes, hwalk, hknown, hsum⟩ := h.totals anchor total htotal
  obtain ⟨nodes', hwalk', hrewalked⟩ := hwrote.walks hrows hrooted hget hwalk
  obtain ⟨hremembers, hlocated, hgrows⟩ := remembers_written hrows h hwrote hget hm
  have hid := hrows.keyed hget
  have hknown' : ∀ other ∈ ids nodes', m.Knows other := by
    intro other hother
    rcases hrewalked.fresh other hother with hold | ⟨rfl, -, above, habove, hparent⟩
    · exact ⟨hgrows.contains (hknown other hold).1, hremembers.charges other (hknown other hold).2⟩
    · rw [← hid]
      refine knows_of_remember (fun parent heq => ?_) hm
      rw [Option.some.inj (heq.symm.trans hparent)]
      exact (hknown above habove).1
  have hdescends : m.descends id anchor = true ↔ id ∈ ids nodes' := by
    by_cases hcontains : m.ancestry.contains id = true
    · exact descends_iff hrows hlocated hwalk' hcontains
    · have hnone : m.ancestry.get? id = none := Option.not_isSome_iff_eq_none.mp hcontains
      refine iff_of_false ?_ fun hmem => hcontains (hknown' id hmem).1
      unfold descends
      rw [hnone]
      exact Bool.false_ne_true
  -- What the index remembered of the node is what the store had, unless it had none.
  have hold : id ∈ ids nodes' → ∀ name, (index.charges.getD id ∅).getD name 0 =
      ((S.get s id).toOption.map (amountOf floats name)).getD 0 := by
    intro hmem name
    cases hcharges : index.charges.get? id with
    | some charges =>
        obtain ⟨old, hread, hcharges'⟩ := h.charged id charges hcharges
        have hcharge : index.charges.getD id ∅ = charges := by
          rw [Dict.getD, hcharges, Option.getD_some]
        rw [hcharge, hread]
        exact (amountOf_of_ok hcharges' name).symm
    | none =>
        have hunread : ∀ found, S.get s id ≠ .ok found := by
          rcases hrewalked.fresh id hmem with hin | ⟨-, hunread, -⟩
          · have hcontains := (hknown id hin).2
            rw [Dict.contains, hcharges] at hcontains
            cases hcontains
          · exact hunread
        have hcharge : index.charges.getD id ∅ = ∅ := by
          rw [Dict.getD, hcharges, Option.getD_none]
        rw [hcharge]
        cases hread : S.get s id with
        | ok found => exact absurd hread (hunread found)
        | error error => rfl
  refine ⟨nodes, nodes', hwalk, hwalk', hknown', hdescends, hsum, hrewalked.apart, ?_, ?_⟩
  · intro hmem name
    rw [hrewalked.sum hmem, hsum name, hold hmem name]
  · intro hmem name
    rw [hold hmem name]
    rcases hrewalked.fresh id hmem with hin | ⟨-, hunread, -⟩
    · obtain ⟨-, found, hfound, -, hread⟩ := hwalk.get hrows id hin
      rw [hread]
      exact .inr ⟨found, hfound, rfl⟩
    · cases hread : S.get s id with
      | ok found => exact absurd hread (hunread found)
      | error error => exact .inl rfl

/-- What is left to do once a node is remembered: its charges replace the old ones in the totals
it is under. -/
theorem replaced_totals (hfloats : floats.Correct) (hrooted : S.Rooted s)
    (hs : ∀ anchor nodes, S.Walks s [anchor] [] nodes → WholeCharges floats nodes)
    (ht : ∀ anchor nodes, S.Walks t [anchor] [] nodes → WholeCharges floats nodes) :
    ∃ totals : Dict String MeterCharges,
      (m.totals.keys.filter fun anchor => m.descends id anchor).forM (fun anchor =>
          onTotal anchor (replaceAmounts floats (index.charges.getD id ∅)
            (m.charges.getD id ∅))) m = .ok ⟨⟩ { m with totals } ∧
      ∀ anchor total, totals.get? anchor = some total → m.Totalled S floats t anchor total := by
  have htotals : m.totals = index.totals := (remembers_written hrows h hwrote hget hm).1.totals
  have hnodup : (m.totals.keys.filter fun anchor => m.descends id anchor).Nodup :=
    m.totals.nodupKeys.filter _
  have hx : ∀ anchor ∈ m.totals.keys.filter (fun anchor => m.descends id anchor), ∃ total,
      replaceAmounts floats (index.charges.getD id ∅) (m.charges.getD id ∅)
          (m.totals.getD anchor ∅) = .ok () total ∧ m.Totalled S floats t anchor total := by
    intro anchor hanchor
    obtain ⟨hkey, hbelow⟩ := List.mem_filter.mp hanchor
    obtain ⟨total, htotal⟩ : ∃ total, index.totals.get? anchor = some total := by
      apply Option.ne_none_iff_exists'.mp
      intro hnone
      rw [← htotals] at hnone
      exact Dict.get?_eq_none_iff.mp hnone hkey
    obtain ⟨nodes, nodes', hwalk, hwalk', hknown, hdescends, hsum, -, hsum', hold⟩ :=
      total_written hrows h hwrote hget hm hrooted htotal
    have hmem := hdescends.mp hbelow
    have hgetD : m.totals.getD anchor ∅ = total := by
      rw [Dict.getD, htotals, htotal, Option.getD_some]
    have hwhole := hs anchor nodes hwalk
    have hwhole' := ht anchor nodes' hwalk'
    have hread : node ∈ nodes' := by
      obtain ⟨-, found, hfound, -, hread⟩ := hwalk'.get hrows id hmem
      exact Except.ok.inj (hread.symm.trans hget) ▸ hfound
    have htotalWhole : ∀ name, Whole (total.getD name 0) := by
      intro name
      rw [hsum name]
      exact (hwhole name).2
    have holdWhole : ∀ name, Whole ((index.charges.getD id ∅).getD name 0) := by
      intro name
      rcases hold hmem name with hzero | ⟨old, hmemOld, heq⟩
      · rw [hzero]
        exact Whole.zero
      · exact heq ▸ (hwhole name).1 old hmemOld
    have hle : ∀ name, (index.charges.getD id ∅).getD name 0 ≤ total.getD name 0 := by
      intro name
      rcases hold hmem name with hzero | ⟨old, hmemOld, heq⟩
      · rw [hzero]
        exact (htotalWhole name).nonneg
      · rw [← heq, hsum name]
        exact hwhole.le_sum name hmemOld
    have hnewWhole : ∀ name, Whole ((m.charges.getD id ∅).getD name 0) := by
      intro name
      rw [new_amount hrows hget hm name]
      exact (hwhole' name).1 node hread
    obtain ⟨next, hrun, hnext⟩ := replaceAmounts_whole hfloats htotalWhole holdWhole hnewWhole hle
      fun name => by
        rw [new_amount hrows hget hm name, ← hsum' hmem name]
        exact (hwhole' name).2
    refine ⟨next, ?_, nodes', hwalk', hknown, fun name => ?_⟩
    · rw [hgetD]
      exact hrun
    · rw [hnext name, new_amount hrows hget hm name, hsum' hmem name]
  obtain ⟨totals, hrun, hall⟩ := forM_onTotal m hnodup hx
  refine ⟨totals, hrun, fun anchor total hget' => ?_⟩
  rcases hall anchor total hget' with ⟨-, htotal⟩ | ⟨hnot, hold⟩
  · exact htotal
  · rw [htotals] at hold
    obtain ⟨nodes, nodes', -, hwalk', hknown, hdescends, hsum, hapart, -, -⟩ :=
      total_written hrows h hwrote hget hm hrooted hold
    have hkey : anchor ∈ m.totals.keys := by
      by_contra hnone
      rw [htotals, ← Dict.get?_eq_none_iff, hold] at hnone
      cases hnone
    have hout : id ∉ ids nodes' := fun hmem =>
      hnot (List.mem_filter.mpr ⟨hkey, hdescends.mpr hmem⟩)
    rw [hapart hout] at hwalk' hknown
    exact ⟨nodes, hwalk', hknown, hsum⟩

omit hm in
/-- A refreshed index is consistent with the state after the write. -/
theorem refresh_consistent (hfloats : floats.Correct) (hrooted : S.Rooted s)
    (hs : ∀ anchor nodes, S.Walks s [anchor] [] nodes → WholeCharges floats nodes)
    (ht : ∀ anchor nodes, S.Walks t [anchor] [] nodes → WholeCharges floats nodes)
    {revision : StoreRevision} (hrun : refresh floats id node revision index = .ok () index') :
    index'.Consistent S floats t ∧ index'.revision = some revision := by
  obtain ⟨_, _, hfirst, hrun⟩ := bind_eq_ok hrun
  cases hfirst
  obtain ⟨_, m, hm, hrun⟩ := bind_eq_ok hrun
  obtain ⟨_, _, hsecond, hrun⟩ := bind_eq_ok hrun
  cases hsecond
  obtain ⟨hremembers, hlocated, hgrows⟩ := remembers_written hrows h hwrote hget hm
  obtain ⟨totals, hloop, htotals⟩ :=
    replaced_totals hrows h hwrote hget hm hfloats hrooted hs ht
  rw [bind_of_ok hloop] at hrun
  have hverified : ∀ other ∈ m.verified, m.ancestry.contains other = true := by
    obtain ⟨charges, -, rfl⟩ := remember_ok hm
    have hold : (index.locate node).verified = index.verified := by
      unfold locate
      split <;> rfl
    dsimp only
    rw [hold]
    exact fun other hother => hgrows.contains (h.verified other hother)
  have hcharged := charged_written hrows h hwrote hget hm
  split at hrun
  · cases hrun
    exact ⟨⟨hlocated, fun other hother => hverified other (List.mem_filter.mp hother).1,
      hcharged, htotals⟩, rfl⟩
  · cases hrun
    exact ⟨⟨hlocated, hverified, hcharged, htotals⟩, rfl⟩

omit hm in
/-- Where refreshing raises, the node's charges are not read, and only its ancestry is kept. -/
theorem refresh_error (hfloats : floats.Correct) (hrooted : S.Rooted s)
    (hs : ∀ anchor nodes, S.Walks s [anchor] [] nodes → WholeCharges floats nodes)
    (ht : ∀ anchor nodes, S.Walks t [anchor] [] nodes → WholeCharges floats nodes)
    {revision : StoreRevision} {e : Error}
    (hrun : refresh floats id node revision index = .error e index') :
    Remembers S floats t index index' := by
  have hget' : S.get t node.id = .ok node := (hrows.keyed hget).symm ▸ hget
  rcases bind_eq_error hrun with hfirst | ⟨_, _, hfirst, hrun⟩
  · cases hfirst
  cases hfirst
  rcases bind_eq_error hrun with hm | ⟨_, m, hm, hrun⟩
  · exact (keeps_remember hget').of_error hm
  rcases bind_eq_error hrun with hsecond | ⟨_, _, hsecond, hrun⟩
  · cases hsecond
  cases hsecond
  obtain ⟨totals, hloop, -⟩ := replaced_totals hrows h hwrote hget hm hfloats hrooted hs ht
  rw [bind_of_ok hloop] at hrun
  split at hrun <;> cases hrun

end Refresh

end RuntimeIndex

end Pollard.Rust
