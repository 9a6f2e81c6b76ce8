import Pollard.Rust.CachedStores
import Pollard.Rust.IndexSteps

/-!
# Runs of a runtime in Rust over a store that others commit to

What a call reads is used only if the revision is the same before and after.  So at the end of
every call the index is of an older revision, or consistent with the store.
-/

namespace Pollard.Rust

open Lib Fallible Effect StoreReads

variable {State : Type}

/-- Nodes that have children are there, and the charges of every subtree are exact. -/
structure StoreReads.Sound (S : StoreReads State) (floats : Floats) (s : State) : Prop where
  rooted : S.Rooted s
  whole : ∀ fuel anchor nodes, S.walk fuel s anchor = .ok nodes → WholeCharges floats nodes

theorem StoreReads.Sound.walks {S : StoreReads State} {floats : Floats} {s : State}
    (h : S.Sound floats s) (anchor : String) (nodes : List Node)
    (hwalk : S.Walks s [anchor] [] nodes) : WholeCharges floats nodes := by
  obtain ⟨fuel, hfuel⟩ := hwalk.run
  exact h.whole fuel anchor nodes hfuel

namespace SharedStore

variable {S : RecordingStore State} {floats : Floats}

/-- An index of the current revision is consistent with the store, and none is of a later one. -/
def Coherent (floats : Floats) (cell : SharedStore S) : Prop :=
  (∀ s ∈ cell.past, S.Sound floats s) → ∀ r, cell.index.revision = some r →
    (r.own ≤ (S.counters cell.store).own ∧ r.external ≤ (S.counters cell.store).external) ∧
      (r = S.counters cell.store → cell.index.Consistent S.toStoreReads floats cell.store)

/-- The store goes on and the index stays. -/
structure Reads (cell cell' : SharedStore S) : Prop where
  index : cell'.index = cell.index
  later : S.Later cell.store cell'.store
  past : cell.past ⊆ cell'.past
  last : cell.store ∈ cell.past → cell'.store ∈ cell'.past

/-- The store goes on and the index stays coherent. -/
structure Advances (floats : Floats) (cell cell' : SharedStore S) : Prop where
  past : cell.past ⊆ cell'.past
  last : cell.store ∈ cell.past → cell'.store ∈ cell'.past
  coherent : cell.Coherent floats → cell'.Coherent floats

theorem frame_reads : Frame (Reads (S := S)) where
  refl := fun _ => ⟨rfl, .refl _, List.Subset.refl _, id⟩
  trans := fun h h' => ⟨h'.index.trans h.index, h.later.trans h'.later,
    List.Subset.trans h.past h'.past, fun hlast => h'.last (h.last hlast)⟩

theorem frame_advances : Frame (Advances (S := S) floats) where
  refl := fun _ => ⟨List.Subset.refl _, id, id⟩
  trans := fun h h' => ⟨List.Subset.trans h.past h'.past, fun hlast => h'.last (h.last hlast),
    fun hc => h'.coherent (h.coherent hc)⟩

theorem Reads.advances {cell cell' : SharedStore S} (h : Reads cell cell') :
    Advances floats cell cell' := by
  refine ⟨h.past, h.last, fun hc hsound r hr => ?_⟩
  rw [h.index] at hr ⊢
  obtain ⟨⟨hown, hexternal⟩, hconsistent⟩ := hc (fun s hs => hsound s (h.past hs)) r hr
  refine ⟨⟨hown.trans h.later.own, hexternal.trans h.later.external⟩, fun heq => ?_⟩
  have hsame : S.counters cell'.store = S.counters cell.store := by
    rw [← heq]
    apply StoreRevision.ext
    · exact le_antisymm hown (heq ▸ h.later.own)
    · exact le_antisymm hexternal (heq ▸ h.later.external)
  exact (hconsistent (heq.trans hsame)).of_same (h.later.same hsame).1

theorem Reads.keeps {α : Type} {x : EStateM Error (SharedStore S) α} (h : Keeps Reads x) :
    Keeps (Advances floats) x := fun cell => (h cell).advances

/-- What is done to an index after reading keeps it coherent if it keeps its revision and its
consistency. -/
theorem Reads.advances_index {cell cell' : SharedStore S} (hreads : Reads cell cell')
    {index : RuntimeIndex} (hrevision : index.revision = cell.index.revision)
    (h : cell.Coherent floats → (∀ s ∈ cell'.past, S.Sound floats s) →
      cell.index.revision = some (S.counters cell'.store) →
      cell.index.Consistent S.toStoreReads floats cell'.store →
        index.Consistent S.toStoreReads floats cell'.store) :
    Advances floats cell { cell' with index } := by
  refine ⟨hreads.past, hreads.last, fun hc hsound r hr => ?_⟩
  have hold : cell'.index.revision = some r := by
    rw [hreads.index, ← hrevision]
    exact hr
  obtain ⟨hle, hconsistent⟩ := hreads.advances.coherent hc hsound r hold
  refine ⟨hle, fun heq => h hc hsound ?_ (hreads.index ▸ hconsistent heq)⟩
  rw [← heq, ← hreads.index]
  exact hold

theorem advances_fresh (cell : SharedStore S) (revision : Option StoreRevision)
    (h : ∀ r, revision = some r → r = S.counters cell.store) :
    Advances floats cell { cell with index := .fresh revision } := by
  refine ⟨List.Subset.refl _, id, fun _ _ r hr => ?_⟩
  rw [h r hr]
  exact ⟨⟨le_rfl, le_rfl⟩, fun _ => RuntimeIndex.consistent_fresh _⟩

/-! ## Accesses -/

section Documented

variable (hS : S.Documented)

include hS

theorem later_commits (commits : List S.Commit) (s : State) :
    S.Later s (commits.foldl (fun s c => S.commit c s) s) ∧
      (S.counters (commits.foldl (fun s c => S.commit c s) s)).own = (S.counters s).own := by
  induction commits generalizing s with
  | nil => exact ⟨.refl s, rfl⟩
  | cons c commits ih =>
      obtain ⟨hlater, hown⟩ := ih (S.commit c s)
      exact ⟨(hS.commit_later c s).trans hlater, hown.trans (hS.commit_own c s)⟩

/-- What an access finds, does and answers. -/
theorem access_eq {α : Type} (f : State → α × State) (cell : SharedStore S) :
    ∃ found commits, S.Later cell.store found ∧
      (S.counters found).own = (S.counters cell.store).own ∧
      access f cell = .ok (f found).1
        ⟨(f found).2, cell.index, commits, (f found).2 :: found :: cell.past⟩ := by
  obtain ⟨hlater, hown⟩ := later_commits hS (cell.commits.headD []) cell.store
  exact ⟨_, cell.commits.tail, hlater, hown, rfl⟩

theorem keeps_access {α : Type} {f : State → α × State} (hf : ∀ s, S.Later s (f s).2) :
    Keeps Reads (access f : EStateM Error (SharedStore S) α) := by
  intro cell
  obtain ⟨found, commits, hlater, -, heq⟩ := access_eq hS f cell
  rw [after, heq]
  exact ⟨rfl, hlater.trans (hf found), fun s hs =>
    List.mem_cons_of_mem _ (List.mem_cons_of_mem _ hs), fun _ => List.mem_cons_self⟩

theorem keeps_read {α : Type} (f : State → α) :
    Keeps Reads (read f : EStateM Error (SharedStore S) α) :=
  keeps_access hS fun s => .refl s

theorem keeps_tryRead {α : Type} (f : State → Except Error α) :
    Keeps Reads (tryRead f : EStateM Error (SharedStore S) α) :=
  frame_reads.bind (keeps_read hS f) fun x => frame_reads.orRaise x

/-- A read answers for the state it leaves. -/
theorem read_ok {α : Type} {f : State → α} {cell m : SharedStore S} {a : α}
    (h : read f cell = .ok a m) : a = f m.store ∧
      (S.counters m.store).own = (S.counters cell.store).own ∧ Reads cell m := by
  have hreads := (keeps_read hS f).of_ok h
  obtain ⟨found, commits, -, hown, heq⟩ := access_eq hS (fun s => (f s, s)) cell
  rw [read, heq] at h
  cases h
  exact ⟨rfl, hown, hreads⟩

theorem read_past {α : Type} {f : State → α} {cell m : SharedStore S} {a : α}
    (h : read f cell = .ok a m) : m.store ∈ m.past := by
  obtain ⟨found, commits, -, -, heq⟩ := access_eq hS (fun s => (f s, s)) cell
  rw [read, heq] at h
  cases h
  exact List.mem_cons_self

theorem tryRead_ok {α : Type} {f : State → Except Error α} {cell m : SharedStore S} {a : α}
    (h : tryRead f cell = .ok a m) : f m.store = .ok a ∧ Reads cell m := by
  have hreads := (keeps_tryRead hS f).of_ok h
  obtain ⟨x, m', hread, h⟩ := bind_eq_ok h
  obtain ⟨hx, rfl⟩ := orRaise_eq_ok h
  obtain ⟨rfl, -, -⟩ := read_ok hS hread
  exact ⟨hx, hreads⟩

/-! ## Synchronizing -/

/-- After it, the index is of the revision of the store, or a fresh one of none. -/
theorem synchronizeIndex_ok (floats : Floats) (cell : SharedStore S) :
    ∃ m, synchronizeIndex cell = .ok (S.cacheRevision m.store).isSome m ∧
      Advances floats cell m ∧ m.index.revision = S.cacheRevision m.store ∧
      (m.index.revision = none → m.index = .fresh none) := by
  obtain ⟨found, commits, hlater, hown, heq⟩ := access_eq hS (fun s => (S.cacheRevision s, s)) cell
  obtain ⟨m₀, hm₀⟩ : ∃ m₀ : SharedStore S, m₀ =
    ⟨found, cell.index, commits, found :: found :: cell.past⟩ := ⟨_, rfl⟩
  have hread : read S.cacheRevision cell = .ok (S.cacheRevision m₀.store) m₀ := by
    rw [hm₀]
    exact heq
  have hreads := (read_ok hS hread).2.2
  rw [synchronizeIndex, bind_of_ok hread]
  by_cases hnew : m₀.index.revision ≠ S.cacheRevision m₀.store ∨ S.cacheRevision m₀.store = none
  · refine ⟨{ m₀ with index := .fresh (S.cacheRevision m₀.store) }, ?_, ?_, rfl, fun hnone => ?_⟩
    · rw [onIndex, focus, bind_of_ok (get_apply _), if_pos hnew]
      rfl
    · exact frame_advances.trans hreads.advances (advances_fresh m₀ _ fun r hr =>
        (RecordingStore.cacheRevision_eq_some hr).2.symm)
    · change RuntimeIndex.fresh _ = _
      exact congrArg RuntimeIndex.fresh hnone
  · obtain ⟨hsame, hsome⟩ := not_or.mp hnew
    rw [not_not] at hsame
    refine ⟨m₀, ?_, hreads.advances, hsame, fun hnone => absurd (hsame.symm.trans hnone) hsome⟩
    rw [onIndex, focus, bind_of_ok (get_apply _), if_neg hnew]
    rfl

theorem keeps_synchronizeIndex :
    Keeps (Advances floats) (synchronizeIndex : EStateM Error (SharedStore S) Bool) := by
  intro cell
  obtain ⟨m, hm, hadvances, -, -⟩ := synchronizeIndex_ok hS floats cell
  rw [after, hm]
  exact hadvances

/-! ## Writes -/

/-- A write after an index of the store's revision: what it found, and the store that it left. -/
structure Written (w : NodeWrite) (found : State) (m m₁ : SharedStore S) : Prop where
  current : m.index.revision = S.cacheRevision m.store
  later : S.Later m.store found
  own : (S.counters found).own = (S.counters m.store).own
  store : m₁.store = (S.write w found).2
  index : m₁.index = m.index
  past : m₁.past = m₁.store :: found :: m.past
  returned : (S.write w found).1 = .ok ()

section Written

variable {w : NodeWrite} {found : State} {m m₁ : SharedStore S}

theorem Written.reads (h : Written w found m m₁) : Reads m m₁ where
  index := h.index
  later := h.later.trans (h.store ▸ hS.write_later w found)
  past := fun s hs => by
    rw [h.past]
    exact List.mem_cons_of_mem _ (List.mem_cons_of_mem _ hs)
  last := fun _ => by
    rw [h.past]
    exact List.mem_cons_self

/-- If no one else has committed up to a later read, the write found what the index is of, and
what is read is what it left. -/
theorem Written.undisturbed (h : Written w found m m₁) {before : StoreRevision}
    (hbefore : m.index.revision = some before) {m₂ : SharedStore S} (hreads : Reads m₁ m₂)
    (hown : (S.counters m₂.store).own = (S.counters m₁.store).own)
    (hexternal : (S.counters m₂.store).external = before.external) :
    S.cacheable found = true ∧ S.counters m.store = before ∧
      S.counters found = S.counters m.store ∧
      (S.counters m₁.store).external = (S.counters found).external ∧
      S.counters m₂.store = S.counters m₁.store := by
  obtain ⟨hcacheable, hcounters⟩ :=
    RecordingStore.cacheRevision_eq_some (h.current.symm.trans hbefore)
  have hwrite : S.Later found m₁.store := h.store ▸ hS.write_later w found
  have hfirst := h.later.external
  have hsecond := hwrite.external
  have hthird := hreads.later.external
  rw [hexternal, ← hcounters] at hthird
  have hfound : S.counters found = S.counters m.store := by
    apply StoreRevision.ext h.own
    exact le_antisymm (hsecond.trans hthird) hfirst
  refine ⟨((h.later.same hfound).2.trans hcacheable), hcounters, hfound, ?_, ?_⟩
  · rw [hfound]
    exact le_antisymm hthird (hfirst.trans hsecond)
  · apply StoreRevision.ext hown
    rw [hexternal, ← hcounters]
    exact le_antisymm (hfirst.trans hsecond) hthird

theorem refresh_advances (hfloats : floats.Correct) (h : Written w found m m₁)
    {before : StoreRevision} (hbefore : m.index.revision = some before) {m₂ m₃ : SharedStore S}
    (hreads : Reads m₁ m₂) (hown : (S.counters m₂.store).own = (S.counters m₁.store).own)
    (hexternal : (S.counters m₂.store).external = before.external) (hreads' : Reads m₂ m₃)
    (hsame : S.counters m₃.store = S.counters m₂.store) {node : Node}
    (hnode : S.get m₃.store w.id = .ok node) :
    Advances floats m (after (onIndex (RuntimeIndex.refresh floats w.id node
      (S.counters m₂.store))) m₃) := by
  obtain ⟨hcacheable, hcounters, hfound, hwritten, hleft⟩ :=
    h.undisturbed hS hbefore hreads hown hexternal
  have hchain : Reads m m₃ := frame_reads.trans (h.reads hS) (frame_reads.trans hreads hreads')
  have hlast : S.Same m₁.store m₃.store :=
    ((hreads.later.trans hreads'.later).same (hsame.trans hleft)).1
  have hnode' : S.get (S.write w found).2 w.id = .ok node := by
    rw [← h.store, ← hlast.get]
    exact hnode
  have hwrote : S.Wrote w.id found m₁.store := by
    rw [h.store]
    exact hS.write_one w found node hcacheable h.returned (h.store ▸ hwritten) hnode'
  have hstale : m₃.index = m.index := hchain.index
  have hpast : ∀ s ∈ m₁.past, s ∈ m₃.past := fun s hs => hreads'.past (hreads.past hs)
  have hconsistent : m.Coherent floats → (∀ s ∈ m₃.past, S.Sound floats s) →
      m.index.Consistent S.toStoreReads floats found := fun hc hsound =>
    ((hc (fun s hs => hsound s (hchain.past hs)) before hbefore).2 hcounters.symm).of_same
      (h.later.same hfound).1
  have hsoundFound : (∀ s ∈ m₃.past, S.Sound floats s) → S.Sound floats found := fun hsound =>
    hsound found (hpast found (h.past ▸ List.mem_cons_of_mem _ List.mem_cons_self))
  have hsoundLeft : (∀ s ∈ m₃.past, S.Sound floats s) → S.Sound floats m₁.store := fun hsound =>
    hsound m₁.store (hpast _ (h.past ▸ List.mem_cons_self))
  rw [after, onIndex, focus, hstale]
  cases hrun : RuntimeIndex.refresh floats w.id node (S.counters m₂.store) m.index with
  | ok _ index' =>
      refine ⟨hchain.past, hchain.last, fun hc hsound r hr => ?_⟩
      have hpre := hsoundFound hsound
      have hpost := hsoundLeft hsound
      obtain ⟨hnew, hrevision⟩ := RuntimeIndex.refresh_consistent hS.rows (hconsistent hc hsound)
        hwrote (h.store ▸ hnode') hfloats hpre.rooted hpre.walks hpost.walks hrun
      obtain rfl := Option.some.inj (hrevision.symm.trans hr)
      dsimp only
      rw [hsame]
      exact ⟨⟨le_rfl, le_rfl⟩, fun _ => hnew.of_same hlast⟩
  | error e index' =>
      refine ⟨hchain.past, hchain.last, fun hc hsound r hr => ?_⟩
      have hpre := hsoundFound hsound
      have hpost := hsoundLeft hsound
      have hold := hconsistent hc hsound
      have hremembers := RuntimeIndex.refresh_error hS.rows hold hwrote (h.store ▸ hnode') hfloats
        hpre.rooted hpre.walks hpost.walks hrun
      obtain rfl : before = r :=
        Option.some.inj (hbefore.symm.trans (hremembers.revision.symm.trans hr))
      have hle := hchain.later
      refine ⟨⟨hcounters ▸ hle.own, hcounters ▸ hle.external⟩, fun heq => ?_⟩
      have hkept : S.counters m₁.store = S.counters found := by
        rw [← hleft, ← hsame, hfound, hcounters]
        exact heq.symm
      have hunwritten : S.Same found m₁.store :=
        ((h.store ▸ hS.write_later w found : S.Later found m₁.store).same hkept).1
      exact ((hold.of_same hunwritten).remembers hremembers).of_same hlast

theorem refreshIndex_advances (hfloats : floats.Correct) (h : Written w found m m₁)
    {before : StoreRevision} (hbefore : m.index.revision = some before) :
    Advances floats m (after (refreshIndex floats w.id before) m₁) := by
  have hR : Frame (Advances (S := S) floats) := frame_advances
  have hsync : Keeps (Advances floats) (discard (synchronizeIndex (S := S))) :=
    hR.discard (keeps_synchronizeIndex hS)
  have hfirst : Advances floats m m₁ := (h.reads hS).advances
  rw [refreshIndex, after, bind_apply]
  cases hread : read S.cacheRevision m₁ with
  | error e m₂ => exact hR.trans hfirst (((keeps_read hS _).of_error hread).advances)
  | ok revision m₂ =>
      obtain ⟨rfl, hown, hreads⟩ := read_ok hS hread
      have hsecond := hR.trans hfirst hreads.advances
      dsimp only
      cases hrevision : S.cacheRevision m₂.store with
      | none => exact hR.trans hsecond (hsync m₂)
      | some after' =>
          obtain ⟨-, rfl⟩ := RecordingStore.cacheRevision_eq_some hrevision
          dsimp only
          by_cases hexternal : (S.counters m₂.store).external = before.external
          · rw [if_neg (not_not.mpr hexternal), bind_apply]
            cases hget : (tryRead fun s => S.get s w.id : EStateM Error (SharedStore S) Node) m₂ with
            | error e m₃ => exact hR.trans hsecond (((keeps_tryRead hS _).of_error hget).advances)
            | ok node m₃ =>
                obtain ⟨hnode, hreads₃⟩ := tryRead_ok hS hget
                dsimp only
                rw [bind_apply]
                cases hagain : read S.cacheRevision m₃ with
                | error e m₄ =>
                    exact hR.trans (hR.trans hsecond hreads₃.advances)
                      (((keeps_read hS _).of_error hagain).advances)
                | ok revision m₄ =>
                    obtain ⟨rfl, -, hreads₄⟩ := read_ok hS hagain
                    have hreads₂₄ := frame_reads.trans hreads₃ hreads₄
                    dsimp only
                    by_cases hsame : S.cacheRevision m₄.store = some (S.counters m₂.store)
                    · rw [if_neg (not_not.mpr hsame)]
                      have hcounters := (RecordingStore.cacheRevision_eq_some hsame).2
                      obtain ⟨hmid, hend⟩ := hreads₃.later.squeeze hreads₄.later hcounters
                      have hnode' : S.get m₄.store w.id = .ok node := by
                        rw [(hreads₄.later.same hend).1.get]
                        exact hnode
                      exact refresh_advances hS hfloats h hbefore hreads hown hexternal hreads₂₄
                        hcounters hnode'
                    · rw [if_pos hsame]
                      exact hR.trans (hR.trans hsecond hreads₂₄.advances) (hsync m₄)
          · rw [if_pos hexternal]
            exact hR.trans hsecond (hsync m₂)

end Written

theorem keeps_mutate (hfloats : floats.Correct) (w : NodeWrite) :
    Keeps (Advances floats) (mutate floats w : EStateM Error (SharedStore S) Unit) := by
  intro cell
  obtain ⟨m, hm, hadvances, hcurrent, -⟩ := synchronizeIndex_ok hS floats cell
  obtain ⟨found, commits, hlater, hown, haccess⟩ := access_eq hS (S.write w) m
  refine frame_advances.trans hadvances ?_
  rw [after, mutate, bind_of_ok hm, bind_of_ok (get_apply m), bind_of_ok haccess]
  have hreads : Reads m ⟨(S.write w found).2, m.index, commits,
      (S.write w found).2 :: found :: m.past⟩ :=
    ⟨rfl, hlater.trans (hS.write_later w found), fun s hs =>
      List.mem_cons_of_mem _ (List.mem_cons_of_mem _ hs), fun _ => List.mem_cons_self⟩
  cases hreturned : (S.write w found).1 with
  | error e => exact hreads.advances
  | ok _ =>
      rw [bind_of_ok (orRaise_ok _ _)]
      cases hbefore : m.index.revision with
      | none => exact hreads.advances
      | some before =>
          have hwritten : Written w found m ⟨(S.write w found).2, m.index, commits,
              (S.write w found).2 :: found :: m.past⟩ :=
            ⟨hcurrent, hlater, hown, rfl, rfl, rfl, hreturned⟩
          cases (S.cacheRevision m.store).isSome with
          | true => exact refreshIndex_advances hS hfloats hwritten hbefore
          | false => exact hreads.advances

theorem keeps_discardPending (id : String) :
    Keeps (Advances floats) (discardPending id : EStateM Error (SharedStore S) Unit) := by
  have hR : Frame (Advances (S := S) floats) := frame_advances
  refine hR.bind (Reads.keeps (keeps_access hS fun s => hS.dropNodes_later [id] s)) fun answer => ?_
  cases answer with
  | ok _ => exact hR.discard (keeps_synchronizeIndex hS)
  | error _ => exact hR.pure _

/-! ## Reading -/

section Reading

variable (lib : Library)

theorem keeps_findings (fuel : ℕ) (id : String) (seen : List String) :
    Keeps Reads (findings lib fuel id seen :
      EStateM Error (SharedStore S) (List (String × String))) := by
  have hR : Frame (Reads (S := S)) := frame_reads
  induction fuel generalizing id seen with
  | zero => exact hR.throw _
  | succ fuel ih =>
      rw [findings]
      split
      · exact hR.pure _
      · refine hR.bind (keeps_read hS _) fun answer => ?_
        cases answer with
        | error e => exact hR.pure _
        | ok node =>
            dsimp only
            cases node.parent with
            | none => exact hR.pure _
            | some parent => exact hR.bind (ih _ _) fun _ => hR.pure _

theorem keeps_verifiedAnew (fuel : ℕ) (id : String) :
    Keeps Reads (verifiedAnew lib fuel id : EStateM Error (SharedStore S) Node) := by
  have hR : Frame (Reads (S := S)) := frame_reads
  refine hR.bind (keeps_findings hS lib fuel id []) fun found => ?_
  split
  · exact keeps_tryRead hS _
  · exact hR.throw _

theorem keeps_unverified (id : String) (fuel : ℕ) (next : String) (seen : List String) :
    Keeps Reads (unverified lib id fuel next seen :
      EStateM Error (SharedStore S) (List Node)) := by
  have hR : Frame (Reads (S := S)) := frame_reads
  induction fuel generalizing next seen with
  | zero => exact hR.throw _
  | succ fuel ih =>
      rw [unverified]
      refine hR.bind (hR.orRaise _) fun _ => ?_
      refine hR.bind hR.get fun cell => ?_
      split
      · exact hR.pure _
      · refine hR.bind (keeps_tryRead hS _) fun node => ?_
        refine hR.bind (hR.orRaise _) fun _ => ?_
        refine hR.bind (hR.orRaise _) fun _ => ?_
        cases node.parent with
        | none => exact hR.pure _
        | some parent => exact hR.bind (ih _ _) fun _ => hR.pure _

theorem keeps_ancestrySnapshot (id : String) :
    Keeps Reads (ancestrySnapshot lib id :
      EStateM Error (SharedStore S) (Option (List Node))) := by
  have hR : Frame (Reads (S := S)) := frame_reads
  refine hR.bind (keeps_tryRead hS _) fun nodes => ?_
  cases nodes with
  | none => exact hR.pure _
  | some nodes => exact hR.bind (hR.orRaise _) fun _ => hR.pure _

theorem keeps_walkNodes (fuel : ℕ) (pending seen : List String) :
    Keeps Reads (walkNodes fuel pending seen :
      EStateM Error (SharedStore S) (List Node)) := by
  have hR : Frame (Reads (S := S)) := frame_reads
  induction fuel generalizing pending seen with
  | zero =>
      cases pending with
      | nil => exact hR.pure _
      | cons id pending => exact hR.throw _
  | succ fuel ih =>
      cases pending with
      | nil => exact hR.pure _
      | cons id pending =>
          rw [walkNodes]
          refine hR.bind (hR.orRaise _) fun _ => ?_
          refine hR.bind (keeps_tryRead hS _) fun node => ?_
          refine hR.bind (keeps_read hS _) fun children => ?_
          exact hR.bind (ih _ _) fun _ => hR.pure _

theorem keeps_countDepth (fuel : ℕ) (id : String) (seen : List String) :
    Keeps Reads (countDepth fuel id seen : EStateM Error (SharedStore S) ℕ) := by
  have hR : Frame (Reads (S := S)) := frame_reads
  induction fuel generalizing id seen with
  | zero => exact hR.throw _
  | succ fuel ih =>
      rw [countDepth]
      refine hR.bind (hR.orRaise _) fun _ => ?_
      refine hR.bind (keeps_tryRead hS _) fun node => ?_
      cases node.parent with
      | none => exact hR.pure _
      | some parent => exact hR.bind (ih _ _) fun _ => hR.pure _

theorem keeps_readDepth (fuel : ℕ) (id : String) :
    Keeps Reads (readDepth lib fuel id : EStateM Error (SharedStore S) ℕ) := by
  have hR : Frame (Reads (S := S)) := frame_reads
  refine hR.bind (keeps_ancestrySnapshot hS lib id) fun nodes => ?_
  cases nodes with
  | none => exact keeps_countDepth hS fuel id []
  | some nodes => exact hR.pure _

theorem keeps_isAncestor (target : String) (fuel : ℕ) (id : String) (seen : List String) :
    Keeps Reads (isAncestor target fuel id seen : EStateM Error (SharedStore S) Bool) := by
  have hR : Frame (Reads (S := S)) := frame_reads
  induction fuel generalizing id seen with
  | zero => exact hR.throw _
  | succ fuel ih =>
      rw [isAncestor]
      refine hR.bind (hR.orRaise _) fun _ => ?_
      split
      · exact hR.pure _
      · refine hR.bind (keeps_tryRead hS _) fun node => ?_
        cases node.parent with
        | none => exact hR.pure _
        | some parent => exact ih _ _

theorem keeps_rollback (fuel : ℕ) (cursor target : String) :
    Keeps Reads (rollback fuel cursor target : EStateM Error (SharedStore S) Node) := by
  have hR : Frame (Reads (S := S)) := frame_reads
  refine hR.bind (keeps_isAncestor hS target fuel cursor []) fun _ => ?_
  exact hR.bind (hR.orRaise _) fun _ => keeps_tryRead hS _

/-- Where the counters are the same at the end, what was read on the way is what is there. -/
theorem unverified_ok {id : String} {fuel : ℕ} {next : String} {seen : List String}
    {cell m : SharedStore S} {nodes : List Node}
    (h : unverified lib id fuel next seen cell = .ok nodes m) :
    cell.index.Climbs next nodes ∧ (S.counters m.store = S.counters cell.store →
      ∀ node ∈ nodes, S.get m.store node.id = .ok node) := by
  induction fuel generalizing next seen cell nodes with
  | zero => cases h
  | succ fuel ih =>
      rw [unverified] at h
      obtain ⟨_, c, hfresh, h⟩ := bind_eq_ok h
      obtain ⟨-, rfl⟩ := orRaise_eq_ok hfresh
      rw [bind_of_ok (get_apply cell)] at h
      split at h
      · next hverified =>
          cases h
          exact ⟨hverified.2, fun _ node hnode => absurd hnode List.not_mem_nil⟩
      · obtain ⟨node, c₁, hget, h⟩ := bind_eq_ok h
        obtain ⟨hnode, hreads⟩ := tryRead_ok hS hget
        obtain ⟨_, c₂, hcheck, h⟩ := bind_eq_ok h
        obtain ⟨hkey, rfl⟩ := orRaise_eq_ok hcheck
        have hid : node.id = next := ensure_ok_iff.mp hkey
        obtain ⟨_, c₃, hvalid, h⟩ := bind_eq_ok h
        obtain ⟨-, rfl⟩ := orRaise_eq_ok hvalid
        cases hparent : node.parent with
        | none =>
            rw [hparent] at h
            cases h
            refine ⟨⟨hid, by rw [hparent]⟩, fun _ other hother => ?_⟩
            obtain rfl := List.mem_singleton.mp hother
            rw [hid]
            exact hnode
        | some parent =>
            rw [hparent] at h
            obtain ⟨rest, c₄, hrest, h⟩ := bind_eq_ok h
            cases h
            obtain ⟨hclimbs, hnodes⟩ := ih hrest
            have hlater := ((keeps_unverified hS lib id fuel parent (next :: seen)).of_ok hrest).later
            rw [hreads.index] at hclimbs
            refine ⟨⟨hid, by rw [hparent]; exact hclimbs⟩, fun hcounters other hother => ?_⟩
            obtain ⟨-, hend⟩ := hreads.later.squeeze hlater hcounters
            rcases List.mem_cons.mp hother with rfl | hother
            · rw [(hlater.same hend).1.get, hid]
              exact hnode
            · exact hnodes hend other hother

theorem walkNodes_ok {fuel : ℕ} {pending seen : List String} {cell m : SharedStore S}
    {nodes : List Node} (h : walkNodes fuel pending seen cell = .ok nodes m)
    (hcounters : S.counters m.store = S.counters cell.store) :
    S.Walks m.store pending seen nodes := by
  induction fuel generalizing pending seen cell nodes with
  | zero =>
      cases pending with
      | nil =>
          cases h
          exact .done seen
      | cons id pending => cases h
  | succ fuel ih =>
      cases pending with
      | nil =>
          cases h
          exact .done seen
      | cons id pending =>
          rw [walkNodes] at h
          obtain ⟨_, c, hcheck, h⟩ := bind_eq_ok h
          obtain ⟨hfresh, rfl⟩ := orRaise_eq_ok hcheck
          obtain ⟨node, c₁, hget, h⟩ := bind_eq_ok h
          obtain ⟨hnode, hreads₁⟩ := tryRead_ok hS hget
          obtain ⟨children, c₂, hchildren, h⟩ := bind_eq_ok h
          obtain ⟨rfl, -, hreads₂⟩ := read_ok hS hchildren
          obtain ⟨rest, c₃, hrest, h⟩ := bind_eq_ok h
          cases h
          have hlater := ((keeps_walkNodes hS fuel _ _).of_ok hrest).later
          obtain ⟨-, hend₁⟩ := hreads₁.later.squeeze (hreads₂.later.trans hlater) hcounters
          obtain ⟨-, hend₂⟩ := hreads₂.later.squeeze hlater hend₁
          refine .visit (ensure_ok_iff.mp hfresh) ?_ ?_
          · rw [((hreads₂.later.trans hlater).same hend₁).1.get]
            exact hnode
          · rw [(hlater.same hend₂).1.children]
            exact ih hrest hend₂

end Reading

/-! ## Rounds -/

omit hS in
theorem keeps_rounds {α : Type} {round : EStateM Error (SharedStore S) (Option α)}
    (hround : Keeps (Advances floats) round) (n : ℕ) :
    Keeps (Advances floats) (rounds round n) := by
  have hR : Frame (Advances (S := S) floats) := frame_advances
  induction n with
  | zero => exact hR.pure _
  | succ n ih =>
      refine hR.bind hround fun result => ?_
      cases result with
      | none => exact ih
      | some result => exact hR.pure _

omit hS in
/-- A result comes from the last round. -/
theorem rounds_ok {α : Type} {round : EStateM Error (SharedStore S) (Option α)}
    (hround : Keeps (Advances floats) round) {n : ℕ} {cell m : SharedStore S} {a : α}
    (h : rounds round n cell = .ok (some a) m) :
    ∃ c, Advances floats cell c ∧ round c = .ok (some a) m := by
  induction n generalizing cell with
  | zero => cases h
  | succ n ih =>
      obtain ⟨result, c, hresult, h⟩ := bind_eq_ok h
      cases result with
      | none =>
          obtain ⟨c', hadvances, hlast⟩ := ih h
          exact ⟨c', frame_advances.trans (hround.of_ok hresult) hadvances, hlast⟩
      | some result =>
          cases h
          exact ⟨cell, frame_advances.refl cell, hresult⟩

/-- The index is of the revision of the store, if it is of any. -/
def Current (m : SharedStore S) : Prop :=
  ∀ r, m.index.revision = some r → r = S.counters m.store

omit hS in
theorem Current.of_fresh {m : SharedStore S} (h : m.index = .fresh none) : m.Current := by
  intro r hr
  rw [h] at hr
  cases hr

omit hS in
theorem Current.consistent {m : SharedStore S} (h : m.Current) (hc : m.Coherent floats)
    (hsound : ∀ s ∈ m.past, S.Sound floats s) {r : StoreRevision}
    (hr : m.index.revision = some r) : m.index.Consistent S.toStoreReads floats m.store :=
  (hc hsound r hr).2 (h r hr)

section Verifying

variable (lib : Library) (fuel : ℕ) (id : String)

/-- What a round has done once it has read the nodes of the requested one's ancestry. -/
theorem verifiedRound_kept (floats : Floats) {m m₁ m₂ : SharedStore S} {nodes : List Node}
    (hcurrent : m.index.revision = S.cacheRevision m.store)
    (htrusted : (S.cacheRevision m.store).isSome = true)
    (hnodes : unverified lib id fuel id [] m = .ok nodes m₁) (hreads : Reads m₁ m₂)
    (hsame : S.cacheRevision m₂.store = m.index.revision) :
    Advances floats m (after
        (onIndex (nodes.reverse.forM (RuntimeIndex.rememberVerified floats))) m₂) ∧
      ∀ m₃, onIndex (nodes.reverse.forM (RuntimeIndex.rememberVerified floats)) m₂ =
          .ok ⟨⟩ m₃ → m₃.Current ∧ m₃.index.revision ≠ none ∧
        (m.Coherent floats → (∀ s ∈ m₃.past, S.Sound floats s) →
          m₃.index.ancestry.contains id = true) := by
  obtain ⟨r, hr⟩ := Option.isSome_iff_exists.mp htrusted
  rw [hr] at hcurrent
  obtain ⟨-, rfl⟩ := RecordingStore.cacheRevision_eq_some hr
  rw [hcurrent] at hsame
  have hcounters := (RecordingStore.cacheRevision_eq_some hsame).2
  obtain ⟨hclimbs, hget⟩ := unverified_ok hS lib hnodes
  have hreads₁ := (keeps_unverified hS lib id fuel id []).of_ok hnodes
  have hchain := frame_reads.trans hreads₁ hreads
  obtain ⟨hmid, hend⟩ := hreads₁.later.squeeze hreads.later hcounters
  have hnodes' : ∀ node ∈ nodes, S.get m₂.store node.id = .ok node := by
    intro node hnode
    rw [(hreads.later.same hend).1.get]
    exact hget hmid node hnode
  have hclimbs' : m₂.index.Climbs id nodes := hchain.index ▸ hclimbs
  have hkept : ∀ index' : RuntimeIndex,
      (m₂.index.Consistent S.toStoreReads floats m₂.store →
        RuntimeIndex.Remembers S.toStoreReads floats m₂.store m₂.index index') →
      index'.revision = m₂.index.revision → Advances floats m { m₂ with index := index' } := by
    intro index' hremembers hrevision
    rw [hchain.index] at hremembers hrevision
    exact hchain.advances_index hrevision fun _ _ _ hc => hc.remembers (hremembers hc)
  have hrevision : Keeps RuntimeIndex.SameRevision
      (nodes.reverse.forM (RuntimeIndex.rememberVerified floats)) :=
    RuntimeIndex.frame_sameRevision.forM RuntimeIndex.keeps_revision_rememberVerified _
  have hclimb := fun hc : m₂.index.Consistent S.toStoreReads floats m₂.store =>
    RuntimeIndex.remember_climb floats hc.verified hnodes' hclimbs'
  constructor
  · rw [after, onIndex, focus]
    cases hrun : nodes.reverse.forM (RuntimeIndex.rememberVerified floats) m₂.index with
    | ok _ index' =>
        refine hkept index' (fun hc => ?_) (hrevision.of_ok hrun)
        have hremembers := (hclimb hc).1
        rw [after, hrun] at hremembers
        exact hremembers
    | error e index' =>
        refine hkept index' (fun hc => ?_) (hrevision.of_error hrun)
        have hremembers := (hclimb hc).1
        rw [after, hrun] at hremembers
        exact hremembers
  · intro m₃ hm₃
    rw [onIndex, focus] at hm₃
    split at hm₃
    · next index' hrun =>
        cases hm₃
        have hsome : index'.revision = some (S.counters m₂.store) := by
          have hkeeps : index'.revision = m₂.index.revision := hrevision.of_ok hrun
          rw [hkeeps, hchain.index, hcurrent, hcounters]
        refine ⟨fun r hr => Option.some.inj (hr.symm.trans hsome), ?_, fun hc hsound => ?_⟩
        · dsimp only
          rw [hsome]
          exact Option.some_ne_none _
        · have hm₂ : m₂.Coherent floats := hchain.advances.coherent hc
          have hconsistent := (hm₂ hsound _ (hchain.index ▸ hcurrent)).2 hcounters.symm
          exact (hclimb hconsistent).2 index' hrun
    · cases hm₃

/-- What a round that returned a node has done: the node's ancestry is known, or nothing is. -/
structure Verified (floats : Floats) (cell m : SharedStore S) : Prop where
  current : m.Current
  fresh : m.index.revision = none → m.index = .fresh none
  known : cell.Coherent floats → (∀ s ∈ m.past, S.Sound floats s) → m.index.revision ≠ none →
    m.index.ancestry.contains id = true

theorem verifiedOnce_spec {m : SharedStore S}
    (hcurrent : m.index.revision = S.cacheRevision m.store)
    (htrusted : (S.cacheRevision m.store).isSome = true) :
    Advances floats m (after (verifiedOnce lib floats fuel id) m) ∧
      ∀ node m', verifiedOnce lib floats fuel id m = .ok (some node) m' →
        Verified id floats m m' := by
  have hR : Frame (Advances (S := S) floats) := frame_advances
  have hreads := keeps_unverified hS lib id fuel id [] m
  rw [after, verifiedOnce, bind_of_ok (get_apply m), bind_apply]
  rw [after] at hreads
  cases hnodes : unverified lib id fuel id [] m with
  | error e m₁ =>
      rw [hnodes] at hreads
      exact ⟨hreads.advances, by rintro _ _ ⟨⟩⟩
  | ok nodes m₁ =>
      rw [hnodes] at hreads
      dsimp only
      rw [bind_apply]
      cases hread : read S.cacheRevision m₁ with
      | error e m₂ =>
          have hreads₂ := (keeps_read hS _).of_error hread
          exact ⟨(frame_reads.trans hreads hreads₂).advances, by rintro _ _ ⟨⟩⟩
      | ok revision m₂ =>
          obtain ⟨rfl, -, hreads₂⟩ := read_ok hS hread
          dsimp only
          by_cases hsame : S.cacheRevision m₂.store = m.index.revision
          · obtain ⟨hadvances, hknown⟩ :=
              verifiedRound_kept hS lib fuel id floats hcurrent htrusted hnodes hreads₂ hsame
            rw [if_neg (not_not.mpr hsame)]
            constructor
            · change Advances floats m (after (_ >>= fun _ => pure nodes.head?) m₂)
              rw [after_bind_of_id fun _ _ => rfl]
              exact hadvances
            · intro node m' h
              obtain ⟨_, m₃, hloop, h⟩ := bind_eq_ok h
              injection h with _ hstate
              subst hstate
              obtain ⟨hcurrent', hsome, hcontains⟩ := hknown m₃ hloop
              exact ⟨hcurrent', fun hnone => absurd hnone hsome, fun hc hsound _ =>
                hcontains hc hsound⟩
          · rw [if_pos hsame]
            constructor
            · refine hR.trans (frame_reads.trans hreads hreads₂).advances ?_
              exact hR.bind (hR.discard (keeps_synchronizeIndex hS)) (fun _ => hR.pure _) m₂
            · intro node m' h
              obtain ⟨_, m₃, -, h⟩ := bind_eq_ok h
              cases h

theorem verifiedRound_spec (cell : SharedStore S) :
    Advances floats cell (after (verifiedRound lib floats fuel id) cell) ∧
      ∀ node m, verifiedRound lib floats fuel id cell = .ok (some node) m →
        Verified id floats cell m := by
  have hR : Frame (Advances (S := S) floats) := frame_advances
  obtain ⟨m, hm, hadvances, hcurrent, hfresh⟩ := synchronizeIndex_ok hS floats cell
  rw [after, verifiedRound, bind_of_ok hm]
  by_cases htrusted : (S.cacheRevision m.store).isSome = true
  · rw [if_pos htrusted]
    obtain ⟨hadvances', hverified⟩ :=
      verifiedOnce_spec hS lib fuel id hcurrent htrusted
    refine ⟨hR.trans hadvances hadvances', fun node m' h => ?_⟩
    obtain ⟨hcurrent', hfresh', hknown⟩ := hverified node m' h
    exact ⟨hcurrent', hfresh', fun hc => hknown (hadvances.coherent hc)⟩
  · rw [if_neg htrusted]
    have hnone : m.index = .fresh none :=
      hfresh (hcurrent.trans (Option.not_isSome_iff_eq_none.mp htrusted))
    have hreads : Keeps Reads (do return some (← verifiedAnew lib fuel id) :
        EStateM Error (SharedStore S) (Option Node)) :=
      frame_reads.bind (keeps_verifiedAnew hS lib fuel id) fun _ => frame_reads.pure _
    refine ⟨hR.trans hadvances (hreads m).advances, fun node m' h => ?_⟩
    have hindex : m'.index = .fresh none := (hreads.of_ok h).index.trans hnone
    refine ⟨Current.of_fresh hindex, fun _ => hindex, fun _ _ hsome => ?_⟩
    rw [hindex] at hsome
    exact absurd rfl hsome

theorem keeps_verifiedRound :
    Keeps (Advances floats) (verifiedRound lib floats fuel id :
      EStateM Error (SharedStore S) (Option Node)) := fun cell =>
  (verifiedRound_spec hS lib fuel id cell).1

theorem verified_spec (cell : SharedStore S) :
    Advances floats cell (after (verified lib floats fuel id) cell) ∧
      ∀ node m, verified lib floats fuel id cell = .ok node m → Verified id floats cell m := by
  have hR : Frame (Advances (S := S) floats) := frame_advances
  have hround : Keeps (Advances floats) (verifiedRound lib floats fuel id) :=
    keeps_verifiedRound hS lib fuel id
  have hforget : Keeps (Advances floats) (onIndex (set (RuntimeIndex.fresh none)) :
      EStateM Error (SharedStore S) Unit) := fun cell => advances_fresh cell none (by rintro _ ⟨⟩)
  constructor
  · refine hR.bind (keeps_rounds hround 3) (fun result => ?_) cell
    cases result with
    | some node => exact hR.pure _
    | none =>
        refine hR.bind hforget fun _ => ?_
        refine hR.bind (Reads.keeps (keeps_ancestrySnapshot hS lib id)) fun nodes => ?_
        split
        · exact hR.pure _
        · exact hR.throw _
  · intro node m h
    obtain ⟨result, c, hresult, h⟩ := bind_eq_ok h
    cases result with
    | some node =>
        cases h
        obtain ⟨c', hadvances, hround⟩ :=
          rounds_ok hround hresult
        obtain ⟨hcurrent, hfresh, hknown⟩ := (verifiedRound_spec hS lib fuel id c').2 node m hround
        exact ⟨hcurrent, hfresh, fun hc => hknown (hadvances.coherent hc)⟩
    | none =>
        obtain ⟨_, c', hset, h⟩ := bind_eq_ok h
        cases hset
        obtain ⟨nodes, c'', hsnapshot, h⟩ := bind_eq_ok h
        have hindex : c''.index = .fresh none :=
          ((keeps_ancestrySnapshot hS lib id).of_ok hsnapshot).index
        split at h
        · cases h
          refine ⟨Current.of_fresh hindex, fun _ => hindex, fun _ _ hsome => ?_⟩
          rw [hindex] at hsome
          exact absurd rfl hsome
        · cases h

end Verifying

/-! ## Totals -/

section Accounting

variable (lib : Library) (fuel : ℕ) (anchor : String)

omit hS in
/-- What the index keeps of a walk that it trusts: its nodes and its total. -/
theorem consistent_total (hrows : S.Rows) (hfloats : floats.Correct) {s : State}
    (hsound : S.Sound floats s) {index index' : RuntimeIndex} {nodes : List Node}
    {total : MeterCharges} (hwalk : S.Walks s [anchor] [] nodes)
    (htotal : totalCharges floats (Node.validate lib) nodes = .ok total)
    (hknown : index.ancestry.contains anchor = true)
    (hc : index.Consistent S.toStoreReads floats s)
    (hrun : nodes.forM (RuntimeIndex.remember floats) index = .ok ⟨⟩ index') :
    RuntimeIndex.Consistent S.toStoreReads floats
      { index' with totals := index'.totals.set anchor total } s := by
  have hpending : ∀ id ∈ [anchor], ∀ node parent, S.get s id = .ok node →
      node.parent = some parent → index.ancestry.contains parent = true := by
    intro id hid node parent hget hparent
    obtain rfl := List.mem_singleton.mp hid
    exact hc.located.parent_known hget hknown hparent
  obtain ⟨hremembers, hall⟩ := RuntimeIndex.remember_walk hrows hwalk hc.located hpending hrun
  have hkept := hc.remembers hremembers
  have hwhole := hsound.walks anchor nodes hwalk
  obtain ⟨total', htotal', hamounts⟩ :=
    totalCharges_whole hfloats (read_of_totalCharges htotal) hwhole
  obtain rfl := Except.ok.inj (htotal'.symm.trans htotal)
  refine ⟨hkept.located, hkept.verified, hkept.charged, fun other found hfound => ?_⟩
  dsimp only at hfound
  rw [Dict.get?_set] at hfound
  split at hfound
  · next heq =>
      cases hfound
      exact heq ▸ ⟨nodes, hwalk, hall, hamounts⟩
  · exact hkept.totals other found hfound

/-- The index may keep what is read of the anchor's subtree. -/
structure Ready (floats : Floats) (cell m : SharedStore S) : Prop where
  advances : Advances floats cell m
  current : m.Current
  known : cell.Coherent floats → (∀ s ∈ m.past, S.Sound floats s) → m.index.revision ≠ none →
    m.index.ancestry.contains anchor = true

theorem keepTotal_advances (hfloats : floats.Correct) {cell m m₁ m₂ : SharedStore S}
    (hready : Ready anchor floats cell m) {nodes : List Node} {total : MeterCharges}
    (hnodes : walkNodes fuel [anchor] [] m = .ok nodes m₁)
    (htotal : totalCharges floats (Node.validate lib) nodes = .ok total) (hreads : Reads m₁ m₂)
    (hpast : m₂.store ∈ m₂.past) :
    Advances floats cell (after (onIndex (do
      nodes.forM (RuntimeIndex.remember floats)
      modify fun index => { index with totals := index.totals.set anchor total })) m₂) := by
  have hreads₁ := (keeps_walkNodes hS fuel [anchor] []).of_ok hnodes
  have hchain := frame_reads.trans hreads₁ hreads
  have hrevision : Keeps RuntimeIndex.SameRevision (nodes.forM (RuntimeIndex.remember floats)) :=
    RuntimeIndex.frame_sameRevision.forM RuntimeIndex.keeps_revision_remember _
  have hwalk : m.index.revision = some (S.counters m₂.store) →
      S.Walks m₂.store [anchor] [] nodes := by
    intro hr
    have hcounters : S.counters m₂.store = S.counters m.store := hready.current _ hr
    obtain ⟨hmid, hend⟩ := hreads₁.later.squeeze hreads.later hcounters
    exact (hreads.later.same hend).1.walks (walkNodes_ok hS hnodes hmid)
  rw [after, onIndex, focus, hchain.index, bind_apply]
  cases hrun : nodes.forM (RuntimeIndex.remember floats) m.index with
  | ok _ index' =>
      have hsame : index'.revision = m.index.revision := hrevision.of_ok hrun
      refine ⟨List.Subset.trans hready.advances.past hchain.past, fun hlast =>
        hchain.last (hready.advances.last hlast), fun hc => ?_⟩
      have hkept : Advances floats m
          { m₂ with index := { index' with totals := index'.totals.set anchor total } } := by
        refine hchain.advances_index hsame fun _ hsound hr hconsistent => ?_
        have hknown := hready.known hc (fun s hs => hsound s (hchain.past hs))
          (hr ▸ Option.some_ne_none _)
        exact consistent_total lib anchor hS.rows hfloats (hsound _ hpast) (hwalk hr) htotal
          hknown hconsistent hrun
      exact hkept.coherent (hready.advances.coherent hc)
  | error e index' =>
      have hsame : index'.revision = m.index.revision := hrevision.of_error hrun
      refine frame_advances.trans hready.advances
        (hchain.advances_index hsame fun _ _ hr hconsistent => ?_)
      have hkeeps : Keeps (RuntimeIndex.Remembers S.toStoreReads floats m₂.store)
          (nodes.forM (RuntimeIndex.remember floats)) :=
        RuntimeIndex.frame_remembers.forM_mem fun node hnode =>
          RuntimeIndex.keeps_remember ((hwalk hr).get_mem hS.rows node hnode)
      exact hconsistent.remembers (hkeeps.of_error hrun)

/-- What accounting that returned has done: if the index is of a revision, it is the store's, and
the index holds the total. -/
structure Accounted (total : MeterCharges) (m : SharedStore S) : Prop where
  current : m.Current
  held : m.index.revision ≠ none → m.index.totals.get? anchor = some total

theorem walkTotal_trusted (hfloats : floats.Correct) {cell m : SharedStore S}
    (hready : Ready anchor floats cell m) :
    Advances floats cell (after (walkTotal lib floats fuel anchor true) m) ∧
      ∀ total m', walkTotal lib floats fuel anchor true m = .ok (some total) m' →
        Accounted anchor total m' := by
  have hR : Frame (Advances (S := S) floats) := frame_advances
  have hreads := keeps_walkNodes hS fuel [anchor] [] m
  rw [after, walkTotal, bind_of_ok (get_apply m), bind_apply]
  rw [after] at hreads
  cases hnodes : walkNodes fuel [anchor] [] m with
  | error e m₁ =>
      rw [hnodes] at hreads
      exact ⟨hR.trans hready.advances hreads.advances, by rintro _ _ ⟨⟩⟩
  | ok nodes m₁ =>
      rw [hnodes] at hreads
      dsimp only
      cases htotal : totalCharges floats (Node.validate lib) nodes with
      | error e => exact ⟨hR.trans hready.advances hreads.advances, by rintro _ _ ⟨⟩⟩
      | ok total =>
          rw [bind_of_ok (orRaise_ok total m₁), if_pos rfl, bind_apply]
          cases hread : read S.cacheRevision m₁ with
          | error e m₂ =>
              have hreads₂ := (keeps_read hS _).of_error hread
              exact ⟨hR.trans hready.advances (frame_reads.trans hreads hreads₂).advances,
                by rintro _ _ ⟨⟩⟩
          | ok revision m₂ =>
              have hpast := read_past hS hread
              obtain ⟨rfl, -, hreads₂⟩ := read_ok hS hread
              dsimp only
              by_cases hsame : S.cacheRevision m₂.store = m.index.revision
              · rw [if_neg (not_not.mpr hsame)]
                constructor
                · change Advances floats cell (after (_ >>= fun _ => pure (some total)) m₂)
                  rw [after_bind_of_id fun _ _ => rfl]
                  exact keepTotal_advances hS lib fuel anchor hfloats hready hnodes htotal
                    hreads₂ hpast
                · intro total' m' h
                  obtain ⟨_, m₃, hloop, h⟩ := bind_eq_ok h
                  cases h
                  rw [onIndex, focus] at hloop
                  split at hloop
                  · next index' hrun =>
                      cases hloop
                      obtain ⟨_, index₂, hremember, hset⟩ := bind_eq_ok hrun
                      cases hset
                      have hrevision : index₂.revision = m₂.index.revision :=
                        (RuntimeIndex.frame_sameRevision.forM
                          RuntimeIndex.keeps_revision_remember nodes).of_ok hremember
                      refine ⟨fun r hr => ?_, fun _ => Dict.get?_set_self _ _ _⟩
                      rw [(frame_reads.trans hreads hreads₂).index] at hrevision
                      have hr' : S.cacheRevision m₂.store = some r :=
                        hsame.trans (hrevision.symm.trans hr)
                      exact (RecordingStore.cacheRevision_eq_some hr').2.symm
                  · cases hloop
              · rw [if_pos hsame]
                constructor
                · refine hR.trans hready.advances
                    (hR.trans (frame_reads.trans hreads hreads₂).advances ?_)
                  exact hR.bind (hR.discard (keeps_synchronizeIndex hS)) (fun _ => hR.pure _) m₂
                · intro total' m' h
                  obtain ⟨_, m₃, -, h⟩ := bind_eq_ok h
                  cases h

theorem keeps_walkTotal_untrusted :
    Keeps Reads (walkTotal lib floats fuel anchor false :
      EStateM Error (SharedStore S) (Option MeterCharges)) := by
  have hR : Frame (Reads (S := S)) := frame_reads
  refine hR.bind hR.get fun _ => ?_
  refine hR.bind (keeps_walkNodes hS fuel [anchor] []) fun nodes => ?_
  exact hR.bind (hR.orRaise _) fun total => hR.pure _

theorem accountingRound_spec (hfloats : floats.Correct) (cell : SharedStore S) :
    Advances floats cell (after (accountingRound lib floats fuel anchor) cell) ∧
      ∀ total m, accountingRound lib floats fuel anchor cell = .ok (some total) m →
        Accounted anchor total m := by
  have hR : Frame (Advances (S := S) floats) := frame_advances
  obtain ⟨m, hm, hadvances, hcurrent, hfresh⟩ := synchronizeIndex_ok hS floats cell
  rw [after, accountingRound, bind_of_ok hm]
  by_cases htrusted : (S.cacheRevision m.store).isSome = true
  · rw [if_pos htrusted, bind_of_ok (get_apply m)]
    have hnow : m.Current := fun r hr =>
      (RecordingStore.cacheRevision_eq_some (hcurrent.symm.trans hr)).2.symm
    cases htotal : m.index.totals.get? anchor with
    | some total =>
        refine ⟨hadvances, fun total' m' h => ?_⟩
        cases h
        exact ⟨hnow, fun _ => htotal⟩
    | none =>
        have hkeeps : Keeps (Advances floats) (discard (verified lib floats fuel anchor) :
            EStateM Error (SharedStore S) PUnit) :=
          hR.discard fun c => (verified_spec hS lib fuel anchor c).1
        dsimp only
        rw [bind_apply]
        cases hrun : (discard (verified lib floats fuel anchor) :
            EStateM Error (SharedStore S) PUnit) m with
        | error e m₁ =>
            exact ⟨hR.trans hadvances (hkeeps.of_error hrun), by rintro _ _ ⟨⟩⟩
        | ok _ m₁ =>
            have hstep := hkeeps.of_ok hrun
            obtain ⟨node, c, hnode, hpure⟩ := bind_eq_ok (x := verified lib floats fuel anchor) hrun
            cases hpure
            obtain ⟨hcurrent', -, hknown⟩ := (verified_spec hS lib fuel anchor m).2 node m₁ hnode
            have hready : Ready anchor floats cell m₁ :=
              ⟨hR.trans hadvances hstep, hcurrent', fun hc => hknown (hadvances.coherent hc)⟩
            exact walkTotal_trusted hS lib fuel anchor hfloats hready
  · rw [if_neg htrusted]
    have hnone : m.index = .fresh none :=
      hfresh (hcurrent.trans (Option.not_isSome_iff_eq_none.mp htrusted))
    have hreads : Keeps Reads (walkTotal lib floats fuel anchor false) :=
      keeps_walkTotal_untrusted hS lib fuel anchor
    refine ⟨hR.trans hadvances (hreads m).advances, fun total m' h => ?_⟩
    have hindex : m'.index = .fresh none := (hreads.of_ok h).index.trans hnone
    refine ⟨Current.of_fresh hindex, fun hsome => ?_⟩
    rw [hindex] at hsome
    exact absurd rfl hsome

omit hS in
theorem keeps_forget : Keeps (Advances floats) (onIndex (set (RuntimeIndex.fresh none)) :
    EStateM Error (SharedStore S) Unit) := fun cell => advances_fresh cell none (by rintro _ ⟨⟩)

theorem keeps_accountingRound (hfloats : floats.Correct) :
    Keeps (Advances floats) (accountingRound lib floats fuel anchor :
      EStateM Error (SharedStore S) (Option MeterCharges)) := fun cell =>
  (accountingRound_spec hS lib fuel anchor hfloats cell).1

theorem keeps_meterAccounting (hfloats : floats.Correct) :
    Keeps (Advances floats) (meterAccounting lib floats fuel anchor :
      EStateM Error (SharedStore S) MeterCharges) := by
  have hR : Frame (Advances (S := S) floats) := frame_advances
  refine hR.bind (keeps_rounds (keeps_accountingRound hS lib fuel anchor hfloats) 3) fun total => ?_
  cases total with
  | some total => exact hR.pure _
  | none =>
      refine hR.bind keeps_forget fun _ => ?_
      refine hR.bind (Reads.keeps (keeps_tryRead hS _)) fun nodes => ?_
      cases nodes with
      | none => exact hR.throw _
      | some nodes => exact hR.orRaise _

theorem meterAccounting_ok (hfloats : floats.Correct) {cell m : SharedStore S}
    {total : MeterCharges} (h : meterAccounting lib floats fuel anchor cell = .ok total m) :
    Accounted anchor total m := by
  have hround : Keeps (Advances floats) (accountingRound lib floats fuel anchor) :=
    keeps_accountingRound hS lib fuel anchor hfloats
  obtain ⟨result, c, hresult, h⟩ := bind_eq_ok h
  cases result with
  | some found =>
      cases h
      obtain ⟨c', -, hlast⟩ := rounds_ok hround hresult
      exact (accountingRound_spec hS lib fuel anchor hfloats c').2 total m hlast
  | none =>
      obtain ⟨_, c', hset, h⟩ := bind_eq_ok h
      cases hset
      obtain ⟨nodes, c'', hsnapshot, h⟩ := bind_eq_ok h
      have hindex : c''.index = .fresh none := (tryRead_ok hS hsnapshot).2.index
      cases nodes with
      | none => cases h
      | some nodes =>
          obtain ⟨-, rfl⟩ := orRaise_eq_ok h
          refine ⟨Current.of_fresh hindex, fun hsome => ?_⟩
          rw [hindex] at hsome
          exact absurd rfl hsome

/-! ## Depths -/

theorem keeps_depthAt (id : String) :
    Keeps (Advances floats) (depthAt lib floats fuel id : EStateM Error (SharedStore S) ℕ) := by
  have hR : Frame (Advances (S := S) floats) := frame_advances
  have hdepth : Keeps (Advances floats) (readDepth lib fuel id) :=
    Reads.keeps (keeps_readDepth hS lib fuel id)
  refine hR.bind (keeps_synchronizeIndex hS) fun trusted => ?_
  split
  · refine hR.bind (hR.discard fun c => (verified_spec hS lib fuel id c).1) fun _ => ?_
    refine hR.bind hR.get fun cell => ?_
    split
    · exact hR.pure _
    · exact hdepth
  · exact hdepth

/-- A depth that is not counted anew is the one in the index. -/
theorem depthAt_ok (floats : Floats) {id : String} {cell m : SharedStore S} {depth : ℕ}
    (h : depthAt lib floats fuel id cell = .ok depth m)
    (hcached : m.index.ancestry.contains id = true) :
    m.Current ∧ m.index.revision ≠ none ∧
      ∃ parent root, m.index.ancestry.get? id = some (parent, root, depth) := by
  obtain ⟨c, hc, -, hcurrent, hfresh⟩ := synchronizeIndex_ok hS floats cell
  rw [depthAt, bind_of_ok hc] at h
  by_cases htrusted : (S.cacheRevision c.store).isSome = true
  · rw [if_pos htrusted] at h
    obtain ⟨_, c₁, hdiscard, h⟩ := bind_eq_ok h
    obtain ⟨node, c₂, hverified, hpure⟩ := bind_eq_ok (x := verified lib floats fuel id) hdiscard
    cases hpure
    obtain ⟨hcurrent', hfresh', -⟩ := (verified_spec hS lib fuel id c).2 node c₁ hverified
    rw [bind_of_ok (get_apply c₁)] at h
    cases hinfo : c₁.index.ancestry.get? id with
    | some info =>
        obtain ⟨parent, root, found⟩ := info
        rw [hinfo] at h
        cases h
        refine ⟨hcurrent', fun hnone => ?_, parent, root, hinfo⟩
        rw [hfresh' hnone] at hinfo
        cases hinfo
    | none =>
        rw [hinfo] at h
        rw [((keeps_readDepth hS lib fuel id).of_ok h).index, Dict.contains, hinfo] at hcached
        cases hcached
  · rw [if_neg htrusted] at h
    have hnone : c.index = .fresh none :=
      hfresh (hcurrent.trans (Option.not_isSome_iff_eq_none.mp htrusted))
    rw [((keeps_readDepth hS lib fuel id).of_ok h).index, hnone] at hcached
    cases hcached

/-! ## Runs -/

theorem keeps_perform (hfloats : floats.Correct) (call : Call) :
    Keeps (Advances floats) (perform lib floats fuel call :
      EStateM Error (SharedStore S) Unit) := by
  have hR : Frame (Advances (S := S) floats) := frame_advances
  cases call with
  | writeNode node finalize => exact keeps_mutate hS hfloats _
  | updateMeta id patch => exact keeps_mutate hS hfloats _
  | discardPending id => exact keeps_discardPending hS id
  | reserve =>
      have hreserve : Keeps Reads (access fun s => ((), S.reserve s) :
          EStateM Error (SharedStore S) Unit) := keeps_access hS hS.reserve_later
      exact Reads.keeps hreserve
  | verified id => exact hR.discard fun c => (verified_spec hS lib fuel id c).1
  | meterAccounting anchor => exact hR.discard (keeps_meterAccounting hS lib fuel anchor hfloats)
  | depthAt id => exact hR.discard (keeps_depthAt hS lib fuel id)
  | rollback cursor target => exact hR.discard (Reads.keeps (keeps_rollback hS fuel cursor target))
  | reopen => exact keeps_forget

theorem run_advances (hfloats : floats.Correct) (cell : SharedStore S) (calls : List Call) :
    Advances floats cell (run lib floats fuel cell calls) := by
  induction calls generalizing cell with
  | nil => exact frame_advances.refl cell
  | cons call calls ih =>
      exact frame_advances.trans (keeps_perform hS lib fuel hfloats call cell) (ih _)

omit hS in
theorem coherent_new (store : State) (commits : List (List S.Commit)) :
    (new S store commits).Coherent floats := by
  rintro - r ⟨⟩

omit hS in
/-- A check against a budget looks up what is spent. -/
theorem exceededMeter_congr {spent spent' : MeterCharges}
    (h : ∀ name, spent.getD name 0 = spent'.getD name 0) (estimates : MeterCharges)
    (nextDepth : ℕ) (budget : List (String × ℚ)) :
    exceededMeter floats spent estimates nextDepth budget =
      exceededMeter floats spent' estimates nextDepth budget := by
  induction budget with
  | nil => rfl
  | cons entry budget ih =>
      rw [exceededMeter, exceededMeter, h, ih]

end Accounting

end Documented

end SharedStore

/-! ## A charge that is patched -/

/-- In a memory store, the charges of every subtree are exact if those of all nodes are. -/
theorem MemoryStore.sound_reads {lib : Library} {floats : Floats} {s : MemoryState lib}
    (h : WholeCharges floats s.1.nodes.values) : (MemoryStore.reads lib).Sound floats s where
  rooted := by
    intro id hchildren
    obtain ⟨child, hchild⟩ := List.exists_mem_of_ne_nil _ hchildren
    obtain ⟨entry, hentry, -⟩ := mem_sortedIds.mp hchild
    obtain ⟨node, hnode, hparent, -⟩ := s.2.indexed.mp hentry
    exact MemoryStore.exists?_iff.mpr (s.2.parent_exists hnode hparent)
  whole := by
    intro fuel anchor nodes hwalk
    have hwalks := walks_of_ok hwalk
    apply h.subperm
    refine List.subperm_of_subset (hwalks.nodup MemoryStore.rows_reads).of_map ?_
    intro node hnode
    exact Dict.mem_values_of_get?
      (MemoryStore.get_ok_iff.mp (hwalks.get_mem MemoryStore.rows_reads node hnode))

/-- Floats that hold every number of a decimal. -/
def exactFloats : Floats where
  decimals := .documented
  ofNumber text := (Exact.parseDecimalExact .documented text).toOption.map Exact.Decimal.value
  text amount := toString amount.num
  ofDecimal d := some d.value
  errorText _ := ""

theorem exactFloats_correct : exactFloats.Correct where
  decimals := Exact.documented_correct
  text := fun _ _ => rfl
  ofDecimal := fun _ _ _ heq => congrArg some heq

namespace SharedStore

open Sharing

def tokens (n : ℕ) : HeldJson :=
  ⟨.object [("charges", .object [("tokens", .number (toString n))])], by
    simp [Json.distinct, Json.distinctEntries, Assoc.keys]⟩

/-- The total is cached and then patched. -/
def chargedCalls : List Call :=
  [.writeNode sharedRoot false, .updateMeta sharedRoot.1.id (tokens 2),
    .meterAccounting sharedRoot.1.id, .updateMeta sharedRoot.1.id (tokens 5)]

def emptyMemory : MemoryState lengthLibrary := ⟨.empty, MemoryStore.wellFormed_empty⟩

def charged : SharedStore (MemoryStore.recording lengthLibrary) :=
  run lengthLibrary exactFloats 3 (new _ emptyMemory []) chargedCalls

/-- No node, or one with so many tokens. -/
def chargesFew (nodes : List Node) : Bool :=
  nodes.length ≤ 1 ∧ ∀ node ∈ nodes,
    ((meterChargesFromMeta exactFloats node.metadata).toOption.map Dict.entries) ∈
      [some [], some [("tokens", 2)], some [("tokens", 5)]]

theorem whole_of_chargesFew {nodes : List Node} (h : chargesFew nodes = true) :
    WholeCharges exactFloats nodes := by
  obtain ⟨hlength, hcharges⟩ := of_decide_eq_true h
  intro name
  have hamounts : ∀ node ∈ nodes, Whole (amountOf exactFloats name node) := by
    intro node hnode
    have htokens : ∀ n ≤ exactLimit, Whole ((Assoc.lookup [("tokens", (n : ℚ))] name).getD 0) := by
      intro n hn
      rw [Assoc.lookup]
      split
      · exact ⟨n, hn, rfl⟩
      · exact .zero
    have hmem := hcharges node hnode
    cases hread : meterChargesFromMeta exactFloats node.metadata with
    | error e =>
        rw [hread] at hmem
        simp [Except.toOption] at hmem
    | ok charges =>
        rw [amountOf_of_ok hread, Dict.getD, Dict.get?]
        rw [hread] at hmem
        simp only [Except.toOption, Option.map_some, List.mem_cons, Option.some.injEq,
          List.not_mem_nil, or_false] at hmem
        rcases hmem with hentries | hentries | hentries <;> rw [hentries]
        · exact .zero
        · exact htokens 2 (by decide)
        · exact htokens 5 (by decide)
  refine ⟨hamounts, ?_⟩
  cases nodes with
  | nil => exact .zero
  | cons node rest =>
      obtain rfl := List.eq_nil_of_length_eq_zero (Nat.le_zero.mp (Nat.le_of_succ_le_succ hlength))
      rw [List.map_singleton, List.sum_singleton]
      exact hamounts node List.mem_cons_self

end SharedStore

end Pollard.Rust
