import Pollard.Runtime.Operations

/-!
# The runs of a store

What opening a run, branching one off and acting through one do to the store and to
the runs on it.
-/

namespace Pollard

open Lib Effect

theorem grown : Frame MemoryStore.Grown := ⟨MemoryStore.Grown.refl, MemoryStore.Grown.trans⟩

section Runtime

variable (H : Hashing) (rt : Runtime)

/-! ## Opening a run -/

theorem grown_putNode {node : Node} (hcharges : node.charges = []) :
    Keeps MemoryStore.Grown (putNode H rt node) := by
  intro store
  unfold after
  rcases putNode_cases H rt node store with ⟨e, h⟩ | ⟨stored, after, h, hput, -⟩ |
    ⟨stored, h, -⟩
  · rw [h]
    exact .refl store
  · rw [h]
    exact MemoryStore.put_grown hput hcharges
  · rw [h]
    exact .refl store

theorem putNode_ok {node stored : Node} {store after : MemoryStore}
    (h : putNode H rt node store = .ok stored after) :
    stored.id = node.id ∧ after.contains node.id = true := by
  rcases putNode_cases H rt node store with ⟨e, he⟩ | ⟨stored', after', h', -, hid, hin⟩ |
    ⟨stored', h', hid, hin⟩
  · rw [he] at h
    cases h
  · rw [h'] at h
    cases h
    exact ⟨hid, hin⟩
  · rw [h'] at h
    cases h
    exact ⟨hid, hin⟩

theorem grown_bindRegistry (rootId : String) : Keeps MemoryStore.Grown (bindRegistry rt rootId) := by
  intro store
  unfold bindRegistry
  cases rt.registry with
  | none => exact .refl store
  | some registry =>
      refine grown.bind_at (grown.get store) fun _ _ hget => ?_
      cases hget
      refine grown.bind_at (grown.orRaise _ _) fun root _ hroot => ?_
      obtain ⟨-, rfl⟩ := orRaise_eq_ok hroot
      split
      · split
        · exact .refl _
        · exact .refl _
      · split
        · exact .refl _
        · refine grown.bind_at (grown.orRaise _ _) fun updated _ hupdated => ?_
          obtain ⟨hupdate, rfl⟩ := orRaise_eq_ok hupdated
          refine MemoryStore.updateMeta_grown ?_ hupdate
          rfl

theorem grown_runScopes (rootId : String) (budget : Option Budget) :
    Keeps MemoryStore.Grown (runScopes H rt rootId budget) :=
  grown.bind (fun store => (configured_validateSharedConfiguration H rt store).toGrown)
    fun _ => grown.pure _

/-- The scopes a run is opened with. -/
def openedScopes (rootId : String) (budget : Option Budget) : List BudgetScope :=
  (rt.sharedBudgets.map fun scope => ⟨scope.budget, scope.scopeId H, []⟩) ++
    budget.toList.map fun budget => ⟨budget, rootId, []⟩

theorem runScopes_ok {rootId : String} {budget : Option Budget} {store after : MemoryStore}
    {scopes : List BudgetScope} (h : runScopes H rt rootId budget store = .ok scopes after) :
    scopes = openedScopes H rt rootId budget := by
  unfold runScopes at h
  obtain ⟨_, _, -, h⟩ := bind_eq_ok h
  cases h
  rfl

theorem deepestNonPrunedLeaf_contains {store : MemoryStore} {rootId leafId : String}
    (hroot : store.contains rootId = true)
    (h : deepestNonPrunedLeaf store rootId = .ok leafId) : store.contains leafId = true := by
  obtain ⟨nodes, hwalk, hperm⟩ := MemoryStore.walk_subtree hroot
  have hnodes : ∀ node ∈ nodes, store.contains node.id = true := fun node hnode =>
    MemoryStore.contains_of_find?
      (MemoryStore.find?_of_mem (List.mem_filter.mp (hperm.mem_iff.mp hnode)).1)
  have hfold : ∀ (nodes : List Node) (best after : String × ℕ),
      (∀ node ∈ nodes, store.contains node.id = true) → store.contains best.1 = true →
      nodes.foldlM (deeperLeaf store) best = .ok after → store.contains after.1 = true := by
    intro nodes
    induction nodes with
    | nil =>
        intro best after _ hbest h
        cases h
        exact hbest
    | cons node nodes ih =>
        intro best after hin hbest h
        rw [List.foldlM_cons] at h
        cases hstep : deeperLeaf store best node with
        | error e =>
            rw [hstep] at h
            cases h
        | ok next =>
            rw [hstep] at h
            refine ih next after (fun n hn => hin n (List.mem_cons_of_mem _ hn)) ?_ h
            have hnext : next = best ∨ next.1 = node.id := by
              unfold deeperLeaf at hstep
              split at hstep
              · cases hstep
                exact .inl rfl
              · cases hchildren : (store.children node.id).mapM store.get with
                | error e => simp [hchildren, bind, Except.bind] at hstep
                | ok children =>
                    simp only [hchildren, bind, Except.bind] at hstep
                    split at hstep
                    · cases hstep
                      exact .inl rfl
                    · cases hdepth : store.depth node.id with
                      | error e => simp [hdepth] at hstep
                      | ok depth =>
                          simp only [hdepth] at hstep
                          split at hstep
                          · cases hstep
                            exact .inr rfl
                          · cases hstep
                            exact .inl rfl
            rcases hnext with rfl | hid
            · exact hbest
            · rw [hid]
              exact hin node List.mem_cons_self
  unfold deepestNonPrunedLeaf at h
  rw [hwalk] at h
  simp only [bind, Except.bind] at h
  split at h
  · cases h
  · next best hbest =>
      cases h
      exact hfold nodes _ best hnodes hroot hbest

/-- A run as it is opened. -/
structure Opened (label : String) (budget : Option Budget) (attempt : ℤ) (run : Run)
    (store : MemoryStore) : Prop where
  root : run.rootId = H.nodeId .root none attempt (.dict [("run", .str label)])
  scopes : run.budgetScopes = openedScopes H rt run.rootId budget
  pending : run.pendingToolCalls = ∅
  cursor : store.contains run.cursorId = true

theorem rootNode_id {label : String} {attempt : ℤ} {root : Node}
    (h : rootNode H label attempt = .ok root) :
    root.id = H.nodeId .root none attempt (.dict [("run", .str label)]) ∧ root.charges = [] :=
  ⟨by rw [Node.eq_of_make h], charges_of_make H h (Dict.get?_empty _)⟩

theorem get_ok {store : MemoryStore} {id : String} {node : Node}
    (h : store.get id = .ok node) : node.id = id ∧ store.contains id = true := by
  unfold MemoryStore.get at h
  split at h
  · next found hfind =>
      cases h
      exact ⟨(MemoryStore.mem_of_find? hfind).2, MemoryStore.contains_of_find? hfind⟩
  · cases h

theorem grown_storedRoot (writes : Bool) {root : Node} (hcharges : root.charges = []) :
    Keeps MemoryStore.Grown (storedRoot H rt writes root) := by
  unfold storedRoot
  split
  · exact grown_putNode H rt hcharges
  · exact grown.bind grown.get fun _ => grown.orRaise _

theorem storedRoot_ok {writes : Bool} {root stored : Node} {store after : MemoryStore}
    (h : storedRoot H rt writes root store = .ok stored after) :
    stored.id = root.id ∧ after.contains root.id = true := by
  unfold storedRoot at h
  split at h
  · exact putNode_ok H rt h
  · rw [bind_of_ok (get_apply store)] at h
    obtain ⟨hget, rfl⟩ := orRaise_eq_ok h
    exact get_ok hget

theorem openedRun_grown (resumes : Bool) (label : String) (budget : Option Budget)
    (attempt : ℤ) : Keeps MemoryStore.Grown (openedRun H rt resumes label budget attempt) := by
  unfold openedRun
  split
  · refine grown.bind_orRaise fun root hroot => ?_
    refine grown.bind (grown_storedRoot H rt _ (rootNode_id H hroot).2) fun stored => ?_
    refine grown.bind (grown_bindRegistry rt _) fun _ => ?_
    refine grown.bind (grown_runScopes H rt _ _) fun _ => grown.bind grown.get fun _ => ?_
    exact grown.bind (grown.orRaise _) fun _ => grown.pure _
  · refine grown.bind_orRaise fun root hroot => grown.bind grown.get fun store => ?_
    refine grown.bind (grown_storedRoot H rt _ (rootNode_id H hroot).2) fun stored => ?_
    refine grown.bind (grown_bindRegistry rt _) fun _ => ?_
    exact grown.bind (grown_runScopes H rt _ _) fun _ => grown.pure _

theorem openedRun_ok {resumes : Bool} {label : String} {budget : Option Budget} {attempt : ℤ}
    {store after : MemoryStore} {run : Run}
    (h : openedRun H rt resumes label budget attempt store = .ok run after) :
    Opened H rt label budget attempt run after := by
  unfold openedRun at h
  split at h
  · obtain ⟨root, m, hroot, hrest⟩ := bind_eq_ok h
    obtain ⟨hmade, rfl⟩ := orRaise_eq_ok hroot
    obtain ⟨stored, m, hstored, hrest⟩ := bind_eq_ok hrest
    obtain ⟨hid, hin⟩ := storedRoot_ok H rt hstored
    obtain ⟨_, n, hbind, hrest⟩ := bind_eq_ok hrest
    obtain ⟨scopes, k, hscopes, hrest⟩ := bind_eq_ok hrest
    rw [bind_of_ok (get_apply k)] at hrest
    obtain ⟨cursorId, k, hleaf, hrest⟩ := bind_eq_ok hrest
    obtain ⟨hfound, rfl⟩ := orRaise_eq_ok hleaf
    cases hrest
    have hkept := ((grown_bindRegistry rt _).of_ok hbind).trans
      ((grown_runScopes H rt _ _).of_ok hscopes)
    refine ⟨by rw [hid, (rootNode_id H hmade).1], runScopes_ok H rt hscopes, rfl,
      deepestNonPrunedLeaf_contains ?_ hfound⟩
    rw [hid]
    exact (hkept.kept _ hin).1
  · obtain ⟨root, m, hroot, hrest⟩ := bind_eq_ok h
    obtain ⟨hmade, rfl⟩ := orRaise_eq_ok hroot
    rw [bind_of_ok (get_apply store)] at hrest
    obtain ⟨stored, m, hstored, hrest⟩ := bind_eq_ok hrest
    obtain ⟨hid, hin⟩ := storedRoot_ok H rt hstored
    obtain ⟨_, n, hbind, hrest⟩ := bind_eq_ok hrest
    obtain ⟨scopes, k, hscopes, hrest⟩ := bind_eq_ok hrest
    cases hrest
    have hkept := ((grown_bindRegistry rt _).of_ok hbind).trans
      ((grown_runScopes H rt _ _).of_ok hscopes)
    refine ⟨by rw [hid, (rootNode_id H hmade).1], runScopes_ok H rt hscopes, rfl, ?_⟩
    change after.contains stored.id = true
    rw [hid]
    exact (hkept.kept _ hin).1

/-! ## Branching off -/

/-- The run a branch gives, and what it leaves of its parent. -/
structure Branched (attempt : ℤ) (budget : Option Budget) (s : Session) (child : Run)
    (t : Session) : Prop where
  run : t.run = s.run
  isChild : child = s.run.child
    (H.nodeId .note (some s.run.cursorId) attempt branchPayload) budget
  cursor : t.store.contains child.cursorId = true

theorem branch_ok {env : CallEnv} {attempt : ℤ} {budget : Option Budget} {s t : Session}
    {child : Run} (h : branch H rt env attempt budget s = .ok child t) :
    Branched H attempt budget s child t := by
  unfold branch at h
  rw [bind_of_ok (get_apply s)] at h
  obtain ⟨anchor, m, hanchor, hrest⟩ := bind_eq_ok h
  obtain ⟨hmade, rfl⟩ := orRaise_eq_ok hanchor
  have htail : ∀ m : Session, m.run = s.run → (do
      let anchor ← onStore (putNode H rt anchor)
      let s ← get
      return s.run.child anchor.id budget : RunM Run) m = .ok child t →
      Branched H attempt budget s child t := by
    intro m hrun h
    obtain ⟨stored, n, hput, h⟩ := bind_eq_ok h
    unfold onStore focus at hput
    cases hrun' : putNode H rt anchor m.store with
    | error e store =>
        rw [hrun'] at hput
        cases hput
    | ok stored' store =>
        rw [hrun'] at hput
        cases hput
        obtain ⟨hid, hin⟩ := putNode_ok H rt hrun'
        cases h
        have hanchor : stored.id = H.nodeId .note (some s.run.cursorId) attempt branchPayload := by
          rw [hid, Node.eq_of_make hmade]
        refine ⟨hrun, by rw [← hanchor, ← hrun], ?_⟩
        change store.contains stored.id = true
        rw [hid]
        exact hin
  split at hrest
  · exact htail s rfl hrest
  · obtain ⟨reservation, m, hprecheck, hrest⟩ := bind_eq_ok hrest
    exact htail m (precheck_ok H rt env hprecheck).1.run hrest

/-! ## Acting -/

/-- The run an operation gives. -/
theorem perform_child {flavor : Flavor} {env : CallEnv} {op : Op} {s t : Session} {child : Run}
    (h : op.perform H rt flavor env s = .ok (some child) t) :
    ∃ attempt budget, op = .branch attempt budget ∧
      Branched H attempt budget s child t := by
  cases op with
  | branch attempt budget =>
      obtain ⟨found, m, hbranch, h⟩ := bind_eq_ok h
      cases h
      exact ⟨attempt, budget, rfl, branch_ok H rt hbranch⟩
  | modelCall payload attempt keepChunks =>
      obtain ⟨_, _, -, h⟩ := bind_eq_ok h
      cases h
  | toolCall name args passesFn version attempt =>
      obtain ⟨_, _, -, h⟩ := bind_eq_ok h
      cases h
  | confirm token =>
      obtain ⟨_, _, -, h⟩ := bind_eq_ok h
      cases h
  | note payload attempt =>
      obtain ⟨_, _, -, h⟩ := bind_eq_ok h
      cases h
  | rollback nodeId steps =>
      obtain ⟨_, _, -, h⟩ := bind_eq_ok h
      cases h
  | prune =>
      obtain ⟨_, _, -, h⟩ := bind_eq_ok h
      cases h

/-- A world after a step: nothing happened, a run was opened or not, or a run acted
and maybe gave another one. -/
inductive Stepped (w : World) : Input → World → Prop
  | opened {resumes : Bool} {label : String} {budget : Option Budget} {attempt : ℤ} {run : Run}
      {store : MemoryStore} (hgrown : MemoryStore.Grown w.store store)
      (hopened : Opened H rt label budget attempt run store) :
      Stepped w (.opened resumes label budget attempt)
        { w with store, handles := w.handles ++ [{ run }] }
  | failed {resumes : Bool} {label : String} {budget : Option Budget} {attempt : ℤ}
      {store : MemoryStore} (hgrown : MemoryStore.Grown w.store store) :
      Stepped w (.opened resumes label budget attempt) { w with store }
  | idle {index : ℕ} {flavor : Flavor} {env : CallEnv} {op : Op} :
      Stepped w (.acted index flavor env op) w
  | acted {index : ℕ} {flavor : Flavor} {env : CallEnv} {op : Op} {handle : Handle}
      {s : Session} {child : Option Run} (hhandle : w.handles[index]? = some handle)
      (hends : OpEnds H rt env flavor op (w.session handle) s)
      (hchild : ∀ run ∈ child, ∃ attempt budget, op = .branch attempt budget ∧
        Branched H attempt budget (w.session handle) run s) :
      Stepped w (.acted index flavor env op) (w.afterOp index handle s child)

theorem stepped (w : World) (input : Input) : Stepped H rt w input (w.step H rt input) := by
  cases input with
  | opened resumes label budget attempt =>
      have hgrown := openedRun_grown H rt resumes label budget attempt
      unfold World.step
      dsimp only
      split
      · next run store h => exact .opened (hgrown.of_ok h) (openedRun_ok H rt h)
      · next e store h => exact .failed (hgrown.of_error h)
  | acted index flavor env op =>
      unfold World.step
      dsimp only
      cases hhandle : w.handles[index]? with
      | none => exact .idle
      | some handle =>
          have hends := ends_perform H rt env flavor op (w.session handle)
          dsimp only
          cases hrun : op.perform H rt flavor env (w.session handle) with
          | ok child s =>
              rw [after, hrun] at hends
              refine .acted hhandle hends fun run hchild => ?_
              cases hchild
              exact perform_child H rt hrun
          | error e s =>
              rw [after, hrun] at hends
              exact .acted hhandle hends (by simp)

/-! ## Cursors -/

/-- A session that kept its nodes, and its cursor at one of them. -/
structure Anchored (s t : Session) : Prop where
  kept : ∀ id, s.store.contains id = true → t.store.contains id = true
  cursor : s.store.contains s.run.cursorId = true → t.store.contains t.run.cursorId = true

theorem Anchored.of_quiet {s t : Session} (h : Quiet s t) : Anchored s t :=
  ⟨fun id hid => (h.store.kept id hid).1, h.cursor⟩

theorem Anchored.trans {s m t : Session} (h : Anchored s m) (h' : Anchored m t) :
    Anchored s t :=
  ⟨fun id hid => h'.kept id (h.kept id hid), fun hcursor => h'.cursor (h.cursor hcursor)⟩

theorem Anchored.log (s : Session) (events : List Event) : Anchored s (s.log events) :=
  ⟨fun _ hid => hid, fun hcursor => hcursor⟩

theorem Anchored.moved {s : Session} {node : Node} {store : MemoryStore}
    (h : s.store.put H node = .ok store) : Anchored s (s.moved store node.id).reviewed := by
  obtain ⟨stored, -, -, hnode⟩ := MemoryStore.put_get h
  refine ⟨fun id hid => ?_, fun _ => hnode⟩
  rcases MemoryStore.put_cases h with hadded | hfolded
  · exact (hadded.kept id hid).1
  · exact (hfolded.kept id hid).1

theorem OpEnds.anchored {flavor : Flavor} {env : CallEnv} {op : Op} {s t : Session}
    (h : OpEnds H rt env flavor op s t) : Anchored s t := by
  cases h with
  | quiet hquiet => exact .of_quiet hquiet
  | suspended id pending approved => exact ⟨fun _ hid => hid, fun hcursor => hcursor⟩
  | dry hbefore hmode hcall hdry hpassed hends =>
      refine (Anchored.of_quiet (hbefore.quiet.trans (precheck_ok H rt env hpassed).1.quiet)).trans ?_
      cases hends with
      | unrecorded hwhy => exact .log _ _
      | recorded node store hnode hput => exact (Anchored.log _ _).trans (.moved H hput)
  | called hbefore hmode hcall haction hpassed hends =>
      refine (Anchored.of_quiet (hbefore.quiet.trans (precheck_ok H rt env hpassed).1.quiet)).trans ?_
      cases hends with
      | released hobtained => exact .log _ _
      | unpriced hfails hpriced => exact .log _ _
      | unmade charges hfails hattempt hpriced => exact .log _ _
      | lost charges hcompletes hsettle hpriced => exact .log _ _
      | rejected charges node hpriced hnode hput hfailed => exact .log _ _
      | recorded charges node store hpriced hnode hput hsettle hfailed =>
          exact (Anchored.log _ _).trans (.moved H hput)

end Runtime

theorem mem_afterOp {w : World} {index : ℕ} {handle other : Handle} {s : Session}
    {child : Option Run} (h : other ∈ (w.afterOp index handle s child).handles) :
    other ∈ w.handles ∨ other = ⟨s.run, s.trace ++ handle.heard⟩ ∨
      ∃ run ∈ child, other = ⟨run, s.trace ++ handle.heard⟩ := by
  rcases List.mem_append.mp h with h | h
  · rcases List.mem_or_eq_of_mem_set h with h | h
    · exact .inl h
    · exact .inr (.inl h)
  · obtain ⟨run, hrun, rfl⟩ := List.mem_map.mp h
    exact .inr (.inr ⟨run, Option.mem_toList.mp hrun, rfl⟩)

section Runtime

variable (H : Hashing) (rt : Runtime)

/-- The runs stand at stored nodes. -/
def CursorsStored (w : World) : Prop :=
  ∀ handle ∈ w.handles, w.store.contains handle.run.cursorId = true

theorem cursorsStored_step (w : World) (input : Input) (hw : CursorsStored w) :
    CursorsStored (w.step H rt input) := by
  have hstep := stepped H rt w input
  generalize w.step H rt input = after at hstep
  cases hstep with
  | opened hgrown hopened =>
      intro handle hhandle
      rcases List.mem_append.mp hhandle with hhandle | hhandle
      · exact (hgrown.kept _ (hw handle hhandle)).1
      · rw [List.mem_singleton.mp hhandle]
        exact hopened.cursor
  | failed hgrown => exact fun handle hhandle => (hgrown.kept _ (hw handle hhandle)).1
  | idle => exact hw
  | @acted index flavor env op handle s child hhandle hends hchild =>
      have hanchored := hends.anchored
      intro other hother
      rcases mem_afterOp hother with hother | rfl | ⟨run, hrun, rfl⟩
      · exact hanchored.kept _ (hw other hother)
      · exact hanchored.cursor (hw handle (List.mem_of_getElem? hhandle))
      · obtain ⟨attempt, budget, -, hbranched⟩ := hchild run hrun
        exact hbranched.cursor

/-- Whatever happened, the runs stand at stored nodes. -/
theorem cursors_stored (store : MemoryStore) (inputs : List Input) :
    CursorsStored (World.run H rt { store } inputs) :=
  Machine.preserved_run CursorsStored (cursorsStored_step H rt) (by simp [CursorsStored]) inputs

end Runtime

end Pollard
