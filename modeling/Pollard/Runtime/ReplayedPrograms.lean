import Pollard.Runtime.RecordReplay

/-!
# Programs that are recorded and replayed

A program asks for runs and for what they do, by what it has seen so far.  One that was recorded to
its end is replayed to its end, and sees the same on the way.
-/

namespace Pollard

open Lib Effect

section Runtime

variable {H : Hashing} {rt : Runtime} {env : CallEnv}

open MemoryStore

/-! ## Opening a run -/

/-- A node that is expected is stored, with the result that is expected. -/
def Expected (expected : Except PyError Node) (store : MemoryStore) : Prop :=
  ∃ node stored, expected = .ok node ∧ store.find? node.id = some stored ∧
    stored.resultText = node.resultText

theorem Expected.of_recorded {expected : Except PyError Node} {before after : MemoryStore}
    (h : Expected expected before) (hrecorded : Recorded H before after) :
    Expected expected after := by
  obtain ⟨node, stored, hnode, hfind, hresult⟩ := h
  obtain ⟨metadata, hafter, -⟩ := hrecorded.kept _ stored hfind
  exact ⟨node, { stored with metadata }, hnode, hafter, hresult⟩

theorem bindConfiguration_recorded (hmode : rt.mode = .record) {expected : Except PyError Node}
    (hkind : ∀ node, expected = .ok node → node.kind = .root) {store after : MemoryStore} {u : Unit}
    (h : (do let node ← orRaise expected; bindConfiguration H rt node : StoreM Unit) store =
      .ok u after) : Recorded H store after ∧ Expected expected after := by
  obtain ⟨node, m, hmade, h⟩ := bind_eq_ok h
  obtain ⟨hnode, rfl⟩ := orRaise_eq_ok hmade
  refine ⟨(recorded_bindConfiguration (hkind node hnode)).of_ok h, ?_⟩
  unfold bindConfiguration at h
  rw [bind_of_ok (get_apply store), if_neg (by rw [hmode]; decide)] at h
  obtain ⟨bound, m, hbound, h⟩ := bind_eq_ok h
  obtain ⟨-, rfl⟩ := orRaise_eq_ok hbound
  obtain ⟨_, m, hset, h⟩ := bind_eq_ok h
  cases hset
  obtain ⟨actual, m, hactual, h⟩ := bind_eq_ok h
  obtain ⟨hget, rfl⟩ := orRaise_eq_ok hactual
  split at h
  · cases h
  · next hsame =>
      cases h
      exact ⟨node, actual, hnode, find?_of_get hget, not_not.mp fun hne => hsame (.inr hne)⟩

theorem bindConfiguration_replays (hmode : rt.mode = .replay) {expected : Except PyError Node}
    {store : MemoryStore} (hnamed : store.Named H) (h : Expected expected store) :
    (do let node ← orRaise expected; bindConfiguration H rt node : StoreM Unit) store =
      .ok () store := by
  obtain ⟨node, stored, rfl, hfind, hresult⟩ := h
  rw [bind_of_ok (orRaise_ok _ _)]
  unfold bindConfiguration
  rw [bind_of_ok (get_apply store), if_pos hmode, replayNodeOrMissing_named hnamed hfind,
    bind_of_ok (orRaise_ok _ _), if_neg (not_not.mpr hresult)]
  rfl

/-- The shared scopes of a runtime are stored as they are configured. -/
structure Shared (H : Hashing) (rt : Runtime) (store : MemoryStore) : Prop where
  budgets : ∀ scope ∈ rt.sharedBudgets, Expected (scope.node H) store
  windows : ∀ e ∈ scopedWindows rt, Expected (windowNode H e.1 e.2.1 e.2.2) store

theorem SharedBudget.node_kind {scope : SharedBudget} {node : Node} (h : scope.node H = .ok node) :
    node.kind = .root := by
  rw [Node.eq_of_make h]

theorem windowNode_kind {name scope : String} {window : Window} {node : Node}
    (h : windowNode H name scope window = .ok node) : node.kind = .root := by
  rw [Node.eq_of_make h]

theorem validateSharedConfiguration_recorded (hmode : rt.mode = .record)
    {store after : MemoryStore} {u : Unit}
    (h : validateSharedConfiguration H rt store = .ok u after) :
    Recorded H store after ∧ Shared H rt after := by
  unfold validateSharedConfiguration at h
  split at h
  · next hnone =>
      cases h
      refine ⟨.refl _, ?_, ?_⟩
      · rw [List.isEmpty_iff.mp hnone.1]
        simp
      · rw [List.isEmpty_iff.mp hnone.2]
        simp
  · split at h
    · cases h
    · obtain ⟨_, m, hbudgets, h⟩ := bind_eq_ok h
      obtain ⟨hm, hbudgets⟩ := recorded.forM_eq_ok
        (P := fun scope => Expected (SharedBudget.node H scope)) Expected.of_recorded
        (bindConfiguration_recorded hmode fun _ => SharedBudget.node_kind) hbudgets
      obtain ⟨hafter, hwindows⟩ : Recorded H m after ∧
          ∀ e ∈ scopedWindows rt, Expected (windowNode H e.1 e.2.1 e.2.2) after := by
        apply recorded.forM_eq_ok
          (P := fun e : String × String × Window => Expected (windowNode H e.1 e.2.1 e.2.2))
          Expected.of_recorded ?_ h
        intro e s t u hbind
        exact bindConfiguration_recorded hmode (fun _ hnode => windowNode_kind hnode) hbind
      exact ⟨hm.trans hafter, fun scope hscope => (hbudgets scope hscope).of_recorded hafter,
        hwindows⟩

theorem validateSharedConfiguration_replays (hmode : rt.mode = .replay) {store : MemoryStore}
    (hnamed : store.Named H) (h : Shared H rt store) :
    validateSharedConfiguration H rt store = .ok () store := by
  unfold validateSharedConfiguration
  split
  · rfl
  · rw [if_neg (fun hrecord => hrecord.1 hmode)]
    refine (bind_of_ok (forM_unchanged ?_) _).trans (forM_unchanged ?_)
    · intro scope hscope
      exact bindConfiguration_replays hmode hnamed (h.budgets scope hscope)
    · intro e he
      exact bindConfiguration_replays hmode hnamed (h.windows e he)

/-- The root of a run is bound to the registry of the runtime. -/
def Bound (rt : Runtime) (rootId : String) (store : MemoryStore) : Prop :=
  ∃ root, store.find? rootId = some root ∧ ∀ registry ∈ rt.registry,
    root.boundRegistry = some (.str registry.registryDigest)

theorem Bound.of_recorded {rootId : String} {before after : MemoryStore}
    (h : Bound rt rootId before) (hrecorded : Recorded H before after) :
    Bound rt rootId after := by
  obtain ⟨root, hfind, hbound⟩ := h
  obtain ⟨metadata, hafter, hkept⟩ := hrecorded.kept _ root hfind
  exact ⟨_, hafter, fun registry hregistry => hkept _ (hbound registry hregistry)⟩

theorem bindRegistry_recorded (hmode : rt.mode = .record) {rootId : String}
    {store after : MemoryStore} {u : Unit} (hroot : store.contains rootId = true)
    (h : bindRegistry rt rootId store = .ok u after) :
    Recorded H store after ∧ Bound rt rootId after := by
  unfold bindRegistry at h
  cases hregistry : rt.registry with
  | none =>
      rw [hregistry] at h
      cases h
      obtain ⟨root, hfind⟩ := Option.isSome_iff_exists.mp hroot
      refine ⟨.refl _, root, hfind, ?_⟩
      rw [hregistry]
      simp
  | some registry =>
      rw [hregistry] at h
      dsimp only at h
      rw [bind_of_ok (get_apply store)] at h
      obtain ⟨root, m, hget, h⟩ := bind_eq_ok h
      obtain ⟨hfound, rfl⟩ := orRaise_eq_ok hget
      have hfind := find?_of_get hfound
      have hbound : ∀ {root : Node} {store : MemoryStore}, store.find? rootId = some root →
          root.boundRegistry = some (.str registry.registryDigest) → Bound rt rootId store := by
        intro root store hfind hdigest
        refine ⟨root, hfind, ?_⟩
        rw [hregistry]
        simpa using hdigest
      rw [← Node.boundRegistry] at h
      cases hexisting : root.boundRegistry with
      | some existing =>
          rw [hexisting] at h
          dsimp only at h
          split at h
          · next hsame =>
              cases h
              exact ⟨.refl _, hbound hfind (by rw [hexisting, hsame])⟩
          · cases h
      | none =>
          rw [hexisting] at h
          dsimp only at h
          rw [if_neg (by rw [hmode]; decide)] at h
          obtain ⟨updated, m, hupdated, h⟩ := bind_eq_ok h
          obtain ⟨hupdate, rfl⟩ := orRaise_eq_ok hupdated
          cases h
          rw [MemoryStore.updateMeta, Fallible.map_ok_iff] at hupdate
          obtain ⟨node, hnode, rfl⟩ := hupdate
          rw [hfound] at hnode
          cases hnode
          have hdigest : Node.boundRegistry { root with
              metadata := root.metadata.set "registry_digest" (.str registry.registryDigest) } =
                some (.str registry.registryDigest) := by
            unfold Node.boundRegistry
            rw [Dict.get?_set_self]
            rfl
          refine ⟨.replaceMeta hfind fun digest hnone => ?_, hbound ?_ hdigest⟩
          · rw [hexisting] at hnone
            cases hnone
          · rw [find?_replaceMeta, hfind, Option.map_some, if_pos (mem_of_find? hfind).2]
            rfl

theorem bindRegistry_replays {rootId : String} {store : MemoryStore}
    (h : Bound rt rootId store) : bindRegistry rt rootId store = .ok () store := by
  obtain ⟨root, hfind, hbound⟩ := h
  unfold bindRegistry
  cases hregistry : rt.registry with
  | none => rfl
  | some registry =>
      have hdigest := hbound registry hregistry
      have hget : store.get rootId = .ok root := by
        unfold MemoryStore.get
        rw [hfind]
      dsimp only
      rw [bind_of_ok (get_apply store), hget, bind_of_ok (orRaise_ok _ _)]
      rw [← Node.boundRegistry, hdigest]
      dsimp only
      rw [if_pos rfl]
      rfl

/-- What opening a run has recorded. -/
structure Rooted (H : Hashing) (rt : Runtime) (label : String) (attempt : ℤ) (run : Run)
    (store : MemoryStore) : Prop where
  place : run.place = (H.nodeId .root none attempt (.dict [("run", .str label)]), label,
    H.nodeId .root none attempt (.dict [("run", .str label)]))
  made : ∃ root, rootNode H label attempt = .ok root
  bound : Bound rt (H.nodeId .root none attempt (.dict [("run", .str label)])) store
  shared : Shared H rt store

theorem storedRoot_recorded (hmode : rt.mode = .record) {writes : Bool} {root stored : Node}
    {store after : MemoryStore} (hkind : root.kind = .root)
    (h : storedRoot H rt writes root store = .ok stored after) : Recorded H store after := by
  unfold storedRoot at h
  split at h
  · rw [putNode_apply H rt root store (by rw [hmode]; decide)] at h
    cases hput : store.put H root with
    | error e =>
        rw [hput] at h
        cases h
    | ok written =>
        obtain ⟨found, hget, -, -⟩ := put_get hput
        rw [hput] at h
        dsimp only at h
        rw [hget] at h
        cases h
        refine (recorded_put hput ?_).1
        rw [hkind]
        intro hcall
        cases hcall
  · rw [bind_of_ok (get_apply store)] at h
    obtain ⟨-, rfl⟩ := orRaise_eq_ok h
    exact .refl _

theorem run_recorded (hmode : rt.mode = .record) {label : String} {budget : Option Budget}
    {attempt : ℤ} {store after : MemoryStore} {run : Run}
    (h : rt.run H label budget attempt store = .ok run after) :
    Recorded H store after ∧ Rooted H rt label attempt run after := by
  unfold Runtime.run at h
  obtain ⟨root, m, hroot, h⟩ := bind_eq_ok h
  obtain ⟨hmade, rfl⟩ := orRaise_eq_ok hroot
  rw [bind_of_ok (get_apply store)] at h
  obtain ⟨stored, m, hstored, h⟩ := bind_eq_ok h
  obtain ⟨hid, hin⟩ := storedRoot_ok H rt hstored
  obtain ⟨_, n, hbind, h⟩ := bind_eq_ok h
  obtain ⟨scopes, k, hscopes, h⟩ := bind_eq_ok h
  cases h
  unfold runScopes at hscopes
  obtain ⟨_, l, hvalid, hscopes⟩ := bind_eq_ok hscopes
  cases hscopes
  rw [hid] at hbind
  have hwritten := storedRoot_recorded hmode (by rw [Node.eq_of_make hmade]) hstored
  obtain ⟨hnamed, hbound⟩ := bindRegistry_recorded (H := H) hmode hin hbind
  obtain ⟨hchecked, hshared⟩ := validateSharedConfiguration_recorded hmode hvalid
  have hrootId := (rootNode_id H hmade).1
  rw [hrootId] at hid hbound
  refine ⟨(hwritten.trans hnamed).trans hchecked, ?_, ⟨root, hmade⟩,
    hbound.of_recorded hchecked, hshared⟩
  unfold Run.place
  dsimp only
  rw [hid]

/-- The run is opened again on a later store. -/
theorem Rooted.run_replays {label : String} {attempt : ℤ} {run : Run} {store later : MemoryStore}
    (h : Rooted H rt label attempt run store) (hlater : Recorded H store later)
    (hnamed : later.Named H) (budget : Option Budget) :
    ∃ reopened, rt.replaying.run H label budget attempt later = .ok reopened later ∧
      reopened.place = run.place := by
  obtain ⟨root, hmade⟩ := h.made
  have hrootId := (rootNode_id H hmade).1
  have hbound := h.bound.of_recorded hlater
  have hshared : Shared H rt.replaying later :=
    ⟨fun scope hscope => (h.shared.budgets scope hscope).of_recorded hlater,
      fun e he => (h.shared.windows e he).of_recorded hlater⟩
  obtain ⟨stored, hfind, hdigest⟩ := hbound
  have hid := (mem_of_find? hfind).2
  rw [← hrootId] at hfind
  have hput : storedRoot H rt.replaying true root later = .ok stored later := by
    unfold storedRoot
    rw [if_pos rfl, putNode_replay H rt.replaying root later rfl,
      replayNodeOrMissing_named hnamed hfind]
    rfl
  have hbind : bindRegistry rt.replaying stored.id later = .ok () later :=
    bindRegistry_replays ⟨stored, by rw [(mem_of_find? hfind).2, hfind],
      hdigest⟩
  have hvalid : validateSharedConfiguration H rt.replaying later = .ok () later :=
    validateSharedConfiguration_replays rfl hnamed hshared
  refine ⟨⟨stored.id, stored.id, label, openedScopes H rt stored.id budget, ∅, ∅⟩, ?_, ?_⟩
  · unfold Runtime.run
    rw [hmade, bind_of_ok (orRaise_ok _ _), bind_of_ok (get_apply later)]
    refine (bind_of_ok hput _).trans ((bind_of_ok hbind _).trans ?_)
    unfold runScopes
    rw [bind_assoc, bind_of_ok hvalid]
    rfl
  · rw [h.place]
    unfold Run.place
    dsimp only
    rw [hid]

end Runtime

/-! ## Programs -/

/-- What a program asks for: a run, or an operation of a run it has. -/
inductive Request where
  | opened (label : String) (budget : Option Budget) (attempt : ℤ)
  | acted (index : ℕ) (flavor : Flavor) (op : Op)

/-- Replay repeats what is asked for. -/
def Request.repeats : Request → Bool
  | opened _ _ _ => true
  | acted _ _ op => op.repeats

/-- What a program sees of a run: its place, and the node there but for its metadata. -/
abbrev Sight := (String × String × String) × Option Node

def Run.sight (run : Run) (store : MemoryStore) : Sight :=
  (run.place, (store.find? run.cursorId).map fun node => { node with metadata := ∅ })

/-- A program asks for the next thing after what it has seen, or it has ended. -/
abbrev Agent := List Sight → Option Request

section Agents

variable (H : Hashing) (rt : Runtime)

/-- The world after a request and what is seen of it, unless it raises. -/
def World.serve (w : World) (env : CallEnv) : Request → Option (World × Sight)
  | .opened label budget attempt =>
      match rt.run H label budget attempt w.store with
      | .ok run store =>
          some ({ w with store, handles := w.handles ++ [{ run }] }, run.sight store)
      | .error _ _ => none
  | .acted index flavor op =>
      match w.handles[index]? with
      | none => none
      | some handle =>
          match op.perform H rt flavor env (w.session handle) with
          | .ok child s => some (w.afterOp index handle s child, (child.getD s.run).sight s.store)
          | .error _ _ => none

/-- The world a program leaves and what it has seen, if it ends within some steps. -/
def World.drive (agent : Agent) (envs : ℕ → CallEnv) :
    ℕ → World → List Sight → Option (World × List Sight)
  | 0, _, _ => none
  | n + 1, w, seen =>
      match agent seen with
      | none => some (w, seen)
      | some request =>
          (w.serve H rt (envs seen.length) request).bind fun served =>
            World.drive agent envs n served.1 (seen ++ [served.2])

/-- A request that returned. -/
inductive Served (w : World) (env : CallEnv) : Request → World → Sight → Prop
  | opened {label : String} {budget : Option Budget} {attempt : ℤ} {run : Run}
      {store : MemoryStore} (h : rt.run H label budget attempt w.store = .ok run store) :
      Served w env (.opened label budget attempt)
        { w with store, handles := w.handles ++ [{ run }] } (run.sight store)
  | acted {index : ℕ} {flavor : Flavor} {op : Op} {handle : Handle} {child : Option Run}
      {s : Session} (hhandle : w.handles[index]? = some handle)
      (h : op.perform H rt flavor env (w.session handle) = .ok child s) :
      Served w env (.acted index flavor op) (w.afterOp index handle s child)
        ((child.getD s.run).sight s.store)

theorem served_iff {w after : World} {env : CallEnv} {request : Request} {sight : Sight} :
    w.serve H rt env request = some (after, sight) ↔ Served H rt w env request after sight := by
  constructor
  · intro h
    cases request with
    | opened label budget attempt =>
        unfold World.serve at h
        dsimp only at h
        cases hrun : rt.run H label budget attempt w.store with
        | ok run store =>
            rw [hrun] at h
            cases h
            exact .opened hrun
        | error e store =>
            rw [hrun] at h
            cases h
    | acted index flavor op =>
        unfold World.serve at h
        dsimp only at h
        cases hhandle : w.handles[index]? with
        | none =>
            rw [hhandle] at h
            cases h
        | some handle =>
            rw [hhandle] at h
            dsimp only at h
            cases hrun : op.perform H rt flavor env (w.session handle) with
            | ok child s =>
                rw [hrun] at h
                cases h
                exact .acted hhandle hrun
            | error e s =>
                rw [hrun] at h
                cases h
  · intro h
    cases h with
    | opened hrun =>
        unfold World.serve
        dsimp only
        rw [hrun]
    | acted hhandle hrun =>
        unfold World.serve
        dsimp only
        rw [hhandle]
        dsimp only
        rw [hrun]

/-- The input a request is. -/
def Request.input (env : CallEnv) : Request → Input
  | opened label budget attempt => .opened false label budget attempt
  | acted index flavor op => .acted index flavor env op

theorem Served.step {w after : World} {env : CallEnv} {request : Request} {sight : Sight}
    (h : Served H rt w env request after sight) : w.step H rt (request.input env) = after := by
  cases h with
  | @opened label budget attempt run store hrun =>
      have hopened : openedRun H rt false label budget attempt w.store = .ok run store := hrun
      unfold Request.input World.step
      dsimp only
      rw [hopened]
  | acted hhandle hrun =>
      unfold Request.input World.step
      dsimp only
      rw [hhandle]
      dsimp only
      rw [hrun]

end Agents

section Runtime

variable {H : Hashing} {rt : Runtime} {env : CallEnv}

open MemoryStore

/-- The runs of two worlds stand at the same places. -/
def Abreast (w v : World) : Prop :=
  v.handles.map (fun handle => handle.run.place) = w.handles.map fun handle => handle.run.place

theorem sight_later {run rerun : Run} {store later : MemoryStore}
    (hplace : rerun.place = run.place) (hlater : Recorded H store later)
    (hstands : store.contains run.cursorId = true) : rerun.sight later = run.sight store := by
  obtain ⟨node, hfind⟩ := Option.isSome_iff_exists.mp hstands
  obtain ⟨metadata, hkept, -⟩ := hlater.kept _ node hfind
  have hcursor : rerun.cursorId = run.cursorId := congrArg (fun place => place.2.2) hplace
  unfold Run.sight
  rw [hplace, hcursor, hkept, hfind]
  rfl

/-- A request that was served while recording is served alike by a replay that has got as far. -/
theorem Served.replays {w after : World} {request : Request} {sight : Sight}
    (hmode : rt.mode = .record) (hdry : rt.dryRun = false) (hrequest : request.repeats = true)
    (h : Served H rt w env request after sight) :
    Recorded H w.store after.store ∧ ∀ {v : World} {env' : CallEnv}, env'.Replays →
      w.store.Answered → Recorded H after.store v.store → v.store.Named H → Abreast w v →
      ∃ next, Served H rt.replaying v env' request next sight ∧ next.store = v.store ∧
        Abreast after next := by
  cases h with
  | @opened label budget attempt run store hrun =>
      obtain ⟨hrecorded, hrooted⟩ := run_recorded hmode hrun
      refine ⟨hrecorded, fun {v _} _ _ hlater hnamed habreast => ?_⟩
      obtain ⟨reopened, hagain, hplace⟩ := hrooted.run_replays hlater hnamed budget
      obtain ⟨root, hfind, -⟩ := hrooted.bound
      have hcursor : run.cursorId = H.nodeId .root none attempt (.dict [("run", .str label)]) :=
        congrArg (fun place => place.2.2) hrooted.place
      have hstands : store.contains run.cursorId = true := by
        rw [hcursor]
        exact contains_of_find? hfind
      rw [← sight_later hplace hlater hstands]
      refine ⟨_, .opened hagain, rfl, ?_⟩
      unfold Abreast at habreast ⊢
      simp only [List.map_append, List.map_cons, List.map_nil, habreast, hplace]
  | @acted index flavor op handle child s hhandle hrun =>
      obtain ⟨hrecorded, hstands, hagain⟩ := perform_repeats hmode hdry hrequest hrun
      refine ⟨hrecorded, fun {v _} henv hanswered hlater hnamed habreast => ?_⟩
      have hplaces : (v.handles[index]?).map (fun handle => handle.run.place) =
          some handle.run.place := by
        rw [← List.getElem?_map, habreast, List.getElem?_map, hhandle, Option.map_some]
      obtain ⟨rehandle, hrehandle, hplace⟩ := Option.map_eq_some_iff.mp hplaces
      have hrevisit : Revisits H (w.session handle) s (v.session rehandle) :=
        ⟨hanswered, hlater, hnamed, hplace⟩
      obtain ⟨rechild, t, hreplayed, hstore, hreached, hchild⟩ := hagain hrevisit henv
      have hsight : (rechild.getD t.run).place = (child.getD s.run).place := by
        cases child with
        | none =>
            rw [Option.map_eq_none_iff.mp hchild]
            exact hreached
        | some run =>
            obtain ⟨rerun, rfl, hrerun⟩ := Option.map_eq_some_iff.mp hchild
            exact hrerun
      have hlater' : Recorded H s.store t.store := by
        rw [hstore]
        exact hlater
      rw [← sight_later hsight hlater' hstands]
      refine ⟨_, .acted hrehandle hreplayed, hstore, ?_⟩
      unfold Abreast World.afterOp at *
      dsimp only
      have hchildren : rechild.toList.map Run.place = child.toList.map Run.place := by
        rw [← Option.toList_map, ← Option.toList_map, hchild]
      simp only [List.map_append, List.map_set, List.map_map, Function.comp_def, habreast, hreached]
      exact congrArg _ hchildren

/-- A program that replay can repeat. -/
def Agent.Repeats (agent : Agent) : Prop :=
  ∀ seen, ∀ request ∈ agent seen, request.repeats = true

theorem drive_recorded (hmode : rt.mode = .record) (hdry : rt.dryRun = false) {agent : Agent}
    (hagent : agent.Repeats) {envs : ℕ → CallEnv} {n : ℕ} {w recorded : World}
    {seen final : List Sight} (h : w.drive H rt agent envs n seen = some (recorded, final)) :
    Recorded H w.store recorded.store := by
  induction n generalizing w seen with
  | zero => cases h
  | succ n ih =>
      rw [World.drive] at h
      cases hasked : agent seen with
      | none =>
          rw [hasked] at h
          cases h
          exact .refl _
      | some request =>
          rw [hasked] at h
          obtain ⟨⟨after, sight⟩, hserved, h⟩ := Option.bind_eq_some_iff.mp h
          have hrequest := hagent seen request hasked
          have hstep := ((served_iff H rt).mp hserved).replays hmode hdry hrequest
          exact hstep.1.trans (ih h)

/-- A replay that has got as far as a recording comes to the same end. -/
theorem drive_replays (hmode : rt.mode = .record) (hdry : rt.dryRun = false) {agent : Agent}
    (hagent : agent.Repeats) {envs envs' : ℕ → CallEnv} (henvs : ∀ n, (envs' n).Replays) {n : ℕ}
    {w recorded v : World} {seen final : List Sight}
    (h : w.drive H rt agent envs n seen = some (recorded, final)) (hanswered : w.store.Answered)
    (hlater : Recorded H recorded.store v.store) (hnamed : v.store.Named H)
    (habreast : Abreast w v) :
    ∃ replayed, v.drive H rt.replaying agent envs' n seen = some (replayed, final) ∧
      replayed.store = v.store ∧ replayed.trace = v.trace := by
  induction n generalizing w v seen with
  | zero => cases h
  | succ n ih =>
      rw [World.drive] at h ⊢
      cases hasked : agent seen with
      | none =>
          rw [hasked] at h
          cases h
          exact ⟨v, rfl, rfl, rfl⟩
      | some request =>
          rw [hasked] at h
          obtain ⟨⟨after, sight⟩, hserved, h⟩ := Option.bind_eq_some_iff.mp h
          obtain ⟨hrecorded, hagain⟩ :=
            ((served_iff H rt).mp hserved).replays hmode hdry (hagent seen request hasked)
          have hthere := (drive_recorded hmode hdry hagent h).trans hlater
          obtain ⟨next, hnext, hstore, habreast⟩ :=
            hagain (henvs seen.length) hanswered hthere hnamed habreast
          rw [← hstore] at hlater hnamed
          obtain ⟨replayed, hdriven, hkept, htrace⟩ :=
            ih h (hrecorded.answered hanswered) hlater hnamed habreast
          -- nothing happens in replay mode, whatever is asked for
          have hstill : next.trace = v.trace := by
            have hsame : (request.input (envs' seen.length)).AnsweredAlike
                (request.input (envs' seen.length)) := by
              cases request with
              | opened label budget attempt => exact .opened ..
              | acted index flavor op => exact .acted _ _ _ ⟨rfl, rfl⟩
            rw [← hnext.step]
            exact (step_replay H rt.replaying rfl hsame v).2.1
          refine ⟨replayed, ?_, hkept.trans hstore, htrace.trans hstill⟩
          dsimp only
          rw [(served_iff H rt.replaying).mpr hnext]
          exact hdriven

/-- A program that was recorded to its end is replayed to its end, on the store it left or any
later one: whatever models, tools, policies, arbiters and meters would answer now, every request
returns, the program sees what it saw, and nothing is written, invoked or charged. -/
theorem recording_replays (hmode : rt.mode = .record) (hdry : rt.dryRun = false) {agent : Agent}
    (hagent : agent.Repeats) {envs envs' : ℕ → CallEnv} (henvs : ∀ n, (envs' n).Replays)
    {store later : MemoryStore} (hnamed : store.Named H) (hanswered : store.Answered) {n : ℕ}
    {recorded : World} {seen : List Sight}
    (h : World.drive H rt agent envs n { store } [] = some (recorded, seen))
    (hlater : Recorded H recorded.store later) :
    ∃ replayed, World.drive H rt.replaying agent envs' n { store := later } [] =
        some (replayed, seen) ∧ replayed.store = later ∧ replayed.trace = [] := by
  have hthere := (drive_recorded hmode hdry hagent h).trans hlater
  exact drive_replays hmode hdry hagent henvs h hanswered hlater (hthere.named hnamed) rfl

end Runtime

namespace ReplayedProgram

def runtime : Runtime := { meters := [stepMeter] }

/-- A program that calls a model and goes back to the root. -/
def agent : Agent
  | [] => some (.opened "main" none 0)
  | [_] => some (.acted 0 .sync (.modelCall (.dict [("model", .str "m")]) 0 false))
  | [_, _] => some (.acted 0 .sync (.rollback none 1))
  | _ => none

/-- The model cannot be reached. -/
def offline : CallEnv := { CallEnv.calm with produced := .error (.runtimeError "offline") }

theorem agent_repeats : agent.Repeats := by
  intro seen request hrequest
  unfold agent at hrequest
  split at hrequest <;> cases hrequest <;> rfl

theorem recording_replays_offline : ∃ recorded replayed seen,
    World.drive .plain runtime agent (fun _ => .step) 4 { store := .empty } [] =
      some (recorded, seen) ∧
    World.drive .plain runtime.replaying agent (fun _ => offline) 4 { store := recorded.store } [] =
      some (replayed, seen) ∧
    replayed.store = recorded.store ∧ replayed.trace = [] := by
  have hends : (World.drive .plain runtime agent (fun _ => .step) 4
      { store := .empty } []).isSome = true := by decide
  obtain ⟨⟨recorded, seen⟩, h⟩ := Option.isSome_iff_exists.mp hends
  have hoffline : offline.Replays := ⟨fun _ => ⟨0, rfl⟩, by simp [offline, CallEnv.calm]⟩
  obtain ⟨replayed, hreplayed⟩ := recording_replays rfl rfl agent_repeats
    (fun _ => hoffline) (by simp [MemoryStore.Named, MemoryStore.empty])
    (by simp [MemoryStore.Answered, MemoryStore.empty]) h (.refl _)
  exact ⟨recorded, replayed, seen, h, hreplayed⟩

end ReplayedProgram

end Pollard
