import Pollard.Runtime.Operations
import Pollard.Runtime.Writes

/-!
# Replays

In replay mode a run reads the store and nothing else: it writes nothing, invokes nothing, and of
what surrounds a call it only asks what the recorded one would have cost and who wants its chunks.
-/

namespace Pollard

open Lib Effect

/-! ## What a replay leaves alone -/

/-- The store is as before, and nothing has happened. -/
structure Still (s t : Session) : Prop where
  store : t.store = s.store
  trace : t.trace = s.trace

theorem frame_still : Frame Still where
  refl := fun _ => ⟨rfl, rfl⟩
  trans := fun h h' => ⟨h'.store.trans h.store, h'.trace.trans h.trace⟩

/-- What a replay asks of the environment. -/
structure CallEnv.AnswersAlike (env env' : CallEnv) : Prop where
  avoidedCharge : env'.avoidedCharge = env.avoidedCharge
  onDelta : env'.onDelta = env.onDelta

/-- One computation leaves the session still, and the other one is the same. -/
structure Alike {α : Type} (x x' : RunM α) : Prop where
  still : Keeps Still x
  same : x' = x

namespace Alike

variable {α β : Type}

theorem of_still {x : RunM α} (h : Keeps Still x) : Alike x x := ⟨h, rfl⟩

theorem bind {x x' : RunM α} {f f' : α → RunM β} (hx : Alike x x')
    (hf : ∀ a, (∃ s t, x s = .ok a t) → Alike (f a) (f' a)) : Alike (x >>= f) (x' >>= f') := by
  refine ⟨fun s => ?_, funext fun s => ?_⟩
  · exact frame_still.bind_at (hx.still s) fun a m h => (hf a ⟨s, m, h⟩).still m
  · rw [hx.same, bind_apply, bind_apply]
    cases h : x s with
    | ok a m => exact congrFun (hf a ⟨s, m, h⟩).same m
    | error e m => rfl

theorem orRaise (x : Except PyError α) : Alike (Effect.orRaise x) (Effect.orRaise x) :=
  of_still (frame_still.orRaise x)

theorem get : Alike (MonadState.get : RunM Session) MonadState.get := of_still frame_still.get

theorem pure (a : α) : Alike (Pure.pure a : RunM α) (Pure.pure a) := of_still (frame_still.pure a)

theorem throw (e : PyError) : Alike (MonadExcept.throw e : RunM α) (MonadExcept.throw e) :=
  of_still (frame_still.throw e)

end Alike

section Replay

variable (H : Hashing) (rt : Runtime) (hmode : rt.mode = .replay)

/-! ## Nodes -/

theorem still_setCursor (id : String) : Keeps Still (setCursor id) :=
  keeps_modify fun _ => ⟨rfl, rfl⟩

theorem alike_setCursor (id : String) : Alike (setCursor id) (setCursor id) :=
  .of_still (still_setCursor id)

include hmode in
theorem still_record (node : Node) : Keeps Still (record H rt node) := by
  apply frame_still.bind
  · intro s
    rw [after]
    unfold onStore focus
    rw [putNode_replay H rt node s.store hmode]
    cases replayNodeOrMissing H s.store node <;> exact ⟨rfl, rfl⟩
  · intro stored
    exact frame_still.bind (still_setCursor _) fun _ => frame_still.pure _

/-- Where a node is replayed, its metadata does not matter. -/
theorem replayNodeOrMissing_metadata (store : MemoryStore) (node : Node)
    (metadata : Dict String Value) :
    replayNodeOrMissing H store { node with metadata } = replayNodeOrMissing H store node := rfl

include hmode in
theorem record_metadata (node : Node) (metadata : Dict String Value) :
    record H rt { node with metadata } = record H rt node := by
  funext s
  unfold record
  rw [bind_apply, bind_apply]
  have hput : onStore (putNode H rt { node with metadata }) s = onStore (putNode H rt node) s := by
    unfold onStore focus
    rw [putNode_replay H rt _ s.store hmode, putNode_replay H rt _ s.store hmode,
      replayNodeOrMissing_metadata]
  rw [hput]

theorem checkFields_createdAt (env : CallEnv) (kind : NodeKind) (parent : Option String)
    (payload : Value) (attempt : ℤ) :
    Node.checkFields kind parent payload attempt none (createdAt env) =
      Node.checkFields kind parent payload attempt none ∅ := rfl

theorem make_createdAt (env : CallEnv) (kind : NodeKind) (parent : Option String) (payload : Value)
    (attempt : ℤ) :
    Node.make H kind parent payload attempt none (createdAt env) =
      (Node.make H kind parent payload attempt none).map fun node =>
        { node with metadata := createdAt env } := by
  unfold Node.make
  rw [checkFields_createdAt]
  cases Node.checkFields kind parent payload attempt none ∅ <;> rfl

include hmode in
theorem alike_record (node : Node) (metadata metadata' : Dict String Value) :
    Alike (record H rt { node with metadata }) (record H rt { node with metadata := metadata' }) :=
  ⟨still_record H rt hmode _,
    (record_metadata H rt hmode node _).trans (record_metadata H rt hmode node _).symm⟩

/-- A node of a moment is replayed as one of any other moment. -/
theorem alike_made {α : Type} (env env' : CallEnv) (kind : NodeKind) (parent : Option String)
    (payload : Value) (attempt : ℤ) {f f' : Node → RunM α}
    (hf : ∀ (node : Node) (metadata metadata' : Dict String Value),
      Alike (f { node with metadata }) (f' { node with metadata := metadata' })) :
    Alike (orRaise (Node.make H kind parent payload attempt none (createdAt env)) >>= f)
      (orRaise (Node.make H kind parent payload attempt none (createdAt env')) >>= f') := by
  rw [make_createdAt, make_createdAt]
  cases Node.make H kind parent payload attempt none with
  | error e => exact ⟨fun s => frame_still.refl s, rfl⟩
  | ok node => exact hf node _ _

include hmode in
theorem alike_refusePolicy {α : Type} (env env' : CallEnv) (detail : String) (payload : Value) :
    Alike (refusePolicy H rt env detail payload : RunM α)
      (refusePolicy H rt env' detail payload) := by
  unfold refusePolicy
  refine .bind (.orRaise _) fun digest _ => .bind .get fun s _ => ?_
  apply alike_made
  intro node metadata metadata'
  exact .bind (alike_record H rt hmode node metadata metadata') fun _ _ => .throw _

/-! ## Recordings -/

theorem avoidedCharges_congr {env env' : CallEnv} (h : env.AnswersAlike env') (index : ℕ)
    (meters : List Meter) (charges : Dict String Value) :
    avoidedCharges env' index meters charges = avoidedCharges env index meters charges := by
  induction meters generalizing index charges with
  | nil => rfl
  | cons meter meters ih =>
      rw [avoidedCharges, avoidedCharges, h.avoidedCharge]
      cases env.avoidedCharge index with
      | error e => rfl
      | ok amount => exact ih (index + 1) _

theorem still_addAvoided (charges : Dict String Value) : Keeps Still (addAvoided charges) := by
  apply frame_still.forM
  rintro ⟨name, amount⟩
  refine frame_still.bind frame_still.get fun s => ?_
  refine frame_still.bind (frame_still.orRaise _) fun amount => ?_
  exact keeps_modify fun _ => ⟨rfl, rfl⟩

include hmode in
theorem alike_recordedNode {env env' : CallEnv} (h : env.AnswersAlike env') (kind : NodeKind)
    (payload : Value) (attempt : ℤ) :
    Alike (recordedNode H rt env kind payload attempt)
      (recordedNode H rt env' kind payload attempt) := by
  have hhybrid : rt.mode ≠ .hybrid := by
    rw [hmode]
    decide
  unfold recordedNode
  refine .bind .get fun s _ => .bind (.orRaise _) fun found _ => ?_
  cases found with
  | none => exact .pure none
  | some node =>
      dsimp only
      rw [avoidedCharges_congr h]
      refine .bind (.orRaise _) fun charges _ => ?_
      refine .bind (.of_still (still_addAvoided charges)) fun _ _ => ?_
      have hchunks : reemitChunks env' node = reemitChunks env node := by
        unfold reemitChunks
        rw [h.onDelta]
      rw [hchunks, if_neg hhybrid]
      refine .bind (alike_setCursor _) fun _ _ => ?_
      exact .bind (.orRaise _) fun _ _ => .pure _

include hmode in
theorem alike_callWith {env env' : CallEnv} (h : env.AnswersAlike env') (flavor flavor' : Flavor)
    (kind : NodeKind) (payload : Value) (attempt : ℤ) (keepChunks : Bool)
    (action : Option (Bool × List (ℕ × Decision))) :
    Alike (callWith H rt flavor env kind payload attempt keepChunks action)
      (callWith H rt flavor' env' kind payload attempt keepChunks action) := by
  unfold callWith
  refine .bind (.orRaise _) fun payload _ => ?_
  refine .bind (alike_recordedNode H rt hmode h kind payload attempt) fun found hfound => ?_
  cases found with
  | none =>
      obtain ⟨s, t, hnone⟩ := hfound
      exact absurd hmode (recordedNode_none H rt env hnone).2
  | some node => exact .pure node

/-! ## Operations -/

theorem checkDurableApprovals_replay (env : CallEnv) (spec : ActionSpec) (args : Value)
    (h : rt.mode = .replay) : checkDurableApprovals H rt env spec args = pure [] := by
  unfold checkDurableApprovals
  rw [if_pos h]

include hmode in
theorem alike_registeredToolCall {env env' : CallEnv} (h : env.AnswersAlike env')
    (flavor flavor' : Flavor) (registry : Registry) (name : String) (args : Value)
    (version : Option String) (attempt : ℤ) :
    Alike (registeredToolCall H rt flavor env registry name args version attempt)
      (registeredToolCall H rt flavor' env' registry name args version attempt) := by
  unfold registeredToolCall
  split
  · exact alike_refusePolicy H rt hmode env env' _ _
  · next spec _ =>
      refine .bind (.orRaise _) fun auditArgs _ => ?_
      split
      · exact alike_refusePolicy H rt hmode env env' _ _
      · refine .bind (.orRaise _) fun finding _ => ?_
        cases finding with
        | some finding => exact alike_refusePolicy H rt hmode env env' _ _
        | none =>
            dsimp only
            refine .bind (alike_recordedNode H rt hmode h _ _ _) fun found _ => ?_
            cases found with
            | none => exact .throw _
            | some node => exact .pure node

include hmode in
theorem alike_toolCall {env env' : CallEnv} (h : env.AnswersAlike env') (flavor : Flavor)
    (name : String) (args : Value) (passesFn : Bool) (version : Option String) (attempt : ℤ) :
    Alike (toolCall H rt flavor env name args passesFn version attempt)
      (toolCall H rt flavor env' name args passesFn version attempt) := by
  unfold toolCall
  split
  · exact alike_registeredToolCall H rt hmode h flavor flavor _ _ _ _ _
  · split
    · exact alike_callWith H rt hmode h flavor flavor _ _ _ _ _
    · exact .throw _

include hmode in
theorem alike_confirm {env env' : CallEnv} (h : env.AnswersAlike env') (flavor : Flavor)
    (token : String) :
    Alike (confirm H rt flavor env token) (confirm H rt flavor env' token) := by
  unfold confirm
  refine .bind .get fun s _ => ?_
  split
  · exact .throw _
  · next pending _ =>
      refine .bind (.of_still (keeps_modify fun _ => ⟨rfl, rfl⟩)) fun _ _ => ?_
      split
      · exact .throw _
      · rw [checkDurableApprovals_replay H rt env _ _ hmode,
          checkDurableApprovals_replay H rt env' _ _ hmode]
        refine .bind (.pure _) fun approved _ => ?_
        split
        · exact alike_refusePolicy H rt hmode env env' _ _
        · exact alike_callWith H rt hmode h flavor flavor _ _ _ _ _

include hmode in
theorem alike_note (env env' : CallEnv) (payload : Value) (attempt : ℤ) :
    Alike (note H rt env payload attempt) (note H rt env' payload attempt) := by
  unfold note
  refine .bind .get fun s _ => ?_
  apply alike_made
  intro node metadata metadata'
  rw [if_pos hmode, if_pos hmode]
  exact alike_record H rt hmode node metadata metadata'

include hmode in
theorem alike_branch (env env' : CallEnv) (attempt : ℤ) (budget : Option Budget) :
    Alike (branch H rt env attempt budget) (branch H rt env' attempt budget) := by
  unfold branch
  refine .bind .get fun s _ => ?_
  apply alike_made
  intro node metadata metadata'
  rw [if_pos hmode, if_pos hmode]
  have hput : Alike (onStore (putNode H rt { node with metadata }))
      (onStore (putNode H rt { node with metadata := metadata' })) := by
    refine ⟨fun s => ?_, funext fun s => ?_⟩
    · rw [after]
      unfold onStore focus
      rw [putNode_replay H rt _ s.store hmode]
      cases replayNodeOrMissing H s.store { node with metadata } <;> exact ⟨rfl, rfl⟩
    · unfold onStore focus
      rw [putNode_replay H rt _ s.store hmode, putNode_replay H rt _ s.store hmode]
      rfl
  exact .bind hput fun _ _ => .bind .get fun _ _ => .pure _

theorem still_rollback (nodeId : Option String) (steps : ℕ) :
    Keeps Still (rollback nodeId steps) := by
  refine frame_still.bind frame_still.get fun s => ?_
  have htail : ∀ target, Keeps Still (do
      ensureAncestor target
      setCursor target
      orRaise (s.store.get target) : RunM Node) := by
    intro target
    refine frame_still.bind (frame_still.bind frame_still.get fun t => ?_) fun _ => ?_
    · split
      · exact frame_still.pure _
      · exact frame_still.throw _
    · exact frame_still.bind (still_setCursor target) fun _ => frame_still.orRaise _
  cases nodeId with
  | some target => exact htail target
  | none => exact frame_still.bind (frame_still.orRaise _) htail

include hmode in
theorem alike_perform {env env' : CallEnv} (h : env.AnswersAlike env') (flavor : Flavor) (op : Op) :
    Alike (op.perform H rt flavor env) (op.perform H rt flavor env') := by
  cases op with
  | modelCall payload attempt keepChunks =>
      exact .bind (alike_callWith H rt hmode h flavor flavor _ _ _ _ _) fun _ _ => .pure _
  | toolCall name args passesFn version attempt =>
      exact .bind (alike_toolCall H rt hmode h flavor _ _ _ _ _) fun _ _ => .pure _
  | confirm token => exact .bind (alike_confirm H rt hmode h flavor _) fun _ _ => .pure _
  | note payload attempt => exact .bind (alike_note H rt hmode env env' _ _) fun _ _ => .pure _
  | branch attempt budget => exact .bind (alike_branch H rt hmode env env' _ _) fun _ _ => .pure _
  | rollback nodeId steps => exact .of_still (frame_still.bind (still_rollback _ _) fun _ =>
      frame_still.pure _)
  | prune =>
      have hprune : Keeps Still (prune rt) := by
        unfold prune
        rw [if_pos hmode]
        exact frame_still.throw _
      exact .of_still (frame_still.bind hprune fun _ => frame_still.pure _)

/-! ## Runs -/

/-- The store is as before. -/
theorem frame_unwritten : Frame fun store after : MemoryStore => after = store where
  refl := fun _ => rfl
  trans := fun h h' => h'.trans h

include hmode in
theorem unwritten_putNode (node : Node) :
    Keeps (fun store after => after = store) (putNode H rt node) := by
  intro store
  rw [after, putNode_replay H rt node store hmode]
  cases replayNodeOrMissing H store node <;> rfl

include hmode in
theorem unwritten_bindConfiguration (expected : Node) :
    Keeps (fun store after => after = store) (bindConfiguration H rt expected) := by
  unfold bindConfiguration
  refine frame_unwritten.bind frame_unwritten.get fun store => ?_
  rw [if_pos hmode]
  refine frame_unwritten.bind (frame_unwritten.orRaise _) fun actual => ?_
  split
  · exact frame_unwritten.throw _
  · exact frame_unwritten.pure _

include hmode in
theorem unwritten_runScopes (rootId : String) (budget : Option Budget) :
    Keeps (fun store after => after = store) (runScopes H rt rootId budget) := by
  refine frame_unwritten.bind ?_ fun _ => frame_unwritten.pure _
  unfold validateSharedConfiguration
  split
  · exact frame_unwritten.pure _
  · split
    · exact frame_unwritten.throw _
    · refine frame_unwritten.bind (frame_unwritten.forM (fun scope => ?_) _) fun _ =>
        frame_unwritten.forM (fun entry => ?_) _
      · exact frame_unwritten.bind (frame_unwritten.orRaise _) fun node =>
          unwritten_bindConfiguration H rt hmode node
      · exact frame_unwritten.bind (frame_unwritten.orRaise _) fun node =>
          unwritten_bindConfiguration H rt hmode node

include hmode in
theorem unwritten_bindRegistry (rootId : String) :
    Keeps (fun store after => after = store) (bindRegistry rt rootId) := by
  unfold bindRegistry
  split
  · exact frame_unwritten.pure _
  · refine frame_unwritten.bind frame_unwritten.get fun store => ?_
    refine frame_unwritten.bind (frame_unwritten.orRaise _) fun root => ?_
    split
    · split
      · exact frame_unwritten.pure _
      · exact frame_unwritten.throw _
    · rw [if_pos hmode]
      exact frame_unwritten.throw _

include hmode in
theorem unwritten_openedRun (resumes : Bool) (label : String) (budget : Option Budget)
    (attempt : ℤ) :
    Keeps (fun store after => after = store) (openedRun H rt resumes label budget attempt) := by
  have hstored : ∀ writes root, Keeps (fun store after => after = store)
      (storedRoot H rt writes root) := by
    intro writes root
    unfold storedRoot
    split
    · exact unwritten_putNode H rt hmode root
    · exact frame_unwritten.bind frame_unwritten.get fun _ => frame_unwritten.orRaise _
  unfold openedRun
  split
  · refine frame_unwritten.bind (frame_unwritten.orRaise _) fun root => ?_
    refine frame_unwritten.bind (hstored _ root) fun root => ?_
    refine frame_unwritten.bind (unwritten_bindRegistry rt hmode root.id) fun _ => ?_
    refine frame_unwritten.bind (unwritten_runScopes H rt hmode root.id budget) fun scopes => ?_
    refine frame_unwritten.bind frame_unwritten.get fun store => ?_
    exact frame_unwritten.bind (frame_unwritten.orRaise _) fun _ => frame_unwritten.pure _
  · refine frame_unwritten.bind (frame_unwritten.orRaise _) fun root => ?_
    refine frame_unwritten.bind frame_unwritten.get fun store => ?_
    refine frame_unwritten.bind (hstored _ root) fun root => ?_
    refine frame_unwritten.bind (unwritten_bindRegistry rt hmode root.id) fun _ => ?_
    exact frame_unwritten.bind (unwritten_runScopes H rt hmode root.id budget) fun _ =>
      frame_unwritten.pure _

/-- The same is asked for, and what a replay asks of the environment is answered alike. -/
inductive Input.AnsweredAlike : Input → Input → Prop
  | opened (resumes : Bool) (label : String) (budget : Option Budget) (attempt : ℤ) :
      AnsweredAlike (.opened resumes label budget attempt) (.opened resumes label budget attempt)
  | acted (index : ℕ) (flavor : Flavor) {env env' : CallEnv} (op : Op)
      (h : env.AnswersAlike env') :
      AnsweredAlike (.acted index flavor env op) (.acted index flavor env' op)

include hmode in
theorem step_replay {input input' : Input} (h : input.AnsweredAlike input') (w : World) :
    (w.step H rt input).store = w.store ∧ (w.step H rt input).trace = w.trace ∧
      w.step H rt input' = w.step H rt input := by
  cases h with
  | opened resumes label budget attempt =>
      have hopened := unwritten_openedRun H rt hmode resumes label budget attempt
      unfold World.step
      dsimp only
      split
      · next hrun => exact ⟨hopened.of_ok hrun, rfl, rfl⟩
      · next hrun => exact ⟨hopened.of_error hrun, rfl, rfl⟩
  | acted index flavor op h =>
      obtain ⟨hstill, hsame⟩ := alike_perform H rt hmode h flavor op
      unfold World.step
      dsimp only
      split
      · exact ⟨rfl, rfl, rfl⟩
      · next handle _ =>
          rw [hsame]
          split
          · next child s hrun =>
              have hs := hstill.of_ok hrun
              refine ⟨hs.store, ?_, rfl⟩
              change s.trace ++ w.trace = w.trace
              rw [hs.trace]
              rfl
          · next e s hrun =>
              have hs := hstill.of_error hrun
              refine ⟨hs.store, ?_, rfl⟩
              change s.trace ++ w.trace = w.trace
              rw [hs.trace]
              rfl

/-- Whatever the runs of a runtime in replay mode do, and in whatever order, nothing is written,
invoked, reserved, charged or settled, and no answer of a model, a tool, a policy, an arbiter or
a lease has any influence. -/
theorem replay_pure (hmode : rt.mode = .replay) {inputs inputs' : List Input}
    (h : List.Forall₂ Input.AnsweredAlike inputs inputs') (w : World) :
    (w.run H rt inputs).store = w.store ∧ (w.run H rt inputs).trace = w.trace ∧
      w.run H rt inputs' = w.run H rt inputs := by
  induction h generalizing w with
  | nil => exact ⟨rfl, rfl, rfl⟩
  | @cons input input' inputs inputs' hinput hinputs ih =>
      obtain ⟨hstore, htrace, hsame⟩ := step_replay H rt hmode hinput w
      obtain ⟨hstores, htraces, hsames⟩ := ih (w.step H rt input)
      refine ⟨hstores.trans hstore, htraces.trans htrace, ?_⟩
      change (w.step H rt input').run H rt inputs' = _
      rw [hsame]
      exact hsames

end Replay

namespace Replayed

def runtime : Runtime := { mode := .replay, meters := [stepMeter] }

/-- A run is opened and calls a model. -/
def inputs (env : CallEnv) : List Input :=
  [.opened false "main" none 0,
    .acted 0 .sync env (.modelCall (.dict [("model", .str "m")]) 0 false)]

/-- The world a recording of the run leaves, without its runs. -/
def world : World :=
  { store := (World.run .plain { runtime with mode := .record } { store := .empty }
      (inputs .step)).store }

/-- The model cannot be reached, and no policy allows anything. -/
def offline : CallEnv :=
  { CallEnv.calm with produced := .error (.runtimeError "offline"), decide := fun _ => .ok .deny }

theorem replay_pure_offline :
    (world.run .plain runtime (inputs .calm)).store = world.store ∧
      (world.run .plain runtime (inputs .calm)).trace = world.trace ∧
      world.run .plain runtime (inputs offline) = world.run .plain runtime (inputs .calm) := by
  have halike : List.Forall₂ Input.AnsweredAlike (inputs .calm) (inputs offline) :=
    .cons (.opened ..) (.cons (.acted _ _ _ ⟨rfl, rfl⟩) .nil)
  exact replay_pure .plain runtime rfl halike world

end Replayed

end Pollard
