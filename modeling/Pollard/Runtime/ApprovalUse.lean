import Pollard.Runtime.ApprovalPolicy
import Pollard.Runtime.Policies
import Pollard.Runtime.Resuming
import Pollard.Runtime.Writes

/-!
# Approvals are used once

Runs call the registered actions of a runtime with an approval policy, while reviewers and others
write the store.  What is invoked is entitled by a request, and a call that is recorded, or noted
as failed, uses the request up for every run.
-/

namespace Pollard.ApprovalDecisions

open Lib Effect NamedScopes SharedNotes Teams

/-! ## Asking the policy -/

section Asking

variable {H : Hashing} {rt : Runtime} {env : CallEnv} {flavor : Flavor} {index : ℕ}
  {spec : ActionSpec} {args : Value}

/-- The approvals are checked only if every durable policy allows. -/
theorem durableApprovals_allows {first : ℕ} {policies : List Policy}
    {before answers : List (ℕ × Decision)} {s t : Session}
    (h : durableApprovals H rt env spec args first policies before s = .ok answers t)
    (hpolicy : (policies[index]?).any Policy.durableApproval = true) :
    env.decide (first + index) = .ok .allow := by
  induction policies generalizing first index before s with
  | nil => cases hpolicy
  | cons policy policies ih =>
      rw [durableApprovals] at h
      split at h
      · obtain ⟨decision, m, hdecide, h⟩ := bind_eq_ok h
        obtain ⟨rfl, hanswer⟩ := decidePolicy_ok env hdecide
        split at h
        · next hallow =>
            cases index with
            | zero => rw [← hallow, Nat.add_zero, hanswer]
            | succ index =>
                rw [show first + (index + 1) = first + 1 + index by omega]
                exact ih h hpolicy
        · obtain ⟨_, _, -, h⟩ := bind_eq_ok h
          exact absurd h (refusePolicy_ne_ok H rt env)
      · next hdurable =>
          cases index with
          | zero => exact absurd hpolicy hdurable
          | succ index =>
              rw [show first + (index + 1) = first + 1 + index by omega]
              exact ih h hpolicy

theorem checkDurableApprovals_allows {answers : List (ℕ × Decision)} {s t : Session}
    (h : checkDurableApprovals H rt env spec args s = .ok answers t)
    (hpolicy : (rt.policies[index]?).any Policy.durableApproval = true)
    (hmode : rt.mode ≠ .replay) : env.decide index = .ok .allow := by
  unfold checkDurableApprovals at h
  rw [if_neg hmode] at h
  rw [← Nat.zero_add index]
  exact durableApprovals_allows h hpolicy

/-- What follows the approvals is out of reach. -/
theorem quiet_unapproved {α : Type} (f : List (ℕ × Decision) → RunM α)
    (hpolicy : (rt.policies[index]?).any Policy.durableApproval = true)
    (hmode : rt.mode ≠ .replay) (hdecide : env.decide index ≠ .ok .allow) :
    Keeps Quiet (checkDurableApprovals H rt env spec args >>= f) := by
  intro s
  have hquiet := quiet_checkDurableApprovals H rt env spec args
  rw [after_bind]
  cases hcheck : checkDurableApprovals H rt env spec args s with
  | error e t => exact hquiet.of_error hcheck
  | ok answers t => exact absurd (checkDurableApprovals_allows hcheck hpolicy hmode) hdecide

theorem quiet_registeredToolCall (registry : Registry) (name : String) (version : Option String)
    (attempt : ℤ) (hpolicy : (rt.policies[index]?).any Policy.durableApproval = true)
    (hdecide : env.decide index ≠ .ok .allow) :
    Keeps Quiet (registeredToolCall H rt flavor env registry name args version attempt) := by
  unfold registeredToolCall
  cases registry.specs.get? name with
  | none => exact quiet_refusePolicy H rt env _ _
  | some spec =>
      refine quiet.bind (quiet.orRaise _) fun auditArgs => ?_
      dsimp only
      split
      · exact quiet_refusePolicy H rt env _ _
      · refine quiet.bind (quiet.orRaise _) fun finding => ?_
        split
        · exact quiet_refusePolicy H rt env _ _
        · split
          · refine quiet.bind (quiet_recordedNode H rt env _ _ attempt) fun found => ?_
            cases found with
            | some node => exact quiet.pure _
            | none => exact quiet.throw _
          · next hmode =>
              split
              · refine quiet.bind (quiet_recordedNode H rt env _ _ attempt) fun found => ?_
                cases found with
                | some node => exact quiet.throw _
                | none => exact quiet_unapproved _ hpolicy hmode hdecide
              · exact quiet_unapproved _ hpolicy hmode hdecide

theorem quiet_confirm (token : String)
    (hpolicy : (rt.policies[index]?).any Policy.durableApproval = true)
    (hmode : rt.mode ≠ .replay) (hdecide : env.decide index ≠ .ok .allow) :
    Keeps Quiet (confirm H rt flavor env token) := by
  intro s
  unfold confirm
  rw [after_bind, get_apply]
  dsimp only
  cases s.run.pendingToolCalls.get? token with
  | none => exact .refl s
  | some pending =>
      dsimp only
      rw [after_bind, modify_apply]
      dsimp only
      split
      · exact (before_erase s token).quiet
      · exact (before_erase s token).quiet.trans (quiet_unapproved _ hpolicy hmode hdecide _)

/-! ## What an operation leaves -/

/-- An operation that invokes something has made a call. -/
theorem called_of_invoked {op : Op} {s t : Session} (h : OpEnds H rt env flavor op s t)
    (hnone : s.trace = []) {action : Option (Bool × List (ℕ × Decision))}
    (hmem : .invoked action ∈ t.trace) :
    rt.mode ≠ .replay ∧ ∃ (u : Session) (kind : NodeKind) (payload : Value) (attempt : ℤ)
      (keepChunks : Bool) (reservation : Option Reservation),
        Option.map Prod.fst (op.call? H rt s.run) = some kind ∧
        u.run.cursorId = s.run.cursorId ∧
        CallEnds H rt flavor env kind payload attempt keepChunks action reservation u t := by
  have hfresh : ∀ {m : Session}, Quiet s m → .invoked action ∉ m.trace := by
    intro m hquiet hinvoked
    have hold := hquiet.invoked hinvoked
    rw [hnone] at hold
    cases hold
  cases h with
  | quiet hquiet => exact absurd hmem (hfresh hquiet)
  | suspended id pending approved hregistry hop happroved hsuspension =>
      rw [Session.suspended, hnone] at hmem
      cases hmem
  | dry hbefore hmode hcall hdry hpassed hends =>
      have hquiet := hbefore.quiet.trans (precheck_ok H rt env hpassed).1.quiet
      exact absurd (hends.invoked.1 action hmem) (hfresh hquiet)
  | @called m u _ kind payload attempt keepChunks other reservation hbefore hmode hcall haction
      hpassed hends =>
      have hpass := (precheck_ok H rt env hpassed).1
      have hquiet := hbefore.quiet.trans hpass.quiet
      obtain rfl := (hends.invoked.1 action hmem).resolve_left (hfresh hquiet)
      exact ⟨hmode, u, kind, payload.canonical, attempt, keepChunks, reservation,
        by rw [hcall]; rfl, by rw [hpass.run, hbefore.cursor], hends⟩

/-- The node of a call, or of its failure. -/
theorem isDispatch_of_identity {kind : NodeKind} {payload : Value} {attempt : ℤ}
    {reservation : Option Reservation} {cursorId : String} {stored : Node}
    (hkind : kind = .modelCall ∨ kind = .toolCall)
    (h : stored.identity ∈ callIdentities H env kind payload attempt reservation cursorId) :
    isDispatch stored = true := by
  have hnoted : ∀ failure : Failure, stored.identity = ⟨attempt, .note, cursorId,
      (failurePayload env failure kind reservation (H.payload payload.canonical)).canonical⟩ →
      stored.kind = .note ∧ stored.payload.get? "event" = some (.str failure.event) := by
    intro failure hsame
    refine ⟨congrArg Identity.kind hsame, ?_⟩
    have hpayload : Value.SameJson (failurePayload env failure kind reservation
        (H.payload payload.canonical)) stored.payload :=
      (congrArg Identity.payload hsame).symm
    obtain ⟨event, hevent, hstr⟩ := hpayload.get? (v := .str failure.event) (if_pos rfl)
    rw [hevent, hstr.str]
  rw [callIdentities, List.mem_cons] at h
  rcases h with h | h
  · have hcall : stored.kind = kind := congrArg Identity.kind h
    apply decide_eq_true
    rw [hcall]
    exact hkind.imp_right .inl
  · obtain ⟨failure, hfailure, hsame⟩ := List.mem_map.mp h
    obtain ⟨hnote, hevent⟩ := hnoted failure hsame.symm
    apply decide_eq_true
    refine .inr (.inr ⟨hnote, ?_⟩)
    rw [hevent]
    rcases List.mem_pair.mp hfailure with rfl | rfl
    · exact .inl rfl
    · exact .inr rfl

/-- What is put is there, with its identity. -/
theorem find?_of_put {store after : MemoryStore} {node : Node} (h : store.put H node = .ok after) :
    ∃ stored, after.find? node.id = some stored ∧ stored.identity = node.identity := by
  rcases MemoryStore.put_cases h with hadded |
    ⟨existing, hfind, hsame, rfl | ⟨metadata, rfl, -⟩⟩
  · exact ⟨node, hadded.find?_self, rfl⟩
  · exact ⟨existing, hfind, hsame⟩
  · obtain ⟨_, hafter⟩ := (grows_replaceMeta (H := H) store node.id metadata).kept hfind
    exact ⟨_, hafter, hsame⟩

/-- Identities name the parent, and the empty text stands for none. -/
theorem parent_of_identity {stored node : Node} {parent : String}
    (hsame : stored.identity = node.identity) (hparent : node.parent = some parent)
    (hne : parent ≠ "") : stored.parent = some parent := by
  have hidentity : stored.parent.getD "" = node.parent.getD "" := congrArg Identity.parent hsame
  rw [hparent, Option.getD_some] at hidentity
  cases hstored : stored.parent with
  | none =>
      rw [hstored] at hidentity
      exact absurd hidentity.symm hne
  | some _ =>
      rw [hstored] at hidentity
      exact congrArg some hidentity

/-- A call that moves the cursor has left a node there. -/
theorem dispatched_of_moved {kind : NodeKind} {payload : Value} {attempt : ℤ} {keepChunks : Bool}
    {action : Option (Bool × List (ℕ × Decision))} {reservation : Option Reservation}
    {s t : Session} (hkind : kind = .modelCall ∨ kind = .toolCall)
    (hcursor : s.run.cursorId ≠ "")
    (h : CallEnds H rt flavor env kind payload attempt keepChunks action reservation s t)
    (hmoved : t.run.cursorId ≠ s.run.cursorId) :
    ∃ stored ∈ t.store.nodes, isDispatch stored = true ∧ stored.parent = some s.run.cursorId := by
  cases h with
  | released _ => exact absurd rfl hmoved
  | unpriced _ _ => exact absurd rfl hmoved
  | unmade _ _ _ _ => exact absurd rfl hmoved
  | lost _ _ _ _ => exact absurd rfl hmoved
  | rejected _ _ _ _ _ _ => exact absurd rfl hmoved
  | recorded charges node store hpriced hnode hput hsettle hfailed =>
      obtain ⟨stored, hfind, hsame⟩ := find?_of_put hput
      refine ⟨stored, (MemoryStore.mem_of_find? hfind).1,
        isDispatch_of_identity hkind (hsame ▸ hnode.identity), ?_⟩
      exact parent_of_identity hsame hnode.parent hcursor

/-- Nothing was invoked, or the cursor has moved. -/
def Shows (s t : Session) : Prop :=
  (∀ action, .invoked action ∈ t.trace → .invoked action ∈ s.trace) ∨
    t.run.cursorId ≠ s.run.cursorId

theorem shows_of_quiet {s t : Session} (h : Quiet s t) : Shows s t :=
  .inl fun _ hmem => h.invoked hmem

theorem callWith_shows {kind : NodeKind} {payload : Value} {attempt : ℤ} {keepChunks : Bool}
    {action : Option (Bool × List (ℕ × Decision))} {s t : Session} {live : Node}
    (hcursor : s.run.cursorId ≠ "")
    (h : callWith H rt flavor env kind payload attempt keepChunks action s = .ok live t) :
    Shows s t := by
  unfold callWith at h
  obtain ⟨bytes, m, hpayload, h⟩ := bind_eq_ok h
  obtain ⟨hbytes, rfl⟩ := orRaise_eq_ok hpayload
  obtain ⟨found, m, hfound, h⟩ := bind_eq_ok h
  cases found with
  | some node =>
      cases h
      exact shows_of_quiet ((quiet_recordedNode H rt env kind bytes attempt).of_ok hfound)
  | none =>
      obtain ⟨rfl, hmode⟩ := recordedNode_none H rt env hfound
      obtain ⟨reservation, n, hpassed, h⟩ := bind_eq_ok h
      have hrun := (precheck_ok H rt env hpassed).1.run
      obtain ⟨node, result, metadata, hmade, hput, hplace⟩ := callReserved_moves hmode h
      rw [hrun] at hmade
      obtain ⟨stored, hfind, hsame⟩ := find?_of_put hput
      obtain ⟨hmem, hid⟩ := MemoryStore.mem_of_find? hfind
      have hmoved : t.run.cursorId = node.id := congrArg (fun place => place.2.2) hplace
      refine .inr fun hstays => MemoryStore.parent_ne hmem ?_
      have hparent : node.parent = some s.run.cursorId := by rw [Node.eq_of_make hmade]
      rw [hid, ← hmoved, hstays]
      exact parent_of_identity hsame hparent hcursor

theorem dispatchRegistered_shows {payload : Value} {attempt : ℤ}
    {consulted : List (ℕ × Decision)} {s t : Session} {live : Node}
    (hmode : rt.mode ≠ .replay) (hcursor : s.run.cursorId ≠ "")
    (hpayload : payload.isIdentity = true)
    (h : dispatchRegistered H rt flavor env spec payload attempt consulted s = .ok live t) :
    Shows s t := by
  unfold dispatchRegistered at h
  obtain ⟨found, m, hfound, h⟩ := bind_eq_ok h
  cases found with
  | some node =>
      cases h
      exact shows_of_quiet ((quiet_recordedNode H rt env .toolCall payload attempt).of_ok hfound)
  | none =>
      obtain ⟨rfl, -⟩ := recordedNode_none H rt env hfound
      dsimp only at h
      split at h
      · have hafter : after (dryRunCall H rt env payload attempt) s = t := by
          rw [after, h]
        rw [← hafter]
        rcases dryRunCall_cases H rt env hmode hpayload s with
          hquiet | ⟨reservation, m, hpassed, hends⟩
        · exact shows_of_quiet hquiet
        · exact .inl fun action hmem =>
            (precheck_ok H rt env hpassed).1.quiet.invoked (hends.invoked.1 action hmem)
      · split at h
        · exact absurd h (refusePolicy_ne_ok H rt env)
        · exact callWith_shows hcursor h

theorem registeredToolCall_shows {registry : Registry} {name : String} {version : Option String}
    {attempt : ℤ} {s t : Session} {live : Node} (hcursor : s.run.cursorId ≠ "")
    (h : registeredToolCall H rt flavor env registry name args version attempt s = .ok live t) :
    Shows s t := by
  unfold registeredToolCall at h
  cases hspec : registry.specs.get? name with
  | none =>
      rw [hspec] at h
      exact absurd h (refusePolicy_ne_ok H rt env)
  | some spec =>
      rw [hspec] at h
      obtain ⟨auditArgs, m, hargs, h⟩ := bind_eq_ok h
      obtain ⟨hredact, rfl⟩ := orRaise_eq_ok hargs
      dsimp only at h
      split at h
      · exact absurd h (refusePolicy_ne_ok H rt env)
      · obtain ⟨finding, m, hfinding, h⟩ := bind_eq_ok h
        obtain ⟨hvalid, rfl⟩ := orRaise_eq_ok hfinding
        cases finding with
        | some finding => exact absurd h (refusePolicy_ne_ok H rt env)
        | none =>
            have hrecorded := quiet_recordedNode H rt env .toolCall
              (registeredPayload registry spec auditArgs) attempt
            dsimp only at h
            split at h
            · obtain ⟨found, m, hfound, h⟩ := bind_eq_ok h
              cases found with
              | some node =>
                  cases h
                  exact shows_of_quiet (hrecorded.of_ok hfound)
              | none => cases h
            · next hmode =>
                have htail : (do
                    let approved ← checkDurableApprovals H rt env spec args
                    let consulted ← consultPolicies H rt env spec args
                      (registeredPayload registry spec auditArgs) attempt 0 rt.policies approved
                    dispatchRegistered H rt flavor env spec
                      (registeredPayload registry spec auditArgs) attempt consulted : RunM Node) s =
                      .ok live t → Shows s t := by
                  intro h
                  obtain ⟨approved, n, hcheck, h⟩ := bind_eq_ok h
                  obtain ⟨rfl, -⟩ := checkDurableApprovals_ok H rt env hcheck
                  obtain ⟨consulted, n, hconsult, h⟩ := bind_eq_ok h
                  obtain ⟨rfl, -⟩ := consultPolicies_ok H rt env hconsult
                  exact dispatchRegistered_shows hmode hcursor
                    (isIdentity_registeredPayload (ActionSpec.isIdentity_redactArgs
                      (ActionSpec.isIdentity_of_validateArgs hvalid) hredact)) h
                split at h
                · obtain ⟨found, m, hfound, h⟩ := bind_eq_ok h
                  cases found with
                  | some node => cases h
                  | none =>
                      obtain ⟨rfl, -⟩ := recordedNode_none H rt env hfound
                      exact htail h
                · exact htail h

theorem confirm_shows {token : String} {s t : Session} {live : Node}
    (hcursor : s.run.cursorId ≠ "") (h : confirm H rt flavor env token s = .ok live t) :
    Shows s t := by
  unfold confirm at h
  rw [bind_of_ok (get_apply s)] at h
  cases hpending : s.run.pendingToolCalls.get? token with
  | none =>
      rw [hpending] at h
      cases h
  | some pending =>
      rw [hpending] at h
      dsimp only at h
      rw [bind_of_ok (modify_apply _ s)] at h
      split at h
      · cases h
      · obtain ⟨approved, n, hcheck, h⟩ := bind_eq_ok h
        obtain ⟨rfl, -⟩ := checkDurableApprovals_ok H rt env hcheck
        split at h
        · exact absurd h (refusePolicy_ne_ok H rt env)
        · exact callWith_shows (s := { s with run := { s.run with
            pendingToolCalls := s.run.pendingToolCalls.erase token } }) hcursor h

end Asking

/-! ## Runs -/

/-- A runtime with an approval policy at an index. -/
structure ApprovalRuntime extends Runtime where
  actions : Registry
  bound : registry = some actions
  index : ℕ
  sideEffectsOnly : Bool
  durable : (policies[index]?).any Policy.durableApproval = true

/-- What happens next: a run is at work, or others write the store. -/
inductive Move where
  | input (input : Input)
  | write (write : Write)

/-- The invocation of the handler of an action. -/
structure Invocation where
  ctx : PolicyContext
  /-- The call came back, or it left a node at the cursor. -/
  lasts : Bool

section Runs

variable (H : Hashing) (rt : ApprovalRuntime) (depth : ℕ) (actors : ℕ → Option AgentIdentity)

def Move.apply (w : World) : Move → World
  | .input next => w.step H rt.toRuntime next
  | .write change => { w with store := change.apply H w.store }

/-- The world before the move at an index. -/
def worldAt (w : World) (moves : List Move) (i : ℕ) : World :=
  Machine.run (Move.apply H rt) w (moves.take i)

/-- The action an operation is about, as its policies see it. -/
def policyContext (actor : Option AgentIdentity) (run : Run) : Op → Option PolicyContext
  | .toolCall name args _ _ _ => (rt.actions.specs.get? name).map fun spec =>
      ⟨spec, args, run.cursorId, actor, some rt.actions.registryDigest⟩
  | .confirm token => (run.pendingToolCalls.get? token).map fun pending =>
      ⟨pending.spec, pending.args, run.cursorId, actor, some rt.actions.registryDigest⟩
  | _ => none

/-- The policy does not let the action through for having no side effects. -/
def governs (spec : ActionSpec) : Bool := ¬ (rt.sideEffectsOnly = true ∧ spec.sideEffects = false)

/-- The approval policy answers for the action of an operation, from the store as it is then. -/
def Asked (w : World) : Move → Prop
  | .input (.acted index _ env op) => ∀ handle ∈ w.handles[index]?,
      ∀ ctx ∈ policyContext rt (actors index) handle.run op,
        env.decide rt.index = ApprovalPolicy.decide H depth rt.sideEffectsOnly ctx w.store
  | _ => True

instance (w : World) : (move : Move) → Decidable (Asked H rt depth actors w move)
  | .input (.acted index _ env op) => inferInstanceAs (Decidable (∀ handle ∈ w.handles[index]?,
      ∀ ctx ∈ policyContext rt (actors index) handle.run op,
        env.decide rt.index = ApprovalPolicy.decide H depth rt.sideEffectsOnly ctx w.store))
  | .input (.opened _ _ _ _) => inferInstanceAs (Decidable True)
  | .write _ => inferInstanceAs (Decidable True)

def Event.isInvocation : Event → Bool
  | .invoked _ => true
  | _ => false

/-- The handler that a move invokes. -/
def Move.invocation (w : World) : Move → Option Invocation
  | .input (.acted index flavor env op) => do
      let handle ← w.handles[index]?
      let ctx ← policyContext rt (actors index) handle.run op
      let s := after (op.perform H rt.toRuntime flavor env) (w.session handle)
      let returns := (outcome (op.perform H rt.toRuntime flavor env) (w.session handle)).isOk
      if s.trace.any Event.isInvocation then
        some ⟨ctx, returns ∨ s.run.cursorId ≠ ctx.cursorId⟩
      else none
  | _ => none

variable {H rt depth actors}

theorem grows (H : Hashing) : Written H (Grows H) where
  refl := .refl
  trans h h' := h.trans _ _ _ h'
  put := grows_put
  updateMeta h := by
    rw [MemoryStore.updateMeta, Fallible.map_ok_iff] at h
    obtain ⟨node, -, rfl⟩ := h
    exact grows_replaceMeta _ _ _

theorem grows_apply (w : World) (move : Move) : Grows H w.store (move.apply H rt w).store := by
  cases move with
  | input next => exact (grows H).step rt.toRuntime w next
  | write change => exact grows_write change w.store

theorem grows_run (w : World) (moves : List Move) :
    Grows H w.store (Machine.run (Move.apply H rt) w moves).store := by
  apply Machine.preserved_run (fun v : World => Grows H w.store v.store)
  · intro v move h
    exact h.trans _ _ _ (grows_apply v move)
  · exact .refl _

theorem worldAt_succ {w : World} {moves : List Move} {i : ℕ} {move : Move}
    (h : moves[i]? = some move) :
    worldAt H rt w moves (i + 1) = move.apply H rt (worldAt H rt w moves i) := by
  rw [worldAt, List.take_add_one, h, Option.toList_some, Machine.run_append]
  rfl

theorem grows_later {w : World} {moves : List Move} {i j : ℕ} (hle : i ≤ j) :
    Grows H (worldAt H rt w moves i).store (worldAt H rt w moves j).store := by
  obtain ⟨k, rfl⟩ := Nat.exists_eq_add_of_le hle
  have hlater : worldAt H rt w moves (i + k) =
      Machine.run (Move.apply H rt) (worldAt H rt w moves i) ((moves.drop i).take k) := by
    rw [worldAt, List.take_add, Machine.run_append]
    rfl
  rw [hlater]
  exact grows_run _ _

theorem asked_at {w : World} {moves : List Move} {i : ℕ} {move : Move}
    (h : Machine.Along (Move.apply H rt) (Asked H rt depth actors) w moves)
    (hmove : moves[i]? = some move) :
    Asked H rt depth actors (worldAt H rt w moves i) move := by
  obtain ⟨hi, rfl⟩ := List.getElem?_eq_some_iff.mp hmove
  rw [← List.take_append_drop i moves, Machine.along_append, List.drop_eq_getElem_cons hi] at h
  exact h.2.1

/-- What a handler's invocation says of the operation. -/
theorem of_invocation {w : World} {move : Move} {call : Invocation}
    (h : move.invocation H rt actors w = some call) :
    ∃ index flavor env op handle, move = .input (.acted index flavor env op) ∧
      w.handles[index]? = some handle ∧
      policyContext rt (actors index) handle.run op = some call.ctx ∧
      (∃ action, .invoked action ∈
        (after (op.perform H rt.toRuntime flavor env) (w.session handle)).trace) ∧
      (call.lasts = true →
        (∃ child t, op.perform H rt.toRuntime flavor env (w.session handle) = .ok child t) ∨
        (after (op.perform H rt.toRuntime flavor env) (w.session handle)).run.cursorId ≠
          call.ctx.cursorId) := by
  unfold Move.invocation at h
  split at h
  · next index flavor env op =>
      obtain ⟨handle, hhandle, h⟩ := Option.bind_eq_some_iff.mp h
      obtain ⟨ctx, hctx, h⟩ := Option.bind_eq_some_iff.mp h
      dsimp only at h
      split at h
      · next hinvoked =>
          cases h
          obtain ⟨e, hmem, he⟩ := List.any_eq_true.mp hinvoked
          refine ⟨index, flavor, env, op, handle, rfl, hhandle, hctx, ?_, fun hlasts => ?_⟩
          · cases e with
            | invoked action => exact ⟨action, hmem⟩
            | _ => cases he
          · refine (of_decide_eq_true hlasts).imp (fun hreturns => ?_) id
            unfold outcome at hreturns
            split at hreturns
            · next child t hrun => exact ⟨child, t, hrun⟩
            · cases hreturns
      · cases h
  · cases h

theorem cursorId_of_policyContext {actor : Option AgentIdentity} {run : Run} {op : Op}
    {ctx : PolicyContext} (h : policyContext rt actor run op = some ctx) :
    ctx.cursorId = run.cursorId := by
  cases op with
  | toolCall name args passesFn version attempt =>
      obtain ⟨spec, -, rfl⟩ := Option.map_eq_some_iff.mp h
      rfl
  | confirm token =>
      obtain ⟨pending, -, rfl⟩ := Option.map_eq_some_iff.mp h
      rfl
  | _ => cases h

theorem toolCall_eq (flavor : Flavor) (env : CallEnv) (name : String) (args : Value)
    (passesFn : Bool) (version : Option String) (attempt : ℤ) :
    toolCall H rt.toRuntime flavor env name args passesFn version attempt =
      registeredToolCall H rt.toRuntime flavor env rt.actions name args version attempt := by
  unfold toolCall
  rw [rt.bound]

theorem quiet_perform {actor : Option AgentIdentity} {run : Run} {op : Op} {ctx : PolicyContext}
    {flavor : Flavor} {env : CallEnv} (h : policyContext rt actor run op = some ctx)
    (hmode : rt.mode ≠ .replay) (hdecide : env.decide rt.index ≠ .ok .allow) :
    Keeps Quiet (op.perform H rt.toRuntime flavor env) := by
  cases op with
  | toolCall name args passesFn version attempt =>
      rw [Op.perform, toolCall_eq]
      exact quiet.bind (quiet_registeredToolCall _ _ _ _ rt.durable hdecide) fun _ => quiet.pure _
  | confirm token =>
      rw [Op.perform]
      exact quiet.bind (quiet_confirm token rt.durable hmode hdecide) fun _ => quiet.pure _
  | _ => cases h

theorem perform_shows {actor : Option AgentIdentity} {run : Run} {op : Op} {ctx : PolicyContext}
    {flavor : Flavor} {env : CallEnv} {s t : Session} {child : Option Run}
    (h : policyContext rt actor run op = some ctx) (hcursor : s.run.cursorId ≠ "")
    (hperform : op.perform H rt.toRuntime flavor env s = .ok child t) : Shows s t := by
  cases op with
  | toolCall name args passesFn version attempt =>
      obtain ⟨node, m, hcall, hpure⟩ := bind_eq_ok hperform
      cases hpure
      rw [toolCall_eq] at hcall
      exact registeredToolCall_shows hcursor hcall
  | confirm token =>
      obtain ⟨node, m, hcall, hpure⟩ := bind_eq_ok hperform
      cases hpure
      exact confirm_shows hcursor hcall
  | _ => cases h

theorem kind_of_policyContext {actor : Option AgentIdentity} {run : Run} {op : Op}
    {ctx : PolicyContext} {kind : NodeKind} (h : policyContext rt actor run op = some ctx)
    (hkind : Option.map Prod.fst (op.call? H rt.toRuntime run) = some kind) : kind = .toolCall := by
  cases op with
  | toolCall name args passesFn version attempt =>
      rw [Op.call?, rt.bound] at hkind
      obtain ⟨call, hcall, rfl⟩ := Option.map_eq_some_iff.mp hkind
      obtain ⟨spec, -, hcall⟩ := Option.bind_eq_some_iff.mp hcall
      obtain ⟨auditArgs, -, rfl⟩ := Option.map_eq_some_iff.mp hcall
      rfl
  | confirm token =>
      rw [Op.call?] at hkind
      obtain ⟨call, hcall, rfl⟩ := Option.map_eq_some_iff.mp hkind
      obtain ⟨pending, -, rfl⟩ := Option.map_eq_some_iff.mp hcall
      rfl
  | _ => cases h

/-- What is invoked is entitled. -/
theorem entitled_of_invocation {w : World} {move : Move} {call : Invocation}
    (hnamed : w.store.Named H) (hasked : Asked H rt depth actors w move)
    (h : move.invocation H rt actors w = some call) (hgoverned : governs rt call.ctx.spec = true) :
    ∃ request, Entitled H depth call.ctx request w.store := by
  obtain ⟨index, flavor, env, op, handle, rfl, hhandle, hctx, ⟨action, hmem⟩, -⟩ :=
    of_invocation h
  obtain ⟨hmode, -⟩ := called_of_invoked (ends_perform H rt.toRuntime env flavor op _) rfl hmem
  have hanswer : env.decide rt.index =
      ApprovalPolicy.decide H depth rt.sideEffectsOnly call.ctx w.store :=
    hasked handle hhandle call.ctx hctx
  have hallow : env.decide rt.index = .ok .allow := by
    by_contra hdecide
    have hold := (quiet_perform hctx hmode hdecide (w.session handle)).invoked hmem
    cases hold
  rw [hanswer, ApprovalPolicy.decide, if_neg (of_decide_eq_true hgoverned)] at hallow
  exact (decideGoverned_iff hnamed).mp hallow

theorem id_of_fromDict {data : Value} {request : ApprovalRequest}
    (h : ApprovalRequest.fromDict H data = .ok request) :
    data.get? "id" = some (.str request.id) := by
  unfold ApprovalRequest.fromDict at h
  dsimp only at h
  split at h
  · cases h
  split at h
  · cases h
  obtain ⟨identity, -, h⟩ := Fallible.bind_ok_iff.mp h
  obtain ⟨id, hid, h⟩ := Fallible.bind_ok_iff.mp h
  obtain ⟨rootId, -, h⟩ := Fallible.bind_ok_iff.mp h
  obtain ⟨parentId, -, h⟩ := Fallible.bind_ok_iff.mp h
  obtain ⟨argsDigest, -, h⟩ := Fallible.bind_ok_iff.mp h
  obtain ⟨specDigest, -, h⟩ := Fallible.bind_ok_iff.mp h
  obtain ⟨registryDigest, -, h⟩ := Fallible.bind_ok_iff.mp h
  obtain ⟨name, -, h⟩ := Fallible.bind_ok_iff.mp h
  obtain ⟨toolVersion, -, h⟩ := Fallible.bind_ok_iff.mp h
  have hsame : request.id = id := by
    split at h
    · split at h
      · cases h
      · obtain ⟨node, -, h⟩ := Fallible.bind_ok_iff.mp h
        split at h
        · cases h
        · rw [← Except.ok.inj h]
    · cases h
  unfold nodeIdOf at hid
  split at hid
  · next text hvalue =>
      rw [hvalue, hsame, Except.ok.inj hid]
  · cases hid

theorem id_of_fromNode {node : Node} {request : ApprovalRequest}
    (h : ApprovalRequest.fromNode H node = .ok request) : request.id = node.id := by
  obtain ⟨document, -, h⟩ := Fallible.bind_ok_iff.mp h
  obtain ⟨other, hdict, h⟩ := Fallible.bind_ok_iff.mp h
  obtain ⟨expected, -, h⟩ := Fallible.bind_ok_iff.mp h
  have hother : other = request := by
    dsimp only at h
    split at h
    · cases h
    · exact Except.ok.inj h
  have hid : Assoc.lookup (Assoc.upsert (Assoc.upsert (Assoc.upsert document "id" (.str node.id))
      "parent_id" ((node.parent.map Value.str).getD .none)) "attempt" (.int node.attempt)) "id" =
        some (.str other.id) := id_of_fromDict hdict
  rw [Assoc.lookup_upsert, if_neg (by decide), Assoc.lookup_upsert, if_neg (by decide),
    Assoc.lookup_upsert, if_pos rfl] at hid
  rw [← hother]
  exact (Value.str.inj (Option.some.inj hid)).symm

theorem mem_of_requestAbove {s : MemoryStore} {ids : List String} {request : ApprovalRequest}
    (h : requestAbove H s ids = .ok (some request)) : request.id ∈ ids := by
  induction ids with
  | nil => cases h
  | cons id ids ih =>
      rw [requestAbove] at h
      obtain ⟨current, hget, h⟩ := Fallible.bind_ok_iff.mp h
      split at h
      · cases h
      · split at h
        · obtain ⟨found, hfrom, h⟩ := Fallible.bind_ok_iff.mp h
          cases h
          rw [id_of_fromNode hfrom,
            (MemoryStore.mem_of_find? (MemoryStore.find?_of_get hget)).2]
          exact List.mem_cons_self
        · exact List.mem_cons_of_mem _ (ih h)

/-- A call that lasts uses up the request that entitled to it. -/
theorem spent_of_lasts (hdigest : ∀ identity, H.node identity ≠ "") {w : World} {move : Move}
    {call : Invocation} {request : ApprovalRequest} (hnamed : w.store.Named H)
    (h : move.invocation H rt actors w = some call) (hlasts : call.lasts = true)
    (hentitled : Entitled H depth call.ctx request w.store) :
    Spent request.id (move.apply H rt w).store := by
  obtain ⟨index, flavor, env, op, handle, rfl, hhandle, hctx, ⟨action, hmem⟩, hends⟩ :=
    of_invocation h
  have hcursor := cursorId_of_policyContext hctx
  obtain ⟨cursor, hheld, -⟩ := hentitled.same
  obtain ⟨hcursorMem, hcursorId⟩ := MemoryStore.mem_of_find? hheld
  have hne : handle.run.cursorId ≠ "" := by
    rw [← hcursor, ← hcursorId, hnamed cursor hcursorMem]
    exact hdigest _
  obtain ⟨t, ht⟩ : ∃ t, t = after (op.perform H rt.toRuntime flavor env) (w.session handle) :=
    ⟨_, rfl⟩
  rw [← ht] at hmem hends
  have hmoved : t.run.cursorId ≠ handle.run.cursorId := by
    rcases hends hlasts with ⟨child, u, hperform⟩ | hmoved
    · obtain rfl : t = u := by
        rw [ht, after, hperform]
      rcases perform_shows hctx hne hperform with hnone | hmoved
      · cases hnone action hmem
      · exact hmoved
    · rwa [hcursor] at hmoved
  have hstore : (Move.apply H rt w (.input (.acted index flavor env op))).store = t.store := by
    show (w.step H rt.toRuntime (.acted index flavor env op)).store = t.store
    unfold World.step
    dsimp only
    rw [hhandle]
    dsimp only
    rw [ht, after]
    cases op.perform H rt.toRuntime flavor env (w.session handle) <;> rfl
  have hgrows : Grows H w.store t.store := hstore ▸ grows_apply w _
  obtain ⟨-, u, kind, payload, attempt, keepChunks, reservation, hkind, hsame, hcall⟩ :=
    called_of_invoked (ht ▸ ends_perform H rt.toRuntime env flavor op (w.session handle)) rfl hmem
  have hsame : u.run.cursorId = handle.run.cursorId := hsame
  rw [← hsame] at hmoved hne
  obtain ⟨stored, hstored, hdispatch, hparent⟩ :=
    dispatched_of_moved (.inr (kind_of_policyContext hctx hkind)) hne hcall hmoved
  rw [hstore]
  refine ⟨stored, MemoryStore.find?_of_mem hstored, hdispatch, ?_⟩
  rw [MemoryStore.ancestors_of_parent hstored hparent, hsame, ← hcursor,
    hgrows.ancestors (MemoryStore.contains_of_find? hheld)]
  exact List.mem_cons_of_mem _ (mem_of_requestAbove hentitled.above)

/-- Approvals are used once.  In every run of a runtime whose approval policy answers from the
store, however others write it, the handler of a governed action is invoked only below a request
for this very action that is approved and unused; and once such a call came back, or left a node
of itself or of its failure, the request entitles no later action of any run. -/
theorem approvals_used_once (hdigest : ∀ identity, H.node identity ≠ "") {w : World}
    (hnamed : w.store.Named H) {moves : List Move}
    (hasked : Machine.Along (Move.apply H rt) (Asked H rt depth actors) w moves) {i : ℕ}
    {move : Move} {call : Invocation} (hmove : moves[i]? = some move)
    (hcall : move.invocation H rt actors (worldAt H rt w moves i) = some call)
    (hgoverned : governs rt call.ctx.spec = true) :
    ∃ request, Entitled H depth call.ctx request (worldAt H rt w moves i).store ∧
      (call.lasts = true → ∀ j > i, ∀ ctx other,
        Entitled H depth ctx other (worldAt H rt w moves j).store → other.id ≠ request.id) := by
  have hnamedAt : (worldAt H rt w moves i).store.Named H := (grows_run w _).named hnamed
  obtain ⟨request, hentitled⟩ :=
    entitled_of_invocation hnamedAt (asked_at hasked hmove) hcall hgoverned
  refine ⟨request, hentitled, fun hlasts j hj ctx other hother hid => ?_⟩
  have hspent := spent_of_lasts hdigest hnamedAt hcall hlasts hentitled
  rw [← worldAt_succ hmove, ← hid] at hspent
  exact hother.unused (hspent.grows (grows_later hj))

end Runs

/-! ## One approval -/

def sendArgs : Value := .dict [("to", .str "ana")]

def sendReviewed : ApprovalRuntime where
  meters := [stepMeter]
  registry := some ⟨"registry", .ofList [("send", sendSpec)]⟩
  policies := [⟨true⟩]
  actions := ⟨"registry", .ofList [("send", sendSpec)]⟩
  bound := rfl
  index := 0
  sideEffectsOnly := true
  durable := rfl

/-- An agent asks to send. -/
def sending : ApprovalRequest :=
  let draft : ApprovalRequest :=
    ⟨"", runRoot.id, runRoot.id, "send", "1",
      (Hashing.plain.digestPayload sendArgs).toOption.getD "", "send", "registry", none, 0⟩
  { draft with
    id := Hashing.plain.nodeId .note (some runRoot.id) 0
      (eventPayload "approval_request" draft.document) }

/-- The nodes of its approval. -/
def sendingApproved : List Node :=
  let slotId := Hashing.plain.nodeId .note (some sending.id) 0 (slotPayload sending)
  let payload := eventPayload "approval_decision" (approval.document sending)
  let decisionId := Hashing.plain.nodeId .note (some slotId) 0 payload
  [⟨slotId, some sending.id, .note, 0, slotPayload sending, some (decidedBy decisionId), ∅⟩,
    ⟨decisionId, some slotId, .note, 0, payload, none, ∅⟩]

/-- What the policy answers. -/
def answering (decision : Decision) : CallEnv :=
  { CallEnv.step with decide := fun _ => .ok decision }

/-- The action is asked for, approved and called, and after a rollback it is called again. -/
def sendTwice : List Move :=
  [.input (.opened false "payments" none 0),
    .input (.acted 0 .sync .step (.note (eventPayload "approval_request" sending.document) 0))] ++
  sendingApproved.map (fun node => .write (.put node)) ++
  [.input (.acted 0 .sync (answering .allow) (.toolCall "send" sendArgs false none 0)),
    .input (.acted 0 .sync .step (.rollback (some sending.id) 0)),
    .input (.acted 0 .sync (answering .deny) (.toolCall "send" sendArgs false none 1))]

/-- The world before a move of this run. -/
def sendTwiceAt (i : ℕ) : World := worldAt .plain sendReviewed { store := .empty } sendTwice i

/-- The first call is entitled by the request, and nothing is after it. -/
theorem approvals_used_once_sendTwice :
    ∃ move call, sendTwice[4]? = some move ∧
      move.invocation .plain sendReviewed (fun _ => none) (sendTwiceAt 4) = some call ∧
      Entitled .plain 6 call.ctx sending (sendTwiceAt 4).store ∧
      ∀ j > 4, ∀ ctx other, Entitled .plain 6 ctx other (sendTwiceAt j).store →
        other.id ≠ sending.id := by
  have hasked : Machine.Along (Move.apply .plain sendReviewed)
      (Asked .plain sendReviewed 6 fun _ => none) { store := .empty } sendTwice := by
    decide +kernel
  have hfinds : (sendTwice[4]?.bind fun move => move.invocation .plain sendReviewed (fun _ => none)
      (sendTwiceAt 4)).any (fun call => call.lasts && governs sendReviewed call.ctx.spec &&
        decide (requestAbove .plain (sendTwiceAt 4).store
          ((sendTwiceAt 4).store.ancestors call.ctx.cursorId) = .ok (some sending))) = true := by
    decide +kernel
  have hnamed : MemoryStore.Named .plain MemoryStore.empty := by
    rintro node ⟨⟩
  obtain ⟨call, hcall, hends⟩ := (Option.any_eq_true _ _).mp hfinds
  obtain ⟨move, hmove, hcall⟩ := Option.bind_eq_some_iff.mp hcall
  rw [Bool.and_eq_true, Bool.and_eq_true, decide_eq_true_iff] at hends
  obtain ⟨⟨hlasts, hgoverned⟩, habove⟩ := hends
  obtain ⟨request, hentitled, hafter⟩ :=
    approvals_used_once plain_node_ne hnamed hasked hmove hcall hgoverned
  have hsame : request = sending :=
    Option.some.inj (Except.ok.inj (hentitled.above.symm.trans habove))
  rw [hsame] at hentitled hafter
  exact ⟨move, call, hmove, hcall, hentitled, hafter hlasts⟩

end Pollard.ApprovalDecisions
