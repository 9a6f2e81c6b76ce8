import Pollard.Lib.Fallible
import Pollard.Runtime.Runs

/-!
# Writes

Whatever a run does, it writes its store with `put` and `update_meta` alone.  A relation that
both keep is kept by every operation, and by every run of a runtime.
-/

namespace Pollard

open Lib Effect

/-- A relation of a store to what a write makes of it. -/
structure Written (H : Hashing) (R : MemoryStore → MemoryStore → Prop) : Prop extends Frame R where
  put : ∀ {store after : MemoryStore} {node : Node}, store.put H node = .ok after → R store after
  updateMeta : ∀ {store after : MemoryStore} {id : String} {patch : Dict String Value},
    store.updateMeta id patch = .ok after → R store after

namespace MemoryStore

/-- Every node is still there, the same but for its metadata. -/
def Kept (before after : MemoryStore) : Prop :=
  ∀ id node, before.find? id = some node → ∃ metadata, after.find? id = some { node with metadata }

theorem Kept.refl (store : MemoryStore) : Kept store store :=
  fun _ node h => ⟨node.metadata, h⟩

theorem Kept.trans {a b c : MemoryStore} (h : Kept a b) (h' : Kept b c) : Kept a c := by
  intro id node hnode
  obtain ⟨_, hb⟩ := h id node hnode
  obtain ⟨metadata, hc⟩ := h' id _ hb
  exact ⟨metadata, hc⟩

theorem Kept.replaceMeta (store : MemoryStore) (id : String) (metadata : Dict String Value) :
    Kept store (store.replaceMeta id metadata) := by
  intro other node hnode
  rw [find?_replaceMeta, hnode, Option.map_some]
  split
  · exact ⟨metadata, rfl⟩
  · exact ⟨node.metadata, rfl⟩

theorem Added.keptNodes {store after : MemoryStore} {node : Node} (h : store.Added node after) :
    Kept store after := by
  intro id other hother
  refine ⟨other.metadata, ?_⟩
  rw [h.find?_of_ne]
  · exact hother
  · rintro rfl
    rw [h.1] at hother
    cases hother

theorem kept (H : Hashing) : Written H Kept where
  refl := Kept.refl
  trans := Kept.trans
  put h := by
    rcases put_cases h with hadded | ⟨existing, -, -, rfl | ⟨metadata, rfl, -⟩⟩
    · exact hadded.keptNodes
    · exact .refl _
    · exact .replaceMeta _ _ _
  updateMeta h := by
    rw [MemoryStore.updateMeta, Fallible.map_ok_iff] at h
    obtain ⟨node, -, rfl⟩ := h
    exact .replaceMeta _ _ _

theorem Kept.contains {before after : MemoryStore} (h : Kept before after) {id : String}
    (hid : before.contains id = true) : after.contains id = true := by
  obtain ⟨node, hnode⟩ := Option.isSome_iff_exists.mp hid
  obtain ⟨metadata, hafter⟩ := h id node hnode
  exact contains_of_find? hafter

end MemoryStore

/-- A relation of stores, of the sessions on them. -/
def OnStore (R : MemoryStore → MemoryStore → Prop) (s t : Session) : Prop := R s.store t.store

theorem keeps_onStore {R : MemoryStore → MemoryStore → Prop} {α : Type} {x : StoreM α}
    (hx : Keeps R x) : Keeps (OnStore R) (onStore x) :=
  hx.focus fun _ _ h => h

namespace Written

variable {H : Hashing} {R : MemoryStore → MemoryStore → Prop} (hR : Written H R) (rt : Runtime)

include hR

theorem frame : Frame (OnStore R) := ⟨fun s => hR.refl s.store, fun h h' => hR.trans h h'⟩

theorem keeps_modify {f : Session → Session} (h : ∀ s, (f s).store = s.store) :
    Keeps (OnStore R) (modify f : RunM PUnit) := by
  apply Effect.keeps_modify
  intro s
  show R s.store (f s).store
  rw [h s]
  exact hR.refl s.store

/-! ## Nodes -/

theorem keeps_putNode (node : Node) : Keeps R (putNode H rt node) := by
  intro store
  unfold after
  rcases putNode_cases H rt node store with ⟨e, h⟩ | ⟨stored, after, h, hput, -⟩ | ⟨stored, h, -⟩
  · rw [h]
    exact hR.refl store
  · rw [h]
    exact hR.put hput
  · rw [h]
    exact hR.refl store

theorem keeps_set {store : MemoryStore} {id : String} {patch : Dict String Value} {s : Session}
    (h : s.store.updateMeta id patch = .ok store) :
    OnStore R s (after (onStore (set store)) s) :=
  hR.updateMeta h

theorem keeps_record (node : Node) : Keeps (OnStore R) (record H rt node) :=
  hR.frame.bind (keeps_onStore (hR.keeps_putNode rt node)) fun _ =>
    hR.frame.bind (hR.keeps_modify fun _ => rfl) fun _ => hR.frame.pure _

/-! ## Refusing and checking -/

theorem keeps_refuse {α : Type} (env : CallEnv) (kind : NodeKind) (payload : Value)
    (reason meter : String) (requested remaining detail : Option String) (estimated : Bool)
    (windowSeconds : Option ℚ) (auditMeta : Dict String Value) :
    Keeps (OnStore R) (refuse H rt env kind payload reason meter requested remaining detail
      estimated windowSeconds auditMeta : RunM α) := by
  unfold refuse
  refine hR.frame.bind (hR.frame.orRaise _) fun digest => ?_
  refine hR.frame.bind hR.frame.get fun s => ?_
  refine hR.frame.bind (hR.frame.orRaise _) fun node => ?_
  exact hR.frame.bind (hR.keeps_record rt node) fun _ => hR.frame.throw _

theorem keeps_refusePolicy {α : Type} (env : CallEnv) (detail : String) (payload : Value) :
    Keeps (OnStore R) (refusePolicy H rt env detail payload : RunM α) := by
  unfold refusePolicy
  refine hR.frame.bind (hR.frame.orRaise _) fun digest => ?_
  refine hR.frame.bind hR.frame.get fun s => ?_
  refine hR.frame.bind (hR.frame.orRaise _) fun node => ?_
  exact hR.frame.bind (hR.keeps_record rt node) fun _ => hR.frame.throw _

theorem keeps_bindConfiguration (expected : Node) : Keeps R (bindConfiguration H rt expected) := by
  intro store
  unfold bindConfiguration
  apply hR.toFrame.bind_at (hR.refl store)
  intro _ _ hget
  cases hget
  split
  · exact hR.toFrame.bind (hR.toFrame.orRaise _)
      (fun _ => by split; exacts [hR.toFrame.throw _, hR.toFrame.pure _]) store
  · have htail : ∀ after : MemoryStore, Keeps R (do
        let actual ← orRaise (after.get expected.id)
        if verifyRecording H after actual.id ≠ .ok () ∨
            actual.resultText ≠ expected.resultText then
          throw (.integrityError s!"shared scope configuration does not match: {expected.id}")
        : StoreM Unit) := fun after => hR.toFrame.bind (hR.toFrame.orRaise _)
      fun _ => by split; exacts [hR.toFrame.throw _, hR.toFrame.pure _]
    by_cases hin : store.contains expected.id = true
    · rw [if_pos hin]
      exact htail store store
    · rw [if_neg hin]
      cases hput : store.put H expected with
      | error e => exact hR.refl store
      | ok after => exact hR.trans (hR.put hput) (htail after after)

theorem keeps_validateSharedConfiguration : Keeps R (validateSharedConfiguration H rt) := by
  have hbind : ∀ made : Except PyError Node,
      Keeps R (do let node ← orRaise made; bindConfiguration H rt node : StoreM Unit) :=
    fun made => hR.toFrame.bind (hR.toFrame.orRaise _) fun node =>
      hR.keeps_bindConfiguration rt node
  unfold validateSharedConfiguration
  split
  · exact hR.toFrame.pure _
  · split
    · exact hR.toFrame.throw _
    · exact hR.toFrame.bind (hR.toFrame.forM (fun _ => hbind _) _) fun _ =>
        hR.toFrame.forM (fun _ => hbind _) _

theorem keeps_meterEstimates (env : CallEnv) (kind : NodeKind) (payload : Value)
    (index : ℕ) (meters : List Meter) (estimates : Dict String Estimate)
    (approximate : List String) :
    Keeps (OnStore R)
      (meterEstimates H rt env kind payload index meters estimates approximate) := by
  induction meters generalizing index estimates approximate with
  | nil => exact hR.frame.pure _
  | cons meter meters ih =>
      rw [meterEstimates]
      split
      · exact hR.frame.throw _
      · exact hR.frame.bind (hR.frame.orRaise _) fun auditMeta =>
          hR.keeps_refuse rt env _ _ _ _ _ _ _ _ _ _
      · apply ih
      · apply ih

theorem keeps_estimatesOf (env : CallEnv) (kind : NodeKind) (payload : Value) :
    Keeps (OnStore R) (estimatesOf H rt env kind payload) := by
  refine hR.frame.bind (hR.keeps_meterEstimates rt env kind payload _ _ _ _) fun _ => ?_
  refine hR.frame.bind hR.frame.get fun s => ?_
  exact hR.frame.bind (hR.frame.orRaise _) fun _ => hR.frame.pure _

theorem keeps_checkScopes (env : CallEnv) (kind : NodeKind) (payload : Value)
    (estimates : Dict String Estimate) (approximate : List String) (scopes : List BudgetScope) :
    Keeps (OnStore R) (checkScopes H rt env kind payload estimates approximate scopes) := by
  induction scopes with
  | nil => exact hR.frame.pure _
  | cons scope scopes ih =>
      refine hR.frame.bind hR.frame.get fun s => ?_
      refine hR.frame.bind (hR.frame.orRaise _) fun spent => ?_
      dsimp only
      split
      · exact ih
      · exact hR.keeps_refuse rt env _ _ _ _ _ _ _ _ _ _

theorem keeps_precheck (env : CallEnv) (kind : NodeKind) (payload : Value) :
    Keeps (OnStore R) (precheck H rt env kind payload) := by
  refine hR.frame.bind (keeps_onStore (hR.keeps_validateSharedConfiguration rt)) fun _ => ?_
  refine hR.frame.bind (hR.keeps_estimatesOf rt env kind payload) fun found => ?_
  refine hR.frame.bind hR.frame.get fun s => ?_
  refine hR.frame.bind (hR.keeps_checkScopes rt env kind payload _ _ _) fun _ => ?_
  split
  · exact hR.frame.pure _
  · split
    · exact hR.frame.pure _
    · refine hR.frame.bind hR.frame.get fun s => ?_
      refine hR.frame.bind (hR.frame.orRaise _) fun budgets => ?_
      refine hR.frame.bind (hR.frame.orRaise _) fun windows => ?_
      split
      · exact hR.frame.pure _
      · refine hR.frame.bind (hR.frame.orRaise _) fun check => ?_
        split
        · exact hR.frame.bind (hR.keeps_modify fun _ => rfl) fun _ => hR.frame.pure _
        · exact hR.keeps_refuse rt env _ _ _ _ _ _ _ _ _ _

/-! ## Recordings -/

theorem keeps_addAvoided (charges : Dict String Value) :
    Keeps (OnStore R) (addAvoided charges) := by
  apply hR.frame.forM
  rintro ⟨name, amount⟩
  refine hR.frame.bind hR.frame.get fun s => ?_
  exact hR.frame.bind (hR.frame.orRaise _) fun amount => hR.keeps_modify fun _ => rfl

theorem keeps_recordAvoidedCharges (nodeId : String) (charges : Dict String Value) :
    Keeps (OnStore R) (recordAvoidedCharges nodeId charges) := by
  intro s
  unfold recordAvoidedCharges
  split
  · exact hR.refl s.store
  · refine hR.frame.bind_at (hR.frame.get s) fun _ _ hget => ?_
    cases hget
    refine hR.frame.bind_at (hR.frame.orRaise _ _) fun node _ hnode => ?_
    obtain ⟨-, rfl⟩ := orRaise_eq_ok hnode
    refine hR.frame.bind_at (hR.frame.orRaise _ _) fun totals _ htotals => ?_
    obtain ⟨-, rfl⟩ := orRaise_eq_ok htotals
    refine hR.frame.bind_at (hR.frame.orRaise _ _) fun store _ hstore => ?_
    obtain ⟨hupdate, rfl⟩ := orRaise_eq_ok hstore
    exact hR.keeps_set hupdate

theorem keeps_recordedNode (env : CallEnv) (kind : NodeKind) (payload : Value) (attempt : ℤ) :
    Keeps (OnStore R) (recordedNode H rt env kind payload attempt) := by
  refine hR.frame.bind hR.frame.get fun s => ?_
  refine hR.frame.bind (hR.frame.orRaise _) fun found => ?_
  cases found with
  | none => exact hR.frame.pure _
  | some node =>
      have htail : Keeps (OnStore R) (do
          setCursor node.id
          orRaise (reemitChunks env node)
          return some node : RunM (Option Node)) :=
        hR.frame.bind (hR.keeps_modify fun _ => rfl) fun _ =>
          hR.frame.bind (hR.frame.orRaise _) fun _ => hR.frame.pure _
      refine hR.frame.bind (hR.frame.orRaise _) fun charges => ?_
      refine hR.frame.bind (hR.keeps_addAvoided charges) fun _ => ?_
      split
      · exact hR.frame.bind (hR.keeps_recordAvoidedCharges node.id charges) fun _ => htail
      · exact htail

/-! ## Calls -/

theorem keeps_settleReservation (env : CallEnv) (reservation : Option Reservation)
    (charges : Dict String Value) :
    Keeps (OnStore R) (settleReservation rt env reservation charges) := by
  refine hR.frame.bind hR.frame.get fun s => ?_
  refine hR.frame.bind (hR.keeps_modify fun _ => rfl) fun _ => ?_
  split
  · exact hR.frame.pure _
  · split
    · exact hR.frame.bind (hR.frame.orRaise _) fun _ => hR.keeps_modify fun _ => rfl
    · exact hR.frame.pure _

theorem keeps_releaseReservation (env : CallEnv) (reservation : Option Reservation) :
    Keeps (OnStore R) (releaseReservation rt env reservation) := by
  unfold releaseReservation
  split
  · exact hR.frame.pure _
  · split
    · exact hR.frame.bind (hR.frame.orRaise _) fun _ => hR.keeps_modify fun _ => rfl
    · exact hR.frame.pure _

theorem keeps_settleScopes : Keeps (OnStore R) settleScopes := by
  refine hR.frame.bind hR.frame.get fun s => ?_
  refine hR.frame.bind (hR.keeps_modify fun _ => rfl) fun _ => ?_
  split
  · exact hR.keeps_modify fun _ => rfl
  · exact hR.frame.throw _

theorem keeps_recordUnknownOutcome (env : CallEnv) (failure : Failure) (kind : NodeKind)
    (payload : Value) (attempt : ℤ) (reservation : Option Reservation) (error : PyError)
    (leaseLost : Option String) :
    Keeps (OnStore R) (recordUnknownOutcome H rt env failure kind payload attempt reservation error
      leaseLost) := by
  refine hR.frame.bind (hR.frame.orRaise _) fun charges => ?_
  refine hR.frame.bind (hR.keeps_settleReservation rt env reservation charges).attempt
    fun settled => ?_
  refine hR.frame.bind (hR.frame.orRaise _) fun digest => ?_
  refine hR.frame.bind hR.frame.get fun s => ?_
  refine hR.frame.bind (hR.frame.orRaise _) fun note => ?_
  refine hR.frame.bind (Keeps.attempt ?_) fun _ => hR.frame.pure _
  exact hR.frame.bind (hR.keeps_record rt note) fun _ => hR.keeps_settleScopes

theorem keeps_dispatch (flavor : Flavor) (env : CallEnv) (keepChunks : Bool)
    (action : Option (Bool × List (ℕ × Decision))) (reservation : Option Reservation) :
    Keeps (OnStore R) (dispatch rt env flavor keepChunks action reservation) := by
  intro s
  unfold after
  rw [dispatch_apply]
  exact hR.refl s.store

theorem keeps_finishFailed (env : CallEnv) (kind : NodeKind) (payload : Value) (attempt : ℤ)
    (reservation : Option Reservation) (dispatched : Dispatched) (primary : PyError) :
    Keeps (OnStore R)
      (finishFailed H rt env kind payload attempt reservation dispatched primary) := by
  unfold finishFailed
  dsimp only
  split
  · exact hR.frame.bind (hR.keeps_recordUnknownOutcome rt env _ _ _ _ _ _ _) fun _ =>
      hR.frame.throw _
  · split
    · exact hR.frame.bind (hR.keeps_recordUnknownOutcome rt env _ _ _ _ _ _ _) fun _ =>
        hR.frame.throw _
    · exact hR.frame.bind (hR.keeps_releaseReservation rt env reservation).attempt fun _ =>
        hR.frame.throw _

theorem keeps_finishCompleted (env : CallEnv) (kind : NodeKind) (payload : Value) (attempt : ℤ)
    (reservation : Option Reservation) (dispatched : Dispatched) (result : Value) :
    Keeps (OnStore R)
      (finishCompleted H rt env kind payload attempt reservation dispatched result) := by
  unfold finishCompleted
  dsimp only
  split
  · exact hR.frame.bind (hR.keeps_recordUnknownOutcome rt env _ _ _ _ _ _ _) fun _ =>
      hR.frame.throw _
  · refine hR.frame.bind hR.frame.get fun s => ?_
    split
    · exact hR.frame.bind (hR.keeps_recordUnknownOutcome rt env _ _ _ _ _ _ _) fun _ =>
        hR.frame.throw _
    · refine hR.frame.bind (hR.keeps_settleReservation rt env reservation _) fun _ => ?_
      refine hR.frame.bind (hR.keeps_record rt _) fun node => ?_
      exact hR.frame.bind hR.keeps_settleScopes fun _ => hR.frame.orRaise _

theorem keeps_callReserved (flavor : Flavor) (env : CallEnv) (kind : NodeKind) (payload : Value)
    (attempt : ℤ) (keepChunks : Bool) (action : Option (Bool × List (ℕ × Decision)))
    (reservation : Option Reservation) :
    Keeps (OnStore R)
      (callReserved H rt flavor env kind payload attempt keepChunks action reservation) := by
  refine hR.frame.bind (hR.keeps_dispatch rt flavor env keepChunks action reservation)
    fun dispatched => ?_
  split
  · exact hR.keeps_finishFailed rt env _ _ _ _ _ _
  · exact hR.keeps_finishCompleted rt env _ _ _ _ _ _
  · exact hR.frame.throw _

theorem keeps_callWith (flavor : Flavor) (env : CallEnv) (kind : NodeKind) (payload : Value)
    (attempt : ℤ) (keepChunks : Bool) (action : Option (Bool × List (ℕ × Decision))) :
    Keeps (OnStore R) (callWith H rt flavor env kind payload attempt keepChunks action) := by
  refine hR.frame.bind (hR.frame.orRaise _) fun payload => ?_
  refine hR.frame.bind (hR.keeps_recordedNode rt env kind payload attempt) fun found => ?_
  cases found with
  | some node => exact hR.frame.pure _
  | none =>
      exact hR.frame.bind (hR.keeps_precheck rt env kind payload) fun reservation =>
        hR.keeps_callReserved rt flavor env kind payload attempt keepChunks action reservation

/-! ## Tools -/

theorem keeps_decidePolicy (env : CallEnv) (index : ℕ) :
    Keeps (OnStore R) (decidePolicy env index) :=
  hR.frame.bind hR.frame.get fun _ =>
    hR.frame.bind (hR.frame.orRaise _) fun _ => hR.frame.orRaise _

theorem keeps_durableApprovals (env : CallEnv) (spec : ActionSpec) (args : Value) (index : ℕ)
    (policies : List Policy) (consulted : List (ℕ × Decision)) :
    Keeps (OnStore R) (durableApprovals H rt env spec args index policies consulted) := by
  induction policies generalizing index consulted with
  | nil => exact hR.frame.pure _
  | cons policy policies ih =>
      rw [durableApprovals]
      split
      · refine hR.frame.bind (hR.keeps_decidePolicy env index) fun decision => ?_
        split
        · apply ih
        · exact hR.frame.bind (hR.frame.orRaise _) fun _ => hR.keeps_refusePolicy rt env _ _
      · apply ih

theorem keeps_checkDurableApprovals (env : CallEnv) (spec : ActionSpec) (args : Value) :
    Keeps (OnStore R) (checkDurableApprovals H rt env spec args) := by
  unfold checkDurableApprovals
  split
  · exact hR.frame.pure _
  · exact hR.keeps_durableApprovals rt env spec args _ _ _

theorem keeps_suspend {α : Type} (spec : ActionSpec) (args payload : Value) (attempt : ℤ)
    (consulted : List (ℕ × Decision)) :
    Keeps (OnStore R) (suspend H spec args payload attempt consulted : RunM α) := by
  refine hR.frame.bind hR.frame.get fun s => ?_
  refine hR.frame.bind (hR.frame.orRaise _) fun prepared => ?_
  exact hR.frame.bind (hR.keeps_modify fun _ => rfl) fun _ => hR.frame.throw _

theorem keeps_consultPolicies (env : CallEnv) (spec : ActionSpec) (args payload : Value)
    (attempt : ℤ) (index : ℕ) (policies : List Policy) (consulted : List (ℕ × Decision)) :
    Keeps (OnStore R)
      (consultPolicies H rt env spec args payload attempt index policies consulted) := by
  induction policies generalizing index consulted with
  | nil => exact hR.frame.pure _
  | cons policy policies ih =>
      rw [consultPolicies]
      split
      · apply ih
      · refine hR.frame.bind (hR.keeps_decidePolicy env index) fun decision => ?_
        cases decision with
        | deny => exact hR.keeps_refusePolicy rt env _ _
        | confirm => exact hR.keeps_suspend spec args payload attempt _
        | allow => apply ih
        | other => apply ih

theorem keeps_dryRunCall (env : CallEnv) (payload : Value) (attempt : ℤ) :
    Keeps (OnStore R) (dryRunCall H rt env payload attempt) := by
  refine hR.frame.bind (hR.keeps_precheck rt env _ payload) fun reservation => ?_
  refine hR.frame.bind (hR.keeps_settleReservation rt env reservation _) fun _ => ?_
  refine hR.frame.bind hR.frame.get fun s => ?_
  refine hR.frame.bind (hR.frame.orRaise _) fun node => ?_
  refine hR.frame.bind (hR.keeps_record rt node) fun _ => ?_
  exact hR.frame.bind hR.keeps_settleScopes fun _ => hR.frame.pure _

theorem keeps_dispatchRegistered (flavor : Flavor) (env : CallEnv) (spec : ActionSpec)
    (payload : Value) (attempt : ℤ) (consulted : List (ℕ × Decision)) :
    Keeps (OnStore R) (dispatchRegistered H rt flavor env spec payload attempt consulted) := by
  refine hR.frame.bind (hR.keeps_recordedNode rt env _ payload attempt) fun found => ?_
  cases found with
  | some node => exact hR.frame.pure _
  | none =>
      dsimp only
      split
      · exact hR.keeps_dryRunCall rt env payload attempt
      · split
        · exact hR.keeps_refusePolicy rt env _ _
        · exact hR.keeps_callWith rt flavor env _ _ _ _ _

theorem keeps_registeredToolCall (flavor : Flavor) (env : CallEnv) (registry : Registry)
    (name : String) (args : Value) (version : Option String) (attempt : ℤ) :
    Keeps (OnStore R)
      (registeredToolCall H rt flavor env registry name args version attempt) := by
  unfold registeredToolCall
  cases registry.specs.get? name with
  | none => exact hR.keeps_refusePolicy rt env _ _
  | some spec =>
      refine hR.frame.bind (hR.frame.orRaise _) fun auditArgs => ?_
      dsimp only
      split
      · exact hR.keeps_refusePolicy rt env _ _
      · refine hR.frame.bind (hR.frame.orRaise _) fun finding => ?_
        split
        · exact hR.keeps_refusePolicy rt env _ _
        · have hrest : Keeps (OnStore R) (do
              let approved ← checkDurableApprovals H rt env spec args
              let consulted ← consultPolicies H rt env spec args
                (registeredPayload registry spec auditArgs) attempt 0 rt.policies approved
              dispatchRegistered H rt flavor env spec
                (registeredPayload registry spec auditArgs) attempt consulted) :=
            hR.frame.bind (hR.keeps_checkDurableApprovals rt env spec args) fun approved =>
              hR.frame.bind (hR.keeps_consultPolicies rt env spec args _ attempt _ _ _) fun _ =>
                hR.keeps_dispatchRegistered rt flavor env spec _ attempt _
          split
          · refine hR.frame.bind (hR.keeps_recordedNode rt env _ _ attempt) fun found => ?_
            cases found with
            | some node => exact hR.frame.pure _
            | none => exact hR.frame.throw _
          · split
            · refine hR.frame.bind (hR.keeps_recordedNode rt env _ _ attempt) fun found => ?_
              cases found with
              | some node => exact hR.frame.throw _
              | none => exact hrest
            · exact hrest

theorem keeps_toolCall (flavor : Flavor) (env : CallEnv) (name : String) (args : Value)
    (passesFn : Bool) (version : Option String) (attempt : ℤ) :
    Keeps (OnStore R) (toolCall H rt flavor env name args passesFn version attempt) := by
  unfold toolCall
  split
  · exact hR.keeps_registeredToolCall rt flavor env _ name args version attempt
  · split
    · exact hR.keeps_callWith rt flavor env _ _ _ _ _
    · exact hR.frame.throw _

theorem keeps_confirm (flavor : Flavor) (env : CallEnv) (token : String) :
    Keeps (OnStore R) (confirm H rt flavor env token) := by
  refine hR.frame.bind hR.frame.get fun s => ?_
  split
  · exact hR.frame.throw _
  · refine hR.frame.bind (hR.keeps_modify fun _ => rfl) fun _ => ?_
    split
    · exact hR.frame.throw _
    · refine hR.frame.bind (hR.keeps_checkDurableApprovals rt env _ _) fun approved => ?_
      split
      · exact hR.keeps_refusePolicy rt env _ _
      · exact hR.keeps_callWith rt flavor env _ _ _ _ _

/-! ## Notes, branches and the cursor -/

theorem keeps_note (env : CallEnv) (payload : Value) (attempt : ℤ) :
    Keeps (OnStore R) (note H rt env payload attempt) := by
  refine hR.frame.bind hR.frame.get fun s => ?_
  refine hR.frame.bind (hR.frame.orRaise _) fun node => ?_
  split
  · exact hR.keeps_record rt node
  · exact hR.frame.bind (hR.keeps_precheck rt env _ payload) fun _ => hR.keeps_record rt node

theorem keeps_branch (env : CallEnv) (attempt : ℤ) (budget : Option Budget) :
    Keeps (OnStore R) (branch H rt env attempt budget) := by
  refine hR.frame.bind hR.frame.get fun s => ?_
  refine hR.frame.bind (hR.frame.orRaise _) fun anchor => ?_
  have htail : Keeps (OnStore R) (do
      let anchor ← onStore (putNode H rt anchor)
      let s ← get
      return s.run.child anchor.id budget : RunM Run) :=
    hR.frame.bind (keeps_onStore (hR.keeps_putNode rt anchor)) fun _ =>
      hR.frame.bind hR.frame.get fun _ => hR.frame.pure _
  split
  · exact htail
  · exact hR.frame.bind (hR.keeps_precheck rt env _ _) fun _ => htail

theorem keeps_rollback (nodeId : Option String) (steps : ℕ) :
    Keeps (OnStore R) (rollback nodeId steps) := by
  refine hR.frame.bind hR.frame.get fun s => ?_
  have htail : ∀ target, Keeps (OnStore R) (do
      ensureAncestor target
      setCursor target
      orRaise (s.store.get target) : RunM Node) := by
    intro target
    refine hR.frame.bind (hR.frame.bind hR.frame.get fun t => ?_) fun _ => ?_
    · split
      · exact hR.frame.pure _
      · exact hR.frame.throw _
    · exact hR.frame.bind (hR.keeps_modify fun _ => rfl) fun _ => hR.frame.orRaise _
  cases nodeId with
  | some target => exact htail target
  | none => exact hR.frame.bind (hR.frame.orRaise _) htail

theorem keeps_prune : Keeps (OnStore R) (prune rt) := by
  intro s
  unfold prune
  split
  · exact hR.refl s.store
  · refine hR.frame.bind_at (hR.frame.get s) fun _ _ hget => ?_
    cases hget
    refine hR.frame.bind_at (hR.frame.orRaise _ _) fun store _ hstore => ?_
    obtain ⟨hupdate, rfl⟩ := orRaise_eq_ok hstore
    exact hR.keeps_set hupdate

theorem keeps_perform (flavor : Flavor) (env : CallEnv) (op : Op) :
    Keeps (OnStore R) (op.perform H rt flavor env) := by
  cases op with
  | modelCall payload attempt keepChunks =>
      exact hR.frame.bind (hR.keeps_callWith rt flavor env _ _ _ _ _) fun _ => hR.frame.pure _
  | toolCall name args passesFn version attempt =>
      exact hR.frame.bind (hR.keeps_toolCall rt flavor env _ _ _ _ _) fun _ => hR.frame.pure _
  | confirm token =>
      exact hR.frame.bind (hR.keeps_confirm rt flavor env token) fun _ => hR.frame.pure _
  | note payload attempt =>
      exact hR.frame.bind (hR.keeps_note rt env payload attempt) fun _ => hR.frame.pure _
  | branch attempt budget =>
      exact hR.frame.bind (hR.keeps_branch rt env attempt budget) fun _ => hR.frame.pure _
  | rollback nodeId steps =>
      exact hR.frame.bind (hR.keeps_rollback nodeId steps) fun _ => hR.frame.pure _
  | prune => exact hR.frame.bind (hR.keeps_prune rt) fun _ => hR.frame.pure _

/-! ## Runs -/

theorem keeps_bindRegistry (rootId : String) : Keeps R (bindRegistry rt rootId) := by
  intro store
  unfold bindRegistry
  split
  · exact hR.refl store
  · refine hR.toFrame.bind_at (hR.refl store) fun _ _ hget => ?_
    cases hget
    refine hR.toFrame.bind_at (hR.toFrame.orRaise _ _) fun root _ hroot => ?_
    obtain ⟨-, rfl⟩ := orRaise_eq_ok hroot
    split
    · split
      · exact hR.refl store
      · exact hR.refl store
    · split
      · exact hR.refl store
      · refine hR.toFrame.bind_at (hR.toFrame.orRaise _ _) fun after _ hafter => ?_
        obtain ⟨hupdate, rfl⟩ := orRaise_eq_ok hafter
        exact hR.updateMeta hupdate

theorem keeps_runScopes (rootId : String) (budget : Option Budget) :
    Keeps R (runScopes H rt rootId budget) :=
  hR.toFrame.bind (hR.keeps_validateSharedConfiguration rt) fun _ => hR.toFrame.pure _

theorem keeps_storedRoot (writes : Bool) (root : Node) : Keeps R (storedRoot H rt writes root) := by
  unfold storedRoot
  split
  · exact hR.keeps_putNode rt root
  · exact hR.toFrame.bind hR.toFrame.get fun _ => hR.toFrame.orRaise _

theorem keeps_openedRun (resumes : Bool) (label : String) (budget : Option Budget) (attempt : ℤ) :
    Keeps R (openedRun H rt resumes label budget attempt) := by
  unfold openedRun
  split
  · refine hR.toFrame.bind (hR.toFrame.orRaise _) fun root => ?_
    refine hR.toFrame.bind (hR.keeps_storedRoot rt _ root) fun root => ?_
    refine hR.toFrame.bind (hR.keeps_bindRegistry rt root.id) fun _ => ?_
    refine hR.toFrame.bind (hR.keeps_runScopes rt root.id budget) fun scopes => ?_
    refine hR.toFrame.bind hR.toFrame.get fun store => ?_
    exact hR.toFrame.bind (hR.toFrame.orRaise _) fun _ => hR.toFrame.pure _
  · refine hR.toFrame.bind (hR.toFrame.orRaise _) fun root => ?_
    refine hR.toFrame.bind hR.toFrame.get fun store => ?_
    refine hR.toFrame.bind (hR.keeps_storedRoot rt _ root) fun root => ?_
    refine hR.toFrame.bind (hR.keeps_bindRegistry rt root.id) fun _ => ?_
    exact hR.toFrame.bind (hR.keeps_runScopes rt root.id budget) fun _ => hR.toFrame.pure _

theorem step (w : World) (input : Input) : R w.store (w.step H rt input).store := by
  unfold World.step
  cases input with
  | opened resumes label budget attempt =>
      have hopened := hR.keeps_openedRun rt resumes label budget attempt
      dsimp only
      split
      · next hrun => exact hopened.of_ok hrun
      · next hrun => exact hopened.of_error hrun
  | acted index flavor env op =>
      dsimp only
      split
      · exact hR.refl w.store
      · have hperformed := hR.keeps_perform rt flavor env op
        split
        · next hrun => exact hperformed.of_ok hrun
        · next hrun => exact hperformed.of_error hrun

/-- Whatever the runs of a runtime do, and in whatever order. -/
theorem run (w : World) (inputs : List Input) : R w.store (w.run H rt inputs).store := by
  apply Machine.preserved_run (fun v : World => R w.store v.store)
  · intro v input h
    exact hR.trans h (hR.step rt v input)
  · exact hR.refl w.store

end Written

/-- No run ever changes the kind, the parent, the attempt, the payload or the result of a node
that is stored. -/
theorem nodes_kept (H : Hashing) (rt : Runtime) (w : World) (inputs : List Input) :
    w.store.Kept (w.run H rt inputs).store :=
  (MemoryStore.kept H).run rt w inputs

end Pollard
