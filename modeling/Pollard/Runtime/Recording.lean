import Pollard.Runtime.Golden

/-!
# What is recorded

An operation that returns in record mode has put at most one node, below the cursor, after the
nodes of shared scopes.  A call that is recorded has a result, and no later put takes it away.
-/

namespace Pollard

open Lib Effect

/-- Calls are what has a result. -/
def NodeKind.isCall : NodeKind → Bool
  | modelCall | toolCall => true
  | _ => false

/-- The registry a root is bound to, as its metadata has it. -/
def Node.boundRegistry (node : Node) : Option Value :=
  (node.metadata.get? "registry_digest").filter fun digest => digest ≠ .none

/-! ## Stores -/

namespace MemoryStore

variable {H : Hashing}

/-- Every node has the id of its identity. -/
def Named (H : Hashing) (store : MemoryStore) : Prop :=
  ∀ node ∈ store.nodes, node.id = node.expectedId H

/-- Every call has a result. -/
def Answered (store : MemoryStore) : Prop :=
  ∀ node ∈ store.nodes, node.kind.isCall = true → node.result ≠ none

/-- Nodes stay as they are but for their metadata, and keep their registry and their
ancestors. -/
structure Recorded (H : Hashing) (before after : MemoryStore) : Prop where
  kept : ∀ id node, before.find? id = some node → ∃ metadata,
    after.find? id = some { node with metadata } ∧
      ∀ digest ∈ node.boundRegistry, { node with metadata }.boundRegistry = some digest
  ancestors : ∀ id, before.contains id = true → after.ancestors id = before.ancestors id
  named : before.Named H → after.Named H
  answered : before.Answered → after.Answered

theorem Recorded.refl (store : MemoryStore) : Recorded H store store :=
  ⟨fun _ node h => ⟨node.metadata, h, fun _ hdigest => hdigest⟩, fun _ _ => rfl, id, id⟩

theorem Recorded.contains {before after : MemoryStore} (h : Recorded H before after) {id : String}
    (hid : before.contains id = true) : after.contains id = true := by
  obtain ⟨node, hnode⟩ := Option.isSome_iff_exists.mp hid
  obtain ⟨metadata, hafter, -⟩ := h.kept id node hnode
  exact contains_of_find? hafter

theorem Recorded.trans {a b c : MemoryStore} (h : Recorded H a b) (h' : Recorded H b c) :
    Recorded H a c := by
  refine ⟨fun id node hnode => ?_, fun id hid => ?_, h'.named ∘ h.named,
    h'.answered ∘ h.answered⟩
  · obtain ⟨_, hb, hbound⟩ := h.kept id node hnode
    obtain ⟨metadata, hc, hbound'⟩ := h'.kept id _ hb
    exact ⟨metadata, hc, fun digest hdigest => hbound' digest (hbound digest hdigest)⟩
  · rw [h'.ancestors id (h.contains hid), h.ancestors id hid]

theorem recorded : Frame (Recorded H) := ⟨Recorded.refl, Recorded.trans⟩

theorem find?_of_get {store : MemoryStore} {id : String} {node : Node}
    (h : store.get id = .ok node) : store.find? id = some node := by
  unfold MemoryStore.get at h
  split at h
  · next hfind =>
      cases h
      exact hfind
  · cases h

theorem named_of_put {store after : MemoryStore} {node : Node} (h : store.put H node = .ok after) :
    node.id = node.expectedId H := by
  unfold put at h
  split at h
  · cases h
  · next hid => exact not_not.mp hid

theorem Recorded.replaceMeta {store : MemoryStore} {id : String} {existing : Node}
    {metadata : Dict String Value} (hfind : store.find? id = some existing)
    (hbound : ∀ digest ∈ existing.boundRegistry,
      { existing with metadata }.boundRegistry = some digest) :
    Recorded H store (store.replaceMeta id metadata) := by
  have hmem : ∀ node ∈ (store.replaceMeta id metadata).nodes, ∃ old ∈ store.nodes, ∃ metadata,
      node = { old with metadata } := by
    intro node hnode
    obtain ⟨old, hold, rfl⟩ := List.mem_map.mp hnode
    split
    · exact ⟨old, hold, metadata, rfl⟩
    · exact ⟨old, hold, old.metadata, rfl⟩
  refine ⟨fun other node hnode => ?_, fun _ _ => ancestors_replaceMeta _ _ _ _,
    fun hnamed node hnode => ?_, fun hanswered node hnode hkind => ?_⟩
  · rw [find?_replaceMeta, hnode, Option.map_some]
    split
    · next heq =>
        rw [← heq, (mem_of_find? hnode).2] at hfind
        rw [hnode] at hfind
        cases hfind
        exact ⟨metadata, rfl, hbound⟩
    · exact ⟨node.metadata, rfl, fun _ hdigest => hdigest⟩
  · obtain ⟨old, hold, metadata, rfl⟩ := hmem node hnode
    exact hnamed old hold
  · obtain ⟨old, hold, metadata, rfl⟩ := hmem node hnode
    exact hanswered old hold hkind

/-- A node that is put is there, with the result it had if it was there before. -/
theorem recorded_put {store after : MemoryStore} {node : Node} (h : store.put H node = .ok after)
    (hresult : node.kind.isCall = true → node.result ≠ none) :
    Recorded H store after ∧ ∃ stored, after.find? node.id = some stored ∧
      stored.identity = node.identity ∧
        (store.Answered → node.kind.isCall = true → stored.result ≠ none) := by
  have hid := named_of_put h
  rcases put_cases h with hadded | ⟨existing, hfind, hsame, hafter⟩
  · refine ⟨⟨fun id other hother => ?_, fun id hid => hadded.ancestors_of_contains hid,
      fun hnamed => ?_, fun hanswered => ?_⟩, node, hadded.find?_self, rfl, fun _ => hresult⟩
    · refine ⟨other.metadata, ?_, fun _ hdigest => hdigest⟩
      rw [hadded.find?_of_ne]
      · exact hother
      · rintro rfl
        rw [hadded.1] at hother
        cases hother
    · rw [Named, hadded.2.2]
      exact List.forall_mem_cons.mpr ⟨hid, hnamed⟩
    · rw [Answered, hadded.2.2]
      exact List.forall_mem_cons.mpr ⟨hresult, hanswered⟩
  · have hkind : existing.kind = node.kind := congrArg Identity.kind hsame
    have hexisting : store.Answered → node.kind.isCall = true → existing.result ≠ none :=
      fun hanswered hcall =>
        hanswered existing (mem_of_find? hfind).1 (hkind ▸ hcall)
    rcases hafter with rfl | ⟨metadata, rfl, hkeys⟩
    · exact ⟨.refl _, existing, hfind, hsame, hexisting⟩
    · have hbound : { existing with metadata }.boundRegistry = existing.boundRegistry := by
        unfold Node.boundRegistry
        rw [hkeys "registry_digest" (by decide)]
      refine ⟨.replaceMeta hfind fun digest hdigest => hbound.trans hdigest,
        { existing with metadata }, ?_, hsame, hexisting⟩
      rw [find?_replaceMeta, hfind, Option.map_some, if_pos (mem_of_find? hfind).2]

end MemoryStore

section Runtime

variable {H : Hashing} {rt : Runtime} {env : CallEnv}

open MemoryStore

/-! ## Shared scopes -/

theorem recorded_bindConfiguration {expected : Node} (hkind : expected.kind = .root) :
    Keeps (Recorded H) (bindConfiguration H rt expected) := by
  intro store
  unfold bindConfiguration
  apply recorded.bind_at (recorded.get store)
  intro _ _ hget
  cases hget
  split
  · exact recorded.bind (recorded.orRaise _)
      (fun _ => by split; exacts [recorded.throw _, recorded.pure _]) store
  · have htail : ∀ after : MemoryStore, Keeps (Recorded H) (do
        let actual ← orRaise (after.get expected.id)
        if verifyRecording H after actual.id ≠ .ok () ∨
            actual.resultText ≠ expected.resultText then
          throw (.integrityError s!"shared scope configuration does not match: {expected.id}")
        : StoreM Unit) := fun after => recorded.bind (recorded.orRaise _)
      fun _ => by split; exacts [recorded.throw _, recorded.pure _]
    by_cases hin : store.contains expected.id = true
    · rw [if_pos hin]
      exact htail store store
    · rw [if_neg hin]
      cases hput : store.put H expected with
      | error e => exact recorded.refl store
      | ok after =>
          have hcall : expected.kind.isCall = true → expected.result ≠ none := by
            rw [hkind]
            exact fun h => (by cases h)
          exact recorded.trans (recorded_put hput hcall).1 (htail after after)

theorem recorded_validateSharedConfiguration :
    Keeps (Recorded H) (validateSharedConfiguration H rt) := by
  have hbind : ∀ made : Except PyError Node, (∀ node, made = .ok node → node.kind = .root) →
      Keeps (Recorded H)
        (do let node ← orRaise made; bindConfiguration H rt node : StoreM Unit) :=
    fun made h => recorded.bind_orRaise fun node hnode =>
      recorded_bindConfiguration (h node hnode)
  unfold validateSharedConfiguration
  split
  · exact recorded.pure _
  · split
    · exact recorded.throw _
    · refine recorded.bind (recorded.forM (fun scope => hbind _ fun node hnode => ?_) _) fun _ =>
        recorded.forM (fun window => hbind _ fun node hnode => ?_) _
      · rw [Node.eq_of_make hnode]
      · rw [Node.eq_of_make hnode]

/-- A precheck that passes has at most bound the shared scopes. -/
theorem precheck_recorded {kind : NodeKind} {payload : Value} {s t : Session}
    {reservation : Option Reservation}
    (h : precheck H rt env kind payload s = .ok reservation t) :
    Recorded H s.store t.store ∧ t.run = s.run := by
  refine ⟨?_, (precheck_ok H rt env h).1.run⟩
  unfold precheck at h
  obtain ⟨_, m, hvalid, h⟩ := bind_eq_ok h
  have hbound : Recorded H s.store m.store := by
    have hkeeps : Keeps (OnStore (Recorded H)) (onStore (validateSharedConfiguration H rt)) :=
      keeps_onStore recorded_validateSharedConfiguration
    exact hkeeps.of_ok hvalid
  obtain ⟨found, n, hfound, h⟩ := bind_eq_ok h
  obtain ⟨rfl, -⟩ := estimatesOf_ok H rt env hfound
  obtain ⟨estimates, approximate⟩ := found
  dsimp only at h
  rw [bind_of_ok (get_apply _)] at h
  obtain ⟨_, n, hscopes, h⟩ := bind_eq_ok h
  obtain ⟨rfl, -⟩ := checkScopes_ok H rt env hscopes
  split at h
  · cases h
    exact hbound
  · split at h
    · cases h
      exact hbound
    · rw [bind_of_ok (get_apply _)] at h
      obtain ⟨budgets, k, hbudgets, h⟩ := bind_eq_ok h
      obtain ⟨-, rfl⟩ := orRaise_eq_ok hbudgets
      obtain ⟨windows, k, hwindows, h⟩ := bind_eq_ok h
      obtain ⟨-, rfl⟩ := orRaise_eq_ok hwindows
      split at h
      · cases h
        exact hbound
      · obtain ⟨check, k, hcheck, h⟩ := bind_eq_ok h
        obtain ⟨-, rfl⟩ := orRaise_eq_ok hcheck
        split at h
        · rw [bind_of_ok (emit_apply _ _)] at h
          cases h
          exact hbound
        · exact absurd h (refuse_ne_ok H rt env)

/-! ## Calls -/

/-- Where a run is, in which tree. -/
def Run.place (run : Run) : String × String × String := (run.rootId, run.label, run.cursorId)

theorem settleScopes_place {s t : Session} {u : Unit} (h : settleScopes s = .ok u t) :
    t.run.place = s.run.place := by
  have hreviewed : t = s.reviewed := by simpa only [after, h] using after_settleScopes s
  rw [hreviewed]
  rfl

/-- A record that returns has put its node and moved the cursor to it. -/
theorem record_moves {node stored : Node} {s t : Session} (hmode : rt.mode ≠ .replay)
    (h : record H rt node s = .ok stored t) :
    s.store.put H node = .ok t.store ∧
      t.run.place = (s.run.rootId, s.run.label, node.id) := by
  rcases record_apply H rt node s hmode with ⟨error, -, hrecord⟩ | ⟨store, found, hput, -, hrecord⟩
  · rw [hrecord] at h
    cases h
  · rw [hrecord] at h
    cases h
    exact ⟨hput, rfl⟩

theorem finishCompleted_moves {env : CallEnv} {kind : NodeKind} {payload : Value}
    {attempt : ℤ} {reservation : Option Reservation} {block : Dispatched} {result : Value}
    {s t : Session} {live : Node} (hmode : rt.mode ≠ .replay)
    (h : finishCompleted H rt env kind payload attempt reservation block result s = .ok live t) :
    ∃ node metadata, Node.make H kind (some s.run.cursorId) payload attempt (some result)
        metadata = .ok node ∧
      s.store.put H node = .ok t.store ∧ t.run.place = (s.run.rootId, s.run.label, node.id) := by
  unfold finishCompleted at h
  generalize stopLease env block.lease = stopped at h
  obtain ⟨leaseLost, leaseError⟩ := stopped
  cases leaseError with
  | some error =>
      obtain ⟨_, _, -, h⟩ := bind_eq_ok h
      cases h
  | none =>
      dsimp only at h
      rw [bind_of_ok (get_apply _)] at h
      cases hcompleted : completedNode H rt env kind payload attempt reservation s.run.cursorId
          block.measurements result leaseLost with
      | error error =>
          rw [hcompleted] at h
          obtain ⟨_, _, -, h⟩ := bind_eq_ok h
          cases h
      | ok completed =>
          obtain ⟨charges, node⟩ := completed
          rw [hcompleted] at h
          obtain ⟨_, settled, hsettled, h⟩ := bind_eq_ok h
          obtain ⟨stored, m, hrecorded, h⟩ := bind_eq_ok h
          obtain ⟨_, reviewed, hreviewed, h⟩ := bind_eq_ok h
          obtain ⟨-, rfl⟩ := orRaise_eq_ok h
          obtain ⟨metadata, hmade⟩ := completedNode_make hcompleted
          obtain ⟨hput, hplace⟩ := record_moves hmode hrecorded
          obtain ⟨hstore, hrun⟩ := settleReservation_ok hsettled
          rw [hstore] at hput
          rw [hrun] at hplace
          refine ⟨node, metadata, hmade, ?_, (settleScopes_place hreviewed).trans hplace⟩
          rw [settleScopes_store hreviewed]
          exact hput

theorem callReserved_moves {flavor : Flavor} {kind : NodeKind} {payload : Value} {attempt : ℤ}
    {keepChunks : Bool} {action : Option (Bool × List (ℕ × Decision))}
    {reservation : Option Reservation} {s t : Session} {live : Node} (hmode : rt.mode ≠ .replay)
    (h : callReserved H rt flavor env kind payload attempt keepChunks action reservation s =
      .ok live t) :
    ∃ node result metadata, Node.make H kind (some s.run.cursorId) payload attempt
        (some result) metadata = .ok node ∧
      s.store.put H node = .ok t.store ∧ t.run.place = (s.run.rootId, s.run.label, node.id) := by
  unfold callReserved at h
  rw [bind_of_ok (dispatch_apply ..)] at h
  cases hprimary : (dispatched rt flavor env keepChunks reservation).2.primaryError with
  | some primary =>
      rw [hprimary] at h
      exact absurd h finishFailed_ne_ok
  | none =>
      cases hresult : (dispatched rt flavor env keepChunks reservation).2.result with
      | none =>
          rw [hprimary, hresult] at h
          cases h
      | some result =>
          rw [hprimary, hresult] at h
          obtain ⟨node, metadata, hmade, hput, hplace⟩ := finishCompleted_moves hmode h
          exact ⟨node, result, metadata, hmade, hput, hplace⟩

end Runtime

end Pollard
