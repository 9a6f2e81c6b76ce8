import Pollard.Runtime.Revalidation
import Pollard.Runtime.Writes

/-!
# A revalidation leaves the recording alone

Whatever the live function and the comparator do, no stored node changes but in its metadata.
Once the live call has returned, its observation is a new node, one note is below it, and the
cursor is at the recording.
-/

namespace Pollard

open Lib Effect

section Runtime

variable {H : Hashing} {rt : Runtime}

/-! ## Nothing stored changes -/

namespace Written

variable {R : MemoryStore → MemoryStore → Prop}

theorem keeps_callMetered (hR : Written H R) (flavor : Flavor) (env : CallEnv) (kind : NodeKind)
    (payload meterPayload : Value) (attempt : ℤ) (keepChunks : Bool) :
    Keeps (OnStore R)
      (callMetered H rt flavor env kind payload meterPayload attempt keepChunks) := by
  refine hR.frame.bind (hR.frame.orRaise _) fun payload => ?_
  refine hR.frame.bind (hR.frame.orRaise _) fun meterPayload => ?_
  refine hR.frame.bind (hR.keeps_recordedNode rt env kind payload attempt) fun found => ?_
  cases found with
  | some node => exact hR.frame.pure _
  | none =>
      exact hR.frame.bind (hR.keeps_precheck rt env kind meterPayload) fun reservation =>
        hR.keeps_callReserved rt flavor env kind payload attempt keepChunks none reservation

theorem keeps_recordEvidence (hR : Written H R) (env : CallEnv) (prepared : PreparedRevalidation)
    (live : Node) (recorded result : Value) :
    Keeps (OnStore R) (recordEvidence H rt env prepared live recorded result) := by
  refine hR.frame.bind (hR.frame.orRaise _) fun comparison => ?_
  refine hR.frame.bind (hR.frame.orRaise _) fun payload => ?_
  refine hR.frame.bind (hR.frame.orRaise _) fun evidence => ?_
  exact hR.frame.bind (keeps_onStore (hR.keeps_putNode rt evidence)) fun _ => hR.frame.pure _

theorem keeps_recordFailure (hR : Written H R) (env : CallEnv) (prepared : PreparedRevalidation)
    (live : Node) (recorded result : Value) (error : PyError) :
    Keeps (OnStore R) (recordFailure H rt env prepared live recorded result error) := by
  refine hR.frame.bind (hR.frame.orRaise _) fun payload => ?_
  refine hR.frame.bind (hR.frame.orRaise _) fun failure => ?_
  exact keeps_onStore (hR.keeps_putNode rt failure)

theorem keeps_finishModelRevalidation (hR : Written H R) (env : CallEnv)
    (prepared : PreparedRevalidation) (live : Node) :
    Keeps (OnStore R) (finishModelRevalidation H rt env prepared live) := by
  unfold finishModelRevalidation
  split
  · refine hR.frame.bind (hR.keeps_recordEvidence env prepared live _ _).attempt fun tried => ?_
    cases tried with
    | ok report => exact hR.frame.bind (hR.keeps_modify fun _ => rfl) fun _ => hR.frame.pure _
    | error error =>
        refine hR.frame.bind (hR.keeps_recordFailure env prepared live _ _ error).attempt
          fun _ => ?_
        exact hR.frame.bind (hR.keeps_modify fun _ => rfl) fun _ => hR.frame.throw _
  · exact hR.frame.throw _

theorem keeps_revalidateModelCall (hR : Written H R) (flavor : Flavor) (env : CallEnv)
    (payload : List (String × Value)) (contract : ReplayContract) (comparator : Comparator)
    (livePayload : Option (List (String × Value))) (attempt : ℤ)
    (observationId : Option PyString) (uuid : String) (keepChunks : Bool) :
    Keeps (OnStore R) (revalidateModelCall H rt flavor env payload contract comparator livePayload
      attempt observationId uuid keepChunks) := by
  refine hR.frame.bind hR.frame.get fun s => ?_
  refine hR.frame.bind (hR.frame.orRaise _) fun prepared => ?_
  refine hR.frame.bind (hR.keeps_callMetered flavor env _ _ _ _ _) fun live => ?_
  exact hR.keeps_finishModelRevalidation env prepared live

end Written

/-! ## What is prepared -/

/-- A recording was found, and its observation has a payload of its own. -/
structure PreparedRevalidation.Sound (H : Hashing) (prepared : PreparedRevalidation)
    (store : MemoryStore) (cursorId : String) : Prop where
  recorded : store.find? prepared.recorded.id = some prepared.recorded
  result : ∃ entries, prepared.recorded.result = some (.dict entries)
  identity : (Value.dict prepared.observationPayload).isIdentity = true
  fresh : store.contains
    (H.nodeId .modelCall (some cursorId) 0 (.dict prepared.observationPayload)) = false
  observationId : prepared.observationId.value.isIdentity = true
  comparatorName : prepared.comparatorName.value.isIdentity = true

theorem makeRevalidationPayload_ok {payload marked : List (String × Value)}
    {observationId comparatorName : PyString} {recordedNodeId recordedResultDigest : String}
    {contract : ReplayContract}
    (h : makeRevalidationPayload payload observationId recordedNodeId recordedResultDigest contract
      comparatorName = .ok marked) :
    (Value.dict marked).isIdentity = true ∧ observationId.value.isIdentity = true ∧
      comparatorName.value.isIdentity = true := by
  unfold makeRevalidationPayload at h
  obtain ⟨_, -, h⟩ := Fallible.bind_ok_iff.mp h
  obtain ⟨_, -, h⟩ := Fallible.bind_ok_iff.mp h
  obtain ⟨metadata, -, h⟩ := Fallible.bind_ok_iff.mp h
  split at h
  · cases h
  · obtain ⟨bytes, hbytes, h⟩ := Fallible.bind_ok_iff.mp h
    cases h
    obtain ⟨rfl, hidentity⟩ := Value.isIdentity_of_canonicalBytes hbytes
    rw [Value.isIdentity_canonical] at hidentity
    have hmetadata : (Value.dict _).isIdentity = true :=
      Value.isIdentity_get? hidentity (by rw [Value.get?, Assoc.lookup_upsert, if_pos rfl])
    have hmarker : (revalidationMarker _ _ _ _ _).isIdentity = true :=
      Value.isIdentity_get? hmetadata (by rw [Value.get?, Assoc.lookup_upsert, if_pos rfl])
    exact ⟨hidentity, @Value.isIdentity_get? _ _ "observation_id" hmarker rfl,
      @Value.isIdentity_get? _ _ "comparator" hmarker rfl⟩

theorem prepareModelRevalidation_ok {store : MemoryStore} {cursorId : String}
    {payload : List (String × Value)} {contract : ReplayContract} {comparator : Comparator}
    {livePayload : Option (List (String × Value))} {attempt : ℤ}
    {observationId : Option PyString} {uuid : String} {prepared : PreparedRevalidation}
    (h : prepareModelRevalidation H rt store cursorId payload contract comparator livePayload
      attempt observationId uuid = .ok prepared) :
    rt.mode = .record ∧ prepared.Sound H store cursorId := by
  unfold prepareModelRevalidation at h
  split at h
  · cases h
  · next hmode =>
      split at h
      · cases h
      · obtain ⟨⟨comparatorName, compare⟩, -, h⟩ := Fallible.bind_ok_iff.mp h
        obtain ⟨identityPayload, -, h⟩ := Fallible.bind_ok_iff.mp h
        obtain ⟨found, hfound, h⟩ := Fallible.bind_ok_iff.mp h
        cases found with
        | none => cases h
        | some recorded =>
            dsimp only at h
            split at h
            · next entries hresult =>
                obtain ⟨recordedContract, -, h⟩ := Fallible.bind_ok_iff.mp h
                obtain ⟨liveIdentity, -, h⟩ := Fallible.bind_ok_iff.mp h
                obtain ⟨_, -, h⟩ := Fallible.bind_ok_iff.mp h
                obtain ⟨observation, hobservation, h⟩ := Fallible.bind_ok_iff.mp h
                obtain ⟨candidate, hcandidate, h⟩ := Fallible.bind_ok_iff.mp h
                split at h
                · cases h
                · next hfresh =>
                    cases h
                    obtain ⟨hidentity, hid, hname⟩ := makeRevalidationPayload_ok hobservation
                    rw [Node.eq_of_make hcandidate] at hfresh
                    refine ⟨not_not.mp hmode, recordedNodeOrMissing_found H _ hfound,
                      ⟨entries, hresult⟩, hidentity, ?_, hid, hname⟩
                    exact Bool.eq_false_iff.mpr hfresh
            · cases h

/-! ## The live observation -/

theorem Flavor.consume_dict {flavor : Flavor} {onDelta : Option (ℕ → Except PyError Unit)}
    {keepChunks : Bool} {produced : Produced} {result : Value}
    (h : flavor.consume onDelta keepChunks produced = .ok result) :
    ∃ entries, result = .dict entries := by
  have hstream : ∀ items ending, consumeStream onDelta keepChunks items ending = .ok result →
      ∃ entries, result = .dict entries := by
    intro items ending hconsume
    unfold consumeStream at hconsume
    split at hconsume
    · cases hconsume
      exact ⟨_, rfl⟩
    · split at hconsume <;> cases hconsume
  cases flavor <;> cases produced <;>
    first
      | exact hstream _ _ h
      | cases h; exact ⟨_, rfl⟩
      | cases h

/-- A result is a dictionary. -/
theorem dispatched_result {flavor : Flavor} {env : CallEnv} {keepChunks : Bool}
    {reservation : Option Reservation} {result : Value}
    (h : (dispatched rt flavor env keepChunks reservation).2.result = some result) :
    ∃ entries, result = .dict entries := by
  unfold dispatched at h
  split at h
  · cases h
  · split at h
    · cases h
    · dsimp only at h
      cases hconsumed : env.produced.bind (flavor.consume env.onDelta keepChunks) with
      | error error =>
          rw [hconsumed] at h
          cases h
      | ok value =>
          rw [hconsumed] at h
          cases h
          obtain ⟨produced, -, hconsume⟩ := Fallible.bind_ok_iff.mp hconsumed
          exact Flavor.consume_dict hconsume

theorem record_ok {node stored : Node} {s t : Session} (hmode : rt.mode ≠ .replay)
    (h : record H rt node s = .ok stored t) :
    s.store.put H node = .ok t.store ∧ t.store.get node.id = .ok stored := by
  unfold record at h
  obtain ⟨written, m, hput, h⟩ := bind_eq_ok h
  cases h
  unfold onStore focus at hput
  rw [putNode_apply H rt node s.store hmode] at hput
  cases hwrite : s.store.put H node with
  | error e =>
      rw [hwrite] at hput
      cases hput
  | ok after =>
      rw [hwrite] at hput
      dsimp only at hput
      cases hget : after.get node.id with
      | error e =>
          rw [hget] at hput
          cases hput
      | ok found =>
          rw [hget] at hput
          cases hput
          exact ⟨rfl, hget⟩

theorem completedNode_make {env : CallEnv} {kind : NodeKind} {payload : Value} {attempt : ℤ}
    {reservation : Option Reservation} {cursorId : String} {measurements : List ℕ}
    {result : Value} {leaseLost : Option String} {charges : Dict String Value} {node : Node}
    (h : completedNode H rt env kind payload attempt reservation cursorId measurements result
      leaseLost = .ok (charges, node)) :
    ∃ metadata, Node.make H kind (some cursorId) payload attempt (some result) metadata =
      .ok node := by
  unfold completedNode at h
  obtain ⟨readings, -, h⟩ := Fallible.bind_ok_iff.mp h
  obtain ⟨⟨priced, fallbacks⟩, -, h⟩ := Fallible.bind_ok_iff.mp h
  obtain ⟨made, hmade, h⟩ := Fallible.bind_ok_iff.mp h
  cases h
  exact ⟨_, hmade⟩

theorem reportLeaseLost_ok {leaseLost : Option String} {reservation : Option Reservation}
    {node reported : Node} (h : reportLeaseLost leaseLost reservation node = .ok reported) :
    reported = node := by
  unfold reportLeaseLost at h
  split at h
  · cases h
  · exact (Except.ok.inj h).symm

theorem settleScopes_store {s t : Session} {u : Unit} (h : settleScopes s = .ok u t) :
    t.store = s.store := by
  have hreviewed : t = s.reviewed := by simpa only [after, h] using after_settleScopes s
  rw [hreviewed]
  rfl

theorem settleReservation_ok {env : CallEnv} {reservation : Option Reservation}
    {charges : Dict String Value} {s t : Session} {u : Unit}
    (h : settleReservation rt env reservation charges s = .ok u t) :
    t.store = s.store ∧ t.run = s.run := by
  rcases settleReservation_apply rt env reservation charges s with ⟨-, hsettled⟩ | ⟨-, e, hfailed⟩
  · rw [hsettled] at h
    cases h
    exact ⟨rfl, rfl⟩
  · rw [hfailed] at h
    cases h

theorem finishFailed_ne_ok {env : CallEnv} {kind : NodeKind} {payload : Value} {attempt : ℤ}
    {reservation : Option Reservation} {block : Dispatched} {primary : PyError} {s t : Session}
    {node : Node} :
    finishFailed H rt env kind payload attempt reservation block primary s ≠ .ok node t := by
  intro h
  unfold finishFailed at h
  split at h
  · obtain ⟨_, _, -, h⟩ := bind_eq_ok h
    cases h
  · split at h
    · obtain ⟨_, _, -, h⟩ := bind_eq_ok h
      cases h
    · obtain ⟨_, _, -, h⟩ := bind_eq_ok h
      cases h

/-- A call that returns after its precheck has put the node of its result. -/
theorem callReserved_ok {flavor : Flavor} {env : CallEnv} {kind : NodeKind} {payload : Value}
    {attempt : ℤ} {keepChunks : Bool} {action : Option (Bool × List (ℕ × Decision))}
    {reservation : Option Reservation} {s t : Session} {live : Node} (hmode : rt.mode ≠ .replay)
    (h : callReserved H rt flavor env kind payload attempt keepChunks action reservation s =
      .ok live t) :
    ∃ node entries metadata, Node.make H kind (some s.run.cursorId) payload attempt
        (some (.dict entries)) metadata = .ok node ∧
      s.store.put H node = .ok t.store ∧ t.store.get node.id = .ok live := by
  unfold callReserved at h
  rw [bind_of_ok (dispatch_apply ..)] at h
  cases hprimary : (dispatched rt flavor env keepChunks reservation).2.primaryError with
  | some primary =>
      rw [hprimary] at h
      exact absurd h finishFailed_ne_ok
  | none =>
      cases hresult : (dispatched rt flavor env keepChunks reservation).2.result with
      | none =>
          rw [hprimary, hresult] at h
          cases h
      | some result =>
          rw [hprimary, hresult] at h
          dsimp only at h
          obtain ⟨entries, rfl⟩ := dispatched_result hresult
          unfold finishCompleted at h
          generalize stopLease env (dispatched rt flavor env keepChunks reservation).2.lease =
            stopped at h
          obtain ⟨leaseLost, leaseError⟩ := stopped
          cases leaseError with
          | some error =>
              obtain ⟨_, _, -, h⟩ := bind_eq_ok h
              cases h
          | none =>
              dsimp only at h
              rw [bind_of_ok (get_apply _)] at h
              cases hcompleted : completedNode H rt env kind payload attempt reservation
                  s.run.cursorId (dispatched rt flavor env keepChunks reservation).2.measurements
                  (.dict entries) leaseLost with
              | error error =>
                  erw [hcompleted] at h
                  obtain ⟨_, _, -, h⟩ := bind_eq_ok h
                  cases h
              | ok completed =>
                  obtain ⟨charges, node⟩ := completed
                  erw [hcompleted] at h
                  obtain ⟨_, settled, hsettled, h⟩ := bind_eq_ok h
                  obtain ⟨stored, recorded, hrecorded, h⟩ := bind_eq_ok h
                  obtain ⟨_, reviewed, hreviewed, h⟩ := bind_eq_ok h
                  obtain ⟨hreported, rfl⟩ := orRaise_eq_ok h
                  obtain ⟨metadata, hmade⟩ := completedNode_make hcompleted
                  obtain ⟨hput, hget⟩ := record_ok hmode hrecorded
                  obtain rfl := reportLeaseLost_ok hreported
                  rw [settleScopes_store hreviewed]
                  rw [(settleReservation_ok hsettled).1] at hput
                  exact ⟨node, entries, metadata, hmade, hput, hget⟩

/-- A new call below the cursor: besides roots it is all that is new, and nothing is below it. -/
structure Observed (H : Hashing) (payload : Value) (cursorId : String) (before : MemoryStore)
    (live : Node) (after : MemoryStore) : Prop where
  found : after.find? live.id = some live
  named : live.id = live.expectedId H
  kind : live.kind = .modelCall
  payload : live.payload = payload.canonical
  result : ∃ entries, live.result = some (.dict entries)
  new : before.contains live.id = false
  only : ∀ node ∈ after.nodes, node.kind ≠ .root → node = live ∨ node ∈ before.nodes
  childless : ∀ node ∈ after.nodes, node.parent ≠ some live.id

/-- A node that got a new id has no children yet. -/
theorem MemoryStore.Added.childless {store after : MemoryStore} {node : Node}
    (h : store.Added node after) : ∀ other ∈ after.nodes, other.parent ≠ some node.id := by
  intro other hother hparent
  rw [h.2.2] at hother
  rcases List.mem_cons.mp hother with rfl | hother
  · have hmem : other ∈ after.nodes := by
      rw [h.2.2]
      exact List.mem_cons_self
    exact MemoryStore.parent_ne hmem hparent
  · have hedge : (other.id, some node.id) ∈ store.edges := by
      rw [← hparent]
      exact List.mem_map_of_mem hother
    exact MemoryStore.find?_eq_none_iff.mp h.1 (store.grounded.parent_mem hedge)

theorem callMetered_ok {flavor : Flavor} {env : CallEnv} {payload meterPayload : Value}
    {keepChunks : Bool} {s t : Session} {live : Node} (hmode : rt.mode = .record)
    (hfresh : s.store.contains (H.nodeId .modelCall (some s.run.cursorId) 0 payload) = false)
    (h : callMetered H rt flavor env .modelCall payload meterPayload 0 keepChunks s =
      .ok live t) :
    Observed H payload s.run.cursorId s.store live t.store := by
  have hreplay : rt.mode ≠ .replay := by
    rw [hmode]
    decide
  unfold callMetered at h
  obtain ⟨canonical, _, hcanonical, h⟩ := bind_eq_ok h
  obtain ⟨hbytes, rfl⟩ := orRaise_eq_ok hcanonical
  obtain ⟨rfl, -⟩ := Value.isIdentity_of_canonicalBytes hbytes
  obtain ⟨metered, _, hmetered, h⟩ := bind_eq_ok h
  obtain ⟨-, rfl⟩ := orRaise_eq_ok hmetered
  obtain ⟨found, _, hfound, h⟩ := bind_eq_ok h
  obtain ⟨rfl, rfl⟩ := recordedNode_record H rt env hmode hfound
  obtain ⟨reservation, m, hprecheck, h⟩ := bind_eq_ok h
  have hpassed := (precheck_ok H rt env hprecheck).1
  obtain ⟨node, entries, metadata, hmade, hput, hget⟩ := callReserved_ok hreplay h
  have hid : node.id = H.nodeId .modelCall (some s.run.cursorId) 0 payload := by
    rw [Node.eq_of_make hmade, hpassed.run]
    simp only [Hashing.nodeId, Value.canonical_canonical]
  have hkind : node.kind = .modelCall := by rw [Node.eq_of_make hmade]
  have hadded : m.store.Added node t.store := by
    rcases MemoryStore.put_cases hput with hadded | ⟨existing, hexisting, hsame, -⟩
    · exact hadded
    · -- a call of this identity would have been there before the precheck, which adds roots
      have hcalls : existing.kind = .modelCall := by
        rw [← hkind]
        exact congrArg Identity.kind hsame
      obtain ⟨hmem, hexistingId⟩ := MemoryStore.mem_of_find? hexisting
      have hbefore := hpassed.store.rooted existing hmem (by rw [hcalls]; decide)
      have hcontains := MemoryStore.contains_of_find? (MemoryStore.find?_of_mem hbefore)
      rw [hexistingId, hid, hfresh] at hcontains
      cases hcontains
  have hlive : live = node := by
    have hfind := hadded.find?_self
    rw [MemoryStore.get, hfind] at hget
    exact (Except.ok.inj hget).symm
  subst hlive
  have hnamed : live.id = live.expectedId H := by
    rw [Node.eq_of_make hmade]
    rfl
  refine ⟨hadded.find?_self, hnamed, hkind, ?_, ⟨entries, ?_⟩, hid ▸ hfresh, ?_, hadded.childless⟩
  · rw [Node.eq_of_make hmade]
  · rw [Node.eq_of_make hmade]
  · intro other hother hroot
    rw [hadded.2.2] at hother
    rcases List.mem_cons.mp hother with rfl | hother
    · exact .inl rfl
    · exact .inr (hpassed.store.rooted other hother hroot)

/-! ## The note -/

/-- A note below a node without children is new. -/
theorem putNode_note {env : CallEnv} {live note : Node} {payload : Value} {store : MemoryStore}
    (hmode : rt.mode ≠ .replay) (hfree : store.CollisionFree H)
    (hlive : store.find? live.id = some live) (hnamed : live.id = live.expectedId H)
    (hchildless : ∀ node ∈ store.nodes, node.parent ≠ some live.id)
    (hmade : revalidationNote H env live payload = .ok note) :
    ∃ after, store.Added note after ∧ putNode H rt note store = .ok note after := by
  have hnote := Node.eq_of_make hmade
  have hid : note.id = note.expectedId H := by
    rw [hnote]
    rfl
  have hparent : note.parent = some live.id := by rw [hnote]
  have hkind : note.kind = .note := by rw [hnote]
  obtain ⟨after, hput⟩ := MemoryStore.put_ok hid (by rw [hkind]; exact nofun)
    (by
      intro p hp
      rw [hparent] at hp
      cases hp
      exact MemoryStore.contains_of_find? hlive) (hfree.same hid)
  refine ⟨after, ?_⟩
  have hadded : store.Added note after := by
    rcases MemoryStore.put_cases hput with hadded | ⟨existing, hexisting, hsame, -⟩
    · exact hadded
    · obtain ⟨hmem, -⟩ := MemoryStore.mem_of_find? hexisting
      have hbelow : existing.parent.getD "" = live.id := by
        calc existing.parent.getD "" = note.parent.getD "" := congrArg Identity.parent hsame
          _ = live.id := by rw [hparent, Option.getD_some]
      cases hold : existing.parent with
      | none =>
          rw [hold, Option.getD_none] at hbelow
          apply absurd hbelow.symm
          rw [hnamed]
          apply hfree.nonempty
      | some above =>
          rw [hold, Option.getD_some] at hbelow
          exact absurd (hold.trans (congrArg some hbelow)) (hchildless existing hmem)
  refine ⟨hadded, ?_⟩
  rw [putNode_apply H rt note store hmode, hput]
  dsimp only
  rw [MemoryStore.get, hadded.find?_self]

/-- The event of a note of a revalidation that returned a report, or raised. -/
def revalidationEvent (returned : Bool) : String :=
  if returned then "model_revalidation" else "model_revalidation_comparison_failed"

/-- The store got a note of a revalidation. -/
structure Evidenced (returned : Bool) (live note : Node) (before after : MemoryStore) : Prop where
  added : before.Added note after
  kind : note.kind = .note
  parent : note.parent = some live.id
  event : note.payload.get? "event" = some (.str (revalidationEvent returned))

theorem evidenced_of_made {env : CallEnv} {live note : Node} {payload : Value} {returned : Bool}
    {before after : MemoryStore} (hadded : before.Added note after)
    (hmade : revalidationNote H env live payload = .ok note)
    (hevent : payload.get? "event" = some (.str (revalidationEvent returned))) :
    Evidenced returned live note before after := by
  have hnote := Node.eq_of_make hmade
  exact ⟨hadded, by rw [hnote], by rw [hnote], by rw [hnote]; exact hevent⟩

theorem revalidationNote_made {env : CallEnv} {live : Node} {payload : Value}
    (hidentity : payload.isIdentity = true) :
    ∃ note, revalidationNote H env live payload = .ok note := by
  refine ⟨_, Node.make_ok (by decide) (by simp) (Value.canonicalBytes_ok hidentity) le_rfl ?_⟩
  exact Dict.forall_values_set (P := fun v => Value.isJson v = true) (by simp [Dict.values]) rfl

section Finish

variable {env : CallEnv} {prepared : PreparedRevalidation} {live : Node} {s : Session}
  (hmode : rt.mode ≠ .replay) (hfree : s.store.CollisionFree H)
  (hlive : s.store.find? live.id = some live) (hnamed : live.id = live.expectedId H)
  (hchildless : ∀ node ∈ s.store.nodes, node.parent ≠ some live.id)

include hmode hfree hlive hnamed hchildless

/-- The `try` block leaves its evidence and returns, or raises and leaves nothing. -/
theorem recordEvidence_cases (recorded result : Value) :
    (∃ report note after, recordEvidence H rt env prepared live recorded result s =
        .ok report { s with store := after } ∧ Evidenced true live note s.store after) ∨
    ∃ error, recordEvidence H rt env prepared live recorded result s = .error error s := by
  unfold recordEvidence
  dsimp only
  rw [bind_apply]
  cases compareResults prepared recorded result with
  | error error => exact .inr ⟨error, rfl⟩
  | ok comparison =>
      rw [orRaise_ok]
      dsimp only
      rw [bind_apply]
      cases hpayload : makeRevalidationEvidence prepared live.id (H.result recorded.canonical)
          (H.result result.canonical) comparison (recorded.canonical = result.canonical) with
      | error error => exact .inr ⟨error, rfl⟩
      | ok payload =>
          rw [orRaise_ok]
          dsimp only
          rw [bind_apply]
          cases hmade : revalidationNote H env live payload with
          | error error => exact .inr ⟨error, rfl⟩
          | ok note =>
              rw [orRaise_ok]
              dsimp only
              obtain ⟨after, hadded, hput⟩ :=
                putNode_note hmode hfree hlive hnamed hchildless hmade
              obtain ⟨_, -, rfl⟩ := Fallible.map_ok_iff.mp hpayload
              rw [bind_apply, onStore, focus, hput]
              exact .inl ⟨_, note, after, rfl, evidenced_of_made hadded hmade rfl⟩

/-- The handler leaves a note. -/
theorem recordFailure_ok {store : MemoryStore} {cursorId : String}
    (hprepared : prepared.Sound H store cursorId) (recorded result : Value) (error : PyError) :
    ∃ note after, recordFailure H rt env prepared live recorded result error s =
      .ok note { s with store := after } ∧ Evidenced false live note s.store after := by
  obtain ⟨payload, hpayload, hidentity, hevent⟩ : ∃ payload,
      makeRevalidationFailureEvidence prepared live.id (H.result recorded.canonical)
        (H.result result.canonical) error = .ok payload ∧ payload.isIdentity = true ∧
          payload.get? "event" = some (.str (revalidationEvent false)) := by
    have hfields := hprepared.observationId
    have hname := hprepared.comparatorName
    refine ⟨_, Fallible.map_ok_iff.mpr ⟨_, Value.canonicalBytes_ok ?_, rfl⟩, ?_, rfl⟩ <;>
      simp [Value.isIdentity, Value.isIdentityEntries, hfields, hname]
  obtain ⟨note, hmade⟩ : ∃ note, revalidationNote H env live payload = .ok note :=
    revalidationNote_made hidentity
  obtain ⟨after, hadded, hput⟩ := putNode_note hmode hfree hlive hnamed hchildless hmade
  refine ⟨note, after, ?_, evidenced_of_made hadded hmade hevent⟩
  unfold recordFailure
  rw [hpayload, bind_of_ok (orRaise_ok _ _), hmade, bind_of_ok (orRaise_ok _ _), onStore, focus,
    hput]

/-- However the comparison ends, one note is left and the cursor is at the recording. -/
theorem finishModelRevalidation_noted {store : MemoryStore} {cursorId : String}
    (hprepared : prepared.Sound H store cursorId)
    (hresult : ∃ entries, live.result = some (.dict entries)) :
    ∃ returned note after, Evidenced returned live note s.store after ∧
      Effect.after (finishModelRevalidation H rt env prepared live) s =
        s.moved after prepared.recorded.id ∧
      (returned = true ↔
        ∃ report t, finishModelRevalidation H rt env prepared live s = .ok report t) := by
  obtain ⟨recorded, hrecorded⟩ := hprepared.result
  obtain ⟨entries, hentries⟩ := hresult
  simp only [finishModelRevalidation, hrecorded, hentries]
  rcases recordEvidence_cases hmode hfree hlive hnamed hchildless (.dict recorded)
    (.dict entries) with ⟨report, note, after, hevidence, hevidenced⟩ | ⟨error, hraised⟩
  · refine ⟨true, note, after, hevidenced, ?_,
      iff_of_true rfl ⟨report, s.moved after prepared.recorded.id, ?_⟩⟩
    · rw [after_bind, attempt, hevidence]
      rfl
    · rw [bind_apply, attempt, hevidence]
      rfl
  · obtain ⟨note, after, hfailure, hevidenced⟩ := recordFailure_ok hmode hfree hlive hnamed
      hchildless
      hprepared (.dict recorded) (.dict entries) error
    refine ⟨false, note, after, hevidenced, ?_, by rintro ⟨⟩, ?_⟩
    · rw [after_bind, attempt, hraised]
      dsimp only
      rw [after_bind, attempt, hfailure]
      rfl
    · rintro ⟨report, t, hreturned⟩
      obtain ⟨tried, m, htried, h⟩ := bind_eq_ok hreturned
      rw [attempt, hraised] at htried
      cases htried
      obtain ⟨_, _, -, h⟩ := bind_eq_ok h
      obtain ⟨_, _, -, h⟩ := bind_eq_ok h
      cases h

end Finish

/-! ## Revalidations -/

/-- What a revalidation leaves once its live call has returned. -/
structure Revalidated (prepared : PreparedRevalidation) (live : Node) (returned : Bool)
    (before after : Session) : Prop where
  recorded : ∃ metadata,
    after.store.find? prepared.recorded.id = some { prepared.recorded with metadata }
  observed : after.store.find? live.id = some live
  payload : live.payload = (Value.dict prepared.observationPayload).canonical
  new : before.store.contains live.id = false
  apart : live.id ≠ prepared.recorded.id
  noted : ∃ note ∈ after.store.nodes, note.kind = .note ∧ note.parent = some live.id ∧
    note.payload.get? "event" = some (.str (revalidationEvent returned)) ∧
      before.store.contains note.id = false ∧
        ∀ node ∈ after.store.nodes, node.kind = .note → node = note ∨ node ∈ before.store.nodes
  cursor : after.run.cursorId = prepared.recorded.id

end Runtime

namespace Golden

def payload : List (String × Value) := [("model", .str "m")]

def recording : Identity := ⟨0, .modelCall, "root", .dict payload⟩

def contract : ReplayContract :=
  { provider := .str "provider", nonempty := by decide, encodable := by decide }

/-- The identity of the observation. -/
def observation : Identity :=
  ⟨0, .modelCall, "root", (Value.dict [("model", .str "m"),
    ("_pollard", .dict [("revalidation",
      revalidationMarker (.str "observation") "recording" "digest" contract
        (.str "exact"))])]).canonical⟩

/-- A hash that keeps the root, the recording and the observation apart. -/
def hashing : Hashing :=
  { Hashing.plain with
    node := fun identity =>
      if identity = guardedRoot then "root"
      else if identity = recording then "recording"
      else if identity = observation then "observation"
      else "note"
    result := fun _ => "digest" }

def runtime : Runtime where
  meters := []

/-- A run at its root, below which a call is recorded. -/
def session : Session :=
  (World.run hashing runtime { store := .empty }
    [.opened false "label" none 0,
      .acted 0 .sync .calm (.modelCall (.dict payload) 0 false)]).session guardedHandle

def comparator : Comparator where
  name := some (.str "exact")
  compare := some fun recorded live =>
    .ok (some ⟨decide (recorded = live), [], false, by decide, nofun, fun _ => ⟨rfl, rfl⟩⟩)

def revalidation (env : CallEnv) : RunM RevalidationReport :=
  revalidateModelCall hashing runtime .sync env payload contract comparator none 0
    (some (.str "observation")) "uuid" false

theorem collisionFree {store : MemoryStore}
    (h : store.nodes.map (fun node => (node.id, node.identity)) =
      [("observation", observation), ("recording", recording), ("root", guardedRoot)]) :
    store.CollisionFree hashing := by
  refine ⟨fun identity => ?_, fun node hnode identity hidentity => ?_⟩
  · simp only [hashing]
    split_ifs <;> decide
  · have hmem := List.mem_map_of_mem (f := fun node : Node => (node.id, node.identity)) hnode
    rw [h] at hmem
    simp only [List.mem_cons, List.not_mem_nil, or_false, Prod.mk.injEq] at hmem
    simp only [hashing] at hidentity
    rcases hmem with ⟨hid, hnode⟩ | ⟨hid, hnode⟩ | ⟨hid, hnode⟩ <;>
      rw [hid] at hidentity <;> rw [hnode] <;> split_ifs at hidentity <;> trivial

end Golden

end Pollard
