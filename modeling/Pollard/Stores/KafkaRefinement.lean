import Pollard.Stores.KafkaAgreement
import Pollard.Lib.Machine

/-!
# The Kafka store against the in-memory store

As long as a command that repeats an earlier one finds the view as it would leave it, the
view of the log and the in-memory store agree.
-/

namespace Pollard.Stores.Kafka

open Lib

/-! ## Applied records -/

section View

variable {H : Hashing} {D : Digests} {storeId : String}

theorem applyPut_ok {operationId : String} {node : Node} {current after : View}
    (h : applyPut H operationId node current = .ok after) :
    after.operations = current.operations ∧
      (after.outcomes.get? operationId = some .ok →
        current.store.put H node = .ok after.store) := by
  unfold applyPut at h
  cases hvalid : validateForPut H node with
  | error e =>
      rw [hvalid] at h
      cases h
  | ok u =>
      rw [hvalid] at h
      cases h
      split
      · next hparent =>
          split
          · next hfind =>
              exact ⟨rfl, fun _ => put_ok_iff.mpr ⟨hvalid, hparent, .added hfind rfl⟩⟩
          · next existing hfind =>
              split
              · refine ⟨rfl, fun hok => ?_⟩
                rw [View.finish, Dict.get?_set_self] at hok
                cases hok
              · next hidentity =>
                  exact ⟨rfl, fun _ => put_ok_iff.mpr
                    ⟨hvalid, hparent, .folded existing hfind (not_not.mp hidentity)⟩⟩
      · refine ⟨rfl, fun hok => ?_⟩
        rw [View.finish, Dict.get?_set_self] at hok
        cases hok

theorem applyPatch_ok {operationId nodeId : String} {patch : Dict String Value} {current : View} :
    (applyPatch operationId nodeId patch current).operations = current.operations ∧
      ((applyPatch operationId nodeId patch current).outcomes.get? operationId = some .ok →
        current.store.updateMeta nodeId patch =
          .ok (applyPatch operationId nodeId patch current).store) := by
  unfold applyPatch MemoryStore.updateMeta MemoryStore.get
  cases hfind : current.store.find? nodeId with
  | none =>
      refine ⟨rfl, fun hok => ?_⟩
      rw [View.finish, Dict.get?_set_self] at hok
      cases hok
  | some node => exact ⟨rfl, fun _ => rfl⟩

/-- The node a request stands for. -/
def storedNode (node : Node) : Node :=
  { node with
    payload := node.payload.canonical
    result := node.resultText
    metadata := jsonText node.metadata }

theorem nodeFromRecord_ok {offset : ℕ} {node found : Node}
    (h : nodeFromRecord H offset (nodeRecord H node) = .ok found) : found = storedNode node := by
  unfold nodeFromRecord Node.fromStorage at h
  split at h
  · cases h
  · next n hn =>
      split at h
      · cases h
      · cases h
        split at hn
        · cases hn
        · simp only [nodeRecord, NodeKind.ofValue?_value] at hn
          generalize Node.checkFields _ _ _ _ _ _ = checked at hn
          cases checked with
          | error e => cases hn
          | ok u =>
              cases hn
              rfl

/-- What applying a record that is new to the view does. -/
inductive Applies (H : Hashing) (current : View) (operationId : String) :
    Request → View → Prop
  | put {offset : ℕ} {record : NodeRecord} {node : Node} {after : View}
      (hnode : nodeFromRecord H offset record = .ok node)
      (happly : applyPut H operationId node current = .ok after) :
      Applies H current operationId (.put record) after
  | patch {nodeId : String} {patch : Dict String Value} :
      Applies H current operationId (.patch nodeId patch)
        (applyPatch operationId nodeId patch current)

theorem Applies.operations {current after : View} {operationId : String} {request : Request}
    (h : Applies H current operationId request after) :
    after.operations = current.operations := by
  cases h with
  | put hnode happly => exact (applyPut_ok happly).1
  | patch => exact applyPatch_ok.1

/-- A record is absorbed or applied. -/
theorem applyMessage_ok {offset : ℕ} {current next : View} {e : Event}
    (h : applyMessage H D storeId offset current e = .ok next) :
    e = event D storeId e.request ∧
      ((current.operations.get? e.operationId = some e.requestDigest ∧ next = current) ∨
        current.operations.get? e.operationId = none ∧
          ∃ after, Applies H current e.operationId e.request after ∧
            next = { after with
              operations := after.operations.set e.operationId e.requestDigest }) := by
  unfold applyMessage at h
  split at h
  · cases h
  · split at h
    · cases h
    · split at h
      · cases h
      · next hevent =>
          refine ⟨not_not.mp hevent, ?_⟩
          cases hprevious : current.operations.get? e.operationId with
          | some previous =>
              rw [hprevious] at h
              dsimp only at h
              split at h
              · cases h
              · next hdigest =>
                  cases h
                  exact .inl ⟨by rw [not_not.mp hdigest], rfl⟩
          | none =>
              rw [hprevious] at h
              dsimp only at h
              refine .inr ⟨rfl, ?_⟩
              cases hrequest : e.request with
              | patch nodeId patch =>
                  rw [hrequest] at h
                  cases h
                  exact ⟨_, .patch, rfl⟩
              | put record =>
                  rw [hrequest] at h
                  dsimp only at h
                  cases hnode : nodeFromRecord H offset record with
                  | error error =>
                      rw [hnode] at h
                      cases h
                  | ok node =>
                      rw [hnode] at h
                      simp only [bind, Except.bind] at h
                      cases happly : applyPut H e.operationId node current with
                      | error error =>
                          rw [happly] at h
                          cases h
                      | ok after =>
                          rw [happly] at h
                          cases h
                          exact ⟨after, .put hnode happly, rfl⟩

variable (D storeId) in
/-- A record that is well formed and known to the view. -/
structure Known (current : View) (e : Event) : Prop where
  formed : e = event D storeId e.request
  known : current.operations.get? e.operationId = some e.requestDigest

variable (H D storeId) in
theorem absorbing : Replay.Absorbing (applyMessage H D storeId) (Known D storeId) where
  applies h := by
    obtain ⟨hformed, ⟨hknown, rfl⟩ | ⟨-, after, -, rfl⟩⟩ := applyMessage_ok h
    · exact ⟨hformed, hknown⟩
    · exact ⟨hformed, Dict.get?_set_self _ _ _⟩
  kept := by
    intro offset current e next other h hother
    refine ⟨hother.formed, ?_⟩
    obtain ⟨-, ⟨-, rfl⟩ | ⟨hnone, after, happlies, rfl⟩⟩ := applyMessage_ok h
    · exact hother.known
    · dsimp only
      rw [happlies.operations, Dict.get?_set_of_ne, hother.known]
      intro heq
      rw [heq, hother.known] at hnone
      cases hnone
  absorbs := by
    intro current e offset hknown
    obtain ⟨hformed, hknown⟩ := hknown
    unfold applyMessage
    have hkey : e.key = storeId := by rw [hformed]; rfl
    have hstore : e.storeId = storeId := by rw [hformed]; rfl
    rw [if_neg (not_not.mpr hkey), if_neg (not_not.mpr hstore), if_neg (not_not.mpr hformed),
      hknown]
    dsimp only
    rw [if_neg (not_not.mpr rfl)]

/-! ## Commands -/

/-- A command that returns was known, or it was appended and applied. -/
theorem submit_ok {log after : List Event} {current : View} {request : Request}
    (hview : view H D storeId log = .ok current)
    (h : submit H D storeId log current request = .ok after) :
    (current.operations.contains (D.operation request) = true ∧ after = log) ∨
      current.operations.contains (D.operation request) = false ∧
        ∃ applied next, Applies H current (D.operation request) request applied ∧
          applied.outcomes.get? (D.operation request) = some .ok ∧
          next.store = applied.store ∧ view H D storeId after = .ok next := by
  unfold submit appendCommand at h
  dsimp only [event] at h
  cases hknown : current.operations.contains (D.operation request) with
  | true =>
      rw [hknown, if_pos rfl] at h
      left
      refine ⟨rfl, ?_⟩
      simp only [bind, Except.bind] at h
      split at h <;> cases h
      rfl
  | false =>
      rw [hknown, if_neg Bool.false_ne_true] at h
      right
      refine ⟨rfl, ?_⟩
      cases happly : applyMessage H D storeId log.length current (event D storeId request) with
      | error e =>
          rw [event] at happly
          rw [happly] at h
          cases h
      | ok next =>
          obtain ⟨-, ⟨hsome, -⟩ | ⟨-, applied, happlies, rfl⟩⟩ := applyMessage_ok happly
          · rw [Dict.contains] at hknown
            dsimp only [event] at hsome
            rw [hsome] at hknown
            cases hknown
          · have hlog : view H D storeId (log ++ [event D storeId request]) =
                .ok { applied with
                  operations :=
                    applied.operations.set (D.operation request) (D.request request) } := by
              unfold view at hview ⊢
              rw [Replay.replay_append, hview]
              simp only [Except.bind, Nat.zero_add, Replay.replay, happly]
              rfl
            rw [event] at happly
            rw [happly] at h
            simp only [bind, Except.bind, Except.map, raiseOutcome] at h
            refine ⟨applied, { applied with
              operations := applied.operations.set (D.operation request) (D.request request) },
              happlies, ?_, rfl, ?_⟩
            · split at h
              · cases h
              · next houtcome =>
                  split at houtcome
                  · cases houtcome
                  · next hok => exact hok
                  · cases houtcome
                  · cases houtcome
            · split at h
              · cases h
              · cases h
                exact hlog

/-- The request a command sends. -/
def Command.request (H : Hashing) : Command → Request
  | .put node => .put (nodeRecord H node)
  | .updateMeta nodeId patch => .patch nodeId (jsonText patch)

/-- The store holds what the command would leave. -/
def Idle (H : Hashing) (store : MemoryStore) : Command → Prop
  | .put node => ∃ existing ∈ store.find? node.id, ∀ result ∈ node.result,
      node.resultText = existing.resultText ∨
        (conflictOf H result).canonical ∈
          (MemoryStore.resultConflicts existing).map Value.canonical
  | .updateMeta nodeId patch => ∃ node ∈ store.find? nodeId, ∀ e ∈ patch.entries,
      (node.metadata.get? e.1).map Value.canonical = some e.2.canonical

/-- The label of a root is not changed by writing its payload. -/
def Labelled : Command → Prop
  | .put node => node.parent = none →
      node.payload.canonical.get? "run" = node.payload.get? "run"
  | .updateMeta _ _ => True

theorem sameNode_storedNode {node : Node} (h : Labelled (.put node)) :
    SameNode (storedNode node) node where
  id := rfl
  parent := rfl
  kind := rfl
  attempt := rfl
  payload := Value.canonical_canonical _
  label := h
  result := by
    rw [Node.resultText, storedNode, Node.resultText, Option.map_map]
    exact congrArg (fun f => node.result.map f) (funext Value.canonical_canonical)
  metadata := fun key _ => by
    rw [storedNode, get?_jsonText, Option.map_map]
    exact congrArg (fun f => (node.metadata.get? key).map f) (funext Value.canonical_canonical)
  conflicts := .inl (by
    rw [storedNode, get?_jsonText, Option.map_map]
    exact congrArg (fun f => (node.metadata.get? "result_conflicts").map f)
      (funext Value.canonical_canonical))

variable (D) in
/-- A command that repeats an earlier one finds the view as it would leave it. -/
def RepeatsIdle (H : Hashing) (current : View) (command : Command) : Prop :=
  current.operations.contains (D.operation (command.request H)) = true →
    Idle H current.store command

theorem replaceMeta_self {store : MemoryStore} {id : String} {node : Node}
    (h : store.find? id = some node) : store.replaceMeta id node.metadata = store := by
  obtain ⟨nodes, hgrounded⟩ := store
  refine MemoryStore.mk.injEq .. |>.mpr ?_
  refine (List.map_congr_left fun other hother => ?_).trans (List.map_id nodes)
  split
  · next hid =>
      have hfind : MemoryStore.find? ⟨nodes, hgrounded⟩ other.id = some other :=
        MemoryStore.find?_of_mem hother
      rw [hid, h, Option.some.injEq] at hfind
      rw [hfind]
      rfl
  · rfl

/-- Accepting a node whose put is known leaves the view; the in-memory store only lists a
conflict again. -/
theorem put_again {current memory : MemoryStore} {node : Node} (hagrees : Agrees current memory)
    (hvalid : validateForPut H node = .ok ())
    (hparent : ∀ p ∈ node.parent, current.contains p = true)
    (hidentity : ∀ existing ∈ current.find? node.id, existing.identity = node.identity)
    (hidle : Idle H current (.put node)) :
    ∃ after, memory.put H node = .ok after ∧ Agrees current after := by
  obtain ⟨x, hx, hheld⟩ := hidle
  obtain ⟨y, hy, hsame⟩ := hagrees.find?_some hx
  have hparent' : ∀ p ∈ node.parent, memory.contains p = true := fun p hp => by
    rw [← hagrees.contains p]
    exact hparent p hp
  refine ⟨_, put_ok_iff.mpr ⟨hvalid, hparent', .folded y hy ?_⟩, ?_⟩
  · rw [← hsame.identity]
    exact hidentity x hx
  · unfold foldResult
    cases hresult : node.result with
    | none => exact hagrees
    | some result =>
        dsimp only
        split
        · exact hagrees
        · next hne =>
            have hlisted := (hheld result hresult).resolve_left (hsame.result ▸ hne)
            rw [(MemoryStore.mem_of_find? hy).2, ← replaceMeta_self hx]
            exact hagrees.replaceMeta hx hy (hsame.withConflictsAgain
              (sameConflicts_again H hsame.conflicts ((hsame.conflicts.listed _).mp hlisted)))

theorem put_parts {log after : List Event} {node : Node}
    (h : Kafka.put H D storeId log node = .ok after) :
    ∃ current, validateForPut H node = .ok () ∧ view H D storeId log = .ok current ∧
      (∀ p ∈ node.parent, current.store.contains p = true) ∧
      (∀ existing ∈ current.store.find? node.id, existing.identity = node.identity) ∧
      submit H D storeId log current (.put (nodeRecord H node)) = .ok after := by
  unfold Kafka.put at h
  cases hvalid : validateForPut H node with
  | error e =>
      rw [hvalid] at h
      cases h
  | ok u =>
      cases hview : view H D storeId log with
      | error e =>
          rw [hvalid, hview] at h
          cases h
      | ok current =>
          rw [hvalid, hview] at h
          simp only [bind, Except.bind] at h
          split at h
          · cases h
          · next hparent =>
              split at h
              · cases h
              · next hidentity =>
                  refine ⟨current, rfl, rfl, not_not.mp hparent, fun existing hexisting => ?_, h⟩
                  rw [Option.mem_def] at hexisting
                  simpa [hexisting] using hidentity

theorem updateMeta_parts {log after : List Event} {nodeId : String}
    {patch : Dict String Value} (h : Kafka.updateMeta H D storeId log nodeId patch = .ok after) :
    ∃ current, view H D storeId log = .ok current ∧ current.store.contains nodeId = true ∧
      submit H D storeId log current (.patch nodeId (jsonText patch)) = .ok after := by
  unfold Kafka.updateMeta at h
  split at h
  · cases h
  · cases hview : view H D storeId log with
    | error e =>
        rw [hview] at h
        cases h
    | ok current =>
        rw [hview] at h
        simp only [bind, Except.bind] at h
        split at h
        · cases h
        · next hcontains => exact ⟨current, rfl, by simpa using hcontains, h⟩

/-- A command that the log accepts does the same to the in-memory store. -/
theorem execute_simulates {log after : List Event} {current : View} {memory : MemoryStore}
    {command : Command} (hview : view H D storeId log = .ok current)
    (hagrees : Agrees current.store memory)
    (h : command.execute H D storeId log = .ok after)
    (hrepeat : RepeatsIdle D H current command) (hlabel : Labelled command) :
    ∃ next memory', view H D storeId after = .ok next ∧
      command.executeInMemory H memory = .ok memory' ∧ Agrees next.store memory' := by
  cases command with
  | put node =>
      obtain ⟨found, hvalid, hfound, hparent, hidentity, hsubmit⟩ := put_parts h
      rw [hview, Except.ok.injEq] at hfound
      subst hfound
      rcases submit_ok hview hsubmit with ⟨hknown, rfl⟩ |
        ⟨-, applied, next, happlies, hok, hstore, hnext⟩
      · obtain ⟨memory', hput, hafter⟩ :=
          put_again hagrees hvalid hparent hidentity (hrepeat hknown)
        exact ⟨current, memory', hview, hput, hafter⟩
      · cases happlies with
        | put hnode happly =>
            rw [nodeFromRecord_ok hnode] at happly
            obtain ⟨memory', hput, hafter⟩ :=
              hagrees.put (sameNode_storedNode hlabel) ((applyPut_ok happly).2 hok)
            exact ⟨next, memory', hnext, hput, hstore ▸ hafter⟩
  | updateMeta nodeId patch =>
      obtain ⟨found, hfound, hcontains, hsubmit⟩ := updateMeta_parts h
      rw [hview, Except.ok.injEq] at hfound
      subst hfound
      obtain ⟨x, hx⟩ := Option.isSome_iff_exists.mp hcontains
      obtain ⟨y, hy, hsame⟩ := hagrees.find?_some hx
      have hupdate : memory.updateMeta nodeId patch = .ok (memory.replaceMeta nodeId
          (patch.entries.foldl (fun m e => m.set e.1 e.2) y.metadata)) := by
        unfold MemoryStore.updateMeta MemoryStore.get
        rw [hy]
        rfl
      rcases submit_ok hview hsubmit with ⟨hknown, rfl⟩ |
        ⟨-, applied, next, happlies, hok, hstore, hnext⟩
      · obtain ⟨x', hx', hheld⟩ := hrepeat hknown
        rw [Option.mem_def, hx, Option.some.injEq] at hx'
        subst hx'
        refine ⟨current, _, hview, hupdate, ?_⟩
        rw [← replaceMeta_self hx]
        exact hagrees.replaceMeta hx hy (hsame.patchedAgain hheld)
      · cases happlies with
        | patch =>
            refine ⟨next, _, hnext, hupdate, ?_⟩
            rw [hstore, applyPatch, hx]
            exact hagrees.replaceMeta hx hy (hsame.patched patch)

end View

/-! ## Runs -/

section Runs

variable (H : Hashing) (D : Digests) (storeId : String)

/-- The log after a command, unless the store rejects it. -/
def advance (log : List Event) (issued : Issued) : List Event :=
  match step H D storeId log issued with
  | .ok after => after
  | .error _ => log

/-- Every command is accepted, and one that repeats an earlier one finds the view as it
would leave it. -/
def AcceptedIdle (log : List Event) (issued : Issued) : Prop :=
  (step H D storeId log issued).isOk = true ∧
    ∀ current ∈ (view H D storeId log).toOption, RepeatsIdle D H current issued.command

/-- The in-memory store after the same commands. -/
def runInMemory (store : MemoryStore) (inputs : List Issued) : Except PyError MemoryStore :=
  inputs.foldlM (fun store issued => issued.command.executeInMemory H store) store

variable {H D storeId}

theorem step_simulates {log after : List Event} {current : View} {memory : MemoryStore}
    {issued : Issued} (hview : view H D storeId log = .ok current)
    (hagrees : Agrees current.store memory) (h : step H D storeId log issued = .ok after)
    (hrepeat : RepeatsIdle D H current issued.command) (hlabel : Labelled issued.command) :
    ∃ next memory', view H D storeId after = .ok next ∧
      issued.command.executeInMemory H memory = .ok memory' ∧ Agrees next.store memory' := by
  unfold step at h
  cases hexecute : issued.command.execute H D storeId log with
  | error e =>
      rw [hexecute] at h
      cases h
  | ok executed =>
      rw [hexecute] at h
      cases h
      obtain ⟨next, memory', hnext, hmemory, hafter⟩ :=
        execute_simulates hview hagrees hexecute hrepeat hlabel
      refine ⟨next, memory', ?_, hmemory, hafter⟩
      exact (absorbing H D storeId).replay_again hnext fun e he => by
        simpa using (List.mem_filter.mp he).2

theorem run_simulates {inputs : List Issued} {log : List Event} {current : View}
    {memory : MemoryStore} (hview : view H D storeId log = .ok current)
    (hagrees : Agrees current.store memory) (hlabels : ∀ i ∈ inputs, Labelled i.command)
    (hrun : Machine.Along (advance H D storeId) (AcceptedIdle H D storeId) log inputs) :
    ∃ next memory',
      view H D storeId (Machine.run (advance H D storeId) log inputs) = .ok next ∧
      runInMemory H memory inputs = .ok memory' ∧ Agrees next.store memory' := by
  induction inputs generalizing log current memory with
  | nil => exact ⟨current, memory, hview, rfl, hagrees⟩
  | cons issued inputs ih =>
      rw [List.forall_mem_cons] at hlabels
      obtain ⟨⟨haccepted, hrepeat⟩, hrest⟩ := hrun
      cases hstep : step H D storeId log issued with
      | error e =>
          rw [hstep] at haccepted
          cases haccepted
      | ok after =>
          have hadvance : advance H D storeId log issued = after := by
            rw [advance, hstep]
          obtain ⟨middle, memory', hmiddle, hmemory, hafter⟩ := step_simulates hview hagrees
            hstep (hrepeat current (by rw [hview]; rfl)) hlabels.1
          rw [hadvance] at hrest
          rw [Machine.run_cons, hadvance, runInMemory, List.foldlM_cons, hmemory]
          exact ih hmiddle hafter hlabels.2 hrest

/-! ## Reading a metadata key -/

/-- A command that does not set a key keeps its value. -/
theorem executeInMemory_keeps {store after : MemoryStore} {command : Command} {id key : String}
    {value : Value} (h : command.executeInMemory H store = .ok after)
    (hkey : key ≠ "result_conflicts")
    (hother : ∀ patch, command = .updateMeta id patch → patch.get? key = none)
    (hvalue : ∃ node, store.find? id = some node ∧ node.metadata.get? key = some value) :
    ∃ node, after.find? id = some node ∧ node.metadata.get? key = some value := by
  obtain ⟨node, hfind, hmeta⟩ := hvalue
  cases command with
  | put incoming =>
      rcases MemoryStore.put_cases h with hadded | ⟨existing, hexisting, -, rfl |
        ⟨metadata, rfl, hsame⟩⟩
      · refine ⟨node, ?_, hmeta⟩
        rw [hadded.find?_of_ne, hfind]
        rintro rfl
        rw [hadded.1] at hfind
        cases hfind
      · exact ⟨node, hfind, hmeta⟩
      · rw [MemoryStore.find?_replaceMeta, hfind]
        refine ⟨_, rfl, ?_⟩
        dsimp only
        split
        · next hid =>
            have hsameNode := hfind
            rw [← (MemoryStore.mem_of_find? hfind).2, hid, hexisting,
              Option.some.injEq] at hsameNode
            dsimp only
            rw [hsame key hkey, hsameNode, hmeta]
        · exact hmeta
  | updateMeta nodeId patch =>
      change store.updateMeta nodeId patch = .ok after at h
      unfold MemoryStore.updateMeta at h
      cases hget : store.get nodeId with
      | error e =>
          rw [hget] at h
          cases h
      | ok found =>
          rw [hget] at h
          cases h
          rw [MemoryStore.find?_replaceMeta, hfind]
          refine ⟨_, rfl, ?_⟩
          dsimp only
          split
          · next hid =>
              have hnode : node.id = id := (MemoryStore.mem_of_find? hfind).2
              have hpatch := hother patch (by rw [← hid, hnode])
              have hfound : found = node := by
                unfold MemoryStore.get at hget
                rw [← hid, hnode, hfind] at hget
                exact (Except.ok.inj hget).symm
              dsimp only
              rw [get?_patched, hpatch, hfound, hmeta]
              rfl
          · exact hmeta

/-- The value at a metadata key is the one set by the last command that set it. -/
theorem runInMemory_lastSet {store after : MemoryStore} {before later : List Issued}
    {issued : Issued} {id key : String} {patch : Dict String Value} {value : Value}
    (h : runInMemory H store (before ++ issued :: later) = .ok after)
    (hkey : key ≠ "result_conflicts") (hissued : issued.command = .updateMeta id patch)
    (hvalue : patch.get? key = some value)
    (hlater : ∀ i ∈ later, ∀ patch, i.command = .updateMeta id patch → patch.get? key = none) :
    ∃ node, after.find? id = some node ∧ node.metadata.get? key = some value := by
  have hrest : ∀ {start : MemoryStore} {inputs : List Issued},
      runInMemory H start inputs = .ok after →
      (∀ i ∈ inputs, ∀ patch, i.command = .updateMeta id patch → patch.get? key = none) →
      (∃ node, start.find? id = some node ∧ node.metadata.get? key = some value) →
      ∃ node, after.find? id = some node ∧ node.metadata.get? key = some value := by
    intro start inputs hrun hothers hheld
    induction inputs generalizing start with
    | nil =>
        cases hrun
        exact hheld
    | cons i inputs ih =>
        rw [List.forall_mem_cons] at hothers
        rw [runInMemory, List.foldlM_cons] at hrun
        cases hstep : i.command.executeInMemory H start with
        | error e =>
            rw [hstep] at hrun
            cases hrun
        | ok middle =>
            rw [hstep] at hrun
            exact ih hrun hothers.2 (executeInMemory_keeps hstep hkey hothers.1 hheld)
  rw [runInMemory, List.foldlM_append, ← runInMemory] at h
  cases hfirst : runInMemory H store before with
  | error e =>
      rw [hfirst] at h
      cases h
  | ok start =>
      rw [hfirst] at h
      simp only [bind, Except.bind, List.foldlM_cons, hissued] at h
      cases hstep : Command.executeInMemory H start (.updateMeta id patch) with
      | error e =>
          rw [hstep] at h
          cases h
      | ok middle =>
          rw [hstep] at h
          refine hrest h hlater ?_
          change start.updateMeta id patch = .ok middle at hstep
          unfold MemoryStore.updateMeta MemoryStore.get at hstep
          cases hfind : start.find? id with
          | none =>
              rw [hfind] at hstep
              cases hstep
          | some node =>
              rw [hfind] at hstep
              cases hstep
              rw [MemoryStore.find?_replaceMeta, hfind]
              refine ⟨_, rfl, ?_⟩
              dsimp only
              rw [if_pos (MemoryStore.mem_of_find? hfind).2]
              dsimp only
              rw [get?_patched, hvalue]
              rfl

variable (H D storeId)

end Runs

/-! ## Commands that come again -/

instance (H : Hashing) (store : MemoryStore) :
    (command : Command) → Decidable (Idle H store command)
  | .put node => inferInstanceAs (Decidable
      (∃ existing ∈ store.find? node.id, ∀ result ∈ node.result,
        node.resultText = existing.resultText ∨
          (conflictOf H result).canonical ∈
            (MemoryStore.resultConflicts existing).map Value.canonical))
  | .updateMeta nodeId patch => inferInstanceAs (Decidable
      (∃ node ∈ store.find? nodeId, ∀ e ∈ patch.entries,
        (node.metadata.get? e.1).map Value.canonical = some e.2.canonical))

instance : (command : Command) → Decidable (Labelled command)
  | .put node => inferInstanceAs (Decidable (node.parent = none →
      node.payload.canonical.get? "run" = node.payload.get? "run"))
  | .updateMeta _ _ => inferInstanceAs (Decidable True)

instance (H : Hashing) (D : Digests) (current : View) (command : Command) :
    Decidable (RepeatsIdle D H current command) :=
  inferInstanceAs (Decidable (_ → _))

instance (H : Hashing) (D : Digests) (storeId : String) (log : List Event) (issued : Issued) :
    Decidable (AcceptedIdle H D storeId log issued) :=
  inferInstanceAs (Decidable (_ ∧ _))

/-- The root of a run with a label. -/
def labelledRoot : Node :=
  let payload := Value.dict [("run", .str "r")]
  ⟨Hashing.plain.nodeId .root none 0 payload, none, .root, 0, payload, none, ∅⟩

/-- A call below it with a result. -/
def callWithResult (result : Value) : Node :=
  let payload := Value.dict [("model", .str "m")]
  ⟨Hashing.plain.nodeId .modelCall (some labelledRoot.id) 0 payload, some labelledRoot.id,
    .modelCall, 0, payload, some result, .ofList [("seed", .int 1)]⟩

def setVersion (version : String) : Command :=
  .updateMeta labelledRoot.id (.ofList [("version", .str version)])

/-- Two results of a call, one of them put twice, and a patch that is sent twice; the
first record comes again after the third command. -/
def repeatedCommands : List Issued :=
  [⟨.put labelledRoot, []⟩, ⟨setVersion "a", []⟩,
    ⟨.put (callWithResult (.int 1)),
      [event .plain "s" (.put (nodeRecord .plain labelledRoot))]⟩,
    ⟨.put (callWithResult (.int 2)), []⟩, ⟨.put (callWithResult (.int 2)), []⟩,
    ⟨setVersion "b", []⟩, ⟨setVersion "b", []⟩]

end Pollard.Stores.Kafka
