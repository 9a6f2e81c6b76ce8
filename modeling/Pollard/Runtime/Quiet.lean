import Pollard.Runtime.World

/-!
# What is quiet

Looking a recording up, refusing, checking and moving the cursor may write nodes,
but none with a charge, and nothing is invoked.
-/

namespace Pollard

open Lib Effect

/-! ## Stores -/

namespace MemoryStore

/-- A store that keeps what another held, with the same totals. -/
structure Grown (before after : MemoryStore) : Prop where
  kept : ∀ id, before.contains id = true →
    after.contains id = true ∧ after.ancestors id = before.ancestors id
  total : after.total = before.total

/-- A store that moreover has the same nodes below every node, and no new ones but
roots. -/
structure Configured (before after : MemoryStore) : Prop extends Grown before after where
  below : ∀ id, (after.nodes.filter fun node => node.parent = some id) =
    before.nodes.filter fun node => node.parent = some id
  rooted : ∀ node ∈ after.nodes, node.kind ≠ .root → node ∈ before.nodes

theorem Grown.refl (store : MemoryStore) : Grown store store :=
  ⟨fun _ h => ⟨h, rfl⟩, rfl⟩

theorem Grown.trans {a b c : MemoryStore} (h : Grown a b) (h' : Grown b c) : Grown a c := by
  constructor
  · intro id hid
    obtain ⟨hb, hanc⟩ := h.kept id hid
    obtain ⟨hc, hanc'⟩ := h'.kept id hb
    exact ⟨hc, hanc'.trans hanc⟩
  · rw [h'.total, h.total]

theorem Configured.refl (store : MemoryStore) : Configured store store :=
  ⟨Grown.refl store, fun _ => rfl, fun _ h _ => h⟩

theorem Configured.trans {a b c : MemoryStore} (h : Configured a b) (h' : Configured b c) :
    Configured a c :=
  ⟨h.toGrown.trans h'.toGrown, fun id => by rw [h'.below, h.below],
    fun node hnode hkind => h.rooted node (h'.rooted node hnode hkind) hkind⟩

theorem Added.kept {store after : MemoryStore} {node : Node} (h : store.Added node after)
    (id : String) (hid : store.contains id = true) :
    after.contains id = true ∧ after.ancestors id = store.ancestors id :=
  ⟨(h.contains id).mpr (.inr hid), h.ancestors_of_contains hid⟩

theorem Folded.kept {store after : MemoryStore} {node : Node} (h : store.Folded node after)
    (id : String) (hid : store.contains id = true) :
    after.contains id = true ∧ after.ancestors id = store.ancestors id := by
  obtain ⟨existing, hfind, -, rfl | ⟨metadata, rfl, -⟩⟩ := h
  · exact ⟨hid, rfl⟩
  · rw [contains_replaceMeta, ancestors_replaceMeta]
    exact ⟨hid, rfl⟩

/-- A new node without charges leaves every total as it is. -/
theorem Added.total_of_uncharged {store after : MemoryStore} {node : Node}
    (h : store.Added node after) (hcharges : node.charges = []) : after.total = store.total := by
  funext anchor meter
  have holder : ∀ n ∈ store.nodes, decide (anchor ∈ after.ancestors n.id) =
      decide (anchor ∈ store.ancestors n.id) := by
    intro n hn
    rw [h.ancestors_of_contains (contains_of_find? (find?_of_mem hn))]
  rw [total, total, subtree, subtree, h.2.2, List.filter_cons, List.filter_congr holder]
  split
  · rw [List.map_cons, List.sum_cons, hcharges]
    simp [chargesOn]
  · rfl

theorem Added.grown {store after : MemoryStore} {node : Node} (h : store.Added node after)
    (hcharges : node.charges = []) : Grown store after :=
  ⟨h.kept, h.total_of_uncharged hcharges⟩

theorem Folded.grown {store after : MemoryStore} {node : Node} (h : store.Folded node after) :
    Grown store after :=
  ⟨h.kept, h.total_eq⟩

theorem put_grown {H : Hashing} {store after : MemoryStore} {node : Node}
    (h : store.put H node = .ok after) (hcharges : node.charges = []) : Grown store after := by
  rcases put_cases h with h | h
  · exact h.grown hcharges
  · exact h.grown

theorem updateMeta_grown {store after : MemoryStore} {id : String} {patch : Dict String Value}
    (hpatch : patch.get? "charges" = none) (h : store.updateMeta id patch = .ok after) :
    Grown store after := by
  refine ⟨fun other hother => ?_, updateMeta_total hpatch h⟩
  unfold updateMeta at h
  cases hget : store.get id with
  | error e =>
      rw [hget] at h
      cases h
  | ok node =>
      rw [hget] at h
      cases h
      rw [contains_replaceMeta, ancestors_replaceMeta]
      exact ⟨hother, rfl⟩

/-- A new root without charges is below no node. -/
theorem put_root_configured {H : Hashing} {store after : MemoryStore} {node : Node}
    (h : store.put H node = .ok after) (hfind : store.find? node.id = none)
    (hkind : node.kind = .root) (hparent : node.parent = none) (hcharges : node.charges = []) :
    Configured store after := by
  have hgrown := put_grown h hcharges
  rcases put_cases h with hadded | ⟨existing, hexisting, -⟩
  · refine ⟨hgrown, fun id => ?_, fun other hother hroot => ?_⟩
    · rw [hadded.2.2, List.filter_cons_of_neg (by simp [hparent])]
    · rw [hadded.2.2] at hother
      rcases List.mem_cons.mp hother with rfl | hother
      · exact absurd hkind hroot
      · exact hother
  · rw [hfind] at hexisting
    cases hexisting

/-- The node that was put can be read back. -/
theorem put_get {H : Hashing} {store after : MemoryStore} {node : Node}
    (h : store.put H node = .ok after) : ∃ stored, after.get node.id = .ok stored ∧
      stored.id = node.id ∧ after.contains node.id = true := by
  have hcontains : after.contains node.id = true := by
    rcases put_cases h with h | h
    · exact (h.contains node.id).mpr (.inl rfl)
    · have hkept := h.kept
      obtain ⟨existing, hfind, -⟩ := h
      exact (hkept node.id (contains_of_find? hfind)).1
  obtain ⟨stored, hget, hfind⟩ := get_of_contains hcontains
  exact ⟨stored, hget, (mem_of_find? hfind).2, hcontains⟩

end MemoryStore

/-! ## Sessions -/

/-- An event that changes no reservation into a charge and invokes nothing. -/
def Event.quiet : Event → Bool
  | .reserved _ => true
  | .released _ => true
  | _ => false

/-- A session that wrote no charge and invoked nothing. -/
structure Quiet (before after : Session) : Prop where
  store : MemoryStore.Grown before.store after.store
  cursor : before.store.contains before.run.cursorId = true →
    after.store.contains after.run.cursorId = true
  root : after.run.rootId = before.run.rootId
  scopes : after.run.budgetScopes = before.run.budgetScopes
  pending : ∀ token call, after.run.pendingToolCalls.get? token = some call →
    before.run.pendingToolCalls.get? token = some call
  trace : ∃ events, after.trace = events ++ before.trace ∧ ∀ e ∈ events, e.quiet = true

theorem Quiet.refl (s : Session) : Quiet s s :=
  ⟨.refl s.store, fun h => h, rfl, rfl, fun _ _ h => h, [], rfl, by simp⟩

theorem Quiet.trans {a b c : Session} (h : Quiet a b) (h' : Quiet b c) : Quiet a c := by
  refine ⟨h.store.trans h'.store, fun hcursor => h'.cursor (h.cursor hcursor),
    h'.root.trans h.root, h'.scopes.trans h.scopes,
    fun token call hcall => h.pending token call (h'.pending token call hcall), ?_⟩
  obtain ⟨events, htrace, hevents⟩ := h.trace
  obtain ⟨events', htrace', hevents'⟩ := h'.trace
  refine ⟨events' ++ events, by rw [htrace', htrace, List.append_assoc], ?_⟩
  intro e he
  rcases List.mem_append.mp he with he | he
  · exact hevents' e he
  · exact hevents e he

theorem quiet : Frame Quiet := ⟨Quiet.refl, Quiet.trans⟩

theorem Quiet.of_store {s : Session} {store : MemoryStore}
    (h : MemoryStore.Grown s.store store) : Quiet s { s with store } :=
  ⟨h, fun hcursor => (h.kept _ hcursor).1, rfl, rfl, fun _ _ h => h, [], rfl, by simp⟩

theorem configured : Frame MemoryStore.Configured :=
  ⟨MemoryStore.Configured.refl, MemoryStore.Configured.trans⟩

theorem quiet_emit {event : Event} (h : event.quiet = true) : Keeps Quiet (emit event) := by
  apply keeps_modify
  intro s
  exact ⟨.refl s.store, fun hcursor => hcursor, rfl, rfl, fun _ _ h => h, [event], rfl,
    by simpa using h⟩

section Runtime

variable (H : Hashing) (rt : Runtime)

/-! ## Nodes without charges -/

theorem putNode_apply (node : Node) (store : MemoryStore) (hmode : rt.mode ≠ .replay) :
    putNode H rt node store = match store.put H node with
      | .error e => .error e store
      | .ok after => match after.get node.id with
        | .error e => .error e after
        | .ok stored => .ok stored after := by
  unfold putNode
  rw [bind_of_ok (get_apply store), if_neg hmode, bind_apply]
  cases store.put H node with
  | error e => rfl
  | ok after =>
      rw [orRaise_ok]
      dsimp only
      rw [bind_apply]
      change orRaise (after.get node.id) after = _
      cases after.get node.id <;> rfl

theorem putNode_replay (node : Node) (store : MemoryStore) (hmode : rt.mode = .replay) :
    putNode H rt node store = orRaise (replayNodeOrMissing H store node) store := by
  unfold putNode
  rw [bind_of_ok (get_apply store), if_pos hmode]

/-- `putNode` raises and leaves the store, or it puts the node, or it finds it
replayed. -/
theorem putNode_cases (node : Node) (store : MemoryStore) :
    (∃ e, putNode H rt node store = .error e store) ∨
    (∃ stored after, putNode H rt node store = .ok stored after ∧
      store.put H node = .ok after ∧ stored.id = node.id ∧
      after.contains node.id = true) ∨
    ∃ stored, putNode H rt node store = .ok stored store ∧ stored.id = node.id ∧
      store.contains node.id = true := by
  by_cases hmode : rt.mode = .replay
  · rw [putNode_replay H rt node store hmode]
    cases hfind : replayNodeOrMissing H store node with
    | error e => exact .inl ⟨e, rfl⟩
    | ok stored =>
        unfold replayNodeOrMissing at hfind
        split at hfind
        · unfold missingRecording at hfind
          cases hsummary : payloadSummary H node.kind node.payload with
          | error e =>
              rw [hsummary] at hfind
              cases hfind
          | ok summary =>
              rw [hsummary] at hfind
              cases hfind
        · next existing hexisting =>
            cases hverify : verifyRecording H store existing.id with
            | error e =>
                rw [hverify] at hfind
                cases hfind
            | ok u =>
                rw [hverify] at hfind
                cases hfind
                exact .inr (.inr ⟨_, rfl, (MemoryStore.mem_of_find? hexisting).2,
                  MemoryStore.contains_of_find? hexisting⟩)
  · rw [putNode_apply H rt node store hmode]
    cases hput : store.put H node with
    | error e => exact .inl ⟨e, rfl⟩
    | ok after =>
        obtain ⟨stored, hget, hid, hcontains⟩ := MemoryStore.put_get hput
        dsimp only
        rw [hget]
        exact .inr (.inl ⟨stored, after, rfl, rfl, hid, hcontains⟩)

theorem quiet_record {node : Node} (hcharges : node.charges = []) :
    Keeps Quiet (record H rt node) := by
  intro s
  unfold record after
  rw [bind_apply]
  unfold onStore focus
  rcases putNode_cases H rt node s.store with ⟨e, h⟩ | ⟨stored, after, h, hput, hid, hin⟩ |
    ⟨stored, h, hid, hin⟩
  · rw [h]
    exact Quiet.refl s
  · rw [h]
    have hgrown := MemoryStore.put_grown hput hcharges
    refine ⟨hgrown, fun _ => ?_, rfl, rfl, fun _ _ h => h, [], rfl, by simp⟩
    change after.contains stored.id = true
    rw [hid]
    exact hin
  · rw [h]
    refine ⟨.refl s.store, fun _ => ?_, rfl, rfl, fun _ _ h => h, [], rfl, by simp⟩
    change s.store.contains stored.id = true
    rw [hid]
    exact hin

theorem quiet_setCursor {s : Session} {id : String} (h : s.store.contains id = true) :
    Quiet s (after (setCursor id) s) :=
  ⟨.refl s.store, fun _ => h, rfl, rfl, fun _ _ h => h, [], rfl, by simp⟩

/-! ## Refusing -/

theorem charges_of_make {kind : NodeKind} {parent : Option String} {payload : Value}
    {attempt : ℤ} {result : Option Value} {metadata : Dict String Value} {node : Node}
    (h : Node.make H kind parent payload attempt result metadata = .ok node)
    (hmeta : metadata.get? "charges" = none) : node.charges = [] := by
  rw [Node.eq_of_make h, Node.charges, hmeta]

theorem createdAt_charges (env : CallEnv) : (createdAt env).get? "charges" = none := by
  change (Dict.set ∅ "created_at" (Value.str env.now)).get? "charges" = none
  rw [Dict.get?_set_of_ne _ _ (by decide), Dict.get?_empty]

/-- An audit entry of a refusal is no charge. -/
theorem validatedAuditMeta_charges {refusal : MeterPrecheckRefusal}
    {metadata : Dict String Value} (h : refusal.validatedAuditMeta = .ok metadata) :
    metadata.get? "charges" = none := by
  unfold MeterPrecheckRefusal.validatedAuditMeta at h
  split at h
  · cases h
    rfl
  · next auditMeta _ =>
      split at h
      · cases h
      · split at h
        · next hconflicts =>
            cases h
            rw [Dict.ofList, Dict.get?_foldl_set_of_forall_ne ?_ _, Dict.get?_empty]
            intro e he heq
            have hmem : e.1 ∈ (auditMeta.map Prod.fst).filter
                fun key => key ∈ precheckReservedMetaKeys := by
              rw [List.mem_filter]
              exact ⟨List.mem_map_of_mem he, by rw [heq]; decide⟩
            rw [hconflicts] at hmem
            cases hmem
        · cases h

theorem quiet_refuse {α : Type} (env : CallEnv) (kind : NodeKind) (payload : Value)
    (reason meter : String) (requested remaining detail : Option String) (estimated : Bool)
    (windowSeconds : Option ℚ) {auditMeta : Dict String Value}
    (haudit : auditMeta.get? "charges" = none) :
    Keeps Quiet (refuse H rt env kind payload reason meter requested remaining detail
      estimated windowSeconds auditMeta : RunM α) := by
  have hmeta : (auditMeta.entries.foldl (fun m e => m.set e.1 e.2) (createdAt env)).get?
      "charges" = none := by
    rw [Dict.get?_foldl_set_of_forall_ne ?_ _, createdAt_charges]
    rintro ⟨key, value⟩ he rfl
    rw [Dict.mem_entries_iff.mp he] at haudit
    cases haudit
  unfold refuse
  refine quiet.bind_orRaise fun digest _ => quiet.bind quiet.get fun s => ?_
  refine quiet.bind_orRaise fun node hnode => ?_
  exact quiet.bind (quiet_record H rt (charges_of_make H hnode hmeta)) fun _ => quiet.throw _

theorem quiet_refuseCheck {α : Type} (env : CallEnv) (kind : NodeKind) (payload : Value)
    (reason : String) (meter : Option String) (requested : Estimate) (remaining : Decimal)
    (estimated : Bool) (windowSeconds : Option ℚ) :
    Keeps Quiet (refuseCheck H rt env kind payload reason meter requested remaining estimated
      windowSeconds : RunM α) :=
  quiet_refuse H rt env kind payload reason _ _ _ _ _ _ (Dict.get?_empty _)

theorem quiet_refusePolicy {α : Type} (env : CallEnv) (detail : String) (payload : Value) :
    Keeps Quiet (refusePolicy H rt env detail payload : RunM α) := by
  unfold refusePolicy
  refine quiet.bind_orRaise fun digest _ => quiet.bind quiet.get fun s => ?_
  refine quiet.bind_orRaise fun node hnode => ?_
  exact quiet.bind (quiet_record H rt (charges_of_make H hnode (createdAt_charges env)))
    fun _ => quiet.throw _

/-! ## Checking -/

theorem configured_bindConfiguration {expected : Node} (hkind : expected.kind = .root)
    (hparent : expected.parent = none) (hcharges : expected.charges = []) :
    Keeps MemoryStore.Configured (bindConfiguration H rt expected) := by
  intro store
  unfold bindConfiguration
  apply configured.bind_at (configured.get store)
  intro _ _ hget
  cases hget
  split
  · exact configured.bind (configured.orRaise _)
      (fun _ => by split; exacts [configured.throw _, configured.pure _]) store
  · have htail : ∀ after : MemoryStore, Keeps MemoryStore.Configured (do
        let actual ← orRaise (after.get expected.id)
        if verifyRecording H after actual.id ≠ .ok () ∨
            actual.resultText ≠ expected.resultText then
          throw (.integrityError s!"shared scope configuration does not match: {expected.id}")
        : StoreM Unit) := fun after => configured.bind (configured.orRaise _)
      fun _ => by split; exacts [configured.throw _, configured.pure _]
    by_cases hin : store.contains expected.id = true
    · rw [if_pos hin]
      exact htail store store
    · rw [if_neg hin]
      cases hput : store.put H expected with
      | error e => exact configured.refl store
      | ok after =>
          have hfind : store.find? expected.id = none := by
            rw [MemoryStore.contains, Bool.not_eq_true, Option.isSome_eq_false_iff,
              Option.isNone_iff_eq_none] at hin
            exact hin
          exact configured.trans
            (MemoryStore.put_root_configured hput hfind hkind hparent hcharges)
            (htail after after)

theorem configured_validateSharedConfiguration :
    Keeps MemoryStore.Configured (validateSharedConfiguration H rt) := by
  have hbind : ∀ made : Except PyError Node, (∀ node, made = .ok node →
      node.kind = .root ∧ node.parent = none ∧ node.charges = []) →
        Keeps MemoryStore.Configured
          (do let node ← orRaise made; bindConfiguration H rt node : StoreM Unit) :=
    fun made h => configured.bind_orRaise fun node hnode =>
      configured_bindConfiguration H rt (h node hnode).1 (h node hnode).2.1 (h node hnode).2.2
  unfold validateSharedConfiguration
  split
  · exact configured.pure _
  · split
    · exact configured.throw _
    · refine configured.bind (configured.forM (fun scope => hbind _ ?_) _) fun _ =>
        configured.forM (fun window => hbind _ ?_) _
      · intro node hnode
        exact ⟨by rw [Node.eq_of_make hnode], by rw [Node.eq_of_make hnode],
          charges_of_make H hnode (Dict.get?_empty _)⟩
      · intro node hnode
        exact ⟨by rw [Node.eq_of_make hnode], by rw [Node.eq_of_make hnode],
          charges_of_make H hnode (Dict.get?_empty _)⟩

theorem quiet_onStore {α : Type} {x : StoreM α} (hx : Keeps MemoryStore.Configured x) :
    Keeps Quiet (onStore x) :=
  hx.focus fun _ _ h => Quiet.of_store h.toGrown

theorem quiet_meterEstimates (env : CallEnv) (kind : NodeKind) (payload : Value)
    (index : ℕ) (meters : List Meter) (estimates : Dict String Estimate)
    (approximate : List String) :
    Keeps Quiet (meterEstimates H rt env kind payload index meters estimates approximate) := by
  induction meters generalizing index estimates approximate with
  | nil => exact quiet.pure _
  | cons meter meters ih =>
      rw [meterEstimates]
      split
      · exact quiet.throw _
      · exact quiet.bind_orRaise fun auditMeta h =>
          quiet_refuse H rt env _ _ _ _ _ _ _ _ _ (validatedAuditMeta_charges h)
      · exact ih _ _ _
      · exact ih _ _ _

theorem quiet_estimatesOf (env : CallEnv) (kind : NodeKind) (payload : Value) :
    Keeps Quiet (estimatesOf H rt env kind payload) := by
  refine quiet.bind (quiet_meterEstimates H rt env kind payload _ _ _ _) fun _ => ?_
  exact quiet.bind quiet.get fun s => quiet.bind (quiet.orRaise _) fun _ => quiet.pure _

theorem quiet_checkScopes (env : CallEnv) (kind : NodeKind) (payload : Value)
    (estimates : Dict String Estimate) (approximate : List String) (scopes : List BudgetScope) :
    Keeps Quiet (checkScopes H rt env kind payload estimates approximate scopes) := by
  induction scopes with
  | nil => exact quiet.pure _
  | cons scope scopes ih =>
      refine quiet.bind quiet.get fun s => quiet.bind (quiet.orRaise _) fun spent => ?_
      dsimp only
      split
      · exact ih
      · exact quiet_refuseCheck H rt env _ _ _ _ _ _ _ _

theorem quiet_precheck (env : CallEnv) (kind : NodeKind) (payload : Value) :
    Keeps Quiet (precheck H rt env kind payload) := by
  refine quiet.bind (quiet_onStore (configured_validateSharedConfiguration H rt)) fun _ => ?_
  refine quiet.bind (quiet_estimatesOf H rt env kind payload) fun found => ?_
  refine quiet.bind quiet.get fun s => ?_
  refine quiet.bind (quiet_checkScopes H rt env kind payload _ _ _) fun _ => ?_
  split
  · exact quiet.pure _
  · split
    · exact quiet.pure _
    · refine quiet.bind quiet.get fun s => quiet.bind (quiet.orRaise _) fun budgets => ?_
      refine quiet.bind (quiet.orRaise _) fun windows => ?_
      split
      · exact quiet.pure _
      · refine quiet.bind (quiet.orRaise _) fun check => ?_
        split
        · exact quiet.bind (quiet_emit rfl) fun _ => quiet.pure _
        · exact quiet_refuseCheck H rt env _ _ _ _ _ _ _ _

/-! ## Recordings -/

/-- A recording is the node that is stored. -/
theorem recordedNodeOrMissing_found {store : MemoryStore} {kind : NodeKind}
    {parentId : String} {payload : Value} {attempt : ℤ} {node : Node}
    (h : recordedNodeOrMissing H rt store kind parentId payload attempt = .ok (some node)) :
    store.find? node.id = some node := by
  unfold recordedNodeOrMissing at h
  split at h
  · cases h
  · cases hmake : Node.make H kind (some parentId) payload attempt with
    | error e =>
        rw [hmake] at h
        cases h
    | ok candidate =>
        simp only [hmake, bind, Except.bind] at h
        have hmissing : (missingRecording H candidate).map some ≠ .ok (some node) := by
          unfold missingRecording
          cases payloadSummary H candidate.kind candidate.payload <;> simp [bind, Except.bind,
            Except.map, throw, throwThe, MonadExceptOf.throw]
        split at h
        · unfold duplicateRecording at h
          cases hsummary : payloadSummary H candidate.kind candidate.payload with
          | error e =>
              rw [hsummary] at h
              cases h
          | ok summary =>
              rw [hsummary] at h
              cases h
        · cases h
        · exact absurd h hmissing
        · cases h
        · next found hfind _ =>
            have hin : store.find? found.id = some found := by
              rw [(MemoryStore.mem_of_find? hfind).2]
              exact hfind
            split at h
            · split at h
              · exact absurd h hmissing
              · cases h
            · split at h
              · cases hverify : verifyRecording H store found.id with
                | error e =>
                    rw [hverify] at h
                    cases h
                | ok u =>
                    rw [hverify] at h
                    cases h
                    exact hin
              · cases h
                exact hin

theorem recordedNodeOrMissing_contains {store : MemoryStore} {kind : NodeKind}
    {parentId : String} {payload : Value} {attempt : ℤ} {node : Node}
    (h : recordedNodeOrMissing H rt store kind parentId payload attempt = .ok (some node)) :
    store.contains node.id = true :=
  MemoryStore.contains_of_find? (recordedNodeOrMissing_found H rt h)

theorem quiet_addAvoided (charges : Dict String Value) : Keeps Quiet (addAvoided charges) := by
  apply quiet.forM
  rintro ⟨name, amount⟩
  refine quiet.bind quiet.get fun s => quiet.bind (quiet.orRaise _) fun amount => ?_
  apply keeps_modify
  intro s
  exact ⟨.refl s.store, fun h => h, rfl, rfl, fun _ _ h => h, [], rfl, by simp⟩

theorem quiet_recordAvoidedCharges (nodeId : String) (charges : Dict String Value) :
    Keeps Quiet (recordAvoidedCharges nodeId charges) := by
  intro s
  unfold recordAvoidedCharges
  split
  · exact Quiet.refl s
  · refine quiet.bind_at (quiet.get s) fun _ _ hget => ?_
    cases hget
    refine quiet.bind_at (quiet.orRaise _ _) fun node _ hnode => ?_
    obtain ⟨-, rfl⟩ := orRaise_eq_ok hnode
    refine quiet.bind_at (quiet.orRaise _ _) fun totals _ htotals => ?_
    obtain ⟨-, rfl⟩ := orRaise_eq_ok htotals
    refine quiet.bind_at (quiet.orRaise _ _) fun store _ hstore => ?_
    obtain ⟨hupdate, rfl⟩ := orRaise_eq_ok hstore
    refine Quiet.of_store (MemoryStore.updateMeta_grown ?_ hupdate)
    change (Dict.set ∅ "avoided" (Value.dict totals.entries)).get? "charges" = none
    rw [Dict.get?_set_of_ne _ _ (by decide), Dict.get?_empty]

theorem quiet_recordedNode (env : CallEnv) (kind : NodeKind) (payload : Value)
    (attempt : ℤ) : Keeps Quiet (recordedNode H rt env kind payload attempt) := by
  intro s
  unfold recordedNode
  refine quiet.bind_at (quiet.get s) fun _ _ hget => ?_
  cases hget
  refine quiet.bind_at (quiet.orRaise _ _) fun found _ hfound => ?_
  obtain ⟨hrecorded, rfl⟩ := orRaise_eq_ok hfound
  cases found with
  | none => exact Quiet.refl _
  | some node =>
      have hin := recordedNodeOrMissing_contains H rt hrecorded
      refine quiet.bind_at (quiet.orRaise _ _) fun charges _ hcharges => ?_
      obtain ⟨-, rfl⟩ := orRaise_eq_ok hcharges
      refine quiet.bind_at (quiet_addAvoided charges _) fun _ m hm => ?_
      have hkept := ((quiet_addAvoided charges).of_ok hm).store.kept _ hin
      have htail : ∀ t : Session, t.store.contains node.id = true → Quiet t (after (do
          setCursor node.id
          orRaise (reemitChunks env node)
          return some node : RunM (Option Node)) t) := fun t ht =>
        quiet.bind_at (quiet_setCursor ht) fun _ n _ =>
          quiet.bind (quiet.orRaise _) (fun _ => quiet.pure _) n
      split
      · refine quiet.bind_at (quiet_recordAvoidedCharges node.id charges m) fun _ n hn => ?_
        exact htail n (((quiet_recordAvoidedCharges node.id charges).of_ok hn).store.kept _
          hkept.1).1
      · exact htail m hkept.1

/-! ## Policies -/

theorem quiet_decidePolicy (env : CallEnv) (index : ℕ) :
    Keeps Quiet (decidePolicy env index) :=
  quiet.bind quiet.get fun _ => quiet.bind (quiet.orRaise _) fun _ => quiet.orRaise _

theorem quiet_durableApprovals (env : CallEnv) (spec : ActionSpec) (args : Value) (index : ℕ)
    (policies : List Policy) (consulted : List (ℕ × Decision)) :
    Keeps Quiet (durableApprovals H rt env spec args index policies consulted) := by
  induction policies generalizing index consulted with
  | nil => exact quiet.pure _
  | cons policy policies ih =>
      rw [durableApprovals]
      split
      · refine quiet.bind (quiet_decidePolicy env index) fun decision => ?_
        split
        · exact ih _ _
        · exact quiet.bind_orRaise fun _ _ => quiet_refusePolicy H rt env _ _
      · exact ih _ _

theorem quiet_checkDurableApprovals (env : CallEnv) (spec : ActionSpec) (args : Value) :
    Keeps Quiet (checkDurableApprovals H rt env spec args) := by
  unfold checkDurableApprovals
  split
  · exact quiet.pure _
  · exact quiet_durableApprovals H rt env spec args _ _ _

/-! ## Notes, branches and the cursor -/

theorem quiet_note (env : CallEnv) (payload : Value) (attempt : ℤ) :
    Keeps Quiet (note H rt env payload attempt) := by
  refine quiet.bind quiet.get fun s => quiet.bind_orRaise fun node hnode => ?_
  have hrecord := quiet_record H rt (charges_of_make H hnode (createdAt_charges env))
  split
  · exact hrecord
  · exact quiet.bind (quiet_precheck H rt env _ _) fun _ => hrecord

theorem ensureAncestor_ok {nodeId : String} {s t : Session} {u : Unit}
    (h : ensureAncestor nodeId s = .ok u t) :
    s = t ∧ nodeId ∈ s.store.ancestors s.run.cursorId := by
  unfold ensureAncestor at h
  rw [bind_of_ok (get_apply s)] at h
  split at h
  · next hmem =>
      cases h
      exact ⟨rfl, hmem⟩
  · cases h

theorem quiet_rollback (nodeId : Option String) (steps : ℕ) :
    Keeps Quiet (rollback nodeId steps) := by
  intro s
  unfold rollback
  refine quiet.bind_at (quiet.get s) fun _ _ hget => ?_
  cases hget
  have htail : ∀ target, Quiet s (after (do
      ensureAncestor target
      setCursor target
      orRaise (s.store.get target) : RunM Node) s) := by
    intro target
    have hensure : Keeps Quiet (ensureAncestor target) := by
      refine quiet.bind quiet.get fun t => ?_
      split
      · exact quiet.pure _
      · exact quiet.throw _
    refine quiet.bind_at (hensure s) fun _ m hm => ?_
    obtain ⟨rfl, hmem⟩ := ensureAncestor_ok hm
    exact quiet.bind_at (quiet_setCursor (MemoryStore.contains_of_mem_ancestors hmem))
      fun _ n _ => quiet.orRaise _ n
  cases nodeId with
  | some target => exact htail target
  | none =>
      refine quiet.bind_at (quiet.orRaise _ _) fun target _ htarget => ?_
      obtain ⟨-, rfl⟩ := orRaise_eq_ok htarget
      exact htail target

theorem quiet_prune : Keeps Quiet (prune rt) := by
  intro s
  unfold prune
  split
  · exact Quiet.refl s
  · refine quiet.bind_at (quiet.get s) fun _ _ hget => ?_
    cases hget
    refine quiet.bind_at (quiet.orRaise _ _) fun store _ hstore => ?_
    obtain ⟨hupdate, rfl⟩ := orRaise_eq_ok hstore
    refine Quiet.of_store (MemoryStore.updateMeta_grown ?_ hupdate)
    rfl

theorem quiet_putNode {node : Node} (hcharges : node.charges = []) :
    Keeps Quiet (onStore (putNode H rt node)) := by
  refine Keeps.focus (Q := MemoryStore.Grown) (fun store => ?_) fun _ _ h => Quiet.of_store h
  unfold after
  rcases putNode_cases H rt node store with ⟨e, h⟩ | ⟨stored, after, h, hput, -⟩ |
    ⟨stored, h, -⟩
  · rw [h]
    exact .refl store
  · rw [h]
    exact MemoryStore.put_grown hput hcharges
  · rw [h]
    exact .refl store

theorem quiet_branch (env : CallEnv) (attempt : ℤ) (budget : Option Budget) :
    Keeps Quiet (branch H rt env attempt budget) := by
  refine quiet.bind quiet.get fun s => quiet.bind_orRaise fun anchor hanchor => ?_
  have htail : Keeps Quiet (do
      let anchor ← onStore (putNode H rt anchor)
      let s ← get
      return s.run.child anchor.id budget : RunM Run) :=
    quiet.bind (quiet_putNode H rt (charges_of_make H hanchor (createdAt_charges env)))
      fun _ => quiet.bind quiet.get fun _ => quiet.pure _
  split
  · exact htail
  · exact quiet.bind (quiet_precheck H rt env _ _) fun _ => htail

end Runtime

end Pollard
