import Pollard.Runtime.Budgets

/-!
# The reservation of a call

A reservation the arbiter accepted for a call is settled or released, whatever the step
function, its stream, the meters and the lease do; and what the call obtained is recorded
below the cursor it started from.
-/

namespace Pollard

open Lib Effect

/-! ## Silence -/

/-- Nothing happened outside. -/
def Silent (s t : Session) : Prop := t.trace = s.trace

theorem silent : Frame Silent := ⟨fun _ => rfl, fun h h' => Eq.trans h' h⟩

theorem silent_onStore {α : Type} (x : StoreM α) : Keeps Silent (onStore x) := by
  intro s
  unfold Silent after onStore focus
  cases x s.store <;> rfl

section Runtime

variable (H : Hashing) (rt : Runtime) (env : CallEnv)

theorem silent_record (node : Node) : Keeps Silent (record H rt node) :=
  silent.bind (silent_onStore _) fun _ => silent.bind (keeps_modify fun _ => rfl)
    fun _ => silent.pure _

theorem silent_refuse {α : Type} (kind : NodeKind) (payload : Value) (reason meter : String)
    (requested remaining detail : Option String) (estimated : Bool) (windowSeconds : Option ℚ)
    (auditMeta : Dict String Value) :
    Keeps Silent (refuse H rt env kind payload reason meter requested remaining detail
      estimated windowSeconds auditMeta : RunM α) := by
  unfold refuse
  refine silent.bind (silent.orRaise _) fun digest => silent.bind silent.get fun s => ?_
  exact silent.bind (silent.orRaise _) fun node =>
    silent.bind (silent_record H rt node) fun _ => silent.throw _

theorem silent_meterEstimates (kind : NodeKind) (payload : Value) (index : ℕ)
    (meters : List Meter) (estimates : Dict String Estimate) (approximate : List String) :
    Keeps Silent (meterEstimates H rt env kind payload index meters estimates approximate) := by
  induction meters generalizing index estimates approximate with
  | nil => exact silent.pure _
  | cons meter meters ih =>
      rw [meterEstimates]
      split
      · exact silent.throw _
      · exact silent.bind (silent.orRaise _) fun auditMeta =>
          silent_refuse H rt env _ _ _ _ _ _ _ _ _ _
      · exact ih _ _ _
      · exact ih _ _ _

theorem silent_checkScopes (kind : NodeKind) (payload : Value)
    (estimates : Dict String Estimate) (approximate : List String) (scopes : List BudgetScope) :
    Keeps Silent (checkScopes H rt env kind payload estimates approximate scopes) := by
  induction scopes with
  | nil => exact silent.pure _
  | cons scope scopes ih =>
      refine silent.bind silent.get fun s => silent.bind (silent.orRaise _) fun spent => ?_
      dsimp only
      split
      · exact ih
      · exact silent_refuse H rt env _ _ _ _ _ _ _ _ _ _

theorem silent_estimatesOf (kind : NodeKind) (payload : Value) :
    Keeps Silent (estimatesOf H rt env kind payload) := by
  refine silent.bind (silent_meterEstimates H rt env kind payload _ _ _ _) fun _ => ?_
  exact silent.bind silent.get fun s => silent.bind (silent.orRaise _) fun _ => silent.pure _

/-- A precheck that raises has reserved nothing. -/
theorem silent_precheck (kind : NodeKind) (payload : Value) :
    Raising Silent (precheck H rt env kind payload) := by
  refine silent.bind_raising (silent_onStore _) fun _ => ?_
  refine silent.bind_raising (silent_estimatesOf H rt env kind payload) fun found => ?_
  refine silent.bind_raising silent.get fun s => ?_
  refine silent.bind_raising (silent_checkScopes H rt env kind payload _ _ _) fun _ => ?_
  split
  · exact (silent.pure _).raising
  · split
    · exact (silent.pure _).raising
    · refine silent.bind_raising silent.get fun s => ?_
      refine silent.bind_raising (silent.orRaise _) fun budgets => ?_
      refine silent.bind_raising (silent.orRaise _) fun windows => ?_
      split
      · exact (silent.pure _).raising
      · refine silent.bind_raising (silent.orRaise _) fun check => ?_
        split
        · intro m e t h
          rw [bind_of_ok (emit_apply _ m)] at h
          cases h
        · exact (silent_refuse H rt env _ _ _ _ _ _ _ _ _ _).raising

theorem silent_addAvoided (charges : Dict String Value) :
    Keeps Silent (addAvoided charges) := by
  apply silent.forM
  rintro ⟨name, amount⟩
  refine silent.bind silent.get fun s => silent.bind (silent.orRaise _) fun amount => ?_
  exact keeps_modify fun _ => rfl

theorem silent_recordAvoidedCharges (nodeId : String) (charges : Dict String Value) :
    Keeps Silent (recordAvoidedCharges nodeId charges) := by
  unfold recordAvoidedCharges
  split
  · exact silent.pure _
  · refine silent.bind silent.get fun s => silent.bind (silent.orRaise _) fun node => ?_
    refine silent.bind (silent.orRaise _) fun totals => ?_
    exact silent.bind (silent.orRaise _) fun store => silent_onStore _

theorem silent_recordedNode (kind : NodeKind) (payload : Value) (attempt : ℤ) :
    Keeps Silent (recordedNode H rt env kind payload attempt) := by
  refine silent.bind silent.get fun s => silent.bind (silent.orRaise _) fun found => ?_
  cases found with
  | none => exact silent.pure _
  | some node =>
      refine silent.bind (silent.orRaise _) fun charges => ?_
      refine silent.bind (silent_addAvoided charges) fun _ => ?_
      have htail : Keeps Silent (do
          setCursor node.id
          orRaise (reemitChunks env node)
          return some node : RunM (Option Node)) :=
        silent.bind (keeps_modify fun _ => rfl) fun _ =>
          silent.bind (silent.orRaise _) fun _ => silent.pure _
      split
      · exact silent.bind (silent_recordAvoidedCharges node.id charges) fun _ => htail
      · exact htail

/-! ## Events of a call -/

/-- An event that resolves a reservation. -/
def Event.resolves (id : String) : Event → Bool
  | .settled other _ => other = id
  | .released other => other = id
  | _ => false

/-- A step function was invoked and gave a result or at least one chunk. -/
def Gave (flavor : Flavor) (keepChunks : Bool) (events : List Event) : Prop :=
  (∃ action, .invoked action ∈ events) ∧
    ∃ produced, env.produced = .ok produced ∧ (flavor.obtains produced ∨
      ∃ result, flavor.consume env.onDelta keepChunks produced = .ok result)

/-- Every reservation among the events was resolved once. -/
def ResolvedOnce (events : List Event) : Prop :=
  ∀ id, events.count (.reserved id) ≤ 1 ∧
    events.countP (Event.resolves id) = events.count (.reserved id)

/-- The nodes directly below a node. -/
def MemoryStore.nodesBelow (store : MemoryStore) (id : String) : List Node :=
  store.nodes.filter fun node => node.parent = some id

/-- The node of a call is the only new one below the cursor it started from. -/
structure RecordedUnder (s u : Session) (charges : Dict String Value) (node : Node) : Prop where
  parent : node.parent = some s.run.cursorId
  charged : node.charges = charges.entries
  cursor : u.run.cursorId = node.id
  below : u.store.nodesBelow s.run.cursorId = node :: s.store.nodesBelow s.run.cursorId

/-- A node of the same identity was stored, and the call is folded into it. -/
structure FoldedUnder (s u : Session) (node : Node) : Prop where
  cursor : u.run.cursorId = node.id
  stored : ∃ existing ∈ s.store.nodes, existing.identity = node.identity
  below : (u.store.nodesBelow s.run.cursorId).map Node.id =
    (s.store.nodesBelow s.run.cursorId).map Node.id

/-- The reservation is released without a result only, and what was obtained is recorded
with the charges that were settled. -/
structure CallProtocol (flavor : Flavor) (keepChunks : Bool) (s u : Session)
    (events : List Event) : Prop where
  trace : u.trace = events ++ s.trace
  resolved : ResolvedOnce events
  released : ∀ id, .released id ∈ events → ¬ Gave env flavor keepChunks events
  recorded : Gave env flavor keepChunks events → ∃ charges node,
    (∀ id, .reserved id ∈ events → .settled id charges ∈ events) ∧
      (RecordedUnder s u charges node ∨ FoldedUnder s u node)

/-! ## Counting -/

/-- An event that says nothing about a reservation. -/
def Event.neutral : Event → Bool
  | .reserved _ => false
  | .settled _ _ => false
  | .released _ => false
  | _ => true

/-- Only the events about reservations matter. -/
theorem resolvedOnce_of_filter {events : List Event}
    (h : ResolvedOnce (events.filter fun e => ¬ e.neutral)) : ResolvedOnce events := by
  intro id
  obtain ⟨hle, heq⟩ := h id
  have hreserved : (events.filter fun e => ¬ e.neutral).count (.reserved id) =
      events.count (.reserved id) := List.count_filter (by simp [Event.neutral])
  have hresolved : (events.filter fun e => ¬ e.neutral).countP (Event.resolves id) =
      events.countP (Event.resolves id) := by
    rw [List.countP_filter]
    congr 1
    funext e
    cases e <;> simp [Event.resolves, Event.neutral]
  rw [hreserved] at hle heq
  rw [hresolved] at heq
  exact ⟨hle, heq⟩

theorem mem_of_filter_eq {events found : List Event}
    (h : (events.filter fun e => ¬ e.neutral) = found) {e : Event} (he : e ∈ events)
    (hneutral : e.neutral = false) : e ∈ found := by
  rw [← h]
  exact List.mem_filter.mpr ⟨he, by simp [hneutral]⟩

theorem filter_invocation (invoked : Bool) (action : Option (Bool × List (ℕ × Decision))) :
    ((invocation invoked action).filter fun e => ¬ e.neutral) = [] := by
  unfold invocation
  split <;> simp [Event.neutral]

theorem releasing_eq (hrelease : env.release = .ok ()) (reservation : Option Reservation) :
    releasing rt env reservation = ((heldId rt reservation).map Event.released).toList := by
  unfold releasing
  rw [hrelease]
  cases heldId rt reservation <;> rfl

/-- What a settled call says about reservations. -/
theorem filter_settled (hsettle : env.settle = .ok ()) (reservation : Option Reservation)
    (scopes : List (Budget × String)) (charges : Dict String Value) (invoked : Bool)
    (action : Option (Bool × List (ℕ × Decision))) {others : List Event}
    (hothers : (others.filter fun e => ¬ e.neutral) = []) :
    ((others ++ (settlement rt env reservation scopes charges ++ (invocation invoked action ++
      ((heldId rt reservation).map Event.reserved).toList))).filter fun e => ¬ e.neutral) =
        ((heldId rt reservation).map fun id => Event.settled id charges).toList ++
          ((heldId rt reservation).map Event.reserved).toList := by
  rw [List.filter_append, List.filter_append, List.filter_append, hothers, filter_invocation]
  unfold settlement
  rw [hsettle]
  cases heldId rt reservation <;> simp [Event.neutral]

theorem resolvedOnce_settled {reservation : Option Reservation} {charges : Dict String Value} :
    ResolvedOnce (((heldId rt reservation).map fun id => Event.settled id charges).toList ++
      ((heldId rt reservation).map Event.reserved).toList) := by
  intro id
  cases heldId rt reservation with
  | none => simp
  | some held => by_cases h : held = id <;> simp [Event.resolves, h]

theorem resolvedOnce_released (hrelease : env.release = .ok ())
    (reservation : Option Reservation) (invoked : Bool)
    (action : Option (Bool × List (ℕ × Decision))) :
    ResolvedOnce (releasing rt env reservation ++
      (invocation invoked action ++ ((heldId rt reservation).map Event.reserved).toList)) := by
  apply resolvedOnce_of_filter
  rw [List.filter_append, List.filter_append, filter_invocation, releasing_eq rt env hrelease]
  intro id
  cases heldId rt reservation with
  | none => simp
  | some held => by_cases h : held = id <;> simp [Event.resolves, Event.neutral, h]

/-! ## The protocol -/

/-- Folding a node into one of its identity adds nothing below a node. -/
theorem MemoryStore.Folded.nodesBelow_ids {store after : MemoryStore} {node : Node}
    (h : store.Folded node after) (id : String) :
    (after.nodesBelow id).map Node.id = (store.nodesBelow id).map Node.id := by
  obtain ⟨existing, -, -, rfl | ⟨metadata, rfl, -⟩⟩ := h
  · rfl
  · unfold nodesBelow replaceMeta
    dsimp only
    rw [List.filter_map, List.map_map]
    congr 1
    · funext other
      rw [Function.comp_apply]
      split <;> rfl
    · apply List.filter_congr
      intro other _
      rw [Function.comp_apply]
      split <;> rfl

theorem estimatedCharges_finite {estimates : Dict String Estimate} {reservationId : Option String}
    (h : ∀ e ∈ estimates.entries, e.1 ≠ "depth" → e.2 ≠ .infinite) :
    ∃ charges, estimatedCharges (some ⟨reservationId, estimates⟩) = .ok charges := by
  have hfold : ∀ (entries : List (String × Estimate)) (before : Dict String Value),
      (∀ e ∈ entries, e.2 ≠ .infinite) → ∃ charges, entries.foldlM
        (fun charges e => e.2.toJson.map fun json => charges.set e.1 json) before =
          Except.ok (ε := PyError) charges := by
    intro entries
    induction entries with
    | nil => exact fun before _ => ⟨before, rfl⟩
    | cons e entries ih =>
        intro before hfinite
        rw [List.forall_mem_cons] at hfinite
        obtain ⟨name, estimate⟩ := e
        cases estimate with
        | infinite => exact absurd rfl hfinite.1
        | finite q => exact ih _ hfinite.2
  refine hfold _ _ fun e he => ?_
  obtain ⟨hmem, hcondition⟩ := List.mem_filter.mp he
  simp only [decide_eq_true_eq] at hcondition
  exact h e ((List.mem_insertionSort _).mp hmem) hcondition.1

variable {H rt env}

theorem Passed.priced {s t : Session} {reservation : Option Reservation}
    (h : Passed rt env s reservation t)
    (hfinite : ∀ e ∈ (declaredEstimates env 0 rt.meters ∅).entries, e.2 ≠ .infinite) :
    ∃ charges, estimatedCharges reservation = .ok charges := by
  cases reservation with
  | none => exact ⟨∅, rfl⟩
  | some r =>
      obtain ⟨reservationId, estimates⟩ := r
      obtain ⟨depth, hestimates⟩ := h.estimates _ rfl
      refine estimatedCharges_finite fun e he hdepth => ?_
      dsimp only at hestimates
      rw [hestimates, Dict.mem_entries_iff, Dict.get?_set_of_ne _ _ hdepth.symm,
        ← Dict.mem_entries_iff] at he
      exact hfinite e he

theorem Passed.held {s t : Session} {reservation : Option Reservation}
    (h : Passed rt env s reservation t) :
    t.trace = ((heldId rt reservation).map Event.reserved).toList ++ s.trace := by
  rw [h.trace, heldId]
  split
  · rfl
  · next hfalse => rw [h.arbiter (by simpa using hfalse)]

theorem mem_invocation {invoked : Bool} {action : Option (Bool × List (ℕ × Decision))}
    {e : Event} : e ∈ invocation invoked action ↔ invoked = true ∧ e = .invoked action := by
  unfold invocation
  split <;> simp_all

/-- What was invoked and gave something was obtained. -/
theorem obtained_of_gave {flavor : Flavor} {keepChunks : Bool}
    {action : Option (Bool × List (ℕ × Decision))} {reservation : Option Reservation}
    {before after : List Event}
    (hgave : Gave env flavor keepChunks (before ++
      (invocation (dispatched rt flavor env keepChunks reservation).1 action ++ after)))
    (hothers : ∀ action, .invoked action ∉ before ∧ .invoked action ∉ after) :
    Obtained rt flavor env keepChunks reservation := by
  obtain ⟨⟨action', hmem⟩, hproduced⟩ := hgave
  rw [List.mem_append, List.mem_append] at hmem
  obtain ⟨hbefore, hafter⟩ := hothers action'
  exact ⟨(mem_invocation.mp ((hmem.resolve_left hbefore).resolve_right hafter)).1, hproduced⟩

/-- The node a call recorded is new below the cursor, or it was folded. -/
theorem recordedUnder_or_folded {s t u : Session} {charges : Dict String Value} {node : Node}
    {store : MemoryStore} (hconfigured : MemoryStore.Configured s.store t.store)
    (hrun : t.run = s.run) (hstore : t.store.put H node = .ok store)
    (hkind : node.kind ≠ .root) (hparent : node.parent = some t.run.cursorId)
    (hcharges : node.charges = charges.entries) (hu : u.store = store)
    (hcursor : u.run.cursorId = node.id) :
    RecordedUnder s u charges node ∨ FoldedUnder s u node := by
  have hbelow : t.store.nodesBelow s.run.cursorId = s.store.nodesBelow s.run.cursorId :=
    hconfigured.below s.run.cursorId
  rw [hrun] at hparent
  rcases MemoryStore.put_cases hstore with hadded | hfolded
  · refine .inl ⟨hparent, hcharges, hcursor, ?_⟩
    rw [hu, ← hbelow, MemoryStore.nodesBelow, hadded.2.2,
      List.filter_cons_of_pos (by simpa using hparent)]
    rfl
  · have hids := hfolded.nodesBelow_ids s.run.cursorId
    obtain ⟨existing, hfind, hidentity, -⟩ := hfolded
    refine .inr ⟨hcursor, ⟨existing, ?_, hidentity⟩, by rw [hu, hids, hbelow]⟩
    refine hconfigured.rooted existing (MemoryStore.mem_of_find? hfind).1 ?_
    rw [show existing.kind = node.kind from congrArg Identity.kind hidentity]
    exact hkind

theorem CallEnds.protocol {flavor : Flavor} {kind : NodeKind} {payload : Value} {attempt : ℤ}
    {keepChunks : Bool} {action : Option (Bool × List (ℕ × Decision))}
    {reservation : Option Reservation} {s t u : Session}
    (h : CallEnds H rt flavor env kind payload attempt keepChunks action reservation t u)
    (hpassed : Passed rt env s reservation t) (hattempt : 0 ≤ attempt)
    (hfinite : ∀ e ∈ (declaredEstimates env 0 rt.meters ∅).entries, e.2 ≠ .infinite)
    (hsettle : env.settle = .ok ()) (hrelease : env.release = .ok ())
    (hput : ∀ charges node,
      CallNode H env kind payload attempt reservation t.run.cursorId charges node →
      ∃ store, t.store.put H node = .ok store) :
    ∃ events, CallProtocol env flavor keepChunks s u events := by
  obtain ⟨estimated, hpriced⟩ := hpassed.priced hfinite
  have hrun := hpassed.run
  cases h with
  | released hobtained =>
      have hothers : ∀ action, .invoked action ∉ releasing rt env reservation ∧
          .invoked action ∉ ((heldId rt reservation).map Event.reserved).toList := by
        intro action
        rw [releasing_eq rt env hrelease]
        cases heldId rt reservation <;> simp
      refine ⟨releasing rt env reservation ++
        (invocation (dispatched rt flavor env keepChunks reservation).1 action ++
          ((heldId rt reservation).map Event.reserved).toList), ?_, ?_, ?_, ?_⟩
      · simp only [Session.log, hpassed.held, List.append_assoc]
      · exact resolvedOnce_released rt env hrelease reservation _ action
      · intro id _ hgave
        exact hobtained (obtained_of_gave hgave hothers)
      · intro hgave
        exact absurd (obtained_of_gave hgave hothers) hobtained
  | unpriced hfails herror =>
      obtain ⟨error, herror⟩ := herror
      rw [hpriced] at herror
      cases herror
  | unmade charges hfails hnegative _ => exact absurd hattempt (not_le.mpr hnegative)
  | lost charges hcompletes hfailed _ =>
      obtain ⟨-, error, herror⟩ := hfailed
      rw [hsettle] at herror
      cases herror
  | rejected charges node _ hnode herror hfailed =>
      obtain ⟨store, hok⟩ := hput charges node hnode
      obtain ⟨error, herror⟩ := herror
      rw [hok] at herror
      cases herror
  | recorded charges node store _ hnode hstore hsettled hfailed =>
      have hreviewed : ((if (settledScopes store t.run.budgetScopes).2 = none then
          [Event.reviewed t.run.scopes store] else []).filter fun e => ¬ e.neutral) = [] := by
        split <;> simp [Event.neutral]
      have hfilter := filter_settled rt env hsettle reservation t.run.scopes charges
        (dispatched rt flavor env keepChunks reservation).1 action hreviewed
      refine ⟨(if (settledScopes store t.run.budgetScopes).2 = none then
          [.reviewed t.run.scopes store] else []) ++
        (settlement rt env reservation t.run.scopes charges ++
          (invocation (dispatched rt flavor env keepChunks reservation).1 action ++
            ((heldId rt reservation).map Event.reserved).toList)), ?_, ?_, ?_, ?_⟩
      · simp only [Session.reviewed, Session.moved, Session.charged, Session.log, hpassed.held,
          List.append_assoc]
        rfl
      · apply resolvedOnce_of_filter
        rw [hfilter]
        exact resolvedOnce_settled rt
      · intro id hmem
        have hreleased := mem_of_filter_eq hfilter hmem rfl
        cases hheld : heldId rt reservation <;> simp [hheld] at hreleased
      · intro _
        refine ⟨charges, node, fun id hmem => ?_, recordedUnder_or_folded hpassed.store hrun
          hstore hnode.notRoot hnode.parent hnode.charged rfl rfl⟩
        have hreserved := mem_of_filter_eq hfilter hmem rfl
        apply List.mem_append_right
        apply List.mem_append_left
        unfold settlement
        rw [hsettle]
        cases hheld : heldId rt reservation with
        | none => simp [hheld] at hreserved
        | some held =>
            simp only [hheld, Option.map_some, Option.toList_some, List.mem_append,
              List.mem_singleton, reduceCtorEq, Event.reserved.injEq, false_or] at hreserved
            rw [hreserved]
            exact List.mem_cons_self

section Call

variable (H rt env) (kind : NodeKind) (payload : Value) (attempt : ℤ)

/-- The store takes every node a call may write after its precheck. -/
def StoreTakes (s : Session) : Prop :=
  ∀ reservation t, precheck H rt env kind payload.canonical s = .ok reservation t →
    ∀ charges node,
      CallNode H env kind payload.canonical attempt reservation t.run.cursorId charges node →
      ∃ store, t.store.put H node = .ok store

variable (flavor : Flavor) (keepChunks : Bool) (action : Option (Bool × List (ℕ × Decision)))

/-- The reservation of a call is resolved once, and what the call obtained is recorded,
while neither the arbiter nor the store raises. -/
theorem reservation_resolved_once (s : Session) (hkind : kind ≠ .root) (hattempt : 0 ≤ attempt)
    (hfinite : ∀ e ∈ (declaredEstimates env 0 rt.meters ∅).entries, e.2 ≠ .infinite)
    (hsettle : env.settle = .ok ()) (hrelease : env.release = .ok ())
    (hput : StoreTakes H rt env kind payload attempt s) :
    ∃ events, CallProtocol env flavor keepChunks s
      (after (callWith H rt flavor env kind payload attempt keepChunks action) s) events := by
  rcases @callWith_cases H rt env flavor kind payload attempt keepChunks action _ silent
    (fun payload => silent_recordedNode H rt env kind payload attempt)
    (fun payload => silent_precheck H rt env kind payload) hkind s with hsilent |
    ⟨reservation, t, -, -, hpassed, hends⟩
  · refine ⟨[], hsilent, fun id => ⟨Nat.zero_le 1, rfl⟩, fun id hmem => ?_, ?_⟩
    · cases hmem
    · rintro ⟨⟨action, hmem⟩, -⟩
      cases hmem
  · exact hends.protocol (precheck_ok H rt env hpassed).1 hattempt hfinite hsettle hrelease
      (hput reservation t hpassed)

variable {payload attempt}

end Call

end Runtime

/-! ## A call under a reservation -/

/-- A runtime that counts steps on a store with an arbiter. -/
def arbitratedRuntime : Runtime where
  meters := [stepMeter]
  transactional := true

/-- The session of a run that was just opened. -/
def openedSession (rt : Runtime) (budget : Option Budget) : Session where
  store := after (openedRun .plain rt false "r" budget 0) .empty
  run := match outcome (openedRun .plain rt false "r" budget 0) .empty with
    | .ok run => run
    | .error _ => ⟨"", "", "", [], ∅, ∅⟩
  trace := []

/-- A stream that fails after its first chunk. -/
def brokenStream : CallEnv :=
  { CallEnv.step with produced := .ok (.iterator [.dict []] (some .overflowError)) }

/-- A store takes the nodes of a call if what it has under their ids are the same nodes. -/
theorem storeTakes_of_identities {H : Hashing} {rt : Runtime} {env : CallEnv} {kind : NodeKind}
    {payload : Value} {attempt : ℤ} {s : Session}
    (h : ∀ reservation ∈ (outcome (precheck H rt env kind payload.canonical) s).toOption,
      (after (precheck H rt env kind payload.canonical) s).store.contains
        (after (precheck H rt env kind payload.canonical) s).run.cursorId = true ∧
      ∀ identity ∈ callIdentities H env kind payload.canonical attempt reservation
        (after (precheck H rt env kind payload.canonical) s).run.cursorId,
        ∀ existing ∈ (after (precheck H rt env kind payload.canonical) s).store.find?
          (H.node identity), existing.identity = identity) :
    StoreTakes H rt env kind payload attempt s := by
  intro reservation t hpassed charges node hnode
  unfold outcome after at h
  rw [hpassed] at h
  obtain ⟨hcursor, hsame⟩ := h reservation rfl
  refine MemoryStore.put_ok hnode.named (fun hroot => absurd hroot hnode.notRoot)
    (by simpa [hnode.parent] using hcursor) ?_
  rw [hnode.named]
  exact hsame node.identity hnode.identity

theorem reservation_resolved_once_brokenStream :
    ∃ events, CallProtocol brokenStream .sync false
      (openedSession arbitratedRuntime (some { steps := some 2 }))
      (after (callWith .plain arbitratedRuntime .sync brokenStream .modelCall (.dict []) 0 false
        none) (openedSession arbitratedRuntime (some { steps := some 2 }))) events :=
  reservation_resolved_once .plain arbitratedRuntime brokenStream .modelCall (.dict []) 0 .sync
    false none (openedSession arbitratedRuntime (some { steps := some 2 })) (by decide)
    (by decide) (by decide +kernel) rfl rfl (storeTakes_of_identities (by decide +kernel))

/-- A run that is back at its root after a call. -/
def repeatedSession : Session :=
  { after (rollback none 1) (after (callWith .plain stepsRuntime .sync .step .modelCall (.dict [])
      0 false none) (openedSession stepsRuntime none)) with trace := [] }

/-- A call that is made again adds no node. -/
theorem repeated_call_adds_nothing :
    ¬ ∀ (rt : Runtime) (env : CallEnv) (payload : Value) (attempt : ℤ) (s : Session),
      rt.mode = .record → 0 ≤ attempt →
      (∀ e ∈ (declaredEstimates env 0 rt.meters ∅).entries, e.2 ≠ .infinite) →
      env.settle = .ok () → env.release = .ok () →
      StoreTakes .plain rt env .modelCall payload attempt s →
      ∀ events, (after (callWith .plain rt .sync env .modelCall payload attempt false none)
          s).trace = events ++ s.trace →
        Gave env .sync false events → ∃ charges node, RecordedUnder s
          (after (callWith .plain rt .sync env .modelCall payload attempt false none) s) charges
          node := by
  intro h
  obtain ⟨charges, node, hrecorded⟩ := h stepsRuntime .step (.dict []) 0 repeatedSession rfl
    (by decide) (by decide +kernel) rfl rfl (storeTakes_of_identities (by decide +kernel)) _
    (List.append_nil _).symm ⟨⟨none, by decide +kernel⟩, _, rfl, .inl trivial⟩
  have hlength := congrArg List.length hrecorded.below
  revert hlength
  rw [List.length_cons]
  decide +kernel

/-! ## A settlement that fails -/

/-- The reservation of a call that takes a step. -/
def stepReservation : Option Reservation :=
  some ⟨some "reservation", .ofList [("steps", .finite 1), ("depth", .finite 1)]⟩

end Pollard
