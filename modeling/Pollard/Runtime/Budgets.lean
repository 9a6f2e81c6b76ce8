import Pollard.Runtime.Runs

/-!
# What a budget bounds

A check compares a limit with the total stored below an anchor.  What was charged under
a scope is part of that total as long as every charge goes to a new node below the
anchor of the scope.
-/

namespace Pollard

open Lib Effect

/-! ## Charges under a scope -/

/-- What an event charged under a scope on a meter. -/
def Event.chargeUnder (scope : Budget × String) (meter : String) : Event → Decimal
  | .charged scopes charges => if scope ∈ scopes then chargesOn charges.entries meter else 0
  | _ => 0

/-- What was charged under a scope on a meter. -/
def chargedUnder (trace : List Event) (scope : Budget × String) (meter : String) : Decimal :=
  (trace.map (Event.chargeUnder scope meter)).sum

section Charged

variable (scope : Budget × String) (meter : String)

@[simp] theorem chargedUnder_nil : chargedUnder [] scope meter = 0 := rfl

@[simp] theorem chargedUnder_append (trace trace' : List Event) :
    chargedUnder (trace ++ trace') scope meter =
      chargedUnder trace scope meter + chargedUnder trace' scope meter := by
  simp [chargedUnder]

theorem chargedUnder_quiet {events : List Event} (h : ∀ e ∈ events, e.quiet = true) :
    chargedUnder events scope meter = 0 := by
  refine List.sum_eq_zero fun q hq => ?_
  obtain ⟨e, he, rfl⟩ := List.mem_map.mp hq
  have hquiet := h e he
  cases e with
  | charged scopes charges => cases hquiet
  | _ => rfl

theorem chargedUnder_settlement (rt : Runtime) (env : CallEnv)
    (reservation : Option Reservation) (scopes : List (Budget × String))
    (charges : Dict String Value) :
    chargedUnder (settlement rt env reservation scopes charges) scope meter =
      if scope ∈ scopes then chargesOn charges.entries meter else 0 := by
  unfold settlement
  rw [chargedUnder_append]
  split <;> simp [chargedUnder, Event.chargeUnder]

theorem chargedUnder_invocation (invoked : Bool)
    (action : Option (Bool × List (ℕ × Decision))) :
    chargedUnder (invocation invoked action) scope meter = 0 := by
  unfold invocation
  split <;> simp [chargedUnder, Event.chargeUnder]

theorem chargedUnder_releasing (rt : Runtime) (env : CallEnv)
    (reservation : Option Reservation) :
    chargedUnder (releasing rt env reservation) scope meter = 0 := by
  apply chargedUnder_quiet
  intro e he
  unfold releasing at he
  split at he
  · rw [List.mem_singleton.mp he]
    rfl
  · cases he

theorem chargedUnder_reviewed (s : Session) :
    chargedUnder s.reviewed.trace scope meter = chargedUnder s.trace scope meter := by
  unfold Session.reviewed
  dsimp only
  rw [chargedUnder_append]
  split <;> simp [chargedUnder, Event.chargeUnder]

end Charged

/-! ## Sessions -/

/-- A session that went on; what it charged is in the store and within the limits. -/
structure Accounted (s t : Session) : Prop where
  kept : ∀ id, s.store.contains id = true → t.store.contains id = true
  cursor : s.store.contains s.run.cursorId = true → t.store.contains t.run.cursorId = true
  stored : ∀ scope meter, meter ≠ "depth" →
    chargedUnder t.trace scope meter + s.store.total scope.2 meter ≤
      chargedUnder s.trace scope meter + t.store.total scope.2 meter
  within : ∀ scope meter limit, meter ≠ "depth" → scope.1.limits.get? meter = some limit →
    chargedUnder t.trace scope meter = chargedUnder s.trace scope meter ∨
      chargedUnder t.trace scope meter + s.store.total scope.2 meter ≤
        chargedUnder s.trace scope meter + limit

theorem Accounted.of_quiet {s t : Session} (h : Quiet s t) : Accounted s t := by
  obtain ⟨events, htrace, hevents⟩ := h.trace
  have hcharged : ∀ scope meter,
      chargedUnder t.trace scope meter = chargedUnder s.trace scope meter := by
    intro scope meter
    rw [htrace, chargedUnder_append, chargedUnder_quiet scope meter hevents, zero_add]
  refine ⟨fun id hid => (h.store.kept id hid).1, h.cursor, fun scope meter _ => ?_,
    fun scope meter _ _ _ => .inl (hcharged scope meter)⟩
  rw [hcharged, h.store.total]

theorem Accounted.log {s : Session} {events : List Event}
    (h : ∀ scope meter, chargedUnder events scope meter = 0) : Accounted s (s.log events) := by
  have hcharged : ∀ scope meter,
      chargedUnder (s.log events).trace scope meter = chargedUnder s.trace scope meter := by
    intro scope meter
    rw [Session.log, chargedUnder_append, h, zero_add]
  exact ⟨fun _ h => h, fun h => h, fun scope meter _ => by rw [hcharged]; rfl,
    fun scope meter _ _ _ => .inl (hcharged scope meter)⟩

theorem Accounted.trans {s m t : Session} (h : Quiet s m) (h' : Accounted m t) :
    Accounted s t := by
  have hquiet := Accounted.of_quiet h
  obtain ⟨events, htrace, hevents⟩ := h.trace
  have hcharged : ∀ scope meter,
      chargedUnder m.trace scope meter = chargedUnder s.trace scope meter := by
    intro scope meter
    rw [htrace, chargedUnder_append, chargedUnder_quiet scope meter hevents, zero_add]
  refine ⟨fun id hid => h'.kept id (hquiet.kept id hid),
    fun hcursor => h'.cursor (hquiet.cursor hcursor), fun scope meter hmeter => ?_,
    fun scope meter limit hmeter hlimit => ?_⟩
  · rw [← hcharged, ← h.store.total]
    exact h'.stored scope meter hmeter
  · rw [← hcharged, ← h.store.total]
    exact h'.within scope meter limit hmeter hlimit

/-! ## Charging a new node -/

/-- Charges that fit under every scope of a run that is below its anchor. -/
structure Fits (s : Session) (charges : Dict String Value) : Prop where
  below : ∀ scope ∈ s.run.scopes, scope.2 ∈ s.store.ancestors s.run.cursorId
  nonneg : ∀ meter ≠ "depth", 0 ≤ chargesOn charges.entries meter
  within : ∀ scope ∈ s.run.scopes, ∀ meter limit, meter ≠ "depth" →
    scope.1.limits.get? meter = some limit → chargesOn charges.entries meter = 0 ∨
      s.store.total scope.2 meter + chargesOn charges.entries meter ≤ limit

/-- Charges that fit are accounted for by a new node that carries them. -/
theorem Fits.accounted {s : Session} {charges : Dict String Value} (h : Fits s charges)
    {events : List Event} {node : Node} {store : MemoryStore}
    (hevents : ∀ scope meter, chargedUnder events scope meter =
      if scope ∈ s.run.scopes then chargesOn charges.entries meter else 0)
    (hparent : node.parent = some s.run.cursorId) (hcharges : node.charges = charges.entries)
    (hadded : s.store.Added node store) :
    Accounted s ((s.log events).moved store node.id).reviewed := by
  have hcharged : ∀ scope meter,
      chargedUnder ((s.log events).moved store node.id).reviewed.trace scope meter =
        (if scope ∈ s.run.scopes then chargesOn charges.entries meter else 0) +
          chargedUnder s.trace scope meter := by
    intro scope meter
    rw [chargedUnder_reviewed, Session.moved, Session.log, chargedUnder_append, hevents]
  have htotal : ∀ scope meter, store.total scope meter = s.store.total scope meter +
      if scope = node.id ∨ scope ∈ s.store.ancestors s.run.cursorId then
        chargesOn charges.entries meter
      else 0 := by
    intro scope meter
    rw [hadded.total_eq hparent, hcharges]
  constructor
  · exact fun id hid => (hadded.kept id hid).1
  · exact fun _ => (hadded.contains node.id).mpr (.inl rfl)
  · intro scope meter hmeter
    have hnonneg := h.nonneg meter hmeter
    rw [hcharged]
    change _ ≤ _ + store.total scope.2 meter
    rw [htotal]
    by_cases hscope : scope ∈ s.run.scopes
    · rw [if_pos hscope, if_pos (.inr (h.below scope hscope))]
      linarith
    · rw [if_neg hscope]
      split <;> linarith
  · intro scope meter limit hmeter hlimit
    rw [hcharged]
    by_cases hscope : scope ∈ s.run.scopes
    · rw [if_pos hscope]
      rcases h.within scope hscope meter limit hmeter hlimit with hzero | hfits
      · exact .inl (by rw [hzero, zero_add])
      · exact .inr (by linarith)
    · exact .inl (by rw [if_neg hscope, zero_add])

section Runtime

variable (H : Hashing) (rt : Runtime)

/-! ## What a call needs -/

/-- None of the nodes a call may write is stored. -/
def Unwritten (env : CallEnv) (kind : NodeKind) (payload : Value) (attempt : ℤ)
    (reservation : Option Reservation) (store : MemoryStore) (cursorId : String) : Prop :=
  ∀ identity ∈ callIdentities H env kind payload attempt reservation cursorId,
    store.contains (H.node identity) = false

instance (env : CallEnv) (kind : NodeKind) (payload : Value) (attempt : ℤ)
    (reservation : Option Reservation) (store : MemoryStore) (cursorId : String) :
    Decidable (Unwritten H env kind payload attempt reservation store cursorId) :=
  inferInstanceAs (Decidable (∀ identity ∈ callIdentities H env kind payload attempt reservation
    cursorId, store.contains (H.node identity) = false))

section Call

variable {H} {rt} {env : CallEnv} {kind : NodeKind} {payload : Value} {attempt : ℤ}
  {reservation : Option Reservation}

theorem callIdentities_canonical {cursorId : String} :
    callIdentities H env kind payload.canonical attempt reservation cursorId =
      callIdentities H env kind payload attempt reservation cursorId := by
  simp only [callIdentities, Value.canonical_canonical]

/-- Without an arbiter a call writes the same nodes whatever was reserved. -/
theorem callIdentities_unreserved {cursorId : String}
    (h : reservation.bind Reservation.reservationId = none) :
    callIdentities H env kind payload attempt reservation cursorId =
      callIdentities H env kind payload attempt none cursorId := by
  simp [callIdentities, failurePayload, h]

/-- The node of a call is new if it is not stored. -/
theorem CallNode.put_fresh {store : MemoryStore} {cursorId : String}
    {charges : Dict String Value} {node : Node}
    (hnode : CallNode H env kind payload attempt reservation cursorId charges node)
    (hcursor : store.contains cursorId = true)
    (hfresh : store.contains (H.node node.identity) = false) :
    ∃ after, store.put H node = .ok after ∧ store.Added node after := by
  have hfind : store.find? node.id = none := by
    rw [MemoryStore.contains, Option.isSome_eq_false_iff, Option.isNone_iff_eq_none] at hfresh
    rw [hnode.named]
    exact hfresh
  obtain ⟨after, hput⟩ := MemoryStore.put_ok hnode.named (fun h => absurd h hnode.notRoot)
    (by simpa [hnode.parent] using hcursor) (by simp [hfind])
  refine ⟨after, hput, ?_⟩
  rcases MemoryStore.put_cases hput with hadded | ⟨existing, hexisting, -⟩
  · exact hadded
  · rw [hfind] at hexisting
    cases hexisting

theorem CallNode.put_unwritten {store : MemoryStore} {cursorId : String}
    {charges : Dict String Value} {node : Node}
    (hnode : CallNode H env kind payload attempt reservation cursorId charges node)
    (hcursor : store.contains cursorId = true)
    (hunwritten : Unwritten H env kind payload attempt reservation store cursorId) :
    ∃ after, store.put H node = .ok after ∧ store.Added node after :=
  hnode.put_fresh hcursor (hunwritten node.identity hnode.identity)

theorem not_settleFails (h : rt.transactional = false) : ¬ SettleFails rt env reservation := by
  unfold SettleFails heldId
  simp [h]

/-- A call with unwritten nodes and fitting charges is accounted for. -/
theorem CallEnds.accounted {flavor : Flavor} {keepChunks : Bool}
    {action : Option (Bool × List (ℕ × Decision))} {s t : Session}
    (h : CallEnds H rt flavor env kind payload attempt keepChunks action reservation s t)
    (htransactional : rt.transactional = false) (hattempt : 0 ≤ attempt)
    (hcursor : s.store.contains s.run.cursorId = true)
    (hunwritten : Unwritten H env kind payload attempt reservation s.store s.run.cursorId)
    (hfits : ∀ charges, Priced rt env reservation charges → Fits s charges) :
    Accounted s t := by
  cases h with
  | released hobtained =>
      apply Accounted.log
      intro scope meter
      rw [chargedUnder_append, chargedUnder_releasing, chargedUnder_invocation, add_zero]
  | unpriced hfails hpriced => exact .log fun _ _ => chargedUnder_invocation _ _ _ _
  | unmade charges hfails hnegative hpriced => exact absurd hnegative (not_lt.mpr hattempt)
  | lost charges hcompletes hsettle hpriced =>
      exact absurd hsettle (not_settleFails htransactional)
  | rejected charges node hpriced hnode hput hfailed =>
      obtain ⟨after, hok, -⟩ := hnode.put_unwritten hcursor hunwritten
      obtain ⟨error, herror⟩ := hput
      rw [hok] at herror
      cases herror
  | recorded charges node store hpriced hnode hput hsettle hfailed =>
      obtain ⟨after, hok, hadded⟩ := hnode.put_unwritten hcursor hunwritten
      rw [hok] at hput
      cases hput
      refine (hfits charges hpriced).accounted (fun scope meter => ?_) hnode.parent
        hnode.charged hadded
      rw [chargedUnder_append, chargedUnder_settlement, chargedUnder_invocation, add_zero]

theorem DryRunEnds.accounted {s t : Session}
    (h : DryRunEnds H rt env payload attempt reservation s t)
    (htransactional : rt.transactional = false) (hattempt : 0 ≤ attempt)
    (hcursor : s.store.contains s.run.cursorId = true)
    (hunwritten : Unwritten H env .toolCall payload attempt reservation s.store s.run.cursorId)
    (hfits : Fits s dryRunCharges) : Accounted s t := by
  cases h with
  | unrecorded hwhy =>
      rcases hwhy with hsettle | hnegative | ⟨node, error, hnode, herror⟩
      · exact absurd hsettle (not_settleFails htransactional)
      · exact absurd hnegative (not_lt.mpr hattempt)
      · obtain ⟨after, hok, -⟩ := hnode.put_unwritten hcursor hunwritten
        rw [hok] at herror
        cases herror
  | recorded node store hnode hput =>
      obtain ⟨after, hok, hadded⟩ := hnode.put_unwritten hcursor hunwritten
      rw [hok] at hput
      cases hput
      exact hfits.accounted (fun scope meter => chargedUnder_settlement scope meter rt env
        reservation s.run.scopes dryRunCharges) hnode.parent hnode.charged hadded

end Call

/-! ## Operations -/

/-- The charges a call may be recorded with: of its meters, its estimates, or a dry
run. -/
def Recordable (env : CallEnv) (charges : Dict String Value) : Prop :=
  (∃ reservationId depth, Priced rt env
    (some ⟨reservationId, (declaredEstimates env 0 rt.meters ∅).set "depth" depth⟩) charges) ∨
  rt.dryRun = true ∧ charges = dryRunCharges

/-- No charge is negative or above its estimate. -/
def ExactEstimates (env : CallEnv) : Prop :=
  ∀ charges, Recordable rt env charges → ∀ meter ≠ "depth",
    0 ≤ chargesOn charges.entries meter ∧ (chargesOn charges.entries meter = 0 ∨
      ∃ q, estimateOn rt env meter = some (.finite q) ∧ chargesOn charges.entries meter ≤ q)

/-- A total that is not rounded below itself where it is read. -/
def ReadsFully (store : MemoryStore) (scope : BudgetScope) : Prop :=
  ∀ e ∈ scope.budget.limits.entries, e.1 ≠ "depth" →
    store.total scope.anchorId e.1 ≤ viaFloat (store.total scope.anchorId e.1)

instance (store : MemoryStore) (scope : BudgetScope) : Decidable (ReadsFully store scope) :=
  inferInstanceAs (Decidable (∀ e ∈ scope.budget.limits.entries, _ → _))

/-- A call is made below every anchor of its run, and none of the nodes it may write is
stored. -/
def StaysBelow (store : MemoryStore) (run : Run) (env : CallEnv) (op : Op) : Prop :=
  ∀ call ∈ op.call? H rt run, 0 ≤ call.2.2 ∧
    Unwritten H env call.1 call.2.1 call.2.2 none store run.cursorId ∧
    ∀ scope ∈ run.budgetScopes, scope.anchorId ∈ store.ancestors run.cursorId ∧
      ReadsFully store scope

instance (store : MemoryStore) (run : Run) (env : CallEnv) (op : Op) :
    Decidable (StaysBelow H rt store run env op) :=
  inferInstanceAs (Decidable (∀ call ∈ op.call? H rt run, _ ∧ _ ∧ _))

variable {H} {rt}

/-- A reserved call that was let through fits. -/
theorem Passed.fits {env : CallEnv} {s t : Session} {reservation : Option Reservation}
    (h : Passed rt env s reservation t) (hstore : t.store = s.store)
    (hexact : ExactEstimates rt env)
    (hscopes : ∀ scope ∈ s.run.budgetScopes,
      scope.anchorId ∈ s.store.ancestors s.run.cursorId ∧ ReadsFully s.store scope)
    {charges : Dict String Value} (hrecordable : Recordable rt env charges) : Fits t charges := by
  have hrun := h.run
  have hcovered := hexact charges hrecordable
  constructor
  · intro scope hscope
    rw [hrun] at hscope
    obtain ⟨scope, hmem, rfl⟩ := List.mem_map.mp hscope
    rw [hstore, hrun]
    exact (hscopes scope hmem).1
  · exact fun meter hmeter => (hcovered meter hmeter).1
  · intro scope hscope meter limit hmeter hlimit
    rw [hrun] at hscope
    obtain ⟨scope, hmem, rfl⟩ := List.mem_map.mp hscope
    obtain hzero | ⟨q, hestimate, hle⟩ := (hcovered meter hmeter).2
    · exact .inl hzero
    · right
      have hroom := (h.allows scope hmem meter limit hmeter hlimit).2 _ hestimate
      have hread := (hscopes scope hmem).2 (meter, limit) (Dict.mem_entries_iff.mpr hlimit)
        hmeter
      rw [hstore] at hroom ⊢
      simp only [Estimate.exceeds, not_lt] at hroom
      dsimp only at hread ⊢
      linarith

theorem Op.call?_kind {op : Op} {run : Run} {call : NodeKind × Value × ℤ}
    (h : op.call? H rt run = some call) : call.1 = .modelCall ∨ call.1 = .toolCall := by
  cases op with
  | modelCall payload attempt keepChunks =>
      cases h
      exact .inl rfl
  | toolCall name args passesFn version attempt =>
      right
      rw [Op.call?] at h
      split at h
      · cases h
        rfl
      · obtain ⟨spec, -, hspec⟩ := Option.bind_eq_some_iff.mp h
        obtain ⟨auditArgs, -, rfl⟩ := Option.map_eq_some_iff.mp hspec
        rfl
  | confirm token =>
      obtain ⟨pending, -, rfl⟩ := Option.map_eq_some_iff.mp h
      exact .inr rfl
  | note payload attempt => cases h
  | branch attempt budget => cases h
  | rollback nodeId steps => cases h
  | prune => cases h

/-- What a reserved call is charged can be recorded. -/
theorem Passed.recordable {env : CallEnv} {s t : Session} {reservation : Option Reservation}
    (h : Passed rt env s reservation t) (hsome : reservation.isSome)
    {charges : Dict String Value} (hpriced : Priced rt env reservation charges) :
    Recordable rt env charges := by
  obtain ⟨⟨reservationId, estimates⟩, rfl⟩ := Option.isSome_iff_exists.mp hsome
  obtain ⟨depth, hestimates⟩ := h.estimates _ rfl
  dsimp only at hestimates
  rw [hestimates] at hpriced
  exact .inl ⟨reservationId, depth, hpriced⟩

theorem OpEnds.accounted {flavor : Flavor} {env : CallEnv} {op : Op} {s t : Session}
    (h : OpEnds H rt env flavor op s t) (htransactional : rt.transactional = false)
    (hcursor : s.store.contains s.run.cursorId = true) (hexact : ExactEstimates rt env)
    (hbelow : StaysBelow H rt s.store s.run env op) : Accounted s t := by
  cases h with
  | quiet hquiet => exact .of_quiet hquiet
  | suspended id pending approved hregistry hop happroved hsuspension =>
      exact ⟨fun _ h => h, fun h => h, fun _ _ _ => le_refl _, fun _ _ _ _ _ => .inl rfl⟩
  | @dry m t t' payload attempt reservation hbefore hmode hcall hdry hpassed hends =>
      obtain ⟨hattempt, hunwritten, hscopes⟩ := hbelow _ hcall
      obtain ⟨hpassed, -⟩ := precheck_ok H rt env hpassed
      have hstore := hpassed.unshared htransactional hmode
      rw [← hbefore.store, ← hbefore.cursor] at hunwritten hcursor
      rw [← hbefore.store, ← hbefore.cursor, ← hbefore.quiet.scopes] at hscopes
      rw [← hstore, ← hpassed.run] at hunwritten hcursor
      refine .trans (hbefore.quiet.trans hpassed.quiet) (hends.accounted htransactional hattempt
        hcursor ?_ (hpassed.fits hstore hexact hscopes (.inr ⟨hdry, rfl⟩)))
      rw [Unwritten, callIdentities_unreserved (hpassed.arbiter htransactional)]
      exact hunwritten
  | @called m t t' kind payload attempt keepChunks action reservation hbefore hmode hcall haction
      hpassed hends =>
      obtain ⟨hattempt, hunwritten, hscopes⟩ := hbelow _ hcall
      obtain ⟨hpassed, hsome⟩ := precheck_ok H rt env hpassed
      have hstore := hpassed.unshared htransactional hmode
      rw [← hbefore.store, ← hbefore.cursor] at hunwritten hcursor
      rw [← hbefore.store, ← hbefore.cursor, ← hbefore.quiet.scopes] at hscopes
      rw [← hstore, ← hpassed.run] at hunwritten hcursor
      refine .trans (hbefore.quiet.trans hpassed.quiet) (hends.accounted htransactional hattempt
        hcursor ?_ fun charges hpriced => hpassed.fits hstore hexact hscopes
          (hpassed.recordable (hsome (Op.call?_kind hcall)) hpriced))
      rw [Unwritten, callIdentities_canonical,
        callIdentities_unreserved (hpassed.arbiter htransactional)]
      exact hunwritten

/-! ## Runs -/

/-- The runs stand at stored nodes, and what was charged under a scope is stored below
its anchor and within its limits. -/
structure Bounded (w : World) : Prop where
  cursors : ∀ handle ∈ w.handles, w.store.contains handle.run.cursorId = true
  stored : ∀ scope meter, meter ≠ "depth" →
    chargedUnder w.trace scope meter ≤ w.store.total scope.2 meter
  within : ∀ scope meter limit, meter ≠ "depth" → scope.1.limits.get? meter = some limit →
    chargedUnder w.trace scope meter ≤ limit

theorem Bounded.grown {w : World} {store : MemoryStore} {handles : List Handle}
    (h : Bounded w) (hgrown : MemoryStore.Grown w.store store)
    (hhandles : ∀ handle ∈ handles, handle ∈ w.handles ∨
      store.contains handle.run.cursorId = true) : Bounded { w with store, handles } := by
  refine ⟨fun handle hhandle => ?_, fun scope meter hmeter => ?_, h.within⟩
  · rcases hhandles handle hhandle with hold | hnew
    · exact (hgrown.kept _ (h.cursors handle hold)).1
    · exact hnew
  · change _ ≤ store.total scope.2 meter
    rw [hgrown.total]
    exact h.stored scope meter hmeter

/-- The estimates of an operation are exact. -/
def Input.ExactEstimates (rt : Runtime) : Input → Prop
  | .acted _ _ env _ => Pollard.ExactEstimates rt env
  | .opened _ _ _ _ => True

variable (H) (rt)

/-- Whoever calls stays below its anchors. -/
def CallsBelow (w : World) : Input → Prop
  | .acted index _ env op =>
      ∀ handle ∈ w.handles[index]?, StaysBelow H rt w.store handle.run env op
  | .opened _ _ _ _ => True

instance (w : World) : (input : Input) → Decidable (CallsBelow H rt w input)
  | .acted index _ env op => inferInstanceAs (Decidable
      (∀ handle ∈ w.handles[index]?, StaysBelow H rt w.store handle.run env op))
  | .opened _ _ _ _ => inferInstanceAs (Decidable True)

theorem bounded_step (htransactional : rt.transactional = false) (w : World) (input : Input)
    (hw : Bounded w) (hinput : input.ExactEstimates rt ∧ CallsBelow H rt w input) :
    Bounded (w.step H rt input) := by
  have hstep := stepped H rt w input
  generalize w.step H rt input = after at hstep
  cases hstep with
  | @opened _ _ _ _ run store hgrown hopened =>
      refine hw.grown hgrown fun handle hhandle => ?_
      rcases List.mem_append.mp hhandle with hhandle | hhandle
      · exact .inl hhandle
      · rw [List.mem_singleton.mp hhandle]
        exact .inr hopened.cursor
  | failed hgrown => exact hw.grown hgrown fun handle hhandle => .inl hhandle
  | idle => exact hw
  | @acted index flavor env op handle s child hhandle hends hchild =>
      have haccounted := hends.accounted htransactional
        (hw.cursors handle (List.mem_of_getElem? hhandle)) hinput.1 (hinput.2 handle hhandle)
      refine ⟨fun other hother => ?_, fun scope meter hmeter => ?_,
        fun scope meter limit hmeter hlimit => ?_⟩
      · rcases mem_afterOp hother with hother | rfl | ⟨run, hrun, rfl⟩
        · exact haccounted.kept _ (hw.cursors other hother)
        · exact haccounted.cursor (hw.cursors handle (List.mem_of_getElem? hhandle))
        · obtain ⟨attempt, budget, -, hbranched⟩ := hchild run hrun
          exact hbranched.cursor
      · have hstored := haccounted.stored scope meter hmeter
        have hbefore := hw.stored scope meter hmeter
        simp only [World.session, chargedUnder_nil] at hstored
        change chargedUnder (s.trace ++ w.trace) scope meter ≤ s.store.total scope.2 meter
        rw [chargedUnder_append]
        linarith
      · have hstored := hw.stored scope meter hmeter
        have hbefore := hw.within scope meter limit hmeter hlimit
        change chargedUnder (s.trace ++ w.trace) scope meter ≤ limit
        rw [chargedUnder_append]
        rcases haccounted.within scope meter limit hmeter hlimit with hsame | hwithin
        · rw [hsame]
          simpa [World.session] using hbefore
        · simp only [World.session, chargedUnder_nil] at hwithin
          linarith

end Runtime

/-! ## Repeated calls -/

/-- A runtime that counts steps. -/
def stepsRuntime : Runtime where
  meters := [stepMeter]

theorem recordable_steps {charges : Dict String Value}
    (h : Recordable stepsRuntime .step charges) : charges = .ofList [("steps", .int 1)] := by
  rcases h with ⟨reservationId, depth, ⟨result, fallbacks, h⟩ | h⟩ | ⟨hdry, -⟩
  · simp [meterCharges, stepsRuntime, CallEnv.step, fallbackReason, bind, Except.bind,
      Estimate.toJson] at h
    rw [← h.1]
    rfl
  · have hsorted : sortedItems ((declaredEstimates .step 0 stepsRuntime.meters ∅).set "depth"
        depth) = [("depth", depth), ("steps", .finite 1)] := by
      simp [sortedItems, declaredEstimates, stepsRuntime, CallEnv.step, stepMeter, Dict.set,
        Assoc.upsert]
    simp [estimatedCharges, hsorted, Estimate.toJson] at h
    cases h
    rfl
  · cases hdry

theorem exactEstimates_steps : ExactEstimates stepsRuntime .step := by
  intro charges hcharges meter hmeter
  rw [recordable_steps hcharges]
  have hcharged : chargesOn (Dict.ofList [("steps", Value.int 1)]).entries meter =
      if "steps" = meter then 1 else 0 := by
    change chargesOn (("steps", Value.int 1) :: []) meter = _
    rw [chargesOn_cons]
    simp [amountOf, chargesOn]
  rw [hcharged]
  split
  · next hsteps =>
      subst hsteps
      exact ⟨by decide, .inr ⟨1, by decide, le_refl 1⟩⟩
  · exact ⟨le_refl 0, .inl rfl⟩

/-- A run with two steps branches off one with one step; both call. -/
def branchedCalls : List Input :=
  [.opened false "r" (some .twoSteps) 0,
    .acted 0 .sync .step (.branch 0 (some .oneStep)),
    .acted 1 .sync .step (.modelCall (.dict []) 0 false),
    .acted 0 .sync .step (.modelCall (.dict []) 0 false),
    .acted 0 .sync .step (.modelCall (.dict []) 0 false)]

/-- A call that is made again after each rollback. -/
def repeatedCalls : List Input :=
  let call := .acted 0 .sync .step (.modelCall (.dict []) 0 false)
  let back := .acted 0 .sync .step (.rollback none 1)
  [.opened false "r" (some .twoSteps) 0, call, back, call, back, call]

end Pollard
