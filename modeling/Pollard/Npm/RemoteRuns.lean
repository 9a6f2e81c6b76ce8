import Pollard.Npm.RemoteCapacity

/-!
# Runs of the remote state machine

A batch is the operations it applies.  Along them, a node gets its result once, from its owner.
-/

namespace Pollard.Npm.Remote

open Lib Lib.Fallible Stores.Transactional

/-! ## The operations of a run -/

/-- An operation that ran, and the document it made. -/
structure Transition where
  operation : Operation
  after : RemoteState

/-- The operations a batch applies. -/
def batchTransitions (lib : Library) (now : Instant) :
    List (Option Operation) → RemoteState → List Transition
  | some operation :: operations, state =>
      match applyOperation lib state operation now with
      | .ok (after, _) => ⟨operation, after⟩ :: batchTransitions lib now operations after
      | .error _ => []
  | _, _ => []

/-- The operations of a call, none where it raises. -/
def transitions (lib : Library) (now : Instant) (state : RemoteState) (call : Call) :
    List Transition :=
  match applyRemoteOperation lib state call now with
  | .error _ => []
  | .ok (after, _) =>
      match call with
      | .operation operation => [⟨operation, after⟩]
      | .commitBatch _ (some operations) => batchTransitions lib now operations state
      | _ => []

/-- The operations of a run. -/
def Backend.transitions (lib : Library) : Backend → List Received → List Transition
  | _, [] => []
  | b, r :: rs =>
      Remote.transitions lib r.now b.state r.call ++ Backend.transitions lib (b.step lib r) rs

/-- Operations that ran one after the other. -/
inductive Chain (lib : Library) : RemoteState → List Transition → RemoteState → Prop
  | nil (state : RemoteState) : Chain lib state [] state
  | cons {state middle last : RemoteState} {operation : Operation} {now : Instant}
      {reply : Reply} {rest : List Transition}
      (ran : applyOperation lib state operation now = .ok (middle, reply))
      (chain : Chain lib middle rest last) : Chain lib state (⟨operation, middle⟩ :: rest) last

section Chains

variable {lib : Library} {now : Instant}

theorem Chain.append {state middle last : RemoteState} {ts us : List Transition}
    (h : Chain lib state ts middle) (h' : Chain lib middle us last) :
    Chain lib state (ts ++ us) last := by
  induction h with
  | nil => exact h'
  | cons ran _ ih => exact .cons ran (ih h')

theorem chain_batch {operations : List (Option Operation)} {state after : RemoteState}
    {replies : List Reply} (h : applyBatch lib now operations state = .ok (after, replies)) :
    Chain lib state (batchTransitions lib now operations state) after := by
  induction operations generalizing state replies with
  | nil =>
      cases h
      exact .nil _
  | cons operation operations ih =>
      cases operation with
      | none => cases h
      | some operation =>
          rw [applyBatch] at h
          obtain ⟨_, -, h⟩ := bind_ok_iff.mp h
          obtain ⟨applied, happly, h⟩ := bind_ok_iff.mp h
          obtain ⟨rest, hrest, h⟩ := bind_ok_iff.mp h
          obtain ⟨rfl, -⟩ := Prod.mk.inj (Except.ok.inj h)
          rw [batchTransitions, happly]
          exact .cons happly (ih hrest)

/-- The operations of a call lead to the document it leaves. -/
theorem chain_call (b : Backend) (r : Received) :
    Chain lib b.state (transitions lib r.now b.state r.call) (b.step lib r).state := by
  unfold Backend.step transitions
  cases hcall : applyRemoteOperation lib b.state r.call r.now with
  | error => exact .nil _
  | ok applied =>
      obtain ⟨after, reply⟩ := applied
      dsimp only
      cases hkind : r.call with
      | operation operation =>
          rw [hkind] at hcall
          exact .cons hcall (.nil _)
      | unsupported method =>
          rw [hkind] at hcall
          cases hcall
      | commitBatch digest operations =>
          rw [hkind, applyRemoteOperation] at hcall
          obtain ⟨q, hnow, hcall⟩ := bind_ok_iff.mp hcall
          obtain ⟨_, -, hcall⟩ := bind_ok_iff.mp hcall
          obtain ⟨_, -, hcall⟩ := bind_ok_iff.mp hcall
          have hq : q = r.now := (Option.some.inj (finite_ok hnow).1).symm
          split at hcall
          · cases hcall
          · obtain ⟨applied, hbatch, hcall⟩ := bind_ok_iff.mp hcall
            obtain ⟨_, -, hcall⟩ := bind_ok_iff.mp hcall
            obtain ⟨rfl, -⟩ := Prod.mk.inj (Except.ok.inj hcall)
            rw [hq] at hbatch
            exact chain_batch hbatch

theorem chain_run (b : Backend) (received : List Received) :
    Chain lib b.state (b.transitions lib received)
      (Machine.run (Backend.step lib) b received).state := by
  induction received generalizing b with
  | nil => exact .nil _
  | cons r received ih => exact (chain_call b r).append (ih (b.step lib r))

end Chains

/-! ## What an operation does to a node -/

/-- The result of a record. -/
def StorageRecord.stored (record : StorageRecord) : Option Units × Option String :=
  (record.resultText, record.resultDigest)

/-- The owner an operation names for a node it makes. -/
def Operation.owner : Operation → Option String
  | .put _ owner => owner.join
  | .claim _ owner => owner
  | _ => none

/-- The record an operation may make a node of. -/
def Operation.record : Operation → Option StorageRecord
  | .put record _ => record
  | .claim record _ => record
  | _ => none

section Nodes

variable {lib : Library} {now : Instant} {state after : RemoteState} {id : String}
  {record record' : StorageRecord}

theorem fromStorage_ok {node : Node} (h : fromStorage lib record = .ok node) :
    node.toStorageRecord = record := by
  rw [fromStorage] at h
  obtain ⟨_, -, h⟩ := bind_ok_iff.mp h
  obtain ⟨_, -, h⟩ := bind_ok_iff.mp h
  obtain ⟨_, -, h⟩ := bind_ok_iff.mp h
  obtain ⟨_, -, h⟩ := bind_ok_iff.mp h
  obtain ⟨_, -, h⟩ := bind_ok_iff.mp h
  obtain ⟨_, -, h⟩ := bind_ok_iff.mp h
  obtain ⟨_, -, h⟩ := bind_ok_iff.mp h
  obtain ⟨_, -, h⟩ := bind_ok_iff.mp h
  cases h
  rfl

theorem nodeArgument_ok {argument : Option StorageRecord} {node : Node}
    (h : nodeArgument lib argument = .ok node) : argument = some node.toStorageRecord := by
  cases argument with
  | none => cases h
  | some record => rw [fromStorage_ok h]

theorem getNode_ok {argument : Option String} {node : Node}
    (h : getNode lib state argument = .ok node) :
    ∃ key, argument = some key ∧ state.nodes.get? key = some node.toStorageRecord := by
  rw [getNode] at h
  obtain ⟨key, hkey, h⟩ := bind_ok_iff.mp h
  refine ⟨key, text_ok hkey, ?_⟩
  split at h
  · cases h
  · next stored hstored => rw [hstored, fromStorage_ok h]

/-- In a document that was validated, a node has the id it is stored under. -/
theorem id_of_valid (hvalid : validateState lib state = .ok ())
    (hget : state.nodes.get? id = some record) : record.id = id := by
  rw [validateState] at hvalid
  obtain ⟨_, hnodes, -⟩ := bind_ok_iff.mp hvalid
  have hone := checkAll_ok_iff.mp hnodes (id, record) (Dict.mem_entries_iff.mpr hget)
  rw [validateNode] at hone
  obtain ⟨node, hnode, hone⟩ := bind_ok_iff.mp hone
  obtain ⟨_, hid, -⟩ := bind_ok_iff.mp hone
  have hid := ensure_ok_iff.mp hid
  rwa [fromStorage_ok hnode] at hid

/-- In a document that was validated, an owner has a node. -/
theorem owner_of_valid (hvalid : validateState lib state = .ok ())
    (hget : state.nodes.get? id = none) : state.owners.get? id = none := by
  rw [validateState] at hvalid
  obtain ⟨_, -, hvalid⟩ := bind_ok_iff.mp hvalid
  obtain ⟨_, howners, -⟩ := bind_ok_iff.mp hvalid
  by_contra howner
  obtain ⟨owner, howner⟩ := Option.ne_none_iff_exists'.mp howner
  have hone := checkAll_ok_iff.mp howners (id, owner) (Dict.mem_entries_iff.mpr howner)
  rw [validateOwner] at hone
  obtain ⟨_, -, hone⟩ := bind_ok_iff.mp hone
  have hany := ensure_ok_iff.mp hone
  dsimp only at hany
  rw [hget] at hany
  cases hany

/-- The result of a node stays, and its owner stays or goes. -/
def Keeps (id : String) (state after : RemoteState) : Prop :=
  ∀ record, state.nodes.get? id = some record →
    (∀ record', after.nodes.get? id = some record' → record'.stored = record.stored) ∧
      (after.owners.get? id = state.owners.get? id ∨ after.owners.get? id = none)

/-- A node that is new is the one of the record, and has no owner or the one that is named. -/
def Makes (argument : Option StorageRecord) (owner : Option String) (id : String)
    (state after : RemoteState) : Prop :=
  ∀ record, state.nodes.get? id = none → after.nodes.get? id = some record →
    argument = some record ∧ record.id = id ∧
      (after.owners.get? id = none ∨ after.owners.get? id = owner ∧ awaitsOwner record = true)

/-- What is the same of an id. -/
theorem keeps_of_same (hnodes : after.nodes.get? id = state.nodes.get? id)
    (howners : after.owners.get? id = state.owners.get? id ∨ after.owners.get? id = none) :
    Keeps id state after := by
  intro record hget
  refine ⟨fun record' hget' => ?_, howners⟩
  rw [hnodes, hget] at hget'
  rw [Option.some.inj hget']

theorem makes_of_same {argument : Option StorageRecord} {owner : Option String}
    (hnodes : after.nodes.get? id = state.nodes.get? id) : Makes argument owner id state after :=
  fun _ hnone hsome => nomatch hnone.symm.trans (hnodes.symm.trans hsome)

theorem makes_of_present {argument : Option StorageRecord} {owner : Option String}
    (h : state.nodes.get? id = some record) : Makes argument owner id state after :=
  fun _ hnone _ => nomatch hnone.symm.trans h

/-- A node is stored over one that has the same result. -/
theorem keeps_set {key : String} {stored : StorageRecord} {owners : Dict String String}
    (hstored : state.nodes.get? key = some stored) (hresult : record.stored = stored.stored)
    (howners : owners.get? id = state.owners.get? id ∨ owners.get? id = none) :
    Keeps id state { state with nodes := state.nodes.set key record, owners } := by
  by_cases hid : key = id
  · subst hid
    intro other hget
    refine ⟨fun record' hget' => ?_, howners⟩
    rw [Dict.get?_set_self] at hget'
    rw [← Option.some.inj hget', hresult, Option.some.inj (hstored.symm.trans hget)]
  · exact keeps_of_same (Dict.get?_set_of_ne _ _ hid) howners

theorem makes_set {key : String} {stored : StorageRecord} {owners : Dict String String}
    {argument : Option StorageRecord} {owner : Option String}
    (hstored : state.nodes.get? key = some stored) :
    Makes argument owner id state
      { state with nodes := state.nodes.set key record, owners } := by
  by_cases hid : key = id
  · subst hid
    exact makes_of_present hstored
  · exact makes_of_same (Dict.get?_set_of_ne _ _ hid)

/-- A node is stored under an id that is free. -/
theorem keeps_insert {key : String} {owners : Dict String String}
    (hfresh : state.nodes.get? key = none)
    (howners : key ≠ id → owners.get? id = state.owners.get? id) :
    Keeps id state { state with nodes := state.nodes.set key record, owners } := by
  by_cases hid : key = id
  · subst hid
    exact fun other hget => nomatch hfresh.symm.trans hget
  · exact keeps_of_same (Dict.get?_set_of_ne _ _ hid) (.inl (howners hid))

theorem makes_insert {owners : Dict String String} {owner : Option String}
    (howners : owners.get? record.id = none ∨
      owners.get? record.id = owner ∧ awaitsOwner record = true) :
    Makes (some record) owner id state
      { state with nodes := state.nodes.set record.id record, owners } := by
  by_cases hid : record.id = id
  · subst hid
    intro other _ hsome
    rw [Dict.get?_set_self] at hsome
    rw [← Option.some.inj hsome]
    exact ⟨rfl, rfl, howners⟩
  · exact makes_of_same (Dict.get?_set_of_ne _ _ hid)

/-- `put` makes the node of a free id, and keeps the results of all. -/
theorem put_spec {argument : Option StorageRecord} {owner : Option (Option String)}
    (hvalid : validateState lib state = .ok ())
    (h : put lib state argument owner = .ok after) (id : String) :
    Keeps id state after ∧ Makes argument owner.join id state after := by
  rw [put] at h
  obtain ⟨node, hnode, h⟩ := bind_ok_iff.mp h
  obtain ⟨_, -, h⟩ := bind_ok_iff.mp h
  rw [nodeArgument_ok hnode]
  split at h
  · next stored hstored =>
      obtain ⟨_, -, h⟩ := bind_ok_iff.mp h
      obtain ⟨_, -, h⟩ := bind_ok_iff.mp h
      obtain ⟨_, -, h⟩ := bind_ok_iff.mp h
      split at h
      · obtain ⟨_, -, h⟩ := bind_ok_iff.mp h
        obtain ⟨_, -, h⟩ := bind_ok_iff.mp h
        cases h
        exact ⟨keeps_set hstored rfl (.inl rfl), makes_set hstored⟩
      · cases h
        exact ⟨keeps_of_same rfl (.inl rfl), makes_of_same rfl⟩
  · next hfresh =>
      have hfree := owner_of_valid hvalid hfresh
      dsimp only at h
      split at h
      · split at h
        · next hawaits =>
            obtain ⟨name, hname, h⟩ := bind_ok_iff.mp h
            cases h
            refine ⟨keeps_insert hfresh fun hid => Dict.get?_set_of_ne _ _ hid,
              makes_insert (.inr ⟨?_, hawaits⟩)⟩
            rw [Dict.get?_set_self]
            exact (text_ok hname).symm
        · cases h
          exact ⟨keeps_insert hfresh fun _ => rfl, makes_insert (.inl hfree)⟩
      · cases h
        exact ⟨keeps_insert hfresh fun _ => rfl, makes_insert (.inl hfree)⟩

theorem claim_spec {argument : Option StorageRecord} {owner : Option String} {created : Bool}
    (hvalid : validateState lib state = .ok ())
    (h : claim lib state argument owner = .ok (after, created)) (id : String) :
    Keeps id state after ∧ Makes argument owner id state after := by
  rw [claim] at h
  obtain ⟨node, hnode, h⟩ := bind_ok_iff.mp h
  obtain ⟨name, hname, h⟩ := bind_ok_iff.mp h
  obtain ⟨_, -, h⟩ := bind_ok_iff.mp h
  rw [nodeArgument_ok hnode, text_ok hname]
  split at h
  · cases h
    exact ⟨keeps_of_same rfl (.inl rfl), makes_of_same rfl⟩
  · obtain ⟨_, hput, h⟩ := bind_ok_iff.mp h
    cases h
    exact put_spec hvalid hput id

theorem updateMeta_spec {argument : Option String} {patch : Option (Dict Units JsValue)}
    (hvalid : validateState lib state = .ok ())
    (h : updateMeta lib state argument patch = .ok after) (id : String) :
    Keeps id state after ∧ Makes none none id state after := by
  rw [updateMeta] at h
  obtain ⟨node, hnode, h⟩ := bind_ok_iff.mp h
  obtain ⟨patch, -, h⟩ := bind_ok_iff.mp h
  obtain ⟨key, -, hget⟩ := getNode_ok hnode
  have hkey : node.id = key := id_of_valid hvalid hget
  rw [← hkey] at hget
  dsimp only at h
  split at h
  · cases h
    refine ⟨keeps_set hget rfl ?_, makes_set hget⟩
    rw [Dict.get?_erase]
    split
    · exact .inr rfl
    · exact .inl rfl
  · cases h
    exact ⟨keeps_set hget rfl (.inl rfl), makes_set hget⟩

theorem dropNodes_spec {ids : Option (List String)} (h : dropNodes state ids = .ok after)
    (id : String) : Keeps id state after ∧ Makes none none id state after := by
  cases ids with
  | none => cases h
  | some ids =>
      obtain ⟨_, -, h⟩ := bind_ok_iff.mp h
      cases h
      refine ⟨fun record hget => ⟨fun record' hget' => ?_, ?_⟩, fun record hnone hsome => ?_⟩
      · rw [Dict.get?_filter, hget, Option.filter_eq_some_iff] at hget'
        rw [Option.some.inj hget'.1]
      · rw [Dict.get?_filter]
        cases state.owners.get? id with
        | none => exact .inr rfl
        | some owner =>
            rw [Option.filter_some]
            split
            · exact .inl rfl
            · exact .inr rfl
      · rw [Dict.get?_filter, hnone] at hsome
        cases hsome

/-- `finalize` gives a node without a result the result of its owner. -/
theorem finalize_spec {argument : Option StorageRecord} {owner : Option String}
    (h : finalize lib state argument owner = .ok after) :
    ∃ record old name, argument = some record ∧ owner = some name ∧
      state.nodes.get? record.id = some old ∧ state.owners.get? record.id = some name ∧
      old.resultText = none ∧ after = { state with
        nodes := state.nodes.set record.id record, owners := state.owners.erase record.id } := by
  rw [finalize] at h
  obtain ⟨node, hnode, h⟩ := bind_ok_iff.mp h
  obtain ⟨old, hold, h⟩ := bind_ok_iff.mp h
  obtain ⟨name, hname, h⟩ := bind_ok_iff.mp h
  obtain ⟨_, -, h⟩ := bind_ok_iff.mp h
  obtain ⟨_, hcheck, h⟩ := bind_ok_iff.mp h
  obtain ⟨key, hkey, hget⟩ := getNode_ok hold
  obtain ⟨howner, hawaits, -⟩ := ensure_ok_iff.mp hcheck
  rw [← Option.some.inj hkey] at hget
  rw [awaitsOwner, Bool.and_eq_true, Option.isNone_iff_eq_none] at hawaits
  exact ⟨_, _, name, nodeArgument_ok hnode, text_ok hname, hget, howner, hawaits.1,
    (Except.ok.inj h).symm⟩

/-- What only touches the ledgers. -/
theorem nodes_of_settle {argument : Option String} {charges : Option (Dict String (Option ℚ))}
    (hvalid : validateState lib state = .ok ())
    (h : settle lib state argument charges now = .ok after) :
    after.nodes = state.nodes ∧ after.owners = state.owners := by
  rw [settle] at h
  obtain ⟨_, -, h⟩ := bind_ok_iff.mp h
  obtain ⟨_, -, h⟩ := bind_ok_iff.mp h
  split at h
  · cases h
  · next current found =>
      split at h
      · obtain ⟨_, -, h⟩ := bind_ok_iff.mp h
        cases h
        exact ⟨rfl, rfl⟩
      · cases h
      · obtain ⟨middle, hloop, h⟩ := bind_ok_iff.mp h
        cases h
        exact (settleDetails_ledgers (lengths_of_valid hvalid found) hloop).2.2

theorem nodes_of_reserve {argument : Option String}
    {budgets : Option (List (Option BudgetRequest))}
    {windows : Option (List (Option WindowRequest))} {leaseSeconds : Option ℚ}
    {check : ReservationCheck}
    (h : reserve lib state argument budgets windows leaseSeconds now = .ok (check, after)) :
    after.nodes = state.nodes ∧ after.owners = state.owners := by
  rw [reserve] at h
  obtain ⟨key, -, h⟩ := bind_ok_iff.mp h
  obtain ⟨request, -, h⟩ := bind_ok_iff.mp h
  dsimp only at h
  split at h
  · obtain ⟨_, -, h⟩ := bind_ok_iff.mp h
    cases h
    exact ⟨rfl, rfl⟩
  · have hgrant := Except.ok.inj h
    rw [grant] at hgrant
    dsimp only at hgrant
    split at hgrant
    · cases hgrant
      exact ⟨rfl, rfl⟩
    · split at hgrant
      · cases hgrant
        exact ⟨rfl, rfl⟩
      · cases hgrant
        exact ⟨rfl, rfl⟩

theorem nodes_of_release {argument : Option String}
    (h : release state argument now = .ok after) :
    after.nodes = state.nodes ∧ after.owners = state.owners := by
  rw [release] at h
  obtain ⟨_, -, h⟩ := bind_ok_iff.mp h
  split at h
  · cases h
    exact ⟨rfl, rfl⟩
  · split at h
    · cases h
      exact ⟨rfl, rfl⟩
    · cases h
    · cases h
      exact ⟨rfl, rfl⟩

theorem nodes_of_renew {argument : Option String} {lease : Option ℚ} {renewed : Bool}
    (h : renew state argument lease now = .ok (renewed, after)) :
    after.nodes = state.nodes ∧ after.owners = state.owners := by
  rw [renew] at h
  obtain ⟨_, -, h⟩ := bind_ok_iff.mp h
  obtain ⟨_, -, h⟩ := bind_ok_iff.mp h
  split at h
  · cases h
    exact ⟨rfl, rfl⟩
  · split at h <;> cases h <;> exact ⟨rfl, rfl⟩

/-- An operation keeps the result of a node, or is the finalization by its owner. -/
theorem operation_spec {operation : Operation} {reply : Reply}
    (h : applyOperation lib state operation now = .ok (after, reply)) (id : String) :
    (Keeps id state after ∧ Makes operation.record operation.owner id state after) ∨
      ∃ record old name, operation = .finalize (some record) (some name) ∧ record.id = id ∧
        state.nodes.get? id = some old ∧ state.owners.get? id = some name ∧
        old.resultText = none ∧ after = { state with
          nodes := state.nodes.set id record, owners := state.owners.erase id } := by
  obtain ⟨hvalid, h⟩ := applyOperation_ok h
  have hledgers : ∀ {s' : RemoteState}, s'.nodes = state.nodes ∧ s'.owners = state.owners →
      Keeps id state s' ∧ Makes none none id state s' := by
    rintro s' ⟨hnodes, howners⟩
    have hget : s'.nodes.get? id = state.nodes.get? id := by rw [hnodes]
    exact ⟨keeps_of_same hget (.inl (by rw [howners])), makes_of_same hget⟩
  cases operation with
  | snapshot | roots | compact =>
      cases h
      exact .inl (hledgers ⟨rfl, rfl⟩)
  | get | exists_ | children | walk =>
      obtain ⟨_, -, hafter⟩ := map_ok_iff.mp h
      obtain ⟨rfl, -⟩ := Prod.mk.inj hafter
      exact .inl (hledgers ⟨rfl, rfl⟩)
  | put =>
      obtain ⟨_, hput, hafter⟩ := map_ok_iff.mp h
      obtain ⟨rfl, -⟩ := Prod.mk.inj hafter
      exact .inl (put_spec hvalid hput id)
  | claim =>
      obtain ⟨_, hclaim, hafter⟩ := map_ok_iff.mp h
      obtain ⟨rfl, -⟩ := Prod.mk.inj hafter
      exact .inl (claim_spec hvalid hclaim id)
  | updateMeta =>
      obtain ⟨_, hupdate, hafter⟩ := map_ok_iff.mp h
      obtain ⟨rfl, -⟩ := Prod.mk.inj hafter
      exact .inl (updateMeta_spec hvalid hupdate id)
  | dropNodes =>
      obtain ⟨_, hdrop, hafter⟩ := map_ok_iff.mp h
      obtain ⟨rfl, -⟩ := Prod.mk.inj hafter
      exact .inl (dropNodes_spec hdrop id)
  | pollardReserve =>
      obtain ⟨_, hreserve, hafter⟩ := map_ok_iff.mp h
      obtain ⟨rfl, -⟩ := Prod.mk.inj hafter
      exact .inl (hledgers (nodes_of_reserve hreserve))
  | pollardSettle =>
      obtain ⟨_, hsettle, hafter⟩ := map_ok_iff.mp h
      obtain ⟨rfl, -⟩ := Prod.mk.inj hafter
      exact .inl (hledgers (nodes_of_settle hvalid hsettle))
  | pollardRelease =>
      obtain ⟨_, hrelease, hafter⟩ := map_ok_iff.mp h
      obtain ⟨rfl, -⟩ := Prod.mk.inj hafter
      exact .inl (hledgers (nodes_of_release hrelease))
  | pollardRenew =>
      obtain ⟨_, hrenew, hafter⟩ := map_ok_iff.mp h
      obtain ⟨rfl, -⟩ := Prod.mk.inj hafter
      exact .inl (hledgers (nodes_of_renew hrenew))
  | finalize =>
      obtain ⟨_, hfinalize, hafter⟩ := map_ok_iff.mp h
      obtain ⟨rfl, -⟩ := Prod.mk.inj hafter
      obtain ⟨record, old, name, rfl, rfl, hget, howner, hresult, rfl⟩ := finalize_spec hfinalize
      by_cases hid : record.id = id
      · subst hid
        exact .inr ⟨record, old, name, rfl, rfl, hget, howner, hresult, rfl⟩
      · refine .inl ⟨keeps_of_same (Dict.get?_set_of_ne _ _ hid) (.inl ?_),
          makes_of_same (Dict.get?_set_of_ne _ _ hid)⟩
        rw [Dict.get?_erase, if_neg fun h => hid h]

end Nodes

/-! ## Along a run -/

/-- The result of a node, if it is there. -/
def RemoteState.resultOf (state : RemoteState) (id : String) :
    Option (Option Units × Option String) :=
  (state.nodes.get? id).map StorageRecord.stored

/-- The node has this result after each of the operations. -/
def Stays (id : String) (stored : Option Units × Option String) (ts : List Transition) : Prop :=
  ∀ c ∈ ts, c.after.resultOf id = some stored

/-- After the operation that made a node its result stays, or it changes once, from none, by a
finalization of the owner which that operation named. -/
def WrittenOnce (id : String) (created : Operation) (stored : Option Units × Option String)
    (later : List Transition) : Prop :=
  Stays id stored later ∨ ∃ before record name finalized after,
    later = before ++ ⟨.finalize (some record) (some name), finalized⟩ :: after ∧
      record.id = id ∧ created.owner = some name ∧ stored.1 = none ∧ Stays id stored before ∧
      Stays id record.stored (⟨.finalize (some record) (some name), finalized⟩ :: after)

section Runs

variable {lib : Library} {id : String}

theorem resultOf_eq {state : RemoteState} {record : StorageRecord}
    (h : state.nodes.get? id = some record) : state.resultOf id = some record.stored := by
  rw [RemoteState.resultOf, h]
  rfl

/-- The result of a node without an owner stays. -/
theorem stays_of_unowned {state last : RemoteState} {ts : List Transition}
    (h : Chain lib state ts last) {record : StorageRecord}
    (hget : state.nodes.get? id = some record) (howner : state.owners.get? id = none)
    (hpresent : ∀ c ∈ ts, (c.after.nodes.get? id).isSome) : Stays id record.stored ts := by
  induction h generalizing record with
  | nil => exact fun c hc => absurd hc List.not_mem_nil
  | @cons state middle last operation now reply rest ran chain ih =>
      rw [List.forall_mem_cons] at hpresent
      obtain ⟨record', hget'⟩ := Option.isSome_iff_exists.mp hpresent.1
      rcases operation_spec ran id with ⟨hkeeps, -⟩ | ⟨_, _, name, -, -, -, hname, -⟩
      · obtain ⟨hresult, howners⟩ := hkeeps record hget
        have hstored := hresult record' hget'
        have hnone : middle.owners.get? id = none := howners.elim (fun h => h.trans howner) fun h => h
        rw [Stays, List.forall_mem_cons, resultOf_eq hget', hstored]
        exact ⟨rfl, hstored ▸ ih hget' hnone hpresent.2⟩
      · rw [howner] at hname
        cases hname

/-- A node that waits for its owner, or has none, is written once. -/
theorem writtenOnce_of_owned {created : Operation} {state last : RemoteState}
    {ts : List Transition} (h : Chain lib state ts last) {record : StorageRecord}
    (hget : state.nodes.get? id = some record)
    (howner : state.owners.get? id = none ∨
      state.owners.get? id = created.owner ∧ record.resultText = none)
    (hpresent : ∀ c ∈ ts, (c.after.nodes.get? id).isSome) :
    WrittenOnce id created record.stored ts := by
  induction h generalizing record with
  | nil => exact .inl fun c hc => absurd hc List.not_mem_nil
  | @cons state middle last operation now reply rest ran chain ih =>
      rw [List.forall_mem_cons] at hpresent
      obtain ⟨record', hget'⟩ := Option.isSome_iff_exists.mp hpresent.1
      rcases operation_spec ran id with
        ⟨hkeeps, -⟩ | ⟨final, old, name, rfl, hid, hold, hname, hnone, rfl⟩
      · obtain ⟨hresult, howners⟩ := hkeeps record hget
        have hstored := hresult record' hget'
        have htext : record'.resultText = record.resultText := congrArg Prod.fst hstored
        have hlater : middle.owners.get? id = none ∨
            middle.owners.get? id = created.owner ∧ record'.resultText = none := by
          rcases howners with hsame | hgone
          · rw [hsame, htext]
            exact howner
          · exact .inl hgone
        have hfirst : middle.resultOf id = some record.stored := by
          rw [resultOf_eq hget', hstored]
        have hrest := ih hget' hlater hpresent.2
        rw [hstored] at hrest
        rcases hrest with hstays | ⟨before, final, name, finalized, after, rfl, hrest⟩
        · exact .inl (List.forall_mem_cons.mpr ⟨hfirst, hstays⟩)
        · obtain ⟨hid, hnamed, hnone, hbefore, hafter⟩ := hrest
          exact .inr ⟨⟨operation, middle⟩ :: before, final, name, finalized, after, rfl, hid,
            hnamed, hnone, List.forall_mem_cons.mpr ⟨hfirst, hbefore⟩, hafter⟩
      · -- The finalization takes the owner away, so no other one follows.
        have hnamed : created.owner = some name := by
          rcases howner with hunowned | howned
          · exact nomatch hunowned.symm.trans hname
          · exact howned.1.symm.trans hname
        have hset : (state.nodes.set id final).get? id = some final := Dict.get?_set_self _ _ _
        have hgone : (state.owners.erase id).get? id = none := by
          rw [Dict.get?_erase, if_pos rfl]
        have hstays := stays_of_unowned chain hset hgone hpresent.2
        have hresult : record.stored.1 = none := by
          rw [Option.some.inj (hget.symm.trans hold)]
          exact hnone
        exact .inr ⟨[], final, name, _, rest, rfl, hid, hnamed, hresult,
          fun c hc => absurd hc List.not_mem_nil,
          List.forall_mem_cons.mpr ⟨resultOf_eq hset, hstays⟩⟩

/-- The document before an operation of a chain. -/
theorem chain_split {state last : RemoteState} {before later : List Transition}
    {created : Transition} (h : Chain lib state (before ++ created :: later) last) :
    ∃ now reply, applyOperation lib (before.getLast?.elim state Transition.after)
      created.operation now = .ok (created.after, reply) ∧ Chain lib created.after later last := by
  induction before generalizing state with
  | nil =>
      cases h with
      | cons ran chain => exact ⟨_, _, ran, chain⟩
  | cons c before ih =>
      cases h with
      | @cons _ middle _ operation _ _ _ ran chain =>
          have hlast : (⟨operation, middle⟩ :: before).getLast?.elim state Transition.after =
              before.getLast?.elim middle Transition.after := by
            rw [List.getLast?_cons]
            cases before.getLast? <;> rfl
          rw [hlast]
          exact ih chain

theorem writtenOnce_of_chain {state last : RemoteState} {before later : List Transition}
    {created : Transition} (h : Chain lib state (before ++ created :: later) last)
    (habsent : (before.getLast?.elim state Transition.after).nodes.get? id = none)
    (hpresent : ∀ c ∈ created :: later, (c.after.nodes.get? id).isSome) :
    ∃ record, created.operation.record = some record ∧ record.id = id ∧
      created.after.nodes.get? id = some record ∧
      WrittenOnce id created.operation record.stored later := by
  obtain ⟨now, reply, ran, chain⟩ := chain_split h
  rw [List.forall_mem_cons] at hpresent
  obtain ⟨record, hget⟩ := Option.isSome_iff_exists.mp hpresent.1
  rcases operation_spec ran id with ⟨-, hmakes⟩ | ⟨_, _, _, -, -, hold, -⟩
  · obtain ⟨hrecord, hid, howner⟩ := hmakes record habsent hget
    refine ⟨record, hrecord, hid, hget, writtenOnce_of_owned chain hget ?_ hpresent.2⟩
    rcases howner with hnone | ⟨howner, hawaits⟩
    · exact .inl hnone
    · rw [awaitsOwner, Bool.and_eq_true, Option.isNone_iff_eq_none] at hawaits
      exact .inr ⟨howner, hawaits.1⟩
  · exact nomatch habsent.symm.trans hold

end Runs

/-- In every run, settled amounts and unexpired active reservations stay within the limits where
the calls are disciplined and each window ledger has one length; and the result of a node is set
at most once between its creation and its removal, by the owner it was created for. -/
theorem remote_state_guarantees (lib : Library) (clock : Instant) (received : List Received) :
    (∀ (limit : DetailKind → LedgerKey → Decimal) (length : LedgerKey → ℚ),
      (∀ kind ledger, 0 ≤ limit kind ledger) →
      Machine.Along (Backend.step lib) (fun b r => Disciplined limit b r ∧ OneLength length b r)
        (.start clock) received →
      let b := Machine.run (Backend.step lib) (.start clock) received
      ∀ ledger t, b.clock ≤ t →
        b.state.budget.getD ledger 0 +
            activeAmount (active b.state t) .budget ledger.1 ledger.2 ≤ limit .budget ledger ∧
          insideWindow b.history ledger t +
            activeAmount (active b.state t) .window ledger.1 ledger.2 ≤ limit .window ledger) ∧
    ∀ id before created later,
      (Backend.start clock).transitions lib received = before ++ created :: later →
      (before.getLast?.elim createRemoteState Transition.after).nodes.get? id = none →
      (∀ c ∈ created :: later, (c.after.nodes.get? id).isSome) →
      ∃ record, created.operation.record = some record ∧ record.id = id ∧
        created.after.nodes.get? id = some record ∧
        WrittenOnce id created.operation record.stored later := by
  constructor
  · intro limit length hlimit hrun b ledger t ht
    exact within_limits hlimit hrun ledger ht
  · intro id before created later hsplit habsent hpresent
    have hchain : Chain lib (Backend.start clock).state
        ((Backend.start clock).transitions lib received) _ :=
      chain_run (Backend.start clock) received
    rw [hsplit] at hchain
    exact writtenOnce_of_chain hchain habsent hpresent

/-- A platform whose digests are all one. -/
def sampleLibrary : Library where
  sha _ := String.ofList (List.replicate 64 'a')
  numberText q := units (toString q.num)
  string _ := []
  parse _ := .ok .null
  requestDigest _ _ _ := String.ofList (List.replicate 64 'a')
  chargesDigest _ := String.ofList (List.replicate 64 'a')
  stateDigest _ := ""

def sampleRecord (state : String) (resultText : Option Units) : StorageRecord where
  id := String.ofList (List.replicate 64 'a')
  kind := .root
  parent := none
  attempt := 0
  payload := .object []
  resultText := resultText
  resultDigest := resultText.map fun _ => String.ofList (List.replicate 64 'a')
  metadata := .ofList [(units "state", .string (units state))]

def sampleWindow (windowSeconds amount : ℚ) : Option (List (Option WindowRequest)) :=
  some [some ⟨some "scope", some "steps", some 10, some amount, some windowSeconds⟩]

def sampleBudget (amount : ℚ) : Option (List (Option BudgetRequest)) :=
  some [some ⟨some "scope", some (.ofList [("steps", some 10)]), some ∅,
    some (.ofList [("steps", some amount)])⟩]

/-- Two clients share a budget and a window. -/
def sharedRun : List Received :=
  [⟨0, .operation (.pollardReserve "a" (sampleBudget 8) (sampleWindow 100 6) (some 60))⟩,
    ⟨1, .operation (.pollardSettle "a" (some (.ofList [("steps", some 5)])))⟩,
    ⟨2, .operation (.pollardReserve "b" (sampleBudget 5) (sampleWindow 100 4) (some 60))⟩]

/-- A dispatch is claimed and finalized. -/
def dispatchRun : List Received :=
  [⟨0, .operation (.claim (sampleRecord "pending" none) "owner")⟩,
    ⟨1, .operation (.finalize (sampleRecord "completed" (units "1")) "owner")⟩]

theorem remote_state_guarantees_runs :
    (let b := Machine.run (Backend.step sampleLibrary) (.start 0) sharedRun
     b.state.budget.getD ("scope", "steps") 0 +
          activeAmount (active b.state 2) .budget "scope" "steps" ≤ 10 ∧
        insideWindow b.history ("scope", "steps") 2 +
          activeAmount (active b.state 2) .window "scope" "steps" ≤ 10) ∧
    ∃ created later,
      (Backend.start 0).transitions sampleLibrary dispatchRun = created :: later ∧
      ∃ record, created.operation.record = some record ∧
        WrittenOnce (sampleRecord "pending" none).id created.operation record.stored later := by
  have hrun : Machine.Along (Backend.step sampleLibrary)
      (fun b r => Disciplined (fun _ _ => 10) b r ∧ OneLength (fun _ => 100) b r) (.start 0)
      sharedRun ∧ (Machine.run (Backend.step sampleLibrary) (.start 0) sharedRun).clock ≤ 2 := by
    decide +kernel
  have hpresent : (Backend.start 0).transitions sampleLibrary dispatchRun ≠ [] ∧
      ∀ c ∈ (Backend.start 0).transitions sampleLibrary dispatchRun,
        (c.after.nodes.get? (sampleRecord "pending" none).id).isSome := by
    decide +kernel
  refine ⟨(remote_state_guarantees sampleLibrary 0 sharedRun).1 (fun _ _ => 10) (fun _ => 100)
    (fun _ _ => by norm_num) hrun.1 ("scope", "steps") 2 hrun.2, ?_⟩
  obtain ⟨created, later, hts⟩ := List.exists_cons_of_ne_nil hpresent.1
  have hthere := hpresent.2
  rw [hts] at hthere
  obtain ⟨record, hrecord, -, -, hwritten⟩ := (remote_state_guarantees sampleLibrary 0 dispatchRun).2
    (sampleRecord "pending" none).id [] created later hts rfl hthere
  exact ⟨created, later, hts, record, hrecord, hwritten⟩

/-- One window ledger is requested with one limit, for a thousand seconds and then for ten. -/
def lengthsRun : List Received :=
  [⟨0, .operation (.pollardReserve "a" (some []) (sampleWindow 1000 10) (some 60))⟩,
    ⟨1, .operation (.pollardSettle "a" (some (.ofList [("steps", some 10)])))⟩,
    ⟨20, .operation (.pollardReserve "b" (some []) (sampleWindow 10 10) (some 60))⟩]

/-- One limit for each ledger is not enough: an event may still be inside its window where the
next request looks back for less time. -/
theorem windows_overcommitted_lengthsRun :
    let b := Machine.run (Backend.step sampleLibrary) (.start 0) lengthsRun
    Machine.Along (Backend.step sampleLibrary) (Disciplined fun _ _ => 10) (.start 0)
        lengthsRun ∧
      10 < insideWindow b.state.windowEvents.values ("scope", "steps") 20 +
        activeAmount (active b.state 20) .window "scope" "steps" := by
  decide +kernel

end Pollard.Npm.Remote
