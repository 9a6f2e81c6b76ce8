import Pollard.Runtime.SharedNotes
import Pollard.Teams.Identity

/-!
# Decisions on approval requests

A request is decided by the first store insertion of its slot, whose result names the decision.
Reviewers decide and workers read while others write.
-/

namespace Pollard.ApprovalDecisions

open Lib NamedScopes SharedNotes Teams

/-! ## Requests -/

structure ApprovalRequest where
  id : String
  rootId : String
  parentId : String
  name : String
  toolVersion : String
  argsDigest : String
  specDigest : String
  registryDigest : String
  agentIdentity : Option AgentIdentity
  attempt : ℤ
deriving DecidableEq

/-- The value is a dictionary with these fields and no other ones. -/
def hasFields (names : List String) : Value → Bool
  | .dict entries =>
      (∀ name ∈ Assoc.keys entries, name ∈ names) ∧ ∀ name ∈ names, name ∈ Assoc.keys entries
  | _ => false

/-- The note of a Pollard event. -/
def eventPayload (name : String) (document : Value) : Value :=
  .dict [("_pollard", .dict [(name, document)])]

/-- `_event`, as the entries of the document -/
def event (node : Node) (name : String) : Except PyError (List (String × Value)) :=
  match (node.payload.get? "_pollard").bind fun wrapper => wrapper.get? name with
  | some (.dict entries) =>
      if node.kind ≠ .note then .error (.integrityError s!"invalid {name} note")
      else if Assoc.lookup entries "version" ≠ some (.int 1) then
        .error (.integrityError s!"unsupported {name} version")
      else .ok entries
  | _ => .error (.integrityError s!"invalid {name} note")

/-- `_node_id`; ids are digests here, so their format is not checked. -/
def nodeIdOf (value : Option Value) (field : String) : Except PyError String :=
  match value with
  | some (.str id) => .ok id
  | _ => .error (.valueError s!"{field} must be a lowercase 64-character node ID")

/-- A name of `__post_init__`. -/
def nonemptyText (value : Option Value) (field : String) : Except PyError String :=
  match value with
  | some (.str text) =>
      if text = "" then .error (.valueError s!"approval {field} must be a non-empty string")
      else .ok text
  | _ => .error (.valueError s!"approval {field} must be a non-empty string")

namespace ApprovalRequest

/-- `_document` -/
def document (request : ApprovalRequest) : Value :=
  .dict [("version", .int 1), ("root_id", .str request.rootId), ("name", .str request.name),
    ("tool_version", .str request.toolVersion), ("args_digest", .str request.argsDigest),
    ("spec_digest", .str request.specDigest), ("registry_digest", .str request.registryDigest),
    ("agent_identity", (request.agentIdentity.map AgentIdentity.toDict).getD .none)]

/-- `_node` -/
def node (H : Hashing) (request : ApprovalRequest) : Except PyError Node :=
  Node.make H .note (some request.parentId) (eventPayload "approval_request" request.document)
    request.attempt

/-- The last check of `__post_init__`. -/
def checkId (H : Hashing) (request : ApprovalRequest) : Except PyError ApprovalRequest := do
  let node ← request.node H
  if node.id ≠ request.id then
    throw (.integrityError "approval request ID does not match its contents")
  return request

def fields : List String :=
  ["version", "id", "root_id", "parent_id", "attempt", "name", "tool_version", "args_digest",
    "spec_digest", "registry_digest", "agent_identity"]

/-- `from_dict` and `__post_init__` -/
def fromDict (H : Hashing) (data : Value) : Except PyError ApprovalRequest := do
  if hasFields fields data = false then throw (.valueError "invalid approval request fields")
  if data.get? "version" ≠ some (.int 1) then
    throw (.valueError "unsupported approval request version")
  let identity ← AgentIdentity.optional data "agent_identity" AgentIdentity.fromDict
  let id ← nodeIdOf (data.get? "id") "id"
  let rootId ← nodeIdOf (data.get? "root_id") "root_id"
  let parentId ← nodeIdOf (data.get? "parent_id") "parent_id"
  let argsDigest ← nodeIdOf (data.get? "args_digest") "args_digest"
  let specDigest ← nodeIdOf (data.get? "spec_digest") "spec_digest"
  let registryDigest ← nodeIdOf (data.get? "registry_digest") "registry_digest"
  let name ← nonemptyText (data.get? "name") "name"
  let toolVersion ← nonemptyText (data.get? "tool_version") "tool_version"
  match data.get? "attempt" with
  | some (.int attempt) =>
      if attempt < 0 then throw (.valueError "approval attempt must be a nonnegative integer")
      checkId H ⟨id, rootId, parentId, name, toolVersion, argsDigest, specDigest, registryDigest,
        identity, attempt⟩
  | _ => throw (.valueError "approval attempt must be a nonnegative integer")

/-- `_request_from_node` -/
def fromNode (H : Hashing) (node : Node) : Except PyError ApprovalRequest := do
  let document ← event node "approval_request"
  let placed := [("id", .str node.id), ("parent_id", (node.parent.map Value.str).getD .none),
    ("attempt", .int node.attempt)]
  let request ← fromDict H
    (.dict (placed.foldl (fun entries e => Assoc.upsert entries e.1 e.2) document))
  let expected ← request.node H
  if node.identity ≠ expected.identity ∨ node.result.isSome then
    throw (.integrityError "invalid approval request note")
  return request

end ApprovalRequest

/-! ## Decisions -/

/-- A reviewer's decision. -/
structure Verdict where
  approved : Bool
  reviewer : Name
deriving DecidableEq

def Verdict.document (request : ApprovalRequest) (verdict : Verdict) : Value :=
  .dict [("version", .int 1), ("request_id", .str request.id), ("root_id", .str request.rootId),
    ("approved", .bool verdict.approved), ("reviewer", .str verdict.reviewer.1)]

def decisionFields : List String := ["version", "request_id", "root_id", "approved", "reviewer"]

/-- The nodes of a decision. -/
structure DecisionNodes where
  decision : Node
  binding : Node

/-- A result that names a decision. -/
def decidedBy (id : String) : Value := .dict [("decision_id", .str id)]

section Programs

variable (H : Hashing)

/-- `_decision_slot` -/
def decisionSlot (request : ApprovalRequest) : Except PyError Node :=
  Node.make H .note (some request.id) (eventPayload "approval_decision_slot"
    (.dict [("version", .int 1), ("request_id", .str request.id)]))

/-- The decision and the binding of `decide_approval`. -/
def decisionNodes (request : ApprovalRequest) (verdict : Verdict) :
    Except PyError DecisionNodes := do
  let slot ← decisionSlot H request
  let decision ← Node.make H .note (some slot.id)
    (eventPayload "approval_decision" (verdict.document request))
  let binding ← Node.make H slot.kind slot.parent slot.payload 0 (some (decidedBy decision.id))
  return ⟨decision, binding⟩

/-- `_verify_or_raise` -/
def verifyOrRaise (depth : ℕ) (id : String) : StoreProgram Unit :=
  (NamedScopes.verify H depth [] id).bind fun findings =>
    if findings.isEmpty then .ret ()
    else .raise (.integrityError ("; ".intercalate (findings.map VerifyFinding.message)))

/-- The loop of `_verified_root`, up to `depth` parents -/
def rootFrom : ℕ → Node → StoreProgram String
  | 0, node => .ret node.id
  | depth + 1, node =>
      match node.parent with
      | none => .ret node.id
      | some parent =>
          .op (.get parent) fun answer => (StoreProgram.orRaise answer).bind (rootFrom depth)

/-- `_verified_root` -/
def verifiedRoot (depth : ℕ) (id : String) : StoreProgram String :=
  (verifyOrRaise H depth id).bind fun _ =>
    .op (.get id) fun answer => (StoreProgram.orRaise answer).bind (rootFrom depth)

/-- `_load_request` -/
def loadRequest (depth : ℕ) (request : ApprovalRequest) : StoreProgram Node :=
  (verifiedRoot H depth request.id).bind fun root =>
    if root ≠ request.rootId then
      .raise (.integrityError "approval request belongs to a different root")
    else
      .op (.get request.id) fun answer => (StoreProgram.orRaise answer).bind fun node =>
        (StoreProgram.orRaise (ApprovalRequest.fromNode H node)).bind fun recorded =>
          if recorded ≠ request then
            .raise (.integrityError "approval request differs from its recording")
          else .ret node

/-- `_validate_binding` -/
def validateBinding (depth : ℕ) (expected : Node) : StoreProgram Node :=
  (verifyOrRaise H depth expected.id).bind fun _ =>
    .op (.get expected.id) fun answer => (StoreProgram.orRaise answer).bind fun stored =>
      if stored.identity ≠ expected.identity ∨ ¬ sameResult stored.result expected.result then
        .raise (.integrityError "conflicting approval decision")
      else .ret stored

/-- The id a slot is bound to. -/
def boundDecision (slot : Node) : Except PyError String :=
  match slot.result with
  | some result =>
      if hasFields ["decision_id"] result then nodeIdOf (result.get? "decision_id") "decision_id"
      else .error (.integrityError "invalid approval decision binding")
  | none => .error (.integrityError "invalid approval decision binding")

/-- What `_read_decision` checks of a decision. -/
def checkDecision (request : ApprovalRequest) (slotId : String) (decision : Node) :
    Except PyError Unit := do
  let document ← event decision "approval_decision"
  if hasFields decisionFields (.dict document) = false ∨
      Assoc.lookup document "request_id" ≠ some (.str request.id) ∨
      Assoc.lookup document "root_id" ≠ some (.str request.rootId) ∨
      decision.parent ≠ some slotId ∨
      ¬ (Assoc.lookup document "approved").any fun value => value = .bool true ∨ value = .bool false
  then throw (.integrityError "invalid approval decision")
  let _ ← validateName ((Assoc.lookup document "reviewer").getD .none) "reviewer"
  return ()

/-- `_read_decision` -/
def readDecision (depth : ℕ) (request : ApprovalRequest) : StoreProgram (Option Node) :=
  (StoreProgram.orRaise (decisionSlot H request)).bind fun expected =>
    .op (.contains expected.id) fun (found : Bool) =>
      if ¬ found then .ret none
      else
        (verifyOrRaise H depth expected.id).bind fun _ =>
          .op (.get expected.id) fun answer => (StoreProgram.orRaise answer).bind fun slot =>
            if slot.identity ≠ expected.identity then
              .raise (.integrityError "invalid approval decision slot")
            else
              (StoreProgram.orRaise (boundDecision slot)).bind fun decisionId =>
                .op (.contains decisionId) fun (found : Bool) =>
                  if ¬ found then .ret none
                  else
                    (verifyOrRaise H depth decisionId).bind fun _ =>
                      .op (.get decisionId) fun answer =>
                        (StoreProgram.orRaise answer).bind fun decision =>
                          (StoreProgram.orRaise (checkDecision request slot.id decision)).bind
                            fun _ => .ret (some decision)

/-- `assert found is not None` -/
def assertFound : Option Node → StoreProgram Node
  | some node => .ret node
  | none => .raise (.callerError "AssertionError")

/-- The writes of `decide_approval` -/
def writeNodes (depth : ℕ) (request : ApprovalRequest) (nodes : DecisionNodes) :
    StoreProgram Node :=
  .op (.put nodes.binding) fun answer => (StoreProgram.orRaise answer).bind fun _ =>
    (validateBinding H depth nodes.binding).bind fun _ =>
      .op (.put nodes.decision) fun answer => (StoreProgram.orRaise answer).bind fun _ =>
        (readDecision H depth request).bind assertFound

/-- `decide_approval`, once its nodes are made -/
def decideNodes (depth : ℕ) (request : ApprovalRequest) (nodes : DecisionNodes) :
    StoreProgram Node :=
  .op (.contains nodes.binding.id) fun (found : Bool) =>
    if found then
      (validateBinding H depth nodes.binding).bind fun _ =>
        .op (.contains nodes.decision.id) fun (found : Bool) =>
          if found then (readDecision H depth request).bind assertFound
          else writeNodes H depth request nodes
    else writeNodes H depth request nodes

/-- `decide_approval`, on a store that may be written -/
def decideApproval (depth : ℕ) (request : ApprovalRequest) (verdict : Verdict) :
    StoreProgram Node :=
  (loadRequest H depth request).bind fun _ =>
    (StoreProgram.orRaise (decisionNodes H request verdict)).bind (decideNodes H depth request)

end Programs

/-! ## Documents -/

section Documents

open Value (SameJson)

theorem eq_of_sameJson_int {value : Value} {n : ℤ} (h : SameJson value (.int n)) :
    value = .int n := by
  cases value with
  | int m => exact h
  | _ => cases h

theorem eq_of_sameJson_bool {value : Value} {b : Bool} (h : SameJson value (.bool b)) :
    value = .bool b := by
  cases value with
  | bool c => exact h
  | _ => cases h

theorem dict_of_sameJson {value : Value} {document : List (String × Value)}
    (h : SameJson value (.dict document)) : ∃ entries, value = .dict entries := by
  cases value with
  | dict entries => exact ⟨entries, rfl⟩
  | _ => cases h

theorem hasFields_of_sameJson {names : List String} {value : Value}
    {document : List (String × Value)} (h : SameJson value (.dict document))
    (hfields : hasFields names (.dict document) = true) : hasFields names value = true := by
  obtain ⟨entries, rfl⟩ := dict_of_sameJson h
  have hkeys : ∀ key, key ∈ Assoc.keys entries ↔ key ∈ Assoc.keys document := by
    have hone : ∀ {a b : List (String × Value)}, SameJson (.dict a) (.dict b) →
        ∀ {key}, key ∈ Assoc.keys a → key ∈ Assoc.keys b := by
      intro a b hsame key hkey
      cases hlookup : Assoc.lookup a key with
      | none => exact absurd hkey (Assoc.lookup_eq_none_iff.mp hlookup)
      | some value =>
          obtain ⟨other, hother, -⟩ := hsame.get? hlookup
          exact Assoc.mem_keys_of_lookup hother
    exact fun key => ⟨hone h, hone h.symm⟩
  simpa only [hasFields, hkeys] using hfields

/-- The document of an event, as JSON. -/
theorem document_of_sameJson {payload document : Value} {name : String}
    (h : SameJson (eventPayload name document) payload) :
    ∃ other, (payload.get? "_pollard").bind (fun wrapper => wrapper.get? name) = some other ∧
      SameJson document other := by
  obtain ⟨wrapper, hwrapper, hinner⟩ := h.get?
    (show (eventPayload name document).get? "_pollard" = some (.dict [(name, document)]) from rfl)
  obtain ⟨other, hother, hsame⟩ := hinner.get?
    (show Value.get? (.dict [(name, document)]) name = some document from if_pos rfl)
  exact ⟨other, by rw [hwrapper, Option.bind_some, hother], hsame⟩

/-- A note whose payload is an event's as JSON is read as this event. -/
theorem event_of_sameJson {node : Node} {name : String} {document : List (String × Value)}
    (hkind : node.kind = .note) (h : SameJson node.payload (eventPayload name (.dict document)))
    (hversion : Assoc.lookup document "version" = some (.int 1)) :
    ∃ entries, event node name = .ok entries ∧ SameJson (.dict entries) (.dict document) := by
  obtain ⟨value, hvalue, hdocument⟩ := document_of_sameJson h.symm
  obtain ⟨entries, rfl⟩ := dict_of_sameJson hdocument.symm
  obtain ⟨version, hread, hsame⟩ := hdocument.get? hversion
  rw [eq_of_sameJson_int hsame.symm] at hread
  refine ⟨entries, ?_, hdocument.symm⟩
  unfold event
  rw [hvalue]
  dsimp only
  rw [if_neg (not_not.mpr hkind)]
  exact if_neg (not_not.mpr hread)

/-- A node that is a decision but for the order of its keys is read as one. -/
theorem checkDecision_of_sameJson {request : ApprovalRequest} {verdict : Verdict} {slotId : String}
    {node : Node} (hkind : node.kind = .note)
    (h : SameJson node.payload (eventPayload "approval_decision" (verdict.document request)))
    (hparent : node.parent = some slotId) : checkDecision request slotId node = .ok () := by
  obtain ⟨entries, hevent, hsame⟩ := event_of_sameJson hkind h rfl
  have hfields : hasFields decisionFields (.dict entries) = true :=
    hasFields_of_sameJson hsame (by simp [hasFields, decisionFields, Assoc.keys])
  have hentry : ∀ key value, (verdict.document request).get? key = some value →
      ∃ other, Assoc.lookup entries key = some other ∧ SameJson value other :=
    fun _ _ hvalue => hsame.symm.get? hvalue
  obtain ⟨_, hrequest, hrequestSame⟩ := hentry "request_id" _ rfl
  obtain ⟨_, hroot, hrootSame⟩ := hentry "root_id" _ rfl
  obtain ⟨_, happroved, happrovedSame⟩ := hentry "approved" _ rfl
  obtain ⟨_, hreviewer, hreviewerSame⟩ := hentry "reviewer" _ rfl
  rw [hrequestSame.str] at hrequest
  rw [hrootSame.str] at hroot
  rw [eq_of_sameJson_bool happrovedSame.symm] at happroved
  rw [hreviewerSame.str] at hreviewer
  unfold checkDecision
  refine Fallible.bind_ok_iff.mpr ⟨entries, hevent, ?_⟩
  rw [if_neg]
  · refine Fallible.bind_ok_iff.mpr ⟨verdict.reviewer, ?_, rfl⟩
    rw [hreviewer, Option.getD_some, validateName, dif_pos verdict.reviewer.2.1,
      dif_pos verdict.reviewer.2.2]
    rfl
  · rw [hfields, hrequest, hroot, hparent, happroved]
    cases verdict.approved <;> simp

end Documents

/-! ## What readers find -/

section Reading

variable {H : Hashing} {depth : ℕ} {request : ApprovalRequest}

theorem ensures_verifyOrRaise {id : String} {s : MemoryStore} {P : MemoryStore → Prop}
    (hP : ∀ s t, Grows H s t → P s → P t) (hnamed : s.Named H) (hid : s.contains id = true)
    (hs : P s) :
    Ensures H (verifyOrRaise H depth id)
      (fun outcome t => outcome = .ok () ∧ t.Named H ∧ P t) s := by
  refine Program.Ensures.bind .refl ((ensures_keeping hP (ensures_verified depth hnamed hid) hnamed
    hs).mono fun outcome t ht => ?_)
  obtain ⟨rfl, hnamed, ht⟩ := ht
  exact fun u hu => ⟨rfl, hu.named hnamed, hP _ _ hu ht⟩

/-- The slot of a request is bound to this decision. -/
def Decided (H : Hashing) (request : ApprovalRequest) (decisionId : String) (s : MemoryStore) :
    Prop :=
  ∃ slot stored, decisionSlot H request = .ok slot ∧ s.find? slot.id = some stored ∧
    boundDecision stored = .ok decisionId

theorem boundDecision_withMeta (node : Node) (metadata : Dict String Value) :
    boundDecision { node with metadata } = boundDecision node := rfl

/-- A request is decided once. -/
theorem Decided.unique {a b : String} {s : MemoryStore} (h : Decided H request a s)
    (h' : Decided H request b s) : a = b := by
  obtain ⟨slot, stored, hslot, hstored, hbound⟩ := h
  obtain ⟨slot', stored', hslot', hstored', hbound'⟩ := h'
  rw [hslot] at hslot'
  cases hslot'
  rw [hstored] at hstored'
  cases hstored'
  rw [hbound] at hbound'
  exact Except.ok.inj hbound'

/-- The slot of a request is bound to a decision that is held, with some metadata. -/
def Readable (H : Hashing) (request : ApprovalRequest) (decision : Node) (s : MemoryStore) :
    Prop :=
  ∃ slot stored metadata, decisionSlot H request = .ok slot ∧ s.find? slot.id = some stored ∧
    stored.identity = slot.identity ∧ boundDecision stored = .ok decision.id ∧
    s.find? decision.id = some { decision with metadata } ∧
    checkDecision request stored.id decision = .ok ()

theorem Readable.decided {decision : Node} {s : MemoryStore} (h : Readable H request decision s) :
    Decided H request decision.id s := by
  obtain ⟨slot, stored, _, hslot, hstored, -, hbound, -⟩ := h
  exact ⟨slot, stored, hslot, hstored, hbound⟩

theorem Readable.grows {decision : Node} {s t : MemoryStore} (h : Readable H request decision s)
    (hgrows : Grows H s t) : Readable H request decision t := by
  obtain ⟨slot, stored, _, hslot, hstored, hidentity, hbound, hdecision, hchecked⟩ := h
  obtain ⟨_, hslotAfter⟩ := hgrows.kept hstored
  obtain ⟨_, hdecisionAfter⟩ := hgrows.kept hdecision
  exact ⟨slot, _, _, hslot, hslotAfter, hidentity, hbound, hdecisionAfter, hchecked⟩

/-- The decisions that are read of a request are one. -/
theorem Readable.unique {decision other : Node} {s : MemoryStore}
    (h : Readable H request decision s) (h' : Readable H request other s) :
    ∃ metadata, other = { decision with metadata } := by
  have hid := h.decided.unique h'.decided
  obtain ⟨_, _, _, -, -, -, -, hfind, -⟩ := h
  obtain ⟨_, _, _, -, -, -, -, hfind', -⟩ := h'
  rw [hid, hfind'] at hfind
  rw [Option.some.injEq, Node.mk.injEq] at hfind
  obtain ⟨-, hparent, hkind, hattempt, hpayload, hresult, -⟩ := hfind
  refine ⟨other.metadata, ?_⟩
  rw [← hparent, ← hkind, ← hattempt, ← hpayload, ← hresult, hid]

/-- A decision that is read is the one the slot is bound to. -/
def Reads (H : Hashing) (request : ApprovalRequest) (outcome : Except PyError (Option Node))
    (s : MemoryStore) : Prop :=
  ∀ node, outcome = .ok (some node) → Readable H request node s

theorem reads_error (e : PyError) (s : MemoryStore) : Reads H request (.error e) s := by
  rintro node ⟨⟩

theorem reads_none (s : MemoryStore) : Reads H request (.ok none) s := by
  rintro node ⟨⟩

/-- Whatever the store holds, and whatever is written meanwhile, a decision that is read is the one
its slot is bound to. -/
theorem ensures_readDecision (s : MemoryStore) :
    Ensures H (readDecision H depth request) (Reads H request) s := by
  refine ensures_orRaise (fun slot hslot => ?_) fun e _ t _ => reads_error e t
  refine ensures_contains fun t _ => ?_
  split
  · exact fun u _ => reads_none u
  refine Program.Ensures.bind .refl ((ensures_stable (P := fun _ => True) (fun _ _ _ h => h) _
    trivial).mono fun outcome u _ => ?_)
  cases outcome with
  | error e => exact reads_error e u
  | ok _ =>
  rw [Program.Followed]
  refine ensures_get fun v _ => ?_
  refine ensures_orRaise (fun stored hstored => ?_) fun e _ w _ => reads_error e w
  have hslotFound := MemoryStore.find?_of_get hstored
  split
  · exact fun w _ => reads_error _ w
  · next hidentity =>
  refine ensures_orRaise (fun decisionId hbound => ?_) fun e _ w _ => reads_error e w
  refine ensures_contains fun w hw => ?_
  split
  · exact fun x _ => reads_none x
  refine Program.Ensures.bind .refl ((ensures_stable (P := Grows H v)
    (fun _ _ hgrows h => Grows.trans _ _ _ h hgrows) _ hw).mono fun outcome x hx => ?_)
  cases outcome with
  | error e => exact reads_error e x
  | ok _ =>
  rw [Program.Followed]
  refine ensures_get fun y hy => ?_
  refine ensures_orRaise (fun decision hdecision => ?_) fun e _ z _ => reads_error e z
  refine ensures_orRaise (fun _ hchecked => ?_) fun e _ z _ => reads_error e z
  intro z hz node hnode
  cases hnode
  have hfind := MemoryStore.find?_of_get hdecision
  obtain ⟨_, hslotLater⟩ := (hx.trans _ _ _ hy).kept hslotFound
  obtain rfl := (MemoryStore.mem_of_find? hfind).2
  exact Readable.grows ⟨slot, _, decision.metadata, hslot, hslotLater, not_not.mp hidentity, hbound,
    hfind, hchecked⟩ hz

/-- A decision that can be read is read, whatever is written meanwhile. -/
theorem ensures_readDecision_readable {decision : Node} {s : MemoryStore}
    (hnamed : s.Named H) (h : Readable H request decision s) :
    Ensures H (readDecision H depth request)
      (fun outcome _ => ∃ metadata, outcome = .ok (some { decision with metadata })) s := by
  obtain ⟨expected, slot, _, hexpected, hslot, hidentity, hbound, hdecision, hchecked⟩ := h
  have hslotHeld := MemoryStore.contains_of_find? hslot
  have hheld := MemoryStore.contains_of_find? hdecision
  rw [readDecision, hexpected]
  refine ensures_orRaise (fun other hother => ?_) fun e he => by cases he
  cases hother
  refine ensures_contains fun t ht => ?_
  rw [if_neg (not_not.mpr (ht.contains hslotHeld))]
  refine Program.Ensures.bind .refl ((ensures_verifyOrRaise (P := Grows H s)
    (fun _ _ hgrows h => Grows.trans _ _ _ h hgrows) (ht.named hnamed) (ht.contains hslotHeld)
    ht).mono fun outcome u hu => ?_)
  obtain ⟨rfl, -, hu⟩ := hu
  rw [Program.Followed]
  refine ensures_get fun v hv => ?_
  have hv := hu.trans _ _ _ hv
  obtain ⟨metadata, hafter⟩ := hv.kept hslot
  rw [MemoryStore.get, hafter]
  refine ensures_orRaise (fun stored hstored => ?_) fun e he => by cases he
  cases hstored
  have hslotIdentity : Node.identity { slot with metadata } = expected.identity := hidentity
  rw [if_neg (not_not.mpr hslotIdentity), boundDecision_withMeta, hbound]
  refine ensures_orRaise (fun id hid => ?_) fun e he => by cases he
  cases hid
  refine ensures_contains fun w hw => ?_
  have hw := hv.trans _ _ _ hw
  rw [if_neg (not_not.mpr (hw.contains hheld))]
  refine Program.Ensures.bind .refl ((ensures_verifyOrRaise (P := Grows H s)
    (fun _ _ hgrows h => Grows.trans _ _ _ h hgrows) (hw.named hnamed) (hw.contains hheld)
    hw).mono fun outcome x hx => ?_)
  obtain ⟨rfl, -, hx⟩ := hx
  rw [Program.Followed]
  refine ensures_get fun y hy => ?_
  obtain ⟨metadata, hafter⟩ := (hx.trans _ _ _ hy).kept hdecision
  rw [MemoryStore.get, hafter]
  refine ensures_orRaise (fun node hnode => ?_) fun e he => by cases he
  cases hnode
  have hread : checkDecision request slot.id { decision with metadata } = .ok () := hchecked
  rw [hread]
  exact ensures_orRaise (fun _ _ z _ => ⟨metadata, rfl⟩) fun e he => by cases he

end Reading

/-! ## Loading a request -/

section Loading

variable {H : Hashing} {depth : ℕ} {request : ApprovalRequest} {s t : MemoryStore}

/-- The id of the root a node leads to. -/
def rootOf (s : MemoryStore) : ℕ → Node → String
  | 0, node => node.id
  | depth + 1, node =>
      match node.parent.bind s.find? with
      | some parent => rootOf s depth parent
      | none => node.id

/-- The request is recorded below its root. -/
def Loads (H : Hashing) (depth : ℕ) (request : ApprovalRequest) (s : MemoryStore) : Prop :=
  ∃ stored, s.find? request.id = some stored ∧
    ApprovalRequest.fromNode H stored = .ok request ∧ rootOf s depth stored = request.rootId

theorem parent_held {node : Node} {parent : String} (hnode : node ∈ s.nodes)
    (hparent : node.parent = some parent) : ∃ held, s.find? parent = some held := by
  have hedge : (node.id, some parent) ∈ s.edges := hparent ▸ List.mem_map_of_mem hnode
  exact Option.isSome_iff_exists.mp
    (MemoryStore.mem_keys_iff.mp (Forest.Grounded.parent_mem s.grounded hedge))

theorem ensures_rootFrom (depth : ℕ) (hgrows : Grows H s t) {stored : Node}
    (hstored : stored ∈ s.nodes) (metadata : Dict String Value) :
    Ensures H (rootFrom depth { stored with metadata })
      (fun outcome _ => outcome = .ok (rootOf s depth stored)) t := by
  induction depth generalizing t stored metadata with
  | zero => exact fun _ _ => rfl
  | succ depth ih =>
      rw [rootFrom, rootOf]
      dsimp only
      cases hparent : stored.parent with
      | none => exact fun _ _ => rfl
      | some parent =>
          dsimp only
          obtain ⟨held, hheld⟩ := parent_held hstored hparent
          rw [Option.bind_some, hheld]
          refine ensures_get fun u hu => ?_
          obtain ⟨metadata, hafter⟩ := (hgrows.trans _ _ _ hu).kept hheld
          rw [MemoryStore.get, hafter]
          exact ih (hgrows.trans _ _ _ hu) (MemoryStore.mem_of_find? hheld).1 metadata

theorem ensures_verifiedRoot {id : String} {stored : Node} (hnamed : s.Named H)
    (hstored : s.find? id = some stored) :
    Ensures H (verifiedRoot H depth id)
      (fun outcome t => outcome = .ok (rootOf s depth stored) ∧ Grows H s t) s := by
  refine Program.Ensures.bind .refl ((ensures_verifyOrRaise (P := Grows H s)
    (fun _ _ hgrows h => Grows.trans _ _ _ h hgrows) hnamed
    (MemoryStore.contains_of_find? hstored) (.refl s)).mono fun outcome t ht => ?_)
  obtain ⟨rfl, -, hgrows⟩ := ht
  rw [Program.Followed]
  refine ensures_get fun u hu => ?_
  have hlater := hgrows.trans _ _ _ hu
  obtain ⟨metadata, hafter⟩ := hlater.kept hstored
  rw [MemoryStore.get, hafter]
  exact (ensures_rootFrom depth hlater (MemoryStore.mem_of_find? hstored).1 metadata).and
    (ensures_stable (fun _ _ hgrows h => Grows.trans _ _ _ h hgrows) _ hlater)

/-- A request that is recorded is loaded, whatever is written meanwhile. -/
theorem ensures_loadRequest (hnamed : s.Named H) (hloads : Loads H depth request s) :
    Ensures H (loadRequest H depth request) (fun outcome _ => ∃ node, outcome = .ok node) s := by
  obtain ⟨stored, hstored, hrequest, hroot⟩ := hloads
  refine Program.Ensures.bind .refl ((ensures_verifiedRoot hnamed hstored).mono
    fun outcome t ht => ?_)
  obtain ⟨rfl, hgrows⟩ := ht
  rw [Program.Followed, if_neg (not_not.mpr hroot)]
  refine ensures_get fun u hu => ?_
  obtain ⟨metadata, hafter⟩ := (hgrows.trans _ _ _ hu).kept hstored
  rw [MemoryStore.get, hafter]
  refine ensures_orRaise (fun node hnode => ?_) fun e he => by cases he
  cases hnode
  have hread : ApprovalRequest.fromNode H { stored with metadata } = .ok request := hrequest
  rw [hread]
  refine ensures_orRaise (fun recorded hrecorded => ?_) fun e he => by cases he
  cases hrecorded
  rw [if_neg (not_not.mpr rfl)]
  exact fun v _ => ⟨_, rfl⟩

end Loading

/-! ## Deciding -/

section Deciding

variable {H : Hashing} {depth : ℕ} {request : ApprovalRequest} {verdict : Verdict}
  {nodes : DecisionNodes} {s t : MemoryStore}

def slotPayload (request : ApprovalRequest) : Value :=
  eventPayload "approval_decision_slot"
    (.dict [("version", .int 1), ("request_id", .str request.id)])

/-- The nodes of a decision: the slot below the request, but for its result, and the decision below
the slot. -/
structure DecisionNodes.Made (H : Hashing) (request : ApprovalRequest) (verdict : Verdict)
    (nodes : DecisionNodes) : Prop where
  slot : decisionSlot H request = .ok { nodes.binding with result := none }
  binding : nodes.binding = ⟨H.nodeId .note (some request.id) 0 (slotPayload request),
    some request.id, .note, 0, slotPayload request, some (decidedBy nodes.decision.id), ∅⟩
  decision : nodes.decision = ⟨H.nodeId .note (some nodes.binding.id) 0
    (eventPayload "approval_decision" (verdict.document request)), some nodes.binding.id, .note, 0,
    eventPayload "approval_decision" (verdict.document request), none, ∅⟩

theorem made_of_decisionNodes (h : decisionNodes H request verdict = .ok nodes) :
    nodes.Made H request verdict := by
  unfold decisionNodes at h
  obtain ⟨slot, hslot, h⟩ := Fallible.bind_ok_iff.mp h
  obtain ⟨decision, hdecision, h⟩ := Fallible.bind_ok_iff.mp h
  obtain ⟨binding, hbinding, h⟩ := Fallible.bind_ok_iff.mp h
  cases h
  obtain rfl := Node.eq_of_make hslot
  obtain rfl := Node.eq_of_make hdecision
  obtain rfl := Node.eq_of_make hbinding
  exact ⟨hslot, rfl, rfl⟩

/-- What `_validate_binding` finds. -/
def Validated (binding : Node) : Except PyError Node → MemoryStore → Prop
  | .ok _, s => BoundNote binding s
  | .error _, s => BoundElsewhere binding s ∨ Collides binding s

theorem ensures_validateBinding {binding : Node} (hnamed : s.Named H)
    (hheld : s.contains binding.id = true) :
    Ensures H (validateBinding H depth binding) (Validated binding) s := by
  refine Program.Ensures.bind .refl ((ensures_verifyOrRaise
    (P := fun t => t.contains binding.id = true) (fun _ _ hgrows h => hgrows.contains h) hnamed
    hheld hheld).mono fun outcome t ht => ?_)
  obtain ⟨rfl, -, hheld⟩ := ht
  rw [Program.Followed]
  refine ensures_get fun u hu => ?_
  obtain ⟨stored, hget, hfind⟩ := MemoryStore.get_of_contains (hu.contains hheld)
  rw [hget]
  refine ensures_orRaise (fun node hnode => ?_) fun e he => by cases he
  cases hnode
  by_cases hidentity : stored.identity = binding.identity
  · have hholds : Holds binding stored.result u := ⟨stored, hfind, hidentity, rfl⟩
    by_cases hsame : sameResult stored.result binding.result = true
    · rw [if_neg (by simp [hidentity, hsame])]
      exact fun v hv => BoundNote.grows ⟨_, hholds, hsame⟩ hv
    · rw [if_pos (.inr hsame)]
      exact fun v hv => .inl (.grows ⟨_, hholds, Bool.eq_false_iff.mpr hsame⟩ hv)
  · rw [if_pos (.inl hidentity)]
    exact fun v hv => .inr (.grows ⟨stored, hfind, hidentity⟩ hv)

/-- A slot that is bound to a decision is read so. -/
theorem boundDecision_of_bound {stored : Node} {id : String}
    (h : sameResult stored.result (some (decidedBy id)) = true) :
    boundDecision stored = .ok id := by
  obtain ⟨value, hvalue, hentry⟩ := entry_of_sameResult h
  rw [hvalue] at h
  obtain ⟨entries, rfl⟩ := Value.pyEq_dict_left (Value.pyEq_symm h)
  have hfields : hasFields ["decision_id"] (.dict entries) = true := by
    have hkeys := Value.pyEq_dict_iff.mp h
    simp only [hasFields, List.mem_singleton, forall_eq, Bool.decide_and, Bool.and_eq_true,
      decide_eq_true_eq]
    constructor
    · intro key hkey
      by_contra hne
      have hrel := hkeys key
      have hother : Assoc.lookup [("decision_id", Value.str id)] key = none :=
        if_neg (Ne.symm hne)
      rw [hother] at hrel
      cases hlookup : Assoc.lookup entries key with
      | none => exact absurd hkey (Assoc.lookup_eq_none_iff.mp hlookup)
      | some other =>
          rw [hlookup] at hrel
          cases hrel
    · exact Assoc.mem_keys_of_lookup hentry
  rw [boundDecision, hvalue]
  dsimp only
  rw [if_pos hfields, hentry]
  rfl

/-- A slot that is read as bound to a decision is bound as the decision's binding says. -/
theorem sameResult_of_boundDecision {stored : Node} {id : String}
    (h : boundDecision stored = .ok id) :
    sameResult stored.result (some (decidedBy id)) = true := by
  unfold boundDecision at h
  cases hresult : stored.result with
  | none =>
      rw [hresult] at h
      cases h
  | some result =>
      rw [hresult] at h
      dsimp only at h
      split at h
      · next hfields =>
          have hentry : result.get? "decision_id" = some (.str id) := by
            unfold nodeIdOf at h
            split at h
            · next text hvalue =>
                cases h
                exact hvalue
            · cases h
          cases result with
          | dict entries =>
              obtain ⟨hkeys, -⟩ := of_decide_eq_true hfields
              refine Value.pyEq_dict_iff.mpr fun key => ?_
              by_cases hkey : key = "decision_id"
              · rw [hkey, show Assoc.lookup entries "decision_id" = some (.str id) from hentry,
                  show Assoc.lookup [("decision_id", Value.str id)] "decision_id" = some (.str id)
                    from if_pos rfl]
                exact .some (Value.pyEq_refl _)
              · have hnone : Assoc.lookup entries key = none := by
                  refine Assoc.lookup_eq_none_iff.mpr fun hmem => hkey ?_
                  exact List.mem_singleton.mp (hkeys key hmem)
                rw [hnone, show Assoc.lookup [("decision_id", Value.str id)] key = none
                  from if_neg (Ne.symm hkey)]
                exact .none
          | _ => cases hfields
      · cases h

theorem decided_of_bound (hmade : nodes.Made H request verdict) (h : BoundNote nodes.binding s) :
    Decided H request nodes.decision.id s := by
  obtain ⟨_, ⟨stored, hstored, -, rfl⟩, hsame⟩ := h
  have hresult : nodes.binding.result = some (decidedBy nodes.decision.id) :=
    congrArg Node.result hmade.binding
  rw [hresult] at hsame
  exact ⟨_, stored, hmade.slot, hstored, boundDecision_of_bound hsame⟩

/-- A decision that its slot is bound to is read. -/
theorem ensures_readDecision_bound (hdigest : ∀ identity, H.node identity ≠ "")
    (hmade : nodes.Made H request verdict) (hnamed : s.Named H) (hbound : BoundNote nodes.binding s)
    (hheld : s.contains nodes.decision.id = true) :
    Ensures H (readDecision H depth request) (fun outcome t =>
      (∃ node, outcome = .ok (some node)) ∨ Collides nodes.decision t) s := by
  obtain ⟨_, ⟨slot, hslot, hidentity, rfl⟩, hsame⟩ := hbound
  have hresult : nodes.binding.result = some (decidedBy nodes.decision.id) :=
    congrArg Node.result hmade.binding
  rw [hresult] at hsame
  obtain ⟨decision, -, hfind⟩ := MemoryStore.get_of_contains hheld
  by_cases hdecision : decision.identity = nodes.decision.identity
  · rw [hmade.decision] at hdecision
    have hid : slot.id = nodes.binding.id := (MemoryStore.mem_of_find? hslot).2
    have hparents : decision.parent.getD "" = nodes.binding.id :=
      congrArg Identity.parent hdecision
    have hparent : decision.parent = some slot.id := by
      cases hparent : decision.parent with
      | some parent =>
          rw [hparent] at hparents
          rw [hid]
          exact congrArg some hparents
      | none =>
          rw [hparent, hmade.binding] at hparents
          exact absurd hparents.symm (hdigest _)
    have hchecked : checkDecision request slot.id decision = .ok () :=
      checkDecision_of_sameJson (congrArg Identity.kind hdecision)
        (congrArg Identity.payload hdecision) hparent
    have hown : decision.id = nodes.decision.id := (MemoryStore.mem_of_find? hfind).2
    have hreadable : Readable H request decision s := by
      refine ⟨_, slot, decision.metadata, hmade.slot, hslot, hidentity, ?_, ?_, hchecked⟩
      · rw [hown]
        exact boundDecision_of_bound hsame
      · rw [← hown] at hfind
        exact hfind
    refine (ensures_readDecision_readable hnamed hreadable).mono fun outcome t ht => ?_
    obtain ⟨metadata, hnode⟩ := ht
    exact .inl ⟨_, hnode⟩
  · have hcollides : Collides nodes.decision s := ⟨decision, hfind, hdecision⟩
    exact (ensures_stable (fun _ _ hgrows h => Collides.grows h hgrows) _ hcollides).mono
      fun _ _ h => .inr h

/-- How a call may end: with the decision its slot is bound to, or the slot is bound elsewhere, or
digests collide. -/
def Ended (H : Hashing) (request : ApprovalRequest) (nodes : DecisionNodes) :
    Except PyError Node → MemoryStore → Prop
  | .ok node, s =>
      node.id = nodes.decision.id ∧ BoundNote nodes.binding s ∧ Readable H request node s
  | .error _, s => BoundElsewhere nodes.binding s ∨ Collides nodes.binding s ∨
      Collides nodes.decision s

/-- The last step of a call, once its decision is bound and held. -/
theorem ensures_found (hdigest : ∀ identity, H.node identity ≠ "")
    (hmade : nodes.Made H request verdict) (hnamed : s.Named H) (hbound : BoundNote nodes.binding s)
    (hheld : s.contains nodes.decision.id = true) :
    Ensures H ((readDecision H depth request).bind assertFound) (Ended H request nodes) s := by
  have hread : Ensures H (readDecision H depth request) (Reads H request) s :=
    ensures_readDecision s
  have hboth := hread.and (ensures_readDecision_bound hdigest hmade hnamed hbound hheld)
  refine Program.Ensures.bind .refl ((ensures_keeping (fun _ _ hgrows h => BoundNote.grows h hgrows)
    hboth hnamed hbound).mono fun outcome t ht => ?_)
  obtain ⟨⟨hreads, hfound⟩, -, hbound⟩ := ht
  have hdecided := decided_of_bound hmade hbound
  cases outcome with
  | error e =>
      refine .inr (.inr (hfound.resolve_left ?_))
      rintro ⟨node, ⟨⟩⟩
  | ok read =>
      cases read with
      | none =>
          have hcollides : Collides nodes.decision t := by
            refine hfound.resolve_left ?_
            rintro ⟨node, ⟨⟩⟩
          exact fun u hu => .inr (.inr (hcollides.grows hu))
      | some node =>
          have hnode := hreads node rfl
          intro u hu
          exact ⟨hnode.decided.unique hdecided, hbound.grows hu, hnode.grows hu⟩

/-- The steps of a call that writes. -/
theorem ensures_written (hdigest : ∀ identity, H.node identity ≠ "")
    (hmade : nodes.Made H request verdict) (hnamed : s.Named H)
    (hrequest : s.contains request.id = true) :
    Ensures H (writeNodes H depth request nodes) (Ended H request nodes) s := by
  have hbinding := hmade.binding
  have hdecision := hmade.decision
  have hbindingId : nodes.binding.id = nodes.binding.expectedId H := by rw [hbinding]; rfl
  have hdecisionId : nodes.decision.id = nodes.decision.expectedId H := by rw [hdecision]; rfl
  refine ensures_put fun t ht => ⟨fun u hu => ?_, fun e he => ?_⟩
  · have hnamed := (grows_put hu).named (ht.named hnamed)
    obtain ⟨stored, hfind, -⟩ := held_of_put hu
    have hheld := MemoryStore.contains_of_find? hfind
    refine ensures_orRaise (fun _ _ => ?_) fun e he => by cases he
    refine Program.Ensures.bind .refl ((ensures_keeping (P := fun _ => True) (fun _ _ _ h => h)
      (ensures_validateBinding hnamed hheld) hnamed trivial).mono fun outcome v hv => ?_)
    obtain ⟨hvalidated, hnamed, -⟩ := hv
    cases outcome with
    | error e => exact hvalidated.imp id .inl
    | ok _ =>
        have hbound : BoundNote nodes.binding v := hvalidated
        rw [Program.Followed]
        refine ensures_put fun w hw => ⟨fun x hx => ?_, fun e he => ?_⟩
        · refine ensures_orRaise (fun _ _ => ?_) fun e he => by cases he
          obtain ⟨recorded, hrecorded, -⟩ := held_of_put hx
          exact ensures_found hdigest hmade ((grows_put hx).named (hw.named hnamed))
            ((hbound.grows hw).grows (grows_put hx)) (MemoryStore.contains_of_find? hrecorded)
        · have hcollides : Collides nodes.decision w := by
            refine collides_of_put hdecisionId ?_ ?_ he
            · rw [hdecision]
              rintro ⟨⟩
            · rw [hdecision]
              rintro p ⟨⟩
              obtain ⟨_, hholds, -⟩ := hbound.grows hw
              exact hholds.contains
          exact fun x hx => .inr (.inr (hcollides.grows hx))
  · have hcollides : Collides nodes.binding t := by
      refine collides_of_put hbindingId ?_ ?_ he
      · rw [hbinding]
        rintro ⟨⟩
      · rw [hbinding]
        rintro p ⟨⟩
        exact ht.contains hrequest
    exact fun u hu => .inr (.inl (hcollides.grows hu))

theorem ensures_decideNodes (hdigest : ∀ identity, H.node identity ≠ "")
    (hmade : nodes.Made H request verdict) (hnamed : s.Named H)
    (hrequest : s.contains request.id = true) :
    Ensures H (decideNodes H depth request nodes) (Ended H request nodes) s := by
  refine ensures_contains fun t ht => ?_
  have hwritten : ∀ u, Grows H s u → Ensures H (writeNodes H depth request nodes)
      (Ended H request nodes) u := fun u hu =>
    ensures_written hdigest hmade (hu.named hnamed) (hu.contains hrequest)
  split
  · next hheld =>
      refine Program.Ensures.bind .refl ((ensures_keeping (P := Grows H s)
        (fun _ _ hgrows h => Grows.trans _ _ _ h hgrows)
        (ensures_validateBinding (ht.named hnamed) hheld) (ht.named hnamed) ht).mono
        fun outcome u hu => ?_)
      obtain ⟨hvalidated, hnamed, hu⟩ := hu
      cases outcome with
      | error e => exact hvalidated.imp id .inl
      | ok _ =>
          have hbound : BoundNote nodes.binding u := hvalidated
          rw [Program.Followed]
          refine ensures_contains fun v hv => ?_
          split
          · next hfound =>
              exact ensures_found hdigest hmade (hv.named hnamed) (hbound.grows hv) hfound
          · exact hwritten v (hu.trans _ _ _ hv)
  · exact hwritten t ht

/-- How `decide_approval` ends: its nodes may not be made, before anything is written. -/
def Outcome (H : Hashing) (request : ApprovalRequest) (verdict : Verdict)
    (outcome : Except PyError Node) (s : MemoryStore) : Prop :=
  match decisionNodes H request verdict with
  | .ok nodes => Ended H request nodes outcome s
  | .error e => outcome = .error e

/-- Whatever else is written meanwhile, a request that is recorded is decided or its decision is
another one. -/
theorem ensures_decideApproval (hdigest : ∀ identity, H.node identity ≠ "") (hnamed : s.Named H)
    (hloads : Loads H depth request s) :
    Ensures H (decideApproval H depth request verdict) (Outcome H request verdict) s := by
  have hrequest : s.contains request.id = true := by
    obtain ⟨stored, hstored, -⟩ := hloads
    exact MemoryStore.contains_of_find? hstored
  refine Program.Ensures.bind .refl ((ensures_keeping
    (fun _ _ hgrows h => Grows.contains hgrows h) (ensures_loadRequest hnamed hloads) hnamed
    hrequest).mono fun outcome t ht => ?_)
  obtain ⟨⟨node, rfl⟩, hnamed, hrequest⟩ := ht
  rw [Program.Followed]
  unfold Outcome
  cases hnodes : decisionNodes H request verdict with
  | error e => exact fun _ _ => rfl
  | ok nodes =>
      exact ensures_decideNodes hdigest (made_of_decisionNodes hnodes) hnamed hrequest

/-- Two decisions below one slot that have one id are one, unless their digests collide. -/
theorem verdict_of_id {verdict' : Verdict} {nodes' : DecisionNodes}
    (hmade : nodes.Made H request verdict) (hmade' : nodes'.Made H request verdict')
    (hid : nodes.decision.id = nodes'.decision.id) :
    verdict = verdict' ∨ ∃ a b : Identity, a ≠ b ∧ H.node a = H.node b := by
  have hids : nodes.decision.expectedId H = nodes'.decision.expectedId H := by
    have hown : nodes.decision.id = nodes.decision.expectedId H := by rw [hmade.decision]; rfl
    have hown' : nodes'.decision.id = nodes'.decision.expectedId H := by rw [hmade'.decision]; rfl
    rw [← hown, ← hown', hid]
  by_cases hidentity : nodes.decision.identity = nodes'.decision.identity
  · left
    rw [hmade.decision, hmade'.decision] at hidentity
    have hpayload : Value.SameJson (eventPayload "approval_decision" (verdict.document request))
        (eventPayload "approval_decision" (verdict'.document request)) :=
      congrArg Identity.payload hidentity
    obtain ⟨document, hdocument, hentries⟩ := document_of_sameJson hpayload
    have hother : ((eventPayload "approval_decision" (verdict'.document request)).get?
        "_pollard").bind (fun wrapper => wrapper.get? "approval_decision") =
          some (verdict'.document request) := rfl
    rw [hother] at hdocument
    cases hdocument
    obtain ⟨approved, happroved, hsame⟩ := hentries.get?
      (show (verdict.document request).get? "approved" = some (.bool verdict.approved) from rfl)
    obtain ⟨reviewer, hreviewer, hsame'⟩ := hentries.get?
      (show (verdict.document request).get? "reviewer" = some (.str verdict.reviewer.1) from rfl)
    cases happroved
    cases hreviewer
    have hbool := eq_of_sameJson_bool hsame
    have hname := hsame'.str
    rw [Value.bool.injEq] at hbool
    rw [Value.str.injEq] at hname
    cases verdict
    cases verdict'
    rw [Verdict.mk.injEq]
    exact ⟨hbool, Subtype.ext hname.symm⟩
  · exact .inr ⟨_, _, hidentity, hids⟩

end Deciding

/-! ## How long a call takes -/

section Length

variable {H : Hashing} (depth : ℕ) (request : ApprovalRequest)

theorem within_answer {α β : Type} {answer : Except PyError α} {f : α → StoreProgram β} {n : ℕ}
    (h : ∀ a, (f a).Within n) : ((StoreProgram.orRaise answer).bind f).Within n := by
  rw [← Nat.zero_add n]
  exact (within_orRaise answer 0).bind h

theorem within_verifyOrRaise (id : String) : (verifyOrRaise H depth id).Within depth :=
  (within_verify depth [] id).bind (n := 0) fun findings => by
    split
    · exact Program.within_ret _ _
    · exact Program.within_raise _ _

theorem within_rootFrom (node : Node) : (rootFrom depth node).Within depth := by
  induction depth generalizing node with
  | zero => exact Program.within_ret _ _
  | succ depth ih =>
      rw [rootFrom]
      split
      · exact Program.within_ret _ _
      · exact fun answer => within_answer ih

theorem within_loadRequest : (loadRequest H depth request).Within (depth + (depth + 1) + 1) := by
  have hroot : (verifiedRoot H depth request.id).Within (depth + (depth + 1)) :=
    (within_verifyOrRaise depth request.id).bind fun _ answer =>
      within_answer (within_rootFrom depth)
  refine hroot.bind fun root => ?_
  split
  · exact Program.within_raise _ _
  · refine fun answer => within_answer fun node => within_answer fun recorded => ?_
    split
    · exact Program.within_raise _ _
    · exact Program.within_ret _ _

theorem within_validateBinding (expected : Node) :
    (validateBinding H depth expected).Within (depth + 1) := by
  refine (within_verifyOrRaise depth expected.id).bind fun _ answer => ?_
  refine within_answer fun stored => ?_
  split
  · exact Program.within_raise _ _
  · exact Program.within_ret _ _

theorem within_readDecision :
    (readDecision H depth request).Within (depth + (depth + 1 + 1) + 1 + 1) := by
  refine within_answer fun expected found => ?_
  dsimp only
  split
  · exact Program.within_ret _ _
  refine Program.Within.mono (m := depth + (depth + 1 + 1 + 1)) ?_ (by omega)
  refine (within_verifyOrRaise depth expected.id).bind fun _ answer => within_answer fun slot => ?_
  split
  · exact Program.within_raise _ _
  refine within_answer fun decisionId found => ?_
  dsimp only
  split
  · exact Program.within_ret _ _
  exact (within_verifyOrRaise depth decisionId).bind fun _ answer =>
    within_answer fun decision => within_answer fun _ => Program.within_ret _ _

theorem within_found :
    ((readDecision H depth request).bind assertFound).Within (2 * (depth + 1) + 2) := by
  refine Program.Within.mono (m := depth + (depth + 1 + 1) + 1 + 1 + 0) ?_ (by omega)
  refine (within_readDecision depth request).bind fun found => ?_
  cases found with
  | some node => exact Program.within_ret _ _
  | none => exact Program.within_raise _ _

theorem within_writeNodes (nodes : DecisionNodes) :
    (writeNodes H depth request nodes).Within (3 * (depth + 1) + 4) := by
  intro answer
  refine Program.Within.mono (m := depth + 1 + (2 * (depth + 1) + 2 + 1)) ?_ (by omega)
  refine within_answer fun _ => (within_validateBinding depth _).bind fun _ answer => ?_
  exact within_answer fun _ => within_found depth request

theorem within_decideNodes (nodes : DecisionNodes) :
    (decideNodes H depth request nodes).Within (4 * (depth + 1) + 6) := by
  intro found
  dsimp only
  split
  · refine Program.Within.mono (m := depth + 1 + (3 * (depth + 1) + 4 + 1)) ?_ (by omega)
    refine (within_validateBinding depth _).bind fun _ found => ?_
    dsimp only
    split
    · exact (within_found depth request).mono (by omega)
    · exact within_writeNodes depth request nodes
  · exact (within_writeNodes depth request nodes).mono (by omega)

theorem within_decideApproval (verdict : Verdict) :
    (decideApproval H depth request verdict).Within (6 * (depth + 1) + 6) := by
  refine Program.Within.mono (m := depth + (depth + 1) + 1 + (4 * (depth + 1) + 6)) ?_ (by omega)
  refine (within_loadRequest depth request).bind fun _ => ?_
  exact within_answer (within_decideNodes depth request)

end Length

/-! ## Runs -/

/-- What a worker does with a request. -/
inductive Call where
  | decide (verdict : Verdict)
  | read

section Runs

variable {H : Hashing} {depth : ℕ} {request : ApprovalRequest}

def Call.program (H : Hashing) (depth : ℕ) (request : ApprovalRequest) :
    Call → StoreProgram (Option Node)
  | .decide verdict => (decideApproval H depth request verdict).bind fun node => .ret (some node)
  | .read => readDecision H depth request

/-- Workers that decide a request or read its decision. -/
def workers (H : Hashing) (depth : ℕ) (request : ApprovalRequest) (store : MemoryStore)
    (calls : List Call) : Clients StoreOp StoreOp.Answer PyError (Option Node) MemoryStore :=
  ⟨store, calls.map (Call.program H depth request)⟩

/-- How a call may end. -/
def Call.Ended (H : Hashing) (request : ApprovalRequest) :
    Call → Except PyError (Option Node) → MemoryStore → Prop
  | .decide verdict, .ok (some node), s => Outcome H request verdict (.ok node) s
  | .decide _, .ok none, _ => False
  | .decide verdict, .error e, s => Outcome H request verdict (.error e) s
  | .read, outcome, s => Reads H request outcome s

theorem Ended.grows {nodes : DecisionNodes} {outcome : Except PyError Node} {s t : MemoryStore}
    (h : Ended H request nodes outcome s) (hgrows : Grows H s t) :
    Ended H request nodes outcome t := by
  cases outcome with
  | ok node =>
      obtain ⟨hid, hbound, hreadable⟩ := h
      exact ⟨hid, hbound.grows hgrows, hreadable.grows hgrows⟩
  | error e => exact h.imp (·.grows hgrows) (·.imp (·.grows hgrows) (·.grows hgrows))

theorem Outcome.grows {verdict : Verdict} {outcome : Except PyError Node} {s t : MemoryStore}
    (h : Outcome H request verdict outcome s) (hgrows : Grows H s t) :
    Outcome H request verdict outcome t := by
  unfold Outcome at h ⊢
  split at h
  · exact Ended.grows h hgrows
  · exact h

theorem ensures_call (hdigest : ∀ identity, H.node identity ≠ "") {s : MemoryStore}
    (hnamed : s.Named H) (hloads : Loads H depth request s) (call : Call) :
    Ensures H (call.program H depth request) (call.Ended H request) s := by
  cases call with
  | read => exact ensures_readDecision s
  | decide verdict =>
      refine Program.Ensures.bind .refl ((ensures_decideApproval hdigest hnamed hloads).mono
        fun outcome t ht => ?_)
      cases outcome with
      | ok node => exact fun u hu => Outcome.grows ht hu
      | error e => exact ht

theorem within_call (call : Call) :
    (call.program H depth request).Within (6 * (depth + 1) + 6) := by
  cases call with
  | read => exact (within_readDecision depth request).mono (by omega)
  | decide verdict =>
      exact (within_decideApproval depth request verdict).bind (n := 0)
        fun _ => Program.within_ret _ _

/-- A decision that a call comes back with can be read. -/
theorem Call.Ended.readable {call : Call} {node : Node} {s : MemoryStore}
    (h : call.Ended H request (.ok (some node)) s) : Readable H request node s := by
  cases call with
  | read => exact h node rfl
  | decide verdict =>
      rw [Call.Ended, Outcome] at h
      split at h
      · exact h.2.2
      · cases h

/-- The nodes of a decision that a call has come back with. -/
theorem Call.Ended.nodes {verdict : Verdict} {node : Node} {s : MemoryStore}
    (h : (Call.decide verdict).Ended H request (.ok (some node)) s) :
    ∃ nodes, decisionNodes H request verdict = .ok nodes ∧ node.id = nodes.decision.id := by
  rw [Call.Ended, Outcome] at h
  split at h
  · next nodes hnodes => exact ⟨nodes, hnodes, h.1⟩
  · cases h

/-- A slot that can be read is not bound elsewhere. -/
theorem Decided.not_elsewhere {verdict : Verdict} {nodes : DecisionNodes} {s : MemoryStore}
    (h : Decided H request nodes.decision.id s) (hmade : nodes.Made H request verdict) :
    ¬ BoundElsewhere nodes.binding s := by
  rintro ⟨_, ⟨other, hother, -, rfl⟩, hdiffers⟩
  obtain ⟨slot, stored, hslot, hstored, hbound⟩ := h
  rw [hmade.slot] at hslot
  cases hslot
  rw [hother] at hstored
  cases hstored
  have hsame := sameResult_of_boundDecision hbound
  rw [show nodes.binding.result = some (decidedBy nodes.decision.id) from
    congrArg Node.result hmade.binding, hsame] at hdiffers
  cases hdiffers

/-- However a run goes on, the store has grown, and what has ended has ended so. -/
theorem workers_ended (hdigest : ∀ identity, H.node identity ≠ "") {store : MemoryStore}
    (hnamed : store.Named H) (hloads : Loads H depth request store) {calls : List Call}
    (turns : List (Turn Write))
    {w : Clients StoreOp StoreOp.Answer PyError (Option Node) MemoryStore}
    (hw : w = (workers H depth request store calls).run (perform H) (Write.apply H) turns) :
    Grows H store w.state ∧ ∀ {i outcome}, w.outcome? i = some outcome →
      ∃ call, calls[i]? = some call ∧ call.Ended H request outcome w.state := by
  have hall : (workers H depth request store calls).Ensure (perform H) (Grows H)
      fun i outcome s => ∃ call, calls[i]? = some call ∧ call.Ended H request outcome s := by
    intro i p hp
    rw [workers, List.getElem?_map] at hp
    obtain ⟨call, hcall, rfl⟩ := Option.map_eq_some_iff.mp hp
    exact (ensures_call hdigest hnamed hloads call).mono fun outcome t ht => ⟨call, hcall, ht⟩
  obtain ⟨hgrown, hrun⟩ := hall.run .refl Grows.trans grows_perform grows_write turns
  rw [← hw] at hgrown hrun
  exact ⟨hgrown, fun houtcome => hrun.outcome .refl houtcome⟩

/-- A request is decided once.  However reviewers and readers are interleaved with each other and
with what others write, every call ends; all decisions returned or read are one; a reviewer who
decided so fails only if digests collide, and two who decided differently do not both succeed; and
whoever reads afterwards finds the decision. -/
theorem decided_once (hdigest : ∀ identity, H.node identity ≠ "") {store : MemoryStore}
    (hnamed : store.Named H) (hloads : Loads H depth request store) {calls : List Call}
    (turns : List (Turn Write))
    {w : Clients StoreOp StoreOp.Answer PyError (Option Node) MemoryStore}
    (hw : w = (workers H depth request store calls).run (perform H) (Write.apply H) turns) :
    (∀ i < calls.length, 6 * (depth + 1) + 6 ≤ Clients.turnsOf i turns →
      (w.outcome? i).isSome = true) ∧
    (∀ i node, w.outcome? i = some (.ok (some node)) →
      (∀ j other, w.outcome? j = some (.ok (some other)) →
        ∃ metadata, other = { node with metadata }) ∧
      (∀ j verdict nodes e, calls[j]? = some (.decide verdict) →
        decisionNodes H request verdict = .ok nodes → nodes.decision.id = node.id →
          w.outcome? j = some (.error e) →
            Collides nodes.binding w.state ∨ Collides nodes.decision w.state) ∧
      ∀ readers more j outcome, ((workers H depth request w.state
        (List.replicate readers .read)).run (perform H) (Write.apply H) more).outcome? j =
          some outcome → ∃ metadata, outcome = .ok (some { node with metadata })) ∧
    ∀ i j a b node other, calls[i]? = some (.decide a) → calls[j]? = some (.decide b) →
      w.outcome? i = some (.ok (some node)) → w.outcome? j = some (.ok (some other)) →
        a = b ∨ ∃ x y : Identity, x ≠ y ∧ H.node x = H.node y := by
  obtain ⟨hgrown, hended⟩ := workers_ended hdigest hnamed hloads turns hw
  have hreadable : ∀ {i node}, w.outcome? i = some (.ok (some node)) →
      Readable H request node w.state := by
    intro i node houtcome
    obtain ⟨call, -, hcall⟩ := hended houtcome
    exact hcall.readable
  have hone : ∀ {i j node other}, w.outcome? i = some (.ok (some node)) →
      w.outcome? j = some (.ok (some other)) → ∃ metadata, other = { node with metadata } :=
    fun hi hj => (hreadable hi).unique (hreadable hj)
  refine ⟨fun i hi hturns => ?_, fun i node hi => ⟨fun j other hj => hone hi hj, ?_, ?_⟩, ?_⟩
  · rw [hw]
    have hprogram : (workers H depth request store calls).programs[i]? =
        some (calls[i].program H depth request) := by
      rw [workers, List.getElem?_map, List.getElem?_eq_getElem hi]
      rfl
    exact Clients.ended_of_turns hprogram (within_call _) hturns
  · intro j verdict nodes e hcall hnodes hid herror
    obtain ⟨call, hcall', hend⟩ := hended herror
    rw [hcall] at hcall'
    cases hcall'
    have hmade := made_of_decisionNodes hnodes
    rw [Call.Ended, Outcome, hnodes] at hend
    exact hend.resolve_left ((hid ▸ (hreadable hi).decided).not_elsewhere hmade)
  · intro readers more j outcome houtcome
    have hfind : (workers H depth request w.state (List.replicate readers .read)).Ensure (perform H)
        (Grows H) fun _ outcome _ => ∃ metadata, outcome = .ok (some { node with metadata }) := by
      intro k p hp
      rw [workers, List.getElem?_map] at hp
      obtain ⟨call, hcall, rfl⟩ := Option.map_eq_some_iff.mp hp
      rw [List.eq_of_mem_replicate (List.mem_of_getElem? hcall)]
      exact ensures_readDecision_readable (hgrown.named hnamed) (hreadable hi)
    obtain ⟨-, hfound⟩ := hfind.run .refl Grows.trans grows_perform grows_write more
    exact hfound.outcome .refl houtcome
  · intro i j a b node other ha hb hi hj
    obtain ⟨call, hcall, hend⟩ := hended hi
    obtain ⟨call', hcall', hend'⟩ := hended hj
    rw [ha] at hcall
    rw [hb] at hcall'
    cases hcall
    cases hcall'
    obtain ⟨nodes, hnodes, hid⟩ := hend.nodes
    obtain ⟨nodes', hnodes', hid'⟩ := hend'.nodes
    refine verdict_of_id (made_of_decisionNodes hnodes) (made_of_decisionNodes hnodes') ?_
    obtain ⟨metadata, rfl⟩ := hone hi hj
    rw [← hid, ← hid']

end Runs

/-! ## Two reviewers -/

def runRoot : Node :=
  ⟨Hashing.plain.nodeId .root none 0 (.dict [("run", .str "payments")]), none, .root, 0,
    .dict [("run", .str "payments")], none, ∅⟩

/-- An agent asks to transfer money. -/
def transfer : ApprovalRequest :=
  let draft : ApprovalRequest :=
    ⟨"", runRoot.id, runRoot.id, "transfer", "1", "args", "spec", "registry", none, 0⟩
  { draft with
    id := Hashing.plain.nodeId .note (some runRoot.id) 0
      (eventPayload "approval_request" draft.document) }

def transferNode : Node :=
  ⟨transfer.id, some runRoot.id, .note, 0, eventPayload "approval_request" transfer.document, none,
    ∅⟩

def requested : MemoryStore :=
  (Write.put transferNode).apply .plain ((Write.put runRoot).apply .plain .empty)

def approval : Verdict := ⟨true, ⟨"ana", by decide, by decide⟩⟩

def denial : Verdict := ⟨false, ⟨"ben", by decide, by decide⟩⟩

/-- Both load the request, and the approval is bound before the denial is. -/
def reviews : List (Turn Write) :=
  List.replicate 6 (.client 1) ++ List.replicate 30 (.client 0) ++ List.replicate 30 (.client 1) ++
    List.replicate 12 (.client 2)

/-- The approval is recorded and read, and the denial is refused. -/
theorem decided_once_approved :
    ∃ w : Clients StoreOp StoreOp.Answer PyError (Option Node) MemoryStore,
      w = (workers .plain 4 transfer requested [.decide approval, .decide denial, .read]).run
        (perform .plain) (Write.apply .plain) reviews ∧
      ∃ node other e, w.outcome? 0 = some (.ok (some node)) ∧ w.outcome? 1 = some (.error e) ∧
        w.outcome? 2 = some (.ok (some other)) ∧ ∃ metadata, other = { node with metadata } := by
  have hloads : Loads .plain 4 transfer requested := by
    have hread : (requested.find? transfer.id).any (fun stored =>
        (ApprovalRequest.fromNode .plain stored).toOption = some transfer ∧
          rootOf requested 4 stored = transfer.rootId) = true := by
      decide +kernel
    obtain ⟨stored, hstored, hread⟩ := (Option.any_eq_true _ _).mp hread
    obtain ⟨hrequest, hroot⟩ := of_decide_eq_true hread
    refine ⟨stored, hstored, ?_, hroot⟩
    cases hfrom : ApprovalRequest.fromNode .plain stored with
    | ok request =>
        rw [hfrom] at hrequest
        exact congrArg Except.ok (Option.some.inj hrequest)
    | error e =>
        rw [hfrom] at hrequest
        cases hrequest
  have hnamed : requested.Named .plain := by
    apply (grows_write _ _).named
    apply (grows_write _ _).named
    rintro node ⟨⟩
  obtain ⟨w, hw⟩ : ∃ w, w = (workers .plain 4 transfer requested
      [.decide approval, .decide denial, .read]).run (perform .plain) (Write.apply .plain)
        reviews := ⟨_, rfl⟩
  have hends : ((w.outcome? 0).any (fun outcome => outcome.toOption.any Option.isSome) &&
      ((w.outcome? 1).any (fun outcome => !outcome.isOk) &&
        (w.outcome? 2).any fun outcome => outcome.toOption.any Option.isSome)) = true := by
    rw [hw]
    decide +kernel
  obtain ⟨-, hone, -⟩ := decided_once plain_node_ne hnamed hloads reviews hw
  have hfound : ∀ outcome : Except PyError (Option Node),
      outcome.toOption.any Option.isSome = true → ∃ node, outcome = .ok (some node) := by
    intro outcome hsome
    cases outcome with
    | error e => cases hsome
    | ok node =>
        obtain ⟨node, rfl⟩ := Option.isSome_iff_exists.mp hsome
        exact ⟨node, rfl⟩
  rw [Bool.and_eq_true, Bool.and_eq_true, Option.any_eq_true, Option.any_eq_true,
    Option.any_eq_true] at hends
  obtain ⟨⟨approved, happroved, hok⟩, ⟨denied, hdenied, herror⟩, read, hread, hok'⟩ := hends
  obtain ⟨node, rfl⟩ := hfound approved hok
  obtain ⟨other, rfl⟩ := hfound read hok'
  cases denied with
  | ok _ => cases herror
  | error e =>
      exact ⟨w, hw, node, other, e, happroved, hdenied, hread,
        (hone 0 node happroved).1 2 other hread⟩

end Pollard.ApprovalDecisions
