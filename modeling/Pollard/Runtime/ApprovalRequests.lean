import Pollard.Runtime.ApprovalUse

/-!
# Requests for approval

`request_approval` records a request at the cursor.  Once a reviewer approves it, the policy lets
its action through until a call uses it up.
-/

namespace Pollard.ApprovalDecisions

open Lib Effect NamedScopes SharedNotes Teams

/-! ## Requesting -/

/-- `Registry.get` -/
def registryGet (registry : Registry) (name : String) (version : Option String) :
    Except PyError ActionSpec :=
  match registry.specs.get? name with
  | none => .error (.keyError name)
  | some spec =>
      match version.filter fun version => version ≠ spec.version with
      | some version => .error (.keyError s!"{name}@{version}")
      | none => .ok spec

/-- The request of an action at a cursor, but for its id. -/
def requestOf (registry : Registry) (spec : ActionSpec) (argsDigest : String)
    (actor : Option AgentIdentity) (run : Run) (attempt : ℤ) : ApprovalRequest :=
  ⟨"", run.rootId, run.cursorId, spec.name, spec.version, argsDigest, spec.specDigest,
    registry.registryDigest, actor, attempt⟩

def requestPayload (request : ApprovalRequest) : Value :=
  eventPayload "approval_request" request.document

section Requesting

variable (H : Hashing) (rt : Runtime) (depth : ℕ)

/-- `request_approval`, once the action and its arguments are checked -/
def recordRequest (env : CallEnv) (request : ApprovalRequest) : RunM ApprovalRequest := do
  let candidate ← orRaise (Node.make H .note (some request.parentId) (requestPayload request)
    request.attempt)
  let _ ← orRaise (ApprovalRequest.fromNode H candidate)
  let node ← note H rt env (requestPayload request) request.attempt
  orRaise (ApprovalRequest.fromNode H node)

/-- `request_approval` -/
def requestApproval (env : CallEnv) (actor : Option AgentIdentity) (name : String) (args : Value)
    (version : Option String) (attempt : ℤ) : RunM ApprovalRequest :=
  match rt.registry with
  | none => throw (.valueError "approval requests require a registry")
  | some registry => do
      let spec ← orRaise (registryGet registry name version)
      let finding ← orRaise (spec.validateArgs args)
      match finding with
      | some finding => throw (.valueError s!"invalid approval arguments: {finding}")
      | none => do
          let s ← get
          let rootId ← orRaise (alone H (verifiedRoot H depth s.run.cursorId) s.store)
          if rootId ≠ s.run.rootId then
            throw (.integrityError "approval cursor does not belong to the run root")
          else
            let redacted ← orRaise (spec.redactArgs H args)
            let argsDigest ← orRaise (H.digestPayload redacted)
            recordRequest H rt env (requestOf registry spec argsDigest actor s.run attempt)

end Requesting

/-! ## Documents of requests -/

section Documents

open Value (SameJson)

theorem str_of_sameJson (key : String) {a b : Value} {x y : String} (h : SameJson a b)
    (ha : a.get? key = some (.str x)) (hb : b.get? key = some (.str y)) : x = y := by
  obtain ⟨other, hother, hsame⟩ := h.get? ha
  rw [hb, hsame.str] at hother
  exact (Value.str.inj (Option.some.inj hother)).symm

theorem name_of_sameJson (key : String) {a b : Value} {x y : Name} (h : SameJson a b)
    (ha : a.get? key = some (.str x.1)) (hb : b.get? key = some (.str y.1)) : x = y :=
  Subtype.ext (str_of_sameJson key h ha hb)

/-- Optional texts with the same JSON are the same. -/
theorem role_of_sameJson {a b : Option Name}
    (h : SameJson ((a.map fun name => Value.str name.1).getD .none)
      ((b.map fun name => Value.str name.1).getD .none)) : a = b := by
  cases a with
  | none =>
      cases b with
      | none => rfl
      | some y => cases h
  | some x =>
      cases b with
      | none => cases h
      | some y => exact congrArg some (Subtype.ext (Value.str.inj h))

theorem tools_of_sameJson {a b : Option (List Name)}
    (h : SameJson ((a.map fun tools => Value.list (tools.map fun name => .str name.1)).getD .none)
      ((b.map fun tools => Value.list (tools.map fun name => .str name.1)).getD .none)) :
    a = b := by
  cases a with
  | none =>
      cases b with
      | none => rfl
      | some y => cases h
  | some x =>
      cases b with
      | none => cases h
      | some y =>
          obtain ⟨others, hothers, hitems⟩ := SameJson.list h
          cases hothers
          rw [List.map_map, List.map_map] at hitems
          refine congrArg some (List.map_injective_iff.mpr (fun m n hmn => ?_) hitems)
          exact Subtype.ext (Value.str.inj hmn)

theorem agentIdentity_of_sameJson {a b : AgentIdentity} (h : SameJson a.toDict b.toDict) :
    a = b := by
  have hget : ∀ (key : String) {x y : Value}, a.toDict.get? key = some x →
      b.toDict.get? key = some y → SameJson x y := by
    intro key x y hx hy
    obtain ⟨other, hother, hsame⟩ := h.get? hx
    rw [hy] at hother
    cases hother
    exact hsame
  have hteam : a.teamId = b.teamId := name_of_sameJson "team_id" h rfl rfl
  have hagent : a.agentId = b.agentId := name_of_sameJson "agent_id" h rfl rfl
  have htask : a.taskId = b.taskId := name_of_sameJson "task_id" h rfl rfl
  have hrole : a.role = b.role := role_of_sameJson (hget "role" rfl rfl)
  have htools : a.allowedTools = b.allowedTools := tools_of_sameJson (hget "allowed_tools" rfl rfl)
  cases a
  cases b
  simp only [AgentIdentity.mk.injEq]
  exact ⟨hteam, hagent, htask, hrole, htools⟩

/-- Requests with the same document are for the same action of the same actor. -/
theorem fields_of_sameJson {a b : ApprovalRequest} (h : SameJson a.document b.document) :
    a.rootId = b.rootId ∧ a.name = b.name ∧ a.toolVersion = b.toolVersion ∧
      a.argsDigest = b.argsDigest ∧ a.specDigest = b.specDigest ∧
      a.registryDigest = b.registryDigest ∧ a.agentIdentity = b.agentIdentity := by
  refine ⟨str_of_sameJson "root_id" h rfl rfl, str_of_sameJson "name" h rfl rfl,
    str_of_sameJson "tool_version" h rfl rfl, str_of_sameJson "args_digest" h rfl rfl,
    str_of_sameJson "spec_digest" h rfl rfl, str_of_sameJson "registry_digest" h rfl rfl, ?_⟩
  have hactor : a.document.get? "agent_identity" =
      some ((a.agentIdentity.map AgentIdentity.toDict).getD .none) := rfl
  obtain ⟨other, hother, hsame⟩ := h.get? hactor
  have hother : other = (b.agentIdentity.map AgentIdentity.toDict).getD .none :=
    (Option.some.inj hother).symm
  rw [hother] at hsame
  cases ha : a.agentIdentity with
  | none =>
      cases hb : b.agentIdentity with
      | none => rfl
      | some y =>
          rw [ha, hb] at hsame
          cases hsame
  | some x =>
      cases hb : b.agentIdentity with
      | none =>
          rw [ha, hb] at hsame
          cases hsame
      | some y =>
          rw [ha, hb] at hsame
          exact congrArg some (agentIdentity_of_sameJson hsame)

/-- A note that is read as a request has its identity. -/
theorem identity_of_fromNode {H : Hashing} {node : Node} {request : ApprovalRequest}
    (h : ApprovalRequest.fromNode H node = .ok request) :
    node.identity =
      ⟨request.attempt, .note, request.parentId, (requestPayload request).canonical⟩ := by
  obtain ⟨document, -, h⟩ := Fallible.bind_ok_iff.mp h
  obtain ⟨other, -, h⟩ := Fallible.bind_ok_iff.mp h
  obtain ⟨expected, hexpected, h⟩ := Fallible.bind_ok_iff.mp h
  dsimp only at h
  split at h
  · cases h
  · next hsame =>
      obtain rfl := Except.ok.inj h
      rw [not_or, not_not] at hsame
      rw [hsame.1, Node.eq_of_make hexpected]
      rfl

end Documents

/-! ## What a request leaves -/

section Requested

variable {H : Hashing} {rt : Runtime} {depth : ℕ} {env : CallEnv} {s t : Session}

theorem note_finds {payload : Value} {attempt : ℤ} {node : Node} (hmode : rt.mode ≠ .replay)
    (h : note H rt env payload attempt s = .ok node t) :
    t.store.find? node.id = some node ∧
      node.identity = ⟨attempt, .note, s.run.cursorId, payload.canonical⟩ := by
  unfold note at h
  rw [bind_of_ok (get_apply s)] at h
  obtain ⟨made, m, hnode, h⟩ := bind_eq_ok h
  obtain ⟨hmade, rfl⟩ := orRaise_eq_ok hnode
  rw [if_neg hmode] at h
  obtain ⟨reservation, m, -, h⟩ := bind_eq_ok h
  obtain ⟨stored, n, hput, h⟩ := bind_eq_ok h
  have hsame : made.identity = ⟨attempt, .note, s.run.cursorId, payload.canonical⟩ := by
    rw [Node.eq_of_make hmade]
    rfl
  unfold onStore focus at hput
  rw [putNode_apply H rt made m.store hmode] at hput
  cases hafter : m.store.put H made with
  | error e =>
      rw [hafter] at hput
      cases hput
  | ok after =>
      rw [hafter] at hput
      dsimp only at hput
      obtain ⟨found, hfind, hidentity⟩ := find?_of_put hafter
      rw [MemoryStore.get, hfind] at hput
      cases hput
      cases h
      rw [(MemoryStore.mem_of_find? hfind).2]
      exact ⟨hfind, hidentity.trans hsame⟩

/-- What `request_approval` records is the request that was made, under its id. -/
theorem recordRequest_ok {draft request : ApprovalRequest} (hmode : rt.mode ≠ .replay)
    (h : recordRequest H rt env draft s = .ok request t) :
    Value.SameJson request.document draft.document ∧ Grows H s.store t.store ∧
      ∃ node, t.store.find? request.id = some node ∧ node.parent.getD "" = s.run.cursorId ∧
        ApprovalRequest.fromNode H node = .ok request := by
  unfold recordRequest at h
  obtain ⟨candidate, m, hcandidate, h⟩ := bind_eq_ok h
  obtain ⟨-, rfl⟩ := orRaise_eq_ok hcandidate
  obtain ⟨read, m, hread, h⟩ := bind_eq_ok h
  obtain ⟨-, rfl⟩ := orRaise_eq_ok hread
  obtain ⟨node, m, hnote, h⟩ := bind_eq_ok h
  obtain ⟨hfrom, rfl⟩ := orRaise_eq_ok h
  obtain ⟨hfind, hidentity⟩ := note_finds hmode hnote
  have hrequest := identity_of_fromNode hfrom
  have hpayload : Value.SameJson (requestPayload request) (requestPayload draft) :=
    congrArg Identity.payload (hrequest.symm.trans hidentity)
  obtain ⟨other, hother, hsame⟩ := document_of_sameJson hpayload
  have hdocument : other = draft.document := (Option.some.inj hother).symm
  refine ⟨hdocument ▸ hsame, ((grows H).keeps_note rt env _ _).of_ok hnote, node, ?_,
    congrArg Identity.parent hidentity, hfrom⟩
  rw [id_of_fromNode hfrom]
  exact hfind

/-- A request that was recorded: for an action of the registry, at the cursor, below the root. -/
structure Requested (H : Hashing) (rt : Runtime) (depth : ℕ) (actor : Option AgentIdentity)
    (name : String) (args : Value) (request : ApprovalRequest) (s t : Session) : Prop where
  action : ∃ registry spec argsDigest, rt.registry = some registry ∧
    registry.specs.get? name = some spec ∧
    (spec.redactArgs H args).bind H.digestPayload = .ok argsDigest ∧
    Value.SameJson request.document (requestOf registry spec argsDigest actor s.run 0).document
  root : ∃ cursor, s.store.find? s.run.cursorId = some cursor ∧
    rootOf s.store depth cursor = s.run.rootId
  grown : Grows H s.store t.store
  note : ∃ node, t.store.find? request.id = some node ∧
    node.parent.getD "" = s.run.cursorId ∧ ApprovalRequest.fromNode H node = .ok request

theorem requestApproval_ok {actor : Option AgentIdentity} {name : String} {args : Value}
    {version : Option String} {attempt : ℤ} {request : ApprovalRequest}
    (hmode : rt.mode ≠ .replay) (hnamed : s.store.Named H)
    (h : requestApproval H rt depth env actor name args version attempt s = .ok request t) :
    Requested H rt depth actor name args request s t := by
  unfold requestApproval at h
  cases hregistry : rt.registry with
  | none =>
      rw [hregistry] at h
      cases h
  | some registry =>
      rw [hregistry] at h
      obtain ⟨spec, m, hspec, h⟩ := bind_eq_ok h
      obtain ⟨hget, rfl⟩ := orRaise_eq_ok hspec
      obtain ⟨finding, m, hfinding, h⟩ := bind_eq_ok h
      obtain ⟨-, rfl⟩ := orRaise_eq_ok hfinding
      cases finding with
      | some finding => cases h
      | none =>
          dsimp only at h
          rw [bind_of_ok (get_apply _)] at h
          obtain ⟨rootId, m, hread, h⟩ := bind_eq_ok h
          obtain ⟨hroot, rfl⟩ := orRaise_eq_ok hread
          split at h
          · cases h
          · next hsame =>
              obtain ⟨redacted, m, hredact, h⟩ := bind_eq_ok h
              obtain ⟨hredacted, rfl⟩ := orRaise_eq_ok hredact
              obtain ⟨argsDigest, m, hargs, h⟩ := bind_eq_ok h
              obtain ⟨hdigest, rfl⟩ := orRaise_eq_ok hargs
              obtain ⟨hdocument, hgrown, hnote⟩ := recordRequest_ok hmode h
              obtain ⟨cursor, hcursor, hleads⟩ := (alone_verifiedRoot_iff hnamed).mp hroot
              refine ⟨⟨registry, spec, argsDigest, hregistry, ?_, ?_, hdocument⟩,
                ⟨cursor, hcursor, hleads.trans (not_not.mp hsame)⟩, hgrown, hnote⟩
              · unfold registryGet at hget
                split at hget
                · cases hget
                · next found hfound =>
                    split at hget
                    · cases hget
                    · rw [hfound, Except.ok.inj hget]
              · exact Fallible.bind_ok_iff.mpr ⟨redacted, hredacted, hdigest⟩

/-- A node leads to the same root however the store grows. -/
theorem rootOf_grows {a b : MemoryStore} (h : Grows H a b) (depth : ℕ) {stored : Node}
    (hstored : stored ∈ a.nodes) (metadata : Dict String Value) :
    rootOf b depth { stored with metadata } = rootOf a depth stored := by
  induction depth generalizing stored metadata with
  | zero => rfl
  | succ depth ih =>
      rw [rootOf, rootOf]
      dsimp only
      cases hparent : stored.parent with
      | none => rfl
      | some parent =>
          obtain ⟨held, hheld⟩ := parent_held hstored hparent
          obtain ⟨other, hafter⟩ := h.kept hheld
          rw [Option.bind_some, Option.bind_some, hheld, hafter]
          exact ih (MemoryStore.mem_of_find? hheld).1 other

theorem Loads.grows {a b : MemoryStore} {request : ApprovalRequest}
    (h : Loads H depth request a) (hgrows : Grows H a b) : Loads H depth request b := by
  obtain ⟨stored, hstored, hrequest, hroot⟩ := h
  obtain ⟨metadata, hafter⟩ := hgrows.kept hstored
  refine ⟨_, hafter, hrequest, ?_⟩
  rw [rootOf_grows hgrows depth (MemoryStore.mem_of_find? hstored).1, hroot]

variable {actor : Option AgentIdentity} {name : String} {args : Value} {request : ApprovalRequest}

theorem ne_of_held (hdigest : ∀ identity, H.node identity ≠ "") {a : MemoryStore}
    (hnamed : a.Named H) {id : String} {node : Node} (h : a.find? id = some node) : id ≠ "" := by
  obtain ⟨hmem, hid⟩ := MemoryStore.mem_of_find? h
  rw [← hid, hnamed node hmem]
  exact hdigest _

/-- The note of a request lies below the cursor it was recorded at. -/
theorem Requested.below (hdigest : ∀ identity, H.node identity ≠ "") (hnamed : s.store.Named H)
    (h : Requested H rt depth actor name args request s t) :
    ∃ node, t.store.find? request.id = some node ∧ node.parent = some s.run.cursorId ∧
      ApprovalRequest.fromNode H node = .ok request := by
  obtain ⟨cursor, hcursor, -⟩ := h.root
  obtain ⟨node, hnode, hparent, hfrom⟩ := h.note
  refine ⟨node, hnode, ?_, hfrom⟩
  cases hcase : node.parent with
  | none =>
      rw [hcase] at hparent
      exact absurd hparent.symm (ne_of_held hdigest hnamed hcursor)
  | some parent =>
      rw [hcase] at hparent
      exact congrArg some hparent

/-- What was requested can be loaded. -/
theorem Requested.loads (hdigest : ∀ identity, H.node identity ≠ "") (hnamed : s.store.Named H)
    (h : Requested H rt depth actor name args request s t) :
    Loads H (depth + 1) request t.store := by
  obtain ⟨registry, spec, argsDigest, -, -, -, hdocument⟩ := h.action
  obtain ⟨cursor, hcursor, hleads⟩ := h.root
  obtain ⟨node, hnode, hparent, hfrom⟩ := h.below hdigest hnamed
  refine ⟨node, hnode, hfrom, ?_⟩
  obtain ⟨metadata, hafter⟩ := h.grown.kept hcursor
  rw [rootOf, hparent, Option.bind_some, hafter]
  dsimp only
  rw [rootOf_grows h.grown depth (MemoryStore.mem_of_find? hcursor).1, hleads]
  exact (fields_of_sameJson hdocument).1.symm

theorem event_ok {node : Node} {document : List (String × Value)}
    (h : event node "approval_request" = .ok document) :
    node.kind = .note ∧ holdsRequest node = true := by
  unfold event at h
  split at h
  · next entries hentries =>
      obtain ⟨wrapper, hwrapper, hentry⟩ := Option.bind_eq_some_iff.mp hentries
      split at h
      · cases h
      · next hkind =>
          refine ⟨not_not.mp hkind, ?_⟩
          unfold holdsRequest
          rw [hwrapper]
          cases wrapper with
          | dict fields => exact decide_eq_true (Assoc.mem_keys_of_lookup hentry)
          | _ => cases hentry
  · cases h

/-- From a request's own note, the request is the nearest. -/
theorem requestAbove_self {x : MemoryStore} {node : Node} {parent : String}
    (hfind : x.find? request.id = some node) (hparent : node.parent = some parent)
    (hfrom : ApprovalRequest.fromNode H node = .ok request) :
    requestAbove H x (x.ancestors request.id) = .ok (some request) := by
  obtain ⟨hmem, hid⟩ := MemoryStore.mem_of_find? hfind
  obtain ⟨document, hevent, -⟩ := Fallible.bind_ok_iff.mp hfrom
  obtain ⟨hkind, hholds⟩ := event_ok hevent
  have hnone : node.payload.get? "event" = none := by
    have hpayload : Value.SameJson node.payload (requestPayload request) :=
      congrArg Identity.payload (identity_of_fromNode hfrom)
    by_contra hsome
    obtain ⟨value, hvalue⟩ := Option.ne_none_iff_exists'.mp hsome
    obtain ⟨other, hother, -⟩ := hpayload.get? hvalue
    cases hother
  have hdispatch : isDispatch node = false := by
    rw [isDispatch, hkind, hnone]
    decide
  have hget : x.get request.id = .ok node := by
    rw [MemoryStore.get, hfind]
  rw [← hid, MemoryStore.ancestors_of_parent hmem hparent, hid, requestAbove]
  refine Fallible.bind_ok_iff.mpr ⟨node, hget, ?_⟩
  rw [if_neg (by rw [hdispatch]; decide), if_pos hholds]
  exact Fallible.bind_ok_iff.mpr ⟨request, hfrom, rfl⟩

/-- A decision that was returned to a reviewer who approved does approve, or digests collide. -/
theorem approved_of_ended {verdict : Verdict} {node : Node} {a : MemoryStore} (hnamed : a.Named H)
    (happroved : verdict.approved = true)
    (h : (Call.decide verdict).Ended H request (.ok (some node)) a) :
    Approved H request a ∨ ∃ x y : Identity, x ≠ y ∧ H.node x = H.node y := by
  obtain ⟨nodes, hnodes, hid⟩ := h.nodes
  have hmade := made_of_decisionNodes hnodes
  have hreadable := h.readable
  by_cases hsame : node.identity = nodes.decision.identity
  · left
    rw [hmade.decision] at hsame
    have hkind : node.kind = .note := congrArg Identity.kind hsame
    have hpayload : Value.SameJson node.payload
        (eventPayload "approval_decision" (verdict.document request)) :=
      congrArg Identity.payload hsame
    obtain ⟨document, hdocument, hentries⟩ := event_of_sameJson hkind hpayload rfl
    have hbool : (verdict.document request).get? "approved" = some (.bool verdict.approved) := rfl
    obtain ⟨value, hvalue, hvalueSame⟩ := hentries.symm.get? hbool
    rw [happroved] at hvalueSame
    rw [eq_of_sameJson_bool hvalueSame.symm] at hvalue
    exact ⟨node, document, hreadable, hdocument, hvalue⟩
  · right
    obtain ⟨_, _, metadata, -, -, -, -, hfind, -⟩ := hreadable
    have hown : node.id = node.expectedId H :=
      hnamed { node with metadata } (MemoryStore.mem_of_find? hfind).1
    have hown' : nodes.decision.id = nodes.decision.expectedId H := by
      rw [hmade.decision]
      rfl
    exact ⟨_, _, hsame, hown.symm.trans (hid.trans hown')⟩

theorem Approved.grows {a b : MemoryStore} (h : Approved H request a) (hgrows : Grows H a b) :
    Approved H request b := by
  obtain ⟨decision, document, hreadable, happroved⟩ := h
  exact ⟨decision, document, hreadable.grows hgrows, happroved⟩

/-- The policy sees a request for what was asked for. -/
theorem Requested.entitled (hdigest : ∀ identity, H.node identity ≠ "")
    (hnamed : s.store.Named H) (h : Requested H rt depth actor name args request s t)
    {x : MemoryStore} (hx : Grows H t.store x)
    (happroved : Approved H request x) (hunused : ¬ Spent request.id x) :
    ∃ registry spec, rt.registry = some registry ∧ registry.specs.get? name = some spec ∧
      Entitled H (depth + 1) ⟨spec, args, request.id, actor, some registry.registryDigest⟩ request
        x := by
  obtain ⟨registry, spec, argsDigest, hregistry, hspec, hargs, hdocument⟩ := h.action
  obtain ⟨-, hname, hversion, hargsDigest, hspecDigest, hregistryDigest, hactor⟩ :=
    fields_of_sameJson hdocument
  obtain ⟨node, hnode, hparent, hfrom⟩ := h.below hdigest hnamed
  obtain ⟨metadata, hafter⟩ := hx.kept hnode
  have hloads := (h.loads hdigest hnamed).grows hx
  obtain ⟨stored, hstored, hrequest, hroot⟩ := id hloads
  refine ⟨registry, spec, hregistry, hspec, requestAbove_self hafter hparent hfrom,
    ⟨stored, hstored, hroot.symm, hname, hversion, hspecDigest, ?_, hactor, ?_⟩, hloads, happroved,
    hunused⟩
  · exact congrArg some hregistryDigest
  · rw [hargs, hargsDigest]
    rfl

/-- What was requested and approved is allowed until it is used. -/
theorem approved_is_allowed (hdigest : ∀ identity, H.node identity ≠ "") (hmode : rt.mode ≠ .replay)
    (hnamed : s.store.Named H) {version : Option String} {attempt : ℤ}
    (hrequest : requestApproval H rt depth env actor name args version attempt s = .ok request t)
    {u : MemoryStore} (hu : Grows H t.store u) {calls : List Call} {turns : List (Turn Write)}
    {w : Clients StoreOp StoreOp.Answer PyError (Option Node) MemoryStore}
    (hw : w = (workers H (depth + 1) request u calls).run (perform H) (Write.apply H) turns)
    {i : ℕ} {verdict : Verdict} {node : Node} (hcall : calls[i]? = some (.decide verdict))
    (happroved : verdict.approved = true) (hdecided : w.outcome? i = some (.ok (some node)))
    {x : MemoryStore} (hx : Grows H w.state x) (hunused : ¬ Spent request.id x)
    (sideEffectsOnly : Bool) :
    ∃ registry spec, rt.registry = some registry ∧ registry.specs.get? name = some spec ∧
      (ApprovalPolicy.decide H (depth + 1) sideEffectsOnly
          ⟨spec, args, request.id, actor, some registry.registryDigest⟩ x = .ok .allow ∨
        ∃ a b : Identity, a ≠ b ∧ H.node a = H.node b) := by
  have hrequested := requestApproval_ok hmode hnamed hrequest
  have ht := hrequested.grown
  have hloads := (hrequested.loads hdigest hnamed).grows hu
  have hnamedAt := hu.named (ht.named hnamed)
  obtain ⟨hgrown, hended⟩ := workers_ended hdigest hnamedAt hloads turns hw
  obtain ⟨call, hcall', hend⟩ := hended hdecided
  rw [hcall] at hcall'
  cases hcall'
  have hlater : Grows H t.store x := (hu.trans _ _ _ hgrown).trans _ _ _ hx
  rcases approved_of_ended (hgrown.named hnamedAt) happroved hend with happroved | hcollides
  · obtain ⟨registry, spec, hregistry, hspec, hentitled⟩ := hrequested.entitled hdigest hnamed
      hlater (happroved.grows hx) hunused
    refine ⟨registry, spec, hregistry, hspec, .inl ?_⟩
    unfold ApprovalPolicy.decide
    split
    · rfl
    · exact (decideGoverned_iff (hlater.named (ht.named hnamed))).mpr ⟨request, hentitled⟩
  · obtain ⟨registry, spec, -, hregistry, hspec, -⟩ := hrequested.action
    exact ⟨registry, spec, hregistry, hspec, .inr hcollides⟩

end Requested

/-! ## One request -/

/-- A run of the payments, at its root. -/
def payments : Session :=
  ⟨(Write.put runRoot).apply .plain .empty,
    { rootId := runRoot.id, cursorId := runRoot.id, label := "payments", budgetScopes := [] }, []⟩

def requestSending : RunM ApprovalRequest :=
  requestApproval .plain sendReviewed.toRuntime 5 .step none "send" sendArgs none 0

/-- A reviewer approves it. -/
def sendingReviewed : Clients StoreOp StoreOp.Answer PyError (Option Node) MemoryStore :=
  (workers .plain 6 sending (after requestSending payments).store [.decide approval]).run
    (perform .plain) (Write.apply .plain) (List.replicate 60 (.client 0))

/-- The approved action is let through at the request. -/
theorem approved_is_allowed_sending :
    ∃ registry spec, sendReviewed.registry = some registry ∧
      registry.specs.get? "send" = some spec ∧
      (ApprovalPolicy.decide .plain 6 true
          ⟨spec, sendArgs, sending.id, none, some registry.registryDigest⟩ sendingReviewed.state =
            .ok .allow ∨
        ∃ a b : Identity, a ≠ b ∧ Hashing.plain.node a = Hashing.plain.node b) := by
  have hmode : sendReviewed.toRuntime.mode ≠ .replay := by decide
  have hnamed : payments.store.Named .plain := by
    apply (grows_write _ _).named
    rintro node ⟨⟩
  have hrequest : requestSending payments = .ok sending (after requestSending payments) := by
    have hreturns : outcome requestSending payments = .ok sending := by
      decide +kernel
    unfold outcome at hreturns
    unfold after
    split at hreturns
    · next hrun =>
        rw [hrun, Except.ok.inj hreturns]
    · cases hreturns
  have hends : (sendingReviewed.outcome? 0).any (fun outcome =>
      outcome.toOption.any Option.isSome) = true := by
    decide +kernel
  have hunused : isUnused .plain 6 sendingReviewed.state
      (sendingReviewed.state.nodes.length + 1) [sending.id] [] = .ok true := by
    decide +kernel
  have hheld : sendingReviewed.state.contains sending.id = true := by
    decide +kernel
  have hrequested := requestApproval_ok hmode hnamed hrequest
  have hgrown : Grows .plain (after requestSending payments).store sendingReviewed.state :=
    (workers_ended plain_node_ne (hrequested.grown.named hnamed)
      (hrequested.loads plain_node_ne hnamed) _ rfl).1
  have hcall : ([.decide approval] : List Call)[0]? = some (.decide approval) := rfl
  have hreviewed : (isUnused .plain 6 sendingReviewed.state
      (sendingReviewed.state.nodes.length + 1) [sending.id] [] = .ok true ↔
        ¬ Spent sending.id sendingReviewed.state) :=
    isUnused_iff (hgrown.named (hrequested.grown.named hnamed)) hheld
  obtain ⟨result, hresult, hsome⟩ := (Option.any_eq_true _ _).mp hends
  cases result with
  | error e => cases hsome
  | ok found =>
      obtain ⟨node, rfl⟩ := Option.isSome_iff_exists.mp hsome
      exact approved_is_allowed plain_node_ne hmode hnamed hrequest (.refl _) rfl hcall rfl hresult
        (.refl _) (hreviewed.mp hunused) true

end Pollard.ApprovalDecisions
