import Pollard.Runtime.ApprovalDecisions
import Pollard.Runtime.Tools

/-!
# The approval policy

`ApprovalPolicy` lets a governed action through below the request for it, once the request is
approved, until a call is recorded below the request.
-/

namespace Pollard.ApprovalDecisions

open Lib NamedScopes SharedNotes Teams

/-! ## The policy -/

/-- `_is_dispatch` -/
def isDispatch (node : Node) : Bool :=
  node.kind = .modelCall ∨ node.kind = .toolCall ∨ node.kind = .note ∧
    (node.payload.get? "event" = some (.str "call_outcome_unknown") ∨
      node.payload.get? "event" = some (.str "call_recording_failed"))

/-- `isinstance(reserved, dict) and "approval_request" in reserved` -/
def holdsRequest (node : Node) : Bool :=
  match node.payload.get? "_pollard" with
  | some (.dict entries) => "approval_request" ∈ Assoc.keys entries
  | _ => false

/-- `PolicyContext`, as this policy reads it -/
structure PolicyContext where
  spec : ActionSpec
  args : Value
  cursorId : String
  agentIdentity : Option AgentIdentity
  registryDigest : Option String

section Policy

variable (H : Hashing) (depth : ℕ)

/-- What a program reads of a store that nobody else writes. -/
def alone {α : Type} (p : StoreProgram α) (s : MemoryStore) : Except PyError α :=
  (p.run (perform H) s).1

/-- The first loop of `decide`, from a cursor up: the request, unless a call is in between. -/
def requestAbove (s : MemoryStore) : List String → Except PyError (Option ApprovalRequest)
  | [] => .ok none
  | id :: ids => do
      let current ← s.get id
      if isDispatch current then return none
      else if holdsRequest current then
        let request ← ApprovalRequest.fromNode H current
        return some request
      else requestAbove s ids

/-- The comparison of `decide`. -/
def isAnother (request : ApprovalRequest) (ctx : PolicyContext) (rootId : String) :
    Except PyError Bool :=
  if request.rootId ≠ rootId ∨ request.name ≠ ctx.spec.name ∨
      request.toolVersion ≠ ctx.spec.version ∨ request.specDigest ≠ ctx.spec.specDigest ∨
      some request.registryDigest ≠ ctx.registryDigest ∨
      request.agentIdentity ≠ ctx.agentIdentity
  then .ok true
  else do
    let redacted ← ctx.spec.redactArgs H ctx.args
    let digest ← H.digestPayload redacted
    return request.argsDigest ≠ digest

/-- The last loop of `decide`; what is pending is listed from its end. -/
def isUnused (s : MemoryStore) : ℕ → List String → List String → Except PyError Bool
  | _, [], _ => .ok true
  | 0, _ :: _, _ => .error (.integrityError "cycle in approval request subtree")
  | fuel + 1, id :: pending, seen =>
      if id ∈ seen then .error (.integrityError "cycle in approval request subtree")
      else do
        let _ ← alone H (verifyOrRaise H depth id) s
        let node ← s.get id
        if isDispatch node then return false
        else isUnused s fuel ((s.children id).reverse ++ pending) (id :: seen)

/-- `document["approved"] is False` -/
def isDenial (decision : Node) : Except PyError Bool := do
  let document ← event decision "approval_decision"
  return Assoc.lookup document "approved" = some (.bool false)

/-- `ApprovalPolicy.decide`, past `side_effects_only` -/
def ApprovalPolicy.decideGoverned (ctx : PolicyContext) (s : MemoryStore) :
    Except PyError Decision := do
  let rootId ← alone H (verifiedRoot H depth ctx.cursorId) s
  match ← requestAbove H s (s.ancestors ctx.cursorId) with
  | none => return .deny
  | some request => do
      if ← isAnother H request ctx rootId then return .deny
      else
        let _ ← alone H (loadRequest H depth request) s
        match ← alone H (readDecision H depth request) s with
        | none => return .deny
        | some decision => do
            if ← isDenial decision then return .deny
            else if ← isUnused H depth s (s.nodes.length + 1) [request.id] [] then return .allow
            else return .deny

/-- `ApprovalPolicy.decide` -/
def ApprovalPolicy.decide (sideEffectsOnly : Bool) (ctx : PolicyContext) (s : MemoryStore) :
    Except PyError Decision :=
  if sideEffectsOnly = true ∧ ctx.spec.sideEffects = false then .ok .allow
  else decideGoverned H depth ctx s

end Policy

/-! ## Reading alone -/

section Reading

variable {H : Hashing} {depth : ℕ}

/-- The operations that do not write. -/
def IsRead : StoreOp → Prop
  | .put _ => False
  | _ => True

theorem asks_orRaise {α : Type} (answer : Except PyError α) :
    (StoreProgram.orRaise answer).Asks IsRead := by
  cases answer <;> trivial

theorem asks_verify (seen : List String) (current : String) :
    (verify H depth seen current).Asks IsRead := by
  induction depth generalizing seen current with
  | zero => trivial
  | succ depth ih =>
      rw [verify]
      split
      · trivial
      · refine ⟨trivial, fun answer => ?_⟩
        dsimp only
        split
        · trivial
        · trivial
        · split
          · trivial
          · exact (ih _ _).bind fun _ => trivial

theorem asks_verifyOrRaise (id : String) : (verifyOrRaise H depth id).Asks IsRead :=
  (asks_verify [] id).bind fun findings => by split <;> trivial

theorem asks_rootFrom (node : Node) : (rootFrom depth node).Asks IsRead := by
  induction depth generalizing node with
  | zero => trivial
  | succ depth ih =>
      rw [rootFrom]
      split
      · trivial
      · exact ⟨trivial, fun answer => (asks_orRaise answer).bind ih⟩

theorem asks_verifiedRoot (id : String) : (verifiedRoot H depth id).Asks IsRead :=
  (asks_verifyOrRaise id).bind fun _ =>
    ⟨trivial, fun answer => (asks_orRaise answer).bind asks_rootFrom⟩

theorem asks_readDecision (request : ApprovalRequest) :
    (readDecision H depth request).Asks IsRead := by
  refine (asks_orRaise _).bind fun expected => ⟨trivial, fun found => ?_⟩
  dsimp only
  split
  · trivial
  refine (asks_verifyOrRaise _).bind fun _ => ⟨trivial, fun answer => ?_⟩
  refine (asks_orRaise answer).bind fun slot => ?_
  split
  · trivial
  refine (asks_orRaise _).bind fun decisionId => ⟨trivial, fun found => ?_⟩
  dsimp only
  split
  · trivial
  refine (asks_verifyOrRaise _).bind fun _ => ⟨trivial, fun answer => ?_⟩
  exact (asks_orRaise answer).bind fun decision => (asks_orRaise _).bind fun _ => trivial

theorem asks_loadRequest (request : ApprovalRequest) :
    (loadRequest H depth request).Asks IsRead := by
  refine (asks_verifiedRoot _).bind fun root => ?_
  split
  · trivial
  refine ⟨trivial, fun answer => (asks_orRaise answer).bind fun node => ?_⟩
  exact (asks_orRaise _).bind fun recorded => by split <;> trivial

theorem run_alone {α : Type} {p : StoreProgram α} (h : p.Asks IsRead) (s : MemoryStore) :
    p.run (perform H) s = (alone H p s, s) := by
  refine Prod.ext rfl (h.run_state (fun o ho t => ?_) s)
  cases o with
  | contains id => rfl
  | get id => rfl
  | put node => exact ho.elim

/-- A program that goes on has got an answer. -/
theorem answer_of_alone {α β : Type} {answer : Except PyError α} {f : α → StoreProgram β} {b : β}
    {s : MemoryStore} (h : alone H ((StoreProgram.orRaise answer).bind f) s = .ok b) :
    ∃ a, answer = .ok a ∧ alone H (f a) s = .ok b := by
  cases answer with
  | error e => cases h
  | ok a => exact ⟨a, rfl, h⟩

theorem alone_bind_ok {α β : Type} {p : StoreProgram α} {f : α → StoreProgram β} {b : β}
    {s : MemoryStore} (h : p.Asks IsRead) (hrun : alone H (p.bind f) s = .ok b) :
    ∃ a, alone H p s = .ok a ∧ alone H (f a) s = .ok b := by
  have hp : p.run (perform H) s = (alone H p s, s) := run_alone h s
  cases hanswer : alone H p s with
  | error e =>
      rw [hanswer] at hp
      rw [alone, Program.run_bind_error hp] at hrun
      cases hrun
  | ok a =>
      rw [hanswer] at hp
      rw [alone, Program.run_bind_ok hp] at hrun
      exact ⟨a, rfl, hrun⟩

/-- What a program ensures of a store, it finds there. -/
theorem alone_of_ensures {α : Type} {p : StoreProgram α} {s : MemoryStore}
    {Q : Except PyError α → MemoryStore → Prop} (hreads : p.Asks IsRead) (h : Ensures H p Q s) :
    Q (alone H p s) s := by
  have hrun := h.run Grows.refl
  rwa [run_alone hreads] at hrun

end Reading

/-! ## Requests that are used -/

/-- A call is recorded below a node. -/
def Spent (id : String) (s : MemoryStore) : Prop :=
  ∃ node, s.find? node.id = some node ∧ isDispatch node = true ∧ id ∈ s.ancestors node.id

section Spent

variable {H : Hashing} {depth : ℕ} {s t : MemoryStore}

/-- What was used stays used. -/
theorem Spent.grows {id : String} (h : Spent id s) (hgrows : Grows H s t) : Spent id t := by
  obtain ⟨node, hfind, hdispatch, hbelow⟩ := h
  obtain ⟨metadata, hafter⟩ := hgrows.kept hfind
  refine ⟨{ node with metadata }, hafter, hdispatch, ?_⟩
  rw [hgrows.ancestors (MemoryStore.contains_of_find? hfind)]
  exact hbelow

theorem alone_verifyOrRaise (hnamed : s.Named H) {id : String} (hid : s.contains id = true) :
    alone H (verifyOrRaise H depth id) s = .ok () :=
  (alone_of_ensures (asks_verifyOrRaise id) (ensures_verifyOrRaise (P := fun _ => True)
    (fun _ _ _ h => h) hnamed hid trivial)).1

/-- The loop looks at every node it walks over. -/
theorem isUnused_eq (hnamed : s.Named H) {fuel : ℕ} {pending seen : List String}
    (hends : (Forest.walk (fun id => (s.children id).reverse) fuel pending).length < fuel)
    (hheld : ∀ id ∈ Forest.walk (fun id => (s.children id).reverse) fuel pending,
      s.contains id = true)
    (hnodup : (Forest.walk (fun id => (s.children id).reverse) fuel pending ++ seen).Nodup) :
    isUnused H depth s fuel pending seen =
      .ok ((Forest.walk (fun id => (s.children id).reverse) fuel pending).all fun id =>
        ! (s.find? id).any isDispatch) := by
  induction fuel generalizing pending seen with
  | zero => exact absurd hends (Nat.not_lt_zero _)
  | succ fuel ih =>
      cases pending with
      | nil => rfl
      | cons id pending =>
          rw [Forest.walk] at hends hheld hnodup ⊢
          rw [List.length_cons, Nat.add_lt_add_iff_right] at hends
          obtain ⟨hid, hrest⟩ := List.forall_mem_cons.mp hheld
          rw [List.cons_append, List.nodup_cons, List.mem_append, not_or] at hnodup
          obtain ⟨node, hget, hfind⟩ := MemoryStore.get_of_contains hid
          have hstep : isUnused H depth s (fuel + 1) (id :: pending) seen =
              if isDispatch node = true then .ok false
              else isUnused H depth s fuel ((s.children id).reverse ++ pending) (id :: seen) := by
            rw [isUnused, if_neg hnodup.1.2, alone_verifyOrRaise hnamed hid, hget]
            rfl
          rw [hstep, List.all_cons, hfind, Option.any_some]
          cases hdispatch : isDispatch node with
          | true => rfl
          | false =>
              apply ih hends hrest
              rw [List.perm_middle.nodup_iff, List.nodup_cons, List.mem_append, not_or]
              exact hnodup

/-- A request is let through as long as no call is recorded below it. -/
theorem isUnused_iff (hnamed : s.Named H) {id : String} (hid : s.contains id = true) :
    isUnused H depth s (s.nodes.length + 1) [id] [] = .ok true ↔ ¬ Spent id s := by
  have hlength : s.edges.length ≤ s.nodes.length := (List.length_map _).le
  have hwalk : (Forest.walk (fun id => (s.children id).reverse) (s.nodes.length + 1) [id]).Perm
      (Forest.below s.edges id) :=
    Forest.walk_below s.grounded (fun id => (List.reverse_perm _).trans (s.children_perm id))
      (MemoryStore.mem_keys_iff.mpr hid) (Nat.le_succ_of_le hlength)
  have hbelow : ∀ other, other ∈ Forest.walk (fun id => (s.children id).reverse)
      (s.nodes.length + 1) [id] ↔ s.contains other = true ∧ id ∈ s.ancestors other := by
    intro other
    rw [hwalk.mem_iff, Forest.below, List.mem_filter, decide_eq_true_iff, MemoryStore.mem_keys_iff]
    rfl
  have hends : (Forest.walk (fun id => (s.children id).reverse) (s.nodes.length + 1) [id]).length <
      s.nodes.length + 1 := by
    rw [hwalk.length_eq, Forest.below, Nat.lt_succ_iff]
    refine (List.length_filter_le _ _).trans ?_
    rwa [Forest.keys, List.length_map]
  rw [isUnused_eq hnamed hends (fun other ho => ((hbelow other).mp ho).1)]
  · rw [Except.ok.injEq, List.all_eq_true]
    constructor
    · rintro hall ⟨node, hfind, hdispatch, hanc⟩
      have hnode := hall node.id ((hbelow _).mpr ⟨MemoryStore.contains_of_find? hfind, hanc⟩)
      rw [hfind, Option.any_some, hdispatch] at hnode
      cases hnode
    · intro hspent other ho
      obtain ⟨hheld, hanc⟩ := (hbelow other).mp ho
      obtain ⟨node, -, hfind⟩ := MemoryStore.get_of_contains hheld
      have hsame := (MemoryStore.mem_of_find? hfind).2
      rw [hfind, Option.any_some, Bool.not_eq_true']
      by_contra hdispatch
      rw [Bool.not_eq_false] at hdispatch
      exact hspent ⟨node, hsame ▸ hfind, hdispatch, hsame ▸ hanc⟩
  · rw [List.append_nil, hwalk.nodup_iff, Forest.below]
    exact s.grounded.nodup.filter _

end Spent

/-! ## What is allowed -/

/-- The request is for this action, of this actor, below this root. -/
structure Matches (H : Hashing) (request : ApprovalRequest) (ctx : PolicyContext)
    (rootId : String) : Prop where
  root : request.rootId = rootId
  name : request.name = ctx.spec.name
  version : request.toolVersion = ctx.spec.version
  spec : request.specDigest = ctx.spec.specDigest
  registry : some request.registryDigest = ctx.registryDigest
  actor : request.agentIdentity = ctx.agentIdentity
  args : (ctx.spec.redactArgs H ctx.args).bind H.digestPayload = .ok request.argsDigest

/-- The decision on the request can be read, and it approves. -/
def Approved (H : Hashing) (request : ApprovalRequest) (s : MemoryStore) : Prop :=
  ∃ decision document, Readable H request decision s ∧
    event decision "approval_decision" = .ok document ∧
      Assoc.lookup document "approved" = some (.bool true)

/-- The cursor lies below a request for this very action, approved and unused. -/
structure Entitled (H : Hashing) (depth : ℕ) (ctx : PolicyContext) (request : ApprovalRequest)
    (s : MemoryStore) : Prop where
  above : requestAbove H s (s.ancestors ctx.cursorId) = .ok (some request)
  same : ∃ cursor, s.find? ctx.cursorId = some cursor ∧
    Matches H request ctx (rootOf s depth cursor)
  recorded : Loads H depth request s
  approved : Approved H request s
  unused : ¬ Spent request.id s

section Allowed

variable {H : Hashing} {depth : ℕ} {ctx : PolicyContext} {request : ApprovalRequest}
  {s : MemoryStore}

theorem isAnother_iff {rootId : String} :
    isAnother H request ctx rootId = .ok false ↔ Matches H request ctx rootId := by
  unfold isAnother
  split
  · next hdiffers =>
      constructor
      · rintro ⟨⟩
      · rintro ⟨hroot, hname, hversion, hspec, hregistry, hactor, -⟩
        tauto
  · next hsame =>
      push Not at hsame
      obtain ⟨hroot, hname, hversion, hspec, hregistry, hactor⟩ := hsame
      constructor
      · intro h
        obtain ⟨redacted, hredacted, h⟩ := Fallible.bind_ok_iff.mp h
        obtain ⟨digest, hdigest, h⟩ := Fallible.bind_ok_iff.mp h
        have hargs := of_decide_eq_false (Except.ok.inj h)
        refine ⟨hroot, hname, hversion, hspec, hregistry, hactor, ?_⟩
        rw [not_not.mp hargs]
        exact Fallible.bind_ok_iff.mpr ⟨redacted, hredacted, hdigest⟩
      · intro h
        obtain ⟨redacted, hredacted, hdigest⟩ := Fallible.bind_ok_iff.mp h.args
        refine Fallible.bind_ok_iff.mpr ⟨redacted, hredacted, ?_⟩
        refine Fallible.bind_ok_iff.mpr ⟨_, hdigest, ?_⟩
        exact congrArg Except.ok (decide_eq_false (not_not.mpr rfl))

/-- The root that is found is the one that the node leads to. -/
theorem alone_verifiedRoot_iff (hnamed : s.Named H) {id rootId : String} :
    alone H (verifiedRoot H depth id) s = .ok rootId ↔
      ∃ stored, s.find? id = some stored ∧ rootOf s depth stored = rootId := by
  have hfinds : ∀ {stored}, s.find? id = some stored →
      alone H (verifiedRoot H depth id) s = .ok (rootOf s depth stored) := fun hstored =>
    (alone_of_ensures (asks_verifiedRoot id) (ensures_verifiedRoot hnamed hstored)).1
  constructor
  · intro h
    obtain ⟨-, -, hget⟩ := alone_bind_ok (asks_verifyOrRaise id) h
    obtain ⟨stored, hget, -⟩ := answer_of_alone hget
    have hstored := MemoryStore.find?_of_get hget
    refine ⟨stored, hstored, ?_⟩
    rw [hfinds hstored] at h
    exact Except.ok.inj h
  · rintro ⟨stored, hstored, rfl⟩
    exact hfinds hstored

theorem loads_of_alone (hnamed : s.Named H) {node : Node}
    (h : alone H (loadRequest H depth request) s = .ok node) : Loads H depth request s := by
  obtain ⟨root, hroot, h⟩ := alone_bind_ok (asks_verifiedRoot _) h
  obtain ⟨stored, hstored, hleads⟩ := (alone_verifiedRoot_iff hnamed).mp hroot
  split at h
  · cases h
  · next hsame =>
      obtain ⟨found, hget, h⟩ := answer_of_alone h
      obtain ⟨recorded, hrecorded, h⟩ := answer_of_alone h
      split at h
      · cases h
      · next hequal =>
          have hfound := MemoryStore.find?_of_get hget
          rw [hstored] at hfound
          cases hfound
          rw [not_not.mp hequal] at hrecorded
          exact ⟨stored, hstored, hrecorded, hleads.trans (not_not.mp hsame)⟩

/-- What is read as a decision approves or denies. -/
theorem approved_or_denied {slotId : String} {decision : Node}
    (h : checkDecision request slotId decision = .ok ()) :
    ∃ document b, event decision "approval_decision" = .ok document ∧
      Assoc.lookup document "approved" = some (.bool b) := by
  obtain ⟨document, hdocument, h⟩ := Fallible.bind_ok_iff.mp h
  split at h
  · cases h
  · next hchecked =>
      simp only [not_or, not_not] at hchecked
      obtain ⟨-, -, -, -, hbool⟩ := hchecked
      obtain ⟨value, hvalue, hbool⟩ := (Option.any_eq_true _ _).mp hbool
      rcases of_decide_eq_true hbool with rfl | rfl
      · exact ⟨document, true, hdocument, hvalue⟩
      · exact ⟨document, false, hdocument, hvalue⟩

theorem approved_of_read {decision : Node} (hread : Readable H request decision s)
    (h : isDenial decision = .ok false) : Approved H request s := by
  obtain ⟨_, _, _, -, -, -, -, -, hchecked⟩ := id hread
  obtain ⟨document, b, hdocument, hvalue⟩ := approved_or_denied hchecked
  rw [isDenial, hdocument] at h
  have hnot := of_decide_eq_false (Except.ok.inj h)
  rw [hvalue] at hnot
  cases b with
  | true => exact ⟨decision, document, hread, hdocument, hvalue⟩
  | false => exact absurd rfl hnot

/-- The policy allows what a request entitles to, and nothing else. -/
theorem decideGoverned_iff (hnamed : s.Named H) :
    ApprovalPolicy.decideGoverned H depth ctx s = .ok .allow ↔
      ∃ request, Entitled H depth ctx request s := by
  unfold ApprovalPolicy.decideGoverned
  constructor
  · intro h
    obtain ⟨rootId, hroot, h⟩ := Fallible.bind_ok_iff.mp h
    obtain ⟨above, habove, h⟩ := Fallible.bind_ok_iff.mp h
    cases above with
    | none => cases h
    | some request =>
        obtain ⟨another, hanother, h⟩ := Fallible.bind_ok_iff.mp h
        cases another with
        | true => cases h
        | false =>
            obtain ⟨node, hloaded, h⟩ := Fallible.bind_ok_iff.mp h
            obtain ⟨found, hread, h⟩ := Fallible.bind_ok_iff.mp h
            cases found with
            | none => cases h
            | some decision =>
                obtain ⟨denied, hdenied, h⟩ := Fallible.bind_ok_iff.mp h
                cases denied with
                | true => cases h
                | false =>
                    obtain ⟨unused, hunused, h⟩ := Fallible.bind_ok_iff.mp h
                    cases unused with
                    | false => cases h
                    | true =>
                        obtain ⟨cursor, hcursor, hleads⟩ := (alone_verifiedRoot_iff hnamed).mp hroot
                        have hrecorded := loads_of_alone hnamed hloaded
                        obtain ⟨_, hstored, -⟩ := id hrecorded
                        have hreadable := alone_of_ensures (asks_readDecision request)
                          (ensures_readDecision s) decision hread
                        exact ⟨request, habove,
                          ⟨cursor, hcursor, hleads.symm ▸ isAnother_iff.mp hanother⟩, hrecorded,
                          approved_of_read hreadable hdenied,
                          (isUnused_iff hnamed (MemoryStore.contains_of_find? hstored)).mp hunused⟩
  · rintro ⟨request, habove, ⟨cursor, hcursor, hmatches⟩, hrecorded, happroved, hspent⟩
    obtain ⟨decision, document, hreadable, hdocument, hvalue⟩ := happroved
    obtain ⟨_, hstored, -⟩ := id hrecorded
    obtain ⟨node, hloaded⟩ := alone_of_ensures (asks_loadRequest request)
      (ensures_loadRequest hnamed hrecorded)
    obtain ⟨metadata, hread⟩ := alone_of_ensures (asks_readDecision request)
      (show Ensures H (readDecision H depth request) _ s from
        ensures_readDecision_readable hnamed hreadable)
    have hdenied : isDenial { decision with metadata } = .ok false := by
      have hsame : event { decision with metadata } "approval_decision" = .ok document := hdocument
      rw [isDenial, hsame]
      refine congrArg Except.ok (decide_eq_false ?_)
      rw [hvalue]
      decide
    refine Fallible.bind_ok_iff.mpr ⟨_, (alone_verifiedRoot_iff hnamed).mpr ⟨cursor, hcursor, rfl⟩,
      Fallible.bind_ok_iff.mpr ⟨some request, habove, ?_⟩⟩
    refine Fallible.bind_ok_iff.mpr ⟨false, isAnother_iff.mpr hmatches, ?_⟩
    refine Fallible.bind_ok_iff.mpr ⟨node, hloaded, Fallible.bind_ok_iff.mpr ⟨_, hread, ?_⟩⟩
    refine Fallible.bind_ok_iff.mpr ⟨false, hdenied, Fallible.bind_ok_iff.mpr ⟨true, ?_, rfl⟩⟩
    exact (isUnused_iff hnamed (MemoryStore.contains_of_find? hstored)).mpr hspent

end Allowed

end Pollard.ApprovalDecisions
