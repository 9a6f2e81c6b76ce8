import Pollard.Runtime.Runs

/-!
# What a refused call leaves

A registered call whose tool, version or arguments are not those of an action, or that a
policy denies, leaves a refusal below the old cursor, provided that its name, version and
arguments can be digested.
-/

namespace Pollard

open Lib Effect

/-! ## Names -/

/-- A Python string: with a UTF-8 form, or with a lone surrogate. -/
inductive PyString where
  | str (s : String)
  | surrogates (codePoints : List ℕ)
deriving DecidableEq

namespace PyString

def codePoints : PyString → List ℕ
  | str s => s.toList.map Char.toNat
  | surrogates codePoints => codePoints

/-- `+` -/
def append : PyString → PyString → PyString
  | str s, str t => str (s ++ t)
  | a, b => surrogates (a.codePoints ++ b.codePoints)

def value : PyString → Value
  | str s => .str s
  | surrogates codePoints => .surrogates codePoints

end PyString

section Runtime

variable (H : Hashing) (rt : Runtime) (env : CallEnv)

/-- `_refuse_policy` for any detail. -/
def refuseText (detail : PyString) (blockedPayload : Value) : RunM Node :=
  match detail with
  | .str detail => refusePolicy H rt env detail blockedPayload
  | .surrogates _ => do
      let _ ← orRaise (H.digestPayload blockedPayload)
      -- the payload of the refusal has no canonical bytes
      throw .unicodeEncodeError

/-- `f"unknown registered action: {name}@{version}"`, or without a version. -/
def unknownAction (name : PyString) (version : Option PyString) : PyString :=
  let requested := match version with
    | none => name
    | some version => (name.append (.str "@")).append version
  (PyString.str "unknown registered action: ").append requested

/-- `_registered_tool_call` for any name and version. -/
def registeredCall (flavor : Flavor) (registry : Registry) (name : PyString) (args : Value)
    (version : Option PyString) (attempt : ℤ) : RunM Node :=
  match name, version with
  | .str name, none => registeredToolCall H rt flavor env registry name args none attempt
  | .str name, some (.str version) =>
      registeredToolCall H rt flavor env registry name args (some version) attempt
  | .str name, some (.surrogates version) =>
      -- no version of an action has a lone surrogate
      match registry.specs.get? name with
      | none => refuseText H rt env (unknownAction (.str name) (some (.surrogates version)))
          (.dict [("tool", .str name), ("args", args)])
      | some spec => do
          let auditArgs ← orRaise (spec.redactArgs H args)
          refuseText H rt env (unknownAction (.str name) (some (.surrogates version)))
            (.dict [("tool", .str name), ("args", auditArgs)])
  | .surrogates name, version =>
      -- nor has the name of an action
      refuseText H rt env (unknownAction (.surrogates name) version)
        (.dict [("tool", .surrogates name), ("args", args)])

/-! ## Which calls are to be refused -/

/-- `registry.get` -/
def Registry.find? (registry : Registry) : PyString → Option ActionSpec
  | .str name => registry.specs.get? name
  | .surrogates _ => none

/-- The durable policies of a list, counted from an index, all allow. -/
def durablyAllowed : ℕ → List Policy → Bool
  | _, [] => true
  | index, policy :: policies =>
      (!policy.durableApproval || env.decide index = .ok .allow) &&
        durablyAllowed (index + 1) policies

/-- The first durable policy that does not allow answers something else. -/
def durablyDenied : ℕ → List Policy → Bool
  | _, [] => false
  | index, policy :: policies =>
      if policy.durableApproval then
        match env.decide index with
        | .ok .allow => durablyDenied (index + 1) policies
        | .ok _ => true
        | .error _ => false
      else durablyDenied (index + 1) policies

/-- The first of the other policies that does not let the call go on denies it. -/
def outrightDenied : ℕ → List Policy → Bool
  | _, [] => false
  | index, policy :: policies =>
      if policy.durableApproval then outrightDenied (index + 1) policies
      else
        match env.decide index with
        | .ok .deny => true
        | .ok .confirm => false
        | .ok _ => outrightDenied (index + 1) policies
        | .error _ => false

/-- A policy denies. -/
def denied (policies : List Policy) : Bool :=
  durablyDenied env 0 policies || durablyAllowed env 0 policies && outrightDenied env 0 policies

/-- Why a call is to be refused: its tool is unknown, its version is wrong, its arguments
fail the schema, or a policy that is asked denies it. -/
inductive Rejected (registry : Registry) (s : Session) (name : PyString) (args : Value)
    (version : Option PyString) (attempt : ℤ) : Prop
  | unknown (hspec : registry.find? name = none)
  | version (spec : ActionSpec) (hspec : registry.find? name = some spec)
      (hversion : ∃ requested ∈ version, requested ≠ .str spec.version)
  | args (spec : ActionSpec) (hspec : registry.find? name = some spec)
      (hversion : ∀ requested ∈ version, requested = .str spec.version)
      (hargs : spec.validateArgs args ≠ .ok none)
  | denied (spec : ActionSpec) (hspec : registry.find? name = some spec)
      (hversion : ∀ requested ∈ version, requested = .str spec.version)
      (hargs : spec.validateArgs args = .ok none)
      (hnew : rt.refuseDuplicateRecordings = true → ∀ auditArgs,
        spec.redactArgs H args = .ok auditArgs →
          recordedNode H rt env .toolCall (registeredPayload registry spec auditArgs) attempt s =
            .ok none s)
      (hreport : ∃ spent, recomputeCharges s.store s.run.rootId = .ok spent)
      (hdenied : denied env rt.policies = true)

/-- Name, version and arguments can be digested, and the arguments of an action redact to an
object. -/
structure Encodable (registry : Registry) (name : PyString) (args : Value)
    (version : Option PyString) : Prop where
  nameEncodes : name.value.isIdentity = true
  versionEncodes : ∀ requested ∈ version, requested.value.isIdentity = true
  argsEncode : args.isIdentity = true
  redacts : ∀ spec ∈ registry.find? name, ∃ auditArgs, spec.redactArgs H args = .ok auditArgs

/-! ## Refusals -/

/-- The store got one refusal below the old cursor, unless it was there, the cursor moved to
it, and nothing else happened. -/
structure RefusedBy (node : Node) (s t : Session) : Prop where
  named : node.id = node.expectedId H
  kind : node.kind = .refusal
  parent : node.parent = some s.run.cursorId
  store : s.store.Added node t.store ∨
    t.store = s.store ∧ ∃ existing ∈ s.store.find? node.id, existing.identity = node.identity
  run : t.run = { s.run with cursorId := node.id }
  trace : t.trace = s.trace

/-- The call raised `PolicyViolation` and was recorded as refused. -/
def Refused {α : Type} (s : Session) (result : EStateM.Result PyError Session α) : Prop :=
  ∃ detail node t, result = .error (.policyViolation detail node.id) t ∧ RefusedBy H node s t

variable {H} {rt} {env}

/-- What follows a refusal is not run. -/
theorem Refused.bind {α β : Type} {s : Session} {x : RunM α} (f : α → RunM β)
    (h : Refused H s (x s)) : Refused H s ((x >>= f) s) := by
  obtain ⟨detail, node, t, hresult, hnode⟩ := h
  exact ⟨detail, node, t, bind_of_error hresult f, hnode⟩

/-- A call that changed nothing is not recorded as refused. -/
theorem not_refused_of_unchanged {α : Type} {s : Session} (hfree : s.store.CollisionFree H)
    {error : PyError} :
    ¬ Refused H s (.error error s : EStateM.Result PyError Session α) := by
  rintro ⟨detail, node, t, hresult, hnode⟩
  cases hresult
  have hcursor : node.id = s.run.cursorId := (congrArg Run.cursorId hnode.run).symm
  have hparent : node.parent = some node.id := by rw [hcursor, hnode.parent]
  rcases hnode.store with ⟨hfind, hstored, -⟩ | ⟨-, existing, hexisting, hsame⟩
  · have hcontains := hstored node.id hparent
    rw [MemoryStore.contains, hfind] at hcontains
    cases hcontains
  · obtain ⟨hmem, hid⟩ := MemoryStore.mem_of_find? hexisting
    have hsameParent : existing.parent.getD "" = existing.id := by
      have := congrArg Identity.parent hsame
      rw [Node.identity, Node.identity, hparent] at this
      rw [hid]
      exact this
    cases hexistingParent : existing.parent with
    | none =>
        rw [hexistingParent, hid] at hsameParent
        exact hfree.nonempty _ (hnode.named.symm.trans hsameParent.symm)
    | some parent =>
        rw [hexistingParent] at hsameParent
        refine MemoryStore.parent_ne hmem ?_
        rw [hexistingParent]
        exact congrArg some hsameParent

theorem isIdentity_policyPayload (detail digest : String) :
    (Value.dict <|
      [("reason", .str "policy"), ("detail", .str detail), ("blocked_kind", .str "tool_call"),
        ("blocked_payload_digest", .str digest)] ++ rt.registry.toList.map fun registry =>
          ("registry_digest", Value.str registry.registryDigest)).isIdentity = true := by
  rw [Value.isIdentity_dict]
  intro e he
  rcases List.mem_append.mp he with he | he
  · simp only [List.mem_cons, List.not_mem_nil, or_false] at he
    rcases he with rfl | rfl | rfl | rfl <;> rfl
  · obtain ⟨registry, -, rfl⟩ := List.mem_map.mp he
    rfl

/-- The node of a refusal is made, where the payload it is about has a digest. -/
theorem make_policyRefusal {blockedPayload : Value} (hpayload : blockedPayload.isIdentity = true)
    (detail cursorId : String) :
    H.digestPayload blockedPayload = .ok (H.payload blockedPayload.canonical) ∧
    ∃ node, Node.make H .refusal (some cursorId)
        (.dict <|
          [("reason", .str "policy"), ("detail", .str detail), ("blocked_kind", .str "tool_call"),
            ("blocked_payload_digest", .str (H.payload blockedPayload.canonical))] ++
          rt.registry.toList.map fun registry =>
            ("registry_digest", .str registry.registryDigest)) 0 none (createdAt env) = .ok node ∧
      node.id = node.expectedId H ∧ node.kind = .refusal ∧ node.parent = some cursorId ∧
      node.result = none := by
  refine ⟨?_, _, Node.make_ok (by decide) (by simp) (Value.canonicalBytes_ok
    (isIdentity_policyPayload detail (H.payload blockedPayload.canonical))) (le_refl 0) ?_,
    rfl, rfl, rfl, rfl⟩
  · rw [Hashing.digestPayload, Value.canonicalBytes_ok hpayload]
    rfl
  · intro v hv
    change v ∈ [Value.str env.now] at hv
    rw [List.mem_singleton.mp hv]
    rfl

theorem isIdentity_blockedPayload (name : String) (args : Value) :
    (Value.dict [("tool", .str name), ("args", args)]).isIdentity = args.isIdentity := by
  simp [Value.isIdentity, Value.isIdentityEntries]

section Session

variable {s : Session} (hmode : rt.mode = .record)
  (hcursor : s.store.contains s.run.cursorId = true) (hfree : s.store.CollisionFree H)
include hfree

/-- A refusal that cannot be digested changes nothing. -/
theorem not_refused_of_undigested {α : Type} {blockedPayload : Value}
    (hpayload : blockedPayload.isIdentity = false) (detail : String) :
    ¬ Refused H s (refusePolicy H rt env detail blockedPayload s :
      EStateM.Result PyError Session α) := by
  unfold refusePolicy Hashing.digestPayload
  cases hbytes : blockedPayload.canonicalBytes with
  | error e => exact not_refused_of_unchanged hfree
  | ok bytes =>
      obtain ⟨rfl, hidentity⟩ := Value.isIdentity_of_canonicalBytes hbytes
      rw [Value.isIdentity_canonical, hpayload] at hidentity
      cases hidentity

theorem not_refused_refuseText {codePoints : List ℕ} (blockedPayload : Value) :
    ¬ Refused H s (refuseText H rt env (.surrogates codePoints) blockedPayload s) := by
  unfold refuseText
  dsimp only
  cases H.digestPayload blockedPayload with
  | error e => exact not_refused_of_unchanged hfree
  | ok digest => exact not_refused_of_unchanged hfree

include hmode hcursor

/-- A refusal of a payload that has a digest is recorded. -/
theorem refused_refusePolicy {α : Type} {blockedPayload : Value}
    (hpayload : blockedPayload.isIdentity = true) (detail : String) :
    Refused H s (refusePolicy H rt env detail blockedPayload s :
      EStateM.Result PyError Session α) := by
  obtain ⟨hdigest, node, hmade, hid, hkind, hparent, hresult⟩ :=
    @make_policyRefusal H rt env _ hpayload detail s.run.cursorId
  obtain ⟨after, hput⟩ := MemoryStore.put_ok hid (by simp [hkind]) (by simpa [hparent])
    (hfree.same hid)
  rcases record_apply H rt node s (by simp [hmode]) with ⟨error, herror, -⟩ |
    ⟨store, stored, hstore, hstored, hrecord⟩
  · rw [hput] at herror
    cases herror
  · refine ⟨detail, node, s.moved store node.id, ?_, hid, hkind, hparent,
      MemoryStore.put_without_result hresult hstore, rfl, rfl⟩
    unfold refusePolicy
    rw [hdigest, bind_of_ok (orRaise_ok _ s), bind_of_ok (get_apply s), hmade,
      bind_of_ok (orRaise_ok _ s), bind_of_ok hrecord, hstored]
    rfl

/-- A refusal is recorded if and only if the payload it is about has a digest. -/
theorem refused_refusePolicy_iff {α : Type} {blockedPayload : Value} (detail : String) :
    Refused H s (refusePolicy H rt env detail blockedPayload s :
      EStateM.Result PyError Session α) ↔ blockedPayload.isIdentity = true := by
  cases hpayload : blockedPayload.isIdentity with
  | false => exact iff_of_false (not_refused_of_undigested hfree hpayload detail) (by simp)
  | true => exact iff_of_true (refused_refusePolicy hmode hcursor hfree hpayload detail) rfl

/-! ## Policies -/

omit hmode hcursor hfree in
theorem decidePolicy_apply (hreport : ∃ spent, recomputeCharges s.store s.run.rootId = .ok spent)
    {index : ℕ} {decision : Decision} (hdecide : env.decide index = .ok decision) :
    decidePolicy env index s = .ok decision s := by
  obtain ⟨spent, hspent⟩ := hreport
  unfold decidePolicy
  rw [bind_of_ok (get_apply s), hspent, bind_of_ok (orRaise_ok _ s), hdecide, orRaise_ok]

omit hmode hcursor hfree in
theorem durableApprovals_allowed
    (hreport : ∃ spent, recomputeCharges s.store s.run.rootId = .ok spent) (spec : ActionSpec)
    (args : Value) {policies : List Policy} {index : ℕ} {consulted : List (ℕ × Decision)}
    (h : durablyAllowed env index policies = true) :
    ∃ approved, durableApprovals H rt env spec args index policies consulted s =
      .ok approved s := by
  induction policies generalizing index consulted with
  | nil => exact ⟨consulted, rfl⟩
  | cons policy policies ih =>
      rw [durablyAllowed, Bool.and_eq_true, Bool.or_eq_true, Bool.not_eq_true',
        decide_eq_true_eq] at h
      rw [durableApprovals]
      split
      · next hdurable =>
          have hallow := h.1.resolve_left (by simp [hdurable])
          rw [bind_of_ok (decidePolicy_apply hreport hallow), if_pos rfl]
          exact ih h.2
      · exact ih h.2

theorem refused_durableApprovals
    (hreport : ∃ spent, recomputeCharges s.store s.run.rootId = .ok spent) {spec : ActionSpec}
    {args auditArgs : Value} (hargs : spec.redactArgs H args = .ok auditArgs)
    (hidentity : auditArgs.isIdentity = true) {policies : List Policy} {index : ℕ}
    {consulted : List (ℕ × Decision)} (h : durablyDenied env index policies = true) :
    Refused H s (durableApprovals H rt env spec args index policies consulted s) := by
  have hblocked : (Value.dict [("tool", .str spec.name), ("version", .str spec.version),
      ("args", auditArgs)]).isIdentity = true := by
    simp [Value.isIdentity, Value.isIdentityEntries, hidentity]
  induction policies generalizing index consulted with
  | nil => cases h
  | cons policy policies ih =>
      rw [durablyDenied] at h
      rw [durableApprovals]
      split at h
      · next hdurable =>
          rw [if_pos hdurable]
          cases hdecide : env.decide index with
          | error error => simp [hdecide] at h
          | ok decision =>
              rw [bind_of_ok (decidePolicy_apply hreport hdecide)]
              cases decision with
              | allow =>
                  rw [hdecide] at h
                  rw [if_pos rfl]
                  exact ih h
              | _ =>
                  rw [if_neg (by simp), hargs, bind_of_ok (orRaise_ok _ s)]
                  exact refused_refusePolicy hmode hcursor hfree hblocked _
      · next hdurable =>
          rw [if_neg hdurable]
          exact ih h

theorem refused_consultPolicies
    (hreport : ∃ spent, recomputeCharges s.store s.run.rootId = .ok spent) {spec : ActionSpec}
    {args payload : Value} {attempt : ℤ} (hidentity : payload.isIdentity = true)
    {policies : List Policy} {index : ℕ} {consulted : List (ℕ × Decision)}
    (h : outrightDenied env index policies = true) :
    Refused H s (consultPolicies H rt env spec args payload attempt index policies consulted
      s) := by
  induction policies generalizing index consulted with
  | nil => cases h
  | cons policy policies ih =>
      rw [outrightDenied] at h
      rw [consultPolicies]
      split at h
      · next hdurable =>
          rw [if_pos hdurable]
          exact ih h
      · next hdurable =>
          rw [if_neg hdurable]
          cases hdecide : env.decide index with
          | error error => simp [hdecide] at h
          | ok decision =>
              rw [hdecide] at h
              rw [bind_of_ok (decidePolicy_apply hreport hdecide)]
              cases decision with
              | deny => exact refused_refusePolicy hmode hcursor hfree hidentity _
              | confirm => cases h
              | allow => exact ih h
              | other => exact ih h

/-! ## Registered calls -/

theorem refused_of_denied {flavor : Flavor} {registry : Registry} {name : String} {args : Value}
    {version : Option String} {attempt : ℤ} {spec : ActionSpec} {auditArgs : Value}
    (hspec : registry.specs.get? name = some spec)
    (hversion : ∀ requested ∈ version, requested = spec.version)
    (hargs : spec.validateArgs args = .ok none)
    (hnew : rt.refuseDuplicateRecordings = true → ∀ auditArgs,
      spec.redactArgs H args = .ok auditArgs →
        recordedNode H rt env .toolCall (registeredPayload registry spec auditArgs) attempt s =
          .ok none s)
    (hreport : ∃ spent, recomputeCharges s.store s.run.rootId = .ok spent)
    (hdenied : denied env rt.policies = true) (hredacted : spec.redactArgs H args = .ok auditArgs) :
    Refused H s (registeredToolCall H rt flavor env registry name args version attempt s) := by
  have hidentity := ActionSpec.isIdentity_redactArgs
    (ActionSpec.isIdentity_of_validateArgs hargs) hredacted
  have hany : ¬ (version.any fun version => version ≠ spec.version) = true := by
    cases version with
    | none => simp
    | some version => simpa using hversion version rfl
  unfold registeredToolCall
  rw [hspec]
  dsimp only
  rw [hredacted, bind_of_ok (orRaise_ok _ s), if_neg hany, hargs, bind_of_ok (orRaise_ok _ s)]
  dsimp only
  rw [if_neg (by simp [hmode])]
  have hpolicies : Refused H s ((do
      let approved ← checkDurableApprovals H rt env spec args
      let consulted ← consultPolicies H rt env spec args
        (registeredPayload registry spec auditArgs) attempt 0 rt.policies approved
      dispatchRegistered H rt flavor env spec (registeredPayload registry spec auditArgs) attempt
        consulted : RunM Node) s) := by
    rw [denied, Bool.or_eq_true, Bool.and_eq_true] at hdenied
    unfold checkDurableApprovals
    rw [if_neg (by simp [hmode])]
    rcases hdenied with hdurably | ⟨hallowed, houtright⟩
    · exact (refused_durableApprovals hmode hcursor hfree hreport hredacted hidentity
        hdurably).bind _
    · obtain ⟨approved, happroved⟩ := @durableApprovals_allowed H rt _ _ hreport spec
        args _ _ [] hallowed
      rw [bind_of_ok happroved]
      exact (refused_consultPolicies hmode hcursor hfree hreport
        (isIdentity_registeredPayload hidentity) houtright).bind _
  split
  · next hduplicates =>
      rw [bind_of_ok (hnew hduplicates.2 auditArgs hredacted)]
      exact hpolicies
  · exact hpolicies

/-- A rejected call is recorded as refused if and only if its arguments can be digested and,
where the action is known, redact to an object. -/
theorem refused_registeredToolCall_iff {flavor : Flavor} {registry : Registry} {name : String}
    {args : Value} {version : Option String} {attempt : ℤ}
    (h : Rejected H rt env registry s (.str name) args (version.map .str) attempt) :
    Refused H s (registeredToolCall H rt flavor env registry name args version attempt s) ↔
      args.isIdentity = true ∧ ∀ spec ∈ registry.specs.get? name,
        ∃ auditArgs, spec.redactArgs H args = .ok auditArgs := by
  cases hspec : registry.specs.get? name with
  | none =>
      unfold registeredToolCall
      rw [hspec]
      dsimp only
      rw [refused_refusePolicy_iff hmode hcursor hfree, isIdentity_blockedPayload]
      simp
  | some spec =>
      have hfind : registry.find? (.str name) = some spec := hspec
      simp only [Option.mem_def, Option.some.injEq, forall_eq']
      cases hredacted : spec.redactArgs H args with
      | error error =>
          unfold registeredToolCall
          rw [hspec]
          dsimp only
          rw [hredacted, bind_of_error (orRaise_error _ s)]
          exact iff_of_false (not_refused_of_unchanged hfree) (by simp)
      | ok auditArgs =>
          have hblocked := isIdentity_blockedPayload name auditArgs
          have hsame := ActionSpec.isIdentity_redactArgs_iff hredacted
          cases h with
          | unknown hunknown =>
              rw [hfind] at hunknown
              cases hunknown
          | version other hother hversion =>
              rw [hfind] at hother
              cases hother
              have hany : (version.any fun version => version ≠ spec.version) = true := by
                obtain ⟨requested, hrequested, hne⟩ := hversion
                cases version with
                | none => cases hrequested
                | some version =>
                    cases hrequested
                    simpa using fun heq => hne (by rw [heq])
              unfold registeredToolCall
              rw [hspec]
              dsimp only
              rw [hredacted, bind_of_ok (orRaise_ok _ s), if_pos hany,
                refused_refusePolicy_iff hmode hcursor hfree, hblocked, hsame]
              simp
          | args other hother hversion hargs =>
              rw [hfind] at hother
              cases hother
              have hany : ¬ (version.any fun version => version ≠ spec.version) = true := by
                cases version with
                | none => simp
                | some version => simpa using hversion (.str version) rfl
              unfold registeredToolCall
              rw [hspec]
              dsimp only
              rw [hredacted, bind_of_ok (orRaise_ok _ s), if_neg hany]
              cases hfinding : spec.validateArgs args with
              | error error =>
                  rw [bind_of_error (orRaise_error _ s)]
                  refine iff_of_false (not_refused_of_unchanged hfree) fun hencodes => ?_
                  rw [ActionSpec.validateArgs, Value.canonicalBytes_ok hencodes.1] at hfinding
                  obtain ⟨finding, hok⟩ :=
                    Schema.validateValue_ok hencodes.1 spec.isIdentity_schema "$"
                  rw [hok] at hfinding
                  cases hfinding
              | ok finding =>
                  rw [bind_of_ok (orRaise_ok _ s)]
                  cases finding with
                  | none => exact absurd hfinding hargs
                  | some finding =>
                      dsimp only
                      rw [refused_refusePolicy_iff hmode hcursor hfree, hblocked, hsame]
                      simp
          | denied other hother hversion hargs hnew hreport hdenied =>
              rw [hfind] at hother
              cases hother
              refine iff_of_true (refused_of_denied hmode hcursor hfree hspec ?_ hargs hnew
                hreport hdenied hredacted) ⟨ActionSpec.isIdentity_of_validateArgs hargs, _, rfl⟩
              intro requested hrequested
              cases hrequested
              exact PyString.str.inj (hversion (.str requested) rfl)

end Session

/-- A text with a lone surrogate makes every text it is joined to one. -/
theorem unknownAction_surrogates {name : PyString} {version : Option PyString}
    (h : ¬ (name.value.isIdentity = true ∧ ∀ requested ∈ version, requested.value.isIdentity = true)) :
    ∃ codePoints, unknownAction name version = .surrogates codePoints := by
  cases name with
  | surrogates name =>
      cases version with
      | none => exact ⟨_, rfl⟩
      | some version => cases version <;> exact ⟨_, rfl⟩
  | str name =>
      cases version with
      | none => exact absurd ⟨rfl, by simp⟩ h
      | some version =>
          cases version with
          | str version => exact absurd ⟨rfl, by simp [PyString.value, Value.isIdentity]⟩ h
          | surrogates version => exact ⟨_, rfl⟩

/-- A rejected call is recorded as refused if and only if it can be digested. -/
theorem refused_registeredCall_iff {s : Session} (hmode : rt.mode = .record)
    (hcursor : s.store.contains s.run.cursorId = true) (hfree : s.store.CollisionFree H)
    {flavor : Flavor} {registry : Registry} {name : PyString} {args : Value}
    {version : Option PyString} {attempt : ℤ}
    (h : Rejected H rt env registry s name args version attempt) :
    Refused H s (registeredCall H rt env flavor registry name args version attempt s) ↔
      Encodable H registry name args version := by
  by_cases hencodes : name.value.isIdentity = true ∧
      ∀ requested ∈ version, requested.value.isIdentity = true
  · have hiff : Encodable H registry name args version ↔ args.isIdentity = true ∧
        ∀ spec ∈ registry.find? name, ∃ auditArgs, spec.redactArgs H args = .ok auditArgs :=
      ⟨fun he => ⟨he.argsEncode, he.redacts⟩, fun he => ⟨hencodes.1, hencodes.2, he.1, he.2⟩⟩
    rw [hiff]
    cases name with
    | surrogates name => cases hencodes.1
    | str name =>
        unfold registeredCall
        cases version with
        | none => exact refused_registeredToolCall_iff hmode hcursor hfree h
        | some version =>
            cases version with
            | surrogates version => cases hencodes.2 _ rfl
            | str version => exact refused_registeredToolCall_iff hmode hcursor hfree h
  · obtain ⟨codePoints, htext⟩ := unknownAction_surrogates hencodes
    refine iff_of_false ?_ fun he => hencodes ⟨he.nameEncodes, he.versionEncodes⟩
    unfold registeredCall
    cases name with
    | surrogates name =>
        dsimp only
        rw [htext]
        exact not_refused_refuseText hfree _
    | str name =>
        cases version with
        | none => exact absurd ⟨rfl, by simp⟩ hencodes
        | some version =>
            cases version with
            | str version =>
                exact absurd ⟨rfl, by simp [PyString.value, Value.isIdentity]⟩ hencodes
            | surrogates version =>
                dsimp only
                rw [htext]
                cases registry.specs.get? name with
                | none => exact not_refused_refuseText hfree _
                | some spec =>
                    dsimp only
                    cases hredacted : spec.redactArgs H args with
                    | error error => exact not_refused_of_unchanged hfree
                    | ok auditArgs =>
                        rw [bind_of_ok (orRaise_ok _ s)]
                        exact not_refused_refuseText hfree _

variable (H) (rt) (env)

/-- Whatever happened before, a call that is to be refused is recorded as refused if and only
if its name, version and arguments can be digested and, where the action is known, the
arguments redact to an object. -/
theorem refusals_recorded_iff (hmode : rt.mode = .record) (store : MemoryStore)
    (inputs : List Input) (handle : Handle)
    (hhandle : handle ∈ (World.run H rt { store } inputs).handles)
    (hfree : (World.run H rt { store } inputs).store.CollisionFree H) (flavor : Flavor)
    (registry : Registry) (name : PyString) (args : Value) (version : Option PyString)
    (attempt : ℤ)
    (h : Rejected H rt env registry ((World.run H rt { store } inputs).session handle) name args
      version attempt) :
    Refused H ((World.run H rt { store } inputs).session handle)
        (registeredCall H rt env flavor registry name args version attempt
          ((World.run H rt { store } inputs).session handle)) ↔
      Encodable H registry name args version :=
  refused_registeredCall_iff hmode (cursors_stored H rt store inputs handle hhandle) hfree h

end Runtime

/-! ## Floats -/

/-- A registry without actions. -/
def emptyRegistry : Registry := ⟨"registry", ∅⟩

def guardedRuntime : Runtime where
  meters := []
  registry := some emptyRegistry

def guardedRoot : Identity := ⟨0, .root, "", .dict [("run", .str "label")]⟩

/-- A hash that keeps the root apart. -/
def rootHashing : Hashing :=
  { Hashing.plain with node := fun identity => if identity = guardedRoot then "root" else "node" }

def guardedWorld : World :=
  World.run rootHashing guardedRuntime { store := .empty } [.opened false "label" none 0]

theorem guardedWorld_collisionFree : guardedWorld.store.CollisionFree rootHashing := by
  have hnodes : guardedWorld.store.nodes.map (fun node => (node.id, node.identity)) =
      [("root", guardedRoot)] := by decide +kernel
  refine ⟨fun identity => ?_, fun node hnode identity hidentity => ?_⟩
  · simp only [rootHashing]
    split <;> decide
  · have hmem := List.mem_map_of_mem (f := fun node : Node => (node.id, node.identity)) hnode
    rw [hnodes, List.mem_singleton, Prod.mk.injEq] at hmem
    rw [hmem.1] at hidentity
    simp only [rootHashing] at hidentity
    split at hidentity
    · next heq => rw [hmem.2, heq]
    · exact absurd hidentity (by decide)

def guardedHandle : Handle :=
  { run := { rootId := "root", cursorId := "root", label := "label", budgetScopes := [] } }

theorem guardedWorld_handles : guardedWorld.handles = [guardedHandle] := rfl

def guardedSession : Session := guardedWorld.session guardedHandle

theorem refusals_recorded_iff_missing :
    Refused rootHashing guardedSession
        (registeredCall rootHashing guardedRuntime .calm .sync emptyRegistry (.str "missing")
          (.dict []) none 0 guardedSession) ↔
      Encodable rootHashing emptyRegistry (.str "missing") (.dict []) none :=
  refusals_recorded_iff rootHashing guardedRuntime .calm rfl .empty
    [.opened false "label" none 0] guardedHandle
    (guardedWorld_handles ▸ List.mem_singleton_self _) guardedWorld_collisionFree .sync
    emptyRegistry (.str "missing") (.dict []) none 0 (.unknown rfl)

def floatArgs : Value := .dict [("x", .float (3 / 2))]

/-- A call of an unknown action with a float among its arguments leaves nothing. -/
theorem float_call_unrecorded :
    Rejected rootHashing guardedRuntime .calm emptyRegistry guardedSession (.str "missing")
      floatArgs none 0 ∧
    registeredCall rootHashing guardedRuntime .calm .sync emptyRegistry (.str "missing") floatArgs
        none 0 guardedSession =
      .error (.typeError "floats are not allowed in identity payloads at $.args.x")
        guardedSession ∧
    ¬ Refused rootHashing guardedSession
      (registeredCall rootHashing guardedRuntime .calm .sync emptyRegistry (.str "missing")
        floatArgs none 0 guardedSession) := by
  have hcall : registeredCall rootHashing guardedRuntime .calm .sync emptyRegistry
      (.str "missing") floatArgs none 0 guardedSession =
        .error (.typeError "floats are not allowed in identity payloads at $.args.x")
          guardedSession := rfl
  refine ⟨.unknown rfl, hcall, ?_⟩
  rw [hcall]
  exact not_refused_of_unchanged guardedWorld_collisionFree

end Pollard
