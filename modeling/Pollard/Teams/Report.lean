import Pollard.Governor
import Pollard.Lib.DecimalContext
import Pollard.Lib.Partition
import Pollard.Stores.Verification
import Pollard.Teams.Identity

/-!
# Team reports

A report reads the nodes below a root, attributes each to an actor or to none, and adds up what
is recorded of them.  Sums of decimals have the 28 digits of the default context.
-/

namespace Pollard.Teams

open Lib
open Stores.Verification (StoredNode Texts)

/-! ## Reading a tree -/

/-- What a report reads of a store, which has finitely many nodes. -/
structure Tree where
  get : String → Except PyError StoredNode
  children : String → Except PyError (List String)
  ids : Finset String
  mem_ids : ∀ {id node}, get id = .ok node → id ∈ ids

/-- `DependencyFinding`, of a reading, and `TeamReportFinding` -/
structure Finding where
  nodeId : String
  code : String
  message : String
deriving DecidableEq

/-- `str` of the exceptions that a reading catches; the text of a key error is the `repr` of
its key. -/
def caughtText : PyError → Option String
  | .keyError key => some s!"'{key}'"
  | .integrityError message | .typeError message | .valueError message => some message
  | _ => none

/-- The nodes not seen yet, and one less of them. -/
theorem card_unseen_lt {ids seen : Finset String} {id : String} (hmem : id ∈ ids)
    (hnew : id ∉ seen) : (ids \ insert id seen).card < (ids \ seen).card := by
  refine Finset.card_lt_card (Finset.ssubset_iff_of_subset ?_ |>.mpr ⟨id, ?_, ?_⟩)
  · exact Finset.sdiff_subset_sdiff le_rfl (Finset.subset_insert id seen)
  · exact Finset.mem_sdiff.mpr ⟨hmem, hnew⟩
  · simp

theorem card_unseen_le (ids seen : Finset String) (id : String) :
    (ids \ insert id seen).card ≤ (ids \ seen).card :=
  Finset.card_le_card (Finset.sdiff_subset_sdiff le_rfl (Finset.subset_insert id seen))

/-- `_read_tree`, given what is pending, topmost first. -/
def readFrom (tree : Tree) (pending : List String) (seen : Finset String) :
    Except PyError (List StoredNode × List Finding) :=
  match pending with
  | [] => .ok ([], [])
  | id :: pending =>
      if id ∈ seen then
        (readFrom tree pending seen).map fun (nodes, findings) =>
          (nodes, ⟨id, "invalid_tree", "repeated node in tree"⟩ :: findings)
      else
        match _hget : tree.get id with
        | .error error =>
            match caughtText error with
            | some text =>
                (readFrom tree pending (insert id seen)).map fun (nodes, findings) =>
                  (nodes, ⟨id, "invalid_node", text⟩ :: findings)
            | none => .error error
        | .ok node =>
            (tree.children id).bind fun children =>
              (readFrom tree (children ++ pending) (insert id seen)).map fun (nodes, findings) =>
                (node :: nodes, findings)
termination_by ((tree.ids \ seen).card, pending.length)
decreasing_by
  · exact Prod.Lex.right _ (Nat.lt_succ_self _)
  · rcases (card_unseen_le tree.ids seen id).lt_or_eq with hlt | heq
    · exact Prod.Lex.left _ _ hlt
    · rw [heq]
      exact Prod.Lex.right _ (Nat.lt_succ_self _)
  · next hnew => exact Prod.Lex.left _ _ (card_unseen_lt (tree.mem_ids _hget) hnew)

def readTree (tree : Tree) (rootId : String) : Except PyError (List StoredNode × List Finding) :=
  readFrom tree [rootId] ∅

/-! ## Metrics -/

/-- `_call_kind` -/
def callKind (node : StoredNode) : Option NodeKind :=
  if node.kind = .modelCall ∨ node.kind = .toolCall then some node.kind
  else if node.kind = .note ∧ (node.payload.get? "event" = some (.str "call_outcome_unknown") ∨
      node.payload.get? "event" = some (.str "call_recording_failed")) then
    if node.payload.get? "blocked_kind" = some (.str NodeKind.modelCall.value) then
      some .modelCall
    else if node.payload.get? "blocked_kind" = some (.str NodeKind.toolCall.value) then
      some .toolCall
    else none
  else none

/-- An entry of the reserved part of a payload. -/
def reserved (node : StoredNode) (key : String) : Option Value :=
  match node.payload.get? "_pollard" with
  | some (.dict entries) => Assoc.lookup entries key
  | _ => none

/-- `_is_work` -/
def isWork (node : StoredNode) : Bool :=
  (callKind node).isSome ∨ node.kind = .refusal ∨ (reserved node "dependency").isSome

/-- `_number` -/
def number : Value → Option Decimal
  | .int n => if 0 ≤ n then some n else none
  | .float q => if 0 ≤ q then some (Binary64.shortest q) else none
  | _ => none

mutual

/-- The numbers that `_add_numbers` adds, under their keys. -/
def numbers (nested : Bool) (path : String) : Value → List (String × Decimal)
  | .dict entries => numbersEntries nested path entries
  | _ => []

def numbersEntries (nested : Bool) (path : String) :
    List (String × Value) → List (String × Decimal)
  | [] => []
  | (name, amount) :: rest =>
      let key := if path = "" then name else s!"{path}.{name}"
      (match number amount with
        | some n => [(key, n)]
        | none => if nested then numbers nested key amount else []) ++
        numbersEntries nested path rest

end

/-- `totals[key] = totals.get(key, Decimal("0")) + number` -/
def addNumber (totals : Dict String Decimal) (e : String × Decimal) : Dict String Decimal :=
  totals.set e.1 (DecimalContext.add 28 (totals.getD e.1 0) e.2)

/-- `_add_numbers` -/
def addNumbers (totals : Dict String Decimal) (numbers : List (String × Decimal)) :
    Dict String Decimal :=
  numbers.foldl addNumber totals

/-- The usage of a call, as it is recorded or as its result has it. -/
def usageOf (node : StoredNode) : Value :=
  match node.metadata.get? "usage" with
  | some (.dict entries) => .dict entries
  | _ => ((node.result.bind fun result => result.get? "usage")).getD .none

/-- `_MetricsBuilder` -/
structure MetricsBuilder where
  modelCalls : ℕ := 0
  toolCalls : ℕ := 0
  refusals : ℕ := 0
  dryRuns : ℕ := 0
  failedOutcomes : ℕ := 0
  charges : Dict String Decimal := ∅
  usage : Dict String Decimal := ∅
  duration : Decimal := 0
  dependencyNotes : ℕ := 0
  dependencyReferences : ℕ := 0
  handoffs : ℕ := 0
deriving DecidableEq

structure TeamMetrics where
  governedCalls : ℕ
  modelCalls : ℕ
  toolCalls : ℕ
  refusals : ℕ
  dryRuns : ℕ
  failedOutcomes : ℕ
  charges : Dict String Value
  usage : Dict String Value
  summedCallDurationSeconds : Value
  dependencyNotes : ℕ
  dependencyReferences : ℕ
  handoffs : ℕ
deriving DecidableEq

namespace MetricsBuilder

/-- What `add` does for a governed call. -/
def addCall (builder : MetricsBuilder) (node : StoredNode) (kind : NodeKind) : MetricsBuilder :=
  { builder with
    modelCalls := builder.modelCalls + (kind = .modelCall : Bool).toNat
    toolCalls := builder.toolCalls + (kind = .toolCall : Bool).toNat
    dryRuns := builder.dryRuns +
      (node.metadata.get? "dry_run" = some (.bool true) : Bool).toNat
    failedOutcomes := builder.failedOutcomes + (node.kind = .note : Bool).toNat
    duration :=
      match (node.metadata.get? "duration_s").bind number with
      | some duration => DecimalContext.add 28 builder.duration duration
      | none => builder.duration
    usage := addNumbers builder.usage (numbers true "" (usageOf node)) }

/-- What `add` does for a dependency note. -/
def addDependency (builder : MetricsBuilder) (dependency : Value) : MetricsBuilder :=
  { builder with
    dependencyNotes := builder.dependencyNotes + 1
    handoffs := builder.handoffs +
      (dependency.get? "relation" = some (.str "handoff") : Bool).toNat
    dependencyReferences := builder.dependencyReferences +
      match dependency.get? "references" with
      | some (.list references) => references.length
      | _ => 0 }

def add (builder : MetricsBuilder) (node : StoredNode) : MetricsBuilder :=
  let builder := ((callKind node).map (builder.addCall node)).getD builder
  let builder :=
    { builder with
      refusals := builder.refusals + (node.kind = .refusal : Bool).toNat
      charges := addNumbers builder.charges
        (numbers false "" ((node.metadata.get? "charges").getD .none)) }
  ((reserved node "dependency").map builder.addDependency).getD builder

/-- The JSON numbers of sums, by their names. -/
def sortedJson (sums : Dict String Decimal) : Dict String Value :=
  (sums.sorted fun a b => a.1 ≤ b.1).map chargeToJson

def finish (builder : MetricsBuilder) : TeamMetrics where
  governedCalls := builder.modelCalls + builder.toolCalls
  modelCalls := builder.modelCalls
  toolCalls := builder.toolCalls
  refusals := builder.refusals
  dryRuns := builder.dryRuns
  failedOutcomes := builder.failedOutcomes
  charges := sortedJson builder.charges
  usage := sortedJson builder.usage
  summedCallDurationSeconds := chargeToJson builder.duration
  dependencyNotes := builder.dependencyNotes
  dependencyReferences := builder.dependencyReferences
  handoffs := builder.handoffs

end MetricsBuilder

/-! ## The report -/

/-- What work is grouped by. -/
structure ActorKey where
  teamId : Name
  agentId : Name
  taskId : Name
  role : Option Name
deriving DecidableEq

def AgentIdentity.key (identity : AgentIdentity) : ActorKey :=
  ⟨identity.teamId, identity.agentId, identity.taskId, identity.role⟩

/-- `tuple(v or "" for v in key)` -/
def ActorKey.texts (key : ActorKey) : List String :=
  [key.teamId.1, key.agentId.1, key.taskId.1, (key.role.map Subtype.val).getD ""]

structure AgentReport where
  key : ActorKey
  metrics : TeamMetrics

structure TeamReport where
  rootId : String
  totals : TeamMetrics
  agents : List AgentReport
  unattributed : TeamMetrics
  unattributedNodeIds : List String
  orphanedNodeIds : List String
  findings : List Finding

/-- The variables of the loop of `team_report`. -/
structure Progress where
  totals : MetricsBuilder := {}
  unattributed : MetricsBuilder := {}
  groups : Dict ActorKey MetricsBuilder := ∅
  actors : Dict String (Option AgentIdentity) := ∅
  orphans : Dict String Bool := ∅
  invalid : List String := []
  findings : List Finding := []
  unattributedIds : List String := []
  orphanedIds : List String := []

section Loop

variable (H : Hashing) (T : Texts) (rootId : String)

/-- The identity and the result of a node are what its digests are of. -/
def intact (node : StoredNode) : Bool :=
  node.id = H.node node.identity ∧
    node.resultText.all fun text => node.resultDigest = some (T.resultDigest text)

/-- `broken` -/
def broken (progress : Progress) (node : StoredNode) : Bool :=
  !intact H T node ∨ (node.parent.any fun parent => parent ∈ progress.invalid) ∨
    (node.id = rootId ∧ node.parent ≠ none) ∨
    (node.id ≠ rootId ∧ node.parent.all fun parent => !progress.actors.contains parent)

/-- The actor that an anchor declares. -/
def declaredActor (node : StoredNode) (anchor : Value) : Except PyError AgentIdentity := do
  if node.kind ≠ .note ∨ anchor.isDict = false then
    throw (.valueError "team actor anchor must be a note containing an object")
  if anchor.get? "version" ≠ some (.int 1) then
    throw (.valueError "unsupported team actor anchor version")
  let declared ← AgentIdentity.fromDict ((anchor.get? "identity").getD .none)
  if declared.teamId.1 ≠ rootId then
    throw (.valueError "team actor anchor belongs to a different run")
  return declared

/-- The actor of a node and whether it is an orphan, and what is found. -/
def attribution (progress : Progress) (node : StoredNode) :
    (Option AgentIdentity × Bool) × List Finding :=
  let isBroken := broken H T rootId progress node
  let inherited := (node.parent.bind fun parent => (progress.actors.get? parent).join,
    (node.parent.bind fun parent => progress.orphans.get? parent).getD false)
  let current := if isBroken = true then (none, true) else inherited
  let findings := if isBroken = true then
    [⟨node.id, "invalid_node", "invalid node or ancestry"⟩] else []
  match reserved node "team_agent" with
  | none => (current, findings)
  | some anchor =>
      match declaredActor rootId node anchor with
      | .ok declared => (if isBroken = true then current else (some declared, false), findings)
      | .error error =>
          ((none, true), findings ++
            [⟨node.id, "invalid_actor", (caughtText error).getD error.typeName⟩])

/-- One round of the loop. -/
def step (progress : Progress) (node : StoredNode) : Progress :=
  let ((actor, orphan), findings) := attribution H T rootId progress node
  let progress :=
    { progress with
      invalid := if broken H T rootId progress node = true then node.id :: progress.invalid
        else progress.invalid
      findings := progress.findings ++ findings
      actors := progress.actors.set node.id actor
      orphans := progress.orphans.set node.id orphan
      totals := progress.totals.add node }
  match actor with
  | none =>
      { progress with
        unattributed := progress.unattributed.add node
        unattributedIds :=
          if isWork node = true then progress.unattributedIds ++ [node.id]
          else progress.unattributedIds
        orphanedIds :=
          if isWork node = true ∧ orphan = true then progress.orphanedIds ++ [node.id]
          else progress.orphanedIds }
  | some actor =>
      { progress with
        groups := progress.groups.set actor.key ((progress.groups.getD actor.key {}).add node) }

def attributeNodes (nodes : List StoredNode) : Progress := nodes.foldl (step H T rootId) {}

/-- What `team_report` returns, less the report on dependencies. -/
def Progress.report (progress : Progress) (traversal : List Finding) : TeamReport where
  rootId
  totals := progress.totals.finish
  agents := (progress.groups.entries.insertionSort fun a b => a.1.texts ≤ b.1.texts).map
    fun (key, builder) => ⟨key, builder.finish⟩
  unattributed := progress.unattributed.finish
  unattributedNodeIds := progress.unattributedIds.insertionSort (· ≤ ·)
  orphanedNodeIds := progress.orphanedIds.insertionSort (· ≤ ·)
  findings := progress.findings ++ traversal

/-- `team_report` -/
def teamReport (tree : Tree) : Except PyError TeamReport :=
  (readTree tree rootId).map fun (nodes, findings) =>
    (attributeNodes H T rootId nodes).report rootId findings

end Loop

end Pollard.Teams
