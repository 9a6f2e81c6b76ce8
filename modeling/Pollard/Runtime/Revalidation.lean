import Pollard.Merge.Meta
import Pollard.Revalidation.ResultTexts
import Pollard.Runtime.Refusals
import Pollard.Teams.Identity

/-!
# Revalidating a recorded call

`Run.revalidate_model_call` and its async twin: look the recording up, make one live observation
under a payload of its own, compare the two results, and leave a note below the observation.
The chain of exceptions a failure is raised from is left out.
-/

namespace Pollard

open Lib Effect

/-! ## Contracts -/

/-- `not value.strip()`; a lone surrogate is no space. -/
def PyString.isBlank : PyString → Bool
  | .str s => s.toList.all Teams.isSpace
  | .surrogates _ => false

/-- A string in a message. -/
def PyString.text : PyString → String
  | .str s => s
  -- no message names a string without a UTF-8 form: its payload was refused before
  | .surrogates _ => ""

/-- `_require_nonempty` -/
def requireNonempty (name : String) (value : PyString) : Except PyError Unit :=
  if value.isBlank then .error (.valueError s!"{name} must be a non-empty string") else .ok ()

/-- `ReplayContract`, as its constructor lets it through. -/
structure ReplayContract where
  provider : PyString
  modelRevision : Option PyString := none
  apiVersion : Option PyString := none
  adapter : Option PyString := none
  adapterVersion : Option PyString := none
  sdk : Option PyString := none
  sdkVersion : Option PyString := none
  applicationRevision : Option PyString := none
  environment : List (String × Value) := []
  nonempty : ∀ text ∈ provider :: [modelRevision, apiVersion, adapter, adapterVersion, sdk,
    sdkVersion, applicationRevision].reduceOption, text.isBlank = false
  encodable : (Value.dict environment).isIdentity = true

/-- `to_dict` -/
def ReplayContract.toDict (contract : ReplayContract) : List (String × Value) :=
  let optional (name : String) (value : Option PyString) : List (String × Value) :=
    value.toList.map fun text => (name, text.value)
  [("format", .str "pollard/replay-contract/v1"), ("provider", contract.provider.value)] ++
    optional "model_revision" contract.modelRevision ++
    optional "api_version" contract.apiVersion ++
    optional "adapter" contract.adapter ++
    optional "adapter_version" contract.adapterVersion ++
    optional "sdk" contract.sdk ++
    optional "sdk_version" contract.sdkVersion ++
    optional "application_revision" contract.applicationRevision ++
    (if contract.environment.isEmpty then []
    else [("environment", .dict contract.environment)])

/-- `extract_replay_contract` -/
def extractReplayContract (payload : Value) : Except PyError (Option (List (String × Value))) :=
  match payload.get? "_pollard" with
  | some (.dict reserved) =>
      match Assoc.lookup reserved "replay_contract" with
      | none => .ok none
      | some (.dict contract) => (Value.dict contract).canonicalBytes.map fun _ => some contract
      | some _ => .error (.valueError "recorded _pollard.replay_contract must be an object")
  | _ => .ok none

/-! ## Comparators -/

/-- The path is a string that starts with a slash. -/
def isPointer : PyString → Bool
  | .str s => s.toList.head? = some '/'
  | .surrogates codePoints => codePoints.head? = some '/'.toNat

/-- A `RevalidationComparison` of any comparator, as its constructor lets it through. -/
structure Comparison where
  matched : Bool
  differencePaths : List PyString
  truncated : Bool
  bounded : differencePaths.length ≤ Revalidation.maxDifferencePaths
  pointers : ∀ path ∈ differencePaths, isPointer path = true
  exact : matched = true → differencePaths = [] ∧ truncated = false

/-- `to_dict` -/
def Comparison.toDict (comparison : Comparison) : Value :=
  .dict
    [("matched", .bool comparison.matched),
      ("difference_paths", .list (comparison.differencePaths.map PyString.value)),
      ("truncated", .bool comparison.truncated)]

/-- What `compare` does with the two results; `none` is anything but a
`RevalidationComparison`. -/
abbrev Compare := Value → Value → Except PyError (Option Comparison)

/-- A comparator; `none` is a name that is no string, or a `compare` that cannot be called. -/
structure Comparator where
  name : Option PyString
  compare : Option Compare

/-! ## Payloads -/

def revalidationFormat : String := "pollard/revalidation/v1"

/-- The `_pollard` metadata a payload already has. -/
def pollardMetadata (payload : List (String × Value)) : Except PyError (List (String × Value)) :=
  match Assoc.lookup payload "_pollard" with
  | none => .ok []
  | some .none => .ok []
  | some (.dict reserved) => .ok reserved
  | some _ => .error (.typeError "payload _pollard field must be an object")

/-- The marker of a live observation. -/
def revalidationMarker (observationId : PyString) (recordedNodeId recordedResultDigest : String)
    (contract : ReplayContract) (comparatorName : PyString) : Value :=
  .dict
    [("format", .str revalidationFormat), ("observation_id", observationId.value),
      ("recorded_node_id", .str recordedNodeId),
      ("recorded_result_digest", .str recordedResultDigest),
      ("live_contract", .dict contract.toDict), ("comparator", comparatorName.value)]

/-- `make_revalidation_payload` -/
def makeRevalidationPayload (payload : List (String × Value)) (observationId : PyString)
    (recordedNodeId recordedResultDigest : String) (contract : ReplayContract)
    (comparatorName : PyString) : Except PyError (List (String × Value)) := do
  requireNonempty "observation_id" observationId
  requireNonempty "comparator name" comparatorName
  let metadata ← pollardMetadata payload
  if "revalidation" ∈ Assoc.keys metadata then
    throw (.valueError "payload already contains reserved _pollard.revalidation metadata")
  else
    let marked := Assoc.upsert payload "_pollard" (.dict (Assoc.upsert metadata "revalidation"
      (revalidationMarker observationId recordedNodeId recordedResultDigest contract
        comparatorName)))
    let _ ← (Value.dict marked).canonicalBytes
    return marked

/-! ## Preparing -/

/-- `_PreparedRevalidation` -/
structure PreparedRevalidation where
  recorded : Node
  observationPayload : List (String × Value)
  livePayload : List (String × Value)
  observationId : PyString
  compare : Compare
  comparatorName : PyString
  recordedContract : Option (List (String × Value))
  liveContract : List (String × Value)

section Runtime

variable (H : Hashing) (rt : Runtime)

/-- `_snapshot_payload` -/
def snapshotPayload (payload : List (String × Value)) :
    Except PyError (List (String × Value)) := do
  match ← (Value.dict payload).canonicalBytes with
  | .dict snapshot => return snapshot
  | _ => throw (.typeError "identity payload must be an object")

/-- What reading a recorded contract raises in the place of a `ValueError`. -/
def integrityOfValueError : PyError → PyError
  | .valueError message => .integrityError message
  -- a `ValueError` too, whose text is not modelled
  | .unicodeEncodeError => .integrityError "surrogates not allowed"
  | error => error

/-- The name and the method of a comparator. -/
def selectComparator (comparator : Comparator) : Except PyError (PyString × Compare) :=
  match comparator.name, comparator.compare with
  | some name, some compare =>
      if name.isBlank then
        .error (.typeError "comparator must expose a non-empty name and compare method")
      else .ok (name, compare)
  | _, _ => .error (.typeError "comparator must expose a non-empty name and compare method")

/-- The check of a live payload of its own against the live contract. -/
def checkLiveContract (contract : ReplayContract) (livePayload : Option (List (String × Value)))
    (identity : List (String × Value)) : Except PyError Unit :=
  match livePayload with
  | none => .ok ()
  | some _ => do
      match ← extractReplayContract (.dict identity) with
      | none => return ()
      | some bound =>
          if Value.pyEq (.dict bound) (.dict contract.toDict) then return ()
          else throw (.valueError "live payload replay contract does not match the live contract")

/-- `_prepare_model_revalidation`, on the store and at the cursor of a run; `uuid` is drawn when
the caller gives no observation id. -/
def prepareModelRevalidation (store : MemoryStore) (cursorId : String)
    (payload : List (String × Value)) (contract : ReplayContract) (comparator : Comparator)
    (livePayload : Option (List (String × Value))) (attempt : ℤ)
    (observationId : Option PyString) (uuid : String) : Except PyError PreparedRevalidation := do
  if rt.mode ≠ .record then throw (.runtimeError "live revalidation requires record mode")
  else if rt.dryRun then
    throw (.runtimeError "live revalidation is unavailable in dry-run mode")
  else
    let (comparatorName, compare) ← selectComparator comparator
    let identityPayload ← snapshotPayload payload
    match ← recordedNodeOrMissing H { rt with mode := .replay } store .modelCall cursorId
        (.dict identityPayload) attempt with
    | none => throw (.runtimeError "assert recorded is not None")
    | some recorded =>
        match recorded.result with
        | some (.dict result) => do
            let recordedContract ←
              (extractReplayContract recorded.payload).mapError integrityOfValueError
            let liveSource := livePayload.getD payload
            let liveIdentity ← snapshotPayload liveSource
            checkLiveContract contract livePayload liveIdentity
            let observationId := observationId.getD (.str uuid)
            let observationPayload ← makeRevalidationPayload liveIdentity observationId recorded.id
              (H.result (Value.dict result).canonical) contract comparatorName
            let candidate ← Node.make H .modelCall (some cursorId) (.dict observationPayload)
            if store.contains candidate.id then
              throw (.integrityError
                s!"revalidation observation already exists: {observationId.text}")
            else
              return { recorded, observationPayload, livePayload := liveSource, observationId,
                       compare, comparatorName, recordedContract,
                       liveContract := contract.toDict }
        | _ => throw (.integrityError "recorded model result is not a replayable object")

/-! ## The live observation -/

/-- `_call` and `_acall`, where the meters see another payload than the node has. -/
def callMetered (flavor : Flavor) (env : CallEnv) (kind : NodeKind) (payload meterPayload : Value)
    (attempt : ℤ) (keepChunks : Bool) : RunM Node := do
  let payload ← orRaise payload.canonicalBytes
  let meterPayload ← orRaise meterPayload.canonicalBytes
  match ← recordedNode H rt env kind payload attempt with
  | some node => return node
  | none => do
      let reservation ← precheck H rt env kind meterPayload
      callReserved H rt flavor env kind payload attempt keepChunks none reservation

/-! ## Evidence -/

/-- `make_revalidation_evidence` -/
def makeRevalidationEvidence (prepared : PreparedRevalidation) (liveNodeId recordedResultDigest
    liveResultDigest : String) (comparison : Comparison) (exactMatch : Bool) :
    Except PyError Value :=
  let payload := Value.dict <|
    [("event", .str "model_revalidation"), ("format", .str revalidationFormat),
      ("observation_id", prepared.observationId.value),
      ("recorded_node_id", .str prepared.recorded.id), ("live_node_id", .str liveNodeId),
      ("recorded_result_digest", .str recordedResultDigest),
      ("live_result_digest", .str liveResultDigest),
      ("comparator", prepared.comparatorName.value), ("comparison", comparison.toDict),
      ("exact_match", .bool exactMatch), ("live_contract", .dict prepared.liveContract)] ++
    prepared.recordedContract.toList.map fun contract => ("recorded_contract", .dict contract)
  payload.canonicalBytes.map fun _ => payload

/-- `make_revalidation_failure_evidence` -/
def makeRevalidationFailureEvidence (prepared : PreparedRevalidation) (liveNodeId
    recordedResultDigest liveResultDigest : String) (error : PyError) : Except PyError Value :=
  let payload := Value.dict
    [("event", .str "model_revalidation_comparison_failed"), ("format", .str revalidationFormat),
      ("observation_id", prepared.observationId.value),
      ("recorded_node_id", .str prepared.recorded.id), ("live_node_id", .str liveNodeId),
      ("recorded_result_digest", .str recordedResultDigest),
      ("live_result_digest", .str liveResultDigest),
      ("comparator", prepared.comparatorName.value), ("error_type", .str error.typeName)]
  payload.canonicalBytes.map fun _ => payload

/-- A note of a revalidation, below the observation. -/
def revalidationNote (env : CallEnv) (live : Node) (payload : Value) : Except PyError Node :=
  Node.make H .note (some live.id) payload 0 none (createdAt env)

structure RevalidationReport where
  observationId : PyString
  recordedNodeId : String
  liveNodeId : String
  evidenceNodeId : String
  comparator : PyString
  matched : Bool
  exactMatch : Bool
  recordedResultDigest : String
  liveResultDigest : String
  differencePaths : List PyString
  differencesTruncated : Bool
  recordedContract : Option (List (String × Value))
  liveContract : List (String × Value)
  charges : List (String × Value)

/-! ## Finishing -/

/-- `prepared.comparator.compare` on the results as they are read from their texts. -/
def compareResults (prepared : PreparedRevalidation) (recorded live : Value) :
    Except PyError Comparison := do
  match ← prepared.compare recorded.canonical live.canonical with
  | some comparison => return comparison
  | none => throw (.typeError "revalidation comparator must return RevalidationComparison")

/-- The `try` block of `_finish_model_revalidation`. -/
def recordEvidence (env : CallEnv) (prepared : PreparedRevalidation) (live : Node)
    (recordedResult liveResult : Value) : RunM RevalidationReport := do
  let recordedDigest := H.result recordedResult.canonical
  let liveDigest := H.result liveResult.canonical
  let comparison ← orRaise (compareResults prepared recordedResult liveResult)
  let exactMatch := decide (recordedResult.canonical = liveResult.canonical)
  let payload ← orRaise (makeRevalidationEvidence prepared live.id recordedDigest liveDigest
    comparison exactMatch)
  let evidence ← orRaise (revalidationNote H env live payload)
  let evidence ← onStore (putNode H rt evidence)
  return { observationId := prepared.observationId
           recordedNodeId := prepared.recorded.id
           liveNodeId := live.id
           evidenceNodeId := evidence.id
           comparator := prepared.comparatorName
           matched := comparison.matched
           exactMatch
           recordedResultDigest := recordedDigest
           liveResultDigest := liveDigest
           differencePaths := comparison.differencePaths
           differencesTruncated := comparison.truncated
           recordedContract := prepared.recordedContract
           liveContract := prepared.liveContract
           charges := live.charges }

/-- The `try` block of the exception handler. -/
def recordFailure (env : CallEnv) (prepared : PreparedRevalidation) (live : Node)
    (recordedResult liveResult : Value) (error : PyError) : RunM Node := do
  let payload ← orRaise (makeRevalidationFailureEvidence prepared live.id
    (H.result recordedResult.canonical) (H.result liveResult.canonical) error)
  let failure ← orRaise (revalidationNote H env live payload)
  onStore (putNode H rt failure)

/-- `_finish_model_revalidation` -/
def finishModelRevalidation (env : CallEnv) (prepared : PreparedRevalidation) (live : Node) :
    RunM RevalidationReport :=
  match prepared.recorded.result, live.result with
  | some (.dict recorded), some (.dict result) => do
      match ← Effect.attempt (recordEvidence H rt env prepared live (.dict recorded)
          (.dict result)) with
      | .ok report =>
          setCursor prepared.recorded.id
          return report
      | .error error =>
          let _ ← Effect.attempt (recordFailure H rt env prepared live (.dict recorded)
            (.dict result) error)
          setCursor prepared.recorded.id
          throw error
  | _, _ => throw (.integrityError "revalidation requires recorded and live result objects")

/-- `Run.revalidate_model_call` and `AsyncRun.arevalidate_model_call` -/
def revalidateModelCall (flavor : Flavor) (env : CallEnv) (payload : List (String × Value))
    (contract : ReplayContract) (comparator : Comparator)
    (livePayload : Option (List (String × Value))) (attempt : ℤ)
    (observationId : Option PyString) (uuid : String) (keepChunks : Bool) :
    RunM RevalidationReport := do
  let s ← get
  let prepared ← orRaise (prepareModelRevalidation H rt s.store s.run.cursorId payload contract
    comparator livePayload attempt observationId uuid)
  let live ← callMetered H rt flavor env .modelCall (.dict prepared.observationPayload)
    (.dict prepared.livePayload) 0 keepChunks
  finishModelRevalidation H rt env prepared live

end Runtime

end Pollard
