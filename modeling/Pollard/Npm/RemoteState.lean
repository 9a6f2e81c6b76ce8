import Pollard.Lib.Fallible
import Pollard.Npm.Interning
import Pollard.Stores.Transactional
import Pollard.Tree

/-!
# The remote state machine of the npm package

One document holds the nodes, the owners of pending dispatches, the ledgers and the
reservations of every client.  An operation validates the document, works on a copy of it, and
validates what it has made; what raises leaves the document as it was.

An argument of `unknown` type is `none` where it is of another type than the method expects.
Amounts are the decimals their texts spell.
-/

namespace Pollard.Npm.Remote

open Lib Lib.Fallible Stores.Transactional

/-! ## The document -/

structure StorageRecord where
  id : String
  kind : NodeKind
  parent : Option String
  attempt : ℤ
  payload : JsValue
  resultText : Option Units
  resultDigest : Option String
  metadata : Dict Units JsValue

/-- A record that was checked, with the value of its result text. -/
structure Node extends StorageRecord where
  result : JsValue

structure RemoteReservation where
  requestDigest : String
  state : ReservationState
  expiresAt : Instant
  createdAt : Instant
  completedAt : Option Instant
  chargesDigest : Option String
  details : List Detail
deriving DecidableEq

structure RemoteState where
  nodes : Dict String StorageRecord
  owners : Dict String String
  budget : Dict LedgerKey Decimal
  reservations : Dict String RemoteReservation
  windowEvents : Dict (String × ℕ) WindowEvent

/-- `createRemoteState` -/
def createRemoteState : RemoteState := ⟨∅, ∅, ∅, ∅, ∅⟩

/-- What the code takes from its platform: SHA-256, `JSON.stringify` of a number, `String` of a
value, `JSON.parse` with the `snapshot` of its value, and SHA-256 of the JSON texts of a request,
of charges and of a document. -/
structure Library where
  sha : List ℕ → String
  numberText : ℚ → Units
  string : JsValue → Units
  parse : Units → Except Error JsValue
  requestDigest : List BudgetReservation → List WindowReservation → ℚ → String
  chargesDigest : Dict String Decimal → String
  stateDigest : RemoteState → String

/-! ## Values -/

section Encode

variable (lib : Library)

mutual

/-- `encode` with `floats` on. -/
def encode : JsValue → Units → Except Units Units
  | .null, _ => .ok (units "null")
  | .boolean b, _ => .ok (units (if b then "true" else "false"))
  | .string value, path => do
      validString value path
      return stringify value
  | .number q, path =>
      if q.den = 1 ∧ ¬ isSafeInteger q then
        .error (units "expected finite number or safe integer at " ++ path)
      else .ok (lib.numberText q)
  | .array items, path => do
      let encoded ← (encodeItems items path 0).mapM id
      return 91 :: Reading.separated 44 id encoded ++ [93]
  | .object entries, path => do
      let encoded ← (((encodeEntries entries path).insertionSort fun a b =>
        codePointCompare a.1 b.1 ≤ 0).map Prod.snd).mapM id
      return 123 :: Reading.separated 44 id encoded ++ [125]
  | .foreign, path => .error (units "unsupported JSON value at " ++ path)

def encodeItems : List JsValue → Units → ℕ → List (Except Units Units)
  | [], _, _ => []
  | item :: items, path, index =>
      encode item (path ++ units s!"[{index}]") :: encodeItems items path (index + 1)

def encodeEntries : List (Units × JsValue) → Units → List (Units × Except Units Units)
  | [], _ => []
  | (key, value) :: entries, path =>
      (key, do
        validString key path
        let text ← encode value (path ++ units "." ++ key)
        return stringify key ++ units ":" ++ text) :: encodeEntries entries path

end

/-- `resultToText` -/
def resultToText (value : JsValue) : Except Error Units :=
  (encode lib value (units "$")).mapError .typeError

end Encode

/-- `HEX64` -/
def hex64 (text : String) : Bool := isDigest (units text)

/-- `resultDigestFromText` -/
def resultDigestFromText (lib : Library) (text : Units) : Except Error String :=
  (validString text (units "result_text")).mapError Error.typeError |>.bind fun _ =>
    .ok (lib.sha (utf8Octets (units "pollard/v1:result\n" ++ text)))

/-- `objectPayload` -/
def objectPayload (value : JsValue) : Except Error Unit :=
  match value with
  | .object _ => ((canonicalText value).mapError Error.typeError).map fun _ => ()
  | _ => .error (.typeError (units "payload must be a JSON object"))

/-- `text` -/
def text (value : Option String) (label : String) : Except Error String :=
  match value with
  | some value =>
      if value = "" then .error (.typeError (units s!"{label} must be a nonempty string"))
      else .ok value
  | none => .error (.typeError (units s!"{label} must be a nonempty string"))

/-- The test of `finite` on a number. -/
def isFinite (value : ℚ) (positive : Bool) : Bool :=
  0 ≤ value ∧ value ≤ maxSafeInteger ∧ ¬ (positive ∧ value = 0)

/-- `finite` -/
def finite (value : Option ℚ) (label : String) (positive : Bool) : Except Error ℚ :=
  match value with
  | some value =>
      if isFinite value positive then .ok value
      else .error (.typeError (units s!"{label} must be a finite safe number"))
  | none => .error (.typeError (units s!"{label} must be a finite safe number"))

/-- `object` -/
def object {α : Type} (value : Option α) (label : String) : Except Error α :=
  match value with
  | some value => .ok value
  | none => .error (.integrityError s!"{label} must be an object")

/-- `numericRecord` -/
def numericRecord (value : Option (Dict String (Option ℚ))) (label : String) :
    Except Error (Dict String Decimal) := do
  let value ← object value label
  checkAll (fun e : String × Option ℚ => do
    let _ ← text e.1 "meter"
    let _ ← finite e.2 label false) value.entries
  return value.map fun amount => amount.getD 0

/-! ## Nodes -/

/-- `meta.state === 'pending'` -/
def isPending (metadata : Dict Units JsValue) : Bool :=
  match metadata.get? (units "state") with
  | some (.string state) => state = units "pending"
  | _ => false

/-- `meta.state === 'completed'` -/
def isCompleted (metadata : Dict Units JsValue) : Bool :=
  match metadata.get? (units "state") with
  | some (.string state) => state = units "completed"
  | _ => false

/-- The checks of a stored result, and its value. -/
def storedResult (lib : Library) (record : StorageRecord) : Except Error JsValue :=
  match record.resultText with
  | none => do
      ensure (record.resultDigest = none)
        (.integrityError "result digest has no stored result text")
      return .null
  | some resultText => do
      ensure (record.resultDigest.any hex64 = true) (.integrityError "invalid result storage")
      let digest ← resultDigestFromText lib resultText
      ensure (record.resultDigest = some digest)
        (.integrityError "result digest does not match stored result text")
      lib.parse resultText

/-- `Node.expectedId` -/
def StorageRecord.expectedId (lib : Library) (record : StorageRecord) : Except Error String :=
  (nodeId lib.sha (units record.kind.value) (record.parent.map units) record.attempt
    record.payload).mapError .typeError

/-- `Node.fromStorage` -/
def fromStorage (lib : Library) (record : StorageRecord) : Except Error Node := do
  ensure (hex64 record.id = true)
    (.integrityError "node id must be 64 lowercase hex characters")
  ensure (if record.kind = .root then record.parent = none else record.parent.any hex64 = true)
    (.integrityError "invalid parent")
  (nonnegativeInteger record.attempt (units "attempt")).mapError Error.typeError
  objectPayload record.payload
  let _ ← resultToText lib (.object record.metadata.entries)
  let result ← storedResult lib record
  let expectedId ← record.expectedId lib
  ensure (record.id = expectedId) (.integrityError "node id does not match identity fields")
  return { record with result }

/-- `Node.fromStorage` of an argument. -/
def nodeArgument (lib : Library) (record : Option StorageRecord) : Except Error Node :=
  match record with
  | some record => fromStorage lib record
  | none => .error (.typeError (units "meta must be a JSON object"))

/-- `sameIdentity` -/
def sameIdentity (a b : StorageRecord) : Except Error Bool :=
  if a.id = b.id ∧ a.kind = b.kind ∧ a.parent = b.parent ∧ a.attempt = b.attempt then do
    let left ← (canonicalText a.payload).mapError Error.typeError
    let right ← (canonicalText b.payload).mapError Error.typeError
    return left = right
  else .ok false

/-! ## The checks of a document -/

/-- The test of `decimalAmount` -/
def decimalAmount (amount : Decimal) : Except Error Unit :=
  ensure (0 ≤ amount) (.integrityError "invalid persisted meter amount")

def validateDetail (detail : Detail) : Except Error Unit := do
  let _ ← text detail.scopeId "scope id"
  let _ ← text detail.meter "meter"
  decimalAmount detail.amount
  match detail.kind with
  | .window => do
      let _ ← finite detail.windowSeconds "windowSeconds" true
  | .budget => return

def validateReservation (reservation : RemoteReservation) : Except Error Unit := do
  ensure (hex64 reservation.requestDigest = true)
    (.integrityError "invalid reservation state")
  let _ ← finite reservation.expiresAt "reservation expiry" false
  let _ ← finite reservation.createdAt "reservation creation" false
  checkAll (fun completedAt => (finite (some completedAt) "reservation completion" false).map
    fun _ => ()) reservation.completedAt.toList
  ensure (reservation.chargesDigest.all hex64 = true)
    (.integrityError "invalid settlement digest")
  checkAll validateDetail reservation.details

def validateEvent (event : WindowEvent) : Except Error Unit := do
  let _ ← text event.scopeId "window scope"
  let _ ← text event.meter "window meter"
  decimalAmount event.amount
  let _ ← finite event.settledAt "window settlement time" false
  let _ ← finite event.windowSeconds "window duration" true

def validateNode (lib : Library) (nodes : Dict String StorageRecord)
    (entry : String × StorageRecord) : Except Error Unit := do
  let node ← fromStorage lib entry.2
  ensure (node.id = entry.1) (.integrityError "remote node key differs from its identity")
  ensure (node.parent.all nodes.contains = true)
    (.integrityError "remote node parent is missing")

/-- The test that a node waits for its owner. -/
def awaitsOwner (record : StorageRecord) : Bool :=
  record.resultText.isNone && isPending record.metadata

def validateOwner (nodes : Dict String StorageRecord) (entry : String × String) :
    Except Error Unit := do
  let _ ← text entry.2 "dispatch owner"
  ensure ((nodes.get? entry.1).any awaitsOwner = true)
    (.integrityError "invalid pending dispatch ownership")

/-- `validateState` -/
def validateState (lib : Library) (state : RemoteState) : Except Error Unit := do
  checkAll (validateNode lib state.nodes) state.nodes.entries
  checkAll (validateOwner state.nodes) state.owners.entries
  checkAll decimalAmount state.budget.values
  checkAll validateReservation state.reservations.values
  checkAll validateEvent state.windowEvents.values

/-! ## Reads -/

/-- `getNode` -/
def getNode (lib : Library) (state : RemoteState) (id : Option String) : Except Error Node := do
  let id ← text id "node id"
  match state.nodes.get? id with
  | none => .error (.missingNode id)
  | some stored => fromStorage lib stored

/-- `children` -/
def children (state : RemoteState) (id : String) : List String :=
  ((state.nodes.values.filter fun node => node.parent = some id).insertionSort fun a b =>
    PairLE (a.kind.value, a.id) (b.kind.value, b.id)).map StorageRecord.id

/-- The loop of `walk`, with the ids seen so far; each round sees another node. -/
def walkFrom (lib : Library) (state : RemoteState) :
    ℕ → List String → List String → Except Error (List StorageRecord)
  | _, [], _ => .ok []
  | 0, _ :: _, _ => .error (.integrityError "cycle in remote store traversal")
  | fuel + 1, id :: pending, seen => do
      ensure (id ∉ seen) (.integrityError "cycle in remote store traversal")
      let node ← getNode lib state id
      let nodes ← walkFrom lib state fuel (children state id ++ pending) (id :: seen)
      return node.toStorageRecord :: nodes

/-- `walk` -/
def walk (lib : Library) (state : RemoteState) (rootId : Option String) :
    Except Error (List StorageRecord) := do
  let rootId ← text rootId "root id"
  walkFrom lib state (state.nodes.entries.length + 1) [rootId] []

/-- `String(payload.run ?? '')` -/
def runName (lib : Library) (record : StorageRecord) : Units :=
  match record.payload with
  | .object entries =>
      match Assoc.lookup entries (units "run") with
      | none => []
      | some .null => []
      | some run => lib.string run
  | _ => []

def roots (lib : Library) (state : RemoteState) : List String :=
  ((state.nodes.values.filter fun node => node.parent = none).insertionSort fun a b =>
    codePointCompare (runName lib a) (runName lib b) < 0 ∨
      codePointCompare (runName lib a) (runName lib b) = 0 ∧ a.id ≤ b.id).map StorageRecord.id

/-! ## Writes -/

/-- The object that is kept of a result that lost. -/
def conflictOf (node : Node) : JsValue :=
  .object [(units "result_digest", (node.resultDigest.elim .null fun digest =>
    .string (units digest))), (units "result", node.result)]

/-- `put` -/
def put (lib : Library) (state : RemoteState) (record : Option StorageRecord)
    (owner : Option (Option String)) : Except Error RemoteState := do
  let node ← nodeArgument lib record
  ensure (node.parent.all state.nodes.contains = true) (.missingNode (node.parent.getD ""))
  match state.nodes.get? node.id with
  | some stored => do
      let existing ← fromStorage lib stored
      let same ← sameIdentity existing.toStorageRecord node.toStorageRecord
      ensure (same = true) (.integrityError "remote node id collision")
      if node.resultText.isSome ∧ existing.resultText ≠ node.resultText then do
        let prior := match existing.metadata.get? (units "result_conflicts") with
          | some (.array prior) => prior
          | _ => []
        let conflict ← resultToText lib (conflictOf node)
        let texts ← prior.mapM (resultToText lib)
        let prior := if conflict ∈ texts then prior else prior ++ [conflictOf node]
        return { state with
          nodes := state.nodes.set node.id { stored with
            metadata := stored.metadata.set (units "result_conflicts") (.array prior) } }
      else return state
  | none => do
      let nodes := state.nodes.set node.id node.toStorageRecord
      match owner with
      | some owner =>
          if awaitsOwner node.toStorageRecord then do
            let owner ← text owner "dispatch owner"
            return { state with nodes, owners := state.owners.set node.id owner }
          else return { state with nodes }
      | none => return { state with nodes }

/-- `claim` -/
def claim (lib : Library) (state : RemoteState) (record : Option StorageRecord)
    (owner : Option String) : Except Error (RemoteState × Bool) := do
  let node ← nodeArgument lib record
  let owner ← text owner "dispatch owner"
  ensure (awaitsOwner node.toStorageRecord = true)
    (.integrityError "dispatch claim requires a pending node")
  if state.nodes.contains node.id then return (state, false)
  else do
    let state ← put lib state node.toStorageRecord (some (some owner))
    return (state, true)

/-- `finalize` -/
def finalize (lib : Library) (state : RemoteState) (record : Option StorageRecord)
    (owner : Option String) : Except Error RemoteState := do
  let node ← nodeArgument lib record
  let old ← getNode lib state node.id
  let owner ← text owner "dispatch owner"
  let same ← sameIdentity old.toStorageRecord node.toStorageRecord
  ensure (state.owners.get? node.id = some owner ∧ awaitsOwner old.toStorageRecord = true ∧
      isCompleted node.metadata = true ∧ same = true)
    (.integrityError "only the owner of a pending dispatch can finalize it once")
  return { state with
    nodes := state.nodes.set node.id node.toStorageRecord, owners := state.owners.erase node.id }

/-- `updateMeta` -/
def updateMeta (lib : Library) (state : RemoteState) (id : Option String)
    (patch : Option (Dict Units JsValue)) : Except Error RemoteState := do
  let node ← getNode lib state id
  let patch ← object patch "metadata patch"
  let metadata := patch.entries.foldl (fun merged e => merged.set e.1 e.2) node.metadata
  let nodes := state.nodes.set node.id { node.toStorageRecord with metadata }
  if patch.contains (units "state") ∧ ¬ isPending patch then
    return { state with nodes, owners := state.owners.erase node.id }
  else return { state with nodes }

/-- `dropNodes` -/
def dropNodes (state : RemoteState) (ids : Option (List String)) : Except Error RemoteState :=
  match ids with
  | none => .error (.typeError (units "node ids must be an array of strings"))
  | some ids => do
      ensure (∀ node ∈ state.nodes.values, ¬ (node.id ∉ ids ∧ node.parent.any (· ∈ ids) = true))
        (.integrityError "cannot remove a parent while retaining its children")
      return { state with
        nodes := state.nodes.filter fun e => e.1 ∉ ids
        owners := state.owners.filter fun e => e.1 ∉ ids }

/-! ## The ledgers -/

/-- A budget request as it arrives. -/
structure BudgetRequest where
  scopeId : Option String
  limits : Option (Dict String (Option ℚ))
  baseline : Option (Dict String (Option ℚ))
  estimates : Option (Dict String (Option ℚ))

/-- A window request as it arrives. -/
structure WindowRequest where
  ledgerKey : Option String
  meter : Option String
  limit : Option ℚ
  amount : Option ℚ
  windowSeconds : Option ℚ

/-- The keys that are added to those seen, each only once. -/
def addKeys (label : String) : List LedgerKey → List LedgerKey → Except Error (List LedgerKey)
  | [], keys => .ok keys
  | key :: rest, keys =>
      if key ∈ keys then .error (.typeError (units s!"duplicate {label} scope and meter"))
      else addKeys label rest (key :: keys)

def validateBudgets : List (Option BudgetRequest) → List LedgerKey →
    Except Error (List BudgetReservation)
  | [], _ => .ok []
  | request :: requests, keys => do
      let request ← object request "budget request"
      let scopeId ← text request.scopeId "scopeId"
      let limits ← numericRecord request.limits "budget limits"
      let baseline ← numericRecord request.baseline "budget baseline"
      let estimates ← numericRecord request.estimates "budget estimates"
      let keys ← addKeys "budget" (limits.keys.map fun meter => (scopeId, meter)) keys
      let rest ← validateBudgets requests keys
      return ⟨scopeId, limits, baseline, estimates⟩ :: rest

def validateWindows : List (Option WindowRequest) → List LedgerKey →
    Except Error (List WindowReservation)
  | [], _ => .ok []
  | request :: requests, keys => do
      let request ← object request "window request"
      let ledgerKey ← text request.ledgerKey "ledgerKey"
      let meter ← text request.meter "meter"
      let limit ← finite request.limit "window limit" false
      let amount ← finite request.amount "window amount" false
      let windowSeconds ← finite request.windowSeconds "windowSeconds" true
      let keys ← addKeys "window" [(ledgerKey, meter)] keys
      let rest ← validateWindows requests keys
      return ⟨ledgerKey, meter, limit, amount, windowSeconds⟩ :: rest

/-- A request that was validated. -/
structure Validated where
  budgets : List BudgetReservation
  windows : List WindowReservation
  leaseSeconds : ℚ

/-- `validateRequests` -/
def validateRequests (budgets : Option (List (Option BudgetRequest)))
    (windows : Option (List (Option WindowRequest))) (leaseSeconds : Option ℚ) :
    Except Error Validated :=
  match budgets, windows with
  | some budgets, some windows => do
      let leaseSeconds ← finite leaseSeconds "leaseSeconds" true
      let budgets ← validateBudgets budgets []
      let windows ← validateWindows windows []
      return ⟨budgets, windows, leaseSeconds⟩
  | _, _ => .error (.typeError (units "reservation requests must be arrays"))

/-- The requests in the order they are reserved in. -/
def Validated.sorted (request : Validated) : Validated where
  budgets := request.budgets.insertionSort fun a b => a.scopeId ≤ b.scopeId
  windows := request.windows.insertionSort fun a b => a.ledgerKey ≤ b.ledgerKey
  leaseSeconds := request.leaseSeconds

/-- The reservations that still hold capacity. -/
def active (state : RemoteState) (now : Instant) : List RemoteReservation :=
  state.reservations.values.filter fun record => record.state = .active ∧ record.expiresAt > now

/-- `activeAmount` -/
def activeAmount (active : List RemoteReservation) (kind : DetailKind) (scope meter : String) :
    Decimal :=
  (((active.flatMap RemoteReservation.details).filter fun detail =>
    detail.kind = kind ∧ detail.scopeId = scope ∧ detail.meter = meter).map Detail.amount).sum

/-- The meters of the budget requests, in the order of the loops over them. -/
def meterRows (budgets : List BudgetReservation) : List BudgetRow :=
  budgets.flatMap fun request =>
    ((request.limits.entries.insertionSort fun a b => a.1 ≤ b.1).filter fun e =>
      e.1 ≠ "depth").map fun e => ⟨request, e.1, e.2⟩

/-- The loops over the budgets, up to the first meter that has no room. -/
def reserveBudgets (active : List RemoteReservation) :
    List BudgetRow → Dict LedgerKey Decimal → Option ReservationCheck × Dict LedgerKey Decimal
  | [], budget => (none, budget)
  | row :: rows, budget =>
      let settled := (budget.get? row.key).getD 0
      let settled := if row.baseline > settled then row.baseline else settled
      let budget := budget.set row.key settled
      let remaining := row.limit - settled -
        activeAmount active .budget row.request.scopeId row.meter
      if row.amount > remaining then
        (some { ok := false, meter := row.meter, requested := row.amount, remaining }, budget)
      else reserveBudgets active rows budget

/-- The loop over the windows, up to the first that has no room. -/
def reserveWindows (active : List RemoteReservation) (events : List WindowEvent)
    (now : Instant) : List WindowReservation → Option ReservationCheck
  | [] => none
  | request :: requests =>
      let settled := ((events.filter fun event => event.scopeId = request.ledgerKey ∧
        event.meter = request.meter ∧ event.settledAt > now - request.windowSeconds).map
          WindowEvent.amount).sum
      let remaining := request.limit - settled -
        activeAmount active .window request.ledgerKey request.meter
      if request.amount > remaining then
        some
          { ok := false, reason := "window", meter := request.meter, requested := request.amount,
            remaining, windowSeconds := request.windowSeconds }
      else reserveWindows active events now requests

/-- `reserve` of an id that has a record. -/
def retry (id requestDigest : String) (now : Instant) (existing : RemoteReservation) :
    Except Error ReservationCheck := do
  ensure (existing.requestDigest = requestDigest)
    (.integrityError s!"reservation retry changed request: {id}")
  ensure (existing.state = .active)
    (.integrityError s!"reservation is already {existing.state.text}: {id}")
  ensure (now < existing.expiresAt) (.integrityError s!"reservation expired before retry: {id}")
  return { ok := true }

/-- `reserve` of an id that has none. -/
def grant (state : RemoteState) (id requestDigest : String) (request : Validated)
    (now : Instant) : ReservationCheck × RemoteState :=
  let holding := active state now
  let rows := meterRows request.budgets
  match reserveBudgets holding rows state.budget with
  | (some refused, budget) => (refused, { state with budget })
  | (none, budget) =>
      let windowEvents := pruneEvents state.windowEvents now
      match reserveWindows holding windowEvents.values now request.windows with
      | some refused => (refused, { state with budget, windowEvents })
      | none =>
          let record : RemoteReservation :=
            { requestDigest
              state := .active
              expiresAt := now + request.leaseSeconds
              createdAt := now
              completedAt := none
              chargesDigest := none
              details := rows.map budgetDetail ++ request.windows.map windowDetail }
          ({ ok := true }, { state with
            budget, windowEvents, reservations := state.reservations.set id record })

/-- `reserve` -/
def reserve (lib : Library) (state : RemoteState) (id : Option String)
    (budgets : Option (List (Option BudgetRequest)))
    (windows : Option (List (Option WindowRequest))) (leaseSeconds : Option ℚ) (now : Instant) :
    Except Error (ReservationCheck × RemoteState) := do
  let id ← text id "reservation id"
  let request ← validateRequests budgets windows leaseSeconds
  let request := request.sorted
  let requestDigest := lib.requestDigest request.budgets request.windows request.leaseSeconds
  match state.reservations.get? id with
  | some existing => do
      let check ← retry id requestDigest now existing
      return (check, state)
  | none => return grant state id requestDigest request now

/-- A detail of a settlement. -/
def settleDetail (id : String) (charges : Dict String Decimal) (now : Instant) (index : ℕ)
    (detail : Detail) (state : RemoteState) : Except Error RemoteState :=
  let actual := charges.getD detail.meter 0
  match detail.kind with
  | .budget =>
      match state.budget.get? (detail.scopeId, detail.meter) with
      | none => .error (.integrityError "budget state missing during settlement")
      | some prior =>
          .ok { state with
            budget := state.budget.set (detail.scopeId, detail.meter) (prior + actual) }
  | .window =>
      if actual = 0 then .ok state
      else
        -- A window detail has its length: the document was validated.
        .ok { state with
          windowEvents := state.windowEvents.set (id, index)
            ⟨detail.scopeId, detail.meter, actual, now, detail.windowSeconds.getD 0⟩ }

def settleDetails (id : String) (charges : Dict String Decimal) (now : Instant) :
    ℕ → List Detail → RemoteState → Except Error RemoteState
  | _, [], state => .ok state
  | index, detail :: details, state =>
      (settleDetail id charges now index detail state).bind
        (settleDetails id charges now (index + 1) details)

/-- `settle` -/
def settle (lib : Library) (state : RemoteState) (id : Option String)
    (charges : Option (Dict String (Option ℚ))) (now : Instant) : Except Error RemoteState := do
  let id ← text id "reservation id"
  let charges ← numericRecord charges "charges"
  match state.reservations.get? id with
  | none => .error (.integrityError s!"unknown reservation: {id}")
  | some current =>
      match current.state with
      | .settled => do
          ensure (current.chargesDigest = some (lib.chargesDigest charges))
            (.integrityError s!"reservation retry used different charges: {id}")
          return state
      | .released => .error (.integrityError s!"reservation is already released: {id}")
      | .active => do
          let state ← settleDetails id charges now 0 current.details state
          return { state with
            reservations := state.reservations.set id
              { current with
                state := .settled
                chargesDigest := some (lib.chargesDigest charges)
                completedAt := some now } }

/-- `pollardRelease` -/
def release (state : RemoteState) (id : Option String) (now : Instant) :
    Except Error RemoteState := do
  let id ← text id "reservation id"
  match state.reservations.get? id with
  | none => return state
  | some reservation =>
      match reservation.state with
      | .released => return state
      | .settled => .error (.integrityError s!"reservation is already settled: {id}")
      | .active =>
          return { state with
            reservations := state.reservations.set id
              { reservation with state := .released, completedAt := some now } }

/-- `pollardRenew` -/
def renew (state : RemoteState) (id : Option String) (leaseSeconds : Option ℚ) (now : Instant) :
    Except Error (Bool × RemoteState) := do
  let id ← text id "reservation id"
  let leaseSeconds ← finite leaseSeconds "leaseSeconds" true
  match state.reservations.get? id with
  | none => return (false, state)
  | some reservation =>
      if reservation.state = .active ∧ reservation.expiresAt > now then
        return (true, { state with
          reservations := state.reservations.set id
            { reservation with expiresAt := now + leaseSeconds } })
      else return (false, state)

/-! ## Operations -/

/-- The methods, with their arguments, but `commitBatch`. -/
inductive Operation where
  | snapshot
  | get (id : Option String)
  | exists_ (id : Option String)
  | children (id : Option String)
  | walk (rootId : Option String)
  | roots
  | put (record : Option StorageRecord) (owner : Option (Option String))
  | claim (record : Option StorageRecord) (owner : Option String)
  | finalize (record : Option StorageRecord) (owner : Option String)
  | updateMeta (id : Option String) (patch : Option (Dict Units JsValue))
  | pollardReserve (id : Option String) (budgets : Option (List (Option BudgetRequest)))
      (windows : Option (List (Option WindowRequest))) (leaseSeconds : Option ℚ)
  | pollardSettle (id : Option String) (charges : Option (Dict String (Option ℚ)))
  | pollardRelease (id : Option String)
  | pollardRenew (id : Option String) (leaseSeconds : Option ℚ)
  | dropNodes (ids : Option (List String))
  | compact

inductive Reply where
  | done
  | snapshot (state : RemoteState)
  | node (record : StorageRecord)
  | nodes (records : List StorageRecord)
  | ids (ids : List String)
  | flag (value : Bool)
  | check (check : ReservationCheck)
  | count (n : ℕ)
  | batch (replies : List Reply)

/-- `isRemoteMutation` -/
def Operation.isMutation : Operation → Bool
  | .snapshot | .get _ | .exists_ _ | .children _ | .walk _ | .roots => false
  | _ => true

/-- The methods a batch may hold. -/
def Operation.isOffline : Operation → Bool
  | .put .. | .updateMeta .. | .dropNodes _ | .compact => true
  | _ => false

/-- The cases of the method. -/
def perform (lib : Library) (now : Instant) (state : RemoteState) :
    Operation → Except Error (RemoteState × Reply)
  | .snapshot => .ok (state, .snapshot state)
  | .get id => (getNode lib state id).map fun node => (state, .node node.toStorageRecord)
  | .exists_ id => (text id "node id").map fun id => (state, .flag (state.nodes.contains id))
  | .children id => (text id "node id").map fun id => (state, .ids (children state id))
  | .walk rootId => (walk lib state rootId).map fun nodes => (state, .nodes nodes)
  | .roots => .ok (state, .ids (roots lib state))
  | .put record owner => (put lib state record owner).map fun state => (state, .done)
  | .claim record owner => (claim lib state record owner).map fun r => (r.1, .flag r.2)
  | .finalize record owner => (finalize lib state record owner).map fun state => (state, .done)
  | .updateMeta id patch => (updateMeta lib state id patch).map fun state => (state, .done)
  | .pollardReserve id budgets windows leaseSeconds =>
      (reserve lib state id budgets windows leaseSeconds now).map fun r => (r.2, .check r.1)
  | .pollardSettle id charges => (settle lib state id charges now).map fun state => (state, .done)
  | .pollardRelease id => (release state id now).map fun state => (state, .done)
  | .pollardRenew id leaseSeconds =>
      (renew state id leaseSeconds now).map fun r => (r.2, .flag r.1)
  | .dropNodes ids => (dropNodes state ids).map fun state => (state, .done)
  | .compact => .ok ({ state with windowEvents := pruneEvents state.windowEvents now }, .count 0)

/-- `applyRemoteOperation` of a method but `commitBatch`. -/
def applyOperation (lib : Library) (state : RemoteState) (operation : Operation)
    (now : Instant) : Except Error (RemoteState × Reply) := do
  let now ← finite now "backend time" false
  validateState lib state
  let applied ← perform lib now state operation
  if operation.isMutation then validateState lib applied.1
  return applied

/-- The loop of `commitBatch` -/
def applyBatch (lib : Library) (now : Instant) :
    List (Option Operation) → RemoteState → Except Error (RemoteState × List Reply)
  | [], state => .ok (state, [])
  | none :: _, _ =>
      .error (.typeError (units "remote transactions accept only offline store mutations"))
  | some operation :: operations, state => do
      ensure (operation.isOffline = true)
        (.typeError (units "remote transactions accept only offline store mutations"))
      let applied ← applyOperation lib state operation now
      let rest ← applyBatch lib now operations applied.1
      return (rest.1, applied.2 :: rest.2)

/-- A call of `applyRemoteOperation`.  An operation of a batch is `none` where it has no method
and arguments. -/
inductive Call where
  | operation (operation : Operation)
  | commitBatch (digest : Option String) (operations : Option (List (Option Operation)))
  | unsupported (method : String)

/-- `applyRemoteOperation` -/
def applyRemoteOperation (lib : Library) (state : RemoteState) (call : Call) (now : Instant) :
    Except Error (RemoteState × Reply) :=
  match call with
  | .operation operation => applyOperation lib state operation now
  | .commitBatch digest operations => do
      let now ← finite now "backend time" false
      validateState lib state
      ensure (digest = some (lib.stateDigest state))
        (.integrityError "remote transaction snapshot changed before commit")
      match operations with
      | none =>
          .error (.typeError (units "remote transaction operations must be an array"))
      | some operations => do
          let applied ← applyBatch lib now operations state
          validateState lib applied.1
          return (applied.1, .batch applied.2)
  | .unsupported method =>
      .error (.typeError (units s!"unsupported remote store method: {method}"))

end Pollard.Npm.Remote
