import Pollard.Rust.MeterCharges
import Pollard.Rust.RecordingStores

/-!
# The cache of a runtime in Rust

`RuntimeIndex` keeps what a runtime has read of the ancestry, the charges and the totals of a
recording, and the revision of the store it was read at.  Others may commit to the store before
any access of the runtime.
-/

namespace Pollard.Rust

open Lib Fallible Effect

/-! ## The index -/

/-- `RuntimeIndex`: `ancestry` holds the parent, the root and the depth of a node. -/
structure RuntimeIndex where
  revision : Option StoreRevision
  verified : List String
  ancestry : Dict String (Option String × String × ℕ)
  charges : Dict String MeterCharges
  totals : Dict String MeterCharges

namespace RuntimeIndex

/-- An index of a revision that nothing is known of. -/
def fresh (revision : Option StoreRevision) : RuntimeIndex := ⟨revision, [], ∅, ∅, ∅⟩

/-- The ancestry of a node whose parent's is known. -/
def place (index : RuntimeIndex) (node : Node) : Option (Option String × String × ℕ) :=
  match node.parent with
  | none => some (none, node.id, 0)
  | some parent =>
      (index.ancestry.get? parent).map fun above => (some parent, above.2.1, above.2.2 + 1)

/-- The ancestry with that of a node whose parent's is known. -/
def locate (index : RuntimeIndex) (node : Node) : RuntimeIndex :=
  match index.place node with
  | some info => { index with ancestry := index.ancestry.set node.id info }
  | none => index

/-- The loop of `descends`: the depths fall on the way up, so it takes no more rounds than the
depth it starts at. -/
def reaches (index : RuntimeIndex) (anchor : String) : ℕ → String → Bool
  | 0, id => id = anchor
  | fuel + 1, id =>
      if id = anchor then true
      else
        match index.ancestry.get? id with
        | some (some parent, _, _) => index.reaches anchor fuel parent
        | _ => false

/-- `descends` -/
def descends (index : RuntimeIndex) (id anchor : String) : Bool :=
  match index.ancestry.get? id with
  | none => false
  | some (_, root, depth) => root = anchor || index.reaches anchor depth id

section Floats

variable (floats : Floats)

/-- `remember` -/
def remember (node : Node) : EStateM Error RuntimeIndex Unit := do
  modify fun index => index.locate node
  let charges ← orRaise (meterChargesFromMeta floats node.metadata)
  modify fun index => { index with charges := index.charges.set node.id charges }

/-- What `verified` remembers of a node. -/
def rememberVerified (node : Node) : EStateM Error RuntimeIndex Unit := do
  remember floats node
  if node.state ≠ some "pending" then
    modify fun index => { index with verified := node.id :: index.verified }

/-- A total that is cached. -/
def onTotal (anchor : String) (x : EStateM Error MeterCharges Unit) :
    EStateM Error RuntimeIndex Unit :=
  focus (fun index => index.totals.getD anchor ∅)
    (fun total index => { index with totals := index.totals.set anchor total }) x

/-- What `refresh_index` does to the index once it has read the node. -/
def refresh (id : String) (node : Node) (after : StoreRevision) :
    EStateM Error RuntimeIndex Unit := do
  let old := (← get).charges.getD id ∅
  remember floats node
  let index ← get
  let new := index.charges.getD id ∅
  (index.totals.keys.filter fun anchor => index.descends id anchor).forM fun anchor =>
    onTotal anchor (replaceAmounts floats old new)
  if node.state = some "pending" then
    modify fun index => { index with verified := index.verified.filter fun other => other ≠ id }
  modify fun index => { index with revision := some after }

end Floats

end RuntimeIndex

/-! ## The runtime -/

/-- A store with its index, what others commit before the next accesses, and the states that the
accesses found and left. -/
structure SharedStore {State : Type} (S : RecordingStore State) where
  store : State
  index : RuntimeIndex
  commits : List (List S.Commit)
  past : List State

namespace SharedStore

variable {State : Type} {S : RecordingStore State}

/-- `SharedStore::new` -/
def new (S : RecordingStore State) (store : State) (commits : List (List S.Commit)) :
    SharedStore S :=
  ⟨store, .fresh none, commits, [store]⟩

/-- One access to the store, after what others have committed. -/
def access {α : Type} (f : State → α × State) : EStateM Error (SharedStore S) α := fun cell =>
  let found := (cell.commits.headD []).foldl (fun s c => S.commit c s) cell.store
  let answer := f found
  .ok answer.1 { cell with
    store := answer.2
    commits := cell.commits.tail
    past := answer.2 :: found :: cell.past }

def read {α : Type} (f : State → α) : EStateM Error (SharedStore S) α := access fun s => (f s, s)

/-- A read that may fail. -/
def tryRead {α : Type} (f : State → Except Error α) : EStateM Error (SharedStore S) α := do
  orRaise (← read f)

/-- Work on the index alone. -/
def onIndex {α : Type} (x : EStateM Error RuntimeIndex α) : EStateM Error (SharedStore S) α :=
  focus SharedStore.index (fun index cell => { cell with index }) x

/-- `synchronize_index` -/
def synchronizeIndex : EStateM Error (SharedStore S) Bool := do
  let revision ← read S.cacheRevision
  onIndex do
    if (← get).revision ≠ revision ∨ revision = none then
      set (RuntimeIndex.fresh revision)
    return revision.isSome

section Runtime

variable (lib : Library) (floats : Floats) (fuel : ℕ)

/-! ### Writes -/

/-- `refresh_index` -/
def refreshIndex (id : String) (before : StoreRevision) : EStateM Error (SharedStore S) Unit := do
  match ← read S.cacheRevision with
  | none => discard synchronizeIndex
  | some after =>
      if after.external ≠ before.external then
        discard synchronizeIndex
      else do
        let node ← tryRead fun s => S.get s id
        if (← read S.cacheRevision) ≠ some after then
          discard synchronizeIndex
        else
          onIndex (RuntimeIndex.refresh floats id node after)

/-- A mutation of one node, and what the index keeps of it. -/
def mutate (w : NodeWrite) : EStateM Error (SharedStore S) Unit := do
  let trusted ← synchronizeIndex
  let before := (← get).index.revision
  orRaise (← access (S.write w))
  match before with
  | some before => if trusted then refreshIndex floats w.id before
  | none => pure ()

/-- `write_node` -/
def writeNode (node : HeldNode) (finalize : Bool) : EStateM Error (SharedStore S) Unit :=
  mutate floats (
    if finalize then .finalize node
    else if node.1.state = some "pending" then .stagePending node
    else .put node)

/-- `update_meta` -/
def updateMeta (id : String) (patch : HeldJson) : EStateM Error (SharedStore S) Unit :=
  mutate floats (.updateMeta id patch)

/-- What `discard_pending` removes. -/
def discardPending (id : String) : EStateM Error (SharedStore S) Unit := do
  match ← access (S.dropNodes [id]) with
  | .ok _ => discard synchronizeIndex
  | .error _ => pure ()

/-! ### Verification -/

/-- The findings of `verify`. -/
def findings : ℕ → String → List String → EStateM Error (SharedStore S) (List (String × String))
  | 0, id, _ => throw (.notFound id)
  | fuel + 1, id, seen => do
      if id ∈ seen then
        return [(id, "cycle detected in ancestry")]
      match ← read fun s => S.get s id with
      | .error error => return [(id, error.text)]
      | .ok node => do
          let key := if node.id = id then [] else [(id, "lookup key differs from node id")]
          let valid :=
            match node.validate lib with
            | .ok _ => []
            | .error error => [(id, error.text)]
          match node.parent with
          | none => return key ++ valid
          | some parent => return key ++ valid ++ (← findings fuel parent (id :: seen))

/-- `verified` without a cache. -/
def verifiedAnew (id : String) : EStateM Error (SharedStore S) Node := do
  let found ← findings lib fuel id []
  if found = [] then
    tryRead fun s => S.get s id
  else
    throw (.integrity ("; ".intercalate (found.map fun f => f.1 ++ ": " ++ f.2)))

/-- The nodes that `verified` reads, from the requested one up to a root or a verified one. -/
def unverified (id : String) : ℕ → String → List String → EStateM Error (SharedStore S) (List Node)
  | 0, next, _ => throw (.notFound next)
  | fuel + 1, next, seen => do
      orRaise (ensure (next ∉ seen) (.integrity "cycle in ancestry"))
      if next ≠ id ∧ next ∈ (← get).index.verified then
        return []
      let node ← tryRead fun s => S.get s next
      orRaise (ensure (node.id = next) (.integrity "lookup key differs from node id"))
      orRaise (node.validate lib)
      match node.parent with
      | none => return [node]
      | some parent => return node :: (← unverified id fuel parent (next :: seen))

/-- `verified` with a cache; none if the store has changed meanwhile. -/
def verifiedOnce (id : String) : EStateM Error (SharedStore S) (Option Node) := do
  let revision := (← get).index.revision
  let nodes ← unverified lib id fuel id []
  if (← read S.cacheRevision) ≠ revision then
    discard synchronizeIndex
    return none
  else
    onIndex (nodes.reverse.forM (RuntimeIndex.rememberVerified floats))
    return nodes.head?

/-- One round of `verified`. -/
def verifiedRound (id : String) : EStateM Error (SharedStore S) (Option Node) := do
  if ← synchronizeIndex then
    verifiedOnce lib floats fuel id
  else
    return some (← verifiedAnew lib fuel id)

/-- Up to so many rounds, until one has a result. -/
def rounds {α : Type} (round : EStateM Error (SharedStore S) (Option α)) :
    ℕ → EStateM Error (SharedStore S) (Option α)
  | 0 => return none
  | n + 1 => do
      match ← round with
      | some result => return some result
      | none => rounds round n

/-- What the runtime checks of a snapshot of the ancestry. -/
def checkAncestry : Option String → List String → List Node → Except Error Unit
  | expected, _, [] => ensure (expected = none) (.integrity "incomplete ancestry snapshot")
  | expected, seen, node :: nodes => do
      ensure (expected = some node.id ∧ node.id ∉ seen) (.integrity "invalid ancestry snapshot")
      node.validate lib
      checkAncestry node.parent (node.id :: seen) nodes

/-- `ancestry_snapshot` of the runtime -/
def ancestrySnapshot (id : String) : EStateM Error (SharedStore S) (Option (List Node)) := do
  match ← tryRead fun s => S.ancestrySnapshot s id with
  | none => return none
  | some nodes => do
      orRaise (checkAncestry lib (some id) [] nodes)
      return some nodes

/-- `verified` -/
def verified (id : String) : EStateM Error (SharedStore S) Node := do
  match ← rounds (verifiedRound lib floats fuel id) 3 with
  | some node => return node
  | none => do
      onIndex (set (RuntimeIndex.fresh none))
      match ← ancestrySnapshot lib id with
      | some (node :: _) => return node
      | _ => throw (.integrity "recording changed repeatedly during verification")

/-! ### Totals -/

/-- `walk` on a store that others commit to. -/
def walkNodes : ℕ → List String → List String → EStateM Error (SharedStore S) (List Node)
  | _, [], _ => return []
  | 0, id :: _, _ => throw (.notFound id)
  | fuel + 1, id :: pending, seen => do
      orRaise (ensure (id ∉ seen) (.integrity "cycle or duplicate in store traversal"))
      let node ← tryRead fun s => S.get s id
      let children ← read fun s => S.children s id
      return node :: (← walkNodes fuel (children ++ pending) (id :: seen))

/-- The total of a subtree as its nodes are read; none if the store has changed meanwhile. -/
def walkTotal (anchor : String) (trusted : Bool) :
    EStateM Error (SharedStore S) (Option MeterCharges) := do
  let revision := (← get).index.revision
  let nodes ← walkNodes fuel [anchor] []
  let total ← orRaise (totalCharges floats (Node.validate lib) nodes)
  if trusted then
    if (← read S.cacheRevision) ≠ revision then
      discard synchronizeIndex
      return none
    else
      onIndex do
        nodes.forM (RuntimeIndex.remember floats)
        modify fun index => { index with totals := index.totals.set anchor total }
      return some total
  else
    return some total

/-- One round of `meter_accounting`. -/
def accountingRound (anchor : String) : EStateM Error (SharedStore S) (Option MeterCharges) := do
  if ← synchronizeIndex then
    match (← get).index.totals.get? anchor with
    | some total => return some total
    | none => do
        discard (verified lib floats fuel anchor)
        walkTotal lib floats fuel anchor true
  else
    walkTotal lib floats fuel anchor false

/-- The total of a snapshot of a subtree. -/
def snapshotTotal (anchor : String) : List String → List Node → EStateM Error MeterCharges Unit
  | seen, [] =>
      orRaise (ensure (seen ≠ []) (.integrity "incomplete subtree snapshot"))
  | seen, node :: nodes => do
      orRaise (ensure ((if seen = [] then node.id = anchor else node.parent.any (· ∈ seen)) ∧
        node.id ∉ seen) (.integrity "invalid subtree snapshot"))
      orRaise (node.validate lib)
      addAmounts floats (← orRaise (meterChargesFromMeta floats node.metadata))
      snapshotTotal anchor (node.id :: seen) nodes

/-- `meter_accounting` -/
def meterAccounting (anchor : String) : EStateM Error (SharedStore S) MeterCharges := do
  match ← rounds (accountingRound lib floats fuel anchor) 3 with
  | some total => return total
  | none => do
      onIndex (set (RuntimeIndex.fresh none))
      match ← tryRead fun s => S.subtreeSnapshot s anchor with
      | some nodes => orRaise (outcome (do snapshotTotal lib floats anchor [] nodes; get) ∅)
      | none => throw (.integrity "recording changed repeatedly during accounting")

/-! ### Depths -/

/-- `depth_at` without a cache or a snapshot. -/
def countDepth : ℕ → String → List String → EStateM Error (SharedStore S) ℕ
  | 0, id, _ => throw (.notFound id)
  | fuel + 1, id, seen => do
      orRaise (ensure (id ∉ seen) (.integrity "cycle in ancestry"))
      let node ← tryRead fun s => S.get s id
      match node.parent with
      | none => return 0
      | some parent => return (← countDepth fuel parent (id :: seen)) + 1

def readDepth (id : String) : EStateM Error (SharedStore S) ℕ := do
  match ← ancestrySnapshot lib id with
  | some nodes => return nodes.length - 1
  | none => countDepth fuel id []

/-- `depth_at` -/
def depthAt (id : String) : EStateM Error (SharedStore S) ℕ := do
  if ← synchronizeIndex then
    discard (verified lib floats fuel id)
    match (← get).index.ancestry.get? id with
    | some (_, _, depth) => return depth
    | none => readDepth lib fuel id
  else
    readDepth lib fuel id

/-! ### Runs -/

/-- `is_ancestor` -/
def isAncestor (target : String) : ℕ → String → List String → EStateM Error (SharedStore S) Bool
  | 0, id, _ => throw (.notFound id)
  | fuel + 1, id, seen => do
      orRaise (ensure (id ∉ seen) (.integrity "cycle in ancestry"))
      if id = target then
        return true
      match (← tryRead fun s => S.get s id).parent with
      | none => return false
      | some parent => isAncestor target fuel parent (id :: seen)

/-- `rollback` of a run whose cursor is at the id. -/
def rollback (cursor target : String) : EStateM Error (SharedStore S) Node := do
  orRaise (ensure (← isAncestor target fuel cursor [])
    (.invalid "rollback target must be an ancestor"))
  tryRead fun s => S.get s target

/-- What runtimes do with a store. -/
inductive Call where
  | writeNode (node : HeldNode) (finalize : Bool)
  | updateMeta (id : String) (patch : HeldJson)
  | discardPending (id : String)
  | reserve
  | verified (id : String)
  | meterAccounting (anchor : String)
  | depthAt (id : String)
  | rollback (cursor target : String)
  /-- `SharedStore::new` on a store that has been used. -/
  | reopen

def perform : Call → EStateM Error (SharedStore S) Unit
  | .writeNode node finalize => writeNode floats node finalize
  | .updateMeta id patch => updateMeta floats id patch
  | .discardPending id => discardPending id
  | .reserve => access fun s => ((), S.reserve s)
  | .verified id => discard (verified lib floats fuel id)
  | .meterAccounting anchor => discard (meterAccounting lib floats fuel anchor)
  | .depthAt id => discard (depthAt lib floats fuel id)
  | .rollback cursor target => discard (rollback fuel cursor target)
  | .reopen => onIndex (set (RuntimeIndex.fresh none))

/-- A run of calls, each of which returns or raises. -/
def run (cell : SharedStore S) (calls : List Call) : SharedStore S :=
  calls.foldl (fun cell call => after (perform lib floats fuel call) cell) cell

end Runtime

end SharedStore

/-! ## Budgets -/

/-- The checks of `precheck` against one budget: the meter whose limit is exceeded, if one is. -/
def exceededMeter (floats : Floats) (spent estimates : MeterCharges) (nextDepth : ℕ) :
    List (String × ℚ) → Except Error (Option String)
  | [] => return none
  | (meter, limit) :: budget => do
      let already := if meter = "depth" then 0 else spent.getD meter 0
      let requested := if meter = "depth" then (nextDepth : ℚ) else estimates.getD meter 0
      if ← exceedsLimit floats limit already requested then
        return some meter
      exceededMeter floats spent estimates nextDepth budget

end Pollard.Rust
