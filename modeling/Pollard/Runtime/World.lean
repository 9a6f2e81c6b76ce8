import Pollard.Runtime.Tools
import Pollard.Lib.Machine

/-!
# Runs of one store

The operations of a `Run`, and the runs a runtime opens on its store.  Any run may
move next; a run that was branched off goes on with copies of its parent's scopes.
-/

namespace Pollard

open Lib Effect

section Runtime

variable (H : Hashing) (rt : Runtime)

/-! ## Operations of a run -/

/-- `Run.note` -/
def note (env : CallEnv) (payload : Value) (attempt : ℤ) : RunM Node := do
  let s ← get
  let node ← orRaise (Node.make H .note (some s.run.cursorId) payload attempt none
    (createdAt env))
  if rt.mode = .replay then pure ()
  else
    let _ ← precheck H rt env .note payload
  record H rt node

def branchPayload : Value := .dict [("branch", .bool true)]

/-- The run that goes on at a branch's anchor. -/
def Run.child (run : Run) (anchorId : String) (budget : Option Budget) : Run :=
  { rootId := run.rootId
    cursorId := anchorId
    label := run.label
    budgetScopes := run.budgetScopes ++ budget.toList.map fun budget => ⟨budget, anchorId, []⟩ }

/-- `Run.branch` -/
def branch (env : CallEnv) (attempt : ℤ) (budget : Option Budget) : RunM Run := do
  let s ← get
  let anchor ← orRaise (Node.make H .note (some s.run.cursorId) branchPayload attempt none
    (createdAt env))
  if rt.mode = .replay then pure ()
  else
    let _ ← precheck H rt env .note branchPayload
  let anchor ← onStore (putNode H rt anchor)
  let s ← get
  return s.run.child anchor.id budget

/-- The node some steps above another, or the root. -/
def climb (store : MemoryStore) : ℕ → String → Except PyError String
  | 0, target => .ok target
  | steps + 1, target => do
      let node ← store.get target
      match node.parent with
      | none => return target
      | some parent => climb store steps parent

/-- `_ensure_ancestor` -/
def ensureAncestor (nodeId : String) : RunM Unit := do
  let s ← get
  if nodeId ∈ s.store.ancestors s.run.cursorId then pure ()
  else throw (.valueError s!"{nodeId} is not an ancestor of the cursor")

/-- `Run.rollback` -/
def rollback (nodeId : Option String) (steps : ℕ) : RunM Node := do
  let s ← get
  let target ← match nodeId with
    | some target => pure target
    | none => orRaise (climb s.store steps s.run.cursorId)
  ensureAncestor target
  setCursor target
  orRaise (s.store.get target)

/-- `Run.prune` -/
def prune : RunM Unit := do
  if rt.mode = .replay then throw (.runtimeError "replay mode is read-only")
  else
    let s ← get
    let store ← orRaise
      (s.store.updateMeta s.run.cursorId (.ofList [("pruned", .bool true)]))
    onStore (set store)

/-! ## Opening a run -/

/-- `_bind_registry` -/
def bindRegistry (rootId : String) : StoreM Unit :=
  match rt.registry with
  | none => pure ()
  | some registry => do
      let store ← get
      let root ← orRaise (store.get rootId)
      match (root.metadata.get? "registry_digest").filter fun digest => digest ≠ .none with
      | some existing =>
          if existing = .str registry.registryDigest then pure ()
          else throw (.integrityError "run root is already bound to a different registry")
      | none =>
          if rt.mode = .replay then
            throw (.integrityError "replay run root is not bound to the current registry")
          else
            let store ← orRaise (store.updateMeta rootId
              (.ofList [("registry_digest", .str registry.registryDigest)]))
            set store

/-- `_run_scopes` -/
def runScopes (rootId : String) (budget : Option Budget) : StoreM (List BudgetScope) := do
  validateSharedConfiguration H rt
  return (rt.sharedBudgets.map fun scope => ⟨scope.budget, scope.scopeId H, []⟩) ++
    budget.toList.map fun budget => ⟨budget, rootId, []⟩

/-- The root of the run of a label. -/
def rootNode (label : String) (attempt : ℤ) : Except PyError Node :=
  Node.make H .root none (.dict [("run", .str label)]) attempt

/-- The root as it is stored, written before if need be. -/
def storedRoot (writes : Bool) (root : Node) : StoreM Node := do
  if writes then putNode H rt root
  else
    let store ← get
    orRaise (store.get root.id)

/-- `Runtime.run` -/
def Runtime.run (label : String) (budget : Option Budget) (attempt : ℤ) : StoreM Run := do
  let root ← orRaise (rootNode H label attempt)
  let store ← get
  let root ← storedRoot H rt (rt.mode = .replay ∨ store.contains root.id = false) root
  bindRegistry rt root.id
  let budgetScopes ← runScopes H rt root.id budget
  return { rootId := root.id, cursorId := root.id, label, budgetScopes }

/-- `node.meta.get("pruned") is True` -/
def Node.pruned (node : Node) : Bool := node.metadata.get? "pruned" = some (.bool true)

/-- The better of the best leaf so far and a node. -/
def deeperLeaf (store : MemoryStore) (best : String × ℕ) (node : Node) :
    Except PyError (String × ℕ) := do
  if node.pruned then return best
  else
    let children ← (store.children node.id).mapM store.get
    if children.any fun child => ¬ child.pruned then return best
    else
      let depth ← store.depth node.id
      if depth > best.2 ∨ depth = best.2 ∧ node.id < best.1 then return (node.id, depth)
      else return best

/-- `_deepest_non_pruned_leaf` -/
def deepestNonPrunedLeaf (store : MemoryStore) (rootId : String) : Except PyError String := do
  let nodes ← store.walk rootId
  let best ← nodes.foldlM (deeperLeaf store) (rootId, 0)
  return best.1

/-- `Runtime.resume` -/
def Runtime.resume (label : String) (budget : Option Budget) (attempt : ℤ) : StoreM Run := do
  let root ← orRaise (rootNode H label attempt)
  let root ← storedRoot H rt (rt.mode = .replay) root
  bindRegistry rt root.id
  let budgetScopes ← runScopes H rt root.id budget
  let store ← get
  let cursorId ← orRaise (deepestNonPrunedLeaf store root.id)
  return { rootId := root.id, cursorId, label, budgetScopes }

/-! ## The runs of a store -/

/-- An operation of a `Run` or an `AsyncRun`. -/
inductive Op where
  | modelCall (payload : Value) (attempt : ℤ) (keepChunks : Bool)
  | toolCall (name : String) (args : Value) (passesFn : Bool) (version : Option String)
      (attempt : ℤ)
  | confirm (token : String)
  | note (payload : Value) (attempt : ℤ)
  | branch (attempt : ℤ) (budget : Option Budget)
  | rollback (nodeId : Option String) (steps : ℕ)
  | prune

/-- The operation may call a model or a tool. -/
def Op.calls : Op → Bool
  | modelCall _ _ _ => true
  | toolCall _ _ _ _ _ => true
  | confirm _ => true
  | _ => false

/-- What an operation does.  A branch gives a new run. -/
def Op.perform (flavor : Flavor) (env : CallEnv) : Op → RunM (Option Run)
  | modelCall payload attempt keepChunks => do
      let _ ← callWith H rt flavor env .modelCall payload attempt keepChunks none
      return none
  | toolCall name args passesFn version attempt => do
      let _ ← Pollard.toolCall H rt flavor env name args passesFn version attempt
      return none
  | confirm token => do
      let _ ← Pollard.confirm H rt flavor env token
      return none
  | note payload attempt => do
      let _ ← Pollard.note H rt env payload attempt
      return none
  | branch attempt budget => do
      let child ← Pollard.branch H rt env attempt budget
      return some child
  | rollback nodeId steps => do
      let _ ← Pollard.rollback nodeId steps
      return none
  | prune => do
      Pollard.prune rt
      return none

/-- A run and what it did; a branch starts with what its parent had done. -/
structure Handle where
  run : Run
  heard : List Event := []

/-- A store, the runs on it, and all they did, newest first. -/
structure World where
  store : MemoryStore
  handles : List Handle := []
  trace : List Event := []

/-- What happens next: a run is opened or resumed, or a run performs an operation. -/
inductive Input where
  | opened (resumes : Bool) (label : String) (budget : Option Budget) (attempt : ℤ)
  | acted (index : ℕ) (flavor : Flavor) (env : CallEnv) (op : Op)

/-- The session of a run before its next operation. -/
def World.session (w : World) (handle : Handle) : Session := ⟨w.store, handle.run, []⟩

/-- The run that is opened or resumed. -/
def openedRun (resumes : Bool) (label : String) (budget : Option Budget) (attempt : ℤ) :
    StoreM Run :=
  if resumes then rt.resume H label budget attempt else rt.run H label budget attempt

/-- The world after a run was at work, and the runs it has then. -/
def World.afterOp (w : World) (index : ℕ) (handle : Handle) (s : Session)
    (child : Option Run) : World :=
  let heard := s.trace ++ handle.heard
  { store := s.store
    handles := w.handles.set index ⟨s.run, heard⟩ ++ child.toList.map fun run => ⟨run, heard⟩
    trace := s.trace ++ w.trace }

def World.step (w : World) : Input → World
  | .opened resumes label budget attempt =>
      match openedRun H rt resumes label budget attempt w.store with
      | .ok run store => { w with store, handles := w.handles ++ [{ run }] }
      | .error _ store => { w with store }
  | .acted index flavor env op =>
      match w.handles[index]? with
      | none => w
      | some handle =>
          match op.perform H rt flavor env (w.session handle) with
          | .ok child s => w.afterOp index handle s child
          | .error _ s => w.afterOp index handle s none

/-- The world after a list of inputs. -/
def World.run : World → List Input → World := Machine.run (World.step H rt)

end Runtime

end Pollard
