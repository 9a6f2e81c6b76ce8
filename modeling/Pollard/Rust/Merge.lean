import Pollard.Rust.Memory

/-!
# Merge and import in Rust

The union of a store with prepared nodes, over whatever backend holds the destination.
-/

namespace Pollard.Rust

open Lib Fallible

/-- The part of the trait `Store` that merge and import call. -/
structure Backend (σ : Type) where
  put : σ → Node → Except Error σ
  get : σ → String → Except Error Node
  tryExists : σ → String → Except Error Bool
  applyBatch : σ → List Node → List (String × Json) → Except Error σ

/-- `MergeReport` -/
structure MergeReport where
  copied : ℕ
  existing : ℕ
  resultConflicts : ℕ
  metaConflicts : ℕ
deriving DecidableEq, Repr

section Library

variable (lib : Library)

/-! ## Metadata -/

/-- `list` -/
def listOf (value : Option Json) : List Json := (value.bind Json.asArray).getD []

/-- `union`: by the texts of the values, the last of each. -/
def union (a b : List Json) : Except Error (List Json) := do
  let texts ← (a ++ b).mapM fun value => (value.resultText lib).map (·, value)
  let values := texts.foldl (fun values e => Assoc.upsert values e.1 e.2) []
  return (values.insertionSort fun a b => a.1 ≤ b.1).map Prod.snd

/-- What `merge_value` keeps and records where the values disagree. -/
def disagree (existing incoming : Json) (path : String) : Except Error (Json × List Json) := do
  let values ← union lib [existing] [incoming]
  return (existing, [.object [("path", .string path), ("values", .array values)]])

mutual

/-- `merge_value` -/
def mergeValue (existing : Json) : Json → String → Except Error (Json × List Json)
  | .object others, path =>
      if existing.equal (.object others) then .ok (existing, [])
      else if existing.isObject then mergeEntries existing others fun key => s!"{path}.{key}"
      else disagree lib existing (.object others) path
  | .array others, path =>
      if existing.equal (.array others) then .ok (existing, [])
      else
        match existing with
        | .array items => do return (.array (← union lib items others), [])
        | existing => disagree lib existing (.array others) path
  | incoming, path =>
      if existing.equal incoming then .ok (existing, []) else disagree lib existing incoming path

/-- The loop over the entries of an incoming object. -/
def mergeEntries (merged : Json) : List (String × Json) → (String → String) →
    Except Error (Json × List Json)
  | [], _ => .ok (merged, [])
  | (key, value) :: entries, path =>
      match merged.get? key with
      | some old => do
          let (value, found) ← mergeValue old value (path key)
          let (merged, rest) ← mergeEntries (merged.insert key value) entries path
          return (merged, found ++ rest)
      | none => mergeEntries (merged.insert key value) entries path

end

theorem union_fails (a b : List Json) : FailsWith Error.IsInvalid (union lib a b) :=
  .bind (.mapM fun value _ => (Json.resultText_fails lib value).map) fun _ => .ok _

theorem disagree_fails (existing incoming : Json) (path : String) :
    FailsWith Error.IsInvalid (disagree lib existing incoming path) :=
  .bind (union_fails lib _ _) fun _ => .ok _

mutual

theorem mergeValue_fails : ∀ (existing incoming : Json) (path : String),
    FailsWith Error.IsInvalid (mergeValue lib existing incoming path)
  | existing, .object others, path => by
      rw [mergeValue]
      split
      · exact .ok _
      · split
        · exact mergeEntries_fails existing others _
        · exact disagree_fails lib _ _ _
  | existing, .array others, path => by
      unfold mergeValue
      split
      · exact .ok _
      · split
        · exact .bind (union_fails lib _ _) fun _ => .ok _
        · exact disagree_fails lib _ _ _
  | existing, .null, path | existing, .bool _, path | existing, .number _, path
  | existing, .string _, path => by
      rw [mergeValue]
      · split
        · exact .ok _
        · exact disagree_fails lib _ _ _
      · exact nofun
      · exact nofun

theorem mergeEntries_fails : ∀ (merged : Json) (entries : List (String × Json))
    (path : String → String), FailsWith Error.IsInvalid (mergeEntries lib merged entries path)
  | _, [], _ => .ok _
  | merged, (key, value) :: entries, path => by
      rw [mergeEntries]
      split
      · exact .bind (mergeValue_fails _ value _) fun _ =>
          .bind (mergeEntries_fails _ entries path) fun _ => .ok _
      · exact mergeEntries_fails _ entries path

end

/-- `merge_meta` -/
def mergeMeta (existing incoming : Json) : Except Error (Json × ℕ) := do
  let recorded ← union lib (listOf (existing.get? "merge_conflicts"))
    (listOf (incoming.get? "merge_conflicts"))
  let entries :=
    match incoming with
    | .object entries => entries.filter fun e => e.1 ≠ "merge_conflicts"
    | _ => []
  let (merged, conflicts) ← mergeEntries lib existing entries id
  let updated ← union lib recorded conflicts
  let merged :=
    if updated = [] then merged else merged.insert "merge_conflicts" (.array updated)
  return (merged, updated.length - recorded.length)

theorem mergeMeta_fails (existing incoming : Json) :
    FailsWith Error.IsInvalid (mergeMeta lib existing incoming) :=
  .bind (union_fails lib _ _) fun _ => .bind (mergeEntries_fails lib _ _ _) fun _ =>
    .bind (union_fails lib _ _) fun _ => .ok _

/-! ## Nodes -/

variable {σ : Type} (store : Backend σ) (s : σ)

/-- A round of the loop of `import_prepared`: the nodes that are there, and the new ones. -/
def importNode (found : ℕ × List Node) (node : Node) : Except Error (ℕ × List Node) := do
  node.validate lib
  if ← store.tryExists s node.id then do
    let old ← store.get s node.id
    old.validate lib
    ensure (old.sameNode node ∧ old.resultText = node.resultText ∧
        old.resultDigest = node.resultDigest)
      (.integrity s!"destination conflicts with imported node {node.id}")
    return (found.1 + 1, found.2)
  else return (found.1, found.2 ++ [node])

/-- The loop of `import_prepared`. -/
def importPlan (nodes : List Node) : Except Error (ℕ × List Node) :=
  nodes.foldlM (importNode lib store s) (0, [])

/-- `import_prepared` -/
def importPrepared (nodes : List Node) : Except Error (σ × ℕ × ℕ) := do
  let found ← importPlan lib store s nodes
  let after ← store.applyBatch s found.2 []
  return (after, found.2.length, found.1)

/-- What `merge_prepared` is going to write. -/
structure MergePlan where
  report : MergeReport
  added : List Node
  patches : List (String × Json)

/-- A round of the loop of `merge_prepared` with a node the destination has. -/
def mergeExisting (replay : Bool) (plan : MergePlan) (existing incoming : Node) :
    Except Error MergePlan := do
  ensure (existing.sameNode incoming) (.integrity "node identity collision during merge")
  ensure (¬ (replay ∧ existing.differs incoming))
    (.integrity s!"result collision during replay merge: {incoming.id}")
  let (merged, count) ← mergeMeta lib existing.metadata incoming.metadata
  let old := listOf (merged.get? "result_conflicts")
  let updated ←
    (if existing.differs incoming then union lib old [incoming.conflict] else .ok old)
  let merged :=
    if existing.differs incoming then merged.insert "result_conflicts" (.array updated) else merged
  return {
    report := {
      copied := plan.report.copied
      existing := plan.report.existing + 1
      resultConflicts := plan.report.resultConflicts +
        if existing.differs incoming ∧ old.length < updated.length then 1 else 0
      metaConflicts := plan.report.metaConflicts + count }
    added := plan.added
    patches :=
      if merged.equal existing.metadata then plan.patches
      else plan.patches ++ [(existing.id, merged)] }

/-- A round of the loop of `merge_prepared`. -/
def mergeNode (replay : Bool) (plan : MergePlan) (incoming : Node) : Except Error MergePlan := do
  incoming.validate lib
  if ← store.tryExists s incoming.id then do
    let existing ← store.get s incoming.id
    existing.validate lib
    mergeExisting lib replay plan existing incoming
  else
    return {
      report := { plan.report with copied := plan.report.copied + 1 }
      added := plan.added ++ [incoming]
      patches := plan.patches }

/-- The loop of `merge_prepared`. -/
def mergePlan (nodes : List Node) (replay : Bool) : Except Error MergePlan :=
  nodes.foldlM (mergeNode lib store s replay) ⟨⟨0, 0, 0, 0⟩, [], []⟩

/-- `merge_prepared` -/
def mergePrepared (nodes : List Node) (replay : Bool) : Except Error (σ × MergeReport) := do
  let plan ← mergePlan lib store s nodes replay
  let after ← store.applyBatch s plan.added plan.patches
  return (after, plan.report)

end Library

end Pollard.Rust
