import Pollard.Value

/-!
# Seals

A rolling digest over the nodes of a subtree in the order of a walk.  The digest of a record
under the seal domain is a parameter.
-/

namespace Pollard.Seal

/-- What a seal covers of a node. -/
structure Covered where
  nodeId : String
  parentId : Option String
  kind : String
  resultDigest : Option String
deriving DecidableEq

/-- `SealEntry`; the digest is its field `seal`. -/
structure SealEntry where
  index : ℕ
  covered : Covered
  previous : Option String
  digest : String
deriving DecidableEq

structure SealReport where
  rootId : String
  algorithm : String
  digest : String
  entries : List SealEntry
deriving DecidableEq

/-- `SEAL_ALGORITHM` -/
def algorithm : String := "sha256:pollard/v1:seal"

/-- `_seal_record` -/
def record (index : ℕ) (node : Covered) (previous : String) : Value :=
  .dict [("index", .int index), ("node_id", .str node.nodeId),
    ("parent_id", .str (node.parentId.getD "")), ("kind", .str node.kind),
    ("result_digest", .str (node.resultDigest.getD "")), ("previous", .str previous)]

section Rolling

variable (sealDigest : Value → String)

/-- The loop of `seal`: the entries, and the digest of the last one. -/
def sealFrom : ℕ → String → List Covered → List SealEntry × String
  | _, previous, [] => ([], previous)
  | index, previous, node :: nodes =>
      let current := sealDigest (record index node previous)
      let rest := sealFrom (index + 1) current nodes
      (⟨index, node, if previous = "" then none else some previous, current⟩ :: rest.1, rest.2)

/-- `seal` of validated nodes. -/
def sealNodes (rootId : String) (nodes : List Covered) : SealReport :=
  let sealed := sealFrom sealDigest 0 "" nodes
  ⟨rootId, algorithm, sealed.2, sealed.1⟩

theorem covered_sealFrom (index : ℕ) (previous : String) (nodes : List Covered) :
    (sealFrom sealDigest index previous nodes).1.map SealEntry.covered = nodes := by
  induction nodes generalizing index previous with
  | nil => rfl
  | cons node nodes ih => rw [sealFrom, List.map_cons, ih]

end Rolling

def optional : Option String → Value
  | none => .none
  | some text => .str text

def SealEntry.toDict (entry : SealEntry) : Value :=
  .dict [("index", .int entry.index), ("node_id", .str entry.covered.nodeId),
    ("parent_id", optional entry.covered.parentId), ("kind", .str entry.covered.kind),
    ("result_digest", optional entry.covered.resultDigest),
    ("previous", optional entry.previous), ("seal", .str entry.digest)]

def SealReport.toDict (report : SealReport) : Value :=
  .dict [("root_id", .str report.rootId), ("algorithm", .str report.algorithm),
    ("digest", .str report.digest), ("entries", .list (report.entries.map SealEntry.toDict))]

end Pollard.Seal
