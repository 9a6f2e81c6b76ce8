import Pollard.ObjectTexts
import Pollard.Seal
import Pollard.Stores.HashRope

/-!
# Export and import of subtrees

A manifest is the JSON document of a sealed subtree; its records hold JSON texts as strings.
`spelled` gives the object a text spells, `sealDigest` the digest under the seal domain.  The
path of the file is left out of the reports.
-/

namespace Pollard

open Lib Lib.Fallible Stores Stores.ObjectStore

namespace Governance

/-- `EXPORT_FORMAT` -/
def exportFormat : Obj := .str (codes "pollard/subtree/v1")

structure ExportReport where
  rootId : String
  digest : String
  nodes : ℕ
deriving DecidableEq

structure ImportReport where
  rootId : String
  digest : String
  imported : ℕ
  existing : ℕ
deriving DecidableEq

def optional : Option String → Obj
  | none => .none
  | some s => .str (codes s)

/-- An object with these names. -/
def object (entries : List (String × Obj)) : Obj :=
  .dict (entries.map fun e => (.str (codes e.1), e.2))

section Export

variable (H : Hashing) (digest : Codes → String) (sealDigest : Value → String)

/-- `_validate_node` of `seal`. -/
def validateNode (node : ObjectNode) : Except PyError Unit :=
  if node.id ≠ node.expectedId H then
    .error (.integrityError s!"node id does not match identity fields: {node.id}")
  else
    match node.result with
    | none => .ok ()
    | some result =>
        (ObjectNode.resultDigestFromText digest result.text).bind fun expected =>
          if node.resultDigest ≠ some expected then
            .error (.integrityError s!"node result digest does not match result: {node.id}")
          else .ok ()

def covered (node : ObjectNode) : Seal.Covered :=
  ⟨node.id, node.parent, node.kind.value, node.resultDigest⟩

/-- `seal` -/
def sealSubtree (nodes : Nodes) (rootId : String) : Except PyError Seal.SealReport :=
  (walk nodes rootId).bind fun subtree =>
    (checkAll (validateNode H digest) subtree).map fun _ =>
      Seal.sealNodes sealDigest rootId (subtree.map covered)

/-- `_node_record` -/
def nodeRecord (node : ObjectNode) : Except PyError Obj :=
  node.payload.canonicalBytes.bind fun payload =>
    (Obj.dumps (.dict node.metadata.entries)).map fun metadata =>
      object [("id", .str (codes node.id)), ("parent", optional node.parent),
        ("kind", .str (codes node.kind.value)), ("attempt", .int node.attempt),
        ("payload", .str (codes payload.dumps)),
        ("result", node.result.elim .none fun result => .str result.text),
        ("result_digest", optional node.resultDigest), ("meta", .str metadata.write)]

/-- `export_subtree`: the text of the manifest, and the report. -/
def exportSubtree (nodes : Nodes) (rootId : String) : Except PyError (Obj × ExportReport) :=
  (sealSubtree H digest sealDigest nodes rootId).bind fun report =>
    (walk nodes rootId).bind fun subtree =>
      (subtree.mapM nodeRecord).bind fun records =>
        (Obj.jsonBytes (object [("format", exportFormat), ("root_id", .str (codes rootId)),
          ("seal", .ofValue report.toDict), ("nodes", .list records)])).map fun text =>
            (text, ⟨rootId, report.digest, subtree.length⟩)

end Export

/-! ## The manifest -/

/-- The strings and numbers of a node record. -/
structure RecordTexts where
  id : Codes
  parent : Option Codes
  kind : Codes
  attempt : ℤ
  payload : Codes
  result : Option Codes
  resultDigest : Option Codes
  metadata : Codes

/-- `value.get(key)` -/
def field (entries : List (Key × Obj)) (key : String) : Obj :=
  (Assoc.lookup entries (.str (codes key))).getD .none

/-- `_required_str` -/
def requiredStr (entries : List (Key × Obj)) (key : String) : Except PyError Codes :=
  match field entries key with
  | .str s => .ok s
  | _ => .error (.integrityError s!"subtree node {key} must be a string")

/-- `_optional_str` -/
def optionalStr (entries : List (Key × Obj)) (key : String) : Except PyError (Option Codes) :=
  match field entries key with
  | .none => .ok none
  | .str s => .ok (some s)
  | _ => .error (.integrityError s!"subtree node {key} must be a string or null")

/-- `_required_int` -/
def requiredInt (entries : List (Key × Obj)) (key : String) : Except PyError ℤ :=
  match field entries key with
  | .int n => .ok n
  | _ => .error (.integrityError s!"subtree node {key} must be an integer")

def recordTexts : Obj → Except PyError RecordTexts
  | .dict entries =>
      (requiredStr entries "id").bind fun id =>
        (optionalStr entries "parent").bind fun parent =>
          (requiredStr entries "kind").bind fun kind =>
            (requiredInt entries "attempt").bind fun attempt =>
              (requiredStr entries "payload").bind fun payload =>
                (optionalStr entries "result").bind fun result =>
                  (optionalStr entries "result_digest").bind fun resultDigest =>
                    (requiredStr entries "meta").map fun metadata =>
                      ⟨id, parent, kind, attempt, payload, result, resultDigest, metadata⟩
  | _ => .error (.integrityError "subtree node record must be an object")

/-- An id, a digest or a kind: none has a lone surrogate. -/
def nameOf (s : Codes) : Except PyError String :=
  if s.utf8 then .ok (String.ofList (s.map Char.ofNat))
  else .error (.valueError "node id must be 64 lowercase hex characters")

def nameOf? : Option Codes → Except PyError (Option String)
  | none => .ok none
  | some s => (nameOf s).map some

/-- `except (TypeError, ValueError)`; encoding errors are value errors. -/
def wrapped {α : Type} : Except PyError α → Except PyError α
  | .error (.typeError message) | .error (.valueError message) =>
      .error (.integrityError s!"invalid subtree node record: {message}")
  | .error .unicodeEncodeError =>
      .error (.integrityError "invalid subtree node record: surrogates not allowed")
  | result => result

section Import

variable (H : Hashing) (digest : Codes → String) (sealDigest : Value → String)
  (spelled : Codes → Option Obj)

/-- The object a text spells. -/
def spelledText (text : Codes) : Except PyError Obj :=
  match spelled text with
  | some value => .ok value
  | none => .error (.valueError "not a JSON text")

def spelledResult : Option Codes → Except PyError (Option ResultText)
  | none => .ok none
  | some text => (spelledText spelled text).map fun value => some ⟨text, value⟩

/-- `Node.from_storage` -/
def fromStorage (texts : RecordTexts) : Except PyError ObjectNode :=
  (spelledText spelled texts.payload).bind fun payload =>
    (spelledResult spelled texts.result).bind fun result =>
      (spelledText spelled texts.metadata).bind fun metadata =>
        (nameOf texts.id).bind fun id =>
          (nameOf? texts.parent).bind fun parent =>
            (nameOf texts.kind).bind fun kind =>
              (nameOf? texts.resultDigest).bind fun resultDigest =>
                ObjectNode.fromRecord digest ⟨id, parent, kind, texts.attempt,
                  payload.loads.toValue, result, resultDigest, metadata⟩

/-- `_node_from_record` -/
def nodeFromRecord (record : Obj) : Except PyError ObjectNode :=
  (recordTexts record).bind fun texts => wrapped (fromStorage digest spelled texts)

/-- `_parse_manifest`: the root, the other nodes, and the seal. -/
def parseManifest : Obj → Except PyError (ObjectNode × List ObjectNode × Obj)
  | .dict entries =>
      if field entries "format" ≠ exportFormat then
        .error (.integrityError "unsupported subtree export format")
      else
        match field entries "root_id", field entries "nodes" with
        | .str rootId, .list records =>
            match field entries "seal" with
            | .dict expected =>
                (records.mapM (nodeFromRecord digest spelled)).bind fun nodes =>
                  match nodes with
                  | root :: rest =>
                      if codes root.id = rootId then .ok (root, rest, .dict expected)
                      else .error (.integrityError
                        "subtree manifest does not begin with its root")
                  | [] => .error (.integrityError "subtree manifest does not begin with its root")
            | _ => .error (.integrityError "subtree manifest is missing its seal")
        | _, _ => .error (.integrityError "subtree manifest is missing its root or nodes")
  | _ => .error (.integrityError "unsupported subtree export format")

/-- Every node has its parent before it. -/
def checkParents : List String → List ObjectNode → Except PyError Unit
  | _, [] => .ok ()
  | seen, node :: nodes =>
      if node.parent.any fun p => p ∈ seen then checkParents (node.id :: seen) nodes
      else .error (.integrityError s!"subtree node parent is outside the manifest: {node.id}")

/-- `_ManifestStore` -/
def manifestStore (root : ObjectNode) (rest : List ObjectNode) : Except PyError Nodes :=
  let ids := (root :: rest).map ObjectNode.id
  let staged : Nodes := Dict.ofList ((root :: rest).map fun node => (node.id, node))
  if ¬ ids.Nodup then .error (.integrityError "subtree manifest contains duplicate node ids")
  else if root.parent.any fun p => p ∈ ids then
    .error (.integrityError "subtree root parent must be outside the manifest")
  else
    (checkParents [root.id] rest).bind fun _ =>
      if walkIds staged root.id ≠ ids then
        .error (.integrityError "subtree nodes are not in deterministic walk order")
      else .ok staged

/-- The loop over what the target holds: how many nodes it does. -/
def checkTarget (target : Nodes) : List ObjectNode → Except PyError ℕ
  | [] => .ok 0
  | node :: nodes =>
      match target.get? node.id with
      | none => checkTarget target nodes
      | some stored =>
          if stored.identity ≠ node.identity then
            .error (.integrityError s!"target identity conflicts with imported node: {node.id}")
          else if stored.result.map ResultText.text ≠ node.result.map ResultText.text ∨
              stored.resultDigest ≠ node.resultDigest then
            .error (.integrityError s!"target result conflicts with imported node: {node.id}")
          else (checkTarget target nodes).map fun existing => existing + 1

/-- What `import_subtree` checks before it writes. -/
def checked (document : Obj) (target : Nodes) :
    Except PyError (Seal.SealReport × List ObjectNode × ℕ) :=
  (parseManifest digest spelled document).bind fun ⟨root, rest, expected⟩ =>
    (manifestStore root rest).bind fun staged =>
      (sealSubtree H digest sealDigest staged root.id).bind fun report =>
        if Value.pyEq report.toDict expected.toValue = false then
          .error (.integrityError "subtree seal does not match the manifest")
        else
          match root.parent.filter fun p => ¬ target.contains p with
          | some p => .error (.integrityError s!"subtree parent is missing from target store: {p}")
          | none =>
              (checkTarget target (root :: rest)).map fun existing =>
                (report, root :: rest, existing)

/-- A store as an import uses it. -/
structure Backend (σ : Type) where
  nodes : σ → Nodes
  put : σ → ObjectNode → σ × Except PyError Unit

/-- `MemoryStore` -/
def memory : Backend Nodes where
  nodes := id
  put nodes node :=
    match applyPut H digest nodes node with
    | .error e => (nodes, .error e)
    | .ok changed => (changed.getD nodes, .ok ())

/-- `HashRopeStore` -/
def hashRope : Backend HashRope.State where
  nodes := HashRope.State.nodes
  put := HashRope.put H digest

/-- The loop that writes: how many nodes were new. -/
def writeAll {σ : Type} (store : Backend σ) : σ → List ObjectNode → σ × Except PyError ℕ
  | s, [] => (s, .ok 0)
  | s, node :: nodes =>
      if (store.nodes s).contains node.id then writeAll store s nodes
      else
        match store.put s node with
        | (s, .error e) => (s, .error e)
        | (s, .ok ()) =>
            let rest := writeAll store s nodes
            (rest.1, rest.2.map fun imported => imported + 1)

/-- `import_subtree` of a document. -/
def importSubtree {σ : Type} (store : Backend σ) (document : Obj) (s : σ) :
    σ × Except PyError ImportReport :=
  match checked H digest sealDigest spelled document (store.nodes s) with
  | .error e => (s, .error e)
  | .ok (report, nodes, existing) =>
      let written := writeAll store s nodes
      (written.1, written.2.map fun imported => ⟨report.rootId, report.digest, imported, existing⟩)

end Import

end Governance

end Pollard
