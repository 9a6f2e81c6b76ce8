import Pollard.Seal
import Pollard.Store
import Pollard.Stores.Interning

/-!
# The nodes of the SQLite store

The tables `nodes`, `blobs` and `blob_literals` and what reads, writes and collects them.
`sha256` is the digest of a string, `sealDigest` the one of a record under the seal domain.
-/

namespace Pollard.Stores.SqliteNodes

open Lib Interning

/-- A row of `nodes` is a node with the stored payload in the place of its own; the newest
comes first. -/
structure Tables where
  rows : List Node
  literals : List (String × Path)
  blobs : Dict String String
deriving DecidableEq

namespace Tables

def empty : Tables := ⟨[], [], ∅⟩

def edges (t : Tables) : Forest.Edges String := t.rows.map Node.edge

/-! ## Reading -/

def find? (t : Tables) (id : String) : Option Node := t.rows.find? fun row => row.id = id

/-- `exists` -/
def contains (t : Tables) (id : String) : Bool := (t.find? id).isSome

/-- `_literal_paths` -/
def literalPaths (t : Tables) (id : String) : List Path :=
  (t.literals.filter fun e => e.1 = id).map Prod.snd

/-- `_blob_value` -/
def blobValue (t : Tables) (digest : String) : Except PyError String :=
  match t.blobs.get? digest with
  | some text => .ok text
  | none => .error (.integrityError s!"missing interned payload blob: {digest}")

/-- `_get_optional`, of a row that is there. -/
def load (t : Tables) (row : Node) : Except PyError Node :=
  (rehydrate (t.literalPaths row.id) t.blobValue row.payload []).bind fun payload =>
    payload.canonicalBytes.bind fun bytes =>
      Node.fromStorage row.id row.parent row.kind.value row.attempt bytes row.result row.metadata

def get (t : Tables) (id : String) : Except PyError Node :=
  match t.find? id with
  | some row => t.load row
  | none => .error (.keyError id)

def children (t : Tables) (id : String) : List String :=
  ((t.rows.filter fun row => row.parent = some id).insertionSort fun a b =>
    PairLE (a.kind.value, a.id) (b.kind.value, b.id)).map Node.id

/-- The ids `walk` visits. -/
def walkIds (t : Tables) (rootId : String) : List String :=
  Forest.walk t.children (t.rows.length + 1) [rootId]

def walk (t : Tables) (rootId : String) : Except PyError (List Node) :=
  (t.walkIds rootId).mapM t.get

/-- `roots`, given what `str` makes of a label. -/
def roots (str : Value → String) (t : Tables) : Except PyError (List String) :=
  let labelled := ((t.rows.filter fun row => row.parent = none).map Node.id).mapM fun id =>
    (t.get id).map fun node => (str ((node.payload.get? "run").getD (.str "")), id)
  labelled.map fun pairs => (pairs.insertionSort PairLE).map Prod.snd

/-! ## Writing -/

/-- `UPDATE nodes SET meta = ? WHERE id = ?` -/
def setMeta (t : Tables) (id : String) (metadata : Dict String Value) : Tables :=
  { t with rows := t.rows.map fun row => if row.id = id then { row with metadata } else row }

/-- The loop of `put` over the blobs of a payload. -/
def insertBlobs (blobs : Dict String String) :
    List (String × String) → Except PyError (Dict String String)
  | [] => .ok blobs
  | (digest, value) :: rest =>
      match blobs.get? digest with
      | some stored =>
          if stored ≠ value then
            .error (.integrityError s!"blob digest collision for {digest}")
          else insertBlobs blobs rest
      | none => insertBlobs (blobs.set digest value) rest

section Store

variable (H : Hashing) (sha256 : String → String)

/-- `_handle_existing_locked` -/
def handleExisting (t : Tables) (existing incoming : Node) : Except PyError Tables :=
  if existing.identity ≠ incoming.identity then
    .error (.integrityError s!"node id collision for {incoming.id}")
  else
    match incoming.result with
    | none => .ok t
    | some result =>
        if incoming.resultText = existing.resultText then .ok t
        else
          let conflict := Value.dict
            [("result_digest", .str (H.result result.canonical)), ("result", result)]
          .ok (t.setMeta existing.id (jsonText (existing.metadata.set "result_conflicts"
            (.list (MemoryStore.resultConflicts existing ++ [conflict])))))

/-- The row of a node, and its blobs and literals. -/
def insert (settings : Settings) (t : Tables) (node : Node) : Except PyError Tables :=
  let interned := internPayload sha256 settings node.payload
  (insertBlobs t.blobs interned.2.1.entries).map fun blobs =>
    { rows := { node with
        payload := interned.1.canonical
        result := node.resultText
        metadata := jsonText node.metadata } :: t.rows
      literals := t.literals ++ interned.2.2.map fun path => (node.id, path)
      blobs }

def put (settings : Settings) (t : Tables) (node : Node) : Except PyError Tables :=
  (validateForPut H node).bind fun _ =>
    if ∀ p ∈ node.parent, t.contains p = true then
      match t.find? node.id with
      | some row => (t.load row).bind fun existing => t.handleExisting H existing node
      | none => t.insert sha256 settings node
    else .error (.keyError (node.parent.getD ""))

/-- `update_meta` -/
def updateMeta (t : Tables) (id : String) (patch : Dict String Value) : Except PyError Tables :=
  match t.find? id with
  | none => .error (.keyError id)
  | some row =>
      let metadata := patch.entries.foldl (fun m e => m.set e.1 e.2) row.metadata
      if metadata.values.any fun value => ¬ value.isJson then
        .error (.typeError "metadata is not JSON serializable")
      else .ok (t.setMeta id (jsonText metadata))

end Store

/-! ## Garbage collection -/

/-- `_pollard_drop_nodes` -/
def dropNodes (t : Tables) (ids : List String) : Tables :=
  { t with
    rows := t.rows.filter fun row => row.id ∉ ids
    literals := t.literals.filter fun e => e.1 ∉ ids }

/-- The digests the stored payloads refer to. -/
def referenced (t : Tables) : List String :=
  t.rows.flatMap fun row => referencedBlobs (t.literalPaths row.id) row.payload []

/-- `_pollard_compact`: the tables, and how many blobs were deleted. -/
def compact (t : Tables) : Tables × ℕ :=
  ({ t with blobs := t.blobs.filter fun e => e.1 ∈ t.referenced },
    (t.blobs.keys.filter fun digest => digest ∉ t.referenced).length)

end Tables

/-- `GCMode` -/
inductive GCMode where
  | dropPruned
  | compact
deriving DecidableEq

structure GCReport where
  mode : GCMode
  removedNodes : List String
  removedBlobs : ℕ
  survivorSeals : List (String × String)
deriving DecidableEq

namespace Tables

def pruned (node : Node) : Bool := node.metadata.get? "pruned" = some (.bool true)

/-- The loop of `gc` over the nodes of a root. -/
def removeFrom (t : Tables) (removed : List String) : List Node → Except PyError (List String)
  | [] => .ok removed
  | node :: nodes =>
      if node.id ∉ removed ∧ pruned node then
        (t.walk node.id).bind fun below => removeFrom t (removed ++ below.map Node.id) nodes
      else removeFrom t removed nodes

/-- The loop of `gc` over the roots. -/
def removeFromRoots (t : Tables) (removed : List String) :
    List String → Except PyError (List String)
  | [] => .ok removed
  | rootId :: rootIds =>
      (t.walk rootId).bind fun nodes =>
        (t.removeFrom removed nodes).bind fun removed => removeFromRoots t removed rootIds

section Gc

variable (H : Hashing) (sealDigest : Value → String) (str : Value → String)

/-- `_validate_node`, and what the seal covers of the node. -/
def covered (node : Node) : Except PyError Seal.Covered :=
  if node.id ≠ node.expectedId H then
    .error (.integrityError s!"node id does not match identity fields: {node.id}")
  else .ok ⟨node.id, node.parent, node.kind.value, node.resultText.map H.result⟩

/-- `seal` -/
def sealSubtree (t : Tables) (rootId : String) : Except PyError Seal.SealReport :=
  ((t.walkIds rootId).mapM fun id => (t.get id).bind (covered H)).map
    (Seal.sealNodes sealDigest rootId)

/-- `_seal_roots` -/
def sealRoots (t : Tables) : Except PyError (List (String × String)) :=
  (t.roots str).bind fun rootIds => rootIds.mapM fun id =>
    (t.sealSubtree H sealDigest id).map fun report => (id, report.digest)

/-- `gc`: the tables it leaves, and its report. -/
def gc (t : Tables) (mode : GCMode) : Tables × Except PyError GCReport :=
  match t.sealRoots H sealDigest str with
  | .error error => (t, .error error)
  | .ok _ =>
      match mode with
      | .dropPruned =>
          match (t.roots str).bind (t.removeFromRoots []) with
          | .error error => (t, .error error)
          | .ok removed =>
              let after := t.dropNodes removed
              (after, (after.sealRoots H sealDigest str).map fun seals =>
                ⟨mode, removed.dedup.insertionSort (· ≤ ·), 0, seals⟩)
      | .compact =>
          let after := t.compact
          (after.1, (after.1.sealRoots H sealDigest str).map fun seals =>
            ⟨mode, [], after.2, seals⟩)

end Gc

end Tables

end Pollard.Stores.SqliteNodes
