import Pollard.Runtime.Basic
import Mathlib.Data.List.Perm.Subperm

/-!
# Verifying a key/value store

The node codec of `TransactionalKVStore`, `verify` and the lookup of a recording, over
node buckets of any content.  A record is text: what `json.loads` makes of a text and the
digest of a result text are parameters.
-/

namespace Pollard.Stores.Verification

open Lib

/-- `json.loads` and `result_digest_from_text`. -/
structure Texts where
  loads : String → Except PyError Value
  resultDigest : String → String

/-- The node bucket: a text under each key. -/
abbrev NodeBucket := Dict String String

/-- A node as it is read back, with the text and the digest of its result. -/
structure StoredNode where
  id : String
  parent : Option String
  kind : NodeKind
  attempt : ℤ
  payload : Value
  result : Option Value
  resultText : Option String
  resultDigest : Option String
  metadata : Value
deriving DecidableEq

def StoredNode.identity (node : StoredNode) : Identity :=
  ⟨node.attempt, node.kind, node.parent.getD "", node.payload.canonical⟩

/-- `_is_hex64`; `$` also matches before a final newline. -/
def isHex64 (id : String) : Bool :=
  let digits := id.toList.take 64
  digits.length = 64 ∧ (digits.all fun c => c ∈ "0123456789abcdef".toList) ∧
    (id.toList.drop 64 = [] ∨ id.toList.drop 64 = ['\n'])

/-! ## The node codec -/

section Codec

variable (T : Texts)

/-- `_object` -/
def object (value label : String) : Except PyError Value :=
  match T.loads value with
  | .error _ => .error (.integrityError s!"invalid stored {label}")
  | .ok result =>
      if result.isDict then .ok result
      else .error (.integrityError s!"stored {label} must be an object")

/-- `_string` -/
def string (record : Value) (key : String) : Except PyError String :=
  match record.get? key with
  | some (.str value) => .ok value
  | _ => .error (.integrityError s!"stored {key} must be a string")

/-- `_integer` -/
def integer (record : Value) (key : String) : Except PyError ℤ :=
  match record.get? key with
  | some (.int value) => .ok value
  | _ => .error (.integrityError s!"stored {key} must be an integer")

/-- A field that is a string or null. -/
def nullableString (record : Value) (key message : String) : Except PyError (Option String) :=
  match record.get? key with
  | none => .ok none
  | some .none => .ok none
  | some (.str value) => .ok (some value)
  | _ => .error (.integrityError message)

/-- What `__post_init__` checks, after the fields were decoded. -/
def checkStored (id : String) (parent : Option String) (kind : NodeKind) (attempt : ℤ)
    (payload metadata : Value) (resultDigest : Option String) : Except PyError Unit :=
  if isHex64 id = false then
    .error (.valueError "node id must be 64 lowercase hex characters")
  else if kind = .root ∧ parent ≠ none then
    .error (.valueError "root nodes cannot have parents")
  else if kind ≠ .root ∧ parent.all isHex64 = false ∨ kind ≠ .root ∧ parent = none then
    .error (.valueError "non-root nodes require a 64-hex parent id")
  else if attempt < 0 then .error (.valueError "attempt must be a non-negative int")
  else
    payload.canonicalBytes.bind fun _ =>
      if metadata.isJson = false then .error (.typeError "meta must be JSON serializable")
      else if resultDigest.all isHex64 = false then
        .error (.valueError "result digest must be 64 lowercase hex characters")
      else .ok ()

/-- `Node.from_storage`; a result without a digest gets the one of its text. -/
def fromStorage (id : String) (parent : Option String) (kind : String) (attempt : ℤ)
    (payloadText : String) (resultText resultDigest : Option String) (metaText : String) :
    Except PyError StoredNode := do
  let payload ← T.loads payloadText
  let result ← resultText.mapM T.loads
  let metadata ← T.loads metaText
  if payload.isDict = false then throw (.typeError "stored payload must be a JSON object")
  else if metadata.isDict = false then throw (.typeError "stored meta must be a JSON object")
  else
    match NodeKind.ofValue? kind with
    | none => throw (.valueError s!"unsupported node kind: {kind}")
    | some kind => do
        let resultDigest := resultDigest.or (resultText.map T.resultDigest)
        checkStored id parent kind attempt payload metadata resultDigest
        return ⟨id, parent, kind, attempt, payload, result, resultText, resultDigest, metadata⟩

/-- `_node_from_text` -/
def nodeFromText (value : String) : Except PyError StoredNode := do
  let record ← object T value "node"
  let parent ← nullableString record "parent" "stored node parent must be a string or null"
  let resultText ← nullableString record "result"
    "stored node result must be JSON text or null"
  let resultDigest ← nullableString record "result_digest"
    "stored node result digest must be a string or null"
  let id ← string record "id"
  let kind ← string record "kind"
  let attempt ← integer record "attempt"
  let payloadText ← string record "payload"
  let metaText ← string record "meta"
  match fromStorage T id parent kind attempt payloadText resultText resultDigest metaText with
  | .ok node => return node
  | .error _ => throw (.integrityError "invalid stored node")

/-- `TransactionalKVStore.get` -/
def get (bucket : NodeBucket) (id : String) : Except PyError StoredNode :=
  match bucket.get? id with
  | none => .error (.keyError id)
  | some value => nodeFromText T value

/-! What the codec accepts. -/

variable {T}

theorem checkStored_ok {id : String} {parent : Option String} {kind : NodeKind} {attempt : ℤ}
    {payload metadata value : Value} {resultDigest : Option String} (hid : isHex64 id = true)
    (hroot : kind = .root ↔ parent = none) (hparent : parent.all isHex64 = true)
    (hattempt : 0 ≤ attempt) (hpayload : payload.canonicalBytes = .ok value)
    (hmeta : metadata.isJson = true) (hdigest : resultDigest.all isHex64 = true) :
    checkStored id parent kind attempt payload metadata resultDigest = .ok () := by
  have hroots : ¬ (kind = .root ∧ parent ≠ none) := fun h => h.2 (hroot.mp h.1)
  have hothers :
      ¬ (kind ≠ .root ∧ parent.all isHex64 = false ∨ kind ≠ .root ∧ parent = none) := by
    rintro (⟨-, h⟩ | ⟨hkind, hnone⟩)
    · rw [hparent] at h
      cases h
    · exact hkind (hroot.mpr hnone)
  rw [checkStored, if_neg (by simp [hid]), if_neg hroots, if_neg hothers,
    if_neg (not_lt.mpr hattempt), hpayload]
  simp only [Except.bind]
  rw [if_neg (by simp [hmeta]), if_neg (by simp [hdigest])]

theorem fromStorage_ok {id kindText payloadText metaText : String} {parent : Option String}
    {attempt : ℤ} {resultText resultDigest : Option String} {kind : NodeKind}
    {payload metadata : Value} {result : Option Value}
    (hpayload : T.loads payloadText = .ok payload)
    (hresult : resultText.mapM T.loads = .ok result) (hmeta : T.loads metaText = .ok metadata)
    (hdict : payload.isDict = true) (hmetaDict : metadata.isDict = true)
    (hkind : NodeKind.ofValue? kindText = some kind)
    (hchecked : checkStored id parent kind attempt payload metadata
      (resultDigest.or (resultText.map T.resultDigest)) = .ok ()) :
    fromStorage T id parent kindText attempt payloadText resultText resultDigest metaText =
      .ok ⟨id, parent, kind, attempt, payload, result, resultText,
        resultDigest.or (resultText.map T.resultDigest), metadata⟩ := by
  simp [fromStorage, hpayload, hresult, hmeta, hdict, hmetaDict, hkind, hchecked, bind,
    Except.bind, pure, Except.pure]

theorem nodeFromText_ok {text : String} {entries : List (String × Value)}
    {id kind payloadText metaText : String} {attempt : ℤ}
    {parent resultText resultDigest : Option String} {node : StoredNode}
    (hloads : T.loads text = .ok (.dict entries))
    (hparent : nullableString (.dict entries) "parent"
      "stored node parent must be a string or null" = .ok parent)
    (hresult : nullableString (.dict entries) "result"
      "stored node result must be JSON text or null" = .ok resultText)
    (hdigest : nullableString (.dict entries) "result_digest"
      "stored node result digest must be a string or null" = .ok resultDigest)
    (hid : string (.dict entries) "id" = .ok id)
    (hkind : string (.dict entries) "kind" = .ok kind)
    (hattempt : integer (.dict entries) "attempt" = .ok attempt)
    (hpayload : string (.dict entries) "payload" = .ok payloadText)
    (hmeta : string (.dict entries) "meta" = .ok metaText)
    (hstorage : fromStorage T id parent kind attempt payloadText resultText resultDigest
      metaText = .ok node) : nodeFromText T text = .ok node := by
  have hobject : object T text "node" = .ok (.dict entries) := by
    simp [object, hloads, Value.isDict]
  simp [nodeFromText, hobject, hparent, hresult, hdigest, hid, hkind, hattempt, hpayload, hmeta,
    hstorage, bind, Except.bind, pure, Except.pure]

end Codec

/-! ## Verification -/

section Verify

variable (H : Hashing) (T : Texts)

/-- `VerifyFinding` -/
structure Finding where
  nodeId : String
  message : String
deriving DecidableEq

/-- What is wrong with a node by itself. -/
def nodeFindings (node : StoredNode) : List Finding :=
  (if node.id ≠ H.node node.identity then
    [⟨node.id, "node id does not match identity fields"⟩] else []) ++
  (if node.resultText.any fun text => node.resultDigest ≠ some (T.resultDigest text) then
    [⟨node.id, "result digest does not match stored result"⟩] else [])

/-- The loop of `verify`; `none` if the fuel ran out. -/
def verifyFrom (bucket : NodeBucket) :
    ℕ → List String → Option String → Option (Except PyError (List Finding))
  | _, _, none => some (.ok [])
  | 0, _, some _ => none
  | fuel + 1, seen, some id =>
      if id ∈ seen then some (.ok [⟨id, "cycle detected in ancestry"⟩])
      else
        match get T bucket id with
        | .error (.keyError _) => some (.ok [⟨id, "node is missing"⟩])
        | .error error => some (.error error)
        | .ok node =>
            (verifyFrom bucket fuel (id :: seen) node.parent).map fun rest =>
              rest.map fun findings => nodeFindings H T node ++ findings

/-- The ids seen are distinct keys of the bucket, so the fuel is enough. -/
theorem verifyFrom_total (bucket : NodeBucket) (fuel : ℕ) (seen : List String)
    (hnodup : seen.Nodup) (hkeys : ∀ id ∈ seen, id ∈ bucket.keys)
    (hfuel : bucket.keys.length < fuel + seen.length) (id : Option String) :
    (verifyFrom H T bucket fuel seen id).isSome = true := by
  induction fuel generalizing seen id with
  | zero =>
      have hlength : seen.length ≤ bucket.keys.length :=
        (List.subperm_of_subset hnodup hkeys).length_le
      omega
  | succ fuel ih =>
      cases id with
      | none => rfl
      | some id =>
          rw [verifyFrom]
          split
          · rfl
          · next hnew =>
              cases hget : get T bucket id with
              | error error => cases error <;> rfl
              | ok node =>
                  dsimp only
                  rw [Option.isSome_map]
                  refine ih (id :: seen) (List.nodup_cons.mpr ⟨hnew, hnodup⟩) ?_ ?_ node.parent
                  · intro other hother
                    rcases List.mem_cons.mp hother with rfl | hother
                    · by_contra hmissing
                      rw [get, Dict.get?_eq_none_iff.mpr hmissing] at hget
                      cases hget
                    · exact hkeys other hother
                  · rw [List.length_cons]
                    omega

/-- `verify`: its findings. -/
def verify (bucket : NodeBucket) (id : String) : Except PyError (List Finding) :=
  (verifyFrom H T bucket (bucket.keys.length + 1) [] (some id)).get
    (verifyFrom_total H T bucket _ [] (by simp) (by simp) (by simp) _)

/-- `_verify_recording` -/
def verifyRecording (bucket : NodeBucket) (id : String) : Except PyError Unit :=
  (verify H T bucket id).bind fun findings =>
    if findings.isEmpty then .ok ()
    else
      let details := "; ".intercalate (findings.map fun finding =>
        s!"{finding.nodeId}: {finding.message}")
      .error (.integrityError s!"recording integrity check failed: {details}")

/-! ## Looking a recording up -/

/-- `_raise_missing` -/
def raiseMissing {α : Type} (candidate : Node) : Except PyError α := do
  let summary ← payloadSummary H candidate.kind candidate.payload
  throw (.missingRecording s!"missing recording for {summary}: {candidate.id}" candidate.id
    summary)

/-- `recorded_node_or_missing` in replay mode. -/
def recordedNodeOrMissing (bucket : NodeBucket) (kind : NodeKind) (parentId : String)
    (payload : Value) (attempt : ℤ) : Except PyError StoredNode := do
  let candidate ← Node.make H kind (some parentId) payload attempt
  if bucket.contains candidate.id = false then raiseMissing H candidate
  else do
    let node ← get T bucket candidate.id
    if node.resultText = none then raiseMissing H candidate
    else do
      verifyRecording H T bucket node.id
      return node

/-- `replay_node_or_missing` -/
def replayNodeOrMissing (bucket : NodeBucket) (candidate : Node) : Except PyError StoredNode :=
  if bucket.contains candidate.id = false then raiseMissing H candidate
  else do
    let node ← get T bucket candidate.id
    verifyRecording H T bucket node.id
    return node

/-! ## What a report without findings says -/

variable {H T}

/-- The ids `verify` follows from an id. -/
inductive Ancestor (T : Texts) (bucket : NodeBucket) (id : String) : String → Prop
  | self : Ancestor T bucket id id
  | parent {a p : String} {node : StoredNode} (h : Ancestor T bucket id a)
      (hget : get T bucket a = .ok node) (hparent : node.parent = some p) :
      Ancestor T bucket id p

variable (T) in
/-- The result of a node matches its digest. -/
def StoredNode.ResultIntact (node : StoredNode) : Prop :=
  ∀ text ∈ node.resultText, node.resultDigest = some (T.resultDigest text)

theorem nodeFindings_eq_nil {node : StoredNode} :
    nodeFindings H T node = [] ↔ node.id = H.node node.identity ∧ node.ResultIntact T := by
  unfold nodeFindings StoredNode.ResultIntact
  cases node.resultText <;> simp

theorem verifyFrom_clean {bucket : NodeBucket} {fuel : ℕ} {seen : List String} {id : String}
    (h : verifyFrom H T bucket fuel seen (some id) = some (.ok [])) :
    ∃ node fuel seen, get T bucket id = .ok node ∧ nodeFindings H T node = [] ∧
      verifyFrom H T bucket fuel seen node.parent = some (.ok []) := by
  cases fuel with
  | zero => cases h
  | succ fuel =>
      rw [verifyFrom] at h
      split at h
      · cases h
      · cases hget : get T bucket id with
        | error error =>
            rw [hget] at h
            cases error <;> cases h
        | ok node =>
            rw [hget] at h
            dsimp only at h
            obtain ⟨rest, hrest, hfindings⟩ := Option.map_eq_some_iff.mp h
            cases rest with
            | error error => cases hfindings
            | ok findings =>
                rw [Except.map, Except.ok.injEq, List.append_eq_nil_iff] at hfindings
                obtain ⟨hnode, rfl⟩ := hfindings
                exact ⟨node, fuel, id :: seen, rfl, hnode, hrest⟩

/-- Without findings, every node on the way to the root is there and has none itself. -/
theorem clean_of_verify {bucket : NodeBucket} {id a : String}
    (h : verify H T bucket id = .ok []) (ha : Ancestor T bucket id a) :
    ∃ node, get T bucket a = .ok node ∧ node.id = H.node node.identity ∧
      node.ResultIntact T := by
  have hfrom : ∃ fuel seen, verifyFrom H T bucket fuel seen (some a) = some (.ok []) := by
    induction ha with
    | self => exact ⟨_, [], by rw [← h, verify, Option.some_get]⟩
    | @parent a p node _ hget hparent ih =>
        obtain ⟨fuel, seen, hclean⟩ := ih
        obtain ⟨found, fuel, seen, hfound, -, hrest⟩ := verifyFrom_clean hclean
        rw [hget, Except.ok.injEq] at hfound
        subst hfound
        exact ⟨fuel, seen, hparent ▸ hrest⟩
  obtain ⟨fuel, seen, hclean⟩ := hfrom
  obtain ⟨node, -, -, hget, hfindings, -⟩ := verifyFrom_clean hclean
  obtain ⟨hid, hresult⟩ := nodeFindings_eq_nil.mp hfindings
  exact ⟨node, hget, hid, hresult⟩

variable (T) in
/-- The record under a key carries the key as its id. -/
def Filed (bucket : NodeBucket) (key : String) : Prop :=
  ∀ node, get T bucket key = .ok node → node.id = key

variable (H T) in
/-- The node under a key has the identity the key is the hash of, and an intact result. -/
def SoundAt (bucket : NodeBucket) (key : String) : Prop :=
  ∃ node, get T bucket key = .ok node ∧ H.node node.identity = key ∧ node.ResultIntact T

theorem soundAt_iff_filed {bucket : NodeBucket} {id a : String}
    (h : verify H T bucket id = .ok []) (ha : Ancestor T bucket id a) :
    SoundAt H T bucket a ↔ Filed T bucket a := by
  obtain ⟨node, hget, hid, hresult⟩ := clean_of_verify h ha
  constructor
  · rintro ⟨found, hfound, hhash, -⟩ other hother
    rw [hfound, Except.ok.injEq] at hother
    rw [hget, Except.ok.injEq] at hfound
    rw [← hother, ← hfound, hid, ← hhash, hfound]
  · exact fun hfiled => ⟨node, hget, hid ▸ hfiled node hget, hresult⟩

/-! ## What replay returns -/

theorem verifyRecording_ok {bucket : NodeBucket} {id : String} {u : Unit}
    (h : verifyRecording H T bucket id = .ok u) : verify H T bucket id = .ok [] := by
  unfold verifyRecording at h
  cases hverify : verify H T bucket id with
  | error error =>
      rw [hverify] at h
      cases h
  | ok findings =>
      rw [hverify] at h
      cases findings with
      | nil => rfl
      | cons finding findings => cases h

theorem raiseMissing_ne_ok {α : Type} {candidate : Node} {a : α} :
    raiseMissing H candidate ≠ .ok a := by
  unfold raiseMissing
  cases payloadSummary H candidate.kind candidate.payload <;> exact nofun

theorem replayNodeOrMissing_ok {bucket : NodeBucket} {candidate : Node} {node : StoredNode}
    (h : replayNodeOrMissing H T bucket candidate = .ok node) :
    get T bucket candidate.id = .ok node ∧ verify H T bucket node.id = .ok [] := by
  unfold replayNodeOrMissing at h
  split at h
  · exact absurd h raiseMissing_ne_ok
  · cases hget : get T bucket candidate.id with
    | error error =>
        rw [hget] at h
        cases h
    | ok found =>
        rw [hget] at h
        cases hverify : verifyRecording H T bucket found.id with
        | error error =>
            simp only [bind, Except.bind, hverify] at h
            cases h
        | ok u =>
            simp only [bind, Except.bind, hverify] at h
            cases h
            exact ⟨rfl, verifyRecording_ok hverify⟩

theorem recordedNodeOrMissing_ok {bucket : NodeBucket} {kind : NodeKind} {parentId : String}
    {payload : Value} {attempt : ℤ} {node : StoredNode}
    (h : recordedNodeOrMissing H T bucket kind parentId payload attempt = .ok node) :
    ∃ candidate, Node.make H kind (some parentId) payload attempt = .ok candidate ∧
      replayNodeOrMissing H T bucket candidate = .ok node := by
  unfold recordedNodeOrMissing at h
  cases hmake : Node.make H kind (some parentId) payload attempt with
  | error error =>
      rw [hmake] at h
      cases h
  | ok candidate =>
      refine ⟨candidate, rfl, ?_⟩
      rw [hmake] at h
      simp only [bind, Except.bind] at h
      unfold replayNodeOrMissing
      split at h
      · exact absurd h raiseMissing_ne_ok
      · next hcontains =>
          rw [if_neg hcontains]
          cases hget : get T bucket candidate.id with
          | error error =>
              rw [hget] at h
              cases h
          | ok found =>
              rw [hget] at h
              dsimp only at h
              split at h
              · exact absurd h raiseMissing_ne_ok
              · exact h

theorem replayNodeOrMissing_of_get {bucket : NodeBucket} {candidate : Node} {node : StoredNode}
    (hget : get T bucket candidate.id = .ok node)
    (hverify : verify H T bucket node.id = .ok []) :
    replayNodeOrMissing H T bucket candidate = .ok node := by
  have hcontains : bucket.contains candidate.id = true := by
    cases hvalue : bucket.get? candidate.id with
    | none =>
        rw [get, hvalue] at hget
        cases hget
    | some value => rw [Dict.contains, hvalue, Option.isSome_some]
  have hrecording : verifyRecording H T bucket node.id = .ok () := by
    rw [verifyRecording, hverify]
    rfl
  simp [replayNodeOrMissing, hcontains, hget, hrecording, bind, Except.bind, pure, Except.pure]

/-- A node replay returns from where it belongs has the identity that was asked for. -/
theorem identity_of_replay {bucket : NodeBucket} {candidate : Node} {node : StoredNode}
    (h : replayNodeOrMissing H T bucket candidate = .ok node)
    (hcandidate : candidate.id = H.node candidate.identity)
    (hinjective : H.node node.identity = H.node candidate.identity →
      node.identity = candidate.identity)
    (hfiled : Filed T bucket candidate.id) : node.identity = candidate.identity := by
  obtain ⟨hget, hverify⟩ := replayNodeOrMissing_ok h
  have hid := hfiled node hget
  obtain ⟨found, hfound, hhash, -⟩ := clean_of_verify hverify .self
  rw [hid, hget, Except.ok.injEq] at hfound
  subst hfound
  exact hinjective (by rw [← hhash, hid, hcandidate])

/-! ## Soundness -/

theorem bind_ok {α β : Type} {x : Except PyError α} {f : α → Except PyError β} {b : β}
    (h : x >>= f = .ok b) : ∃ a, x = .ok a ∧ f a = .ok b := by
  cases x with
  | error error => cases h
  | ok a => exact ⟨a, rfl, h⟩

theorem checkStored_parent {id : String} {parent : Option String} {kind : NodeKind}
    {attempt : ℤ} {payload metadata : Value} {resultDigest : Option String} {u : Unit}
    (h : checkStored id parent kind attempt payload metadata resultDigest = .ok u) :
    kind = .root ↔ parent = none := by
  unfold checkStored at h
  split at h
  · cases h
  · split at h
    · cases h
    · next hroot =>
        split at h
        · cases h
        · next hother =>
            rw [not_or] at hother
            constructor
            · exact fun hkind => not_not.mp fun hparent => hroot ⟨hkind, hparent⟩
            · exact fun hparent => not_not.mp fun hkind => hother.2 ⟨hkind, hparent⟩

/-- Only roots are read back without a parent. -/
theorem parent_of_get {bucket : NodeBucket} {key : String} {node : StoredNode}
    (h : get T bucket key = .ok node) : node.kind = .root ↔ node.parent = none := by
  unfold get at h
  cases hvalue : bucket.get? key with
  | none =>
      rw [hvalue] at h
      cases h
  | some value =>
      rw [hvalue] at h
      dsimp only at h
      unfold nodeFromText at h
      obtain ⟨record, -, h⟩ := bind_ok h
      obtain ⟨parent, -, h⟩ := bind_ok h
      obtain ⟨resultText, -, h⟩ := bind_ok h
      obtain ⟨resultDigest, -, h⟩ := bind_ok h
      obtain ⟨id, -, h⟩ := bind_ok h
      obtain ⟨kind, -, h⟩ := bind_ok h
      obtain ⟨attempt, -, h⟩ := bind_ok h
      obtain ⟨payloadText, -, h⟩ := bind_ok h
      obtain ⟨metaText, -, h⟩ := bind_ok h
      split at h
      · next found hstorage =>
          cases h
          unfold fromStorage at hstorage
          obtain ⟨payload, -, hstorage⟩ := bind_ok hstorage
          obtain ⟨result, -, hstorage⟩ := bind_ok hstorage
          obtain ⟨metadata, -, hstorage⟩ := bind_ok hstorage
          split at hstorage
          · cases hstorage
          · split at hstorage
            · cases hstorage
            · split at hstorage
              · cases hstorage
              · obtain ⟨u, hchecked, hstorage⟩ := bind_ok hstorage
                cases hstorage
                exact checkStored_parent hchecked
      · cases h

/-- The node answers a request. -/
structure Answers (node : StoredNode) (kind : NodeKind) (parent : Option String)
    (attempt : ℤ) (payload : Value) : Prop where
  kind : node.kind = kind
  parent : node.parent = parent
  attempt : node.attempt = attempt
  payload : node.payload.canonical = payload.canonical

theorem answers_of_identity {bucket : NodeBucket} {key : String} {node : StoredNode}
    {candidate : Node} (hget : get T bucket key = .ok node)
    (hroot : candidate.kind = .root ↔ candidate.parent = none)
    (h : node.identity = candidate.identity) :
    Answers node candidate.kind candidate.parent candidate.attempt candidate.payload := by
  have hkind : node.kind = candidate.kind := congrArg Identity.kind h
  refine ⟨hkind, ?_, congrArg Identity.attempt h, congrArg Identity.payload h⟩
  have hstored := parent_of_get hget
  have hparent : node.parent.getD "" = candidate.parent.getD "" := congrArg Identity.parent h
  rw [hkind, hroot] at hstored
  cases hnode : node.parent with
  | none => exact (hstored.mpr hnode).symm
  | some p =>
      cases hcandidate : candidate.parent with
      | none =>
          rw [hstored.mp hcandidate] at hnode
          cases hnode
      | some q =>
          rw [hnode, hcandidate] at hparent
          exact congrArg some hparent

/-- A made node has a parent unless it is a root, and is named by its identity. -/
theorem candidate_of_make {kind : NodeKind} {parent : Option String} {payload : Value}
    {attempt : ℤ} {result : Option Value} {metadata : Dict String Value} {candidate : Node}
    (h : Node.make H kind parent payload attempt result metadata = .ok candidate) :
    (candidate.kind = .root ↔ candidate.parent = none) ∧
      candidate.id = H.node candidate.identity := by
  rw [Node.eq_of_make h]
  exact ⟨Node.root_of_make h, rfl⟩

variable (H T)

/-- A chain that verifies is sound exactly if each of its records is filed under its own
id; and replay answers a request from a record that is filed so. -/
theorem verification_sound_iff (bucket : NodeBucket) (id : String) (kind : NodeKind)
    (parent : Option String) (attempt : ℤ) (payload : Value)
    (hverify : verify H T bucket id = .ok [])
    (hinjective : ∀ node,
      get T bucket (H.nodeId kind parent attempt payload) = .ok node →
      H.node node.identity = H.nodeId kind parent attempt payload →
      node.identity = ⟨attempt, kind, parent.getD "", payload.canonical⟩) :
    ((∀ a, Ancestor T bucket id a → SoundAt H T bucket a) ↔
      ∀ a, Ancestor T bucket id a → Filed T bucket a) ∧
    (Filed T bucket (H.nodeId kind parent attempt payload) →
      (∀ candidate result metadata node,
        Node.make H kind parent payload attempt result metadata = .ok candidate →
        replayNodeOrMissing H T bucket candidate = .ok node →
        Answers node kind parent attempt payload) ∧
      ∀ parentId node, parent = some parentId →
        recordedNodeOrMissing H T bucket kind parentId payload attempt = .ok node →
        Answers node kind parent attempt payload) := by
  refine ⟨⟨fun h a ha => (soundAt_iff_filed hverify ha).mp (h a ha),
    fun h a ha => (soundAt_iff_filed hverify ha).mpr (h a ha)⟩, fun hfiled => ?_⟩
  have hanswers : ∀ candidate result metadata node,
      Node.make H kind parent payload attempt result metadata = .ok candidate →
      replayNodeOrMissing H T bucket candidate = .ok node →
      Answers node kind parent attempt payload := by
    intro candidate result metadata node hmake hreplay
    obtain ⟨hroot, hid⟩ := candidate_of_make hmake
    have hcandidate := Node.eq_of_make hmake
    have hget := (replayNodeOrMissing_ok hreplay).1
    have hkey : candidate.id = H.nodeId kind parent attempt payload := by rw [hcandidate]
    have hidentity := identity_of_replay hreplay hid (fun hhash => by
      rw [hkey] at hget
      rw [hinjective node hget (by rw [hhash, ← hid, hkey]), hcandidate]
      rfl) (hkey ▸ hfiled)
    have hresult := answers_of_identity hget hroot hidentity
    rw [hcandidate] at hresult
    exact hresult
  refine ⟨hanswers, ?_⟩
  rintro parentId node rfl hrecorded
  obtain ⟨candidate, hmake, hreplay⟩ := recordedNodeOrMissing_ok hrecorded
  exact hanswers candidate none ∅ node hmake hreplay

end Verify

/-! ## A recorded call -/

section Recording

def rootId : String := "cacbc19a1b31e8c433b90582bd99f62051b2183a79de45ab224cf6a86788a781"

def callId : String := "eb72e1257489c4ee9d631ee7e100480fd8af00bfd9efc8c9032c4df7e32964f7"

/-- The id of the second attempt of the call. -/
def retryId : String := "3f166894684e129d0a52c4cebada901ae3e12c64fb1e15b6bd3a22d3fb7aea58"

def digestOfOne : String :=
  "bb1092e4a82cc8f4a398ca4024212b186c25e64a78ecd65346f073284794691c"

def callPayload : Value := .dict [("model", .str "m")]

/-- SHA-256 on the identities of a root and of two attempts of a call below it. -/
def sampleHashing : Hashing :=
  { Hashing.plain with
    node := fun identity =>
      if identity = ⟨0, .root, "", .dict [("run", .str "r")]⟩ then rootId
      else if identity = ⟨0, .modelCall, rootId, callPayload⟩ then callId
      else if identity = ⟨1, .modelCall, rootId, callPayload⟩ then retryId
      else Hashing.plain.node identity }

def rootText : String :=
  "\x7b\"attempt\":0,\"id\":\"cacbc19a1b31e8c433b90582bd99f62051b2183a79de45ab224cf6a86788a781\",\"kind\":\"root\",\"meta\":\"\x7b\x7d\",\"payload\":\"\x7b\\\"run\\\":\\\"r\\\"\x7d\"\x7d"

def callText : String :=
  "\x7b\"attempt\":0,\"id\":\"eb72e1257489c4ee9d631ee7e100480fd8af00bfd9efc8c9032c4df7e32964f7\",\"kind\":\"model_call\",\"meta\":\"\x7b\x7d\",\"parent\":\"cacbc19a1b31e8c433b90582bd99f62051b2183a79de45ab224cf6a86788a781\",\"payload\":\"\x7b\\\"model\\\":\\\"m\\\"\x7d\",\"result\":\"1\"\x7d"

/-- The texts of the records and of the documents in them. -/
def sampleTexts : Texts where
  loads text :=
    if text = rootText then
      .ok (.dict [("attempt", .int 0), ("id", .str rootId), ("kind", .str "root"),
        ("meta", .str "\x7b\x7d"), ("payload", .str "\x7b\"run\":\"r\"\x7d")])
    else if text = callText then
      .ok (.dict [("attempt", .int 0), ("id", .str callId), ("kind", .str "model_call"),
        ("meta", .str "\x7b\x7d"), ("parent", .str rootId),
        ("payload", .str "\x7b\"model\":\"m\"\x7d"), ("result", .str "1")])
    else if text = "\x7b\"run\":\"r\"\x7d" then .ok (.dict [("run", .str "r")])
    else if text = "\x7b\"model\":\"m\"\x7d" then .ok callPayload
    else if text = "\x7b\x7d" then .ok (.dict [])
    else if text = "1" then .ok (.int 1)
    else .error (.valueError "Expecting value")
  resultDigest _ := digestOfOne

def rootNode : StoredNode :=
  ⟨rootId, none, .root, 0, .dict [("run", .str "r")], none, none, none, .dict []⟩

def callNode : StoredNode :=
  ⟨callId, some rootId, .modelCall, 0, callPayload, some (.int 1), some "1",
    some digestOfOne, .dict []⟩

theorem canonical_callPayload : callPayload.canonical = callPayload := by decide

theorem node_rootId : sampleHashing.node rootNode.identity = rootId := by
  have hidentity : rootNode.identity = ⟨0, .root, "", .dict [("run", .str "r")]⟩ := by
    rw [StoredNode.identity]
    decide
  rw [hidentity]
  simp [sampleHashing]

theorem node_callId :
    sampleHashing.node ⟨0, .modelCall, rootId, callPayload⟩ = callId := by
  simp [sampleHashing]

theorem identity_callNode : callNode.identity = ⟨0, .modelCall, rootId, callPayload⟩ := by
  rw [StoredNode.identity, callNode]
  dsimp only [Option.getD_some]
  rw [canonical_callPayload]

theorem isHex64_rootId : isHex64 rootId = true := by simp [isHex64, rootId]

theorem isHex64_callId : isHex64 callId = true := by simp [isHex64, callId]

theorem isHex64_digestOfOne : isHex64 digestOfOne = true := by simp [isHex64, digestOfOne]

theorem loads_rootPayload :
    sampleTexts.loads "\x7b\"run\":\"r\"\x7d" = .ok (.dict [("run", .str "r")]) := by
  simp [sampleTexts, rootText, callText]

theorem loads_callPayload :
    sampleTexts.loads "\x7b\"model\":\"m\"\x7d" = .ok callPayload := by
  simp [sampleTexts, rootText, callText]

theorem loads_empty : sampleTexts.loads "\x7b\x7d" = .ok (.dict []) := by
  simp [sampleTexts, rootText, callText]

theorem loads_one : sampleTexts.loads "1" = .ok (.int 1) := by
  simp [sampleTexts, rootText, callText]

theorem get_rootText {bucket : NodeBucket} {key : String}
    (h : bucket.get? key = some rootText) : get sampleTexts bucket key = .ok rootNode := by
  have hbytes : (Value.dict [("run", .str "r")]).canonicalBytes =
      .ok (.dict [("run", .str "r")]) := by decide
  have hchecked : checkStored rootId none .root 0 (.dict [("run", .str "r")]) (.dict []) none =
      .ok () :=
    checkStored_ok isHex64_rootId (by simp) rfl (le_refl 0) hbytes rfl rfl
  have hloads : sampleTexts.loads rootText = .ok (.dict [("attempt", .int 0),
      ("id", .str rootId), ("kind", .str "root"), ("meta", .str "\x7b\x7d"),
      ("payload", .str "\x7b\"run\":\"r\"\x7d")]) := by
    simp [sampleTexts]
  rw [get, h]
  exact nodeFromText_ok hloads rfl rfl rfl rfl rfl rfl rfl rfl
    (fromStorage_ok loads_rootPayload rfl loads_empty rfl rfl (by decide) hchecked)

theorem get_callText {bucket : NodeBucket} {key : String}
    (h : bucket.get? key = some callText) : get sampleTexts bucket key = .ok callNode := by
  have hbytes : callPayload.canonicalBytes = .ok callPayload := by decide
  have hchecked : checkStored callId (some rootId) .modelCall 0 callPayload (.dict [])
      (some digestOfOne) = .ok () :=
    checkStored_ok isHex64_callId (by simp) (by rw [Option.all_some, isHex64_rootId])
      (le_refl 0) hbytes rfl (by rw [Option.all_some, isHex64_digestOfOne])
  have hloads : sampleTexts.loads callText = .ok (.dict [("attempt", .int 0),
      ("id", .str callId), ("kind", .str "model_call"), ("meta", .str "\x7b\x7d"),
      ("parent", .str rootId), ("payload", .str "\x7b\"model\":\"m\"\x7d"), ("result", .str "1")]) := by
    have hne : callText ≠ rootText := by simp [callText, rootText]
    simp [sampleTexts, hne]
  have hresult : (some "1").mapM sampleTexts.loads = .ok (some (.int 1)) := by
    rw [Option.mapM_some, loads_one]
    rfl
  rw [get, h]
  exact nodeFromText_ok hloads rfl rfl rfl rfl rfl rfl rfl rfl
    (fromStorage_ok loads_callPayload hresult loads_empty rfl rfl (by decide) hchecked)

/-- A record of the call verifies under any key, on top of the record of its root. -/
theorem verify_callText {bucket : NodeBucket} {key : String} (hkey : key ≠ rootId)
    (hcall : bucket.get? key = some callText) (hroot : bucket.get? rootId = some rootText) :
    verify sampleHashing sampleTexts bucket key = .ok [] := by
  have hlength : 2 ≤ bucket.keys.length := by
    have hnodup : [key, rootId].Nodup := by simpa using hkey
    refine (List.subperm_of_subset hnodup fun other hother => ?_).length_le
    by_contra hmissing
    rw [← Dict.get?_eq_none_iff] at hmissing
    simp only [List.mem_cons, List.not_mem_nil, or_false] at hother
    rcases hother with rfl | rfl
    · rw [hcall] at hmissing
      cases hmissing
    · rw [hroot] at hmissing
      cases hmissing
  obtain ⟨fuel, hfuel⟩ := Nat.exists_eq_add_of_le hlength
  have hfrom : verifyFrom sampleHashing sampleTexts bucket (bucket.keys.length + 1) []
      (some key) = some (.ok []) := by
    have hcallNode : nodeFindings sampleHashing sampleTexts callNode = [] :=
      nodeFindings_eq_nil.mpr ⟨by rw [identity_callNode, node_callId]; rfl, by
        rintro text ⟨⟩
        rfl⟩
    have hrootNode : nodeFindings sampleHashing sampleTexts rootNode = [] :=
      nodeFindings_eq_nil.mpr ⟨node_rootId.symm, nofun⟩
    rw [hfuel, show 2 + fuel + 1 = fuel + 1 + 1 + 1 by omega]
    simp only [verifyFrom, get_callText hcall, List.not_mem_nil, if_false]
    rw [hcallNode]
    simp only [callNode, verifyFrom, get_rootText hroot, List.mem_singleton, hkey.symm, if_false]
    rw [hrootNode]
    rfl
  exact Option.get_of_eq_some _ hfrom

/-- A recording as it was written. -/
def recording : NodeBucket := .ofList [(rootId, rootText), (callId, callText)]

/-- The record of the first attempt filed under the second as well. -/
def misfiled : NodeBucket := recording.set retryId callText

theorem callId_ne_rootId : callId ≠ rootId := by simp [callId, rootId]

theorem recording_callId : recording.get? callId = some callText := by
  simp [recording, Dict.ofList]

theorem recording_rootId : recording.get? rootId = some rootText := by
  simp [recording, Dict.ofList, Dict.get?_set, callId_ne_rootId]

theorem verification_sound_iff_recording :
    ((∀ a, Ancestor sampleTexts recording callId a →
        SoundAt sampleHashing sampleTexts recording a) ↔
      ∀ a, Ancestor sampleTexts recording callId a → Filed sampleTexts recording a) ∧
    (Filed sampleTexts recording
        (sampleHashing.nodeId .modelCall (some rootId) 0 callPayload) →
      (∀ candidate result metadata node,
        Node.make sampleHashing .modelCall (some rootId) callPayload 0 result metadata =
          .ok candidate →
        replayNodeOrMissing sampleHashing sampleTexts recording candidate = .ok node →
        Answers node .modelCall (some rootId) 0 callPayload) ∧
      ∀ parentId node, some rootId = some parentId →
        recordedNodeOrMissing sampleHashing sampleTexts recording .modelCall parentId
          callPayload 0 = .ok node →
        Answers node .modelCall (some rootId) 0 callPayload) := by
  have hkey : sampleHashing.nodeId .modelCall (some rootId) 0 callPayload = callId := by
    rw [Hashing.nodeId, canonical_callPayload]
    exact node_callId
  refine verification_sound_iff sampleHashing sampleTexts recording callId .modelCall
    (some rootId) 0 callPayload (verify_callText callId_ne_rootId recording_callId
      recording_rootId) ?_
  intro node hget _
  rw [hkey, get_callText recording_callId, Except.ok.injEq] at hget
  rw [← hget, identity_callNode, canonical_callPayload]
  rfl

/-- Verification accepts a record filed under the id of another attempt, and replay
answers with it. -/
theorem misfiled_record_verifies :
    verify sampleHashing sampleTexts misfiled retryId = .ok [] ∧
    ¬ SoundAt sampleHashing sampleTexts misfiled retryId ∧
    ∃ candidate,
      Node.make sampleHashing .modelCall (some rootId) callPayload 1 = .ok candidate ∧
      replayNodeOrMissing sampleHashing sampleTexts misfiled candidate = .ok callNode ∧
      callNode.attempt ≠ candidate.attempt := by
  have hcallRetry : retryId ≠ callId := by simp [retryId, callId]
  have hrootRetry : retryId ≠ rootId := by simp [retryId, rootId]
  have hretry : misfiled.get? retryId = some callText := by simp [misfiled]
  have hcall : misfiled.get? callId = some callText := by
    rw [misfiled, Dict.get?_set, if_neg hcallRetry, recording_callId]
  have hroot : misfiled.get? rootId = some rootText := by
    rw [misfiled, Dict.get?_set, if_neg hrootRetry, recording_rootId]
  have hid : sampleHashing.nodeId .modelCall (some rootId) 1 callPayload = retryId := by
    rw [Hashing.nodeId, canonical_callPayload]
    simp [sampleHashing]
  have hhash : sampleHashing.node callNode.identity = callId := by
    rw [identity_callNode, node_callId]
  refine ⟨verify_callText hrootRetry hretry hroot, ?_, ?_⟩
  · rintro ⟨node, hget, hnode, -⟩
    rw [get_callText hretry, Except.ok.injEq] at hget
    subst hget
    exact hcallRetry (hnode.symm.trans hhash)
  · have hpayload : callPayload.canonicalBytes = .ok callPayload := by decide
    have hmake : Node.make sampleHashing .modelCall (some rootId) callPayload 1 =
        .ok ⟨retryId, some rootId, .modelCall, 1, callPayload, none, ∅⟩ := by
      rw [← hid]
      exact Node.make_ok (by decide) (by simp) hpayload (by decide) (by simp [Dict.values])
    exact ⟨_, hmake, replayNodeOrMissing_of_get (get_callText hretry)
      (verify_callText callId_ne_rootId hcall hroot), by decide⟩

end Recording

end Pollard.Stores.Verification
