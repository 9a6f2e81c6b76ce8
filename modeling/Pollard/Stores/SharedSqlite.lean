import Pollard.Stores.SharedNpm
import Pollard.Stores.SqliteCollection

/-!
# A recording shared by three languages

Payloads in one database that Python, Rust and npm write, read and compact.  Only the columns a
payload goes to are here; a row is under the id of its node.
-/

namespace Pollard.Stores.SharedSqlite

open Lib Lib.Fallible Interning SharedCodec

/-- The implementation that has the database open. -/
inductive Language where
  | python
  | rust
  | npm
deriving DecidableEq, Repr

/-- The text of a stored payload, and the rows of `blob_literals` for it. -/
structure Row where
  payload : String
  literals : List String
deriving DecidableEq

structure Tables where
  rows : Dict String Row
  blobs : Dict String String
deriving DecidableEq

namespace Tables

def empty : Tables := ⟨∅, ∅⟩

/-! ## Writing -/

section Put

variable (sha : List ℕ → String) (settings : Settings) (t : Tables) (id : String)

/-- The rows `put` inserts, in Python. -/
def pythonPut (payload : Value) : Except PyError Tables :=
  let interned := internPayload (digestOf sha) settings payload
  (SqliteNodes.Tables.insertBlobs t.blobs interned.2.1.entries).bind fun blobs =>
    interned.1.canonicalBytes.map fun bytes =>
      ⟨t.rows.set id ⟨bytes.dumps, interned.2.2.map pathText⟩, blobs⟩

/-- The loop over the blobs, whose digests another string is not to have. -/
def insertBlobs (blobs : Dict String String) (entries : List (String × String)) :
    Except Rust.Error (Dict String String) :=
  (SqliteNodes.Tables.insertBlobs blobs entries).mapError fun _ =>
    .integrity "blob digest collision"

/-- The rows `put_locked` inserts, in Rust; the blobs are in the order of their digests. -/
def rustPut (payload : Rust.Json) : Except Rust.Error Tables := do
  let interned ← Rust.intern sha (rustThreshold settings) payload []
  let blobs ← insertBlobs t.blobs
    ((Dict.ofList interned.2.blobs).entries.insertionSort fun a b => a.1 ≤ b.1)
  let stored ← interned.1.write
  let text ← Rust.utf8Text stored
  return ⟨t.rows.set id ⟨text, interned.2.literals⟩, blobs⟩

/-- The blobs of notes. -/
def noteBlobs (notes : List Npm.Note) : List (String × String) :=
  notes.filterMap fun
    | .blob digest value => some (Npm.text digest, Npm.text value)
    | .literal _ => none

/-- The texts of literals in notes. -/
def noteLiterals (notes : List Npm.Note) : List String :=
  notes.filterMap fun
    | .blob _ _ => none
    | .literal path => some (Npm.text path)

/-- The rows `put` inserts, in npm. -/
def npmPut (payload : Npm.JsValue) : Except Npm.Error Tables := do
  let mapped ← Npm.mapPayload
    (Npm.intern sha settings.internPayloads settings.internThreshold) payload []
  let blobs ← (SqliteNodes.Tables.insertBlobs t.blobs (noteBlobs mapped.2)).mapError fun _ =>
    .integrityError "blob digest collision"
  let stored ← (Npm.canonicalText mapped.1).mapError .typeError
  return ⟨t.rows.set id ⟨Npm.text stored, noteLiterals mapped.2⟩, blobs⟩

/-- The tables after `put` of a payload under an id that is not there. -/
def put : Language → Value → Option Tables
  | .python, payload => (t.pythonPut sha settings id payload).toOption
  | .rust, payload => (t.rustPut sha settings id payload.toRust).toOption
  | .npm, payload => (t.npmPut sha settings id payload.toJs).toOption

end Put

/-! ## Reading -/

section Get

variable (sha : List ℕ → String) (t : Tables) (row : Row)

/-- `json.loads` -/
def loads (text : String) : Except PyError Value :=
  match Value.loads text with
  | some value => .ok value
  | none => .error (.valueError "not a JSON text")

/-- `serde_json::from_str` -/
def fromStr (text : String) : Except Rust.Error Rust.Json :=
  match Value.loads text with
  | some value => .ok value.toRust
  | none => .error (.invalid "not a JSON text")

/-- `JSON.parse` -/
def jsonParse (text : Npm.Units) : Except Npm.Error Npm.JsValue :=
  match Value.loads (Npm.text text) with
  | some value => .ok value.toJs
  | none => .error (.typeError (Npm.units "not a JSON text"))

/-- The payload of `_get_optional` in Python. -/
def pythonGet : Except PyError Value := do
  let stored ← loads row.payload
  let payload ← rehydrate (pathsOf row.literals) (blobValue t.blobs) stored []
  let bytes ← payload.canonicalBytes
  loads bytes.dumps

/-- The payload of `get_optional` in Rust. -/
def rustGet : Except Rust.Error Rust.Json := do
  let stored ← fromStr row.payload
  let payload ← Rust.rehydrate sha t.blobs row.literals stored []
  let text ← Rust.encode payload
  fromStr text

/-- The payload of `get` in npm. -/
def npmGet : Except Npm.Error Npm.JsValue := do
  let stored ← jsonParse (Npm.units row.payload)
  let payload ← Npm.mapPayload (Npm.rehydrate sha t.blobs row.literals) stored []
  let text ← (Npm.canonicalText payload.1).mapError .typeError
  jsonParse text

/-! ## Compaction -/

/-- The references each language finds in a row. -/
def references : Language → Option (List String)
  | .python => (do
      let stored ← loads row.payload
      return referencedBlobs (pathsOf row.literals) stored []).toOption
  | .rust => (do
      let stored ← fromStr row.payload
      Rust.collectReferences row.literals stored []).toOption
  | .npm => (do
      let stored ← jsonParse (Npm.units row.payload)
      let mapped ← Npm.mapPayload (Npm.references row.literals) stored []
      return mapped.2.map Npm.text).toOption

/-- `compact`, which deletes what no row refers to. -/
def compact (language : Language) : Tables :=
  match t.rows.values.mapM fun row => references row language with
  | some found => { t with blobs := t.blobs.filter fun e => e.1 ∈ found.flatten }
  | none => t

end Get

end Tables

/-! ## Runs -/

/-- What the users of a database do to its payloads. -/
inductive Step where
  | put (language : Language) (settings : Settings) (id : String) (payload : Value)
  | compact (language : Language)

/-- A step; `put` under an id that is there, or one that fails, leaves payloads as they are. -/
def step (sha : List ℕ → String) (t : Tables) : Step → Tables
  | .put language settings id payload =>
      if (t.rows.get? id).isSome then t else (t.put sha settings id language payload).getD t
  | .compact language => t.compact language

def run (sha : List ℕ → String) (t : Tables) (steps : List Step) : Tables :=
  steps.foldl (step sha) t

/-! ## What a put writes -/

theorem get?_insertBlobs {entries : List (String × String)} {blobs after : Dict String String}
    (h : SqliteNodes.Tables.insertBlobs blobs entries = .ok after) (digest text : String) :
    after.get? digest = some text ↔ blobs.get? digest = some text ∨ (digest, text) ∈ entries := by
  constructor
  · intro hafter
    induction entries generalizing blobs with
    | nil =>
        cases h
        exact .inl hafter
    | cons e entries ih =>
        obtain ⟨d, value⟩ := e
        rw [SqliteNodes.Tables.insertBlobs] at h
        split at h
        · split at h
          · cases h
          · exact (ih h).imp_right (List.mem_cons_of_mem _)
        · rcases ih h with hblobs | hrest
          · rw [Dict.get?_set] at hblobs
            split at hblobs
            · next hd =>
                cases hblobs
                rw [hd]
                exact .inr List.mem_cons_self
            · exact .inl hblobs
          · exact .inr (List.mem_cons_of_mem _ hrest)
  · obtain ⟨hkeep, hnew⟩ := SqliteNodes.insertBlobs_ok h
    exact fun h => h.elim (hkeep digest text) (hnew (digest, text))

/-- What is in the tables after a put, of which Python would have noted these things. -/
structure Inserted (sha : List ℕ → String) (settings : Settings) (payload : Value)
    (t after : Tables) (id : String) (row : Row) (entries : List (String × String)) : Prop where
  rows : after.rows = t.rows.set id row
  blobs : ∀ digest text, after.blobs.get? digest = some text ↔
    t.blobs.get? digest = some text ∨ (digest, text) ∈ entries
  noted : ∀ e ∈ entries, e ∈ (visit (digestOf sha) settings payload []).2.blobs
  complete : CollisionFree (digestOf sha) settings payload →
    ∀ e ∈ (visit (digestOf sha) settings payload []).2.blobs, e ∈ entries
  text : payload.isPortable = true →
    row.payload = (visit (digestOf sha) settings payload []).1.canonical.dumps
  literals : ∀ path, path ∈ pathsOf row.literals ↔
    path ∈ (visit (digestOf sha) settings payload []).2.literalPaths

section Portable

variable (sha256 : String → String) (settings : Settings)

mutual

/-- A visit notes strings under their digests. -/
theorem digest_of_visit : ∀ (value : Value) (path : Path),
    ∀ e ∈ (visit sha256 settings value path).2.blobs, sha256 e.2 = e.1
  | .none, _, _, he | .bool _, _, _, he | .int _, _, _, he | .float _, _, _, he
  | .surrogates _, _, _, he | .foreign _, _, _, he => by cases he
  | .str text, path, e, he => by
      rw [visit] at he
      split at he
      · rw [List.mem_singleton.mp he]
      · cases he
  | .list items, path, e, he => by
      rw [visit] at he
      exact digest_of_visitItems items path 0 e he
  | .dict entries, path, e, he => by
      rw [visit] at he
      split at he
      · cases he
      · exact digest_of_visitEntries entries path e he

theorem digest_of_visitEntries : ∀ (entries : List (String × Value)) (path : Path),
    ∀ e ∈ (visitEntries sha256 settings entries path).2.blobs, sha256 e.2 = e.1
  | [], _, _, he => by cases he
  | (key, value) :: entries, path, e, he => by
      rw [visitEntries] at he
      rcases List.mem_append.mp he with he | he
      · exact digest_of_visit value _ e he
      · exact digest_of_visitEntries entries path e he

theorem digest_of_visitItems : ∀ (items : List Value) (path : Path) (i : ℕ),
    ∀ e ∈ (visitItems sha256 settings items path i).2.blobs, sha256 e.2 = e.1
  | [], _, _, _, he => by cases he
  | item :: items, path, i, e, he => by
      rw [visitItems] at he
      rcases List.mem_append.mp he with he | he
      · exact digest_of_visit item _ e he
      · exact digest_of_visitItems items path _ e he

end

mutual

theorem isPortable_visit : ∀ (value : Value) (path : Path), value.isPortable = true →
    (visit sha256 settings value path).1.isPortable = true
  | .none, _, h | .bool _, _, h | .int _, _, h => h
  | .str text, path, _ => by
      rw [visit]
      split <;> simp [Value.isPortable, Value.isPortableEntries, Assoc.keys]
  | .list items, path, h => by
      rw [visit, Value.isPortable]
      exact isPortable_visitItems items path 0 h
  | .dict entries, path, h => by
      rw [visit]
      split
      · exact h
      · simp only [Value.isPortable, decide_eq_true_eq] at h ⊢
        obtain ⟨hkeys, hvalues⟩ := isPortable_visitEntries entries path h.2
        rw [hkeys]
        exact ⟨h.1, hvalues⟩

theorem isPortable_visitEntries : ∀ (entries : List (String × Value)) (path : Path),
    Value.isPortableEntries entries = true →
    Assoc.keys (visitEntries sha256 settings entries path).1 = Assoc.keys entries ∧
      Value.isPortableEntries (visitEntries sha256 settings entries path).1 = true
  | [], _, h => ⟨rfl, h⟩
  | (key, value) :: entries, path, h => by
      rw [Value.isPortableEntries, Bool.and_eq_true] at h
      obtain ⟨hkeys, hvalues⟩ := isPortable_visitEntries entries path h.2
      rw [visitEntries, Value.isPortableEntries, isPortable_visit value _ h.1, hvalues]
      exact ⟨congrArg (key :: ·) hkeys, rfl⟩

theorem isPortable_visitItems : ∀ (items : List Value) (path : Path) (i : ℕ),
    Value.isPortableItems items = true →
    Value.isPortableItems (visitItems sha256 settings items path i).1 = true
  | [], _, _, h => h
  | item :: items, path, i, h => by
      rw [Value.isPortableItems, Bool.and_eq_true] at h
      rw [visitItems, Value.isPortableItems, isPortable_visit item _ h.1,
        isPortable_visitItems items path _ h.2]
      rfl

end

mutual

theorem distinctKeys_of_isPortable : ∀ value : Value, value.isPortable = true →
    distinctKeys value
  | .none, _ | .bool _, _ | .int _, _ | .str _, _ => trivial
  | .list items, h => distinctKeysItems_of_isPortable items h
  | .dict entries, h => by
      simp only [Value.isPortable, decide_eq_true_eq] at h
      exact ⟨h.1, distinctKeysEntries_of_isPortable entries h.2⟩

theorem distinctKeysItems_of_isPortable : ∀ items : List Value,
    Value.isPortableItems items = true → distinctKeysItems items
  | [], _ => trivial
  | item :: items, h => by
      rw [Value.isPortableItems, Bool.and_eq_true] at h
      exact ⟨distinctKeys_of_isPortable item h.1, distinctKeysItems_of_isPortable items h.2⟩

theorem distinctKeysEntries_of_isPortable : ∀ entries : List (String × Value),
    Value.isPortableEntries entries = true → distinctKeysEntries entries
  | [], _ => trivial
  | (_, value) :: entries, h => by
      rw [Value.isPortableEntries, Bool.and_eq_true] at h
      exact ⟨distinctKeys_of_isPortable value h.1, distinctKeysEntries_of_isPortable entries h.2⟩

end

end Portable

section Written

variable {sha : List ℕ → String} {settings : Settings} {t after : Tables} {id : String}
  {payload : Value}

theorem mem_pathsOf_map {paths : List Path} {path : Path} :
    path ∈ pathsOf (paths.map pathText) ↔ path ∈ paths := by
  have hinj : Function.Injective pathText := by
    intro p q heq
    have hp := pathOf_pathText p
    rw [heq, pathOf_pathText] at hp
    exact (Option.some.inj hp).symm
  rw [mem_pathsOf, List.mem_map_of_injective hinj]

theorem pythonPut_inserted (h : t.pythonPut sha settings id payload = .ok after) :
    ∃ row entries, Inserted sha settings payload t after id row entries := by
  obtain ⟨blobs, hblobs, h⟩ := bind_ok_iff.mp h
  obtain ⟨bytes, hbytes, rfl⟩ := map_ok_iff.mp h
  obtain ⟨rfl, -⟩ := Value.isIdentity_of_canonicalBytes hbytes
  refine ⟨_, _, rfl, get?_insertBlobs hblobs, fun e he => Dict.mem_of_mem_ofList he,
    fun hfree e he => Dict.mem_entries_iff.mpr (get?_internPayload hfree he), fun _ => rfl,
    fun path => mem_pathsOf_map⟩

theorem rustPut_inserted (h : t.rustPut sha settings id payload.toRust = .ok after) :
    ∃ row entries, Inserted sha settings payload t after id row entries := by
  have hintern := @intern_toRust sha settings payload []
  change Rust.intern sha (rustThreshold settings) payload.toRust [] = _ at hintern
  obtain ⟨interned, hinterned, h⟩ := bind_ok_iff.mp h
  rw [hintern] at hinterned
  cases hinterned
  obtain ⟨blobs, hblobs, h⟩ := bind_ok_iff.mp h
  obtain ⟨stored, hstored, h⟩ := bind_ok_iff.mp h
  obtain ⟨text, htext, h⟩ := bind_ok_iff.mp h
  cases h
  have hsorted {e : String × String} : e ∈ (Dict.ofList (rustNotes
      (visit (digestOf sha) settings payload []).2).blobs).entries.insertionSort (fun a b =>
        a.1 ≤ b.1) ↔ e ∈ (Dict.ofList (visit (digestOf sha) settings payload []).2.blobs).entries :=
    List.mem_insertionSort _
  refine ⟨_, _, rfl, get?_insertBlobs (mapError_ok hblobs), fun e he =>
    Dict.mem_of_mem_ofList (hsorted.mp he), fun hfree e he =>
      hsorted.mpr (Dict.mem_entries_iff.mpr (get?_internPayload hfree he)), fun hportable => ?_,
    fun path => mem_pathsOf_map⟩
  have hidentity := Value.isIdentity_of_isPortable _
    (isPortable_visit (digestOf sha) settings payload [] hportable)
  rw [Value.write_toRust _ hidentity] at hstored
  cases hstored
  rw [utf8Text_utf8Bytes] at htext
  exact (Except.ok.inj htext).symm

theorem noteBlobs_npmNotes (notes : Notes) : Tables.noteBlobs (npmNotes notes) = notes.blobs := by
  have hblobs : (notes.blobs.map fun e =>
      Npm.Note.blob (Npm.units e.1) (Npm.units e.2)).filterMap (fun
        | .blob digest value => some (Npm.text digest, Npm.text value)
        | .literal _ => none) = notes.blobs := by
    rw [List.filterMap_map]
    refine (List.filterMap_congr fun e _ => ?_).trans List.filterMap_some
    simp [text_units]
  rw [Tables.noteBlobs, npmNotes, List.filterMap_append, hblobs, List.filterMap_map]
  simp

theorem noteLiterals_npmNotes (notes : Notes) :
    Tables.noteLiterals (npmNotes notes) = notes.literalPaths.map pathText := by
  have hliterals : (notes.literalPaths.map fun path =>
      Npm.Note.literal (Npm.units (pathText path))).filterMap (fun
        | .blob _ _ => none
        | .literal path => some (Npm.text path)) = notes.literalPaths.map pathText := by
    rw [List.filterMap_map, ← List.filterMap_eq_map]
    exact List.filterMap_congr fun path _ => by simp [text_units]
  rw [Tables.noteLiterals, npmNotes, List.filterMap_append, hliterals, List.filterMap_map]
  simp

theorem npmPut_inserted (h : t.npmPut sha settings id payload.toJs = .ok after) :
    ∃ row entries, Inserted sha settings payload t after id row entries := by
  obtain ⟨notes, hperm, hmap⟩ := @intern_toJs sha settings payload []
  change Npm.mapPayload _ _ [] = _ at hmap
  obtain ⟨mapped, hmapped, h⟩ := bind_ok_iff.mp h
  rw [hmap] at hmapped
  cases hmapped
  obtain ⟨blobs, hblobs, h⟩ := bind_ok_iff.mp h
  obtain ⟨stored, hstored, h⟩ := bind_ok_iff.mp h
  cases h
  have hentries : (Tables.noteBlobs notes).Perm
      (visit (digestOf sha) settings payload []).2.blobs := by
    rw [← noteBlobs_npmNotes]
    exact hperm.filterMap _
  have hliterals : (Tables.noteLiterals notes).Perm
      ((visit (digestOf sha) settings payload []).2.literalPaths.map pathText) := by
    rw [← noteLiterals_npmNotes]
    exact hperm.filterMap _
  refine ⟨_, _, rfl, get?_insertBlobs (mapError_ok hblobs), fun e he => hentries.mem_iff.mp he,
    fun _ e he => hentries.mem_iff.mpr he, fun hportable => ?_, fun path => ?_⟩
  · have hstored' := mapError_ok hstored
    rw [Npm.canonicalText, Value.encode_toJs _ _
      (isPortable_visit (digestOf sha) settings payload [] hportable)] at hstored'
    cases hstored'
    exact text_units _
  · rw [mem_pathsOf, hliterals.mem_iff, ← mem_pathsOf, mem_pathsOf_map]

theorem put_inserted {language : Language} (h : t.put sha settings id language payload = some after) :
    ∃ row entries, Inserted sha settings payload t after id row entries := by
  cases language with
  | python => exact pythonPut_inserted (toOption_eq_some h)
  | rust => exact rustPut_inserted (toOption_eq_some h)
  | npm => exact npmPut_inserted (toOption_eq_some h)

end Written

/-! ## What a row holds -/

/-- The row of an id holds a payload, which Python reads from it. -/
structure Holds (t : Tables) (id : String) (payload stored : Value) (row : Row) : Prop where
  found : t.rows.get? id = some row
  text : row.payload = stored.canonical.dumps
  portable : stored.isPortable = true
  read : rehydrate (pathsOf row.literals) (blobValue t.blobs) stored.canonical [] =
    .ok payload.canonical

/-- Blobs that a row refers to are there. -/
theorem Holds.needed {t : Tables} {id : String} {payload stored : Value} {row : Row}
    (h : Holds t id payload stored row) :
    Determined (blobValue t.blobs) (referencedBlobs (pathsOf row.literals) stored.canonical [])
      fun other => rehydrate (pathsOf row.literals) other stored.canonical [] =
        .ok payload.canonical :=
  rehydrate_determined _ _ _ h.read

theorem blobValue_ok_iff {blobs : Dict String String} {digest text : String} :
    blobValue blobs digest = .ok text ↔ blobs.get? digest = some text := by
  unfold blobValue
  cases blobs.get? digest with
  | none => simp
  | some stored => simp

/-- Tables with the row, and with the blobs it refers to, hold the payload too. -/
theorem Holds.of_tables {t after : Tables} {id : String} {payload stored : Value} {row : Row}
    (h : Holds t id payload stored row) (hrow : after.rows.get? id = some row)
    (hblobs : ∀ digest ∈ referencedBlobs (pathsOf row.literals) stored.canonical [], ∀ text,
      t.blobs.get? digest = some text → after.blobs.get? digest = some text) :
    Holds after id payload stored row where
  found := hrow
  text := h.text
  portable := h.portable
  read := by
    obtain ⟨hfound, hsame⟩ := h.needed
    refine hsame _ fun digest hdigest => ?_
    obtain ⟨text, htext⟩ := hfound digest hdigest
    rw [htext, blobValue_ok_iff]
    exact hblobs digest hdigest text (blobValue_ok_iff.mp htext)

section Read

variable {sha : List ℕ → String} {t : Tables} {id : String} {payload stored : Value} {row : Row}

theorem Holds.loads (h : Holds t id payload stored row) :
    Value.loads row.payload = some stored.canonical := by
  rw [h.text]
  refine Value.loads_dumps ?_
  rw [Value.isIdentity_canonical]
  exact Value.isIdentity_of_isPortable _ h.portable

/-- Each language reads the payload. -/
theorem Holds.get (h : Holds t id payload stored row) (hdigested : Digested sha t.blobs)
    (hportable : payload.isPortable = true) :
    t.pythonGet row = .ok payload.canonical ∧
      t.rustGet sha row = .ok payload.canonical.toRust ∧
      t.npmGet sha row = .ok payload.canonical.toJs := by
  have hcanonical := Value.isPortable_canonical payload hportable
  have hidentity := Value.isIdentity_of_isPortable _ hcanonical
  have hloads := Value.loads_dumps hidentity
  have hrust := rehydrate_toRust hdigested _ _ _ h.read
  have hnpm := rehydrate_toJs hdigested h.read
  have hencode := Value.encode_toJs _ (Npm.units "$") hcanonical
  rw [Value.canonical_canonical] at hencode
  refine ⟨?_, ?_, ?_⟩
  · simp only [Tables.pythonGet, Tables.loads, h.loads, h.read, bind, Except.bind,
      Value.canonicalBytes_ok hidentity, Value.canonical_canonical, hloads]
  · change Rust.rehydrate sha t.blobs row.literals stored.canonical.toRust [] = _ at hrust
    simp only [Tables.rustGet, Tables.fromStr, h.loads, bind, Except.bind, hrust,
      encode_toRust hidentity, hloads]
  · change Npm.mapPayload (Npm.rehydrate sha t.blobs row.literals) stored.canonical.toJs [] = _
      at hnpm
    simp only [Tables.npmGet, Tables.jsonParse, text_units, h.loads, bind, Except.bind, hnpm,
      Npm.canonicalText, hencode, Except.mapError, hloads]

/-- Each language finds the references Python finds. -/
theorem Holds.references (h : Holds t id payload stored row) (language : Language) :
    ∃ found, Tables.references row language = some found ∧
      found.Perm (referencedBlobs (pathsOf row.literals) stored.canonical []) := by
  cases language with
  | python =>
      refine ⟨_, ?_, .refl _⟩
      simp only [Tables.references, Tables.loads, h.loads]
      rfl
  | rust =>
      refine ⟨_, ?_, .refl _⟩
      have hrust := @collectReferences_toRust row.literals stored.canonical []
      change Rust.collectReferences row.literals stored.canonical.toRust [] = _ at hrust
      simp only [Tables.references, Tables.fromStr, h.loads]
      change (Rust.collectReferences row.literals stored.canonical.toRust []).toOption = _
      rw [hrust]
      rfl
  | npm =>
      obtain ⟨notes, hperm, hmap⟩ := @references_toJs row.literals stored.canonical []
      change Npm.mapPayload _ _ [] = _ at hmap
      refine ⟨notes.map Npm.text, ?_, ?_⟩
      · simp only [Tables.references, Tables.jsonParse, text_units, h.loads]
        change ((Npm.mapPayload (Npm.references row.literals) stored.canonical.toJs []).bind
          _).toOption = _
        rw [hmap]
        rfl
      · have hback := hperm.map Npm.text
        rw [List.map_map] at hback
        exact hback.trans (.of_eq ((List.map_congr_left fun d _ => text_units d).trans
          (List.map_id _)))

end Read

/-! ## Runs -/

section Run

variable {sha : List ℕ → String} {t : Tables}

/-- A put writes a row that holds its payload. -/
theorem holds_put (hhex : ∀ octets, isDigest (sha octets) = true) {after : Tables}
    {language : Language} {settings : Settings} {id : String} {payload : Value}
    (hportable : payload.isPortable = true)
    (hfree : CollisionFree (digestOf sha) settings payload)
    (h : t.put sha settings id language payload = some after) :
    ∃ stored row, Holds after id payload stored row := by
  obtain ⟨row, entries, hinserted⟩ := put_inserted h
  refine ⟨_, row, by rw [hinserted.rows, Dict.get?_set_self], hinserted.text hportable,
    isPortable_visit _ _ _ _ hportable, rehydrate_canonical _ _ _ ?_⟩
  refine rehydrate_visit (fun text => hhex _) payload [] (distinctKeys_of_isPortable _ hportable)
    (fun path _ => hinserted.literals path) fun e he => ?_
  exact blobValue_ok_iff.mpr ((hinserted.blobs _ _).mpr (.inr (hinserted.complete hfree e he)))

theorem mem_of_mapM {α β : Type} {f : α → Option β} {as : List α} {bs : List β} {a : α} {b : β}
    (h : as.mapM f = some bs) (ha : a ∈ as) (hb : f a = some b) : b ∈ bs := by
  induction as generalizing bs with
  | nil => cases ha
  | cons first as ih =>
      rw [List.mapM_cons] at h
      obtain ⟨c, hc, h⟩ := Option.bind_eq_some_iff.mp h
      obtain ⟨cs, hcs, h⟩ := Option.bind_eq_some_iff.mp h
      cases h
      rcases List.mem_cons.mp ha with rfl | ha
      · rw [hc] at hb
        cases hb
        exact List.mem_cons_self
      · exact List.mem_cons_of_mem _ (ih hcs ha)

theorem get?_compact {digest text : String} {language : Language}
    (h : (t.compact language).blobs.get? digest = some text) : t.blobs.get? digest = some text := by
  unfold Tables.compact at h
  split at h
  · rw [Dict.get?_filter] at h
    exact (Option.filter_eq_some_iff.mp h).1
  · exact h

/-- A compaction keeps what a row holds. -/
theorem Holds.compact {id : String} {payload stored : Value} {row : Row}
    (h : Holds t id payload stored row) (language : Language) :
    Holds (t.compact language) id payload stored row := by
  unfold Tables.compact
  split
  · next found hfound =>
      refine h.of_tables h.found fun digest hdigest text htext => ?_
      obtain ⟨references, hreferences, hperm⟩ := h.references language
      have hmem := mem_of_mapM hfound (Dict.mem_values_of_get? h.found) hreferences
      rw [Dict.get?_filter, htext]
      refine Option.filter_eq_some_iff.mpr ⟨rfl, ?_⟩
      rw [decide_eq_true_eq]
      exact List.mem_flatten.mpr ⟨references, hmem, hperm.mem_iff.mpr hdigest⟩
  · exact h

theorem digested_step (h : Digested sha t.blobs) (action : Step) :
    Digested sha (step sha t action).blobs := by
  cases action with
  | put language settings id payload =>
      rw [step]
      split
      · exact h
      · cases hput : t.put sha settings id language payload with
        | none => exact h
        | some after =>
            obtain ⟨row, entries, hinserted⟩ := put_inserted hput
            intro digest text htext
            rcases (hinserted.blobs digest text).mp htext with hold | hnew
            · exact h digest text hold
            · exact digest_of_visit _ _ payload [] _ (hinserted.noted _ hnew)
  | compact language => exact fun digest text htext => h digest text (get?_compact htext)

theorem Holds.step {id : String} {payload stored : Value} {row : Row}
    (h : Holds t id payload stored row) (action : Step) :
    Holds (step sha t action) id payload stored row := by
  cases action with
  | put language settings other otherPayload =>
      rw [SharedSqlite.step]
      split
      · exact h
      · next hfresh =>
          cases hput : t.put sha settings other language otherPayload with
          | none => exact h
          | some after =>
              obtain ⟨otherRow, entries, hinserted⟩ := put_inserted hput
              have hne : other ≠ id := by
                rintro rfl
                rw [h.found] at hfresh
                exact hfresh rfl
              refine h.of_tables ?_ fun digest _ text htext =>
                (hinserted.blobs digest text).mpr (.inl htext)
              change after.rows.get? id = some row
              rw [hinserted.rows, Dict.get?_set_of_ne _ _ hne, h.found]
  | compact language => exact h.compact language

theorem run_spec {id : String} {payload stored : Value} {row : Row} (steps : List Step)
    (hdigested : Digested sha t.blobs) (h : Holds t id payload stored row) :
    Digested sha (run sha t steps).blobs ∧ Holds (run sha t steps) id payload stored row := by
  induction steps generalizing t with
  | nil => exact ⟨hdigested, h⟩
  | cons action steps ih => exact ih (digested_step hdigested action) (h.step action)

theorem digested_run (steps : List Step) (h : Digested sha t.blobs) :
    Digested sha (run sha t steps).blobs := by
  induction steps generalizing t with
  | nil => exact h
  | cons action steps ih => exact ih (digested_step h action)

end Run

/-- The digest of no string in particular. -/
def zeroDigest : String := String.ofList (List.replicate 64 '0')

/-- A payload with a long string, and with an object that looks like a reference to it. -/
def imitation : Value := .dict [("text", .str "long"), ("look", .dict [(blobRef, .str zeroDigest)])]

end Pollard.Stores.SharedSqlite
