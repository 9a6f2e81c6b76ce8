import Pollard.Json
import Pollard.Lib.Fallible

/-!
# Interned payloads

A stored payload has a reference in the place of a long string, to a blob under the digest
of the string.  A dictionary of the payload itself that looks like a reference is left as it
is, and its place noted.
-/

namespace Pollard.Stores.Interning

open Lib Lib.Fallible

/-- A key of a dictionary, or an index of a list. -/
inductive PathItem where
  | key (name : String)
  | index (i : ℕ)
deriving DecidableEq

/-- A path; it stands for its JSON text. -/
abbrev Path := List PathItem

/-- `_BLOB_REF` -/
def blobRef : String := "__pollard_ref"

/-- The form of a SHA-256 digest. -/
def isDigest (text : String) : Bool :=
  text.length = 64 ∧ text.toList.all fun c => c ∈ "0123456789abcdef".toList

/-- `_blob_digest` -/
def blobDigest : Value → Option String
  | .dict [(key, .str digest)] => if key = blobRef ∧ isDigest digest then some digest else none
  | _ => none

/-- What a visit notes: strings under their digests, and the places of literals. -/
structure Notes where
  blobs : List (String × String)
  literalPaths : List Path

namespace Notes

def none : Notes := ⟨[], []⟩

def append (a b : Notes) : Notes :=
  ⟨a.blobs ++ b.blobs, a.literalPaths ++ b.literalPaths⟩

end Notes

/-- The settings of a store: `intern_payloads` and `intern_threshold`. -/
structure Settings where
  internPayloads : Bool
  internThreshold : ℕ
  positive : 1 ≤ internThreshold
deriving DecidableEq

section Codec

variable (sha256 : String → String)

section Visit

variable (settings : Settings)

mutual

/-- `visit`: the value to store, and what to note.  A payload that gets here has a
canonical text, so its strings have a UTF-8 form. -/
def visit : Value → Path → Value × Notes
  | .str text, _ =>
      if settings.internPayloads ∧ settings.internThreshold ≤ text.utf8ByteSize then
        (.dict [(blobRef, .str (sha256 text))], ⟨[(sha256 text, text)], []⟩)
      else (.str text, .none)
  | .dict entries, path =>
      if (blobDigest (.dict entries)).isSome then (.dict entries, ⟨[], [path]⟩)
      else
        let visited := visitEntries entries path
        (.dict visited.1, visited.2)
  | .list items, path =>
      let visited := visitItems items path 0
      (.list visited.1, visited.2)
  | value, _ => (value, .none)

def visitEntries : List (String × Value) → Path → List (String × Value) × Notes
  | [], _ => ([], .none)
  | (key, value) :: entries, path =>
      let first := visit value (path ++ [.key key])
      let rest := visitEntries entries path
      ((key, first.1) :: rest.1, first.2.append rest.2)

def visitItems : List Value → Path → ℕ → List Value × Notes
  | [], _, _ => ([], .none)
  | item :: items, path, i =>
      let first := visit item (path ++ [.index i])
      let rest := visitItems items path (i + 1)
      (first.1 :: rest.1, first.2.append rest.2)

end

/-- `_intern_payload`: the stored payload, its blobs and the paths of its literals. -/
def internPayload (payload : Value) : Value × Dict String String × List Path :=
  let visited := visit sha256 settings payload []
  (visited.1, Dict.ofList visited.2.blobs, visited.2.literalPaths)

end Visit

variable (literalPaths : List Path)

section Rehydrate

variable (blobValue : String → Except PyError String)

mutual

/-- `_rehydrate_payload` -/
def rehydrate : Value → Path → Except PyError Value
  | .dict entries, path =>
      match blobDigest (.dict entries) with
      | some digest =>
          if path ∈ literalPaths then (rehydrateEntries entries path).map .dict
          else (blobValue digest).map .str
      | none => (rehydrateEntries entries path).map .dict
  | .list items, path => (rehydrateItems items path 0).map .list
  | value, _ => .ok value

def rehydrateEntries : List (String × Value) → Path → Except PyError (List (String × Value))
  | [], _ => .ok []
  | (key, value) :: entries, path =>
      (rehydrate value (path ++ [.key key])).bind fun value =>
        (rehydrateEntries entries path).map fun entries => (key, value) :: entries

def rehydrateItems : List Value → Path → ℕ → Except PyError (List Value)
  | [], _, _ => .ok []
  | item :: items, path, i =>
      (rehydrate item (path ++ [.index i])).bind fun item =>
        (rehydrateItems items path (i + 1)).map fun items => item :: items

end

end Rehydrate

mutual

/-- `_referenced_blobs` -/
def referencedBlobs : Value → Path → List String
  | .dict entries, path =>
      match blobDigest (.dict entries) with
      | some digest => if path ∈ literalPaths then [] else [digest]
      | none => referencedEntries entries path
  | .list items, path => referencedItems items path 0
  | _, _ => []

def referencedEntries : List (String × Value) → Path → List String
  | [], _ => []
  | (key, value) :: entries, path =>
      referencedBlobs value (path ++ [.key key]) ++ referencedEntries entries path

def referencedItems : List Value → Path → ℕ → List String
  | [], _, _ => []
  | item :: items, path, i =>
      referencedBlobs item (path ++ [.index i]) ++ referencedItems items path (i + 1)

end

end Codec

/-! ## Interning and back -/

mutual

/-- No dictionary has a key twice. -/
def distinctKeys : Value → Prop
  | .dict entries => (Assoc.keys entries).Nodup ∧ distinctKeysEntries entries
  | .list items => distinctKeysItems items
  | _ => True

def distinctKeysEntries : List (String × Value) → Prop
  | [] => True
  | (_, value) :: entries => distinctKeys value ∧ distinctKeysEntries entries

def distinctKeysItems : List Value → Prop
  | [] => True
  | item :: items => distinctKeys item ∧ distinctKeysItems items

end

theorem blobDigest_eq_some {value : Value} {digest : String} :
    blobDigest value = some digest ↔
      value = .dict [(blobRef, .str digest)] ∧ isDigest digest = true := by
  unfold blobDigest
  split
  · next key text =>
      constructor
      · intro h
        split at h
        · next hform =>
            cases h
            exact ⟨by rw [hform.1], hform.2⟩
        · cases h
      · rintro ⟨heq, hdigest⟩
        cases heq
        exact if_pos ⟨rfl, hdigest⟩
  · next hother =>
      refine ⟨nofun, ?_⟩
      rintro ⟨rfl, -⟩
      exact absurd rfl (hother blobRef digest)

theorem prefix_item_unique {path q : Path} {a b : PathItem} (ha : path ++ [a] <+: q)
    (hb : path ++ [b] <+: q) : a = b := by
  have hsame : path ++ [a] = path ++ [b] :=
    (List.prefix_of_prefix_length_le ha hb (by simp)).eq_of_length (by simp)
  simpa using hsame

section Visit

variable {sha256 : String → String} {settings : Settings}

mutual

/-- A literal noted by a visit lies at or below the place visited. -/
theorem prefix_of_visit : ∀ (value : Value) (path : Path),
    ∀ q ∈ (visit sha256 settings value path).2.literalPaths, path <+: q
  | .none, _, _, hq | .bool _, _, _, hq | .int _, _, _, hq | .float _, _, _, hq
  | .surrogates _, _, _, hq | .foreign _, _, _, hq => by cases hq
  | .str text, path, q, hq => by
      rw [visit] at hq
      split at hq <;> cases hq
  | .dict entries, path, q, hq => by
      rw [visit] at hq
      split at hq
      · cases List.mem_singleton.mp hq
        exact List.prefix_rfl
      · obtain ⟨key, -, hkey⟩ := prefix_of_visitEntries entries path q hq
        exact (List.prefix_append _ _).trans hkey
  | .list items, path, q, hq => by
      rw [visit] at hq
      obtain ⟨i, -, hi⟩ := prefix_of_visitItems items path 0 q hq
      exact (List.prefix_append _ _).trans hi

theorem prefix_of_visitEntries : ∀ (entries : List (String × Value)) (path : Path),
    ∀ q ∈ (visitEntries sha256 settings entries path).2.literalPaths,
      ∃ key ∈ Assoc.keys entries, path ++ [.key key] <+: q
  | [], _, _, hq => by cases hq
  | (key, value) :: entries, path, q, hq => by
      rw [visitEntries] at hq
      rcases List.mem_append.mp hq with hq | hq
      · exact ⟨key, List.mem_cons_self, prefix_of_visit value _ q hq⟩
      · obtain ⟨other, hother, hprefix⟩ := prefix_of_visitEntries entries path q hq
        exact ⟨other, List.mem_cons_of_mem _ hother, hprefix⟩

theorem prefix_of_visitItems : ∀ (items : List Value) (path : Path) (n : ℕ),
    ∀ q ∈ (visitItems sha256 settings items path n).2.literalPaths,
      ∃ i, n ≤ i ∧ path ++ [.index i] <+: q
  | [], _, _, _, hq => by cases hq
  | item :: items, path, n, q, hq => by
      rw [visitItems] at hq
      rcases List.mem_append.mp hq with hq | hq
      · exact ⟨n, le_refl n, prefix_of_visit item _ q hq⟩
      · obtain ⟨i, hi, hprefix⟩ := prefix_of_visitItems items path (n + 1) q hq
        exact ⟨i, Nat.le_of_succ_le hi, hprefix⟩

end

/-- Only a literal is stored in the form of a reference where a dictionary was. -/
theorem blobDigest_visitEntries {entries : List (String × Value)} {path : Path}
    (h : blobDigest (.dict entries) = none) :
    blobDigest (.dict (visitEntries sha256 settings entries path).1) = none := by
  rw [Option.eq_none_iff_forall_ne_some] at h ⊢
  intro digest hdigest
  obtain ⟨hform, hhex⟩ := blobDigest_eq_some.mp hdigest
  refine h digest (blobDigest_eq_some.mpr ⟨?_, hhex⟩)
  match entries, hform with
  | [(key, value)], hform =>
      simp only [visitEntries, Value.dict.injEq, List.cons.injEq, Prod.mk.injEq, and_true] at hform
      obtain ⟨rfl, hvalue⟩ := hform
      cases value with
      | str text =>
          rw [visit] at hvalue
          split at hvalue
          · cases hvalue
          · cases hvalue
            rfl
      | dict entries =>
          rw [visit] at hvalue
          split at hvalue <;> cases hvalue
      | list items =>
          rw [visit] at hvalue
          cases hvalue
      | _ => cases hvalue
  | _ :: _ :: _, hform => simp [visitEntries] at hform

variable {literalPaths : List Path} {blobValue : String → Except PyError String}

/-- The paths of literals at or below a place are the ones noted. -/
def SamePaths (literalPaths noted : List Path) (below : Path → Prop) : Prop :=
  ∀ q, below q → (q ∈ literalPaths ↔ q ∈ noted)

mutual

/-- What was interned is what is read back. -/
theorem rehydrate_visit (hhex : ∀ text, isDigest (sha256 text) = true) :
    ∀ (value : Value) (path : Path), distinctKeys value →
      SamePaths literalPaths (visit sha256 settings value path).2.literalPaths (path <+: ·) →
      (∀ e ∈ (visit sha256 settings value path).2.blobs, blobValue e.1 = .ok e.2) →
      rehydrate literalPaths blobValue (visit sha256 settings value path).1 path = .ok value
  | .none, _, _, _, _ | .bool _, _, _, _, _ | .int _, _, _, _, _ | .float _, _, _, _, _
  | .surrogates _, _, _, _, _ | .foreign _, _, _, _, _ => rfl
  | .str text, path, _, hpaths, hblobs => by
      rw [visit] at hpaths hblobs ⊢
      split at hpaths
      · next hintern =>
          rw [if_pos hintern] at hblobs ⊢
          have hdigest : blobDigest (.dict [(blobRef, .str (sha256 text))]) =
              some (sha256 text) := blobDigest_eq_some.mpr ⟨rfl, hhex text⟩
          have hnot : path ∉ literalPaths := fun hmem => by
            cases (hpaths path List.prefix_rfl).mp hmem
          rw [rehydrate, hdigest]
          dsimp only
          rw [if_neg hnot, hblobs _ List.mem_cons_self]
          rfl
      · next hkeep =>
          rw [if_neg hkeep]
          rfl
  | .dict entries, path, hkeys, hpaths, hblobs => by
      rw [distinctKeys] at hkeys
      rw [visit] at hpaths hblobs ⊢
      cases hform : blobDigest (.dict entries) with
      | some digest =>
          rw [hform] at hpaths
          simp only [Option.isSome_some, if_true] at hpaths ⊢
          have hliteral : path ∈ literalPaths :=
            (hpaths path List.prefix_rfl).mpr List.mem_cons_self
          rw [rehydrate, hform]
          dsimp only
          rw [if_pos hliteral]
          obtain ⟨hentries, -⟩ := blobDigest_eq_some.mp hform
          cases hentries
          rfl
      | none =>
          rw [hform] at hpaths hblobs
          simp only [Option.isSome_none, Bool.false_eq_true, if_false] at hpaths hblobs ⊢
          have hrest := rehydrate_visitEntries hhex entries path hkeys.1 hkeys.2
            (fun q ⟨key, _, hq⟩ => hpaths q ((List.prefix_append _ _).trans hq)) hblobs
          rw [rehydrate, blobDigest_visitEntries hform]
          dsimp only
          rw [hrest]
          rfl
  | .list items, path, hkeys, hpaths, hblobs => by
      rw [visit] at hpaths hblobs ⊢
      rw [rehydrate, rehydrate_visitItems hhex items path 0 hkeys
        (fun q ⟨i, _, hq⟩ => hpaths q ((List.prefix_append _ _).trans hq)) hblobs]
      rfl

theorem rehydrate_visitEntries (hhex : ∀ text, isDigest (sha256 text) = true) :
    ∀ (entries : List (String × Value)) (path : Path), (Assoc.keys entries).Nodup →
      distinctKeysEntries entries →
      SamePaths literalPaths (visitEntries sha256 settings entries path).2.literalPaths
        (fun q => ∃ key ∈ Assoc.keys entries, path ++ [.key key] <+: q) →
      (∀ e ∈ (visitEntries sha256 settings entries path).2.blobs, blobValue e.1 = .ok e.2) →
      rehydrateEntries literalPaths blobValue (visitEntries sha256 settings entries path).1 path =
        .ok entries
  | [], _, _, _, _, _ => rfl
  | (key, value) :: entries, path, hnodup, hkeys, hpaths, hblobs => by
      rw [Assoc.keys, List.map_cons, List.nodup_cons] at hnodup
      rw [visitEntries] at hpaths hblobs ⊢
      have hfirst := rehydrate_visit hhex value (path ++ [.key key]) hkeys.1
        (fun q hq => by
          rw [hpaths q ⟨key, List.mem_cons_self, hq⟩, Notes.append, List.mem_append]
          refine or_iff_left fun hrest => ?_
          obtain ⟨other, hother, hprefix⟩ := prefix_of_visitEntries entries path q hrest
          cases prefix_item_unique hq hprefix
          exact hnodup.1 hother)
        fun e he => hblobs e (List.mem_append_left _ he)
      have hrest := rehydrate_visitEntries hhex entries path hnodup.2 hkeys.2
        (fun q ⟨other, hother, hq⟩ => by
          rw [hpaths q ⟨other, List.mem_cons_of_mem _ hother, hq⟩, Notes.append, List.mem_append]
          refine or_iff_right fun hvalue => ?_
          cases prefix_item_unique hq (prefix_of_visit value _ q hvalue)
          exact hnodup.1 hother)
        fun e he => hblobs e (List.mem_append_right _ he)
      rw [rehydrateEntries, hfirst]
      exact map_ok_iff.mpr ⟨entries, hrest, rfl⟩

theorem rehydrate_visitItems (hhex : ∀ text, isDigest (sha256 text) = true) :
    ∀ (items : List Value) (path : Path) (n : ℕ), distinctKeysItems items →
      SamePaths literalPaths (visitItems sha256 settings items path n).2.literalPaths
        (fun q => ∃ i, n ≤ i ∧ path ++ [.index i] <+: q) →
      (∀ e ∈ (visitItems sha256 settings items path n).2.blobs, blobValue e.1 = .ok e.2) →
      rehydrateItems literalPaths blobValue (visitItems sha256 settings items path n).1 path n =
        .ok items
  | [], _, _, _, _, _ => rfl
  | item :: items, path, n, hkeys, hpaths, hblobs => by
      rw [visitItems] at hpaths hblobs ⊢
      have hfirst := rehydrate_visit hhex item (path ++ [.index n]) hkeys.1
        (fun q hq => by
          rw [hpaths q ⟨n, le_refl n, hq⟩, Notes.append, List.mem_append]
          refine or_iff_left fun hrest => ?_
          obtain ⟨i, hi, hprefix⟩ := prefix_of_visitItems items path (n + 1) q hrest
          cases prefix_item_unique hq hprefix
          exact absurd hi (Nat.not_succ_le_self n))
        fun e he => hblobs e (List.mem_append_left _ he)
      have hrest := rehydrate_visitItems hhex items path (n + 1) hkeys.2
        (fun q ⟨i, hi, hq⟩ => by
          rw [hpaths q ⟨i, Nat.le_of_succ_le hi, hq⟩, Notes.append, List.mem_append]
          refine or_iff_right fun hvalue => ?_
          cases prefix_item_unique hq (prefix_of_visit item _ q hvalue)
          exact absurd hi (Nat.not_succ_le_self n))
        fun e he => hblobs e (List.mem_append_right _ he)
      rw [rehydrateItems, hfirst]
      exact map_ok_iff.mpr ⟨items, hrest, rfl⟩

end

/-- The strings a payload interned do not share digests. -/
def CollisionFree (sha256 : String → String) (settings : Settings) (payload : Value) : Prop :=
  ∀ e ∈ (visit sha256 settings payload []).2.blobs,
    ∀ f ∈ (visit sha256 settings payload []).2.blobs, e.1 = f.1 → e.2 = f.2

/-- Each interned string is under its digest. -/
theorem get?_internPayload {payload : Value} (hfree : CollisionFree sha256 settings payload)
    {e : String × String} (he : e ∈ (visit sha256 settings payload []).2.blobs) :
    (internPayload sha256 settings payload).2.1.get? e.1 = some e.2 :=
  Dict.get?_ofList_of_mem he fun f hf hkey => hfree f hf e he hkey

theorem rehydrate_internPayload (hhex : ∀ text, isDigest (sha256 text) = true) {payload : Value}
    (hkeys : distinctKeys payload)
    (hblobs : ∀ e ∈ (visit sha256 settings payload []).2.blobs, blobValue e.1 = .ok e.2) :
    rehydrate (internPayload sha256 settings payload).2.2 blobValue
      (internPayload sha256 settings payload).1 [] = .ok payload :=
  rehydrate_visit hhex payload [] hkeys (fun _ _ => Iff.rfl) hblobs

end Visit

/-! ## References -/

section References

variable {literalPaths : List Path} {blobValue : String → Except PyError String}

theorem rehydrateEntries_cons_ok {key : String} {value : Value}
    {entries read : List (String × Value)} {path : Path} :
    rehydrateEntries literalPaths blobValue ((key, value) :: entries) path = .ok read ↔
      ∃ first rest, rehydrate literalPaths blobValue value (path ++ [.key key]) = .ok first ∧
        rehydrateEntries literalPaths blobValue entries path = .ok rest ∧
          (key, first) :: rest = read := by
  simp [rehydrateEntries, bind_ok_iff, map_ok_iff]

theorem rehydrateItems_cons_ok {item : Value} {items read : List Value} {path : Path} {n : ℕ} :
    rehydrateItems literalPaths blobValue (item :: items) path n = .ok read ↔
      ∃ first rest, rehydrate literalPaths blobValue item (path ++ [.index n]) = .ok first ∧
        rehydrateItems literalPaths blobValue items path (n + 1) = .ok rest ∧
          first :: rest = read := by
  simp [rehydrateItems, bind_ok_iff, map_ok_iff]

/-- What reading looks up, it finds, and it reads the same from other blobs that have it. -/
def Determined (blobValue : String → Except PyError String) (referenced : List String)
    (reads : (String → Except PyError String) → Prop) : Prop :=
  (∀ digest ∈ referenced, ∃ text, blobValue digest = .ok text) ∧
    ∀ other : String → Except PyError String,
      (∀ digest ∈ referenced, other digest = blobValue digest) → reads other

theorem Determined.append {a b : List String} {ra rb r : (String → Except PyError String) → Prop}
    (ha : Determined blobValue a ra) (hb : Determined blobValue b rb)
    (hboth : ∀ other, ra other → rb other → r other) : Determined blobValue (a ++ b) r := by
  refine ⟨fun digest hdigest => ?_, fun other hother => hboth other ?_ ?_⟩
  · rcases List.mem_append.mp hdigest with hdigest | hdigest
    · exact ha.1 digest hdigest
    · exact hb.1 digest hdigest
  · exact ha.2 other fun digest hdigest => hother digest (List.mem_append_left _ hdigest)
  · exact hb.2 other fun digest hdigest => hother digest (List.mem_append_right _ hdigest)

mutual

theorem rehydrate_determined : ∀ (value : Value) (path : Path) (read : Value),
    rehydrate literalPaths blobValue value path = .ok read →
      Determined blobValue (referencedBlobs literalPaths value path) fun other =>
        rehydrate literalPaths other value path = .ok read
  | .none, _, _, h | .bool _, _, _, h | .int _, _, _, h | .float _, _, _, h
  | .str _, _, _, h | .surrogates _, _, _, h | .foreign _, _, _, h =>
      ⟨fun _ hd => absurd hd List.not_mem_nil, fun _ _ => h⟩
  | .list items, path, read, h => by
      rw [rehydrate, map_ok_iff] at h
      obtain ⟨reads, hreads, rfl⟩ := h
      obtain ⟨hfound, hsame⟩ := rehydrateItems_determined items path 0 reads hreads
      refine ⟨hfound, fun other hother => ?_⟩
      change rehydrate literalPaths other (.list items) path = _
      rw [rehydrate]
      exact map_ok_iff.mpr ⟨reads, hsame other hother, rfl⟩
  | .dict entries, path, read, h => by
      rw [rehydrate] at h
      rw [referencedBlobs]
      cases hform : blobDigest (.dict entries) with
      | none =>
          rw [hform] at h
          obtain ⟨reads, hreads, rfl⟩ := map_ok_iff.mp h
          obtain ⟨hfound, hsame⟩ := rehydrateEntries_determined entries path reads hreads
          refine ⟨hfound, fun other hother => ?_⟩
          change rehydrate literalPaths other (.dict entries) path = _
          rw [rehydrate, hform]
          exact map_ok_iff.mpr ⟨reads, hsame other hother, rfl⟩
      | some digest =>
          rw [hform] at h
          obtain ⟨hsingle, -⟩ := blobDigest_eq_some.mp hform
          cases hsingle
          dsimp only at h ⊢
          split at h
          · next hliteral =>
              rw [if_pos hliteral]
              refine ⟨fun _ hd => absurd hd List.not_mem_nil, fun other _ => ?_⟩
              change rehydrate literalPaths other _ path = _
              rw [rehydrate, hform]
              dsimp only
              rw [if_pos hliteral]
              exact h
          · next hreference =>
              rw [if_neg hreference]
              obtain ⟨text, htext, rfl⟩ := map_ok_iff.mp h
              refine ⟨fun d hd => ⟨text, (List.mem_singleton.mp hd) ▸ htext⟩, fun other hother => ?_⟩
              change rehydrate literalPaths other _ path = _
              rw [rehydrate, hform]
              dsimp only
              rw [if_neg hreference, hother digest List.mem_cons_self, htext]
              rfl

theorem rehydrateEntries_determined :
    ∀ (entries : List (String × Value)) (path : Path) (read : List (String × Value)),
    rehydrateEntries literalPaths blobValue entries path = .ok read →
      Determined blobValue (referencedEntries literalPaths entries path) fun other =>
        rehydrateEntries literalPaths other entries path = .ok read
  | [], _, _, h => ⟨fun _ hd => absurd hd List.not_mem_nil, fun _ _ => h⟩
  | (key, value) :: entries, path, read, h => by
      obtain ⟨first, rest, hfirst, hrest, rfl⟩ := rehydrateEntries_cons_ok.mp h
      exact (rehydrate_determined value _ first hfirst).append
        (rehydrateEntries_determined entries path rest hrest) fun other hvalue hentries =>
          rehydrateEntries_cons_ok.mpr ⟨first, rest, hvalue, hentries, rfl⟩

theorem rehydrateItems_determined :
    ∀ (items : List Value) (path : Path) (n : ℕ) (read : List Value),
    rehydrateItems literalPaths blobValue items path n = .ok read →
      Determined blobValue (referencedItems literalPaths items path n) fun other =>
        rehydrateItems literalPaths other items path n = .ok read
  | [], _, _, _, h => ⟨fun _ hd => absurd hd List.not_mem_nil, fun _ _ => h⟩
  | item :: items, path, n, read, h => by
      obtain ⟨first, rest, hfirst, hrest, rfl⟩ := rehydrateItems_cons_ok.mp h
      exact (rehydrate_determined item _ first hfirst).append
        (rehydrateItems_determined items path (n + 1) rest hrest) fun other hitem hitems =>
          rehydrateItems_cons_ok.mpr ⟨first, rest, hitem, hitems, rfl⟩

end

end References

/-! ## Canonical texts -/

section Canonical

variable {literalPaths : List Path} {blobValue : String → Except PyError String}

theorem rehydrateEntries_ok_iff {entries read : List (String × Value)} {path : Path} :
    rehydrateEntries literalPaths blobValue entries path = .ok read ↔
      List.Forall₂ (fun e f : String × Value => e.1 = f.1 ∧
        rehydrate literalPaths blobValue e.2 (path ++ [.key e.1]) = .ok f.2) entries read := by
  induction entries generalizing read with
  | nil => simp [rehydrateEntries, eq_comm]
  | cons e entries ih =>
      obtain ⟨key, value⟩ := e
      rw [rehydrateEntries_cons_ok, List.forall₂_cons_left_iff]
      constructor
      · rintro ⟨first, rest, hfirst, hrest, rfl⟩
        exact ⟨(key, first), rest, ⟨rfl, hfirst⟩, ih.mp hrest, rfl⟩
      · rintro ⟨⟨k, first⟩, rest, ⟨rfl, hfirst⟩, hrest, rfl⟩
        exact ⟨first, rest, hfirst, ih.mpr hrest, rfl⟩

/-- Sorting by key sorts what is read in the same way. -/
theorem forall₂_insertionSort {R : String × Value → String × Value → Prop}
    (hkey : ∀ e f, R e f → e.1 = f.1) {entries read : List (String × Value)}
    (h : List.Forall₂ R entries read) :
    List.Forall₂ R (entries.insertionSort fun a b => a.1 ≤ b.1)
      (read.insertionSort fun a b => a.1 ≤ b.1) := by
  have hinsert : ∀ {e f : String × Value} {es fs : List (String × Value)}, R e f →
      List.Forall₂ R es fs →
        List.Forall₂ R (es.orderedInsert (fun a b => a.1 ≤ b.1) e)
          (fs.orderedInsert (fun a b => a.1 ≤ b.1) f) := by
    intro e f es fs hfirst hrest
    induction hrest with
    | nil => exact .cons hfirst .nil
    | @cons e' f' es fs hnext hrest ih =>
        rw [List.orderedInsert, List.orderedInsert, hkey _ _ hfirst, hkey _ _ hnext]
        split
        · exact .cons hfirst (.cons hnext hrest)
        · exact .cons hnext ih
  induction h with
  | nil => exact .nil
  | cons hfirst _ ih =>
      rw [List.insertionSort_cons, List.insertionSort_cons]
      exact hinsert hfirst ih

theorem blobDigest_canonical (value : Value) : blobDigest value.canonical = blobDigest value := by
  rw [Option.ext_iff]
  intro digest
  rw [blobDigest_eq_some, blobDigest_eq_some]
  refine and_congr_left fun _ => ⟨fun h => ?_, fun h => by rw [h]; rfl⟩
  cases value with
  | dict entries =>
      rw [Value.canonical, Value.dict.injEq] at h
      have hlength : entries.length = 1 := by
        have hsorted := congrArg List.length h
        rwa [List.length_insertionSort, Value.canonicalEntries_eq_map, List.length_map] at hsorted
      obtain ⟨⟨key, value⟩, rfl⟩ := List.length_eq_one_iff.mp hlength
      simp only [Value.canonicalEntries_eq_map, List.map_cons, List.map_nil,
        List.insertionSort_cons, List.insertionSort_nil, List.orderedInsert_nil, List.cons.injEq,
        Prod.mk.injEq, and_true] at h
      rw [h.1]
      cases value with
      | str text => rw [← h.2]; rfl
      | _ => cases h.2
  | _ => cases h

mutual

/-- What is read from a canonical text is canonical. -/
theorem rehydrate_canonical : ∀ (value : Value) (path : Path) (read : Value),
    rehydrate literalPaths blobValue value path = .ok read →
      rehydrate literalPaths blobValue value.canonical path = .ok read.canonical
  | .none, _, _, h | .bool _, _, _, h | .int _, _, _, h | .float _, _, _, h | .str _, _, _, h
  | .surrogates _, _, _, h | .foreign _, _, _, h => by
      cases h
      rfl
  | .list items, path, read, h => by
      rw [rehydrate, map_ok_iff] at h
      obtain ⟨reads, hreads, rfl⟩ := h
      rw [Value.canonical, rehydrate, rehydrateItems_canonical items path 0 reads hreads]
      rfl
  | .dict entries, path, read, h => by
      have hdigest := blobDigest_canonical (.dict entries)
      have hsorted : ∀ reads,
          rehydrateEntries literalPaths blobValue entries path = .ok reads →
            rehydrateEntries literalPaths blobValue
              ((Value.canonicalEntries entries).insertionSort fun a b => a.1 ≤ b.1) path =
                .ok ((Value.canonicalEntries reads).insertionSort fun a b => a.1 ≤ b.1) := by
        intro reads hreads
        have hsame := rehydrateEntries_canonical entries path reads hreads
        rw [rehydrateEntries_ok_iff] at hsame ⊢
        exact forall₂_insertionSort (fun e f h => h.1) hsame
      rw [rehydrate] at h
      rw [Value.canonical, rehydrate, ← Value.canonical, hdigest]
      cases hform : blobDigest (.dict entries) with
      | none =>
          rw [hform] at h
          obtain ⟨reads, hreads, rfl⟩ := map_ok_iff.mp h
          exact map_ok_iff.mpr ⟨_, hsorted reads hreads, rfl⟩
      | some digest =>
          rw [hform] at h
          dsimp only at h ⊢
          split at h
          · next hliteral =>
              obtain ⟨reads, hreads, rfl⟩ := map_ok_iff.mp h
              rw [if_pos hliteral]
              exact map_ok_iff.mpr ⟨_, hsorted reads hreads, rfl⟩
          · next hreference =>
              obtain ⟨text, htext, rfl⟩ := map_ok_iff.mp h
              rw [if_neg hreference, htext]
              rfl

theorem rehydrateEntries_canonical :
    ∀ (entries : List (String × Value)) (path : Path) (read : List (String × Value)),
      rehydrateEntries literalPaths blobValue entries path = .ok read →
        rehydrateEntries literalPaths blobValue (Value.canonicalEntries entries) path =
          .ok (Value.canonicalEntries read)
  | [], _, _, h => by
      cases h
      rfl
  | (key, value) :: entries, path, read, h => by
      obtain ⟨first, rest, hfirst, hrest, rfl⟩ := rehydrateEntries_cons_ok.mp h
      exact rehydrateEntries_cons_ok.mpr ⟨_, _, rehydrate_canonical value _ first hfirst,
        rehydrateEntries_canonical entries path rest hrest, rfl⟩

theorem rehydrateItems_canonical :
    ∀ (items : List Value) (path : Path) (n : ℕ) (read : List Value),
      rehydrateItems literalPaths blobValue items path n = .ok read →
        rehydrateItems literalPaths blobValue (Value.canonicalItems items) path n =
          .ok (Value.canonicalItems read)
  | [], _, _, _, h => by
      cases h
      rfl
  | item :: items, path, n, read, h => by
      obtain ⟨first, rest, hfirst, hrest, rfl⟩ := rehydrateItems_cons_ok.mp h
      exact rehydrateItems_cons_ok.mpr ⟨_, _, rehydrate_canonical item _ first hfirst,
        rehydrateItems_canonical items path (n + 1) rest hrest, rfl⟩

end

end Canonical

end Pollard.Stores.Interning
