import Pollard.Identity.Languages
import Pollard.Npm.Interning
import Pollard.Rust.Interning
import Pollard.Stores.Interning

/-!
# One codec in three languages

What Python writes for a payload, Rust and npm write as well, and they read and scan it as
Python does.
-/

namespace Pollard.Stores.SharedCodec

open Lib Lib.Fallible Lib.Unicode Interning

/-! ## Texts of paths -/

/-- An item of a path as a JSON value. -/
def itemValue : PathItem → Value
  | .key name => .str name
  | .index i => .int i

def pathValue (path : Path) : Value := .list (path.map itemValue)

/-- `_path_text` -/
def pathText (path : Path) : String := (pathValue path).dumps

/-- The path a text is of. -/
def pathOf (text : String) : Option Path :=
  match Value.loads text with
  | some (.list items) =>
      let path := items.filterMap fun item =>
        match item with
        | .str name => some (.key name)
        | .int i => some (.index i.toNat)
        | _ => none
      if pathText path = text then some path else none
  | _ => none

/-- The paths of literals that are noted for a node. -/
def pathsOf (literals : List String) : List Path := literals.filterMap pathOf

theorem isIdentity_pathValue (path : Path) : (pathValue path).isIdentity = true := by
  rw [pathValue, Value.isIdentity_list]
  intro item hitem
  obtain ⟨step, -, rfl⟩ := List.mem_map.mp hitem
  cases step <;> rfl

theorem pathOf_pathText (path : Path) : pathOf (pathText path) = some path := by
  have hread := Value.loads_dumps (isIdentity_pathValue path)
  have hitems : (path.map itemValue).filterMap (fun item =>
      match item with
      | .str name => some (PathItem.key name)
      | .int i => some (.index i.toNat)
      | _ => none) = path := by
    rw [List.filterMap_map]
    exact (List.filterMap_congr fun step _ => by cases step <;> rfl).trans List.filterMap_some
  rw [pathOf, pathText, hread]
  dsimp only [pathValue]
  rw [hitems]
  exact if_pos rfl

theorem pathText_of_pathOf {text : String} {path : Path} (h : pathOf text = some path) :
    pathText path = text := by
  unfold pathOf at h
  split at h
  · dsimp only at h
    split at h
    · next htext =>
        cases h
        exact htext
    · cases h
  · cases h

/-- A path is noted if its text is. -/
theorem mem_pathsOf {literals : List String} {path : Path} :
    path ∈ pathsOf literals ↔ pathText path ∈ literals := by
  rw [pathsOf, List.mem_filterMap]
  constructor
  · rintro ⟨text, hmem, hpath⟩
    rw [pathText_of_pathOf hpath]
    exact hmem
  · exact fun hmem => ⟨_, hmem, pathOf_pathText path⟩

/-- A path as Rust holds it. -/
def rustPath (path : Path) : List Rust.Json := Value.toRustItems (path.map itemValue)

/-- A path as the npm package holds it. -/
def npmPath (path : Path) : List Npm.PathItem :=
  path.map fun
    | .key name => .key (Npm.units name)
    | .index i => .index i

theorem rustPath_append (path : Path) (step : PathItem) :
    rustPath (path ++ [step]) = rustPath path ++ [(itemValue step).toRust] := by
  induction path with
  | nil => rfl
  | cons first path ih =>
      change _ :: rustPath (path ++ [step]) = _
      rw [ih]
      rfl

theorem npmPath_append (path : Path) (step : PathItem) :
    npmPath (path ++ [step]) = npmPath path ++ npmPath [step] := by
  rw [npmPath, List.map_append]
  rfl

mutual

/-- `serde_json` writes a value as its text in the order it has. -/
theorem octets_toRust : ∀ value : Value, value.isIdentity = true →
    value.toRust.octets = utf8Bytes value.dumps
  | .none, _ => rfl
  | .bool b, _ => by cases b <;> rfl
  | .int n, _ => rfl
  | .str s, _ => by
      rw [Value.toRust, Value.dumps, utf8Bytes_jsonString]
      rfl
  | .list items, h => by
      rw [Value.toRust, Rust.Json.octets, octetsItems_toRust items h, Value.utf8Bytes_list,
        Reading.separated_map]
      rfl
  | .dict entries, h => by
      rw [Value.toRust, Rust.Json.octets, octetsEntries_toRust entries h, Value.utf8Bytes_dict,
        Reading.separated_map]
      rfl

theorem octetsItems_toRust : ∀ items : List Value, Value.isIdentityItems items = true →
    Rust.Json.octetsItems (Value.toRustItems items) =
      items.map fun item => utf8Bytes item.dumps
  | [], _ => rfl
  | item :: items, h => by
      rw [Value.isIdentityItems, Bool.and_eq_true] at h
      rw [Value.toRustItems, Rust.Json.octetsItems, octets_toRust item h.1,
        octetsItems_toRust items h.2]
      rfl

theorem octetsEntries_toRust : ∀ entries : List (String × Value),
    Value.isIdentityEntries entries = true →
    Rust.Json.octetsEntries (Value.toRustEntries entries) = entries.map Value.octetEntry
  | [], _ => rfl
  | (key, value) :: entries, h => by
      rw [Value.isIdentityEntries, Bool.and_eq_true] at h
      rw [Value.toRustEntries, Rust.Json.octetsEntries, octets_toRust value h.1,
        octetsEntries_toRust entries h.2]
      rfl

end

theorem utf8Text_utf8Bytes (text : String) : Rust.utf8Text (utf8Bytes text) = .ok text := by
  rw [Rust.utf8Text, fromUtf8_utf8Bytes]

theorem encode_toRust {value : Value} (h : value.isIdentity = true) :
    Rust.encode value.toRust = .ok value.dumps := by
  rw [Rust.encode, octets_toRust value h, utf8Text_utf8Bytes]

theorem encode_rustPath (path : Path) :
    Rust.encode (.array (rustPath path)) = .ok (pathText path) := by
  have harray : (pathValue path).toRust = .array (rustPath path) := by
    rw [pathValue, Value.toRust, rustPath]
  rw [← harray, encode_toRust (isIdentity_pathValue path), pathText]

theorem pathText_npmPath (path : Path) :
    Npm.pathText (npmPath path) = Npm.units (pathText path) := by
  have hitem (step : PathItem) :
      Npm.PathItem.stringify (match step with
        | .key name => .key (Npm.units name)
        | .index i => .index i) = Npm.units (itemValue step).dumps := by
    cases step with
    | key name => exact (units_jsonString name).symm
    | index i => rfl
  rw [Npm.pathText, npmPath, Reading.separated_map, pathText, pathValue, Value.units_list,
    Reading.separated_map]
  simp only [hitem]

/-! ## Digests -/

theorem units_injective : Function.Injective Npm.units := by
  intro a b heq
  have hcodes := congrArg codePoints heq
  rw [codePoints_units, codePoints_units] at hcodes
  exact String.toList_inj.mp ((List.map_injective_iff.mpr fun c d h => Char.toNat_inj.mp h) hcodes)

theorem text_units (s : String) : Npm.text (Npm.units s) = s := by
  rw [Npm.text, codePoints_units, List.map_map]
  have hchars : s.toList.map ((fun n => Char.ofNat (if scalar n then n else 0xFFFD)) ∘ Char.toNat) =
      s.toList := by
    refine (List.map_congr_left fun c _ => ?_).trans (List.map_id _)
    simp [scalar_char, Char.ofNat_toNat]
  rw [hchars, String.ofList_toList]

/-- A lower-case hexadecimal digit, by its code point. -/
theorem mem_hexDigits {c : Char} :
    c ∈ "0123456789abcdef".toList ↔
      48 ≤ c.toNat ∧ c.toNat ≤ 57 ∨ 97 ≤ c.toNat ∧ c.toNat ≤ 102 := by
  constructor
  · intro h
    have hall : ("0123456789abcdef".toList.all fun d =>
        48 ≤ d.toNat ∧ d.toNat ≤ 57 ∨ 97 ≤ d.toNat ∧ d.toNat ≤ 102) = true := by decide
    exact of_decide_eq_true (List.all_eq_true.mp hall c h)
  · intro h
    rw [← Char.ofNat_toNat c]
    generalize c.toNat = n at h
    rcases h with ⟨hlow, hhigh⟩ | ⟨hlow, hhigh⟩ <;> interval_cases n <;> decide

/-- A text in a code that keeps the lower half of the octets as they are. -/
theorem hex_of_code {code : ℕ → List ℕ} (hascii : ∀ n < 0x80, code n = [n])
    (hhigh : ∀ n, 0x80 ≤ n → ∃ m ∈ code n, 0x80 ≤ m) (text : String) :
    (((text.toList.map Char.toNat).flatMap code).length = 64 ∧
      ((text.toList.map Char.toNat).flatMap code).all
        (fun n => 48 ≤ n ∧ n ≤ 57 ∨ 97 ≤ n ∧ n ≤ 102) = true) ↔ isDigest text = true := by
  have hkeep (h : ∀ c ∈ text.toList, c.toNat < 0x80) :
      (text.toList.map Char.toNat).flatMap code = text.toList.map Char.toNat := by
    rw [List.flatMap_map, List.map_eq_flatMap]
    exact List.flatMap_congr fun c hc => hascii _ (h c hc)
  simp only [isDigest, decide_eq_true_eq, List.all_eq_true, mem_hexDigits]
  constructor
  · rintro ⟨hlength, hall⟩
    have hlow : ∀ c ∈ text.toList, c.toNat < 0x80 := by
      intro c hc
      by_contra hge
      obtain ⟨m, hm, hge'⟩ := hhigh c.toNat (not_lt.mp hge)
      have hhex := hall m (List.mem_flatMap.mpr ⟨_, List.mem_map_of_mem hc, hm⟩)
      omega
    rw [hkeep hlow] at hlength hall
    rw [List.length_map, String.length_toList] at hlength
    exact ⟨hlength, fun c hc => hall _ (List.mem_map_of_mem hc)⟩
  · rintro ⟨hlength, hall⟩
    have hlow : ∀ c ∈ text.toList, c.toNat < 0x80 := by
      intro c hc
      have hhex := hall c hc
      omega
    rw [hkeep hlow]
    refine ⟨by rw [List.length_map, String.length_toList, hlength], fun n hn => ?_⟩
    obtain ⟨c, hc, rfl⟩ := List.mem_map.mp hn
    exact hall c hc

theorem hex64_eq (text : String) : Rust.hex64 text = isDigest text := by
  rw [Bool.eq_iff_iff, ← hex_of_code (fun _ => utf8_of_lt) fun n hn => ?_]
  · simp only [Rust.hex64, decide_eq_true_eq]
    rfl
  · obtain ⟨octet, hoctet⟩ := List.exists_mem_of_ne_nil _ (utf8_ne_nil n)
    exact ⟨octet, hoctet, le_of_mem_utf8 hn hoctet⟩

theorem isDigest_units (text : String) : Npm.isDigest (Npm.units text) = isDigest text := by
  rw [Bool.eq_iff_iff, ← @hex_of_code utf16 (fun n hn => if_pos (by omega))
    fun n hn => ?_]
  · simp only [Npm.isDigest, decide_eq_true_eq, or_comm]
    rfl
  · unfold utf16
    split
    · exact ⟨n, List.mem_singleton_self n, hn⟩
    · exact ⟨_, List.mem_cons_self, by omega⟩

theorem blobDigest_toRust (value : Value) : Rust.blobDigest value.toRust = blobDigest value := by
  cases value with
  | dict entries =>
      rcases entries with _ | ⟨⟨key, value⟩, _ | ⟨e, entries⟩⟩
      · rfl
      · by_cases hkey : key = "__pollard_ref"
        · cases value <;>
            simp [Value.toRust, Value.toRustEntries, Rust.blobDigest, Assoc.lookup, blobDigest,
              blobRef, hex64_eq, hkey]
        · cases value <;>
            simp [Value.toRust, Value.toRustEntries, Rust.blobDigest, Assoc.lookup, blobDigest,
              blobRef, hkey]
      · simp [Value.toRust, Value.toRustEntries, Rust.blobDigest, blobDigest]
  | _ => rfl

theorem length_ownOrder (entries : List (Npm.Units × Npm.JsValue)) :
    (Npm.ownOrder entries).length = entries.length := (Value.ownOrder_perm entries).length_eq

theorem blobDigest_toJs (value : Value) :
    Npm.blobDigest value.toJs = (blobDigest value).map Npm.units := by
  cases value with
  | dict entries =>
      rcases entries with _ | ⟨⟨key, value⟩, _ | ⟨e, entries⟩⟩
      · rfl
      · have hone : Npm.ownOrder [(Npm.units key, value.toJs)] = [(Npm.units key, value.toJs)] :=
          List.perm_singleton.mp (Value.ownOrder_perm _)
        rw [Value.toJs, Value.toJsEntries, Value.toJsEntries, hone]
        by_cases hkey : key = "__pollard_ref"
        · cases value <;>
            simp [Value.toJs, Npm.blobDigest, Assoc.lookup, blobDigest, blobRef, isDigest_units,
              hkey, apply_ite]
        · have hunits : Npm.units key ≠ Npm.units "__pollard_ref" :=
            fun heq => hkey (units_injective heq)
          cases value <;>
            simp [Value.toJs, Npm.blobDigest, Assoc.lookup, blobDigest, blobRef, hkey, hunits]
      · have hlength := length_ownOrder (Value.toJsEntries ((key, value) :: e :: entries))
        rw [Value.toJs, Npm.blobDigest, if_pos]
        · simp [blobDigest]
        · rw [hlength]
          simp [Value.toJsEntries]
  | _ => rfl

/-! ## Rust -/

theorem length_utf8_char (c : Char) : (utf8 c.toNat).length = c.utf8Size := by
  unfold utf8 Char.utf8Size
  simp only [UInt32.le_iff_toNat_le]
  change _ = if c.toNat ≤ 127 then 1
    else if c.toNat ≤ 2047 then 2 else if c.toNat ≤ 65535 then 3 else 4
  split_ifs <;> first | rfl | omega

theorem length_utf8Bytes (text : String) : (utf8Bytes text).length = text.utf8ByteSize := by
  have hchars (chars : List Char) :
      ((chars.map Char.toNat).flatMap utf8).length = (String.ofList chars).utf8ByteSize := by
    induction chars with
    | nil => rfl
    | cons c chars ih =>
        rw [List.map_cons, List.flatMap_cons, List.length_append, ih, length_utf8_char,
          String.ofList_cons, String.utf8ByteSize_append, String.utf8ByteSize_singleton]
  rw [utf8Bytes, hchars, String.ofList_toList]

/-- The digest of a string, with a hash function on octets. -/
def digestOf (sha : List ℕ → String) (text : String) : String := sha (utf8Bytes text)

/-- The `intern_threshold` of Rust for the settings. -/
def rustThreshold (settings : Settings) : Option ℕ :=
  if settings.internPayloads then some settings.internThreshold else none

def rustNotes (notes : Notes) : Rust.Notes := ⟨notes.blobs, notes.literalPaths.map pathText⟩

theorem rustNotes_append (a b : Notes) :
    rustNotes (a.append b) = (rustNotes a).append (rustNotes b) := by
  simp only [rustNotes, Notes.append, Rust.Notes.append, List.map_append]

variable {sha : List ℕ → String} {settings : Settings}

mutual

/-- Rust interns as Python does. -/
theorem intern_toRust : ∀ (value : Value) (path : Path),
    Rust.intern sha (rustThreshold settings) value.toRust (rustPath path) =
      .ok ((visit (digestOf sha) settings value path).1.toRust,
        rustNotes (visit (digestOf sha) settings value path).2)
  | .none, _ | .bool _, _ | .int _, _ | .float _, _ | .surrogates _, _ | .foreign _, _ => rfl
  | .str text, path => by
      have hthreshold : (rustThreshold settings).any (fun n => n ≤ (utf8Bytes text).length) = true ↔
          settings.internPayloads = true ∧ settings.internThreshold ≤ text.utf8ByteSize := by
        rw [length_utf8Bytes, rustThreshold]
        cases settings.internPayloads <;> simp
      rw [Value.toRust, Rust.intern, visit]
      by_cases hintern : settings.internPayloads = true ∧
          settings.internThreshold ≤ text.utf8ByteSize
      · rw [if_pos (hthreshold.mpr hintern), if_pos hintern]
        rfl
      · rw [if_neg (fun h => hintern (hthreshold.mp h)), if_neg hintern]
        rfl
  | .dict entries, path => by
      have hform := blobDigest_toRust (.dict entries)
      rw [Value.toRust] at hform
      rw [Value.toRust, Rust.intern, visit, hform]
      split
      · rw [encode_rustPath]
        rfl
      · rw [internEntries_toRust entries path]
        rfl
  | .list items, path => by
      rw [Value.toRust, Rust.intern, visit, internItems_toRust items path 0]
      rfl

theorem internEntries_toRust : ∀ (entries : List (String × Value)) (path : Path),
    Rust.internEntries sha (rustThreshold settings) (Value.toRustEntries entries) (rustPath path) =
      .ok (Value.toRustEntries (visitEntries (digestOf sha) settings entries path).1,
        rustNotes (visitEntries (digestOf sha) settings entries path).2)
  | [], _ => rfl
  | (key, value) :: entries, path => by
      have hfirst := intern_toRust value (path ++ [.key key])
      rw [rustPath_append] at hfirst
      rw [Value.toRustEntries, Rust.internEntries]
      change (Rust.intern _ _ _ (rustPath path ++ [(itemValue (.key key)).toRust])).bind _ = _
      rw [hfirst, internEntries_toRust entries path, visitEntries]
      change Except.ok (_, (rustNotes _).append (rustNotes _)) = _
      rw [← rustNotes_append]
      rfl

theorem internItems_toRust : ∀ (items : List Value) (path : Path) (i : ℕ),
    Rust.internItems sha (rustThreshold settings) (Value.toRustItems items) (rustPath path) i =
      .ok (Value.toRustItems (visitItems (digestOf sha) settings items path i).1,
        rustNotes (visitItems (digestOf sha) settings items path i).2)
  | [], _, _ => rfl
  | item :: items, path, i => by
      have hfirst := intern_toRust item (path ++ [.index i])
      rw [rustPath_append] at hfirst
      rw [Value.toRustItems, Rust.internItems]
      change (Rust.intern _ _ _ (rustPath path ++ [(itemValue (.index i)).toRust])).bind _ = _
      rw [hfirst, internItems_toRust items path (i + 1), visitItems]
      change Except.ok (_, (rustNotes _).append (rustNotes _)) = _
      rw [← rustNotes_append]
      rfl

end

/-- Every blob is under its digest. -/
def Digested (sha : List ℕ → String) (blobs : Dict String String) : Prop :=
  ∀ digest text, blobs.get? digest = some text → digestOf sha text = digest

/-- `_blob_value` -/
def blobValue (blobs : Dict String String) (digest : String) : Except PyError String :=
  match blobs.get? digest with
  | some text => .ok text
  | none => .error (.integrityError s!"missing interned payload blob: {digest}")

variable {blobs : Dict String String} {literals : List String}

theorem readBlob_ok (hdigested : Digested sha blobs) {digest text : String}
    (h : blobValue blobs digest = .ok text) : Rust.readBlob sha blobs digest = .ok text := by
  unfold blobValue at h
  unfold Rust.readBlob
  cases hblob : blobs.get? digest with
  | none =>
      rw [hblob] at h
      cases h
  | some blob =>
      rw [hblob] at h
      cases h
      have hdigest : sha (utf8Bytes text) = digest := hdigested digest text hblob
      simp [hdigest]

mutual

/-- Rust reads what Python reads. -/
theorem rehydrate_toRust (hdigested : Digested sha blobs) :
    ∀ (value : Value) (path : Path) (read : Value),
      rehydrate (pathsOf literals) (blobValue blobs) value path = .ok read →
      Rust.rehydrate sha blobs literals value.toRust (rustPath path) = .ok read.toRust
  | .none, _, _, h | .bool _, _, _, h | .int _, _, _, h | .float _, _, _, h
  | .surrogates _, _, _, h | .foreign _, _, _, h | .str _, _, _, h => by
      cases h
      rfl
  | .dict entries, path, read, h => by
      have hform := blobDigest_toRust (.dict entries)
      rw [Value.toRust] at hform
      rw [rehydrate] at h
      rw [Value.toRust, Rust.rehydrate, hform]
      cases hdigest : blobDigest (.dict entries) with
      | some digest =>
          rw [hdigest] at h
          dsimp only at h ⊢
          rw [encode_rustPath]
          change (if pathText path ∈ literals then Except.ok _
            else (Rust.readBlob sha blobs digest).bind _) = _
          by_cases hliteral : pathText path ∈ literals
          · rw [if_pos (mem_pathsOf.mpr hliteral)] at h
            rw [if_pos hliteral]
            obtain ⟨hentries, -⟩ := blobDigest_eq_some.mp hdigest
            cases hentries
            cases h
            rfl
          · rw [if_neg fun hmem => hliteral (mem_pathsOf.mp hmem)] at h
            obtain ⟨text, htext, rfl⟩ := map_ok_iff.mp h
            rw [if_neg hliteral, readBlob_ok hdigested htext]
            rfl
      | none =>
          rw [hdigest] at h
          obtain ⟨entries', hentries, rfl⟩ := map_ok_iff.mp h
          dsimp only
          rw [rehydrateEntries_toRust hdigested entries path entries' hentries]
          rfl
  | .list items, path, read, h => by
      rw [rehydrate] at h
      obtain ⟨items', hitems, rfl⟩ := map_ok_iff.mp h
      rw [Value.toRust, Rust.rehydrate, rehydrateItems_toRust hdigested items path 0 items' hitems]
      rfl

theorem rehydrateEntries_toRust (hdigested : Digested sha blobs) :
    ∀ (entries : List (String × Value)) (path : Path) (read : List (String × Value)),
      rehydrateEntries (pathsOf literals) (blobValue blobs) entries path = .ok read →
      Rust.rehydrateEntries sha blobs literals (Value.toRustEntries entries) (rustPath path) =
        .ok (Value.toRustEntries read)
  | [], _, _, h => by
      cases h
      rfl
  | (key, value) :: entries, path, read, h => by
      obtain ⟨value', entries', hvalue, hentries, rfl⟩ := rehydrateEntries_cons_ok.mp h
      have hfirst := rehydrate_toRust hdigested value (path ++ [.key key]) value' hvalue
      rw [rustPath_append] at hfirst
      rw [Value.toRustEntries, Rust.rehydrateEntries]
      change (Rust.rehydrate _ _ _ _ (rustPath path ++ [(itemValue (.key key)).toRust])).bind _ = _
      rw [hfirst, rehydrateEntries_toRust hdigested entries path entries' hentries]
      rfl

theorem rehydrateItems_toRust (hdigested : Digested sha blobs) :
    ∀ (items : List Value) (path : Path) (i : ℕ) (read : List Value),
      rehydrateItems (pathsOf literals) (blobValue blobs) items path i = .ok read →
      Rust.rehydrateItems sha blobs literals (Value.toRustItems items) (rustPath path) i =
        .ok (Value.toRustItems read)
  | [], _, _, _, h => by
      cases h
      rfl
  | item :: items, path, i, read, h => by
      obtain ⟨item', items', hitem, hitems, rfl⟩ := rehydrateItems_cons_ok.mp h
      have hfirst := rehydrate_toRust hdigested item (path ++ [.index i]) item' hitem
      rw [rustPath_append] at hfirst
      rw [Value.toRustItems, Rust.rehydrateItems]
      change (Rust.rehydrate _ _ _ _ (rustPath path ++ [(itemValue (.index i)).toRust])).bind _ = _
      rw [hfirst, rehydrateItems_toRust hdigested items path (i + 1) items' hitems]
      rfl

end

mutual

/-- Rust finds the references Python finds. -/
theorem collectReferences_toRust : ∀ (value : Value) (path : Path),
    Rust.collectReferences literals value.toRust (rustPath path) =
      .ok (referencedBlobs (pathsOf literals) value path)
  | .none, _ | .bool _, _ | .int _, _ | .float _, _ | .surrogates _, _ | .foreign _, _
  | .str _, _ => rfl
  | .dict entries, path => by
      have hform := blobDigest_toRust (.dict entries)
      rw [Value.toRust] at hform
      rw [Value.toRust, Rust.collectReferences, referencedBlobs, hform]
      cases hdigest : blobDigest (.dict entries) with
      | some digest =>
          dsimp only
          rw [encode_rustPath]
          change Except.ok (if pathText path ∈ literals then [] else [digest]) = _
          simp only [mem_pathsOf]
      | none => exact collectEntries_toRust entries path
  | .list items, path => by
      rw [Value.toRust, Rust.collectReferences, referencedBlobs]
      exact collectItems_toRust items path 0

theorem collectEntries_toRust : ∀ (entries : List (String × Value)) (path : Path),
    Rust.collectEntries literals (Value.toRustEntries entries) (rustPath path) =
      .ok (referencedEntries (pathsOf literals) entries path)
  | [], _ => rfl
  | (key, value) :: entries, path => by
      have hfirst := collectReferences_toRust value (path ++ [.key key])
      rw [rustPath_append] at hfirst
      rw [Value.toRustEntries, Rust.collectEntries]
      change (Rust.collectReferences _ _ (rustPath path ++ [(itemValue (.key key)).toRust])).bind _ =
        _
      rw [hfirst, collectEntries_toRust entries path]
      rfl

theorem collectItems_toRust : ∀ (items : List Value) (path : Path) (i : ℕ),
    Rust.collectItems literals (Value.toRustItems items) (rustPath path) i =
      .ok (referencedItems (pathsOf literals) items path i)
  | [], _, _ => rfl
  | item :: items, path, i => by
      have hfirst := collectReferences_toRust item (path ++ [.index i])
      rw [rustPath_append] at hfirst
      rw [Value.toRustItems, Rust.collectItems]
      change (Rust.collectReferences _ _ (rustPath path ++ [(itemValue (.index i)).toRust])).bind _ =
        _
      rw [hfirst, collectItems_toRust items path (i + 1)]
      rfl

end

end Pollard.Stores.SharedCodec
