import Pollard.Stores.SharedCodec

/-!
# The codec of the npm package

The package maps payloads with visits.  What its visits give is what Python gives, in the order
in which JavaScript lists keys.
-/

namespace Pollard.Stores.SharedCodec

open Lib Lib.Fallible Lib.Unicode Interning

/-! ## The order of keys -/

/-- Elements in the order JavaScript lists their keys in. -/
def ownBy {α : Type} (key : α → Npm.Units) (as : List α) : List α :=
  ((as.filter fun a => (Npm.arrayIndex (key a)).isSome).insertionSort fun a b =>
      (Npm.arrayIndex (key a)).getD 0 ≤ (Npm.arrayIndex (key b)).getD 0) ++
    as.filter fun a => ¬ (Npm.arrayIndex (key a)).isSome

theorem ownBy_map {α β : Type} (key : β → Npm.Units) (f : α → β) (as : List α) :
    ownBy key (as.map f) = (ownBy (fun a => key (f a)) as).map f := by
  rw [ownBy, ownBy, List.map_append, List.filter_map, List.filter_map]
  congr 1
  exact (List.map_insertionSort _ _ f _ fun a _ b _ => Iff.rfl).symm

theorem ownBy_ownBy {α : Type} (key : α → Npm.Units) (as : List α) :
    ownBy key (ownBy key as) = ownBy key as := by
  let indexed := as.filter fun a => (Npm.arrayIndex (key a)).isSome
  let rest := as.filter fun a => ¬ (Npm.arrayIndex (key a)).isSome
  let r (a b : α) : Prop := (Npm.arrayIndex (key a)).getD 0 ≤ (Npm.arrayIndex (key b)).getD 0
  have : Std.Total r := ⟨fun a b => le_total _ _⟩
  have : IsTrans α r := ⟨fun a b c hab hbc => le_trans hab hbc⟩
  have hindexed : ∀ a ∈ indexed.insertionSort r, (Npm.arrayIndex (key a)).isSome = true :=
    fun a ha => (List.mem_filter.mp ((List.mem_insertionSort r).mp ha)).2
  have hrest : ∀ a ∈ rest, ¬ (Npm.arrayIndex (key a)).isSome = true :=
    fun a ha => by simpa using (List.mem_filter.mp ha).2
  change ((indexed.insertionSort r ++ rest).filter _).insertionSort r ++
    (indexed.insertionSort r ++ rest).filter _ = indexed.insertionSort r ++ rest
  rw [List.filter_append, List.filter_append, List.filter_eq_self.mpr hindexed,
    List.filter_eq_nil_iff.mpr hrest, List.append_nil,
    (List.pairwise_insertionSort r indexed).insertionSort_eq,
    List.filter_eq_nil_iff.mpr fun a ha => by simp [hindexed a ha],
    List.filter_eq_self.mpr fun a ha => by simpa using hrest a ha, List.nil_append]

theorem ownBy_perm {α : Type} (key : α → Npm.Units) (as : List α) : (ownBy key as).Perm as := by
  have hrest : (as.filter fun a => decide (¬ (Npm.arrayIndex (key a)).isSome = true)) =
      as.filter fun a => !(Npm.arrayIndex (key a)).isSome :=
    List.filter_congr fun a _ => by cases Npm.arrayIndex (key a) <;> rfl
  rw [ownBy, hrest]
  exact (List.Perm.append (List.perm_insertionSort _ _) (.refl _)).trans
    (List.filter_append_perm (fun a => (Npm.arrayIndex (key a)).isSome) as)

theorem toJsEntries_eq_map (entries : List (String × Value)) :
    Value.toJsEntries entries = entries.map fun e => (Npm.units e.1, e.2.toJs) := by
  induction entries with
  | nil => rfl
  | cons e entries ih => rw [Value.toJsEntries, ih, List.map_cons]

/-- The entries of a dictionary in the order JavaScript lists their keys in. -/
def own (entries : List (String × Value)) : List (String × Value) :=
  ownBy (fun e => Npm.units e.1) entries

theorem ownOrder_toJsEntries (entries : List (String × Value)) :
    Npm.ownOrder (Value.toJsEntries entries) = Value.toJsEntries (own entries) := by
  rw [toJsEntries_eq_map, toJsEntries_eq_map]
  exact ownBy_map Prod.fst (fun e : String × Value => (Npm.units e.1, e.2.toJs)) entries

/-- An object made of entries that were listed is one of the entries. -/
theorem fromEntries_own (f : String × Value → Value) (entries : List (String × Value)) :
    Npm.fromEntries (Value.toJsEntries ((own entries).map fun e => (e.1, f e))) =
      (Value.dict (entries.map fun e => (e.1, f e))).toJs := by
  have hmap : (own entries).map (fun e => (e.1, f e)) = own (entries.map fun e => (e.1, f e)) :=
    (ownBy_map (fun e : String × Value => Npm.units e.1) (fun e => (e.1, f e)) entries).symm
  rw [Npm.fromEntries, Value.toJs, hmap, ownOrder_toJsEntries, ownOrder_toJsEntries, own, own,
    ownBy_ownBy]

/-! ## Mapping a payload -/

section Map

variable {ι : Type} {visit : Npm.JsValue → List Npm.PathItem →
  Except Npm.Error (Option Npm.JsValue × List ι)} {f : Value → Path → Value}
  {note : Value → Path → List ι} {Good : Value → Path → Prop}

/-- The package maps a value to the one Python has for it, with the same notes in some order. -/
def MapsAs (visit : Npm.JsValue → List Npm.PathItem →
    Except Npm.Error (Option Npm.JsValue × List ι)) (f : Value → Path → Value)
    (note : Value → Path → List ι) (value : Value) (path : Path) : Prop :=
  ∃ notes, notes.Perm (note value path) ∧
    Npm.mapPayload visit value.toJs (npmPath path) = .ok ((f value path).toJs, notes)

/-- The value has no parts. -/
def isAtom : Value → Bool
  | .dict _ => false
  | .list _ => false
  | _ => true

/-- A value that is mapped through its parts. -/
def Through (f : Value → Path → Value) (note : Value → Path → List ι)
    (Good : Value → Path → Prop) : Value → Path → Prop
  | .dict entries, path =>
      f (.dict entries) path =
          .dict (entries.map fun e => (e.1, f e.2 (path ++ [.key e.1]))) ∧
        (entries.flatMap fun e => note e.2 (path ++ [.key e.1])).Perm (note (.dict entries) path) ∧
        ∀ e ∈ entries, Good e.2 (path ++ [.key e.1])
  | .list items, path =>
      f (.list items) path = .list (items.zipIdx.map fun e => f e.1 (path ++ [.index e.2])) ∧
        (items.zipIdx.flatMap fun e => note e.1 (path ++ [.index e.2])).Perm
          (note (.list items) path) ∧
        ∀ e ∈ items.zipIdx, Good e.1 (path ++ [.index e.2])
  | value, path => f value path = value ∧ note value path = []

theorem mapEntries_toJs (entries : List (String × Value)) {path : Path}
    (h : ∀ e ∈ entries, MapsAs visit f note e.2 (path ++ [.key e.1])) :
    ∃ notes, notes.Perm (entries.flatMap fun e => note e.2 (path ++ [.key e.1])) ∧
      Npm.mapEntries visit (Value.toJsEntries entries) (npmPath path) =
        .ok (Value.toJsEntries (entries.map fun e => (e.1, f e.2 (path ++ [.key e.1]))),
          notes) := by
  induction entries with
  | nil => exact ⟨[], .refl _, rfl⟩
  | cons e entries ih =>
      rw [List.forall_mem_cons] at h
      obtain ⟨first, hfirst, hmap⟩ := h.1
      obtain ⟨rest, hrest, hmaps⟩ := ih h.2
      rw [npmPath_append] at hmap
      refine ⟨first ++ rest, hfirst.append hrest, ?_⟩
      rw [Value.toJsEntries, Npm.mapEntries]
      change (Npm.mapPayload _ _ (npmPath path ++ npmPath [.key e.1])).bind _ = _
      rw [hmap, hmaps]
      rfl

theorem mapItems_toJs (items : List Value) {path : Path} (i : ℕ)
    (h : ∀ e ∈ items.zipIdx i, MapsAs visit f note e.1 (path ++ [.index e.2])) :
    ∃ notes, notes.Perm ((items.zipIdx i).flatMap fun e => note e.1 (path ++ [.index e.2])) ∧
      Npm.mapItems visit (Value.toJsItems items) (npmPath path) i =
        .ok (Value.toJsItems ((items.zipIdx i).map fun e => f e.1 (path ++ [.index e.2])),
          notes) := by
  induction items generalizing i with
  | nil => exact ⟨[], .refl _, rfl⟩
  | cons item items ih =>
      rw [List.zipIdx_cons, List.forall_mem_cons] at h
      obtain ⟨first, hfirst, hmap⟩ := h.1
      obtain ⟨rest, hrest, hmaps⟩ := ih (i + 1) h.2
      rw [npmPath_append] at hmap
      refine ⟨first ++ rest, hfirst.append hrest, ?_⟩
      rw [Value.toJsItems, Npm.mapItems]
      change (Npm.mapPayload _ _ (npmPath path ++ npmPath [.index i])).bind _ = _
      rw [hmap, hmaps]
      rfl

theorem mapPayload_atom
    (hvisit : ∀ value path, Good value path →
      visit value.toJs (npmPath path) = .ok (some (f value path).toJs, note value path) ∨
        visit value.toJs (npmPath path) = .ok (none, []) ∧ Through f note Good value path)
    (value : Value) (path : Path) (hgood : Good value path) (hatom : isAtom value = true) :
    MapsAs visit f note value path := by
  have hmap : Npm.mapPayload visit value.toJs (npmPath path) =
      (visit value.toJs (npmPath path)).map fun mapped => (mapped.1.getD value.toJs, mapped.2) := by
    cases value <;> first | rfl | cases hatom
  rcases hvisit value path hgood with hcut | ⟨hnone, hthrough⟩
  · refine ⟨_, .refl _, ?_⟩
    rw [hmap, hcut]
    rfl
  · have hkeep : f value path = value ∧ note value path = [] := by
      cases value <;> first | exact hthrough | cases hatom
    refine ⟨[], by rw [hkeep.2], ?_⟩
    rw [hmap, hnone, hkeep.1]
    rfl

mutual

/-- If each visit does what Python does, or goes on to the parts, the map does. -/
theorem mapPayload_toJs
    (hvisit : ∀ value path, Good value path →
      visit value.toJs (npmPath path) = .ok (some (f value path).toJs, note value path) ∨
        visit value.toJs (npmPath path) = .ok (none, []) ∧ Through f note Good value path) :
    ∀ (value : Value) (path : Path), Good value path → MapsAs visit f note value path
  | .dict entries, path, hgood => by
      rcases hvisit _ path hgood with hcut | ⟨hnone, hf, hnote, hbelow⟩
      · refine ⟨_, .refl _, ?_⟩
        rw [Value.toJs] at hcut
        rw [Value.toJs, Npm.mapPayload, hcut]
        rfl
      · have hown := ownBy_perm (fun e : String × Value => Npm.units e.1) entries
        obtain ⟨notes, hperm, hmap⟩ := mapEntries_toJs (own entries) fun e he =>
          mapPayload_toJs_entries hvisit entries e (hown.mem_iff.mp he) _
            (hbelow e (hown.mem_iff.mp he))
        refine ⟨notes, (hperm.trans (hown.flatMap_right _)).trans hnote, ?_⟩
        rw [Value.toJs] at hnone
        rw [Value.toJs, Npm.mapPayload, hnone]
        change (Npm.mapEntries visit _ (npmPath path)).map _ = _
        rw [ownOrder_toJsEntries, hmap, hf, ← fromEntries_own]
        rfl
  | .list items, path, hgood => by
      rcases hvisit _ path hgood with hcut | ⟨hnone, hf, hnote, hbelow⟩
      · refine ⟨_, .refl _, ?_⟩
        rw [Value.toJs] at hcut
        rw [Value.toJs, Npm.mapPayload, hcut]
        rfl
      · obtain ⟨notes, hperm, hmap⟩ := mapItems_toJs items 0 fun e he =>
          mapPayload_toJs_items hvisit items e.1 (List.fst_mem_of_mem_zipIdx he) _ (hbelow e he)
        refine ⟨notes, hperm.trans hnote, ?_⟩
        rw [Value.toJs] at hnone
        rw [Value.toJs, Npm.mapPayload, hnone]
        change (Npm.mapItems visit _ (npmPath path) 0).map _ = _
        rw [hmap, hf]
        rfl
  | .none, path, hgood => mapPayload_atom hvisit .none path hgood rfl
  | .bool b, path, hgood => mapPayload_atom hvisit (.bool b) path hgood rfl
  | .int n, path, hgood => mapPayload_atom hvisit (.int n) path hgood rfl
  | .float q, path, hgood => mapPayload_atom hvisit (.float q) path hgood rfl
  | .str s, path, hgood => mapPayload_atom hvisit (.str s) path hgood rfl
  | .surrogates u, path, hgood => mapPayload_atom hvisit (.surrogates u) path hgood rfl
  | .foreign t, path, hgood => mapPayload_atom hvisit (.foreign t) path hgood rfl

theorem mapPayload_toJs_entries
    (hvisit : ∀ value path, Good value path →
      visit value.toJs (npmPath path) = .ok (some (f value path).toJs, note value path) ∨
        visit value.toJs (npmPath path) = .ok (none, []) ∧ Through f note Good value path) :
    ∀ entries : List (String × Value), ∀ e ∈ entries, ∀ path, Good e.2 path →
      MapsAs visit f note e.2 path
  | [], _, hmem, _, _ => absurd hmem List.not_mem_nil
  | (_, value) :: entries, e, hmem, path, hgood => by
      rcases List.mem_cons.mp hmem with heq | hrest
      · rw [heq] at hgood ⊢
        exact mapPayload_toJs hvisit value path hgood
      · exact mapPayload_toJs_entries hvisit entries e hrest path hgood

theorem mapPayload_toJs_items
    (hvisit : ∀ value path, Good value path →
      visit value.toJs (npmPath path) = .ok (some (f value path).toJs, note value path) ∨
        visit value.toJs (npmPath path) = .ok (none, []) ∧ Through f note Good value path) :
    ∀ items : List Value, ∀ item ∈ items, ∀ path, Good item path →
      MapsAs visit f note item path
  | [], _, hmem, _, _ => absurd hmem List.not_mem_nil
  | first :: items, item, hmem, path, hgood => by
      rcases List.mem_cons.mp hmem with heq | hrest
      · rw [heq] at hgood ⊢
        exact mapPayload_toJs hvisit first path hgood
      · exact mapPayload_toJs_items hvisit items item hrest path hgood

end

end Map

/-! ## Writing -/

theorem utf8Octets_length (text : String) :
    (Npm.utf8Octets (Npm.units text)).length = text.utf8ByteSize := by
  rw [utf8Octets_units, length_utf8Bytes]

theorem sha256_units (sha : List ℕ → String) (text : String) :
    Npm.sha256 sha (Npm.units text) = Npm.units (digestOf sha text) := by
  rw [Npm.sha256, utf8Octets_units, digestOf]

/-- The notes of a visit as the package makes them. -/
def npmNotes (notes : Notes) : List Npm.Note :=
  notes.blobs.map (fun e => .blob (Npm.units e.1) (Npm.units e.2)) ++
    notes.literalPaths.map fun path => .literal (Npm.units (pathText path))

theorem npmNotes_append (a b : Notes) :
    (npmNotes a ++ npmNotes b).Perm (npmNotes (a.append b)) := by
  simp only [npmNotes, Notes.append, List.map_append, List.append_assoc]
  refine List.Perm.append_left _ ?_
  rw [← List.append_assoc, ← List.append_assoc]
  exact List.Perm.append_right _ List.perm_append_comm

variable {sha : List ℕ → String} {settings : Settings}

theorem visitEntries_eq_map (entries : List (String × Value)) (path : Path) :
    (visitEntries (digestOf sha) settings entries path).1 = entries.map (fun e =>
        (e.1, (visit (digestOf sha) settings e.2 (path ++ [.key e.1])).1)) ∧
      (entries.flatMap fun e =>
        npmNotes (visit (digestOf sha) settings e.2 (path ++ [.key e.1])).2).Perm
          (npmNotes (visitEntries (digestOf sha) settings entries path).2) := by
  induction entries with
  | nil => exact ⟨rfl, .refl _⟩
  | cons e entries ih =>
      rw [visitEntries, List.map_cons, ih.1, List.flatMap_cons]
      exact ⟨rfl, (ih.2.append_left _).trans (npmNotes_append _ _)⟩

theorem visitItems_eq_map (items : List Value) (path : Path) (i : ℕ) :
    (visitItems (digestOf sha) settings items path i).1 = (items.zipIdx i).map (fun e =>
        (visit (digestOf sha) settings e.1 (path ++ [.index e.2])).1) ∧
      ((items.zipIdx i).flatMap fun e =>
        npmNotes (visit (digestOf sha) settings e.1 (path ++ [.index e.2])).2).Perm
          (npmNotes (visitItems (digestOf sha) settings items path i).2) := by
  induction items generalizing i with
  | nil => exact ⟨rfl, .refl _⟩
  | cons item items ih =>
      rw [visitItems, List.zipIdx_cons, List.map_cons, (ih (i + 1)).1, List.flatMap_cons]
      exact ⟨rfl, ((ih (i + 1)).2.append_left _).trans (npmNotes_append _ _)⟩

/-- The package interns as Python does. -/
theorem intern_toJs (value : Value) (path : Path) :
    MapsAs (Npm.intern sha settings.internPayloads settings.internThreshold)
      (fun value path => (visit (digestOf sha) settings value path).1)
      (fun value path => npmNotes (visit (digestOf sha) settings value path).2) value path := by
  refine @mapPayload_toJs _ _ _ _ (fun _ _ => True) (fun value path _ => ?_) value path trivial
  have hform := blobDigest_toJs value
  cases value with
  | dict entries =>
      unfold Npm.intern
      rw [visit, hform]
      cases hdigest : blobDigest (.dict entries) with
      | some digest =>
          refine .inl ?_
          rw [pathText_npmPath]
          rfl
      | none =>
          have hmap := @visitEntries_eq_map sha settings entries path
          refine .inr ⟨by rw [Value.toJs]; rfl, ?_⟩
          simp only [Through, visit, hdigest, Option.isSome_none, Bool.false_eq_true, if_false]
          exact ⟨by rw [hmap.1], hmap.2, fun _ _ => trivial⟩
  | list items =>
      have hmap := @visitItems_eq_map sha settings items path 0
      refine .inr ⟨rfl, ?_⟩
      simp only [Through, visit]
      exact ⟨by rw [hmap.1], hmap.2, fun _ _ => trivial⟩
  | str text =>
      have hintern : Npm.intern sha settings.internPayloads settings.internThreshold
          (Value.str text).toJs (npmPath path) =
          if settings.internPayloads = true ∧ settings.internThreshold ≤ text.utf8ByteSize then
            .ok (some (.object [(Npm.units blobRef, .string (Npm.units (digestOf sha text)))]),
              [.blob (Npm.units (digestOf sha text)) (Npm.units text)])
          else .ok (none, []) := by
        rw [← utf8Octets_length, ← sha256_units]
        rfl
      rw [hintern]
      simp only [Through, visit]
      split
      · exact .inl rfl
      · exact .inr ⟨rfl, rfl, rfl⟩
  | _ => exact .inr ⟨rfl, rfl, rfl⟩

/-! ## Reading -/

variable {blobs : Dict String String} {literals : List String}

/-- What Python reads for a value it can read. -/
def readOr (blobs : Dict String String) (literals : List String) (value : Value) (path : Path) :
    Value :=
  match rehydrate (pathsOf literals) (blobValue blobs) value path with
  | .ok read => read
  | .error _ => value

/-- Python reads the value. -/
def IsRead (blobs : Dict String String) (literals : List String) (value : Value) (path : Path) :
    Prop :=
  rehydrate (pathsOf literals) (blobValue blobs) value path = .ok (readOr blobs literals value path)

theorem readOr_eq {value read : Value} {path : Path}
    (h : rehydrate (pathsOf literals) (blobValue blobs) value path = .ok read) :
    readOr blobs literals value path = read := by
  simp only [readOr, h]

theorem isRead_of_ok {value read : Value} {path : Path}
    (h : rehydrate (pathsOf literals) (blobValue blobs) value path = .ok read) :
    IsRead blobs literals value path := by
  rw [IsRead, readOr_eq h, h]

theorem rehydrateEntries_eq_map {entries read : List (String × Value)} {path : Path}
    (h : rehydrateEntries (pathsOf literals) (blobValue blobs) entries path = .ok read) :
    read = entries.map (fun e => (e.1, readOr blobs literals e.2 (path ++ [.key e.1]))) ∧
      ∀ e ∈ entries, IsRead blobs literals e.2 (path ++ [.key e.1]) := by
  induction entries generalizing read with
  | nil =>
      cases h
      exact ⟨rfl, fun _ hmem => absurd hmem List.not_mem_nil⟩
  | cons e entries ih =>
      obtain ⟨first, rest, hfirst, hrest, rfl⟩ := rehydrateEntries_cons_ok.mp h
      rw [List.map_cons, readOr_eq hfirst, ← (ih hrest).1, List.forall_mem_cons]
      exact ⟨rfl, isRead_of_ok hfirst, (ih hrest).2⟩

theorem rehydrateItems_eq_map {items read : List Value} {path : Path} {i : ℕ}
    (h : rehydrateItems (pathsOf literals) (blobValue blobs) items path i = .ok read) :
    read = (items.zipIdx i).map (fun e => readOr blobs literals e.1 (path ++ [.index e.2])) ∧
      ∀ e ∈ items.zipIdx i, IsRead blobs literals e.1 (path ++ [.index e.2]) := by
  induction items generalizing read i with
  | nil =>
      cases h
      exact ⟨rfl, fun _ hmem => absurd hmem List.not_mem_nil⟩
  | cons item items ih =>
      obtain ⟨first, rest, hfirst, hrest, rfl⟩ := rehydrateItems_cons_ok.mp h
      rw [List.zipIdx_cons, List.map_cons, readOr_eq hfirst, ← (ih hrest).1, List.forall_mem_cons]
      exact ⟨rfl, isRead_of_ok hfirst, (ih hrest).2⟩

theorem mem_literals_units {path : Path} :
    Npm.pathText (npmPath path) ∈ literals.map Npm.units ↔ path ∈ pathsOf literals := by
  rw [pathText_npmPath, List.mem_map_of_injective units_injective, mem_pathsOf]

/-- The package reads what Python reads. -/
theorem rehydrate_toJs (hdigested : Digested sha blobs) {value : Value} {path : Path}
    {read : Value} (h : rehydrate (pathsOf literals) (blobValue blobs) value path = .ok read) :
    Npm.mapPayload (Npm.rehydrate sha blobs literals) value.toJs (npmPath path) =
      .ok (read.toJs, []) := by
  suffices hmaps : MapsAs (Npm.rehydrate sha blobs literals) (readOr blobs literals)
      (fun _ _ => []) value path by
    obtain ⟨notes, -, hmap⟩ := hmaps
    have hnil : notes = [] := List.eq_nil_iff_forall_not_mem.mpr fun e => e.elim
    rw [hmap, readOr_eq h, hnil]
  refine @mapPayload_toJs _ _ _ _ (IsRead blobs literals) (fun value path hread => ?_) value path
    (isRead_of_ok h)
  have hform := blobDigest_toJs value
  unfold Npm.rehydrate
  rw [hform]
  cases value with
  | dict entries =>
      rw [IsRead, rehydrate] at hread
      cases hdigest : blobDigest (.dict entries) with
      | some digest =>
          refine .inl ?_
          rw [hdigest] at hread
          dsimp only [Option.map_some] at hread ⊢
          rw [text_units]
          by_cases hliteral : path ∈ pathsOf literals
          · rw [if_pos hliteral] at hread
            rw [if_pos (mem_literals_units.mpr hliteral)]
            obtain ⟨hentries, -⟩ := blobDigest_eq_some.mp hdigest
            cases hentries
            have hkeep := Except.ok.inj hread
            rw [← hkeep]
          · rw [if_neg hliteral] at hread
            rw [if_neg fun hmem => hliteral (mem_literals_units.mp hmem)]
            obtain ⟨text, htext, hread⟩ := map_ok_iff.mp hread
            rw [← hread]
            unfold blobValue at htext
            cases hblob : blobs.get? digest with
            | none =>
                rw [hblob] at htext
                cases htext
            | some blob =>
                rw [hblob] at htext
                cases htext
                dsimp only
                rw [sha256_units, hdigested digest text hblob, if_neg (not_not_intro rfl)]
                rfl
      | none =>
          rw [hdigest] at hread
          obtain ⟨entries', hentries, hread⟩ := map_ok_iff.mp hread
          obtain ⟨hmap, hbelow⟩ := rehydrateEntries_eq_map hentries
          exact .inr ⟨rfl, by rw [← hread, hmap], by simp, hbelow⟩
  | list items =>
      rw [IsRead, rehydrate] at hread
      obtain ⟨items', hitems, hread⟩ := map_ok_iff.mp hread
      obtain ⟨hmap, hbelow⟩ := rehydrateItems_eq_map hitems
      exact .inr ⟨rfl, by rw [← hread, hmap], by simp, hbelow⟩
  | _ => exact .inr ⟨rfl, rfl, rfl⟩

theorem referencedEntries_eq_flatMap (entries : List (String × Value)) (path : Path) :
    referencedEntries (pathsOf literals) entries path =
      entries.flatMap fun e => referencedBlobs (pathsOf literals) e.2 (path ++ [.key e.1]) := by
  induction entries with
  | nil => rfl
  | cons e entries ih => rw [referencedEntries, ih, List.flatMap_cons]

theorem referencedItems_eq_flatMap (items : List Value) (path : Path) (i : ℕ) :
    referencedItems (pathsOf literals) items path i =
      (items.zipIdx i).flatMap fun e =>
        referencedBlobs (pathsOf literals) e.1 (path ++ [.index e.2]) := by
  induction items generalizing i with
  | nil => rfl
  | cons item items ih => rw [referencedItems, ih, List.zipIdx_cons, List.flatMap_cons]

/-- The package finds the references Python finds. -/
theorem references_toJs (value : Value) (path : Path) :
    MapsAs (Npm.references literals) (fun value _ => value)
      (fun value path => (referencedBlobs (pathsOf literals) value path).map Npm.units)
      value path := by
  refine @mapPayload_toJs _ _ _ _ (fun _ _ => True) (fun value path _ => ?_) value path trivial
  have hform := blobDigest_toJs value
  unfold Npm.references
  rw [hform]
  cases value with
  | dict entries =>
      rw [referencedBlobs]
      cases hdigest : blobDigest (.dict entries) with
      | some digest =>
          refine .inl ?_
          dsimp only [Option.map_some]
          simp only [mem_literals_units]
          split <;> rfl
      | none =>
          refine .inr ⟨rfl, ?_⟩
          simp only [Through, referencedBlobs, hdigest, referencedEntries_eq_flatMap,
            List.map_flatMap, implies_true, and_true]
          exact ⟨by rw [List.map_id'], .refl _⟩
  | list items =>
      refine .inr ⟨rfl, ?_⟩
      simp only [Through, referencedBlobs, referencedItems_eq_flatMap, List.map_flatMap,
        implies_true, and_true]
      exact ⟨by rw [List.zipIdx_map_fst], .refl _⟩
  | _ => exact .inr ⟨rfl, rfl, rfl⟩

end Pollard.Stores.SharedCodec
