import Mathlib.Data.Finset.Card
import Mathlib.Data.Finset.SDiff
import Pollard.Registry.References

/-!
# The expansion of local references

The expansion ends, since a reference in progress is one pointer less that is left.  It fails
where it comes to a reference that leads nowhere, and what it returns has no references.
-/

namespace Pollard.References

open Lib

/-! ## One entry -/

/-- An entry, its schemas each replaced. -/
inductive Entrywise (P : Value → Value → Prop) : String × Value → String × Value → Prop
  | properties {properties resolved : List (String × Value)}
      (h : List.Forall₂ (fun a b => b.1 = a.1 ∧ P a.2 b.2) properties resolved) :
      Entrywise P ("properties", .dict properties) ("properties", .dict resolved)
  | anyOf {items resolved : List Value} (h : List.Forall₂ P items resolved) :
      Entrywise P ("anyOf", .list items) ("anyOf", .list resolved)
  | items {child resolved : Value} (h : P child resolved) :
      Entrywise P ("items", child) ("items", resolved)
  | other {entry : String × Value} (h : ∀ child, ¬ Holds entry child) : Entrywise P entry entry

namespace Entrywise

variable {P : Value → Value → Prop} {entry resolved : String × Value}

theorem key (h : Entrywise P entry resolved) : resolved.1 = entry.1 := by
  cases h <;> rfl

theorem holds (h : Entrywise P entry resolved) {child : Value} (hchild : Holds entry child) :
    ∃ out, P child out := by
  cases h with
  | properties h =>
      obtain ⟨name, hmem⟩ := holds_properties.mp hchild
      obtain ⟨b, -, -, hb⟩ := Fallible.exists_of_forall₂ h hmem
      exact ⟨b.2, hb⟩
  | anyOf h =>
      obtain ⟨b, -, hb⟩ := Fallible.exists_of_forall₂ h (holds_anyOf.mp hchild)
      exact ⟨b, hb⟩
  | items h =>
      rw [holds_items.mp hchild]
      exact ⟨_, h⟩
  | other h => exact absurd hchild (h child)

theorem origin (h : Entrywise P entry resolved) {out : Value} (hout : Holds resolved out) :
    ∃ child, Holds entry child ∧ P child out := by
  cases h with
  | properties h =>
      obtain ⟨name, hmem⟩ := holds_properties.mp hout
      obtain ⟨a, ha, -, hb⟩ := Fallible.exists_left_of_forall₂ h hmem
      exact ⟨a.2, .property ha, hb⟩
  | anyOf h =>
      obtain ⟨a, ha, hb⟩ := Fallible.exists_left_of_forall₂ h (holds_anyOf.mp hout)
      exact ⟨a, .branch ha, hb⟩
  | items h =>
      rw [holds_items.mp hout]
      exact ⟨_, .item _, h⟩
  | other h => exact absurd hout (h out)

theorem eq_of_same (h : Entrywise (fun child out => out = child) entry resolved) :
    resolved = entry := by
  cases h with
  | @properties before after h =>
      have heq : List.Forall₂ (· = ·) before after :=
        h.imp fun a b hab => Prod.ext hab.1.symm hab.2.symm
      rw [List.forall₂_eq_eq_eq] at heq
      rw [heq]
  | @anyOf before after h =>
      have heq : List.Forall₂ (· = ·) before after := h.imp fun a b hab => hab.symm
      rw [List.forall₂_eq_eq_eq] at heq
      rw [heq]
  | items h => rw [h]
  | other => rfl

end Entrywise

section Entry

variable {call call' : Value → String → ExceptT PyError Option Value} {path : String}
  {entry : String × Value}

theorem resolveEntry_yields {P : Value → Value → Prop} {Q : Prop}
    (h : ∀ child path, Holds entry child → Levels.Yields (P child) Q (call child path)) :
    Levels.Yields (Entrywise P entry) Q (resolveEntry call path entry) := by
  unfold resolveEntry
  split
  · refine (Levels.Yields.mapM ?_).bind fun _ hall => .pure (.properties hall)
    rintro ⟨name, schema⟩ hmem
    exact (h schema _ (.property hmem)).bind fun _ hout => .pure ⟨rfl, hout⟩
  · next items =>
      refine (Levels.Yields.mapM (R := fun p out => P p.1 out) ?_).bind fun outs hall =>
        .pure ?_
      · rintro ⟨item, index⟩ hmem
        exact h item _ (.branch (List.fst_mem_of_mem_zipIdx hmem))
      · refine .anyOf ?_
        rw [← List.zipIdx_map_fst 0 items, List.forall₂_map_left_iff]
        exact hall
  · next child => exact (h child _ (.item child)).bind fun _ hout => .pure (.items hout)
  · next hproperties hanyOf hitems =>
      refine .pure (.other ?_)
      rintro child (hmem | hmem | _)
      · exact hproperties _ rfl
      · exact hanyOf _ rfl
      · exact hitems _ rfl

theorem resolveEntry_ends (h : ∀ child path, Holds entry child → Levels.Ends (call child path)) :
    Levels.Ends (resolveEntry call path entry) := by
  unfold resolveEntry
  split
  · refine (Levels.Ends.mapM ?_).bind fun _ _ => .pure _
    rintro ⟨name, schema⟩ hmem
    exact (h schema _ (.property hmem)).bind fun _ _ => .pure _
  · refine (Levels.Ends.mapM ?_).bind fun _ _ => .pure _
    rintro ⟨item, index⟩ hmem
    exact h item _ (.branch (List.fst_mem_of_mem_zipIdx hmem))
  · next child => exact (h child _ (.item child)).bind fun _ _ => .pure _
  · exact .pure _

theorem resolveEntry_grows (h : ∀ child path, Levels.Grows (call child path) (call' child path)) :
    Levels.Grows (resolveEntry call path entry) (resolveEntry call' path entry) := by
  unfold resolveEntry
  split
  · refine (Levels.Grows.mapM ?_).bind fun _ => .refl
    rintro ⟨name, schema⟩ -
    exact (h schema _).bind fun _ => .refl
  · refine (Levels.Grows.mapM ?_).bind fun _ => .refl
    rintro ⟨item, index⟩ -
    exact h item _
  · next child => exact (h child _).bind fun _ => .refl
  · exact .refl

end Entry

/-! ## The expansion -/

theorem refFree_other {value : Value} (h : ∀ entries, value ≠ .dict entries) : RefFree value := by
  intro entries hreach
  rcases Relation.ReflTransGen.cases_head hreach with heq | ⟨_, ⟨inner, heq, -⟩, -⟩
  · exact absurd heq (h entries)
  · exact absurd heq (h inner)

theorem refFree_dict {entries : List (String × Value)}
    (hkeys : ∀ key ∈ Assoc.keys entries, key ∉ ["$ref", "$defs", "definitions"])
    (hentries : ∀ entry ∈ entries, ∀ child, Holds entry child → RefFree child) :
    RefFree (.dict entries) := by
  intro inner hreach
  rcases Relation.ReflTransGen.cases_head hreach with
    heq | ⟨child, ⟨_, ⟨⟩, entry, hmem, hholds⟩, hrest⟩
  · cases heq
    exact hkeys
  · exact hentries entry hmem child hholds inner hrest

theorem RefFree.keys {entries : List (String × Value)} (h : RefFree (.dict entries)) :
    ∀ key ∈ Assoc.keys entries, key ∉ ["$ref", "$defs", "definitions"] :=
  h entries .refl

theorem RefFree.child {schema child : Value} (h : RefFree schema) (hchild : Child schema child) :
    RefFree child :=
  fun entries hreach => h entries (.head hchild hreach)

/-- No place the expansion comes to has a reference that leads nowhere. -/
def Clean (root : Value) (place : Place) : Prop :=
  ∀ other, Reaches root place other → ¬ Refused root other

section Expansion

variable {root : Value}

theorem Clean.step {place next : Place} (h : Clean root place) (hstep : Step root place next) :
    Clean root next :=
  fun other hreach => h other (.head hstep hreach)

theorem clean_of_steps {place : Place} (hhere : ¬ Refused root place)
    (hsteps : ∀ next, Step root place next → Clean root next) : Clean root place := by
  intro other hreach
  rcases Relation.ReflTransGen.cases_head hreach with rfl | ⟨next, hstep, hrest⟩
  · exact hhere
  · exact hsteps next hstep other hrest

theorem Resolves.unique {entries next next' : List (String × Value)} {active : List (List Char)}
    {pointer pointer' : List Char} (h : Resolves root entries active pointer next)
    (h' : Resolves root entries active pointer' next') : pointer = pointer' ∧ next = next' := by
  obtain ⟨text, href, hpointer⟩ := h.spelled
  obtain ⟨text', href', hpointer'⟩ := h'.spelled
  cases href.symm.trans href'
  cases hpointer.symm.trans hpointer'
  cases h.target.symm.trans h'.target
  exact ⟨rfl, rfl⟩

section Target

variable {entries : List (String × Value)} {active : List (List Char)} {value : Value}
  {path : String}

theorem resolves_of_target {text : String} {pointer : List Char} {next : List (String × Value)}
    (href : reference entries = some value)
    (h : target root entries value path active = .ok (text, pointer, .dict next)) :
    Resolves root entries active pointer next := by
  obtain ⟨rfl, hannotated, hpointer, hfresh, htarget⟩ := target_ok_iff.mp h
  exact ⟨⟨text, href, hpointer⟩, hannotated, hfresh, htarget⟩

theorem target_of_resolves {pointer : List Char} {next : List (String × Value)}
    (href : reference entries = some value) (h : Resolves root entries active pointer next) :
    ∃ text, target root entries value path active = .ok (text, pointer, .dict next) := by
  obtain ⟨text, href', hpointer⟩ := h.spelled
  cases href.symm.trans href'
  exact ⟨text, target_ok_iff.mpr ⟨rfl, h.annotated, hpointer, h.fresh, h.target⟩⟩

/-- A reference is refused where its checks fail or its target is no object. -/
theorem refused_of_target (path : String) (href : reference entries = some value)
    (h : ∀ text pointer next,
      target root entries value path active ≠ .ok (text, pointer, .dict next)) :
    Refused root (.dict entries, active) := by
  refine ⟨entries, rfl, by rw [href]; rfl, fun pointer next hresolves => ?_⟩
  obtain ⟨text, htarget⟩ := target_of_resolves href hresolves
  exact h text pointer next htarget

theorem Resolves.not_refused {pointer : List Char} {next : List (String × Value)}
    (h : Resolves root entries active pointer next) : ¬ Refused root (.dict entries, active) := by
  rintro ⟨_, ⟨⟩, -, hnone⟩
  exact hnone pointer next h

end Target

/-! ### Results -/

/-- What the expansion of a value at a place gives. -/
structure Done (root value : Value) (active : List (List Char)) (out : Value) : Prop where
  clean : Clean root (value, active)
  object : value.isDict = out.isDict
  refFree : NonNull root → value ∈ parts root → RefFree out

theorem done_other {value : Value} {active : List (List Char)}
    (h : ∀ entries, value ≠ .dict entries) : Done root value active value where
  clean := by
    refine clean_of_steps ?_ ?_
    · rintro ⟨entries, rfl, -⟩
      exact h entries rfl
    · intro next hstep
      generalize hplace : (value, active) = place at hstep
      cases hstep with
      | child => exact absurd (congrArg Prod.fst hplace) (h _)
      | target => exact absurd (congrArg Prod.fst hplace) (h _)
      | annotated => exact absurd (congrArg Prod.fst hplace) (h _)
  object := rfl
  refFree _ _ := refFree_other h

theorem not_mem_of_reference_none {entries : List (String × Value)}
    (href : reference entries = none) (hnull : ("$ref", .none) ∉ entries) :
    "$ref" ∉ Assoc.keys entries := by
  rw [← Assoc.lookup_eq_none_iff]
  cases hlookup : Assoc.lookup entries "$ref" with
  | none => rfl
  | some value =>
      rw [reference, hlookup, Option.filter_eq_none_iff] at href
      have hvalue : value = .none := by simpa using href value rfl
      exact absurd (hvalue ▸ Assoc.mem_of_lookup hlookup) hnull

theorem done_children {entries resolved : List (String × Value)} {active : List (List Char)}
    (href : reference entries = none)
    (h : List.Forall₂ (Entrywise fun child out => Done root child active out)
      (entries.filter fun e => e.1 ∉ ["$defs", "definitions"]) resolved) :
    Done root (.dict entries) active (.dict resolved) where
  clean := by
    refine clean_of_steps ?_ ?_
    · rintro ⟨_, ⟨⟩, hsome, -⟩
      rw [href] at hsome
      cases hsome
    · intro next hstep
      cases hstep with
      | child _ hchild =>
          obtain ⟨_, ⟨⟩, entry, hentry, hholds⟩ := hchild
          have hkey : entry.1 ∉ ["$defs", "definitions"] := by
            have := hholds.key
            grind
          obtain ⟨out, -, hout⟩ := Fallible.exists_of_forall₂ h
            (List.mem_filter.mpr ⟨hentry, decide_eq_true hkey⟩)
          obtain ⟨child', hdone⟩ := hout.holds hholds
          exact hdone.clean
      | target hresolves =>
          obtain ⟨text, hsome, -⟩ := hresolves.spelled
          cases href.symm.trans hsome
      | annotated hresolves =>
          obtain ⟨text, hsome, -⟩ := hresolves.spelled
          cases href.symm.trans hsome
  object := rfl
  refFree hnull hparts := by
    refine refFree_dict ?_ ?_
    · intro key hkey
      obtain ⟨out, hout, rfl⟩ := List.mem_map.mp hkey
      obtain ⟨entry, hentry, hrel⟩ := Fallible.exists_left_of_forall₂ h hout
      obtain ⟨hmem, hnot⟩ := List.mem_filter.mp hentry
      have href' := not_mem_of_reference_none href (hnull entries hparts)
      have hne : entry.1 ≠ "$ref" := fun heq => href' (heq ▸ List.mem_map_of_mem hmem)
      rw [hrel.key]
      simp only [List.mem_cons, List.not_mem_nil, or_false, decide_not, Bool.not_eq_true',
        decide_eq_false_iff_not] at hnot
      simp only [List.mem_cons, List.not_mem_nil, or_false]
      tauto
    · intro out hout child' hchild'
      obtain ⟨entry, hentry, hrel⟩ := Fallible.exists_left_of_forall₂ h hout
      obtain ⟨child, hholds, hdone⟩ := hrel.origin hchild'
      refine hdone.refFree hnull (mem_parts_trans hparts ?_)
      exact mem_parts_trans (mem_parts_entry (List.mem_filter.mp hentry).1) hholds.mem_parts

theorem mem_foldl_upsert {siblings expanded : List (String × Value)} {entry : String × Value}
    (h : entry ∈ siblings.foldl (fun combined e => Assoc.upsert combined e.1 e.2) expanded) :
    entry ∈ siblings ∨ entry ∈ expanded := by
  induction siblings generalizing expanded with
  | nil => exact .inr h
  | cons sibling rest ih =>
      rcases ih h with hrest | hexpanded
      · exact .inl (List.mem_cons_of_mem _ hrest)
      · rcases Assoc.mem_of_mem_upsert hexpanded with rfl | hmem
        · exact .inl List.mem_cons_self
        · exact .inr hmem

theorem done_reference {entries next expanded siblings : List (String × Value)}
    {active : List (List Char)} {pointer : List Char}
    (hresolves : Resolves root entries active pointer next)
    (hexpanded : Done root (.dict next) (active ++ [pointer]) (.dict expanded))
    (hsiblings : List.Forall₂ (fun e out => out.1 = e.1 ∧ Done root e.2 active out.2)
      (entries.filter fun e => e.1 ∉ ["$defs", "$ref", "definitions"]) siblings) :
    Done root (.dict entries) active
      (.dict (siblings.foldl (fun combined e => Assoc.upsert combined e.1 e.2) expanded)) where
  clean := by
    refine clean_of_steps hresolves.not_refused ?_
    intro place hstep
    cases hstep with
    | child hnone =>
        obtain ⟨text, hsome, -⟩ := hresolves.spelled
        cases hnone.symm.trans hsome
    | target hresolves' =>
        obtain ⟨rfl, rfl⟩ := hresolves.unique hresolves'
        exact hexpanded.clean
    | annotated _ hmem hname =>
        obtain ⟨out, -, -, hdone⟩ := Fallible.exists_of_forall₂ hsiblings
          (List.mem_filter.mpr ⟨hmem, decide_eq_true hname⟩)
        exact hdone.clean
  object := rfl
  refFree hnull hparts := by
    have hfree := hexpanded.refFree hnull (target?_mem_parts hresolves.target)
    have hsibling : ∀ out ∈ siblings, out.1 ∈ annotations ∧
        out.1 ∉ ["$defs", "$ref", "definitions"] := by
      intro out hout
      obtain ⟨entry, hentry, hkey, -⟩ := Fallible.exists_left_of_forall₂ hsiblings hout
      obtain ⟨hmem, hnot⟩ := List.mem_filter.mp hentry
      rw [hkey]
      exact ⟨hresolves.annotated _ (List.mem_map_of_mem hmem), of_decide_eq_true hnot⟩
    refine refFree_dict ?_ ?_
    · intro key hkey
      obtain ⟨out, hout, rfl⟩ := List.mem_map.mp hkey
      rcases mem_foldl_upsert hout with hout | hout
      · have hnot := (hsibling out hout).2
        grind
      · exact hfree.keys _ (List.mem_map_of_mem hout)
    · intro out hout child hholds
      rcases mem_foldl_upsert hout with hout | hout
      · obtain ⟨hannotated, hnot⟩ := hsibling out hout
        have hkey := hholds.key
        unfold annotations at hannotated
        grind
      · exact hfree.child ⟨expanded, rfl, out, hout, hholds⟩

/-! ### Runs -/

theorem resolve_other {levels : ℕ} {value : Value} {path : String} {active : List (List Char)}
    (h : ∀ entries, value ≠ .dict entries) :
    resolve root (levels + 1) value path active = pure value := by
  cases value with
  | dict entries => exact absurd rfl (h entries)
  | _ => rfl

theorem resolve_yields (levels : ℕ) (value : Value) (path : String) (active : List (List Char)) :
    Levels.Yields (Done root value active) (¬ Clean root (value, active))
      (resolve root levels value path active) := by
  induction levels generalizing value path active with
  | zero => exact .out
  | succ levels ih =>
      by_cases hdict : ∃ entries, value = .dict entries
      · obtain ⟨entries, rfl⟩ := hdict
        rw [resolve]
        split
        · next spelled href =>
            refine (Levels.Yields.lift (fun _ h => h) fun e herror => ?_).bind ?_
            · intro hclean
              refine hclean _ .refl (refused_of_target path href ?_)
              rw [herror]
              nofun
            · rintro ⟨text, pointer, found⟩ htarget
              by_cases hfound : ∃ next, found = .dict next
              · obtain ⟨next, rfl⟩ := hfound
                have hresolves := resolves_of_target href htarget
                refine ((ih _ _ _).mono (fun _ h => h) ?_).bind fun out hout => ?_
                · exact fun hfails hclean => hfails (hclean.step (.target hresolves))
                · split
                  · refine (Levels.Yields.mapM (R := fun e out => out.1 = e.1 ∧
                      Done root e.2 active out.2) ?_).bind fun siblings hall => .pure ?_
                    · rintro ⟨name, sibling⟩ hmem
                      obtain ⟨hentry, hname⟩ := List.mem_filter.mp hmem
                      refine ((ih _ _ _).mono (fun _ h => h) ?_).bind fun _ h => .pure ⟨rfl, h⟩
                      exact fun hfails hclean => hfails
                        (hclean.step (.annotated hresolves hentry (of_decide_eq_true hname)))
                    · exact done_reference hresolves hout hall
                  · next hother =>
                      have hobject := hout.object
                      cases out with
                      | dict expanded => exact absurd rfl (hother expanded)
                      | _ => cases hobject
              · -- The target is no object, and is refused when it has come back as it is.
                have hrefused : ¬ Clean root (.dict entries, active) := by
                  refine fun hclean => hclean _ .refl (refused_of_target path href ?_)
                  intro text' pointer' next htarget'
                  cases htarget.symm.trans htarget'
                  exact hfound ⟨next, rfl⟩
                refine ((ih found _ _).mono (fun _ h => h) fun _ => hrefused).bind
                  fun out hout => ?_
                split
                · next expanded =>
                    have hobject := hout.object
                    cases found with
                    | dict next => exact absurd ⟨next, rfl⟩ hfound
                    | _ => cases hobject
                · exact .throw hrefused
        · next href =>
            refine (Levels.Yields.mapM (R := Entrywise fun child out => Done root child active out)
              ?_).bind fun resolved hall => .pure (done_children href hall)
            intro entry hentry
            refine resolveEntry_yields fun child path hholds => (ih child path active).mono
              (fun _ h => h) fun hfails hclean => hfails ?_
            exact hclean.step (.child href
              ⟨entries, rfl, entry, (List.mem_filter.mp hentry).1, hholds⟩)
      · have hother : ∀ entries, value ≠ .dict entries := fun entries h => hdict ⟨entries, h⟩
        rw [resolve_other hother]
        exact .pure (done_other hother)

theorem resolve_grows (levels : ℕ) (value : Value) (path : String) (active : List (List Char)) :
    Levels.Grows (resolve root levels value path active)
      (resolve root (levels + 1) value path active) := by
  induction levels generalizing value path active with
  | zero => exact .out
  | succ levels ih =>
      cases value with
      | dict entries =>
          rw [resolve, resolve]
          split
          · refine Levels.Grows.refl.bind ?_
            rintro ⟨text, pointer, found⟩
            refine (ih _ _ _).bind fun out => ?_
            split
            · refine (Levels.Grows.mapM ?_).bind fun _ => .refl
              rintro ⟨name, sibling⟩ -
              exact (ih _ _ _).bind fun _ => .refl
            · exact .refl
          · exact (Levels.Grows.mapM fun _ _ => resolveEntry_grows fun child path =>
              ih child path active).bind fun _ => .refl
      | _ => exact .refl

theorem resolve_of_le {levels levels' : ℕ} (hle : levels ≤ levels') {value : Value} {path : String}
    {active : List (List Char)} {r : Except PyError Value}
    (h : (resolve root levels value path active).run = some r) :
    (resolve root levels' value path active).run = some r := by
  induction levels', hle using Nat.le_induction with
  | base => exact h
  | succ levels' _ ih => exact resolve_grows levels' value path active r ih

/-- A schema without references is returned as it is. -/
theorem resolve_refFree (levels : ℕ) {value : Value} (path : String) (active : List (List Char))
    (hfree : RefFree value) :
    Levels.Yields (· = value) False (resolve root levels value path active) := by
  induction levels generalizing value path with
  | zero => exact .out
  | succ levels ih =>
      cases value with
      | dict entries =>
          have hkeys := hfree.keys
          have href : reference entries = none := by
            have hnone : Assoc.lookup entries "$ref" = none :=
              Assoc.lookup_eq_none_iff.mpr fun hmem => hkeys _ hmem (by simp)
            rw [reference, hnone]
            rfl
          have hfilter : entries.filter (fun e => e.1 ∉ ["$defs", "definitions"]) = entries := by
            refine List.filter_eq_self.mpr fun entry hentry => decide_eq_true ?_
            have hkey := hkeys entry.1 (List.mem_map_of_mem hentry)
            grind
          rw [resolve, href]
          simp only [hfilter]
          refine (Levels.Yields.mapM (R := fun e out => out = e) ?_).bind fun resolved hall =>
            .pure ?_
          · intro entry hentry
            refine (resolveEntry_yields (P := fun child out => out = child) ?_).mono
              (fun _ h => h.eq_of_same) id
            exact fun child path hholds =>
              ih path (hfree.child ⟨entries, rfl, entry, hentry, hholds⟩)
          · have heq : List.Forall₂ (· = ·) entries resolved := hall.imp fun a b hab => hab.symm
            rw [List.forall₂_eq_eq_eq] at heq
            rw [heq]
      | _ => exact .pure rfl

/-! ### Depth -/

/-- The pointers the strings of a document spell. -/
def pointers (root : Value) : Finset (List Char) :=
  ((parts root).filterMap fun value => match value with
    | .str text => pointer? text
    | _ => none).toFinset

/-- How deep the calls can lie in each other. -/
noncomputable def depth (root value : Value) (active : List (List Char)) : ℕ :=
  (pointers root \ active.toFinset).card * (sizeOf root + 1) + sizeOf value

theorem Resolves.mem_pointers {entries next : List (String × Value)} {active : List (List Char)}
    {pointer : List Char} (h : Resolves root entries active pointer next)
    (hparts : .dict entries ∈ parts root) : pointer ∈ pointers root := by
  obtain ⟨text, href, hpointer⟩ := h.spelled
  have hlookup := (Option.filter_eq_some_iff.mp href).1
  have hmem : .str text ∈ parts root :=
    mem_parts_trans hparts (mem_parts_entry (Assoc.mem_of_lookup hlookup))
  exact List.mem_toFinset.mpr (List.mem_filterMap.mpr ⟨_, hmem, hpointer⟩)

/-- With each reference one pointer less is left. -/
theorem Resolves.depth_lt {entries next : List (String × Value)} {active : List (List Char)}
    {pointer : List Char} (h : Resolves root entries active pointer next)
    (hparts : .dict entries ∈ parts root) :
    depth root (.dict next) (active ++ [pointer]) < depth root (.dict entries) active := by
  have hsubset : pointers root \ (active ++ [pointer]).toFinset ⊂
      pointers root \ active.toFinset := by
    refine Finset.ssubset_iff_of_subset (fun p hp => ?_) |>.mpr ⟨pointer, ?_, ?_⟩
    · simp only [Finset.mem_sdiff, List.toFinset_append, Finset.mem_union, not_or] at hp
      exact Finset.mem_sdiff.mpr ⟨hp.1, hp.2.1⟩
    · have hfresh : pointer ∉ active.toFinset := fun hp => h.fresh (List.mem_toFinset.mp hp)
      exact Finset.mem_sdiff.mpr ⟨h.mem_pointers hparts, hfresh⟩
    · simp
  have hcard := Finset.card_lt_card hsubset
  have hsize := sizeOf_le_of_mem_parts (target?_mem_parts h.target)
  have hmul := Nat.mul_le_mul_right (sizeOf root + 1) hcard
  rw [Nat.succ_mul] at hmul
  unfold depth
  omega

theorem depth_entry_lt {entries : List (String × Value)} {entry : String × Value} {value : Value}
    {active : List (List Char)} (hmem : entry ∈ entries) (hsize : sizeOf value ≤ sizeOf entry.2) :
    depth root value active < depth root (.dict entries) active := by
  have hlt := sizeOf_lt_of_mem_dict hmem
  unfold depth
  omega

theorem resolve_ends {levels : ℕ} {value : Value} (path : String) {active : List (List Char)}
    (hparts : value ∈ parts root) (hdepth : depth root value active < levels) :
    Levels.Ends (resolve root levels value path active) := by
  induction levels generalizing value path active with
  | zero => cases hdepth
  | succ levels ih =>
      cases value with
      | dict entries =>
          have hentry : ∀ entry ∈ entries, ∀ value ∈ parts entry.2, ∀ path,
              Levels.Ends (resolve root levels value path active) := by
            intro entry hmem value hvalue path
            have hinner := mem_parts_trans (mem_parts_entry hmem) hvalue
            refine ih path (mem_parts_trans hparts hinner) ?_
            have hlt : depth root value active < depth root (.dict entries) active :=
              depth_entry_lt hmem (sizeOf_le_of_mem_parts hvalue)
            omega
          rw [resolve]
          split
          · next spelled href =>
              refine (Levels.Ends.lift _).bind ?_
              rintro ⟨text, pointer, found⟩ htarget
              have hok := Option.some.inj htarget
              refine Levels.Ends.bind ?_ fun out _ => ?_
              · by_cases hfound : ∃ next, found = .dict next
                · obtain ⟨next, rfl⟩ := hfound
                  have hresolves := resolves_of_target href hok
                  have hlt := hresolves.depth_lt hparts
                  exact ih _ (target?_mem_parts hresolves.target) (by omega)
                · have hlevels : levels ≠ 0 := by
                    rintro rfl
                    unfold depth at hdepth
                    rw [Value.dict.sizeOf_spec] at hdepth
                    omega
                  obtain ⟨n, rfl⟩ := Nat.exists_eq_succ_of_ne_zero hlevels
                  rw [resolve_other fun next heq => hfound ⟨next, heq⟩]
                  exact .pure _
              · split
                · refine (Levels.Ends.mapM ?_).bind fun _ _ => .pure _
                  rintro ⟨name, sibling⟩ hmem
                  refine (hentry _ (List.mem_filter.mp hmem).1 _ (mem_parts_self _) _).bind ?_
                  exact fun _ _ => .pure _
                · exact .throw _
          · refine (Levels.Ends.mapM fun entry hmem => ?_).bind fun _ _ => .pure _
            exact resolveEntry_ends fun child path hholds =>
              hentry entry (List.mem_filter.mp hmem).1 child hholds.mem_parts path
      | _ => exact .pure _

theorem resolveLocalRefs_run {levels : ℕ} {entries : List (String × Value)} :
    (resolveLocalRefs levels (.dict entries)).run =
      (resolve (.dict entries) levels (.dict entries) "$" []).run := by
  have hyields : Levels.Yields (Done (.dict entries) (.dict entries) []) _ _ :=
    resolve_yields levels (.dict entries) "$" []
  rw [resolveLocalRefs, Levels.run_bind]
  split
  · next h => rw [h]
  · next h => rw [h]
  · next out h =>
      have hobject := (hyields.value out h).object
      rw [h]
      cases out with
      | dict entries => rfl
      | _ => cases hobject

/-- The expansion of an object ends.  It fails if and only if it comes to a reference that leads
nowhere; else its result has no reference and no definitions at schema positions, and is
expanded to itself. -/
theorem resolveLocalRefs_eliminates (entries : List (String × Value))
    (hnull : NonNull (.dict entries)) :
    ∃ r levels, (∀ levels' ≥ levels, (resolveLocalRefs levels' (.dict entries)).run = some r) ∧
      ((∃ error, r = .error error) ↔
        ∃ place, Reaches (.dict entries) (.dict entries, []) place ∧
          Refused (.dict entries) place) ∧
      ∀ out, r = .ok out → RefFree out ∧
        ∃ levels, ∀ levels' ≥ levels, (resolveLocalRefs levels' out).run = some (.ok out) := by
  have hparts := mem_parts_self (.dict entries)
  have hends : Levels.Ends (resolve (.dict entries) (depth (.dict entries) (.dict entries) [] + 1)
      (.dict entries) "$" []) := resolve_ends "$" hparts (Nat.lt_succ_self _)
  obtain ⟨r, hr⟩ := Option.ne_none_iff_exists'.mp hends
  have hyields : Levels.Yields (Done (.dict entries) (.dict entries) []) _ _ :=
    resolve_yields (depth (.dict entries) (.dict entries) [] + 1) (.dict entries) "$" []
  refine ⟨r, depth (.dict entries) (.dict entries) [] + 1, fun levels' hle => ?_, ?_, ?_⟩
  · rw [resolveLocalRefs_run]
    exact resolve_of_le hle hr
  · constructor
    · rintro ⟨error, rfl⟩
      have hfails := hyields.error error hr
      simpa only [Clean, not_forall, not_not, exists_prop] using hfails
    · rintro ⟨place, hreach, hrefused⟩
      cases r with
      | error error => exact ⟨error, rfl⟩
      | ok out => exact absurd hrefused ((hyields.value out hr).clean place hreach)
  · rintro out rfl
    have hdone := hyields.value out hr
    have hfree := hdone.refFree hnull hparts
    cases out with
    | dict expanded =>
        refine ⟨hfree, depth (.dict expanded) (.dict expanded) [] + 1, fun levels' hle => ?_⟩
        have hends' : Levels.Ends (resolve (.dict expanded) levels' (.dict expanded) "$" []) :=
          resolve_ends "$" (mem_parts_self _) (Nat.lt_of_succ_le hle)
        obtain ⟨r', hr'⟩ := Option.ne_none_iff_exists'.mp hends'
        have hsame : Levels.Yields (· = .dict expanded) False
            (resolve (.dict expanded) levels' (.dict expanded) "$" []) :=
          resolve_refFree levels' "$" [] hfree
        rw [resolveLocalRefs_run, hr']
        cases r' with
        | error error => exact (hsame.error error hr').elim
        | ok again => rw [hsame.value again hr']
    | _ => cases hdone.object

end Expansion

/-- A property whose schema is a definition. -/
def shared : List (String × Value) :=
  [("properties", .dict [("x", .dict [("$ref", .str "#/$defs/A")])]),
    ("$defs", .dict [("A", .dict [("type", .str "string")])])]

theorem resolveLocalRefs_eliminates_shared : NonNull (.dict shared) ∧
    ∃ r levels, (∀ levels' ≥ levels, (resolveLocalRefs levels' (.dict shared)).run = some r) ∧
      ((∃ error, r = .error error) ↔
        ∃ place, Reaches (.dict shared) (.dict shared, []) place ∧
          Refused (.dict shared) place) ∧
      ∀ out, r = .ok out → RefFree out ∧
        ∃ levels, ∀ levels' ≥ levels, (resolveLocalRefs levels' out).run = some (.ok out) := by
  have hnull : NonNull (.dict shared) := by
    intro entries hentries
    simp only [shared, parts, partsEntries, List.mem_cons, List.mem_append, List.not_mem_nil,
      or_false, Value.dict.injEq] at hentries
    rcases hentries with rfl | (rfl | rfl | h) | rfl | rfl | h <;> simp_all
  exact ⟨hnull, resolveLocalRefs_eliminates shared hnull⟩

/-- A definition that nothing uses, with a reference to no definition. -/
def dangling : List (String × Value) :=
  [("$defs", .dict [("A", .dict [("$ref", .str "#/$defs/B")])])]

/-- A reference that has no target does not make the expansion fail where it is not come to. -/
theorem dangling_resolves : ¬ ∀ entries, NonNull (.dict entries) →
    (∃ inner text pointer, .dict inner ∈ parts (.dict entries) ∧
      Assoc.lookup inner "$ref" = some (.str text) ∧ pointer? text = some pointer ∧
        target? (.dict entries) pointer = none) →
    ∀ levels out, (resolveLocalRefs levels (.dict entries)).run ≠ some (.ok out) := by
  intro h
  refine h dangling ?_ ⟨[("$ref", .str "#/$defs/B")], "#/$defs/B", "/$defs/B".toList, ?_⟩ 1
    (.dict []) rfl
  · intro entries hentries
    simp only [dangling, parts, partsEntries, List.mem_cons, List.mem_append, List.not_mem_nil,
      or_false, Value.dict.injEq] at hentries
    rcases hentries with rfl | rfl | rfl | h <;> simp_all
  · exact ⟨by simp [dangling, parts, partsEntries], rfl, by decide +kernel, by decide +kernel⟩

end Pollard.References
