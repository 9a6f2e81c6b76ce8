import Pollard.Registry.Redaction

/-!
# What redaction conceals

The strings a schema marks as sensitive, and what the audit form of arguments tells about
them.  The alternatives of an `anyOf` are meant to be matched against the value as it was
passed; `visits` follows a redaction that does so.
-/

namespace Pollard

open Lib

namespace Schema

/-! ## Positions -/

inductive Step where
  | key (name : String)
  | index (i : ℕ)
deriving DecidableEq

abbrev Path := List Step

/-- The part of a value at a path. -/
def at? : Value → Path → Option Value
  | value, [] => some value
  | .dict entries, .key name :: path =>
      (Assoc.lookup entries name).bind fun value => at? value path
  | .list items, .index i :: path => items[i]?.bind fun value => at? value path
  | _, _ => none

/-- Some path of the schema marks the string at a position as sensitive: a path through
properties, items and the branches that accept the value there. -/
inductive Sensitive : Value → Value → Path → Prop
  | here {schema value : Value} (hsensitive : schema.get? "sensitive" = some (.bool true))
      (hstr : value.isStr = true) : Sensitive schema value []
  | branch {schema value branch : Value} {anyOf : List Value} {path : Path}
      (hanyOf : schema.get? "anyOf" = some (.list anyOf)) (hmem : branch ∈ anyOf)
      (hdict : branch.isDict = true) (haccepts : accepts branch value = true)
      (h : Sensitive branch value path) : Sensitive schema value path
  | property {schema child value : Value} {properties entries : List (String × Value)}
      {name : String} {path : Path}
      (hproperties : schema.get? "properties" = some (.dict properties))
      (hmem : (name, child) ∈ properties) (hdict : child.isDict = true)
      (hvalue : Assoc.lookup entries name = some value) (h : Sensitive child value path) :
      Sensitive schema (.dict entries) (.key name :: path)
  | item {schema itemSchema value : Value} {items : List Value} {i : ℕ} {path : Path}
      (hitems : schema.get? "items" = some itemSchema) (hdict : itemSchema.isDict = true)
      (hvalue : items[i]? = some value) (h : Sensitive itemSchema value path) :
      Sensitive schema (.list items) (.index i :: path)

/-! ## Visits -/

/-- What a redaction does at a position: it replaces a string, or it follows branches. -/
inductive Visit where
  | replaced (path : Path)
  | followed (path : Path) (branches : List Value)
deriving DecidableEq

/-- A visit below a step. -/
def Visit.under (step : Step) : Visit → Visit
  | replaced path => replaced (step :: path)
  | followed path branches => followed (step :: path) branches

theorem sizeOf_selected_le (value : Value) (anyOf : List Value) :
    sizeOf (selected value anyOf) ≤ sizeOf anyOf := by
  have hbranches := sizeOf_filter_le Value.isDict anyOf
  unfold selected
  dsimp only
  split
  · exact hbranches
  · exact (sizeOf_filter_le _ _).trans hbranches

mutual

/-- What a redaction does, in order, when alternatives are matched against the value as
it was passed. -/
def visits (schema value : Value) : List Visit :=
  if schema.get? "sensitive" = some (.bool true) ∧ value.isStr then [.replaced []]
  else
    (match _h : schema.get? "anyOf" with
    | some (.list anyOf) =>
        .followed [] (selected value anyOf) :: branchVisits (selected value anyOf) value
    | _ => []) ++
    match value with
    | .dict entries =>
        match _h : schema.get? "properties" with
        | some (.dict properties) => propertyVisits properties entries
        | _ => []
    | .list items =>
        match _h : schema.get? "items" with
        | some itemSchema =>
            if itemSchema.isDict then
              items.zipIdx.flatMap fun e => (visits itemSchema e.1).map (.under (.index e.2))
            else []
        | none => []
    | _ => []
termination_by sizeOf schema
decreasing_by
  · have hsize := Value.sizeOf_get?_lt _h
    have hselected := sizeOf_selected_le value anyOf
    rw [Value.list.sizeOf_spec] at hsize
    omega
  · have hsize := Value.sizeOf_get?_lt _h
    rw [Value.dict.sizeOf_spec] at hsize
    omega
  · exact Value.sizeOf_get?_lt _h

def branchVisits (branches : List Value) (value : Value) : List Visit :=
  match branches with
  | [] => []
  | branch :: rest => visits branch value ++ branchVisits rest value
termination_by sizeOf branches

def propertyVisits (properties entries : List (String × Value)) : List Visit :=
  match properties with
  | [] => []
  | (name, child) :: rest =>
      (match Assoc.lookup entries name with
      | some value => if child.isDict then (visits child value).map (.under (.key name)) else []
      | none => []) ++ propertyVisits rest entries
termination_by sizeOf properties

end

/-- The visits of the alternatives. -/
def alternativeVisits (schema value : Value) : List Visit :=
  match schema.get? "anyOf" with
  | some (.list anyOf) =>
      .followed [] (selected value anyOf) :: branchVisits (selected value anyOf) value
  | _ => []

theorem alternativeVisits_list {schema value : Value} {anyOf : List Value}
    (h : schema.get? "anyOf" = some (.list anyOf)) : alternativeVisits schema value =
      .followed [] (selected value anyOf) :: branchVisits (selected value anyOf) value := by
  rw [alternativeVisits, h]

theorem alternativeVisits_other {schema value : Value}
    (h : ∀ anyOf, schema.get? "anyOf" ≠ some (.list anyOf)) :
    alternativeVisits schema value = [] := by
  unfold alternativeVisits
  split
  · next anyOf hanyOf => exact absurd hanyOf (h anyOf)
  · rfl

/-- The visits of the properties or items. -/
def memberVisits (schema value : Value) : List Visit :=
  match value with
  | .dict entries =>
      match schema.get? "properties" with
      | some (.dict properties) => propertyVisits properties entries
      | _ => []
  | .list items =>
      match schema.get? "items" with
      | some itemSchema =>
          if itemSchema.isDict then
            items.zipIdx.flatMap fun e => (visits itemSchema e.1).map (.under (.index e.2))
          else []
      | none => []
  | _ => []

theorem memberVisits_dict {schema : Value} {entries properties : List (String × Value)}
    (h : schema.get? "properties" = some (.dict properties)) :
    memberVisits schema (.dict entries) = propertyVisits properties entries := by
  rw [memberVisits, h]

theorem memberVisits_other {schema : Value} {entries : List (String × Value)}
    (h : ∀ properties, schema.get? "properties" ≠ some (.dict properties)) :
    memberVisits schema (.dict entries) = [] := by
  unfold memberVisits
  dsimp only
  split
  · next properties hproperties => exact absurd hproperties (h properties)
  · rfl

theorem visits_eq (schema value : Value) :
    visits schema value =
      if schema.get? "sensitive" = some (.bool true) ∧ value.isStr then [.replaced []]
      else alternativeVisits schema value ++ memberVisits schema value := by
  rw [visits.eq_def]
  split
  · rfl
  · refine congrArg₂ (· ++ ·) ?_ ?_
    · unfold alternativeVisits
      split
      · next hanyOf => rw [hanyOf]
      · next hother =>
          split
          · next anyOf hanyOf => exact absurd hanyOf (hother anyOf)
          · rfl
    · cases value with
      | dict entries =>
          unfold memberVisits
          dsimp only
          split
          · next hproperties => rw [hproperties]
          · next hother =>
              split
              · next properties hproperties => exact absurd hproperties (hother properties)
              · rfl
      | list items =>
          unfold memberVisits
          dsimp only
          split
          · next hitems => rw [hitems]
          · next hitems => rw [hitems]
      | _ => rfl

/-- The positions of the strings that visits replace. -/
def replacedIn (visits : List Visit) : Set Path := {path | Visit.replaced path ∈ visits}

@[simp] theorem replacedIn_nil : replacedIn [] = ∅ := by simp [replacedIn]

@[simp] theorem replacedIn_append (first second : List Visit) :
    replacedIn (first ++ second) = replacedIn first ∪ replacedIn second := by
  ext path
  simp [replacedIn]

@[simp] theorem replacedIn_followed (path : Path) (branches : List Value) (rest : List Visit) :
    replacedIn (.followed path branches :: rest) = replacedIn rest := by
  ext other
  simp [replacedIn]

@[simp] theorem replacedIn_under (step : Step) (visits : List Visit) :
    replacedIn (visits.map (.under step)) = (step :: ·) '' replacedIn visits := by
  ext path
  simp only [replacedIn, Set.mem_ofPred_eq, List.mem_map, Set.mem_image]
  constructor
  · rintro ⟨visit, hmem, hvisit⟩
    cases visit with
    | replaced rest => exact ⟨rest, hmem, Visit.replaced.inj hvisit⟩
    | followed rest branches => cases hvisit
  · rintro ⟨rest, hmem, rfl⟩
    exact ⟨_, hmem, rfl⟩

/-- The second visit follows branches where the first one replaced a string. -/
def Visit.disturbs : Visit → Visit → Bool
  | replaced other, followed path _ => path.isPrefixOf other
  | _, _ => false

/-- No branches are followed at a position at or below which a string was replaced
before. -/
def Undisturbed (visits : List Visit) : Prop :=
  visits.Pairwise fun earlier later => earlier.disturbs later = false

instance (visits : List Visit) : Decidable (Undisturbed visits) :=
  inferInstanceAs (Decidable (List.Pairwise _ _))

/-- The visits are undisturbed after the strings at the given positions were replaced. -/
structure UndisturbedAfter (done : Set Path) (visits : List Visit) : Prop where
  before : ∀ path ∈ done, ∀ visit ∈ visits, (Visit.replaced path).disturbs visit = false
  within : Undisturbed visits

theorem undisturbedAfter_append {done : Set Path} {first second : List Visit}
    (h : UndisturbedAfter done (first ++ second)) :
    UndisturbedAfter done first ∧ UndisturbedAfter (done ∪ replacedIn first) second := by
  obtain ⟨hfirst, hsecond, hbetween⟩ := List.pairwise_append.mp h.within
  refine ⟨⟨fun path hpath visit hvisit => h.before path hpath visit
    (List.mem_append_left _ hvisit), hfirst⟩, ⟨?_, hsecond⟩⟩
  rintro path (hpath | hpath) visit hvisit
  · exact h.before path hpath visit (List.mem_append_right _ hvisit)
  · exact hbetween _ hpath visit hvisit

/-- The positions below a step. -/
def below (step : Step) (done : Set Path) : Set Path := {path | step :: path ∈ done}

theorem below_mono {step : Step} {some all : Set Path} (h : some ⊆ all) :
    below step some ⊆ below step all := fun path hpath => @h (step :: path) hpath

theorem undisturbedAfter_under {step : Step} {done : Set Path} {visits : List Visit}
    (h : UndisturbedAfter done (visits.map (.under step))) :
    UndisturbedAfter (below step done) visits := by
  have hunder : ∀ a b : Visit, (a.under step).disturbs (b.under step) = a.disturbs b := by
    intro a b
    cases a <;> cases b <;> simp [Visit.under, Visit.disturbs]
  constructor
  · intro path hpath visit hvisit
    have hbefore := h.before _ hpath _ (List.mem_map_of_mem hvisit)
    rwa [← Visit.under, hunder] at hbefore
  · have hwithin := h.within
    unfold Undisturbed at hwithin ⊢
    rw [List.pairwise_map] at hwithin
    simpa only [hunder] using hwithin

/-- Where branches are followed at the root, nothing was replaced. -/
theorem done_empty {done : Set Path} {branches : List Value} {rest : List Visit}
    (h : UndisturbedAfter done (.followed [] branches :: rest)) : done = ∅ := by
  refine Set.eq_empty_of_forall_notMem fun path hpath => ?_
  have hbefore := h.before path hpath _ List.mem_cons_self
  simp [Visit.disturbs] at hbefore

/-! ## Partly redacted values -/

/-- The marker in place of a string; its digest may have been redacted again. -/
def IsMarker (value : Value) : Prop :=
  ∃ digest : Value, digest.isIdentity = true ∧
    value = .dict [(redactionKey, digest), ("hint", .none)]

/-- The positions that do not start at a key. -/
def without (name : String) (done : Set Path) : Set Path :=
  {path | path ∈ done ∧ path.head? ≠ some (.key name)}

mutual

/-- A value with markers in place of its strings at the given positions. -/
def Hides (done : Set Path) : Value → Value → Prop
  | .str s, hidden => [] ∈ done ∧ IsMarker hidden ∨ [] ∉ done ∧ hidden = .str s
  | .list items, hidden => ∃ items', hidden = .list items' ∧ HidesItems done 0 items items'
  | .dict entries, hidden =>
      ∃ entries', hidden = .dict entries' ∧ HidesEntries done entries entries'
  | value, hidden => hidden = value

def HidesItems (done : Set Path) : ℕ → List Value → List Value → Prop
  | _, [], hidden => hidden = []
  | i, item :: items, hidden =>
      ∃ item' items', hidden = item' :: items' ∧ Hides (below (.index i) done) item item' ∧
        HidesItems done (i + 1) items items'

def HidesEntries (done : Set Path) :
    List (String × Value) → List (String × Value) → Prop
  | [], hidden => hidden = []
  | (name, value) :: entries, hidden =>
      ∃ value' entries', hidden = (name, value') :: entries' ∧
        Hides (below (.key name) done) value value' ∧
        HidesEntries (without name done) entries entries'

end

@[simp] theorem below_empty (step : Step) : below step ∅ = ∅ := rfl

@[simp] theorem without_empty (name : String) : without name ∅ = ∅ := by
  ext path
  simp [without]

mutual

theorem hides_empty : ∀ value hidden : Value, Hides ∅ value hidden ↔ hidden = value
  | .str s, hidden => by simp [Hides]
  | .list items, hidden => by
      simp only [Hides, hidesItems_empty items]
      simp
  | .dict entries, hidden => by
      simp only [Hides, hidesEntries_empty entries]
      simp
  | .none, hidden | .bool _, hidden | .int _, hidden | .float _, hidden
  | .surrogates _, hidden | .foreign _, hidden => Iff.rfl

theorem hidesItems_empty : ∀ (items : List Value) {i : ℕ} {hidden : List Value},
    HidesItems ∅ i items hidden ↔ hidden = items
  | [], i, hidden => by rw [HidesItems]
  | item :: items, i, hidden => by
      simp only [HidesItems, below_empty, hides_empty item, hidesItems_empty items]
      simp

theorem hidesEntries_empty : ∀ (entries : List (String × Value))
    {hidden : List (String × Value)}, HidesEntries ∅ entries hidden ↔ hidden = entries
  | [], hidden => by rw [HidesEntries]
  | (name, value) :: entries, hidden => by
      simp only [HidesEntries, below_empty, without_empty, hides_empty value,
        hidesEntries_empty entries]
      simp

end

theorem isIdentity_marker {value : Value} (h : IsMarker value) : value.isIdentity = true := by
  obtain ⟨digest, hdigest, rfl⟩ := h
  simp [Value.isIdentity, Value.isIdentityEntries, hdigest]

mutual

theorem isIdentity_of_hides : ∀ {done : Set Path} (value : Value) {hidden : Value},
    value.isIdentity = true → Hides done value hidden → hidden.isIdentity = true
  | done, .str s, hidden, _, h => by
      rcases h with ⟨-, h⟩ | ⟨-, rfl⟩
      · exact isIdentity_marker h
      · rfl
  | done, .list items, hidden, hvalue, h => by
      obtain ⟨items', rfl, hitems⟩ := h
      exact isIdentity_of_hidesItems items hvalue hitems
  | done, .dict entries, hidden, hvalue, h => by
      obtain ⟨entries', rfl, hentries⟩ := h
      exact isIdentity_of_hidesEntries entries hvalue hentries
  | done, .none, hidden, hvalue, h | done, .bool _, hidden, hvalue, h
  | done, .int _, hidden, hvalue, h => by
      cases h
      exact hvalue

theorem isIdentity_of_hidesItems : ∀ {done : Set Path} {i : ℕ} (items : List Value)
    {hidden : List Value}, Value.isIdentityItems items = true → HidesItems done i items hidden →
      Value.isIdentityItems hidden = true
  | done, i, [], hidden, _, h => by
      rw [HidesItems] at h
      rw [h]
      rfl
  | done, i, item :: items, hidden, hitems, h => by
      rw [Value.isIdentityItems, Bool.and_eq_true] at hitems
      obtain ⟨item', items', rfl, hitem, hrest⟩ := h
      rw [Value.isIdentityItems, isIdentity_of_hides item hitems.1 hitem,
        isIdentity_of_hidesItems items hitems.2 hrest]
      rfl

theorem isIdentity_of_hidesEntries : ∀ {done : Set Path} (entries : List (String × Value))
    {hidden : List (String × Value)}, Value.isIdentityEntries entries = true →
      HidesEntries done entries hidden → Value.isIdentityEntries hidden = true
  | done, [], hidden, _, h => by
      rw [HidesEntries] at h
      rw [h]
      rfl
  | done, (name, value) :: entries, hidden, hentries, h => by
      rw [Value.isIdentityEntries, Bool.and_eq_true] at hentries
      obtain ⟨value', entries', rfl, hvalue, hrest⟩ := h
      rw [Value.isIdentityEntries, isIdentity_of_hides value hentries.1 hvalue,
        isIdentity_of_hidesEntries entries hentries.2 hrest]
      rfl

end

theorem below_without {name other : String} (h : name ≠ other) (done : Set Path) :
    below (.key name) (without other done) = below (.key name) done := by
  ext path
  simp [below, without, h]

theorem below_image (step : Step) (done more : Set Path) :
    below step (done ∪ (step :: ·) '' more) = below step done ∪ more := by
  ext path
  simp [below]

theorem below_image_of_ne {step other : Step} (h : step ≠ other) (done more : Set Path) :
    below step (done ∪ (other :: ·) '' more) = below step done := by
  ext path
  simp [below, h.symm]

theorem without_image (name : String) (done more : Set Path) :
    without name (done ∪ (Step.key name :: ·) '' more) = without name done := by
  ext path
  simp only [without, Set.mem_ofPred_eq, Set.mem_union, Set.mem_image]
  constructor
  · rintro ⟨hpath | ⟨rest, -, rfl⟩, hhead⟩
    · exact ⟨hpath, hhead⟩
    · exact absurd rfl hhead
  · exact fun ⟨hpath, hhead⟩ => ⟨.inl hpath, hhead⟩

theorem without_image_of_ne {name other : String} (h : name ≠ other) (done more : Set Path) :
    without other (done ∪ (Step.key name :: ·) '' more) =
      without other done ∪ (Step.key name :: ·) '' more := by
  ext path
  simp only [without, Set.mem_ofPred_eq, Set.mem_union, Set.mem_image]
  constructor
  · rintro ⟨hpath | hpath, hhead⟩
    · exact .inl ⟨hpath, hhead⟩
    · exact .inr hpath
  · rintro (⟨hpath, hhead⟩ | ⟨rest, hrest, rfl⟩)
    · exact ⟨.inl hpath, hhead⟩
    · exact ⟨.inr ⟨rest, hrest, rfl⟩, by simpa using h⟩

theorem hidesEntries_lookup {done : Set Path} {entries hidden : List (String × Value)}
    {name : String} {value : Value} (h : HidesEntries done entries hidden)
    (hvalue : Assoc.lookup entries name = some value) :
    ∃ value', Assoc.lookup hidden name = some value' ∧
      Hides (below (.key name) done) value value' := by
  induction entries generalizing done hidden with
  | nil => cases hvalue
  | cons e entries ih =>
      obtain ⟨k, v⟩ := e
      obtain ⟨v', entries', rfl, hv, hentries⟩ := h
      rw [Assoc.lookup] at hvalue ⊢
      split at hvalue
      · next hk =>
          cases hvalue
          rw [if_pos hk, ← hk]
          exact ⟨v', rfl, hv⟩
      · next hk =>
          rw [if_neg hk]
          obtain ⟨value', hlookup, hhides⟩ := ih hentries hvalue
          rw [below_without (Ne.symm hk)] at hhides
          exact ⟨value', hlookup, hhides⟩

theorem hidesEntries_lookup_none {done : Set Path} {entries hidden : List (String × Value)}
    {name : String} (h : HidesEntries done entries hidden)
    (hnone : Assoc.lookup entries name = none) : Assoc.lookup hidden name = none := by
  induction entries generalizing done hidden with
  | nil =>
      cases h
      rfl
  | cons e entries ih =>
      obtain ⟨k, v⟩ := e
      obtain ⟨v', entries', rfl, -, hentries⟩ := h
      rw [Assoc.lookup] at hnone ⊢
      split at hnone
      · cases hnone
      · next hk =>
          rw [if_neg hk]
          exact ih hentries hnone

theorem hidesEntries_upsert {done more : Set Path} {entries hidden : List (String × Value)}
    {name : String} {value redacted : Value} (h : HidesEntries done entries hidden)
    (hvalue : Assoc.lookup entries name = some value)
    (hredacted : Hides (below (.key name) done ∪ more) value redacted) :
    HidesEntries (done ∪ (Step.key name :: ·) '' more) entries
      (Assoc.upsert hidden name redacted) := by
  induction entries generalizing done hidden with
  | nil => cases hvalue
  | cons e entries ih =>
      obtain ⟨k, v⟩ := e
      obtain ⟨v', entries', rfl, hv, hentries⟩ := h
      rw [Assoc.lookup] at hvalue
      rw [Assoc.upsert]
      split at hvalue
      · next hk =>
          cases hvalue
          subst hk
          rw [if_pos rfl]
          refine ⟨redacted, entries', rfl, ?_, ?_⟩
          · rwa [below_image]
          · rwa [without_image]
      · next hk =>
          rw [if_neg hk]
          refine ⟨v', _, rfl, ?_, ?_⟩
          · rwa [below_image_of_ne (by simpa using hk)]
          · rw [without_image_of_ne (Ne.symm hk)]
            exact ih hentries hvalue (by rwa [below_without (Ne.symm hk)])

theorem hidesItems_getElem? {done : Set Path} {i k : ℕ} {items hidden : List Value}
    {item : Value} (h : HidesItems done i items hidden) (hitem : items[k]? = some item) :
    ∃ item', hidden[k]? = some item' ∧ Hides (below (.index (i + k)) done) item item' := by
  induction items generalizing i k hidden with
  | nil => cases hitem
  | cons first items ih =>
      obtain ⟨first', items', rfl, hfirst, hitems⟩ := h
      cases k with
      | zero =>
          cases hitem
          exact ⟨first', rfl, hfirst⟩
      | succ k =>
          obtain ⟨item', hitem', hhides⟩ := ih hitems hitem
          rw [show i + 1 + k = i + (k + 1) by omega] at hhides
          exact ⟨item', hitem', hhides⟩

theorem hidesItems_mapM {f : Value → Except PyError Value} {done : Set Path} (after : Set Path)
    {i : ℕ} {items hidden : List Value} (h : HidesItems done i items hidden)
    (hf : ∀ k item item', items[k]? = some item → Hides (below (.index (i + k)) done) item item' →
      ∃ redacted, f item' = .ok redacted ∧ Hides (below (.index (i + k)) after) item redacted) :
    ∃ redacted, hidden.mapM f = .ok redacted ∧ HidesItems after i items redacted := by
  induction items generalizing i hidden with
  | nil =>
      cases h
      exact ⟨[], rfl, rfl⟩
  | cons item items ih =>
      obtain ⟨item', items', rfl, hitem, hitems⟩ := h
      obtain ⟨first, hfirst, hhides⟩ := hf 0 item item' rfl hitem
      obtain ⟨rest, hrest, hothers⟩ := ih hitems fun k other other' hother hhidden => by
        rw [show i + 1 + k = i + (k + 1) by omega] at hhidden ⊢
        exact hf (k + 1) other other' hother hhidden
      exact ⟨first :: rest, by rw [List.mapM_cons, hfirst, hrest]; rfl, first, rest, rfl, hhides,
        hothers⟩

/-- At a position in question there is a marker. -/
theorem isMarker_at {done : Set Path} {path : Path} {value hidden : Value} {s : String}
    (h : Hides done value hidden) (hpath : path ∈ done)
    (hvalue : at? value path = some (.str s)) :
    ∃ marker, at? hidden path = some marker ∧ IsMarker marker := by
  induction path generalizing done value hidden with
  | nil =>
      cases hvalue
      rcases h with ⟨-, hmarker⟩ | ⟨hnone, -⟩
      · exact ⟨hidden, rfl, hmarker⟩
      · exact absurd hpath hnone
  | cons step path ih =>
      unfold at? at hvalue
      split at hvalue
      · next heq => cases heq
      · next entries name rest heq =>
          cases heq
          obtain ⟨value, hlookup, hrest⟩ := Option.bind_eq_some_iff.mp hvalue
          obtain ⟨entries', rfl, hentries⟩ := h
          obtain ⟨value', hlookup', hhides⟩ := hidesEntries_lookup hentries hlookup
          obtain ⟨marker, hmarker, hmark⟩ := ih hhides hpath hrest
          exact ⟨marker, by rw [at?, hlookup']; exact hmarker, hmark⟩
      · next items i rest heq =>
          cases heq
          obtain ⟨value, hitem, hrest⟩ := Option.bind_eq_some_iff.mp hvalue
          obtain ⟨items', rfl, hitems⟩ := h
          obtain ⟨value', hitem', hhides⟩ := hidesItems_getElem? hitems hitem
          rw [Nat.zero_add] at hhides
          obtain ⟨marker, hmarker, hmark⟩ := ih hhides hpath hrest
          exact ⟨marker, by rw [at?, hitem']; exact hmarker, hmark⟩
      · cases hvalue

/-! ## Redacting a partly redacted value -/

variable {H : Hashing}

theorem redactSensitive_none {schema : Value} (hschema : schema.isIdentity = true) :
    redactSensitive H .none schema = .ok .none := by
  induction hsize : sizeOf schema using Nat.strong_induction_on generalizing schema with
  | _ size ih =>
    subst hsize
    rw [redactSensitive_eq H rfl hschema, if_neg (by simp [Value.isStr])]
    obtain ⟨next, hnext, rfl⟩ := redactAlternatives_keeps (H := H) (P := (· = .none)) hschema
      (fun child hsmall hchild value hvalue =>
        ⟨.none, by rw [hvalue]; exact ih _ hsmall hchild rfl, rfl⟩) rfl
    rw [hnext]
    rfl

theorem redactMembers_marker {value schema : Value} (hschema : schema.isIdentity = true)
    (h : IsMarker value) :
    ∃ redacted, redactMembers H value schema = .ok redacted ∧ IsMarker redacted := by
  obtain ⟨digest, hdigest, rfl⟩ := h
  unfold redactMembers
  dsimp only
  split
  · next properties hproperties =>
      have hidentity := Value.isIdentity_dict.mp (Value.isIdentity_get? hschema hproperties)
      have hkeeps : ∀ e ∈ properties, ∀ result value, IsMarker (.dict result) →
          Assoc.lookup result e.1 = some value → ∃ redacted,
            redactSensitive H value e.2 = .ok redacted ∧
              IsMarker (.dict (Assoc.upsert result e.1 redacted)) := by
        rintro ⟨name, child⟩ he result value ⟨digest, hdigest, hresult⟩ hlookup
        cases hresult
        rw [Assoc.lookup] at hlookup
        split at hlookup
        · next hname =>
            cases hlookup
            obtain ⟨redacted, hredacted, hkept⟩ :=
              redactSensitive_ok (H := H) hdigest (hidentity _ he)
            exact ⟨redacted, hredacted, redacted, hkept, by rw [Assoc.upsert, if_pos hname]⟩
        · next hname =>
            rw [Assoc.lookup] at hlookup
            split at hlookup
            · next hhint =>
                cases hlookup
                refine ⟨.none, redactSensitive_none (hidentity _ he), digest, hdigest, ?_⟩
                rw [Assoc.upsert, if_neg hname, Assoc.upsert, if_pos hhint]
            · cases hlookup
      obtain ⟨after, hafter, hmarker⟩ := redactProperties_keeps
        (P := fun result => IsMarker (.dict result)) hkeeps ⟨digest, hdigest, rfl⟩
      exact ⟨.dict after, by rw [hafter]; rfl, hmarker⟩
  · exact ⟨_, rfl, digest, hdigest, rfl⟩

/-- Redacted again, a marker stays a marker. -/
theorem redactSensitive_marker {value schema : Value} (hschema : schema.isIdentity = true)
    (h : IsMarker value) :
    ∃ redacted, redactSensitive H value schema = .ok redacted ∧ IsMarker redacted := by
  induction hsize : sizeOf schema using Nat.strong_induction_on generalizing value schema with
  | _ size ih =>
    subst hsize
    have hstr : ¬ (schema.get? "sensitive" = some (.bool true) ∧ value.isStr = true) := by
      obtain ⟨digest, -, rfl⟩ := h
      simp [Value.isStr]
    rw [redactSensitive_eq H (isIdentity_marker h) hschema, if_neg hstr]
    obtain ⟨next, hnext, hmarker⟩ := redactAlternatives_keeps (H := H) hschema
      (fun child hsmall hchild value hvalue => ih _ hsmall hchild hvalue rfl) h
    rw [hnext]
    exact redactMembers_marker hschema hmarker

variable (H) in
/-- Applied to a partly redacted value, a schema replaces what it would replace in the
value itself. -/
def Conceals (schema : Value) : Prop :=
  ∀ value hidden done, value.isIdentity = true → Hides done value hidden →
    UndisturbedAfter done (visits schema value) →
    ∃ redacted, redactSensitive H hidden schema = .ok redacted ∧
      Hides (done ∪ replacedIn (visits schema value)) value redacted

theorem redactBranches_hides {branches : List Value} (hbranches : ∀ b ∈ branches, Conceals H b)
    {value hidden : Value} {done : Set Path} (hvalue : value.isIdentity = true)
    (h : Hides done value hidden) (hvisits : UndisturbedAfter done (branchVisits branches value)) :
    ∃ redacted, redactBranches H hidden branches = .ok redacted ∧
      Hides (done ∪ replacedIn (branchVisits branches value)) value redacted := by
  induction branches generalizing hidden done with
  | nil => exact ⟨hidden, by rw [redactBranches], by simpa [branchVisits] using h⟩
  | cons branch rest ih =>
      rw [List.forall_mem_cons] at hbranches
      rw [branchVisits] at hvisits ⊢
      obtain ⟨hfirst, hrest⟩ := undisturbedAfter_append hvisits
      obtain ⟨next, hnext, hhides⟩ := hbranches.1 value hidden done hvalue h hfirst
      obtain ⟨redacted, hredacted, hresult⟩ := ih hbranches.2 hhides hrest
      refine ⟨redacted, by rw [redactBranches, hnext]; exact hredacted, ?_⟩
      rwa [replacedIn_append, ← Set.union_assoc]

theorem redactAlternatives_hides {schema : Value} (hschema : schema.isIdentity = true)
    (hchild : ∀ child, sizeOf child < sizeOf schema → child.isIdentity = true →
      Conceals H child)
    {value hidden : Value} {done : Set Path} (hvalue : value.isIdentity = true)
    (h : Hides done value hidden)
    (hvisits : UndisturbedAfter done (alternativeVisits schema value)) :
    ∃ redacted, redactAlternatives H hidden schema = .ok redacted ∧
      Hides (done ∪ replacedIn (alternativeVisits schema value)) value redacted := by
  by_cases hlist : ∃ anyOf, schema.get? "anyOf" = some (.list anyOf)
  · obtain ⟨anyOf, hanyOf⟩ := hlist
    rw [alternativeVisits_list hanyOf] at hvisits ⊢
    rw [redactAlternatives_list H hanyOf]
    -- Nothing was replaced yet, so the branches are matched against the value itself.
    obtain rfl := done_empty hvisits
    rw [hides_empty] at h
    subst h
    have hsize := Value.sizeOf_get?_lt hanyOf
    have hidentity := Value.isIdentity_list.mp (Value.isIdentity_get? hschema hanyOf)
    rw [replacedIn_followed]
    refine redactBranches_hides (fun branch hbranch => ?_) hvalue
      ((hides_empty _ _).mpr rfl) ⟨fun path hpath => absurd hpath (Set.notMem_empty path),
        (List.pairwise_cons.mp hvisits.within).2⟩
    have hmem := mem_selected hbranch
    have hsmall := List.sizeOf_lt_of_mem hmem
    rw [Value.list.sizeOf_spec] at hsize
    exact hchild branch (by omega) (hidentity branch hmem)
  · rw [not_exists] at hlist
    rw [redactAlternatives_other H hlist, alternativeVisits_other hlist]
    exact ⟨hidden, rfl, by simpa using h⟩

theorem redactProperties_hides {properties : List (String × Value)}
    (hproperties : ∀ e ∈ properties, Conceals H e.2) {entries hidden : List (String × Value)}
    {done : Set Path} (hentries : (Value.dict entries).isIdentity = true)
    (h : HidesEntries done entries hidden)
    (hvisits : UndisturbedAfter done (propertyVisits properties entries)) :
    ∃ redacted, redactProperties H hidden properties = .ok redacted ∧
      HidesEntries (done ∪ replacedIn (propertyVisits properties entries)) entries redacted := by
  induction properties generalizing hidden done with
  | nil => exact ⟨hidden, by rw [redactProperties], by simpa [propertyVisits] using h⟩
  | cons e rest ih =>
      obtain ⟨name, child⟩ := e
      rw [List.forall_mem_cons] at hproperties
      rw [propertyVisits] at hvisits ⊢
      rw [redactProperties]
      obtain ⟨hfirst, hrest⟩ := undisturbedAfter_append hvisits
      rw [replacedIn_append, ← Set.union_assoc]
      cases hlookup : Assoc.lookup entries name with
      | none =>
          rw [hlookup] at hrest
          rw [hidesEntries_lookup_none h hlookup]
          simp only [replacedIn_nil, Set.union_empty] at hrest ⊢
          exact ih hproperties.2 h hrest
      | some value =>
          rw [hlookup] at hfirst hrest
          obtain ⟨value', hlookup', hhides⟩ := hidesEntries_lookup h hlookup
          rw [hlookup']
          dsimp only at hfirst hrest ⊢
          by_cases hdict : child.isDict = true
          · simp only [if_pos hdict, replacedIn_under] at hfirst hrest ⊢
            have hvalue := Value.isIdentity_dict.mp hentries _ (Assoc.mem_of_lookup hlookup)
            obtain ⟨redacted, hredacted, hresult⟩ := hproperties.1 value value' _ hvalue hhides
              (undisturbedAfter_under hfirst)
            rw [hredacted]
            exact ih hproperties.2 (hidesEntries_upsert h hlookup hresult) hrest
          · simp only [if_neg hdict, replacedIn_nil, Set.union_empty] at hrest ⊢
            exact ih hproperties.2 h hrest

theorem UndisturbedAfter.sublist {done : Set Path} {some all : List Visit}
    (h : UndisturbedAfter done all) (hsub : some.Sublist all) : UndisturbedAfter done some :=
  ⟨fun path hpath visit hvisit => h.before path hpath visit (hsub.subset hvisit),
    h.within.sublist hsub⟩

/-- The visits of the items of a list. -/
def itemVisits (itemSchema : Value) (items : List Value) : List Visit :=
  items.zipIdx.flatMap fun e => (visits itemSchema e.1).map (.under (.index e.2))

theorem itemVisits_sublist {itemSchema item : Value} {items : List Value} {i : ℕ}
    (h : items[i]? = some item) :
    ((visits itemSchema item).map (.under (.index i))).Sublist (itemVisits itemSchema items) := by
  have hmem : (item, i) ∈ items.zipIdx := List.mk_mem_zipIdx_iff_getElem?.mpr h
  exact List.sublist_flatten_of_mem (List.mem_map_of_mem hmem)

theorem below_itemVisits {itemSchema item : Value} {items : List Value} {i : ℕ}
    (h : items[i]? = some item) :
    below (.index i) (replacedIn (itemVisits itemSchema items)) =
      replacedIn (visits itemSchema item) := by
  ext path
  simp only [below, replacedIn, itemVisits, Set.mem_ofPred_eq, List.mem_flatMap, List.mem_map]
  constructor
  · rintro ⟨⟨other, k⟩, hmem, visit, hvisit, hunder⟩
    cases visit with
    | replaced rest =>
        obtain ⟨hindex, rfl⟩ := List.cons.inj (Visit.replaced.inj hunder)
        have hother : items[k]? = some other := List.mk_mem_zipIdx_iff_getElem?.mp hmem
        cases hindex
        rw [h] at hother
        cases hother
        exact hvisit
    | followed rest branches => cases hunder
  · exact fun hmem =>
      ⟨(item, i), List.mk_mem_zipIdx_iff_getElem?.mpr h, .replaced path, hmem, rfl⟩

theorem redactMembers_hides {schema : Value} (hschema : schema.isIdentity = true)
    (hchild : ∀ child, sizeOf child < sizeOf schema → child.isIdentity = true →
      Conceals H child)
    {value hidden : Value} {done : Set Path} (hvalue : value.isIdentity = true)
    (h : Hides done value hidden)
    (hvisits : UndisturbedAfter done (memberVisits schema value)) :
    ∃ redacted, redactMembers H hidden schema = .ok redacted ∧
      Hides (done ∪ replacedIn (memberVisits schema value)) value redacted := by
  cases value with
  | dict entries =>
      obtain ⟨hidden, rfl, hentries⟩ := h
      by_cases hdict : ∃ properties, schema.get? "properties" = some (.dict properties)
      · obtain ⟨properties, hproperties⟩ := hdict
        rw [memberVisits_dict hproperties] at hvisits ⊢
        rw [redactMembers_dict H hproperties]
        have hsize := Value.sizeOf_get?_lt hproperties
        have hidentity := Value.isIdentity_dict.mp (Value.isIdentity_get? hschema hproperties)
        have hconceals : ∀ e ∈ properties, Conceals H e.2 := by
          intro e he
          have hsmall := List.sizeOf_lt_of_mem he
          rw [Value.dict.sizeOf_spec] at hsize
          exact hchild e.2 (by cases e; simp at hsmall ⊢; omega) (hidentity e he)
        obtain ⟨redacted, hredacted, hresult⟩ :=
          redactProperties_hides hconceals hvalue hentries hvisits
        exact ⟨.dict redacted, by rw [hredacted]; rfl, redacted, rfl, hresult⟩
      · rw [not_exists] at hdict
        rw [redactMembers_other H hdict, memberVisits_other hdict]
        exact ⟨.dict hidden, rfl, hidden, rfl, by simpa using hentries⟩
  | list items =>
      obtain ⟨hidden, rfl, hitems⟩ := h
      unfold memberVisits at hvisits ⊢
      unfold redactMembers
      dsimp only at hvisits ⊢
      cases hitemSchema : schema.get? "items" with
      | some itemSchema =>
          rw [hitemSchema] at hvisits
          dsimp only at hvisits ⊢
          by_cases hdict : itemSchema.isDict = true
          · rw [if_pos hdict] at hvisits
            rw [if_pos hdict, if_pos hdict]
            have hconceals := hchild itemSchema (Value.sizeOf_get?_lt hitemSchema)
              (Value.isIdentity_get? hschema hitemSchema)
            obtain ⟨redacted, hredacted, hresult⟩ := hidesItems_mapM
              (f := fun item => redactSensitive H item itemSchema)
              (done ∪ replacedIn (itemVisits itemSchema items)) hitems
              fun k item item' hitem hhides => by
                have hidentity := Value.isIdentity_list.mp hvalue item (List.mem_of_getElem? hitem)
                rw [Nat.zero_add] at hhides ⊢
                obtain ⟨redacted, hredacted, hresult⟩ := hconceals item item' _ hidentity hhides
                  (undisturbedAfter_under (hvisits.sublist (itemVisits_sublist hitem)))
                refine ⟨redacted, hredacted, ?_⟩
                rw [← below_itemVisits hitem] at hresult
                exact hresult
            exact ⟨.list redacted, by rw [hredacted]; rfl, redacted, rfl, hresult⟩
          · rw [if_neg hdict, if_neg hdict]
            exact ⟨_, rfl, hidden, rfl, by simpa using hitems⟩
      | none => exact ⟨_, rfl, hidden, rfl, by simpa using hitems⟩
  | str s =>
      rcases h with ⟨hdone, hmarker⟩ | ⟨hdone, rfl⟩
      · obtain ⟨redacted, hredacted, hresult⟩ := redactMembers_marker hschema hmarker
        exact ⟨redacted, hredacted, .inl ⟨.inl hdone, hresult⟩⟩
      · exact ⟨.str s, rfl, .inr ⟨by simpa [memberVisits] using hdone, rfl⟩⟩
  | _ =>
      cases h
      exact ⟨_, rfl, rfl⟩

/-- A redaction whose visits are undisturbed replaces the strings it visits. -/
theorem redactSensitive_hides {schema : Value} (hschema : schema.isIdentity = true) :
    Conceals H schema := by
  induction hsize : sizeOf schema using Nat.strong_induction_on generalizing schema with
  | _ size ih =>
    subst hsize
    have hchild : ∀ child, sizeOf child < sizeOf schema → child.isIdentity = true →
        Conceals H child := fun child hsmall hidentity => ih _ hsmall hidentity rfl
    intro value hidden done hvalue h hvisits
    by_cases hreplaced : ∃ s, value = .str s ∧ [] ∈ done
    · -- The string is a marker already, and stays one.
      obtain ⟨s, rfl, hdone⟩ := hreplaced
      rcases h with ⟨-, hmarker⟩ | ⟨hnone, -⟩
      · obtain ⟨redacted, hredacted, hresult⟩ := redactSensitive_marker (H := H) hschema hmarker
        exact ⟨redacted, hredacted, .inl ⟨.inl hdone, hresult⟩⟩
      · exact absurd hdone hnone
    · have hstr : hidden.isStr = value.isStr := by
        cases value with
        | str s =>
            rcases h with ⟨hdone, -⟩ | ⟨-, rfl⟩
            · exact absurd ⟨s, rfl, hdone⟩ hreplaced
            · rfl
        | dict entries =>
            obtain ⟨hidden, rfl, -⟩ := h
            rfl
        | list items =>
            obtain ⟨hidden, rfl, -⟩ := h
            rfl
        | _ =>
            cases h
            rfl
      rw [redactSensitive_eq H (isIdentity_of_hides value hvalue h) hschema, hstr]
      rw [visits_eq] at hvisits ⊢
      split
      · next hsensitive =>
          cases value with
          | str s =>
              rcases h with ⟨hdone, -⟩ | ⟨-, rfl⟩
              · exact absurd ⟨s, rfl, hdone⟩ hreplaced
              · exact ⟨_, redact_ok H hvalue, .inl ⟨.inr (by simp [replacedIn]), _, rfl, rfl⟩⟩
          | surrogates codePoints => cases hvalue
          | _ => cases hsensitive.2
      · next hsensitive =>
          rw [if_neg hsensitive] at hvisits
          obtain ⟨hfirst, hrest⟩ := undisturbedAfter_append hvisits
          obtain ⟨next, hnext, hhides⟩ :=
            redactAlternatives_hides hschema hchild hvalue h hfirst
          obtain ⟨redacted, hredacted, hresult⟩ :=
            redactMembers_hides hschema hchild hvalue hhides hrest
          refine ⟨redacted, by rw [hnext]; exact hredacted, ?_⟩
          rwa [replacedIn_append, ← Set.union_assoc]

/-! ## Sensitive positions -/

theorem Sensitive.path_nil {schema value : Value} {path : Path} (h : Sensitive schema value path)
    (hstr : value.isStr = true) : path = [] := by
  induction h with
  | here => rfl
  | branch _ _ _ _ _ ih => exact ih hstr
  | property => cases hstr
  | item => cases hstr

theorem visits_subset_branchVisits {branch value : Value} {branches : List Value}
    (h : branch ∈ branches) : visits branch value ⊆ branchVisits branches value := by
  induction branches with
  | nil => cases h
  | cons first rest ih =>
      rw [branchVisits]
      rcases List.mem_cons.mp h with rfl | h
      · exact List.subset_append_left _ _
      · exact fun visit hvisit => List.mem_append_right _ (ih h hvisit)

theorem visits_subset_propertyVisits {properties entries : List (String × Value)}
    {name : String} {child value : Value} (hmem : (name, child) ∈ properties)
    (hdict : child.isDict = true) (hvalue : Assoc.lookup entries name = some value) :
    (visits child value).map (.under (.key name)) ⊆ propertyVisits properties entries := by
  induction properties with
  | nil => cases hmem
  | cons e rest ih =>
      obtain ⟨k, v⟩ := e
      rw [propertyVisits]
      rcases List.mem_cons.mp hmem with heq | hmem
      · cases heq
        rw [hvalue]
        dsimp only
        rw [if_pos hdict]
        exact List.subset_append_left _ _
      · exact fun visit hvisit => List.mem_append_right _ (ih hmem hvisit)

/-- The strings at sensitive positions are among those that are replaced. -/
theorem Sensitive.replaced {schema value : Value} {path : Path}
    (h : Sensitive schema value path) : .replaced path ∈ visits schema value := by
  induction h with
  | here hsensitive hstr =>
      rw [visits_eq, if_pos ⟨hsensitive, hstr⟩]
      exact List.mem_singleton_self _
  | @branch schema value branch anyOf path hanyOf hmem hdict haccepts h ih =>
      rw [visits_eq]
      split
      · next hhere =>
          rw [h.path_nil hhere.2]
          exact List.mem_singleton_self _
      · refine List.mem_append_left _ ?_
        rw [alternativeVisits, hanyOf]
        exact List.mem_cons_of_mem _
          (visits_subset_branchVisits (selected_of_accepts hmem hdict haccepts) ih)
  | property hproperties hmem hdict hvalue h ih =>
      rw [visits_eq, if_neg (by simp [Value.isStr])]
      refine List.mem_append_right _ ?_
      rw [memberVisits, hproperties]
      exact visits_subset_propertyVisits hmem hdict hvalue (List.mem_map_of_mem ih)
  | item hitems hdict hvalue h ih =>
      rw [visits_eq, if_neg (by simp [Value.isStr])]
      refine List.mem_append_right _ ?_
      rw [memberVisits, hitems]
      dsimp only
      rw [if_pos hdict]
      exact (itemVisits_sublist hvalue).subset (List.mem_map_of_mem ih)

theorem Sensitive.at? {schema value : Value} {path : Path} (h : Sensitive schema value path)
    (hvalue : value.isIdentity = true) : ∃ s, Schema.at? value path = some (.str s) := by
  induction h with
  | @here schema value hsensitive hstr =>
      cases value with
      | str s => exact ⟨s, rfl⟩
      | surrogates codePoints => cases hvalue
      | _ => cases hstr
  | branch _ _ _ _ _ ih => exact ih hvalue
  | property _ _ _ hentry _ ih =>
      obtain ⟨s, hs⟩ := ih (Value.isIdentity_dict.mp hvalue _ (Assoc.mem_of_lookup hentry))
      exact ⟨s, by rw [Schema.at?, hentry]; exact hs⟩
  | item _ _ hitem _ ih =>
      obtain ⟨s, hs⟩ := ih (Value.isIdentity_list.mp hvalue _ (List.mem_of_getElem? hitem))
      exact ⟨s, by rw [Schema.at?, hitem]; exact hs⟩

/-! ## Two runs -/

/-- Two values of one shape that differ only in strings at the given positions. -/
inductive Alike : Set Path → Value → Value → Prop
  | leaf {secret : Set Path} {value : Value} (hlist : ∀ items, value ≠ .list items)
      (hdict : ∀ entries, value ≠ .dict entries) : Alike secret value value
  | secret {secret : Set Path} {s t : String} (h : [] ∈ secret) : Alike secret (.str s) (.str t)
  | list {secret : Set Path} {items others : List Value} (hlength : items.length = others.length)
      (h : ∀ (i : ℕ) item other, items[i]? = some item → others[i]? = some other →
        Alike (below (.index i) secret) item other) : Alike secret (.list items) (.list others)
  | dict {secret : Set Path} {entries others : List (String × Value)}
      (hkeys : Assoc.keys entries = Assoc.keys others)
      (h : ∀ name value other, Assoc.lookup entries name = some value →
        Assoc.lookup others name = some other → Alike (below (.key name) secret) value other) :
      Alike secret (.dict entries) (.dict others)

/-- Two values that differ at most in the digests of markers. -/
inductive SameButDigests : Value → Value → Prop
  | same (value : Value) : SameButDigests value value
  | markers {value other : Value} (hvalue : IsMarker value) (hother : IsMarker other) :
      SameButDigests value other
  | list {items others : List Value} (hlength : items.length = others.length)
      (h : ∀ (i : ℕ) item other, items[i]? = some item → others[i]? = some other →
        SameButDigests item other) : SameButDigests (.list items) (.list others)
  | dict {entries others : List (String × Value)} (hkeys : Assoc.keys entries = Assoc.keys others)
      (h : ∀ name value other, Assoc.lookup entries name = some value →
        Assoc.lookup others name = some other → SameButDigests value other) :
      SameButDigests (.dict entries) (.dict others)

theorem hidesItems_length {done : Set Path} {i : ℕ} {items hidden : List Value}
    (h : HidesItems done i items hidden) : hidden.length = items.length := by
  induction items generalizing i hidden with
  | nil =>
      cases h
      rfl
  | cons item items ih =>
      obtain ⟨item', items', rfl, -, hitems⟩ := h
      rw [List.length_cons, List.length_cons, ih hitems]

theorem hidesEntries_keys {done : Set Path} {entries hidden : List (String × Value)}
    (h : HidesEntries done entries hidden) : Assoc.keys hidden = Assoc.keys entries := by
  induction entries generalizing done hidden with
  | nil =>
      cases h
      rfl
  | cons e entries ih =>
      obtain ⟨name, value⟩ := e
      obtain ⟨value', entries', rfl, -, hentries⟩ := h
      exact congrArg (name :: ·) (ih hentries)

theorem hidesItems_item {done : Set Path} {i : ℕ} {items hidden : List Value} {item' : Value}
    (h : HidesItems done 0 items hidden) (hitem : hidden[i]? = some item') :
    ∃ item, items[i]? = some item ∧ Hides (below (.index i) done) item item' := by
  have hlength := hidesItems_length h
  have hlt : i < items.length := hlength ▸ (List.getElem?_eq_some_iff.mp hitem).1
  obtain ⟨found, hfound, hhides⟩ := hidesItems_getElem? h (List.getElem?_eq_getElem hlt)
  rw [Nat.zero_add] at hhides
  rw [hitem, Option.some.injEq] at hfound
  exact ⟨_, List.getElem?_eq_getElem hlt, hfound ▸ hhides⟩

theorem hidesEntries_entry {done : Set Path} {entries hidden : List (String × Value)}
    {name : String} {value' : Value} (h : HidesEntries done entries hidden)
    (hvalue : Assoc.lookup hidden name = some value') :
    ∃ value, Assoc.lookup entries name = some value ∧
      Hides (below (.key name) done) value value' := by
  cases hlookup : Assoc.lookup entries name with
  | none =>
      rw [hidesEntries_lookup_none h hlookup] at hvalue
      cases hvalue
  | some value =>
      obtain ⟨found, hfound, hhides⟩ := hidesEntries_lookup h hlookup
      rw [hvalue, Option.some.injEq] at hfound
      exact ⟨value, rfl, hfound ▸ hhides⟩

/-- Values that differ only where strings are replaced look the same once they are. -/
theorem Alike.hides {secret done : Set Path} {value other hidden hidden' : Value}
    (h : Alike secret value other) (hsecret : secret ⊆ done) (hhidden : Hides done value hidden)
    (hhidden' : Hides done other hidden') : SameButDigests hidden hidden' := by
  induction h generalizing done hidden hidden' with
  | @leaf secret value hlist hdict =>
      cases value with
      | str s =>
          rcases hhidden with ⟨hdone, hmarker⟩ | ⟨hdone, rfl⟩
          · rcases hhidden' with ⟨-, hmarker'⟩ | ⟨hdone', -⟩
            · exact .markers hmarker hmarker'
            · exact absurd hdone hdone'
          · rcases hhidden' with ⟨hdone', -⟩ | ⟨-, rfl⟩
            · exact absurd hdone' hdone
            · exact .same _
      | list items => exact absurd rfl (hlist items)
      | dict entries => exact absurd rfl (hdict entries)
      | _ =>
          cases hhidden
          cases hhidden'
          exact .same _
  | secret hmem =>
      rcases hhidden with ⟨-, hmarker⟩ | ⟨hdone, -⟩
      · rcases hhidden' with ⟨-, hmarker'⟩ | ⟨hdone, -⟩
        · exact .markers hmarker hmarker'
        · exact absurd (hsecret hmem) hdone
      · exact absurd (hsecret hmem) hdone
  | list hlength _ ih =>
      obtain ⟨items, rfl, hitems⟩ := hhidden
      obtain ⟨items', rfl, hitems'⟩ := hhidden'
      refine .list ?_ fun i item other hitem hother => ?_
      · rw [hidesItems_length hitems, hidesItems_length hitems', hlength]
      · obtain ⟨source, hsource, hhides⟩ := hidesItems_item hitems hitem
        obtain ⟨source', hsource', hhides'⟩ := hidesItems_item hitems' hother
        exact ih i source source' hsource hsource' (below_mono hsecret) hhides hhides'
  | dict hkeys _ ih =>
      obtain ⟨entries, rfl, hentries⟩ := hhidden
      obtain ⟨entries', rfl, hentries'⟩ := hhidden'
      refine .dict ?_ fun name value other hvalue hother => ?_
      · rw [hidesEntries_keys hentries, hidesEntries_keys hentries', hkeys]
      · obtain ⟨source, hsource, hhides⟩ := hidesEntries_entry hentries hvalue
        obtain ⟨source', hsource', hhides'⟩ := hidesEntries_entry hentries' hother
        exact ih name source source' hsource hsource' (below_mono hsecret) hhides hhides'

end Schema

/-! ## Redacted arguments -/

open Schema

variable (H : Hashing) (spec : ActionSpec)

theorem hides_redactArgs {H : Hashing} {spec : ActionSpec} {args redacted : Value}
    (hargs : spec.validateArgs args = .ok none)
    (hvisits : Undisturbed (visits spec.schema args))
    (h : spec.redactArgs H args = .ok redacted) :
    Hides (replacedIn (visits spec.schema args)) args redacted := by
  have hidentity := ActionSpec.isIdentity_of_validateArgs hargs
  obtain ⟨result, hresult, hhides⟩ := redactSensitive_hides (H := H) spec.isIdentity_schema args
    args ∅ hidentity ((hides_empty _ _).mpr rfl)
    ⟨fun path hpath => absurd hpath (Set.notMem_empty path), hvisits⟩
  rw [Set.empty_union] at hhides
  rw [ActionSpec.redactArgs, hresult] at h
  simp only [bind, Except.bind] at h
  split at h
  · cases h
    exact hhides
  · cases h

def secretString : Value := .dict [("type", .str "string"), ("sensitive", .bool true)]

def objectOf (properties : List (String × Value)) : Value :=
  .dict [("type", .str "object"), ("properties", .dict properties)]

/-- A string constant. -/
def only (name : String) : Value := .dict [("type", .str "string"), ("enum", .list [.str name])]

/-- A token, which is secret, or a label. -/
def loginSpec : ActionSpec where
  name := "login"
  version := "1"
  schema := objectOf [("auth", .dict [("anyOf", .list [
    objectOf [("kind", only "token"), ("value", secretString)],
    objectOf [("kind", only "label"), ("value", .dict [("type", .str "string")])]])])]
  sideEffects := false
  hasHandler := true
  specDigest := "login"
  accepted := by decide +kernel

def loginArgs : Value :=
  .dict [("auth", .dict [("kind", .str "token"), ("value", .str "t")])]

/-- Alternatives that are met after a string below them was replaced. -/
def nestedSpec : ActionSpec where
  name := "nested"
  version := "1"
  schema := .dict [("type", .str "object"), ("anyOf", .list [
    objectOf [("x", objectOf [("kind", secretString)])],
    objectOf [("x", .dict [("anyOf", .list [
      objectOf [("kind", only "k"), ("value", secretString)], .dict []])])]])]
  sideEffects := false
  hasHandler := true
  specDigest := "nested"
  accepted := by decide +kernel

def nestedArgs : Value :=
  .dict [("x", .dict [("kind", .str "k"), ("value", .str "secret")])]

/-- Alternatives that are chosen by a secret. -/
def chosenSpec : ActionSpec where
  name := "chosen"
  version := "1"
  schema := .dict [("type", .str "object"), ("anyOf", .list [
    objectOf [("key", .dict [("type", .str "string"), ("enum", .list [.str "a"]),
      ("sensitive", .bool true)]), ("value", secretString)],
    objectOf [("key", secretString)]])]
  sideEffects := false
  hasHandler := true
  specDigest := "chosen"
  accepted := by decide +kernel

def chosenArgs (key : String) : Value := .dict [("key", .str key), ("value", .str "v")]

def marker (digest : String) : Value := .dict [(redactionKey, .str digest), ("hint", .none)]

theorem alike_chosenArgs (secret : Set Path) (hkey : [Step.key "key"] ∈ secret) (s t : String) :
    Alike secret (chosenArgs s) (chosenArgs t) := by
  refine .dict rfl fun name value other hvalue hother => ?_
  rcases Assoc.mem_of_lookup hvalue with _ | ⟨_, _ | ⟨_, ⟨⟩⟩⟩
  · cases hother
    exact .secret hkey
  · cases hother
    exact .leaf (fun _ => by simp) (fun _ => by simp)

theorem not_sameButDigests_marker (key key' : Value) (digest : String) (s : String) :
    ¬ SameButDigests (.dict [("key", key), ("value", marker digest)])
      (.dict [("key", key'), ("value", .str s)]) := by
  intro h
  cases h with
  | markers hvalue hother =>
      obtain ⟨digest, -, hmarker⟩ := hvalue
      simp [redactionKey] at hmarker
  | dict hkeys h =>
      have hsame := h "value" (marker digest) (.str s) rfl rfl
      cases hsame with
      | markers hvalue hother =>
          obtain ⟨digest, -, hmarker⟩ := hother
          cases hmarker

end Pollard
