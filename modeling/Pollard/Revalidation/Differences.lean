import Pollard.Lib.Binary64
import Pollard.Lib.Dict
import Mathlib.Data.List.Sort
import Mathlib.Data.String.Basic

/-!
# Where two results differ

`_difference_paths` visits two JSON values side by side and stops at a limit.  What it visits
is a list of positions that does not depend on the limit: the shallowest positions at which
one value has something the other has not.
-/

namespace Pollard.Revalidation

open Lib

/-! ## Values -/

/-- A finite float, which is a zero with a sign or another number. -/
inductive PyFloat where
  | zero (negative : Bool)
  | nonzero (q : ℚ) (ne : q ≠ 0) (representable : Binary64.round q = q)
deriving DecidableEq

def PyFloat.value : PyFloat → ℚ
  | zero _ => 0
  | nonzero q _ _ => q

/-- What `json.loads` makes. -/
inductive Json where
  | null
  | bool (b : Bool)
  | int (n : ℤ)
  | float (x : PyFloat)
  | str (s : String)
  | list (items : List Json)
  | dict (entries : List (String × Json))

/-- The type of a value, and what is compared of a value that is no container. -/
inductive Shape where
  | null
  | bool (b : Bool)
  | int (n : ℤ)
  | float (q : ℚ)
  | str (s : String)
  | list
  | dict
deriving DecidableEq

inductive PyType where
  | noneType
  | bool
  | int
  | float
  | str
  | list
  | dict
deriving DecidableEq

def Json.shape : Json → Shape
  | .null => .null
  | .bool b => .bool b
  | .int n => .int n
  | .float x => .float x.value
  | .str s => .str s
  | .list _ => .list
  | .dict _ => .dict

def Shape.type : Shape → PyType
  | .null => .noneType
  | .bool _ => .bool
  | .int _ => .int
  | .float _ => .float
  | .str _ => .str
  | .list => .list
  | .dict => .dict

theorem sizeOf_lookup_lt {entries : List (String × Json)} {key : String} {value : Json}
    (h : Assoc.lookup entries key = some value) : sizeOf value < sizeOf entries := by
  have hsize := List.sizeOf_lt_of_mem (Assoc.mem_of_lookup h)
  rw [Prod.mk.sizeOf_spec] at hsize
  omega

/-! ## The visit -/

/-- `_pointer_token` -/
def pointerToken (value : String) : String := (value.replace "~" "~0").replace "/" "~1"

/-- The paths found so far, and whether there were more. -/
structure Found where
  paths : List String
  truncated : Bool
deriving DecidableEq

/-- `add` -/
def add (limit : ℕ) (found : Found) (path : String) : Found :=
  if limit ≤ found.paths.length then { found with truncated := true }
  else { found with paths := found.paths ++ [if path = "" then "/" else path] }

/-- `sorted(left_keys | right_keys)` -/
def unionKeys (as bs : List (String × Json)) : List String :=
  (Assoc.keys as ++ Assoc.keys bs).dedup.insertionSort (· ≤ ·)

def childPath (path key : String) : String := path ++ "/" ++ pointerToken key

def itemPath (path : String) (index : ℕ) : String := path ++ "/" ++ toString index

section Visit

variable (limit : ℕ)

/-- The loop over the items only the longer list has. -/
def addTail (path : String) : ℕ → ℕ → Found → Found
  | _, 0, found => found
  | index, count + 1, found =>
      addTail path (index + 1) count (add limit found (itemPath path index))

mutual

/-- `visit` -/
def visit (left right : Json) (path : String) (found : Found) : Found :=
  if found.truncated then found
  else if left.shape.type ≠ right.shape.type then add limit found path
  else
    match left, right with
    | .dict as, .dict bs => visitKeys as bs path (unionKeys as bs) found
    | .list as, .list bs => visitItems as bs path 0 found
    | left, right => if left.shape ≠ right.shape then add limit found path else found
termination_by (sizeOf left, 0)
decreasing_by
  · rw [Json.dict.sizeOf_spec]
    exact Prod.Lex.left _ _ (by omega)
  · rw [Json.list.sizeOf_spec]
    exact Prod.Lex.left _ _ (by omega)

def visitKeys (as bs : List (String × Json)) (path : String) (keys : List String)
    (found : Found) : Found :=
  match keys with
  | [] => found
  | key :: keys =>
      visitKeys as bs path keys <|
        match _h : Assoc.lookup as key, Assoc.lookup bs key with
        | some v, some w => visit v w (childPath path key) found
        | _, _ => add limit found (childPath path key)
termination_by (sizeOf as, keys.length)
decreasing_by
  · exact Prod.Lex.left _ _ (sizeOf_lookup_lt _h)
  · exact Prod.Lex.right _ (by simp)

def visitItems (as bs : List Json) (path : String) (index : ℕ) (found : Found) : Found :=
  match as, bs with
  | a :: as, b :: bs =>
      visitItems as bs path (index + 1) (visit a b (itemPath path index) found)
  | as, bs => addTail limit path index (max as.length bs.length) found
termination_by (sizeOf as, 0)

end

/-- `_difference_paths` -/
def differencePaths (left right : Json) : Found := visit limit left right "" ⟨[], false⟩

end Visit

/-! ## Positions -/

inductive Step where
  | key (name : String)
  | index (n : ℕ)
deriving DecidableEq

/-- The value one step below. -/
def Json.child : Json → Step → Option Json
  | .dict entries, .key name => Assoc.lookup entries name
  | .list items, .index n => items[n]?
  | _, _ => none

/-- What is at a position, if anything is. -/
def shapeAt (value : Json) : List Step → Option Shape
  | [] => some value.shape
  | step :: steps =>
      match value.child step with
      | some child => shapeAt child steps
      | none => none

/-- A position at which there are different things, and the same at every one above. -/
def FirstApart (left right : List Step → Option Shape) (position : List Step) : Prop :=
  left position ≠ right position ∧
    ∀ above, above <+: position → above ≠ position → left above = right above

/-- A position at which the values differ, and above which they do not. -/
def Differs (left right : Json) (position : List Step) : Prop :=
  FirstApart (shapeAt left) (shapeAt right) position

/-- Structural equality: the same positions, and the same at each. -/
def Same (left right : Json) : Prop := ∀ position, shapeAt left position = shapeAt right position

/-- The order of the visit. -/
def Step.before : Step → Step → Prop
  | .key a, .key b => a < b
  | .index m, .index n => m < n
  | _, _ => False

def Before : List Step → List Step → Prop
  | a :: as, b :: bs => a.before b ∨ a = b ∧ Before as bs
  | _, _ => False

/-- A position as a JSON pointer. -/
def pointer : List Step → String
  | [] => ""
  | .key name :: steps => "/" ++ pointerToken name ++ pointer steps
  | .index n :: steps => "/" ++ toString n ++ pointer steps

mutual

/-- The positions at which two values differ, in the order of the visit. -/
def differences (left right : Json) : List (List Step) :=
  match left, right with
  | .dict as, .dict bs => keyDifferences as bs (unionKeys as bs)
  | .list as, .list bs => itemDifferences as bs 0
  | left, right => if left.shape ≠ right.shape then [[]] else []
termination_by (sizeOf left, 0)
decreasing_by
  · rw [Json.dict.sizeOf_spec]
    exact Prod.Lex.left _ _ (by omega)
  · rw [Json.list.sizeOf_spec]
    exact Prod.Lex.left _ _ (by omega)

def keyDifferences (as bs : List (String × Json)) (keys : List String) : List (List Step) :=
  match keys with
  | [] => []
  | key :: keys =>
      (match _h : Assoc.lookup as key, Assoc.lookup bs key with
        | some v, some w => (differences v w).map (.key key :: ·)
        | _, _ => [[.key key]]) ++ keyDifferences as bs keys
termination_by (sizeOf as, keys.length)
decreasing_by
  · exact Prod.Lex.left _ _ (sizeOf_lookup_lt _h)
  · exact Prod.Lex.right _ (by simp)

def itemDifferences (as bs : List Json) (index : ℕ) : List (List Step) :=
  match as, bs with
  | a :: as, b :: bs =>
      (differences a b).map (.index index :: ·) ++ itemDifferences as bs (index + 1)
  | as, bs => (List.range' index (max as.length bs.length)).map fun n => [.index n]
termination_by (sizeOf as, 0)

end

/-! ## What the visit finds -/

section Found

variable {limit : ℕ}

/-- Nothing is dropped before the limit. -/
def Full (limit : ℕ) (found : Found) : Prop :=
  found.truncated = true → limit ≤ found.paths.length

theorem full_add {found : Found} (h : Full limit found) (path : String) :
    Full limit (add limit found path) := by
  intro htruncated
  rw [add] at htruncated ⊢
  split at htruncated
  · next hle => rwa [if_pos hle]
  · next hlt => exact absurd (h htruncated) hlt

theorem full_foldl {found : Found} (h : Full limit found) (paths : List String) :
    Full limit (paths.foldl (add limit) found) := by
  induction paths generalizing found with
  | nil => exact h
  | cons path paths ih => exact ih (full_add h path)

theorem add_of_truncated {found : Found} (h : Full limit found)
    (htruncated : found.truncated = true) (path : String) : add limit found path = found := by
  rw [add, if_pos (h htruncated), ← htruncated]

theorem foldl_of_truncated {found : Found} (h : Full limit found)
    (htruncated : found.truncated = true) (paths : List String) :
    paths.foldl (add limit) found = found := by
  induction paths with
  | nil => rfl
  | cons path paths ih => rw [List.foldl_cons, add_of_truncated h htruncated, ih]

theorem foldl_add (paths : List String) (found : Found) (hlength : found.paths.length ≤ limit)
    (hfull : found.truncated = false) :
    paths.foldl (add limit) found =
      ⟨(found.paths ++ paths.map fun path => if path = "" then "/" else path).take limit,
        limit < found.paths.length + paths.length⟩ := by
  induction paths generalizing found with
  | nil =>
      obtain ⟨found, truncated⟩ := found
      simp only [List.foldl_nil, List.map_nil, List.append_nil, List.length_nil] at *
      rw [List.take_of_length_le hlength, hfull, decide_eq_false (by simpa using hlength)]
  | cons path paths ih =>
      rw [List.foldl_cons]
      by_cases hle : limit ≤ found.paths.length
      · have hlimit : limit = found.paths.length := by omega
        have hadd : add limit found path = { found with truncated := true } := by
          rw [add, if_pos hle]
        have htail : paths.foldl (add limit) ⟨found.paths, true⟩ = ⟨found.paths, true⟩ :=
          foldl_of_truncated (show Full limit ⟨found.paths, true⟩ from fun _ => hle) rfl paths
        rw [hadd, htail, decide_eq_true (by rw [List.length_cons]; omega), hlimit, List.take_left]
      · have hadd : add limit found path =
            { found with paths := found.paths ++ [if path = "" then "/" else path] } := by
          rw [add, if_neg hle]
        rw [hadd, ih ⟨found.paths ++ [if path = "" then "/" else path], found.truncated⟩
          (by rw [List.length_append, List.length_singleton]; omega) hfull]
        simp only [List.append_assoc, List.map_cons, List.singleton_append, List.length_append,
          List.length_nil, List.length_cons, Nat.add_assoc, Nat.add_comm 1, Nat.zero_add]

/-- The paths of positions below one. -/
def pathsBelow (path : String) (positions : List (List Step)) : List String :=
  positions.map fun position => path ++ pointer position

theorem pathsBelow_key (path name : String) (positions : List (List Step)) :
    pathsBelow path (positions.map (.key name :: ·)) =
      pathsBelow (childPath path name) positions := by
  rw [pathsBelow, List.map_map]
  exact List.map_congr_left fun position _ => by
    simp only [Function.comp_apply, pointer, childPath, String.append_assoc]

theorem pathsBelow_index (path : String) (n : ℕ) (positions : List (List Step)) :
    pathsBelow path (positions.map (.index n :: ·)) =
      pathsBelow (itemPath path n) positions := by
  rw [pathsBelow, List.map_map]
  exact List.map_congr_left fun position _ => by
    simp only [Function.comp_apply, pointer, itemPath, String.append_assoc]

theorem addTail_eq (path : String) (index count : ℕ) (found : Found) :
    addTail limit path index count found = (pathsBelow path ((List.range' index count).map
      fun n => [.index n])).foldl (add limit) found := by
  induction count generalizing index found with
  | zero => rfl
  | succ count ih =>
      rw [addTail, ih, List.range'_succ]
      simp [pathsBelow, pointer, itemPath, String.append_assoc]

/-- A pair that is not visited further. -/
theorem differences_leaf {left right : Json} (hdict : ∀ as bs, ¬ (left = .dict as ∧ right = .dict bs))
    (hlist : ∀ as bs, ¬ (left = .list as ∧ right = .list bs)) :
    differences left right = if left.shape ≠ right.shape then [[]] else [] := by
  rw [differences.eq_def]
  split
  · next as bs => exact absurd ⟨rfl, rfl⟩ (hdict as bs)
  · next as bs => exact absurd ⟨rfl, rfl⟩ (hlist as bs)
  · rfl

/-- The visit of a pair adds the positions of the list, one after the other. -/
def Adds (limit : ℕ) (left right : Json) : Prop :=
  ∀ (path : String) {found : Found}, Full limit found → visit limit left right path found =
    (pathsBelow path (differences left right)).foldl (add limit) found

theorem visitKeys_eq (as bs : List (String × Json))
    (hbelow : ∀ v w, sizeOf v < sizeOf as → Adds limit v w) (path : String) (keys : List String)
    {found : Found} (h : Full limit found) :
    visitKeys limit as bs path keys found =
      (pathsBelow path (keyDifferences as bs keys)).foldl (add limit) found := by
  induction keys generalizing found with
  | nil =>
      rw [visitKeys, keyDifferences]
      rfl
  | cons key keys ih =>
      rw [visitKeys, keyDifferences, pathsBelow, List.map_append, List.foldl_append,
        ← pathsBelow, ← pathsBelow]
      split
      · next v w hv hw =>
          rw [hbelow v w (sizeOf_lookup_lt hv) _ h, ih (full_foldl h _), pathsBelow_key]
      · rw [ih (full_add h _)]
        simp [pathsBelow, pointer, childPath, String.append_assoc]

theorem visitItems_eq (as bs : List Json)
    (hbelow : ∀ a b, sizeOf a < sizeOf as → Adds limit a b) (path : String) (index : ℕ)
    {found : Found} (h : Full limit found) :
    visitItems limit as bs path index found =
      (pathsBelow path (itemDifferences as bs index)).foldl (add limit) found := by
  induction as generalizing bs index found with
  | nil =>
      rw [visitItems, itemDifferences]
      · exact addTail_eq path index _ found
      all_goals simp
  | cons a as ih =>
      cases bs with
      | nil =>
          rw [visitItems, itemDifferences]
          · exact addTail_eq path index _ found
          all_goals simp
      | cons b bs =>
          rw [visitItems, itemDifferences, pathsBelow, List.map_append, List.foldl_append,
            ← pathsBelow, ← pathsBelow, hbelow a b (by simp; omega) _ h, pathsBelow_index]
          exact ih bs (fun v w hv => hbelow v w (by simp; omega)) (index + 1) (full_foldl h _)

theorem visit_eq (left right : Json) : Adds limit left right := by
  induction hsize : sizeOf left using Nat.strong_induction_on generalizing left right with
  | _ n ih =>
      subst hsize
      intro path found h
      rw [visit.eq_def]
      split
      · next htruncated => rw [foldl_of_truncated h htruncated]
      · split
        · next htype =>
            have hshape : left.shape ≠ right.shape := fun heq => htype (congrArg Shape.type heq)
            rw [differences_leaf, if_pos hshape]
            · simp [pathsBelow, pointer]
            · rintro as bs ⟨rfl, rfl⟩
              exact htype rfl
            · rintro as bs ⟨rfl, rfl⟩
              exact htype rfl
        · split
          · next as bs _ =>
              rw [differences]
              exact visitKeys_eq as bs (fun v w hv => ih _ (by simp; omega) v w rfl) path _ h
          · next as bs _ =>
              rw [differences]
              exact visitItems_eq as bs (fun v w hv => ih _ (by simp; omega) v w rfl) path 0 h
          · next hdict hlist =>
              rw [differences_leaf (fun as bs hboth => hdict as bs hboth.1 hboth.2)
                fun as bs hboth => hlist as bs hboth.1 hboth.2]
              split <;> simp [pathsBelow, pointer]

end Found

/-! ## What the positions are -/

theorem firstApart_of_root {left right : List Step → Option Shape} (h : left [] ≠ right [])
    (position : List Step) : FirstApart left right position ↔ position = [] := by
  constructor
  · intro hapart
    by_contra hne
    exact h (hapart.2 [] List.nil_prefix (Ne.symm hne))
  · rintro rfl
    exact ⟨h, fun above habove hne => absurd (List.prefix_nil.mp habove) hne⟩

theorem firstApart_cons {left right : List Step → Option Shape} (h : left [] = right [])
    (step : Step) (position : List Step) : FirstApart left right (step :: position) ↔
      FirstApart (fun rest => left (step :: rest)) (fun rest => right (step :: rest)) position := by
  refine and_congr_right fun _ => ⟨fun hall above hstarts hne => ?_,
    fun hall above hstarts hne => ?_⟩
  · exact hall _ ((List.prefix_cons_inj step).mpr hstarts) fun heq => hne (List.cons.inj heq).2
  · rcases List.prefix_cons_iff.mp hstarts with rfl | ⟨rest, rfl, hrest⟩
    · exact h
    · exact hall rest hrest fun heq => hne (by rw [heq])

/-- Where values differ, each of which may be missing. -/
def DiffersBelow : Option Json → Option Json → List Step → Prop
  | some left, some right, position => Differs left right position
  | none, none, _ => False
  | _, _, position => position = []

theorem differs_of_shape_ne {left right : Json} (h : left.shape ≠ right.shape)
    (position : List Step) : Differs left right position ↔ position = [] :=
  firstApart_of_root (fun heq => h (Option.some.inj heq)) position

theorem differs_nil (left right : Json) : Differs left right [] ↔ left.shape ≠ right.shape := by
  refine ⟨fun hdiffers heq => hdiffers.1 (congrArg some heq), fun h => ?_⟩
  exact (differs_of_shape_ne h []).mpr rfl

theorem differs_cons {left right : Json} (h : left.shape = right.shape) (step : Step)
    (position : List Step) : Differs left right (step :: position) ↔
      DiffersBelow (left.child step) (right.child step) position := by
  rw [Differs, firstApart_cons (congrArg some h)]
  simp only [shapeAt]
  cases left.child step with
  | some v =>
      cases right.child step with
      | some w => rfl
      | none => exact firstApart_of_root (by simp [shapeAt]) position
  | none =>
      cases right.child step with
      | some w => exact firstApart_of_root (by simp [shapeAt]) position
      | none => exact ⟨fun hapart => hapart.1 rfl, False.elim⟩

theorem mem_keyDifferences {as bs : List (String × Json)}
    (hbelow : ∀ v w, sizeOf v < sizeOf as → ∀ position,
      position ∈ differences v w ↔ Differs v w position) {keys : List String}
    (hkeys : ∀ key ∈ keys, key ∈ Assoc.keys as ∨ key ∈ Assoc.keys bs) (position : List Step) :
    position ∈ keyDifferences as bs keys ↔ ∃ key ∈ keys, ∃ rest, position = .key key :: rest ∧
      DiffersBelow (Assoc.lookup as key) (Assoc.lookup bs key) rest := by
  induction keys with
  | nil => simp [keyDifferences]
  | cons key keys ih =>
      rw [List.forall_mem_cons] at hkeys
      have hfirst : (position ∈ match Assoc.lookup as key, Assoc.lookup bs key with
          | some v, some w => (differences v w).map (Step.key key :: ·)
          | _, _ => [[Step.key key]]) ↔ ∃ rest, position = .key key :: rest ∧
            DiffersBelow (Assoc.lookup as key) (Assoc.lookup bs key) rest := by
        cases hv : Assoc.lookup as key with
        | some v =>
            cases hw : Assoc.lookup bs key with
            | some w =>
                simp only [List.mem_map, hbelow v w (sizeOf_lookup_lt hv), DiffersBelow]
                exact exists_congr fun rest => by rw [and_comm, eq_comm]
            | none => simp [DiffersBelow]
        | none =>
            cases hw : Assoc.lookup bs key with
            | some w => simp [DiffersBelow]
            | none =>
                rw [Assoc.lookup_eq_none_iff] at hv hw
                exact absurd hkeys.1 (not_or.mpr ⟨hv, hw⟩)
      have hmatch : keyDifferences as bs (key :: keys) =
          (match Assoc.lookup as key, Assoc.lookup bs key with
          | some v, some w => (differences v w).map (Step.key key :: ·)
          | _, _ => [[Step.key key]]) ++ keyDifferences as bs keys := by
        rw [keyDifferences]
        congr 1
        split <;> simp_all
      rw [hmatch, List.mem_append, hfirst, ih hkeys.2]
      simp only [List.mem_cons, or_and_right, exists_or, exists_eq_left]

theorem differsBelow_none_left (right : Option Json) (position : List Step) :
    DiffersBelow none right position ↔ right.isSome = true ∧ position = [] := by
  cases right <;> simp [DiffersBelow]

theorem differsBelow_none_right (left : Option Json) (position : List Step) :
    DiffersBelow left none position ↔ left.isSome = true ∧ position = [] := by
  cases left <;> simp [DiffersBelow]

/-- The items of a list that the other one lacks. -/
theorem mem_tail (items : List Json) (index : ℕ) (position : List Step) :
    position ∈ (List.range' index items.length).map (fun n => [Step.index n]) ↔
      ∃ n rest, position = .index (index + n) :: rest ∧ items[n]?.isSome = true ∧ rest = [] := by
  simp only [List.mem_map, List.mem_range'_1, Option.isSome_iff_exists, List.getElem?_eq_some_iff]
  constructor
  · rintro ⟨n, hn, rfl⟩
    exact ⟨n - index, [], by rw [Nat.add_sub_cancel' hn.1], ⟨_, by omega, rfl⟩, rfl⟩
  · rintro ⟨n, rest, rfl, ⟨-, hn, -⟩, rfl⟩
    exact ⟨index + n, by omega, rfl⟩

theorem mem_itemDifferences {as bs : List Json}
    (hbelow : ∀ v w, sizeOf v < sizeOf as → ∀ position,
      position ∈ differences v w ↔ Differs v w position)
    (index : ℕ) (position : List Step) :
    position ∈ itemDifferences as bs index ↔ ∃ n rest, position = .index (index + n) :: rest ∧
      DiffersBelow as[n]? bs[n]? rest := by
  induction as generalizing bs index with
  | nil =>
      rw [itemDifferences]
      · simp only [List.length_nil, Nat.zero_max, List.getElem?_nil, differsBelow_none_left]
        exact mem_tail bs index position
      all_goals simp
  | cons a as ih =>
      cases bs with
      | nil =>
          rw [itemDifferences]
          · simp only [List.length_nil, Nat.max_zero, List.getElem?_nil, differsBelow_none_right]
            exact mem_tail (a :: as) index position
          all_goals simp
      | cons b bs =>
          have hsize : sizeOf a < sizeOf (a :: as) := by simp; omega
          rw [itemDifferences, List.mem_append,
            ih (fun v w hv => hbelow v w (by simp; omega)) (index + 1)]
          simp only [List.mem_map, hbelow a b hsize]
          constructor
          · rintro (⟨rest, hrest, rfl⟩ | ⟨n, rest, rfl, hrest⟩)
            · exact ⟨0, rest, rfl, hrest⟩
            · exact ⟨n + 1, rest, by rw [Nat.add_assoc, Nat.add_comm 1], hrest⟩
          · rintro ⟨n, rest, rfl, hrest⟩
            cases n with
            | zero => exact .inl ⟨rest, hrest, rfl⟩
            | succ n => exact .inr ⟨n, rest, by rw [Nat.add_assoc, Nat.add_comm 1], hrest⟩

theorem mem_unionKeys (as bs : List (String × Json)) (key : String) :
    key ∈ unionKeys as bs ↔ key ∈ Assoc.keys as ∨ key ∈ Assoc.keys bs := by
  rw [unionKeys, (List.perm_insertionSort _ _).mem_iff, List.mem_dedup, List.mem_append]

/-- The list is complete. -/
theorem mem_differences (left right : Json) (position : List Step) :
    position ∈ differences left right ↔ Differs left right position := by
  induction hsize : sizeOf left using Nat.strong_induction_on generalizing left right position with
  | _ n ih =>
      subst hsize
      rw [differences.eq_def]
      split
      · next as bs =>
          rw [mem_keyDifferences (fun v w hv position => ih _ (by simp; omega) v w position rfl)
            fun key hkey => (mem_unionKeys as bs key).mp hkey]
          cases position with
          | nil => simp [differs_nil, Json.shape]
          | cons step rest =>
              rw [differs_cons (show (Json.dict as).shape = (Json.dict bs).shape from rfl)]
              cases step with
              | index n => simp [Json.child, DiffersBelow]
              | key name =>
                  constructor
                  · rintro ⟨key, -, rest', heq, hdiffers⟩
                    cases heq
                    exact hdiffers
                  · intro hdiffers
                    refine ⟨name, ?_, rest, rfl, hdiffers⟩
                    rw [mem_unionKeys]
                    by_contra hnot
                    rw [not_or, ← Assoc.lookup_eq_none_iff, ← Assoc.lookup_eq_none_iff] at hnot
                    change DiffersBelow (Assoc.lookup as name) (Assoc.lookup bs name) rest
                      at hdiffers
                    rw [hnot.1, hnot.2] at hdiffers
                    exact hdiffers
      · next as bs =>
          rw [mem_itemDifferences fun v w hv position => ih _ (by simp; omega) v w position rfl]
          cases position with
          | nil => simp [differs_nil, Json.shape]
          | cons step rest =>
              rw [differs_cons (show (Json.list as).shape = (Json.list bs).shape from rfl)]
              cases step with
              | key name => simp [Json.child, DiffersBelow]
              | index n =>
                  constructor
                  · rintro ⟨m, rest', heq, hdiffers⟩
                    rw [Nat.zero_add] at heq
                    cases heq
                    exact hdiffers
                  · exact fun hdiffers => ⟨n, rest, by rw [Nat.zero_add], hdiffers⟩
      · next hdict hlist =>
          by_cases hshape : left.shape = right.shape
          · rw [if_neg (not_not.mpr hshape)]
            cases position with
            | nil => simp [differs_nil, hshape]
            | cons step rest =>
                rw [differs_cons hshape]
                have hchild : left.child step = none ∧ right.child step = none := by
                  cases left <;> cases right <;> simp_all [Json.shape, Json.child]
                rw [hchild.1, hchild.2]
                simp [DiffersBelow]
          · rw [if_pos hshape, differs_of_shape_ne hshape, List.mem_singleton]

theorem same_iff_differences (left right : Json) :
    Same left right ↔ differences left right = [] := by
  constructor
  · intro hsame
    rw [List.eq_nil_iff_forall_not_mem]
    exact fun position hmem => ((mem_differences left right position).mp hmem).1 (hsame position)
  · intro hnone position
    by_contra hne
    -- The shortest prefix at which they differ is a difference.
    have hexists : ∃ n, shapeAt left (position.take n) ≠ shapeAt right (position.take n) :=
      ⟨position.length, by rwa [List.take_length]⟩
    have hdiffers : Differs left right (position.take (Nat.find hexists)) := by
      refine ⟨Nat.find_spec hexists, fun above hstarts hshort => ?_⟩
      have hlength : above.length < Nat.find hexists := by
        have hle := hstarts.length_le
        have hne : above.length ≠ (position.take (Nat.find hexists)).length :=
          fun heq => hshort (hstarts.eq_of_length heq)
        rw [List.length_take] at hle hne
        omega
      have habove : above = position.take above.length :=
        List.prefix_iff_eq_take.mp (hstarts.trans (List.take_prefix _ _))
      have hmin := Nat.find_min hexists hlength
      rwa [not_not, ← habove] at hmin
    rw [← mem_differences, hnone] at hdiffers
    cases hdiffers

/-! ### The order -/

theorem head_of_mem_keyDifferences {as bs : List (String × Json)} {keys : List String}
    {position : List Step} (h : position ∈ keyDifferences as bs keys) :
    ∃ key ∈ keys, ∃ rest, position = .key key :: rest := by
  induction keys with
  | nil => simp [keyDifferences] at h
  | cons key keys ih =>
      rw [keyDifferences, List.mem_append] at h
      rcases h with h | h
      · split at h
        · obtain ⟨rest, -, rfl⟩ := List.mem_map.mp h
          exact ⟨key, List.mem_cons_self, rest, rfl⟩
        · exact ⟨key, List.mem_cons_self, [], List.mem_singleton.mp h⟩
      · obtain ⟨other, hother, rest, heq⟩ := ih h
        exact ⟨other, List.mem_cons_of_mem _ hother, rest, heq⟩

theorem head_of_mem_itemDifferences {as bs : List Json} {index : ℕ} {position : List Step}
    (h : position ∈ itemDifferences as bs index) :
    ∃ n rest, position = .index (index + n) :: rest := by
  obtain ⟨n, rest, heq, -⟩ :=
    (mem_itemDifferences (fun v w _ position => mem_differences v w position) index position).mp h
  exact ⟨n, rest, heq⟩

theorem pairwise_map_step {step : Step} {positions : List (List Step)}
    (h : positions.Pairwise Before) : (positions.map (step :: ·)).Pairwise Before :=
  List.pairwise_map.mpr (h.imp fun hbefore => .inr ⟨rfl, hbefore⟩)

theorem pairwise_keyDifferences {as bs : List (String × Json)}
    (hbelow : ∀ v w, sizeOf v < sizeOf as → (differences v w).Pairwise Before) {keys : List String}
    (hkeys : keys.Pairwise (· < ·)) : (keyDifferences as bs keys).Pairwise Before := by
  induction keys with
  | nil => simp [keyDifferences]
  | cons key keys ih =>
      rw [List.pairwise_cons] at hkeys
      rw [keyDifferences, List.pairwise_append]
      refine ⟨?_, ih hkeys.2, ?_⟩
      · split
        · next v w hv hw => exact pairwise_map_step (hbelow v w (sizeOf_lookup_lt hv))
        · exact List.pairwise_singleton _ _
      · intro position hposition other hother
        obtain ⟨key', hkey', rest', rfl⟩ := head_of_mem_keyDifferences hother
        have hlt := hkeys.1 key' hkey'
        split at hposition
        · obtain ⟨rest, -, rfl⟩ := List.mem_map.mp hposition
          exact .inl hlt
        · rw [List.mem_singleton.mp hposition]
          exact .inl hlt

theorem pairwise_tail (index count : ℕ) :
    ((List.range' index count).map fun n => [Step.index n]).Pairwise Before := by
  have hlt : (List.range' index count).Pairwise (· < ·) := List.pairwise_lt_range'
  exact List.pairwise_map.mpr (hlt.imp fun h => .inl h)

theorem pairwise_itemDifferences {as bs : List Json}
    (hbelow : ∀ v w, sizeOf v < sizeOf as → (differences v w).Pairwise Before) (index : ℕ) :
    (itemDifferences as bs index).Pairwise Before := by
  induction as generalizing bs index with
  | nil =>
      rw [itemDifferences]
      · exact pairwise_tail index _
      all_goals simp
  | cons a as ih =>
      cases bs with
      | nil =>
          rw [itemDifferences]
          · exact pairwise_tail index _
          all_goals simp
      | cons b bs =>
          rw [itemDifferences, List.pairwise_append]
          refine ⟨pairwise_map_step (hbelow a b (by simp; omega)), ?_, ?_⟩
          · exact ih (fun v w hv => hbelow v w (by simp; omega)) (index + 1)
          · intro position hposition other hother
            obtain ⟨rest, -, rfl⟩ := List.mem_map.mp hposition
            obtain ⟨n, rest', rfl⟩ := head_of_mem_itemDifferences hother
            exact .inl (by change index < index + 1 + n; omega)

theorem unionKeys_sorted (as bs : List (String × Json)) :
    (unionKeys as bs).Pairwise (· < ·) := by
  have hnodup : (unionKeys as bs).Nodup :=
    (List.perm_insertionSort _ _).nodup_iff.mpr (List.nodup_dedup _)
  have hsorted : (unionKeys as bs).Pairwise (· ≤ ·) := List.pairwise_insertionSort _ _
  exact (hsorted.and hnodup).imp fun h => lt_of_le_of_ne h.1 h.2

/-- The list is in the order of the visit, so it names no position twice. -/
theorem pairwise_differences (left right : Json) :
    (differences left right).Pairwise Before := by
  induction hsize : sizeOf left using Nat.strong_induction_on generalizing left right with
  | _ n ih =>
      subst hsize
      rw [differences.eq_def]
      split
      · next as bs =>
          exact pairwise_keyDifferences (fun v w hv => ih _ (by simp; omega) v w rfl)
            (unionKeys_sorted as bs)
      · next as bs =>
          exact pairwise_itemDifferences (fun v w hv => ih _ (by simp; omega) v w rfl) 0
      · split
        · exact List.pairwise_singleton _ _
        · exact List.Pairwise.nil

/-- What is found is the first paths of a list that does not depend on the limit: of every
position at which the values differ, each once, in the order of the visit. -/
theorem differencePaths_exact (limit : ℕ) (left right : Json) :
    let all := differences left right
    (∀ position, position ∈ all ↔ Differs left right position) ∧ all.Pairwise Before ∧
    differencePaths limit left right =
      ⟨(all.map fun position => if position = [] then "/" else pointer position).take limit,
        limit < all.length⟩ ∧
    (((differencePaths limit left right).paths = [] ∧
      (differencePaths limit left right).truncated = false) ↔ Same left right) := by
  have hpointer : ∀ position : List Step, (if pointer position = "" then "/" else pointer position) =
      if position = [] then "/" else pointer position := by
    intro position
    have hempty : pointer position = "" ↔ position = [] := by
      cases position with
      | nil => simp [pointer]
      | cons step rest =>
          cases step <;>
            simp [pointer, ← String.toList_inj]
    simp only [hempty]
  have hfound : differencePaths limit left right =
      ⟨((differences left right).map fun position =>
        if position = [] then "/" else pointer position).take limit,
          limit < (differences left right).length⟩ := by
    have hfull : Full limit ⟨[], false⟩ := fun h => by cases h
    rw [differencePaths, visit_eq left right "" hfull, foldl_add _ _ (Nat.zero_le _) rfl]
    simp only [pathsBelow, String.empty_append, List.nil_append, List.map_map, List.length_nil,
      List.length_map, Nat.zero_add, Function.comp_def, hpointer]
  refine ⟨mem_differences left right, pairwise_differences left right, hfound, ?_⟩
  rw [hfound, same_iff_differences, List.take_eq_nil_iff, List.map_eq_nil_iff,
    decide_eq_false_iff_not]
  constructor
  · rintro ⟨hzero | hnone, hlength⟩
    · exact List.length_eq_zero_iff.mp (by omega)
    · exact hnone
  · intro hnone
    exact ⟨.inr hnone, by simp [hnone]⟩

end Pollard.Revalidation
