import Pollard.Errors
import Pollard.Lib.Binary64
import Pollard.Lib.Dict
import Mathlib.Data.List.Sort
import Mathlib.Data.String.Basic

/-!
# Python values

The values payloads, results and metadata are made of.  A float is its exact
value.  `surrogates` is a string with a lone surrogate, by its code points: it has no
UTF-8 form.  `foreign` stands for an object `json` cannot encode, by its type name; a
float that is not finite is one, and a dictionary with a key that is not a string with
a UTF-8 form.
-/

namespace Pollard

open Lib

inductive Value where
  | none
  | bool (b : Bool)
  | int (n : ℤ)
  | float (q : ℚ)
  | str (s : String)
  | surrogates (codePoints : List ℕ)
  | list (items : List Value)
  | dict (entries : List (String × Value))
  | foreign (typeName : String)

namespace Value

/-! ## Equality -/

mutual

def beq : Value → Value → Bool
  | .none, .none => true
  | .bool a, .bool b => a = b
  | .int a, .int b => a = b
  | .float a, .float b => a = b
  | .str a, .str b => a = b
  | .surrogates a, .surrogates b => a = b
  | .list a, .list b => beqItems a b
  | .dict a, .dict b => beqEntries a b
  | .foreign a, .foreign b => a = b
  | _, _ => false

def beqItems : List Value → List Value → Bool
  | [], [] => true
  | a :: as, b :: bs => beq a b && beqItems as bs
  | _, _ => false

def beqEntries : List (String × Value) → List (String × Value) → Bool
  | [], [] => true
  | (k, a) :: as, (l, b) :: bs => k = l && beq a b && beqEntries as bs
  | _, _ => false

end

mutual

theorem beq_iff : ∀ a b : Value, beq a b = true ↔ a = b
  | .none, b => by cases b <;> simp [beq]
  | .bool _, b => by cases b <;> simp [beq]
  | .int _, b => by cases b <;> simp [beq]
  | .float _, b => by cases b <;> simp [beq]
  | .str _, b => by cases b <;> simp [beq]
  | .surrogates _, b => by cases b <;> simp [beq]
  | .foreign _, b => by cases b <;> simp [beq]
  | .list as, b => by
      cases b with
      | list bs => simp [beq, beqItems_iff as bs]
      | _ => simp [beq]
  | .dict as, b => by
      cases b with
      | dict bs => simp [beq, beqEntries_iff as bs]
      | _ => simp [beq]

theorem beqItems_iff : ∀ as bs : List Value, beqItems as bs = true ↔ as = bs
  | [], bs => by cases bs <;> simp [beqItems]
  | a :: as, bs => by
      cases bs with
      | nil => simp [beqItems]
      | cons b bs => simp [beqItems, beq_iff a b, beqItems_iff as bs]

theorem beqEntries_iff :
    ∀ as bs : List (String × Value), beqEntries as bs = true ↔ as = bs
  | [], bs => by cases bs <;> simp [beqEntries]
  | (k, a) :: as, bs => by
      cases bs with
      | nil => simp [beqEntries]
      | cons b bs =>
          obtain ⟨l, b⟩ := b
          simp [beqEntries, beq_iff a b, beqEntries_iff as bs]

end

instance : DecidableEq Value := fun a b => decidable_of_iff _ (beq_iff a b)

instance : Inhabited Value := ⟨.none⟩

/-! ## Identity values -/

mutual

/-- `_validate_identity_value` -/
def validateIdentityValue : Value → String → Except PyError Unit
  | .none, _ => .ok ()
  | .bool _, _ => .ok ()
  | .int _, _ => .ok ()
  | .str _, _ => .ok ()
  | .surrogates _, _ => .ok ()
  | .float _, path =>
      .error (.typeError s!"floats are not allowed in identity payloads at {path}")
  | .list items, path => validateIdentityItems items path 0
  | .dict entries, path => validateIdentityEntries entries path
  | .foreign typeName, path =>
      if typeName = "bytes" then
        .error (.typeError s!"bytes are not allowed in identity payloads at {path}")
      else .error (.typeError s!"unsupported identity value {typeName} at {path}")

def validateIdentityItems : List Value → String → ℕ → Except PyError Unit
  | [], _, _ => .ok ()
  | item :: items, path, index => do
      validateIdentityValue item s!"{path}[{index}]"
      validateIdentityItems items path (index + 1)

def validateIdentityEntries : List (String × Value) → String → Except PyError Unit
  | [], _ => .ok ()
  | (key, value) :: entries, path => do
      validateIdentityValue value s!"{path}.{key}"
      validateIdentityEntries entries path

end

mutual

/-- A value with the keys of its dictionaries in the order of the canonical text. -/
def canonical : Value → Value
  | .list items => .list (canonicalItems items)
  | .dict entries =>
      .dict ((canonicalEntries entries).insertionSort fun a b => a.1 ≤ b.1)
  | value => value

def canonicalItems : List Value → List Value
  | [] => []
  | item :: items => canonical item :: canonicalItems items

def canonicalEntries : List (String × Value) → List (String × Value)
  | [] => []
  | (key, value) :: entries => (key, canonical value) :: canonicalEntries entries

end

mutual

/-- The values an identity payload is made of. -/
def isIdentity : Value → Bool
  | .float _ => false
  | .surrogates _ => false
  | .foreign _ => false
  | .list items => isIdentityItems items
  | .dict entries => isIdentityEntries entries
  | _ => true

def isIdentityItems : List Value → Bool
  | [] => true
  | item :: items => isIdentity item && isIdentityItems items

def isIdentityEntries : List (String × Value) → Bool
  | [] => true
  | (_, value) :: entries => isIdentity value && isIdentityEntries entries

end

/-- `canonical_bytes`, which raises on a value that is no identity value and on a string
without a UTF-8 form.  The canonical value stands for its bytes. -/
def canonicalBytes (value : Value) : Except PyError Value :=
  (validateIdentityValue value "$").bind fun _ =>
    if value.isIdentity then .ok value.canonical else .error .unicodeEncodeError

mutual

theorem validateIdentityValue_ok : ∀ (value : Value) (path : String),
    isIdentity value = true → validateIdentityValue value path = .ok ()
  | .none, _, _ | .bool _, _, _ | .int _, _, _ | .str _, _, _ => by simp [validateIdentityValue]
  | .list items, path, h => by
      rw [validateIdentityValue]
      exact validateIdentityItems_ok items path 0 h
  | .dict entries, path, h => by
      rw [validateIdentityValue]
      exact validateIdentityEntries_ok entries path h

theorem validateIdentityItems_ok : ∀ (items : List Value) (path : String) (index : ℕ),
    isIdentityItems items = true → validateIdentityItems items path index = .ok ()
  | [], _, _, _ => by simp [validateIdentityItems]
  | item :: items, path, index, h => by
      rw [isIdentityItems, Bool.and_eq_true] at h
      rw [validateIdentityItems, validateIdentityValue_ok item _ h.1]
      exact validateIdentityItems_ok items path (index + 1) h.2

theorem validateIdentityEntries_ok : ∀ (entries : List (String × Value)) (path : String),
    isIdentityEntries entries = true → validateIdentityEntries entries path = .ok ()
  | [], _, _ => by simp [validateIdentityEntries]
  | (key, value) :: entries, path, h => by
      rw [isIdentityEntries, Bool.and_eq_true] at h
      rw [validateIdentityEntries, validateIdentityValue_ok value _ h.1]
      exact validateIdentityEntries_ok entries path h.2

end

theorem isIdentityEntries_eq_all (entries : List (String × Value)) :
    isIdentityEntries entries = entries.all fun e => isIdentity e.2 := by
  induction entries with
  | nil => rfl
  | cons e entries ih => rw [isIdentityEntries, ih, List.all_cons]

mutual

theorem isIdentity_canonical : ∀ value : Value, isIdentity value.canonical = isIdentity value
  | .none | .bool _ | .int _ | .str _ | .surrogates _ | .float _ | .foreign _ => rfl
  | .list items => by
      rw [canonical, isIdentity, isIdentity]
      exact isIdentityItems_canonical items
  | .dict entries => by
      rw [canonical, isIdentity, isIdentity, ← isIdentityEntries_canonical entries,
        isIdentityEntries_eq_all, isIdentityEntries_eq_all]
      exact (List.perm_insertionSort _ _).all_eq

theorem isIdentityItems_canonical : ∀ items : List Value,
    isIdentityItems (canonicalItems items) = isIdentityItems items
  | [] => rfl
  | item :: items => by
      rw [canonicalItems, isIdentityItems, isIdentityItems, isIdentity_canonical item,
        isIdentityItems_canonical items]

theorem isIdentityEntries_canonical : ∀ entries : List (String × Value),
    isIdentityEntries (canonicalEntries entries) = isIdentityEntries entries
  | [] => rfl
  | (key, value) :: entries => by
      rw [canonicalEntries, isIdentityEntries, isIdentityEntries, isIdentity_canonical value,
        isIdentityEntries_canonical entries]

end

theorem canonicalEntries_eq_map (entries : List (String × Value)) :
    canonicalEntries entries = entries.map fun e => (e.1, e.2.canonical) := by
  induction entries with
  | nil => rfl
  | cons e entries ih => rw [canonicalEntries, ih, List.map_cons]

theorem insertionSort_keys_idem (entries : List (String × Value)) :
    (entries.insertionSort fun a b => a.1 ≤ b.1).insertionSort (fun a b => a.1 ≤ b.1) =
      entries.insertionSort fun a b => a.1 ≤ b.1 := by
  have : Std.Total fun a b : String × Value => a.1 ≤ b.1 := ⟨fun a b => le_total a.1 b.1⟩
  have : IsTrans (String × Value) fun a b => a.1 ≤ b.1 := ⟨fun _ _ _ => le_trans⟩
  exact (List.pairwise_insertionSort _ entries).insertionSort_eq

mutual

/-- A canonical value is its own canonical form. -/
theorem canonical_canonical : ∀ value : Value, value.canonical.canonical = value.canonical
  | .none | .bool _ | .int _ | .str _ | .surrogates _ | .float _ | .foreign _ => rfl
  | .list items => by
      rw [canonical, canonical]
      exact congrArg _ (canonicalItems_canonicalItems items)
  | .dict entries => by
      have hsort : canonicalEntries ((canonicalEntries entries).insertionSort
          fun a b => a.1 ≤ b.1) =
            (canonicalEntries entries).insertionSort fun a b => a.1 ≤ b.1 := by
        have hmap := List.map_insertionSort (fun a b : String × Value => a.1 ≤ b.1)
          (fun a b : String × Value => a.1 ≤ b.1) (fun e => (e.1, e.2.canonical))
          (canonicalEntries entries) fun _ _ _ _ => Iff.rfl
        rw [canonicalEntries_eq_map, hmap, ← canonicalEntries_eq_map,
          canonicalEntries_canonicalEntries entries]
      rw [canonical, canonical, hsort, insertionSort_keys_idem]

theorem canonicalItems_canonicalItems : ∀ items : List Value,
    canonicalItems (canonicalItems items) = canonicalItems items
  | [] => rfl
  | item :: items => by
      rw [canonicalItems, canonicalItems, canonical_canonical item,
        canonicalItems_canonicalItems items]

theorem canonicalEntries_canonicalEntries : ∀ entries : List (String × Value),
    canonicalEntries (canonicalEntries entries) = canonicalEntries entries
  | [] => rfl
  | (key, value) :: entries => by
      rw [canonicalEntries, canonicalEntries, canonical_canonical value,
        canonicalEntries_canonicalEntries entries]

end

theorem canonicalBytes_ok {value : Value} (h : isIdentity value = true) :
    value.canonicalBytes = .ok value.canonical := by
  rw [canonicalBytes, validateIdentityValue_ok value "$" h]
  exact if_pos h

theorem isIdentity_of_canonicalBytes {value bytes : Value}
    (h : value.canonicalBytes = .ok bytes) :
    bytes = value.canonical ∧ isIdentity bytes = true := by
  unfold canonicalBytes at h
  cases hvalid : validateIdentityValue value "$" with
  | error e =>
      rw [hvalid] at h
      cases h
  | ok u =>
      rw [hvalid] at h
      simp only [Except.bind] at h
      split at h
      · next hidentity =>
          cases h
          exact ⟨rfl, by rw [isIdentity_canonical, hidentity]⟩
      · cases h

/-! ## JSON values -/

mutual

/-- The value has a JSON text, and the text a UTF-8 form. -/
def isJson : Value → Bool
  | .surrogates _ => false
  | .foreign _ => false
  | .list items => isJsonItems items
  | .dict entries => isJsonEntries entries
  | _ => true

def isJsonItems : List Value → Bool
  | [] => true
  | item :: items => isJson item && isJsonItems items

def isJsonEntries : List (String × Value) → Bool
  | [] => true
  | (_, value) :: entries => isJson value && isJsonEntries entries

end

/-- `value.get(key)` on a dictionary. -/
def get? : Value → String → Option Value
  | .dict entries, key => Assoc.lookup entries key
  | _, _ => Option.none

def isDict : Value → Bool
  | .dict _ => true
  | _ => false

def isStr : Value → Bool
  | .str _ => true
  | .surrogates _ => true
  | _ => false

theorem isIdentity_list {items : List Value} :
    (list items).isIdentity = true ↔ ∀ item ∈ items, item.isIdentity = true := by
  rw [isIdentity]
  induction items with
  | nil => simp [isIdentityItems]
  | cons item items ih => simp [isIdentityItems, ih]

theorem isIdentity_dict {entries : List (String × Value)} :
    (dict entries).isIdentity = true ↔ ∀ e ∈ entries, e.2.isIdentity = true := by
  rw [isIdentity, isIdentityEntries_eq_all, List.all_eq_true]

theorem isIdentity_get? {value entry : Value} {key : String} (h : value.isIdentity = true)
    (hget : value.get? key = some entry) : entry.isIdentity = true := by
  cases value with
  | dict entries => exact isIdentity_dict.mp h _ (Assoc.mem_of_lookup hget)
  | _ => cases hget

theorem sizeOf_lookup_lt {entries : List (String × Value)} {key : String} {value : Value}
    (h : Assoc.lookup entries key = some value) : sizeOf value < sizeOf entries := by
  induction entries with
  | nil => cases h
  | cons e entries ih =>
      obtain ⟨k, v⟩ := e
      rw [Assoc.lookup] at h
      split at h
      · cases h
        simp only [List.cons.sizeOf_spec, Prod.mk.sizeOf_spec]
        omega
      · have hrest := ih h
        simp only [List.cons.sizeOf_spec]
        omega

theorem sizeOf_get?_lt {value entry : Value} {key : String}
    (h : value.get? key = some entry) : sizeOf entry < sizeOf value := by
  cases value with
  | dict entries =>
      have hentries := sizeOf_lookup_lt h
      rw [dict.sizeOf_spec]
      omega
  | _ => cases h

/-! ## Stream values -/

/-- Two strings one after the other, `none` for what is not two strings. -/
def joined : Value → Value → Option Value
  | .str a, .str b => some (.str (a ++ b))
  | .str a, .surrogates b => some (.surrogates (a.toList.map Char.toNat ++ b))
  | .surrogates a, .str b => some (.surrogates (a ++ b.toList.map Char.toNat))
  | .surrogates a, .surrogates b => some (.surrogates (a ++ b))
  | _, _ => Option.none

mutual

/-- What a target becomes when a delta is merged into it. -/
def mergeInto : Option Value → Value → Value
  | some (.dict current), .dict delta => .dict (mergeStreamValue current delta)
  | some (.list current), .list value => .list (current ++ value)
  | some current, value => (current.joined value).getD value
  | Option.none, value => value

/-- `_merge_stream_value` -/
def mergeStreamValue (target : List (String × Value)) :
    List (String × Value) → List (String × Value)
  | [] => target
  | (key, value) :: delta =>
      mergeStreamValue
        (Assoc.upsert target key (mergeInto (Assoc.lookup target key) value)) delta

end

/-! ## Texts -/

mutual

/-- A readable text of a value. -/
def text : Value → String
  | .none => "null"
  | .bool b => toString b
  | .int n => toString n
  | .float q => toString q
  | .str s => s
  | .surrogates codePoints => toString codePoints
  | .list items => "[" ++ textItems items ++ "]"
  | .dict entries => "(" ++ textEntries entries ++ ")"
  | .foreign typeName => typeName

def textItems : List Value → String
  | [] => ""
  | item :: items => text item ++ "," ++ textItems items

def textEntries : List (String × Value) → String
  | [] => ""
  | (key, value) :: entries => key ++ "=" ++ text value ++ "," ++ textEntries entries

end

end Value

/-! ## Orders -/

/-- `sorted(d.items())`. -/
def sortedItems {υ : Type} (d : Dict String υ) : List (String × υ) :=
  d.entries.insertionSort fun a b => a.1 ≤ b.1

/-- Python's order on pairs of strings. -/
def PairLE (a b : String × String) : Prop := a.1 < b.1 ∨ a.1 = b.1 ∧ a.2 ≤ b.2

instance (a b : String × String) : Decidable (PairLE a b) :=
  inferInstanceAs (Decidable (_ ∨ _ ∧ _))

namespace PairLE

theorem total (a b : String × String) : PairLE a b ∨ PairLE b a := by
  rcases lt_trichotomy a.1 b.1 with h | h | h
  · exact .inl (.inl h)
  · rcases le_total a.2 b.2 with h' | h'
    · exact .inl (.inr ⟨h, h'⟩)
    · exact .inr (.inr ⟨h.symm, h'⟩)
  · exact .inr (.inl h)

theorem trans {a b c : String × String} (hab : PairLE a b) (hbc : PairLE b c) : PairLE a c := by
  rcases hab with h | ⟨h, hle⟩ <;> rcases hbc with h' | ⟨h', hle'⟩
  · exact .inl (h.trans h')
  · exact .inl (h' ▸ h)
  · exact .inl (h ▸ h')
  · exact .inr ⟨h.trans h', hle.trans hle'⟩

theorem antisymm {a b : String × String} (hab : PairLE a b) (hba : PairLE b a) : a = b := by
  rcases hab with h | ⟨h, hle⟩ <;> rcases hba with h' | ⟨h', hle'⟩
  · exact absurd h' (lt_asymm h)
  · exact absurd h (h' ▸ lt_irrefl _)
  · exact absurd h' (h ▸ lt_irrefl _)
  · exact Prod.ext h (le_antisymm hle hle')

end PairLE

/-- Sorting looks only at how the elements compare. -/
theorem insertionSort_congr {α : Type} {r r' : α → α → Prop} [DecidableRel r] [DecidableRel r']
    {l : List α} (h : ∀ a ∈ l, ∀ b ∈ l, r a b ↔ r' a b) :
    l.insertionSort r = l.insertionSort r' := by
  induction l with
  | nil => rfl
  | cons a l ih =>
      have hrest := ih fun b hb c hc =>
        h b (List.mem_cons_of_mem _ hb) c (List.mem_cons_of_mem _ hc)
      rw [List.insertionSort_cons, List.insertionSort_cons, hrest]
      have hfirst : ∀ b ∈ l.insertionSort r', (r a b ↔ r' a b) := fun b hb =>
        h a List.mem_cons_self b (List.mem_cons_of_mem _ ((List.mem_insertionSort r').mp hb))
      generalize l.insertionSort r' = sorted at hfirst
      induction sorted with
      | nil => rfl
      | cons b sorted ihs =>
          rw [List.forall_mem_cons] at hfirst
          rw [List.orderedInsert, List.orderedInsert, ihs hfirst.2]
          simp only [hfirst.1]

/-- Sorting by keys that tell the elements apart depends on the elements only. -/
theorem insertionSort_eq_of_perm {α : Type} {key : α → String × String} {as bs : List α}
    (hkey : ∀ a ∈ as, ∀ b ∈ as, key a = key b → a = b) (h : as.Perm bs) :
    (as.insertionSort fun a b => PairLE (key a) (key b)) =
      bs.insertionSort fun a b => PairLE (key a) (key b) := by
  have : Std.Total fun a b : α => PairLE (key a) (key b) := ⟨fun a b => PairLE.total _ _⟩
  have : IsTrans α fun a b => PairLE (key a) (key b) := ⟨fun _ _ _ => PairLE.trans⟩
  have hperm := ((List.perm_insertionSort (fun a b => PairLE (key a) (key b)) as).trans h).trans
    (List.perm_insertionSort (fun a b => PairLE (key a) (key b)) bs).symm
  refine hperm.eq_of_pairwise (fun a b ha hb hab hba => ?_)
    (List.pairwise_insertionSort _ as) (List.pairwise_insertionSort _ bs)
  have ha' := (List.mem_insertionSort _).mp ha
  have hb' := h.symm.subset ((List.mem_insertionSort _).mp hb)
  exact hkey a ha' b hb' (PairLE.antisymm hab hba)

end Pollard
