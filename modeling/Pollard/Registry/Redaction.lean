import Pollard.Registry.Schema

/-!
# Redaction

What an action leaves of its arguments in the audit trail: the strings its schema marks
`sensitive` are replaced by markers that carry their digests.
-/

namespace Pollard

open Lib

/-- `REDACTION_KEY` -/
def redactionKey : String := "__pollard_redacted"

namespace Schema

theorem sizeOf_filter_le (keep : Value → Bool) (values : List Value) :
    sizeOf (values.filter keep) ≤ sizeOf values := by
  induction values with
  | nil => exact le_refl _
  | cons value values ih =>
      rw [List.filter_cons]
      split <;> simp only [List.cons.sizeOf_spec] <;> omega

/-- The branches a value matches. -/
def matchingBranches (value : Value) : List Value → Except PyError (List Value)
  | [] => .ok []
  | branch :: rest => do
      let finding ← validateValue value branch "$"
      let matching ← matchingBranches value rest
      return if finding.isNone then branch :: matching else matching

theorem sizeOf_matchingBranches_le {value : Value} {branches matching : List Value}
    (h : matchingBranches value branches = .ok matching) : sizeOf matching ≤ sizeOf branches := by
  induction branches generalizing matching with
  | nil =>
      cases h
      exact le_refl _
  | cons branch rest ih =>
      rw [matchingBranches] at h
      cases hfinding : validateValue value branch "$" with
      | error error =>
          rw [hfinding] at h
          cases h
      | ok finding =>
          cases hrest : matchingBranches value rest with
          | error error =>
              rw [hfinding, hrest] at h
              cases h
          | ok others =>
              rw [hfinding, hrest] at h
              cases h
              have hsize := ih hrest
              split <;> simp only [List.cons.sizeOf_spec] <;> omega

theorem mem_of_mem_matchingBranches {value branch : Value} {branches matching : List Value}
    (h : matchingBranches value branches = .ok matching) (hmem : branch ∈ matching) :
    branch ∈ branches := by
  induction branches generalizing matching with
  | nil =>
      cases h
      exact hmem
  | cons first rest ih =>
      rw [matchingBranches] at h
      cases hfinding : validateValue value first "$" with
      | error error =>
          rw [hfinding] at h
          cases h
      | ok finding =>
          cases hrest : matchingBranches value rest with
          | error error =>
              rw [hfinding, hrest] at h
              cases h
          | ok others =>
              rw [hfinding, hrest] at h
              cases h
              split at hmem
              · rcases List.mem_cons.mp hmem with rfl | hmem
                · exact List.mem_cons_self
                · exact List.mem_cons_of_mem _ (ih hrest hmem)
              · exact List.mem_cons_of_mem _ (ih hrest hmem)

variable (H : Hashing)

/-- `redact` -/
def redact (value : Value) : Except PyError Value :=
  value.canonicalBytes.map fun bytes =>
    .dict [(redactionKey, .str (H.redaction bytes)), ("hint", .none)]

mutual

/-- `_redact_sensitive` -/
def redactSensitive (value schema : Value) : Except PyError Value :=
  if schema.get? "sensitive" = some (.bool true) ∧ value.isStr then redact H value
  else
    let alternatives : Except PyError Value := match _h : schema.get? "anyOf" with
      | some (.list anyOf) =>
          let branches := anyOf.filter Value.isDict
          match _hmatching : matchingBranches value branches with
          | .error error => .error error
          | .ok matching => redactBranches value (if matching = [] then branches else matching)
      | _ => .ok value
    alternatives.bind fun value =>
      match value with
      | .dict entries =>
          match _h : schema.get? "properties" with
          | some (.dict properties) => (redactProperties entries properties).map .dict
          | _ => .ok (.dict entries)
      | .list items =>
          match _h : schema.get? "items" with
          | some itemSchema =>
              if itemSchema.isDict then
                (items.mapM fun item => redactSensitive item itemSchema).map .list
              else .ok (.list items)
          | none => .ok (.list items)
      | value => .ok value
termination_by sizeOf schema
decreasing_by
  · have hsize := Value.sizeOf_get?_lt _h
    have hbranches := sizeOf_filter_le Value.isDict anyOf
    rw [Value.list.sizeOf_spec] at hsize
    split
    · omega
    · have hmatched : sizeOf matching ≤ sizeOf (anyOf.filter Value.isDict) :=
        sizeOf_matchingBranches_le _hmatching
      omega
  · have hsize := Value.sizeOf_get?_lt _h
    rw [Value.dict.sizeOf_spec] at hsize
    omega
  · exact Value.sizeOf_get?_lt _h

/-- `for branch_schema in matching or branches` -/
def redactBranches (value : Value) (branches : List Value) : Except PyError Value :=
  match branches with
  | [] => .ok value
  | branch :: rest => do
      let value ← redactSensitive value branch
      redactBranches value rest
termination_by sizeOf branches

/-- The loop over the properties of a schema. -/
def redactProperties (result properties : List (String × Value)) :
    Except PyError (List (String × Value)) :=
  match properties with
  | [] => .ok result
  | (name, child) :: rest => do
      let result ← match Assoc.lookup result name with
        | some value =>
            if child.isDict then
              (redactSensitive value child).map fun value => Assoc.upsert result name value
            else .ok result
        | none => .ok result
      redactProperties result rest
termination_by sizeOf properties

end

/-! ## What redaction keeps -/

/-- The value is accepted by a branch. -/
def accepts (branch value : Value) : Bool := validateValue value branch "$" = .ok none

/-- The branches whose redactions apply to a value: those that accept it, or all. -/
def selected (value : Value) (anyOf : List Value) : List Value :=
  let branches := anyOf.filter Value.isDict
  let matching := branches.filter fun branch => accepts branch value
  if matching = [] then branches else matching

/-- The redactions of the alternatives. -/
def redactAlternatives (value schema : Value) : Except PyError Value :=
  match schema.get? "anyOf" with
  | some (.list anyOf) => redactBranches H value (selected value anyOf)
  | _ => .ok value

/-- The redactions of the properties or items. -/
def redactMembers (value schema : Value) : Except PyError Value :=
  match value with
  | .dict entries =>
      match schema.get? "properties" with
      | some (.dict properties) => (redactProperties H entries properties).map .dict
      | _ => .ok (.dict entries)
  | .list items =>
      match schema.get? "items" with
      | some itemSchema =>
          if itemSchema.isDict then
            (items.mapM fun item => redactSensitive H item itemSchema).map .list
          else .ok (.list items)
      | none => .ok (.list items)
  | value => .ok value

theorem redactAlternatives_list {value schema : Value} {anyOf : List Value}
    (h : schema.get? "anyOf" = some (.list anyOf)) :
    redactAlternatives H value schema = redactBranches H value (selected value anyOf) := by
  rw [redactAlternatives, h]

theorem redactAlternatives_other {value schema : Value}
    (h : ∀ anyOf, schema.get? "anyOf" ≠ some (.list anyOf)) :
    redactAlternatives H value schema = .ok value := by
  unfold redactAlternatives
  split
  · next anyOf hanyOf => exact absurd hanyOf (h anyOf)
  · rfl

theorem redactMembers_dict {schema : Value} {entries properties : List (String × Value)}
    (h : schema.get? "properties" = some (.dict properties)) :
    redactMembers H (.dict entries) schema =
      (redactProperties H entries properties).map .dict := by
  rw [redactMembers, h]

theorem redactMembers_other {schema : Value} {entries : List (String × Value)}
    (h : ∀ properties, schema.get? "properties" ≠ some (.dict properties)) :
    redactMembers H (.dict entries) schema = .ok (.dict entries) := by
  unfold redactMembers
  dsimp only
  split
  · next properties hproperties => exact absurd hproperties (h properties)
  · rfl

theorem mem_selected {value branch : Value} {anyOf : List Value}
    (h : branch ∈ selected value anyOf) : branch ∈ anyOf := by
  unfold selected at h
  dsimp only at h
  split at h
  · exact List.mem_of_mem_filter h
  · exact List.mem_of_mem_filter (List.mem_of_mem_filter h)

theorem selected_of_accepts {value branch : Value} {anyOf : List Value} (hmem : branch ∈ anyOf)
    (hdict : branch.isDict = true) (haccepts : accepts branch value = true) :
    branch ∈ selected value anyOf := by
  have hmatching : branch ∈ (anyOf.filter Value.isDict).filter fun b => accepts b value :=
    List.mem_filter.mpr ⟨List.mem_filter.mpr ⟨hmem, hdict⟩, haccepts⟩
  unfold selected
  dsimp only
  rwa [if_neg (List.ne_nil_of_mem hmatching)]

theorem matchingBranches_eq {value : Value} (hvalue : value.isIdentity = true)
    {branches : List Value} (hbranches : ∀ branch ∈ branches, branch.isIdentity = true) :
    matchingBranches value branches = .ok (branches.filter fun branch => accepts branch value) := by
  induction branches with
  | nil => rfl
  | cons branch rest ih =>
      rw [List.forall_mem_cons] at hbranches
      obtain ⟨finding, hfinding⟩ := validateValue_ok hvalue hbranches.1 "$"
      rw [matchingBranches, hfinding, ih hbranches.2]
      simp only [bind, Except.bind, pure, Except.pure, List.filter_cons, accepts, hfinding]
      cases finding <;> simp

/-- The redactions of the alternatives, where matching them may raise. -/
def redactMatching (value schema : Value) : Except PyError Value :=
  match schema.get? "anyOf" with
  | some (.list anyOf) =>
      (matchingBranches value (anyOf.filter Value.isDict)).bind fun matching =>
        redactBranches H value (if matching = [] then anyOf.filter Value.isDict else matching)
  | _ => .ok value

/-- Redaction, the alternatives first. -/
theorem redactSensitive_unfold (value schema : Value) :
    redactSensitive H value schema =
      if schema.get? "sensitive" = some (.bool true) ∧ value.isStr then redact H value
      else (redactMatching H value schema).bind fun value => redactMembers H value schema := by
  rw [redactSensitive.eq_def]
  split
  · rfl
  · refine congrArg₂ Except.bind ?_ ?_
    · unfold redactMatching
      split
      · next anyOf hanyOf =>
          rw [hanyOf]
          dsimp only
          split
          · next error hmatching =>
              rw [hmatching]
              rfl
          · next matching hmatching =>
              rw [hmatching]
              rfl
      · next hother =>
          split
          · next anyOf hanyOf => exact absurd hanyOf (hother anyOf)
          · rfl
    · funext value
      cases value with
      | dict entries =>
          unfold redactMembers
          dsimp only
          split
          · next hproperties => rw [hproperties]
          · next hother =>
              split
              · next properties hproperties => exact absurd hproperties (hother properties)
              · rfl
      | list items =>
          unfold redactMembers
          dsimp only
          split
          · next hitems => rw [hitems]
          · next hitems => rw [hitems]
      | _ => rfl

/-- Redaction of an identity value. -/
theorem redactSensitive_eq {value schema : Value} (hvalue : value.isIdentity = true)
    (hschema : schema.isIdentity = true) :
    redactSensitive H value schema =
      if schema.get? "sensitive" = some (.bool true) ∧ value.isStr then redact H value
      else (redactAlternatives H value schema).bind fun value =>
        redactMembers H value schema := by
  have halternatives : redactMatching H value schema = redactAlternatives H value schema := by
    unfold redactMatching redactAlternatives
    split
    · next anyOf hanyOf =>
        have hbranches : ∀ branch ∈ anyOf.filter Value.isDict, branch.isIdentity = true :=
          fun branch hbranch => Value.isIdentity_list.mp
            (Value.isIdentity_get? hschema hanyOf) branch (List.mem_of_mem_filter hbranch)
        rw [matchingBranches_eq hvalue hbranches]
        rfl
    · rfl
  rw [redactSensitive_unfold, halternatives]

theorem redact_ok {value : Value} (h : value.isIdentity = true) :
    redact H value =
      .ok (.dict [(redactionKey, .str (H.redaction value.canonical)), ("hint", .none)]) := by
  rw [redact, Value.canonicalBytes_ok h]
  rfl

variable {H}

/-- What every branch keeps, the loop over them keeps. -/
theorem redactBranches_keeps {P : Value → Prop} {branches : List Value}
    (h : ∀ branch ∈ branches, ∀ value, P value →
      ∃ redacted, redactSensitive H value branch = .ok redacted ∧ P redacted)
    {value : Value} (hvalue : P value) :
    ∃ redacted, redactBranches H value branches = .ok redacted ∧ P redacted := by
  induction branches generalizing value with
  | nil => exact ⟨value, by rw [redactBranches], hvalue⟩
  | cons branch rest ih =>
      rw [List.forall_mem_cons] at h
      obtain ⟨next, hnext, hkept⟩ := h.1 value hvalue
      rw [redactBranches, hnext]
      exact ih h.2 hkept

theorem redactAlternatives_keeps {P : Value → Prop} {schema : Value}
    (hschema : schema.isIdentity = true)
    (h : ∀ child, sizeOf child < sizeOf schema → child.isIdentity = true → ∀ value, P value →
      ∃ redacted, redactSensitive H value child = .ok redacted ∧ P redacted)
    {value : Value} (hvalue : P value) :
    ∃ redacted, redactAlternatives H value schema = .ok redacted ∧ P redacted := by
  unfold redactAlternatives
  split
  · next anyOf hanyOf =>
      have hsize := Value.sizeOf_get?_lt hanyOf
      have hidentity := Value.isIdentity_list.mp (Value.isIdentity_get? hschema hanyOf)
      refine redactBranches_keeps (fun branch hbranch => ?_) hvalue
      have hmem := mem_selected hbranch
      have hsmall := List.sizeOf_lt_of_mem hmem
      rw [Value.list.sizeOf_spec] at hsize
      exact h branch (by omega) (hidentity branch hmem)
  · exact ⟨value, rfl, hvalue⟩

theorem redactProperties_keeps {P : List (String × Value) → Prop}
    {properties : List (String × Value)}
    (h : ∀ e ∈ properties, ∀ result value, P result → Assoc.lookup result e.1 = some value →
      ∃ redacted, redactSensitive H value e.2 = .ok redacted ∧
        P (Assoc.upsert result e.1 redacted))
    {result : List (String × Value)} (hresult : P result) :
    ∃ after, redactProperties H result properties = .ok after ∧ P after := by
  induction properties generalizing result with
  | nil => exact ⟨result, by rw [redactProperties], hresult⟩
  | cons e rest ih =>
      obtain ⟨name, child⟩ := e
      rw [List.forall_mem_cons] at h
      rw [redactProperties]
      cases hlookup : Assoc.lookup result name with
      | none => exact ih h.2 hresult
      | some value =>
          dsimp only
          split
          · obtain ⟨redacted, hredacted, hkept⟩ := h.1 result value hresult hlookup
            rw [hredacted]
            exact ih h.2 hkept
          · exact ih h.2 hresult

theorem mapM_ok {α β : Type} {f : α → Except PyError β} {R : α → β → Prop} {items : List α}
    (h : ∀ item ∈ items, ∃ redacted, f item = .ok redacted ∧ R item redacted) :
    ∃ redacted, items.mapM f = .ok redacted ∧ List.Forall₂ R items redacted := by
  induction items with
  | nil => exact ⟨[], rfl, .nil⟩
  | cons item items ih =>
      rw [List.forall_mem_cons] at h
      obtain ⟨first, hfirst, hitem⟩ := h.1
      obtain ⟨rest, hrest, hitems⟩ := ih h.2
      exact ⟨first :: rest, by rw [List.mapM_cons, hfirst, hrest]; rfl, .cons hitem hitems⟩

theorem isIdentity_upsert {entries : List (String × Value)} {key : String} {value : Value}
    (hentries : (Value.dict entries).isIdentity = true) (hvalue : value.isIdentity = true) :
    (Value.dict (Assoc.upsert entries key value)).isIdentity = true := by
  rw [Value.isIdentity_dict] at hentries ⊢
  intro e he
  rcases Assoc.mem_of_mem_upsert he with rfl | he
  · exact hvalue
  · exact hentries e he

theorem redactMembers_ok {value schema : Value} (hschema : schema.isIdentity = true)
    (h : ∀ child, sizeOf child < sizeOf schema → child.isIdentity = true →
      ∀ value : Value, value.isIdentity = true →
        ∃ redacted, redactSensitive H value child = .ok redacted ∧ redacted.isIdentity = true)
    (hvalue : value.isIdentity = true) :
    ∃ redacted, redactMembers H value schema = .ok redacted ∧ redacted.isIdentity = true := by
  unfold redactMembers
  split
  · next entries =>
      split
      · next properties hproperties =>
          have hsize := Value.sizeOf_get?_lt hproperties
          have hidentity := Value.isIdentity_dict.mp (Value.isIdentity_get? hschema hproperties)
          have hprops : ∀ e ∈ properties, ∀ result value, (Value.dict result).isIdentity = true →
              Assoc.lookup result e.1 = some value → ∃ redacted,
                redactSensitive H value e.2 = .ok redacted ∧
                  (Value.dict (Assoc.upsert result e.1 redacted)).isIdentity = true := by
            intro e he result value hresult hlookup
            have hsmall := List.sizeOf_lt_of_mem he
            rw [Value.dict.sizeOf_spec] at hsize
            obtain ⟨redacted, hredacted, hkept⟩ := h e.2
              (by cases e; simp at hsmall ⊢; omega) (hidentity e he) value
              (Value.isIdentity_dict.mp hresult _ (Assoc.mem_of_lookup hlookup))
            exact ⟨redacted, hredacted, isIdentity_upsert hresult hkept⟩
          obtain ⟨after, hafter, hkept⟩ := redactProperties_keeps
            (P := fun result => (Value.dict result).isIdentity = true) hprops hvalue
          exact ⟨.dict after, by rw [hafter]; rfl, hkept⟩
      · exact ⟨_, rfl, hvalue⟩
  · next items =>
      split
      · next itemSchema hitems =>
          split
          · have hsmall := Value.sizeOf_get?_lt hitems
            have hidentity := Value.isIdentity_get? hschema hitems
            obtain ⟨redacted, hredacted, hkept⟩ := mapM_ok
              (f := fun item => redactSensitive H item itemSchema)
              (R := fun _ redacted => redacted.isIdentity = true) fun item hitem =>
                h itemSchema hsmall hidentity item (Value.isIdentity_list.mp hvalue item hitem)
            refine ⟨.list redacted, by rw [hredacted]; rfl, Value.isIdentity_list.mpr ?_⟩
            clear hredacted
            clear hvalue
            induction hkept with
            | nil => exact nofun
            | cons hfirst _ ih =>
                exact List.forall_mem_cons.mpr ⟨hfirst, ih⟩
          · exact ⟨_, rfl, hvalue⟩
      · exact ⟨_, rfl, hvalue⟩
  · exact ⟨_, rfl, hvalue⟩

/-- Redaction of an identity value is an identity value. -/
theorem redactSensitive_ok {value schema : Value} (hvalue : value.isIdentity = true)
    (hschema : schema.isIdentity = true) :
    ∃ redacted, redactSensitive H value schema = .ok redacted ∧ redacted.isIdentity = true := by
  induction hsize : sizeOf schema using Nat.strong_induction_on generalizing value schema with
  | _ size ih =>
    subst hsize
    have hchild : ∀ child, sizeOf child < sizeOf schema → child.isIdentity = true →
        ∀ value : Value, value.isIdentity = true → ∃ redacted,
          redactSensitive H value child = .ok redacted ∧ redacted.isIdentity = true :=
      fun child hsmall hidentity value hvalue => ih _ hsmall hvalue hidentity rfl
    rw [redactSensitive_eq H hvalue hschema]
    split
    · exact ⟨_, redact_ok H hvalue, rfl⟩
    · obtain ⟨next, hnext, hidentity⟩ := redactAlternatives_keeps hschema hchild hvalue
      rw [hnext]
      exact redactMembers_ok hschema hchild hidentity

/-! ## What cannot be redacted -/

theorem isIdentity_of_upsert {entries : List (String × Value)} {key : String}
    {value redacted : Value} (hlookup : Assoc.lookup entries key = some value)
    (hvalue : redacted.isIdentity = true → value.isIdentity = true)
    (h : (Value.dict (Assoc.upsert entries key redacted)).isIdentity = true) :
    (Value.dict entries).isIdentity = true := by
  rw [Value.isIdentity_dict] at h ⊢
  induction entries with
  | nil => cases hlookup
  | cons e entries ih =>
      obtain ⟨k, v⟩ := e
      rw [Assoc.lookup] at hlookup
      rw [Assoc.upsert] at h
      split at hlookup
      · next hk =>
          cases hlookup
          rw [if_pos hk, List.forall_mem_cons] at h
          exact List.forall_mem_cons.mpr ⟨hvalue h.1, h.2⟩
      · next hk =>
          rw [if_neg hk, List.forall_mem_cons] at h
          exact List.forall_mem_cons.mpr ⟨h.1, ih hlookup h.2⟩

/-- What redacts to an identity value is one. -/
def Reflects (H : Hashing) (schema : Value) : Prop :=
  ∀ value redacted, redactSensitive H value schema = .ok redacted →
    redacted.isIdentity = true → value.isIdentity = true

theorem isIdentity_of_redactBranches {branches : List Value}
    (h : ∀ branch ∈ branches, Reflects H branch) {value redacted : Value}
    (hredacted : redactBranches H value branches = .ok redacted)
    (hidentity : redacted.isIdentity = true) : value.isIdentity = true := by
  induction branches generalizing value with
  | nil =>
      rw [redactBranches] at hredacted
      cases hredacted
      exact hidentity
  | cons branch rest ih =>
      rw [List.forall_mem_cons] at h
      rw [redactBranches] at hredacted
      cases hnext : redactSensitive H value branch with
      | error e =>
          rw [hnext] at hredacted
          cases hredacted
      | ok next =>
          rw [hnext] at hredacted
          exact h.1 value next hnext (ih h.2 hredacted)

theorem isIdentity_of_redactProperties {properties : List (String × Value)}
    (h : ∀ e ∈ properties, Reflects H e.2) {result after : List (String × Value)}
    (hafter : redactProperties H result properties = .ok after)
    (hidentity : (Value.dict after).isIdentity = true) :
    (Value.dict result).isIdentity = true := by
  induction properties generalizing result with
  | nil =>
      rw [redactProperties] at hafter
      cases hafter
      exact hidentity
  | cons e rest ih =>
      obtain ⟨name, child⟩ := e
      rw [List.forall_mem_cons] at h
      rw [redactProperties] at hafter
      cases hlookup : Assoc.lookup result name with
      | none =>
          rw [hlookup] at hafter
          exact ih h.2 hafter
      | some value =>
          rw [hlookup] at hafter
          dsimp only at hafter
          split at hafter
          · cases hredacted : redactSensitive H value child with
            | error e =>
                rw [hredacted] at hafter
                cases hafter
            | ok redacted =>
                rw [hredacted] at hafter
                exact isIdentity_of_upsert hlookup (h.1 value redacted hredacted)
                  (ih h.2 hafter)
          · exact ih h.2 hafter

theorem isIdentity_of_redactItems {itemSchema : Value} (h : Reflects H itemSchema)
    {items redacted : List Value}
    (hredacted : items.mapM (fun item => redactSensitive H item itemSchema) = .ok redacted)
    (hidentity : (Value.list redacted).isIdentity = true) :
    (Value.list items).isIdentity = true := by
  rw [Value.isIdentity_list] at hidentity ⊢
  induction items generalizing redacted with
  | nil => exact nofun
  | cons item items ih =>
      rw [List.mapM_cons] at hredacted
      cases hitem : redactSensitive H item itemSchema with
      | error e =>
          rw [hitem] at hredacted
          cases hredacted
      | ok first =>
          cases hitems : items.mapM (fun item => redactSensitive H item itemSchema) with
          | error e =>
              rw [hitem, hitems] at hredacted
              cases hredacted
          | ok rest =>
              rw [hitem, hitems] at hredacted
              cases hredacted
              rw [List.forall_mem_cons] at hidentity
              exact List.forall_mem_cons.mpr ⟨h item first hitem hidentity.1,
                ih hitems hidentity.2⟩

theorem isIdentity_of_redactMembers {schema : Value}
    (h : ∀ child : Value, sizeOf child < sizeOf schema → Reflects H child)
    {value redacted : Value} (hredacted : redactMembers H value schema = .ok redacted)
    (hidentity : redacted.isIdentity = true) : value.isIdentity = true := by
  unfold redactMembers at hredacted
  split at hredacted
  · next entries =>
      split at hredacted
      · next properties hproperties =>
          have hsize := Value.sizeOf_get?_lt hproperties
          have hsmall : ∀ e ∈ properties, Reflects H e.2 := by
            intro e he
            have hlt := List.sizeOf_lt_of_mem he
            rw [Value.dict.sizeOf_spec] at hsize
            exact h e.2 (by cases e; simp at hlt ⊢; omega)
          cases hafter : redactProperties H entries properties with
          | error e =>
              rw [hafter] at hredacted
              cases hredacted
          | ok after =>
              rw [hafter] at hredacted
              cases hredacted
              exact isIdentity_of_redactProperties hsmall hafter hidentity
      · cases hredacted
        exact hidentity
  · next items =>
      split at hredacted
      · next itemSchema hitems =>
          split at hredacted
          · cases hafter : items.mapM (fun item => redactSensitive H item itemSchema) with
            | error e =>
                rw [hafter] at hredacted
                cases hredacted
            | ok after =>
                rw [hafter] at hredacted
                cases hredacted
                exact isIdentity_of_redactItems (h _ (Value.sizeOf_get?_lt hitems)) hafter
                  hidentity
          · cases hredacted
            exact hidentity
      · cases hredacted
        exact hidentity
  · cases hredacted
    exact hidentity

theorem isIdentity_of_redactMatching {schema : Value}
    (h : ∀ child : Value, sizeOf child < sizeOf schema → Reflects H child)
    {value redacted : Value} (hredacted : redactMatching H value schema = .ok redacted)
    (hidentity : redacted.isIdentity = true) : value.isIdentity = true := by
  unfold redactMatching at hredacted
  split at hredacted
  · next anyOf hanyOf =>
      have hsize := Value.sizeOf_get?_lt hanyOf
      rw [Value.list.sizeOf_spec] at hsize
      have hsmall : ∀ branch ∈ anyOf.filter Value.isDict, Reflects H branch := by
        intro branch hbranch
        have hlt := List.sizeOf_lt_of_mem (List.mem_of_mem_filter hbranch)
        exact h branch (by omega)
      cases hmatching : matchingBranches value (anyOf.filter Value.isDict) with
      | error e =>
          rw [hmatching] at hredacted
          cases hredacted
      | ok matching =>
          rw [hmatching] at hredacted
          refine isIdentity_of_redactBranches (fun branch hbranch => ?_) hredacted hidentity
          split at hbranch
          · exact hsmall branch hbranch
          · exact hsmall branch (mem_of_mem_matchingBranches hmatching hbranch)
  · cases hredacted
    exact hidentity

/-- Only strings that have a UTF-8 form are redacted. -/
theorem reflects (schema : Value) : Reflects H schema := by
  induction hsize : sizeOf schema using Nat.strong_induction_on generalizing schema with
  | _ size ih =>
    subst hsize
    intro value redacted hredacted hidentity
    rw [redactSensitive_unfold] at hredacted
    split at hredacted
    · unfold redact at hredacted
      cases hbytes : value.canonicalBytes with
      | error e =>
          rw [hbytes] at hredacted
          cases hredacted
      | ok bytes =>
          obtain ⟨rfl, hbytes⟩ := Value.isIdentity_of_canonicalBytes hbytes
          rwa [Value.isIdentity_canonical] at hbytes
    · have hchild : ∀ child : Value, sizeOf child < sizeOf schema → Reflects H child :=
        fun child hsmall => ih _ hsmall child rfl
      cases hnext : redactMatching H value schema with
      | error e =>
          rw [hnext] at hredacted
          cases hredacted
      | ok next =>
          rw [hnext] at hredacted
          exact isIdentity_of_redactMatching hchild hnext
            (isIdentity_of_redactMembers hchild hredacted hidentity)

end Schema

/-! ## Actions -/

structure ActionSpec where
  name : String
  version : String
  schema : Value
  sideEffects : Bool
  hasHandler : Bool
  specDigest : String
  accepted : Schema.checkSchema schema s!"schema for {name}" = .ok ()

namespace ActionSpec

/-- `validate_args` -/
def validateArgs (spec : ActionSpec) (args : Value) : Except PyError (Option String) :=
  match args.canonicalBytes with
  | .ok _ => Schema.validateValue args spec.schema "$"
  | .error (.typeError message) => .ok (some message)
  | .error error => .error error

/-- `redact_args` -/
def redactArgs (H : Hashing) (spec : ActionSpec) (args : Value) : Except PyError Value := do
  let redacted ← Schema.redactSensitive H args spec.schema
  if redacted.isDict then return redacted
  else throw (.typeError "action arguments must redact to an object")

theorem isIdentity_schema (spec : ActionSpec) : spec.schema.isIdentity = true :=
  Schema.isIdentity_of_checkSchema spec.accepted

theorem isIdentity_of_validateArgs {spec : ActionSpec} {args : Value}
    (h : spec.validateArgs args = .ok none) : args.isIdentity = true := by
  unfold validateArgs at h
  split at h
  · next hbytes =>
      obtain ⟨rfl, hidentity⟩ := Value.isIdentity_of_canonicalBytes hbytes
      rwa [Value.isIdentity_canonical] at hidentity
  · cases h
  · cases h

/-- The audit form of accepted arguments is an identity value. -/
theorem isIdentity_redactArgs {H : Hashing} {spec : ActionSpec} {args auditArgs : Value}
    (hargs : args.isIdentity = true) (h : spec.redactArgs H args = .ok auditArgs) :
    auditArgs.isIdentity = true := by
  obtain ⟨redacted, hredacted, hidentity⟩ :=
    Schema.redactSensitive_ok (H := H) hargs spec.isIdentity_schema
  rw [redactArgs, hredacted] at h
  simp only [bind, Except.bind] at h
  split at h
  · cases h
    exact hidentity
  · cases h

/-- Arguments with an audit form that is an identity value are an identity value. -/
theorem isIdentity_of_redactArgs {H : Hashing} {spec : ActionSpec} {args auditArgs : Value}
    (h : spec.redactArgs H args = .ok auditArgs) (hidentity : auditArgs.isIdentity = true) :
    args.isIdentity = true := by
  unfold redactArgs at h
  cases hredacted : Schema.redactSensitive H args spec.schema with
  | error e =>
      rw [hredacted] at h
      cases h
  | ok redacted =>
      rw [hredacted] at h
      simp only [bind, Except.bind] at h
      split at h
      · cases h
        exact Schema.reflects spec.schema args auditArgs hredacted hidentity
      · cases h

/-- Arguments and their audit form can be digested together. -/
theorem isIdentity_redactArgs_iff {H : Hashing} {spec : ActionSpec} {args auditArgs : Value}
    (h : spec.redactArgs H args = .ok auditArgs) :
    auditArgs.isIdentity = true ↔ args.isIdentity = true :=
  ⟨isIdentity_of_redactArgs h, fun hargs => isIdentity_redactArgs hargs h⟩

end ActionSpec

end Pollard
