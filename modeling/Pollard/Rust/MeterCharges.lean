import Pollard.Lib.Effect
import Pollard.Rust.ExactSums
import Pollard.Rust.Nodes

/-!
# Charges of meters in Rust

`MeterCharges` holds floats.  Every step of a sum goes over exact decimals and back to a float, so
sums of natural numbers up to `2^53` are exact, in whatever order they are made.
-/

namespace Pollard.Rust

open Lib Fallible Effect

/-! ## Amounts -/

/-- What amounts rest on.  A finite float is the number it is of. -/
structure Floats where
  decimals : Exact.Library
  /-- `Number::as_f64` of the text of a number. -/
  ofNumber : String → Option ℚ
  /-- `f64::to_string` -/
  text : ℚ → String
  /-- `Decimal::to_f64` -/
  ofDecimal : Exact.Decimal → Option ℚ
  /-- `rust_decimal::Error::to_string` -/
  errorText : Exact.DecimalError → String

/-- Up to here all natural numbers are floats. -/
def exactLimit : ℕ := 2 ^ 53

/-- The documented behaviour on natural numbers that are floats. -/
structure Floats.Correct (floats : Floats) : Prop where
  decimals : floats.decimals.Correct
  text : ∀ n ≤ exactLimit, floats.text (n : ℚ) = toString n
  ofDecimal : ∀ d : Exact.Decimal, ∀ n ≤ exactLimit, d.value = (n : ℚ) →
    floats.ofDecimal d = some (n : ℚ)

/-- `MeterCharges` -/
abbrev MeterCharges := Dict String ℚ

section Floats

variable (floats : Floats)

/-- `decimal_amount` -/
def decimalAmount (amount : ℚ) : Except Error Exact.Decimal :=
  (Exact.parseDecimalExact floats.decimals (floats.text amount)).mapError fun error =>
    .invalid ("meter amount out of decimal range: " ++ floats.errorText error)

/-- `decimal_add` -/
def decimalAdd (left right : ℚ) : Except Error ℚ := do
  let left ← decimalAmount floats left
  let right ← decimalAmount floats right
  match (Exact.exactAdd floats.decimals left right).bind floats.ofDecimal with
  | some sum => .ok sum
  | none => .error (.integrity "meter total overflow")

/-- `decimal_subtract` -/
def decimalSubtract (left right : ℚ) : Except Error ℚ := do
  let left ← decimalAmount floats left
  let right ← decimalAmount floats right
  match (Exact.exactSubtract floats.decimals left right).bind floats.ofDecimal with
  | some difference => .ok difference
  | none => .error (.integrity "meter total overflow")

/-- `exceeds_limit` -/
def exceedsLimit (limit already requested : ℚ) : Except Error Bool := do
  let limit ← decimalAmount floats limit
  let already ← decimalAmount floats already
  match Exact.exactSubtract floats.decimals limit already with
  | none => .error (.integrity "budget amount overflow")
  | some remaining => do
      let requested ← decimalAmount floats requested
      return remaining.value < requested.value

/-- `validate_amount` -/
def validateAmount (amount : ℚ) (name : String) : Except Error Unit := do
  ensure (0 ≤ amount) (.invalid (name ++ " amount must be finite and nonnegative"))
  let _ ← decimalAmount floats amount

/-- The text of an error. -/
def Error.text : Error → String
  | .invalid message => "invalid input: " ++ message
  | .integrity message => "integrity error: " ++ message
  | .notFound id => "not found: " ++ id

/-! ## Charges -/

/-- `add_amounts` into the total that is the state. -/
def addAmounts (charges : MeterCharges) : EStateM Error MeterCharges Unit :=
  charges.entries.forM fun (name, amount) => do
    let next ← orRaise (decimalAdd floats ((← get).getD name 0) amount)
    orRaise (validateAmount floats next name)
    if next ≠ 0 then
      modify fun total => total.set name next

/-- What `refresh_index` takes from the total that is the state. -/
def subtractAmounts (charges : MeterCharges) : EStateM Error MeterCharges Unit :=
  charges.entries.forM fun (name, amount) => do
    match (← get).get? name with
    | none => pure ()
    | some value => do
        let next ← orRaise (decimalSubtract floats value amount)
        modify fun total => total.set name (max next 0)

/-- What `refresh_index` does to the total that is the state when a node's charges change. -/
def replaceAmounts (old new : MeterCharges) : EStateM Error MeterCharges Unit := do
  subtractAmounts floats old
  addAmounts floats new
  modify fun total => total.filter fun e => e.2 ≠ 0

/-- A charge of a node.  No value but a number has a text in decimal notation. -/
def chargeAmount (name : String) (value : Json) : Except Error ℚ := do
  let outOfRange := fun error : Exact.DecimalError =>
    Error.integrity (name ++ " charge out of decimal range: " ++ floats.errorText error)
  match value with
  | .number text => do
      let _ ← (Exact.parseDecimalExact floats.decimals text).mapError outOfRange
      match floats.ofNumber text with
      | none => .error (.integrity (name ++ " charge must be numeric"))
      | some amount => do
          (validateAmount floats amount name).mapError fun error => .integrity error.text
          return amount
  | _ => .error (outOfRange Exact.invalid)

/-- `meter_charges_from_meta` -/
def meterChargesFromMeta (metadata : Json) : Except Error MeterCharges :=
  match metadata.get? "charges" with
  | none => .ok ∅
  | some (.object charges) =>
      charges.foldlM (fun result (name, value) => do
        let amount ← chargeAmount floats name value
        return if amount ≠ 0 then result.set name amount else result) ∅
  | some _ => .error (.integrity "charges must be object")

/-- What a node that passes the check adds to the total that is the state. -/
def addNode (check : Node → Except Error Unit) (node : Node) :
    EStateM Error MeterCharges Unit := do
  orRaise (check node)
  addAmounts floats (← orRaise (meterChargesFromMeta floats node.metadata))

/-- The charges of nodes, added up one after another. -/
def totalCharges (check : Node → Except Error Unit) (nodes : List Node) :
    Except Error MeterCharges :=
  outcome (do
    nodes.forM (addNode floats check)
    get) ∅

end Floats

/-! ## Exact steps -/

/-- A natural number that is a float. -/
def Whole (amount : ℚ) : Prop := ∃ n ≤ exactLimit, amount = (n : ℚ)

theorem Whole.nonneg {amount : ℚ} (h : Whole amount) : 0 ≤ amount := by
  obtain ⟨n, -, rfl⟩ := h
  exact Nat.cast_nonneg n

theorem Whole.zero : Whole 0 := ⟨0, Nat.zero_le _, Nat.cast_zero.symm⟩

theorem Whole.sub {a b : ℚ} (ha : Whole a) (hb : Whole b) (hle : b ≤ a) : Whole (a - b) := by
  obtain ⟨m, hm, rfl⟩ := ha
  obtain ⟨n, -, rfl⟩ := hb
  have hle' : n ≤ m := Nat.cast_le.mp hle
  exact ⟨m - n, by omega, (Nat.cast_sub hle').symm⟩

theorem Whole.representable {amount : ℚ} (h : Whole amount) : Exact.Representable amount := by
  obtain ⟨n, hn, rfl⟩ := h
  refine ⟨⟨false, n, 0, hn.trans (by decide), Nat.zero_le _⟩, ?_⟩
  simp [Exact.Decimal.value, Exact.Decimal.mantissa, Exact.signed]

theorem head?_toDigits {n : ℕ} (h : n ≠ 0) : (Nat.toDigits 10 n).head? ≠ some '0' := by
  induction n using Nat.strongRecOn with
  | ind n ih =>
      by_cases hlt : n < 10
      · rw [Nat.toDigits_of_lt_base hlt]
        interval_cases n <;> first | contradiction | decide
      · rw [Nat.toDigits_of_base_le (by decide) (not_lt.mp hlt),
          List.head?_append_of_ne_nil _ Nat.toDigits_ne_nil]
        exact ih (n / 10) (by omega) (by omega)

theorem toString_head (n : ℕ) : (toString n).toList = ['0'] ∨
    (toString n).toList ≠ [] ∧ (toString n).toList.head? ≠ some '0' := by
  rw [Nat.toString_eq_ofList_toDigits, String.toList_ofList]
  by_cases h : n = 0
  · rw [h, Nat.toDigits_zero]
    exact .inl rfl
  · exact .inr ⟨Nat.toDigits_ne_nil, head?_toDigits h⟩

section Exact

variable {floats : Floats} (hfloats : floats.Correct)

include hfloats

theorem parse_whole {n : ℕ} (hn : n ≤ exactLimit) :
    ∃ d, Exact.parseDecimalExact floats.decimals (toString n) = .ok d ∧ d.value = (n : ℚ) := by
  have hplain : Exact.plain false (toString n).toList [] = toString n := by
    rw [Exact.plain, if_neg Bool.false_ne_true, if_pos rfl, List.nil_append, List.append_nil,
      String.ofList_toList]
  have hdigits : ((toString n).toList ++ []).all Char.isDigit = true := by
    rw [List.append_nil]
    exact List.all_eq_true.mpr (Exact.toString_isDigit n)
  have hnumber : Exact.number ((toString n).toList ++ []) = n := by
    rw [List.append_nil, Exact.number_toString]
  have hfits : Exact.number ((toString n).toList ++ []) ≤ Exact.maxCoefficient := by
    rw [hnumber]
    exact hn.trans (by decide)
  obtain ⟨d, hd, hvalue⟩ := hfloats.decimals.fromStrExact false (toString n).toList []
    (toString_head n) hdigits (Nat.zero_le _) hfits
  rw [hplain] at hd
  have hmarked : (toString n).toList.any (fun c => c = 'e' || c = 'E') = false := by
    rw [List.any_eq_false]
    intro c hc
    have hdigit := Exact.toString_isDigit n c hc
    have he := PlainNotation.ne_of_isDigit hdigit (by decide : 'e'.isDigit = false)
    have hE := PlainNotation.ne_of_isDigit hdigit (by decide : 'E'.isDigit = false)
    simp [he, hE]
  refine ⟨d, ?_, ?_⟩
  · rw [Exact.parseDecimalExact]
    dsimp only
    rw [hmarked, if_neg Bool.false_ne_true, hd]
    rfl
  · rw [hvalue, hnumber]
    simp [Exact.signed]

theorem decimalAmount_whole {amount : ℚ} (h : Whole amount) :
    ∃ d, decimalAmount floats amount = .ok d ∧ d.value = amount := by
  obtain ⟨n, hn, rfl⟩ := h
  obtain ⟨d, hparse, hvalue⟩ := parse_whole hfloats hn
  refine ⟨d, ?_, hvalue⟩
  rw [decimalAmount, hfloats.text n hn, hparse]
  rfl

theorem decimalAdd_whole {left right : ℚ} (hleft : Whole left) (hright : Whole right)
    (hsum : Whole (left + right)) : decimalAdd floats left right = .ok (left + right) := by
  obtain ⟨l, hl, hlvalue⟩ := decimalAmount_whole hfloats hleft
  obtain ⟨r, hr, hrvalue⟩ := decimalAmount_whole hfloats hright
  have hexact := Exact.exactAdd_isExact hfloats.decimals l r
  rw [hlvalue, hrvalue] at hexact
  obtain ⟨d, hd⟩ := Option.isSome_iff_exists.mp (hexact.isSome_iff.mpr hsum.representable)
  obtain ⟨n, hn, hsumValue⟩ := hsum
  have hback : floats.ofDecimal d = some (left + right) := by
    rw [hsumValue]
    exact hfloats.ofDecimal d n hn ((hexact.value_eq d hd).trans hsumValue)
  rw [decimalAdd, hl, hr]
  dsimp only [bind, Except.bind]
  rw [hd, Option.bind_some, hback]

theorem decimalSubtract_whole {left right : ℚ} (hleft : Whole left) (hright : Whole right)
    (hle : right ≤ left) : decimalSubtract floats left right = .ok (left - right) := by
  obtain ⟨l, hl, hlvalue⟩ := decimalAmount_whole hfloats hleft
  obtain ⟨r, hr, hrvalue⟩ := decimalAmount_whole hfloats hright
  have hexact := Exact.exactSubtract_isExact hfloats.decimals l r
  rw [hlvalue, hrvalue] at hexact
  have hwhole := hleft.sub hright hle
  obtain ⟨d, hd⟩ := Option.isSome_iff_exists.mp (hexact.isSome_iff.mpr hwhole.representable)
  obtain ⟨n, hn, hvalue⟩ := hwhole
  have hback : floats.ofDecimal d = some (left - right) := by
    rw [hvalue]
    exact hfloats.ofDecimal d n hn ((hexact.value_eq d hd).trans hvalue)
  rw [decimalSubtract, hl, hr]
  dsimp only [bind, Except.bind]
  rw [hd, Option.bind_some, hback]

theorem validateAmount_whole {amount : ℚ} (h : Whole amount) (name : String) :
    validateAmount floats amount name = .ok () := by
  obtain ⟨d, hd, -⟩ := decimalAmount_whole hfloats h
  rw [validateAmount, ensure_ok_iff.mpr h.nonneg, hd]
  rfl

end Exact

/-! ## Exact totals -/

/-- A loop over charges, each round of which sets the amount of its own meter. -/
theorem forEach_spec {step : String × ℚ → EStateM Error MeterCharges PUnit} {f : ℚ → ℚ → ℚ}
    (hf : ∀ amount, f amount 0 = amount) {charges : List (String × ℚ)}
    (hnodup : (Assoc.keys charges).Nodup) {total : MeterCharges}
    (hstep : ∀ e ∈ charges, ∀ t : MeterCharges, t.getD e.1 0 = total.getD e.1 0 →
      ∃ t', step e t = .ok ⟨⟩ t' ∧ t'.getD e.1 0 = f (total.getD e.1 0) e.2 ∧
        ∀ name, name ≠ e.1 → t'.getD name 0 = t.getD name 0) :
    ∃ t', charges.forM step total = .ok ⟨⟩ t' ∧ ∀ name,
      t'.getD name 0 = f (total.getD name 0) ((Assoc.lookup charges name).getD 0) := by
  induction charges generalizing total with
  | nil => exact ⟨total, rfl, fun name => (hf _).symm⟩
  | cons e rest ih =>
      rw [Assoc.keys, List.map_cons, List.nodup_cons] at hnodup
      obtain ⟨hfresh, hnodup⟩ := hnodup
      obtain ⟨t, ht, hown, hothers⟩ := hstep e List.mem_cons_self total rfl
      have hkeep : ∀ e' ∈ rest, t.getD e'.1 0 = total.getD e'.1 0 := by
        intro e' he'
        apply hothers
        intro heq
        exact hfresh (heq ▸ List.mem_map_of_mem he')
      have hrest : ∀ e' ∈ rest, ∀ t₁ : MeterCharges, t₁.getD e'.1 0 = t.getD e'.1 0 →
          ∃ t', step e' t₁ = .ok ⟨⟩ t' ∧ t'.getD e'.1 0 = f (t.getD e'.1 0) e'.2 ∧
            ∀ name, name ≠ e'.1 → t'.getD name 0 = t₁.getD name 0 := by
        intro e' he' t₁ ht₁
        rw [hkeep e' he']
        exact hstep e' (List.mem_cons_of_mem _ he') t₁ (ht₁.trans (hkeep e' he'))
      obtain ⟨t', ht', hall⟩ := ih hnodup hrest
      refine ⟨t', ?_, fun name => ?_⟩
      · change (step e >>= fun _ => rest.forM step) total = _
        rw [bind_of_ok ht]
        exact ht'
      · rw [hall name, Assoc.lookup]
        by_cases hname : e.1 = name
        · have hnone : Assoc.lookup rest name = none :=
            Assoc.lookup_eq_none_iff.mpr (hname ▸ hfresh)
          rw [if_pos hname, hnone, Option.getD_none, hf, Option.getD_some, ← hname, hown]
        · rw [if_neg hname, hothers name (Ne.symm hname)]

theorem Whole.add_of_le {a b c : ℚ} (ha : Whole a) (hb : Whole b) (hc : Whole c)
    (hle : a + b ≤ c) : Whole (a + b) := by
  obtain ⟨m, -, rfl⟩ := ha
  obtain ⟨n, -, rfl⟩ := hb
  obtain ⟨k, hk, rfl⟩ := hc
  have hle' : m + n ≤ k := by exact_mod_cast hle
  exact ⟨m + n, hle'.trans hk, (Nat.cast_add m n).symm⟩

section Totals

variable {floats : Floats} (hfloats : floats.Correct)

include hfloats

theorem addAmounts_whole {charges total : MeterCharges}
    (htotal : ∀ name, Whole (total.getD name 0)) (hcharges : ∀ name, Whole (charges.getD name 0))
    (hsum : ∀ name, Whole (total.getD name 0 + charges.getD name 0)) :
    ∃ t, addAmounts floats charges total = .ok () t ∧
      ∀ name, t.getD name 0 = total.getD name 0 + charges.getD name 0 := by
  refine forEach_spec (f := (· + ·)) add_zero charges.nodupKeys ?_
  rintro ⟨name, amount⟩ he t ht
  have hamount : charges.getD name 0 = amount := by
    rw [Dict.getD, Dict.mem_entries_iff.mp he, Option.getD_some]
  have hnext : Whole (total.getD name 0 + amount) := hamount ▸ hsum name
  have hadd : decimalAdd floats (t.getD name 0) amount = .ok (total.getD name 0 + amount) := by
    rw [ht]
    exact decimalAdd_whole hfloats (htotal name) (hamount ▸ hcharges name) hnext
  dsimp only
  rw [bind_of_ok (get_apply t), hadd, bind_of_ok (orRaise_ok _ _),
    validateAmount_whole hfloats hnext name, bind_of_ok (orRaise_ok _ _)]
  by_cases hzero : total.getD name 0 + amount = 0
  · refine ⟨t, by rw [if_neg (not_not.mpr hzero)]; rfl, ?_, fun _ _ => rfl⟩
    have hold := (htotal name).nonneg
    have hnew := (hamount ▸ hcharges name : Whole amount).nonneg
    rw [hzero, ht]
    linarith
  · refine ⟨t.set name (total.getD name 0 + amount), by rw [if_pos hzero]; rfl, ?_, ?_⟩
    · rw [Dict.getD_set, if_pos rfl]
    · intro other hother
      rw [Dict.getD_set, if_neg (Ne.symm hother)]

theorem subtractAmounts_whole {charges total : MeterCharges}
    (htotal : ∀ name, Whole (total.getD name 0)) (hcharges : ∀ name, Whole (charges.getD name 0))
    (hle : ∀ name, charges.getD name 0 ≤ total.getD name 0) :
    ∃ t, subtractAmounts floats charges total = .ok () t ∧
      ∀ name, t.getD name 0 = total.getD name 0 - charges.getD name 0 := by
  refine forEach_spec (f := (· - ·)) sub_zero charges.nodupKeys ?_
  rintro ⟨name, amount⟩ he t ht
  have hamount : charges.getD name 0 = amount := by
    rw [Dict.getD, Dict.mem_entries_iff.mp he, Option.getD_some]
  have hwhole : Whole amount := hamount ▸ hcharges name
  have hleft : amount ≤ total.getD name 0 := hamount ▸ hle name
  dsimp only
  rw [bind_of_ok (get_apply t)]
  cases hget : t.get? name with
  | none =>
      refine ⟨t, rfl, ?_, fun _ _ => rfl⟩
      have hnone : total.getD name 0 = 0 := by
        rw [← ht, Dict.getD, hget, Option.getD_none]
      have hzero := hwhole.nonneg
      rw [ht]
      linarith
  | some value =>
      have hvalue : value = total.getD name 0 := by
        rw [← ht, Dict.getD, hget, Option.getD_some]
      have hsub : decimalSubtract floats value amount = .ok (total.getD name 0 - amount) := by
        rw [hvalue]
        exact decimalSubtract_whole hfloats (htotal name) hwhole hleft
      refine ⟨t.set name (total.getD name 0 - amount), ?_, ?_, ?_⟩
      · dsimp only
        rw [hsub, bind_of_ok (orRaise_ok _ _), modify_apply, max_eq_left (sub_nonneg.mpr hleft)]
      · rw [Dict.getD_set, if_pos rfl]
      · intro other hother
        rw [Dict.getD_set, if_neg (Ne.symm hother)]

theorem replaceAmounts_whole {old new total : MeterCharges}
    (htotal : ∀ name, Whole (total.getD name 0)) (hold : ∀ name, Whole (old.getD name 0))
    (hnew : ∀ name, Whole (new.getD name 0)) (hle : ∀ name, old.getD name 0 ≤ total.getD name 0)
    (hsum : ∀ name, Whole (total.getD name 0 - old.getD name 0 + new.getD name 0)) :
    ∃ t, replaceAmounts floats old new total = .ok () t ∧
      ∀ name, t.getD name 0 = total.getD name 0 - old.getD name 0 + new.getD name 0 := by
  obtain ⟨left, hleft, hleftAmounts⟩ := subtractAmounts_whole hfloats htotal hold hle
  have hleftWhole : ∀ name, Whole (left.getD name 0) := by
    intro name
    rw [hleftAmounts name]
    exact (htotal name).sub (hold name) (hle name)
  obtain ⟨sum, hsumRun, hsumAmounts⟩ := addAmounts_whole hfloats hleftWhole hnew fun name => by
    rw [hleftAmounts name]
    exact hsum name
  refine ⟨sum.filter fun e => e.2 ≠ 0, ?_, fun name => ?_⟩
  · rw [replaceAmounts, bind_of_ok hleft, bind_of_ok hsumRun, modify_apply]
  · rw [← hleftAmounts name, ← hsumAmounts name, Dict.getD, Dict.getD, Dict.get?_filter]
    cases hget : sum.get? name with
    | none => rfl
    | some amount =>
        by_cases hzero : amount = 0 <;> simp [Option.filter, hzero]

end Totals

/-! ## Totals of nodes -/

/-- What a node is charged on a meter; nothing, if its charges are not read. -/
def amountOf (floats : Floats) (name : String) (node : Node) : ℚ :=
  ((meterChargesFromMeta floats node.metadata).toOption.getD ∅).getD name 0

theorem amountOf_of_ok {floats : Floats} {node : Node} {charges : MeterCharges}
    (h : meterChargesFromMeta floats node.metadata = .ok charges) (name : String) :
    amountOf floats name node = charges.getD name 0 := by
  rw [amountOf, h]
  rfl

/-- The charges of these nodes and their sums are natural numbers that are floats. -/
def WholeCharges (floats : Floats) (nodes : List Node) : Prop :=
  ∀ name, (∀ node ∈ nodes, Whole (amountOf floats name node)) ∧
    Whole (nodes.map (amountOf floats name)).sum

theorem sum_nonneg_of_whole {floats : Floats} {name : String} {nodes : List Node}
    (h : ∀ node ∈ nodes, Whole (amountOf floats name node)) :
    0 ≤ (nodes.map (amountOf floats name)).sum := by
  apply List.sum_nonneg
  intro amount hamount
  obtain ⟨node, hnode, rfl⟩ := List.mem_map.mp hamount
  exact (h node hnode).nonneg

theorem WholeCharges.le_sum {floats : Floats} {nodes : List Node} (h : WholeCharges floats nodes)
    (name : String) {node : Node} (hnode : node ∈ nodes) :
    amountOf floats name node ≤ (nodes.map (amountOf floats name)).sum := by
  refine List.single_le_sum (fun amount hamount => ?_) _ (List.mem_map_of_mem hnode)
  obtain ⟨other, hother, rfl⟩ := List.mem_map.mp hamount
  exact ((h name).1 other hother).nonneg

theorem exists_nat_sum {floats : Floats} {name : String} {nodes : List Node}
    (h : ∀ node ∈ nodes, Whole (amountOf floats name node)) :
    ∃ n : ℕ, (nodes.map (amountOf floats name)).sum = n := by
  induction nodes with
  | nil => exact ⟨0, Nat.cast_zero.symm⟩
  | cons node nodes ih =>
      obtain ⟨hnode, hnodes⟩ := List.forall_mem_cons.mp h
      obtain ⟨own, -, hown⟩ := hnode
      obtain ⟨rest, hrest⟩ := ih hnodes
      refine ⟨own + rest, ?_⟩
      rw [List.map_cons, List.sum_cons, hown, hrest, Nat.cast_add]

/-- Some of the nodes are charged no more than all of them. -/
theorem WholeCharges.subperm {floats : Floats} {nodes all : List Node}
    (h : WholeCharges floats all) (hsub : nodes.Subperm all) : WholeCharges floats nodes := by
  intro name
  obtain ⟨hamounts, total, htotal, hsum⟩ := h name
  have hown : ∀ node ∈ nodes, Whole (amountOf floats name node) := fun node hnode =>
    hamounts node (hsub.subset hnode)
  obtain ⟨n, hn⟩ := exists_nat_sum hown
  obtain ⟨some, hsome, hsublist⟩ := hsub
  obtain ⟨rest, hrests⟩ := hsublist.exists_perm_append
  have hperm : all.Perm (nodes ++ rest) := hrests.trans (hsome.append_right rest)
  have hrest : 0 ≤ (rest.map (amountOf floats name)).sum := by
    apply sum_nonneg_of_whole
    exact fun node hnode =>
      hamounts node (hperm.mem_iff.mpr (List.mem_append_right _ hnode))
  have hsplit : (total : ℚ) = n + (rest.map (amountOf floats name)).sum := by
    rw [← hsum, (hperm.map _).sum_eq, List.map_append, List.sum_append, hn]
  refine ⟨hown, n, ?_, hn⟩
  have hle : (n : ℚ) ≤ total := by linarith
  exact (Nat.cast_le.mp hle).trans htotal

/-- The loop of `totalCharges` from a total on. -/
theorem addNodes_whole {floats : Floats} (hfloats : floats.Correct)
    {check : Node → Except Error Unit} {nodes : List Node} (total : MeterCharges)
    (hread : ∀ node ∈ nodes, check node = .ok () ∧
      ∃ charges, meterChargesFromMeta floats node.metadata = .ok charges)
    (htotal : ∀ name, Whole (total.getD name 0))
    (hamounts : ∀ name, ∀ node ∈ nodes, Whole (amountOf floats name node))
    (hsum : ∀ name, Whole (total.getD name 0 + (nodes.map (amountOf floats name)).sum)) :
    ∃ t, nodes.forM (addNode floats check) total = .ok ⟨⟩ t ∧ ∀ name,
      t.getD name 0 = total.getD name 0 + (nodes.map (amountOf floats name)).sum := by
  induction nodes generalizing total with
  | nil => exact ⟨total, rfl, fun name => (add_zero _).symm⟩
  | cons node nodes ih =>
      obtain ⟨⟨hcheck, charges, hcharges⟩, hread⟩ := List.forall_mem_cons.mp hread
      have hrest : ∀ name, ∀ node ∈ nodes, Whole (amountOf floats name node) := fun name =>
        (List.forall_mem_cons.mp (hamounts name)).2
      have hnode : ∀ name, Whole (charges.getD name 0) := by
        intro name
        rw [← amountOf_of_ok hcharges]
        exact hamounts name node List.mem_cons_self
      have hsum' : ∀ name, Whole (total.getD name 0 + charges.getD name 0 +
          (nodes.map (amountOf floats name)).sum) := by
        intro name
        have h := hsum name
        rwa [List.map_cons, List.sum_cons, ← add_assoc, amountOf_of_ok hcharges] at h
      have hnext : ∀ name, Whole (total.getD name 0 + charges.getD name 0) := by
        intro name
        have hnonneg := sum_nonneg_of_whole (hrest name)
        exact (htotal name).add_of_le (hnode name) (hsum' name) (by linarith)
      obtain ⟨t, hadd, hamount⟩ := addAmounts_whole hfloats htotal hnode hnext
      obtain ⟨t', hrun, hall⟩ := ih t hread (fun name => hamount name ▸ hnext name) hrest
        fun name => hamount name ▸ hsum' name
      refine ⟨t', ?_, fun name => ?_⟩
      · have hnode : addNode floats check node total = .ok () t := by
          rw [addNode, hcheck, hcharges]
          exact hadd
        change (addNode floats check node >>= fun _ => nodes.forM (addNode floats check)) total = _
        rw [bind_of_ok hnode]
        exact hrun
      · rw [hall name, hamount name, List.map_cons, List.sum_cons, amountOf_of_ok hcharges,
          add_assoc]

theorem totalCharges_whole {floats : Floats} (hfloats : floats.Correct)
    {check : Node → Except Error Unit} {nodes : List Node}
    (hread : ∀ node ∈ nodes, check node = .ok () ∧
      ∃ charges, meterChargesFromMeta floats node.metadata = .ok charges)
    (hwhole : WholeCharges floats nodes) :
    ∃ t, totalCharges floats check nodes = .ok t ∧
      ∀ name, t.getD name 0 = (nodes.map (amountOf floats name)).sum := by
  obtain ⟨t, hrun, hall⟩ := addNodes_whole hfloats ∅ hread
    (fun name => Whole.zero) (fun name => (hwhole name).1) fun name => by
      rw [Dict.getD_empty, zero_add]
      exact (hwhole name).2
  refine ⟨t, ?_, fun name => ?_⟩
  · rw [totalCharges, outcome, bind_of_ok hrun]
    rfl
  · rw [hall name, Dict.getD_empty, zero_add]

/-- Nodes that have a total pass the check and have charges. -/
theorem read_of_totalCharges {floats : Floats} {check : Node → Except Error Unit}
    {nodes : List Node} {t : MeterCharges} (h : totalCharges floats check nodes = .ok t) :
    ∀ node ∈ nodes, check node = .ok () ∧
      ∃ charges, meterChargesFromMeta floats node.metadata = .ok charges := by
  rw [totalCharges, outcome] at h
  split at h
  · next total hrun =>
      obtain ⟨_, m, hloop, -⟩ := bind_eq_ok hrun
      clear h hrun
      generalize (∅ : MeterCharges) = start at hloop
      induction nodes generalizing start with
      | nil => exact fun node hnode => absurd hnode List.not_mem_nil
      | cons node nodes ih =>
          obtain ⟨_, next, hnode, hrest⟩ := bind_eq_ok (x := addNode floats check node) hloop
          obtain ⟨_, _, hcheck, hnode⟩ := bind_eq_ok hnode
          obtain ⟨hcheck, -⟩ := orRaise_eq_ok hcheck
          obtain ⟨charges, _, hcharges, -⟩ := bind_eq_ok hnode
          obtain ⟨hcharges, -⟩ := orRaise_eq_ok hcharges
          exact List.forall_mem_cons.mpr ⟨⟨hcheck, charges, hcharges⟩, ih _ hrest⟩
  · cases h

end Pollard.Rust
