import Pollard.Arbiter
import Pollard.Store

/-!
# Budget and charge accounting

`Decimal` arithmetic is exact here.  What passes through `float` is rounded to
binary64 and read back from its shortest decimal.
-/

namespace Pollard

open Lib

/-! ## Budgets -/

/-- A budget that `limits()` accepts: no field is negative. -/
structure Budget where
  usd : Option Decimal := none
  tokens : Option Decimal := none
  depth : Option Decimal := none
  seconds : Option Decimal := none
  steps : Option Decimal := none
  extra : List (String × Decimal) := []
  nonneg : ∀ v ∈ (usd.toList ++ tokens.toList ++ depth.toList ++ seconds.toList ++
    steps.toList) ++ extra.map Prod.snd, 0 ≤ v := by decide
deriving DecidableEq

instance lawfulBEq_budget : LawfulBEq (Budget × String) := inferInstance

/-- Budgets of one step and of two. -/
def Budget.oneStep : Budget := { steps := some 1 }

def Budget.twoSteps : Budget := { steps := some 2 }

namespace Budget

/-- `_add_limit` -/
def addLimit (limits : Dict String Decimal) (name : String) (value : Option Decimal) :
    Dict String Decimal :=
  match value with
  | none => limits
  | some value => limits.set name value

def limits (budget : Budget) : Dict String Decimal :=
  let limits := addLimit ∅ "usd" budget.usd
  let limits := addLimit limits "tokens" budget.tokens
  let limits := addLimit limits "depth" budget.depth
  let limits := addLimit limits "seconds" budget.seconds
  let limits := addLimit limits "steps" budget.steps
  budget.extra.foldl (fun limits e => addLimit limits e.1 (some e.2)) limits

theorem forall_values_addLimit {P : Decimal → Prop} {limits : Dict String Decimal}
    {name : String} {value : Option Decimal} (hlimits : ∀ v ∈ limits.values, P v)
    (hvalue : ∀ v ∈ value.toList, P v) : ∀ v ∈ (addLimit limits name value).values, P v := by
  cases value with
  | none => exact hlimits
  | some value => exact Dict.forall_values_set hlimits (hvalue value (by simp))

/-- No limit is negative. -/
theorem limits_nonneg (budget : Budget) {meter : String} {limit : Decimal}
    (h : budget.limits.get? meter = some limit) : 0 ≤ limit := by
  obtain ⟨usd, tokens, depth, seconds, steps, extra, hnonneg⟩ := budget
  simp only [List.forall_mem_append] at hnonneg
  obtain ⟨⟨⟨⟨⟨husd, htokens⟩, hdepth⟩, hseconds⟩, hsteps⟩, hextra⟩ := hnonneg
  refine Dict.forall_values_foldl_set (P := fun v : Decimal => 0 ≤ v) ?_ ?_ limit
    (Dict.mem_values_of_get? h)
  · refine forall_values_addLimit (forall_values_addLimit (forall_values_addLimit
      (forall_values_addLimit (forall_values_addLimit ?_ husd) htokens) hdepth) hseconds) hsteps
    simp [Dict.values]
  · intro e he
    exact hextra e.2 (List.mem_map_of_mem he)

end Budget

/-- A precheck estimate; a `Decimal` may be infinite. -/
inductive Estimate where
  | finite (q : Decimal)
  | infinite
deriving DecidableEq

structure BudgetCheck where
  ok : Bool
  meter : Option String := none
  requested : Estimate := .finite 0
  remaining : Decimal := 0
deriving DecidableEq

/-! ## Charges -/

/-- `charge_to_decimal`, on the values a node's charges are made of. -/
def chargeToDecimal : Value → Except PyError Decimal
  | .int n => .ok n
  | .float q => .ok (Binary64.shortest q)
  | .bool _ => .error (.typeError "charge values cannot be bool")
  | _ => .error .invalidOperation

/-- `charge_to_json` -/
def chargeToJson (value : Decimal) : Value :=
  if value.den = 1 then .int value.num else .float (Binary64.round value)

/-- `node.meta.get("charges", {})`, if it is a dictionary. -/
def Node.charges (node : Node) : List (String × Value) :=
  match node.metadata.get? "charges" with
  | some (.dict charges) => charges
  | _ => []

/-- One amount added to the totals; what is no number is skipped. -/
def addCharge (totals : Dict String Decimal) (name : String) (amount : Value) :
    Except PyError (Dict String Decimal) :=
  match amount with
  | .int _ | .float _ | .bool _ =>
      (chargeToDecimal amount).map fun q => totals.set name (totals.getD name 0 + q)
  | _ => .ok totals

def addCharges (totals : Dict String Decimal) (node : Node) :
    Except PyError (Dict String Decimal) :=
  node.charges.foldlM (fun totals e => addCharge totals e.1 e.2) totals

/-- `recompute_charges` -/
def recomputeCharges (store : MemoryStore) (rootId : String) :
    Except PyError (Dict String ℚ) := do
  let nodes ← store.walk rootId
  let totals ← nodes.foldlM addCharges ∅
  return (totals.sorted fun a b => a.1 ≤ b.1).map Binary64.round

/-- `spent_decimal` -/
def spentDecimal (store : MemoryStore) (anchorId : String) :
    Except PyError (Dict String Decimal) :=
  (recomputeCharges store anchorId).map (Dict.map Binary64.shortest)

/-! ## Checks -/

/-- The refusal of the first exhausted meter that has a limit. -/
def checkExhausted (limits spent : Dict String Decimal) : List String → Option BudgetCheck
  | [] => none
  | meter :: meters =>
      match limits.get? meter with
      | some limit =>
          some
            { ok := false, meter, requested := .finite 0,
              remaining := limit - spent.getD meter 0 }
      | none => checkExhausted limits spent meters

/-- The estimate leaves a limit below zero. -/
def Estimate.exceeds (remaining : Decimal) : Estimate → Prop
  | .finite q => remaining - q < 0
  | .infinite => True

instance (remaining : Decimal) : (e : Estimate) → Decidable (e.exceeds remaining)
  | .finite q => inferInstanceAs (Decidable (remaining - q < 0))
  | .infinite => inferInstanceAs (Decidable True)

/-- The refusal of the first estimate that exceeds its limit. -/
def checkEstimates (limits spent : Dict String Decimal) :
    List (String × Estimate) → Option BudgetCheck
  | [] => none
  | (meter, requested) :: estimates =>
      match limits.get? meter with
      | none => checkEstimates limits spent estimates
      | some limit =>
          let remaining := limit - spent.getD meter 0
          if requested.exceeds remaining then
            some { ok := false, meter, requested, remaining }
          else checkEstimates limits spent estimates

/-- `check_budget` -/
def checkBudget (budget : Budget) (spent : Dict String Decimal)
    (estimates : Dict String Estimate) (exhausted : List String) : BudgetCheck :=
  let limits := budget.limits
  (checkExhausted limits spent (exhausted.insertionSort (· ≤ ·))).getD
    ((checkEstimates limits spent estimates.entries).getD { ok := true })

/-- `exhausted_after_settle` -/
def exhaustedAfterSettle (budget : Budget) (spent : Dict String Decimal) : List String :=
  (budget.limits.entries.filter fun e => spent.getD e.1 0 > e.2).map Prod.fst

/-! ## Totals of a subtree -/

/-- The amount a stored charge stands for. -/
def amountOf : Value → Decimal
  | .int n => n
  | .float q => Binary64.shortest q
  | _ => 0

/-- What a list of charges comes to on a meter. -/
def chargesOn (charges : List (String × Value)) (meter : String) : Decimal :=
  ((charges.filter fun e => e.1 = meter).map fun e => amountOf e.2).sum

/-- What the nodes at or below an anchor are charged on a meter. -/
def MemoryStore.total (store : MemoryStore) (anchor meter : String) : Decimal :=
  ((store.subtree anchor).map fun node => chargesOn node.charges meter).sum

/-- A total as it comes back from `float`. -/
def viaFloat (q : Decimal) : Decimal := Binary64.shortest (Binary64.round q)

@[simp] theorem viaFloat_zero : viaFloat 0 = 0 := by simp [viaFloat]

theorem chargesOn_cons (name : String) (amount : Value) (charges : List (String × Value))
    (meter : String) :
    chargesOn ((name, amount) :: charges) meter =
      (if name = meter then amountOf amount else 0) + chargesOn charges meter := by
  simp only [chargesOn, List.filter_cons, decide_eq_true_eq]
  split <;> simp

theorem getD_addCharge {totals after : Dict String Decimal} {name : String} {amount : Value}
    (h : addCharge totals name amount = .ok after) (meter : String) :
    after.getD meter 0 =
      totals.getD meter 0 + if name = meter then amountOf amount else 0 := by
  have hset : ∀ q : Decimal, (totals.set name (totals.getD name 0 + q)).getD meter 0 =
      totals.getD meter 0 + if name = meter then q else 0 := by
    intro q
    rw [Dict.getD_set]
    split
    · next heq => rw [heq]
    · rw [add_zero]
  cases amount with
  | int n =>
      cases h
      exact hset n
  | float q =>
      cases h
      exact hset _
  | bool b => cases h
  | _ =>
      cases h
      simp [amountOf]

theorem getD_foldlM_addCharge {charges : List (String × Value)}
    {totals after : Dict String Decimal}
    (h : charges.foldlM (fun totals e => addCharge totals e.1 e.2) totals = .ok after)
    (meter : String) :
    after.getD meter 0 = totals.getD meter 0 + chargesOn charges meter := by
  induction charges generalizing totals with
  | nil =>
      cases h
      simp [chargesOn]
  | cons charge charges ih =>
      obtain ⟨name, amount⟩ := charge
      rw [List.foldlM_cons] at h
      cases hfirst : addCharge totals name amount with
      | error e =>
          rw [hfirst] at h
          cases h
      | ok middle =>
          rw [hfirst] at h
          rw [ih h, getD_addCharge hfirst, chargesOn_cons, add_assoc]

theorem getD_foldlM_addCharges {nodes : List Node} {totals after : Dict String Decimal}
    (h : nodes.foldlM addCharges totals = .ok after) (meter : String) :
    after.getD meter 0 =
      totals.getD meter 0 + (nodes.map fun node => chargesOn node.charges meter).sum := by
  induction nodes generalizing totals with
  | nil =>
      cases h
      simp
  | cons node nodes ih =>
      rw [List.foldlM_cons] at h
      cases hfirst : addCharges totals node with
      | error e =>
          rw [hfirst] at h
          cases h
      | ok middle =>
          rw [hfirst] at h
          rw [ih h, getD_foldlM_addCharge hfirst, List.map_cons, List.sum_cons, add_assoc]

/-- What `spent_decimal` reports is the total of the subtree, as `float` keeps it. -/
theorem spentDecimal_getD {store : MemoryStore} {anchor : String} {spent : Dict String Decimal}
    (h : spentDecimal store anchor = .ok spent) (meter : String) :
    spent.getD meter 0 = viaFloat (store.total anchor meter) := by
  unfold spentDecimal recomputeCharges at h
  cases hcontains : store.contains anchor with
  | false =>
      obtain ⟨e, he⟩ := MemoryStore.walk_of_not_contains hcontains
      rw [he] at h
      cases h
  | true =>
      obtain ⟨nodes, hwalk, hperm⟩ := MemoryStore.walk_subtree hcontains
      rw [hwalk] at h
      cases htotals : nodes.foldlM addCharges ∅ with
      | error e => simp [bind, Except.bind, Except.map, htotals] at h
      | ok totals =>
          simp only [bind, Except.bind, htotals, pure, Except.pure, Except.map,
            Except.ok.injEq] at h
          have hsum : totals.getD meter 0 = store.total anchor meter := by
            rw [getD_foldlM_addCharges htotals, Dict.getD_empty, zero_add,
              MemoryStore.total, (hperm.map _).sum_eq]
          rw [← h, ← hsum]
          simp only [Dict.getD, Dict.get?_map, Dict.get?_sorted]
          cases totals.get? meter with
          | none => simp
          | some q => rfl

/-! ## Totals and writes -/

namespace MemoryStore

/-- Metadata with the same charges leaves every total as it is. -/
theorem replaceMeta_total {store : MemoryStore} {id : String} {existing : Node}
    {metadata : Dict String Value} (hfind : store.find? id = some existing)
    (hsame : metadata.get? "charges" = existing.metadata.get? "charges") :
    (store.replaceMeta id metadata).total = store.total := by
  funext anchor meter
  have hcharges : ∀ n ∈ store.nodes,
      (if n.id = id then { n with metadata } else n).charges = n.charges := by
    intro n hn
    split
    · next hid =>
        have hn' := find?_of_mem hn
        rw [hid, hfind, Option.some.injEq] at hn'
        subst hn'
        simp only [Node.charges, hsame]
    · rfl
  simp only [total, subtree, ancestors_replaceMeta]
  simp only [replaceMeta, List.filter_map, List.map_map]
  have hfilter : ∀ n ∈ store.nodes, ((fun n => decide (anchor ∈ store.ancestors n.id)) ∘
      fun n => if n.id = id then { n with metadata } else n) n =
        decide (anchor ∈ store.ancestors n.id) := by
    intro n _
    rw [Function.comp_apply]
    split <;> rfl
  rw [List.filter_congr hfilter]
  congr 1
  apply List.map_congr_left
  intro n hn
  rw [Function.comp_apply, hcharges n (List.mem_filter.mp hn).1]

theorem Folded.total_eq {store after : MemoryStore} {node : Node}
    (h : store.Folded node after) : after.total = store.total := by
  obtain ⟨existing, hfind, -, rfl | ⟨metadata, rfl, hagree⟩⟩ := h
  · rfl
  · exact replaceMeta_total hfind (hagree "charges" (by decide))

/-- A new node adds its charges to every subtree its parent is in. -/
theorem Added.total_eq {store after : MemoryStore} {node : Node} (h : store.Added node after)
    {p : String} (hp : node.parent = some p) (anchor meter : String) :
    after.total anchor meter = store.total anchor meter +
      if anchor = node.id ∨ anchor ∈ store.ancestors p then chargesOn node.charges meter
      else 0 := by
  have holder : ∀ n ∈ store.nodes, decide (anchor ∈ after.ancestors n.id) =
      decide (anchor ∈ store.ancestors n.id) := by
    intro n hn
    rw [h.ancestors_of_contains (contains_of_find? (find?_of_mem hn))]
  rw [total, total, subtree, subtree, h.2.2, List.filter_cons, h.ancestors_self hp,
    List.filter_congr holder]
  simp only [List.mem_cons, decide_eq_true_eq]
  split
  · rw [List.map_cons, List.sum_cons, add_comm]
  · rw [add_zero]

theorem updateMeta_total {store after : MemoryStore} {id : String}
    {patch : Dict String Value} (hpatch : patch.get? "charges" = none)
    (h : store.updateMeta id patch = .ok after) : after.total = store.total := by
  cases hfind : store.find? id with
  | none => simp [updateMeta, get, hfind, Except.map] at h
  | some node =>
      simp only [updateMeta, get, hfind, Except.map, Except.ok.injEq] at h
      rw [← h]
      have hother : ∀ e ∈ patch.entries, e.1 ≠ "charges" := by
        rintro ⟨key, value⟩ he rfl
        rw [Dict.mem_entries_iff.mp he] at hpatch
        cases hpatch
      exact replaceMeta_total hfind (Dict.get?_foldl_set_of_forall_ne hother _)

end MemoryStore

/-! ## What a check decides -/

theorem checkExhausted_eq_none {limits spent : Dict String Decimal} {meters : List String} :
    checkExhausted limits spent meters = none ↔ ∀ m ∈ meters, limits.get? m = none := by
  induction meters with
  | nil => simp [checkExhausted]
  | cons meter meters ih =>
      rw [checkExhausted, List.forall_mem_cons, ← ih]
      cases limits.get? meter <;> simp

theorem checkExhausted_refuses {limits spent : Dict String Decimal} {meters : List String}
    {check : BudgetCheck} (h : checkExhausted limits spent meters = some check) :
    check.ok = false := by
  induction meters with
  | nil => cases h
  | cons meter meters ih =>
      rw [checkExhausted] at h
      split at h
      · cases h
        rfl
      · exact ih h

theorem checkEstimates_eq_none {limits spent : Dict String Decimal}
    {estimates : List (String × Estimate)} :
    checkEstimates limits spent estimates = none ↔
      ∀ e ∈ estimates, ∀ limit, limits.get? e.1 = some limit →
        ¬ e.2.exceeds (limit - spent.getD e.1 0) := by
  induction estimates with
  | nil => simp [checkEstimates]
  | cons e estimates ih =>
      obtain ⟨meter, requested⟩ := e
      rw [checkEstimates, List.forall_mem_cons, ← ih]
      cases limits.get? meter with
      | none => simp
      | some limit =>
          simp only [Option.some.injEq, forall_eq']
          split <;> simp_all

theorem checkEstimates_refuses {limits spent : Dict String Decimal}
    {estimates : List (String × Estimate)} {check : BudgetCheck}
    (h : checkEstimates limits spent estimates = some check) : check.ok = false := by
  induction estimates with
  | nil => cases h
  | cons e estimates ih =>
      rw [checkEstimates] at h
      split at h
      · exact ih h
      · dsimp only at h
        split at h
        · cases h
          rfl
        · exact ih h

/-- A check passes exactly if no exhausted meter has a limit and no estimate
exceeds one. -/
theorem checkBudget_ok {budget : Budget} {spent : Dict String Decimal}
    {estimates : Dict String Estimate} {exhausted : List String} :
    (checkBudget budget spent estimates exhausted).ok = true ↔
      (∀ m ∈ exhausted, budget.limits.get? m = none) ∧
      ∀ m e limit, estimates.get? m = some e → budget.limits.get? m = some limit →
        ¬ e.exceeds (limit - spent.getD m 0) := by
  have hexhausted : checkExhausted budget.limits spent (exhausted.insertionSort (· ≤ ·)) = none ↔
      ∀ m ∈ exhausted, budget.limits.get? m = none := by
    simp only [checkExhausted_eq_none, List.mem_insertionSort]
  have hestimates : checkEstimates budget.limits spent estimates.entries = none ↔
      ∀ m e limit, estimates.get? m = some e → budget.limits.get? m = some limit →
        ¬ e.exceeds (limit - spent.getD m 0) := by
    simp only [checkEstimates_eq_none, Prod.forall, Dict.mem_entries_iff]
    constructor <;> exact fun h m e limit hm hl => h m e hm limit hl
  rw [← hexhausted, ← hestimates, checkBudget]
  cases hx : checkExhausted budget.limits spent (exhausted.insertionSort (· ≤ ·)) with
  | some check => simp [checkExhausted_refuses hx]
  | none =>
      cases he : checkEstimates budget.limits spent estimates.entries with
      | some check => simp [checkEstimates_refuses he]
      | none => simp

end Pollard
