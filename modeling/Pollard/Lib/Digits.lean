import Mathlib.Data.Nat.Digits.Defs
import Mathlib.Tactic.Ring
import Mathlib.Tactic.LinearCombination
import Mathlib.Tactic.Zify

/-!
# Arithmetic on lists of digits

Numbers as lists of digits in a base, least significant first: adding with a carry,
subtracting with a borrow, long multiplication and comparison, each with the number it makes.
-/

namespace Pollard.Lib.Digits

/-- Digits of a base. -/
def Proper (b : ℕ) (ds : List ℕ) : Prop := ∀ d ∈ ds, d < b

/-- No zero leads, unless it is all there is. -/
def Trimmed (ds : List ℕ) : Prop := ∀ hne : ds ≠ [], ds.getLast hne = 0 → ds = [0]

section Leading

/-- Leading zeros off, most significant digit first, one digit kept. -/
def popZeros : List ℕ → List ℕ
  | 0 :: d :: ds => popZeros (d :: ds)
  | ds => ds

def trim (ds : List ℕ) : List ℕ := (popZeros ds.reverse).reverse

theorem popZeros_suffix : ∀ ds : List ℕ, popZeros ds <:+ ds
  | [] => List.suffix_refl _
  | [d] => by cases d <;> exact List.suffix_refl _
  | 0 :: d :: ds => (popZeros_suffix (d :: ds)).trans (List.suffix_cons _ _)
  | (n + 1) :: d :: ds => List.suffix_refl _

theorem head_popZeros : ∀ (ds : List ℕ) (hne : popZeros ds ≠ []), (popZeros ds).head hne = 0 →
    popZeros ds = [0]
  | [], hne, _ => absurd rfl hne
  | [0], _, _ => rfl
  | [n + 1], _, h => by cases h
  | 0 :: d :: ds, hne, h => head_popZeros (d :: ds) hne h
  | (n + 1) :: d :: ds, _, h => by cases h

theorem trimmed_trim (ds : List ℕ) : Trimmed (trim ds) := by
  intro hne hlast
  have hpop : popZeros ds.reverse ≠ [] := fun h => hne (by rw [trim, h, List.reverse_nil])
  have hhead : (popZeros ds.reverse).head hpop = 0 := by
    rw [← hlast]
    simp only [trim, List.getLast_reverse]
  rw [trim, head_popZeros _ hpop hhead]
  rfl

theorem proper_trim {b : ℕ} {ds : List ℕ} (h : Proper b ds) : Proper b (trim ds) := by
  intro d hd
  refine h d ?_
  rw [← List.mem_reverse]
  exact (popZeros_suffix _).subset (List.mem_reverse.mp hd)

theorem value_popZeros (b : ℕ) :
    ∀ ds : List ℕ, Nat.ofDigits b (popZeros ds).reverse = Nat.ofDigits b ds.reverse
  | [] => rfl
  | [d] => by cases d <;> rfl
  | 0 :: d :: ds => by
      have hreverse : (0 :: d :: ds).reverse = (d :: ds).reverse ++ [0] := List.reverse_cons
      rw [popZeros, value_popZeros b (d :: ds), hreverse, Nat.ofDigits_append_zero]
  | (n + 1) :: d :: ds => rfl

theorem value_trim (b : ℕ) (ds : List ℕ) : Nat.ofDigits b (trim ds) = Nat.ofDigits b ds := by
  rw [trim, value_popZeros, List.reverse_reverse]

theorem popZeros_ne_nil : ∀ ds : List ℕ, ds ≠ [] → popZeros ds ≠ []
  | [], h => absurd rfl h
  | [d], _ => by cases d <;> simp [popZeros]
  | 0 :: d :: ds, _ => popZeros_ne_nil (d :: ds) (by simp)
  | (n + 1) :: d :: ds, _ => by simp [popZeros]

theorem trim_ne_nil {ds : List ℕ} (h : ds ≠ []) : trim ds ≠ [] := by
  rw [trim, Ne, List.reverse_eq_nil_iff]
  exact popZeros_ne_nil _ (by rwa [Ne, List.reverse_eq_nil_iff])

end Leading

/-! ## Adding and subtracting -/

/-- The digits of a sum and the last carry; `es` may be the shorter one. -/
def addFrom (b : ℕ) : List ℕ → List ℕ → ℕ → List ℕ × ℕ
  | [], _, carry => ([], carry)
  | d :: ds, es, carry =>
      let sum := d + es.headD 0 + carry
      let rest := addFrom b ds es.tail (sum / b)
      (sum % b :: rest.1, rest.2)

theorem ofDigits_headD_tail (b : ℕ) (es : List ℕ) :
    Nat.ofDigits b es = es.headD 0 + b * Nat.ofDigits b es.tail := by
  cases es with
  | nil => simp
  | cons e es => simp [Nat.ofDigits_cons]

theorem addFrom_value (b : ℕ) (ds es : List ℕ) (carry : ℕ) (hlength : es.length ≤ ds.length) :
    Nat.ofDigits b (addFrom b ds es carry).1 + (addFrom b ds es carry).2 * b ^ ds.length =
      Nat.ofDigits b ds + Nat.ofDigits b es + carry := by
  induction ds generalizing es carry with
  | nil =>
      obtain rfl : es = [] := List.length_eq_zero_iff.mp (Nat.le_zero.mp hlength)
      simp [addFrom]
  | cons d ds ih =>
      have htail := ih es.tail ((d + es.headD 0 + carry) / b) (by
        rw [List.length_tail]
        simp only [List.length_cons] at hlength
        omega)
      have hsum := Nat.mod_add_div (d + es.headD 0 + carry) b
      rw [addFrom, Nat.ofDigits_cons, Nat.ofDigits_cons, ofDigits_headD_tail b es,
        List.length_cons, pow_succ]
      dsimp only
      linear_combination b * htail + hsum

theorem addFrom_proper {b : ℕ} (hb : 0 < b) (ds es : List ℕ) (carry : ℕ) :
    Proper b (addFrom b ds es carry).1 := by
  induction ds generalizing es carry with
  | nil => simp [addFrom, Proper]
  | cons d ds ih =>
      rw [addFrom]
      intro x hx
      rcases List.mem_cons.mp hx with rfl | hx
      · exact Nat.mod_lt _ hb
      · exact ih _ _ x hx

theorem headD_lt {b : ℕ} (hb : 0 < b) {es : List ℕ} (h : Proper b es) : es.headD 0 < b := by
  cases es with
  | nil => exact hb
  | cons e es => exact h e List.mem_cons_self

/-- The carry is a bit, and no sum of digits reaches twice the base. -/
theorem addFrom_carry {b : ℕ} (hb : 0 < b) {ds es : List ℕ} (hd : Proper b ds) (he : Proper b es)
    {carry : ℕ} (hcarry : carry ≤ 1) : (addFrom b ds es carry).2 ≤ 1 := by
  induction ds generalizing es carry with
  | nil => exact hcarry
  | cons d ds ih =>
      have hfirst := hd d List.mem_cons_self
      have hother := headD_lt hb he
      refine ih (fun x hx => hd x (List.mem_cons_of_mem _ hx))
        (fun x hx => he x (List.mem_of_mem_tail hx)) ?_
      rw [← Nat.lt_succ_iff, Nat.div_lt_iff_lt_mul hb]
      omega

theorem length_addFrom (b : ℕ) (ds es : List ℕ) (carry : ℕ) :
    (addFrom b ds es carry).1.length = ds.length := by
  induction ds generalizing es carry with
  | nil => rfl
  | cons d ds ih => rw [addFrom, List.length_cons, ih, List.length_cons]

/-- The digits of a sum. -/
def add (b : ℕ) (ds es : List ℕ) : List ℕ :=
  let padded := ds ++ List.replicate (es.length - ds.length) 0
  let sum := addFrom b padded es 0
  if sum.2 ≠ 0 then sum.1 ++ [sum.2] else sum.1

theorem value_add (b : ℕ) (ds es : List ℕ) :
    Nat.ofDigits b (add b ds es) = Nat.ofDigits b ds + Nat.ofDigits b es := by
  have hvalue := addFrom_value b (ds ++ List.replicate (es.length - ds.length) 0) es 0 (by
    rw [List.length_append, List.length_replicate]
    omega)
  rw [Nat.ofDigits_append_replicate_zero, Nat.add_zero] at hvalue
  rw [add]
  split
  · rw [Nat.ofDigits_append, Nat.ofDigits_singleton, length_addFrom, ← hvalue]
    ring
  · next hzero =>
      rw [not_not] at hzero
      rw [← hvalue, hzero, Nat.zero_mul, Nat.add_zero]

theorem add_ne_nil (b : ℕ) {ds : List ℕ} (h : ds ≠ []) (es : List ℕ) : add b ds es ≠ [] := by
  have hlength := length_addFrom b (ds ++ List.replicate (es.length - ds.length) 0) es 0
  have hpos := List.length_pos_iff.mpr h
  rw [List.length_append] at hlength
  refine List.ne_nil_of_length_pos ?_
  rw [add]
  split
  · rw [List.length_append]
    omega
  · omega

theorem proper_add {b : ℕ} (hb : 1 < b) {ds es : List ℕ} (hd : Proper b ds) (he : Proper b es) :
    Proper b (add b ds es) := by
  have hpadded : Proper b (ds ++ List.replicate (es.length - ds.length) 0) := by
    intro d h
    rcases List.mem_append.mp h with h | h
    · exact hd d h
    · rw [(List.mem_replicate.mp h).2]
      omega
  have hproper := addFrom_proper (by omega : 0 < b)
    (ds ++ List.replicate (es.length - ds.length) 0) es 0
  have hcarry := addFrom_carry (by omega) hpadded he (Nat.zero_le 1)
  rw [add]
  split
  · intro d h
    rcases List.mem_append.mp h with h | h
    · exact hproper d h
    · rw [List.mem_singleton.mp h]
      omega
  · exact hproper

/-- The digits of a difference and the last borrow. -/
def subFrom (b : ℕ) : List ℕ → List ℕ → ℕ → List ℕ × ℕ
  | [], _, borrow => ([], borrow)
  | d :: ds, es, borrow =>
      let difference : ℤ := d - es.headD 0 - borrow
      let rest := subFrom b ds es.tail (if difference < 0 then 1 else 0)
      ((difference % b).toNat :: rest.1, rest.2)

theorem subFrom_value {b : ℕ} (hb : 0 < b) {ds es : List ℕ} (hd : Proper b ds)
    (he : Proper b es) {borrow : ℕ} (hborrow : borrow ≤ 1) (hlength : es.length ≤ ds.length) :
    Nat.ofDigits b (subFrom b ds es borrow).1 + Nat.ofDigits b es + borrow =
      Nat.ofDigits b ds + (subFrom b ds es borrow).2 * b ^ ds.length := by
  induction ds generalizing es borrow with
  | nil =>
      obtain rfl : es = [] := List.length_eq_zero_iff.mp (Nat.le_zero.mp hlength)
      simp [subFrom]
  | cons d ds ih =>
      have hfirst := hd d List.mem_cons_self
      have hother := headD_lt hb he
      -- One column: the digit, and the borrow from the next one.
      have hcolumn : ((((d : ℤ) - es.headD 0 - borrow) % b).toNat : ℤ) =
          d - es.headD 0 - borrow +
            (if (d : ℤ) - es.headD 0 - borrow < 0 then 1 else 0 : ℕ) * b := by
        have hb' : (b : ℤ) ≠ 0 := by omega
        rw [Int.toNat_of_nonneg (Int.emod_nonneg _ hb')]
        split
        · next hneg =>
            rw [← Int.add_emod_right, Int.emod_eq_of_lt (by omega) (by omega)]
            simp
        · next hpos => rw [Int.emod_eq_of_lt (by omega) (by omega)]; simp
      have htail := ih (fun x hx => hd x (List.mem_cons_of_mem _ hx))
        (fun x hx => he x (List.mem_of_mem_tail hx))
        (show (if (d : ℤ) - es.headD 0 - borrow < 0 then 1 else 0) ≤ 1 by split <;> omega) (by
          rw [List.length_tail]
          simp only [List.length_cons] at hlength
          omega)
      rw [subFrom, Nat.ofDigits_cons, Nat.ofDigits_cons, ofDigits_headD_tail b es,
        List.length_cons, pow_succ]
      dsimp only
      zify at htail ⊢
      push_cast at hcolumn
      linear_combination b * htail + hcolumn

theorem subFrom_proper {b : ℕ} (hb : 0 < b) (ds es : List ℕ) (borrow : ℕ) :
    Proper b (subFrom b ds es borrow).1 := by
  induction ds generalizing es borrow with
  | nil => simp [subFrom, Proper]
  | cons d ds ih =>
      rw [subFrom]
      intro x hx
      rcases List.mem_cons.mp hx with rfl | hx
      · have hlt := Int.emod_lt_of_pos ((d : ℤ) - es.headD 0 - borrow) (by omega : (0 : ℤ) < b)
        have hnonneg := Int.emod_nonneg ((d : ℤ) - es.headD 0 - borrow) (by omega : (b : ℤ) ≠ 0)
        omega
      · exact ih _ _ x hx

theorem length_subFrom (b : ℕ) (ds es : List ℕ) (borrow : ℕ) :
    (subFrom b ds es borrow).1.length = ds.length := by
  induction ds generalizing es borrow with
  | nil => rfl
  | cons d ds ih => rw [subFrom, List.length_cons, ih, List.length_cons]

/-- Nothing is borrowed in the end from the greater number. -/
theorem value_sub {b : ℕ} (hb : 1 < b) {ds es : List ℕ} (hd : Proper b ds) (he : Proper b es)
    (hlength : es.length ≤ ds.length) (hle : Nat.ofDigits b es ≤ Nat.ofDigits b ds) :
    Nat.ofDigits b (subFrom b ds es 0).1 = Nat.ofDigits b ds - Nat.ofDigits b es := by
  have hvalue := subFrom_value (by omega) hd he (Nat.zero_le 1) hlength
  have hproper := subFrom_proper (by omega : 0 < b) ds es 0
  have hlt := Nat.ofDigits_lt_base_pow_length hb hproper
  rw [length_subFrom] at hlt
  have hzero : (subFrom b ds es 0).2 = 0 := by
    by_contra hne
    have hpos : 1 * b ^ ds.length ≤ (subFrom b ds es 0).2 * b ^ ds.length :=
      Nat.mul_le_mul_right _ (Nat.one_le_iff_ne_zero.mpr hne)
    omega
  rw [hzero] at hvalue
  omega

/-! ## Comparing -/

/-- The shorter list, or the first by its leading digits. -/
def less (ds es : List ℕ) : Bool :=
  ds.length < es.length || (ds.length = es.length && decide (ds.reverse < es.reverse))

theorem lex_lt_iff {b : ℕ} (hb : 1 < b) {xs ys : List ℕ} (hx : Proper b xs) (hy : Proper b ys)
    (hlength : xs.length = ys.length) :
    xs < ys ↔ Nat.ofDigits b xs.reverse < Nat.ofDigits b ys.reverse := by
  induction xs generalizing ys with
  | nil =>
      obtain rfl : ys = [] := List.length_eq_zero_iff.mp hlength.symm
      simp
  | cons x xs ih =>
      cases ys with
      | nil => cases hlength
      | cons y ys =>
          have hlen : xs.length = ys.length := Nat.succ.inj hlength
          have hxs : Proper b xs := fun d hd => hx d (List.mem_cons_of_mem _ hd)
          have hys : Proper b ys := fun d hd => hy d (List.mem_cons_of_mem _ hd)
          have hltx := Nat.ofDigits_lt_base_pow_length hb
            (fun d hd => hxs d (List.mem_reverse.mp hd))
          have hlty := Nat.ofDigits_lt_base_pow_length hb
            (fun d hd => hys d (List.mem_reverse.mp hd))
          rw [List.length_reverse] at hltx hlty
          rw [Nat.ofDigits_reverse_cons, Nat.ofDigits_reverse_cons, List.cons_lt_cons_iff,
            ih hxs hys hlen, hlen]
          rw [hlen] at hltx
          constructor
          · rintro (hlt | ⟨rfl, hlt⟩)
            · have hmul := Nat.mul_le_mul_left (b ^ ys.length) (Nat.succ_le_of_lt hlt)
              rw [Nat.mul_succ] at hmul
              omega
            · omega
          · intro hlt
            rcases Nat.lt_trichotomy x y with hxy | rfl | hxy
            · exact .inl hxy
            · exact .inr ⟨rfl, by omega⟩
            · have hmul := Nat.mul_le_mul_left (b ^ ys.length) (Nat.succ_le_of_lt hxy)
              rw [Nat.mul_succ] at hmul
              omega

theorem value_le_of_length_lt {b : ℕ} (hb : 1 < b) {ds es : List ℕ} (hd : Proper b ds)
    (he : Trimmed es) (hlength : ds.length < es.length) :
    Nat.ofDigits b ds ≤ Nat.ofDigits b es := by
  have hne : es ≠ [] := List.ne_nil_of_length_pos (by omega)
  by_cases hlast : es.getLast hne = 0
  · obtain rfl := he hne hlast
    obtain rfl : ds = [] := List.length_eq_zero_iff.mp (by simpa using hlength)
    simp
  · have hlt := Nat.ofDigits_lt_base_pow_length hb hd
    have hpow : b ^ ds.length ≤ b ^ es.dropLast.length := by
      refine Nat.pow_le_pow_right (by omega) ?_
      rw [List.length_dropLast]
      omega
    have hvalue : Nat.ofDigits b es =
        Nat.ofDigits b es.dropLast + b ^ es.dropLast.length * es.getLast hne := by
      conv_lhs => rw [← List.dropLast_concat_getLast hne]
      rw [Nat.ofDigits_append, Nat.ofDigits_singleton]
    have hmul := Nat.le_mul_of_pos_right (b ^ es.dropLast.length) (Nat.pos_of_ne_zero hlast)
    omega

theorem value_le_of_less {b : ℕ} (hb : 1 < b) {ds es : List ℕ} (hd : Proper b ds)
    (he : Proper b es) (htrim : Trimmed es) (h : less ds es = true) :
    Nat.ofDigits b ds ≤ Nat.ofDigits b es := by
  rw [less, Bool.or_eq_true, Bool.and_eq_true, decide_eq_true_eq, decide_eq_true_eq,
    decide_eq_true_eq] at h
  rcases h with hlength | ⟨hlength, hlex⟩
  · exact value_le_of_length_lt hb hd htrim hlength
  · rw [lex_lt_iff hb (fun d h => hd d (List.mem_reverse.mp h))
      (fun d h => he d (List.mem_reverse.mp h)) (by simpa using hlength),
      List.reverse_reverse, List.reverse_reverse] at hlex
    exact hlex.le

theorem value_le_of_not_less {b : ℕ} (hb : 1 < b) {ds es : List ℕ} (hd : Proper b ds)
    (he : Proper b es) (htrim : Trimmed ds) (h : less ds es = false) :
    es.length ≤ ds.length ∧ Nat.ofDigits b es ≤ Nat.ofDigits b ds := by
  rw [less, Bool.or_eq_false_iff, Bool.and_eq_false_iff, decide_eq_false_iff_not,
    decide_eq_false_iff_not, decide_eq_false_iff_not] at h
  obtain ⟨hlength, hlex⟩ := h
  refine ⟨by omega, ?_⟩
  rcases hlex with hne | hlex
  · exact value_le_of_length_lt hb he htrim (by omega)
  · by_cases hsame : ds.length = es.length
    · rw [lex_lt_iff hb (fun d h => hd d (List.mem_reverse.mp h))
        (fun d h => he d (List.mem_reverse.mp h)) (by simpa using hsame),
        List.reverse_reverse, List.reverse_reverse] at hlex
      exact not_lt.mp hlex
    · exact value_le_of_length_lt hb he htrim (by omega)

theorem length_le_of_less {ds es : List ℕ} (h : less ds es = true) : ds.length ≤ es.length := by
  rw [less, Bool.or_eq_true, Bool.and_eq_true, decide_eq_true_eq, decide_eq_true_eq] at h
  omega

/-! ## Multiplying -/

/-- One row: `a * bs` is added to the cells, the last carry goes to the next cell. -/
def mulRow (b a : ℕ) : List ℕ → List ℕ → ℕ → List ℕ
  | [], cells, carry => cells.set 0 carry
  | _ :: _, [], _ => []
  | e :: es, c :: cells, carry =>
      let product := c + a * e + carry
      product % b :: mulRow b a es cells (product / b)

/-- The rows, each one cell further. -/
def mulRows (b : ℕ) : List ℕ → List ℕ → List ℕ → List ℕ
  | [], _, cells => cells
  | a :: as, es, cells =>
      match mulRow b a es cells 0 with
      | [] => []
      | c :: rest => c :: mulRows b as es rest

def multiply (b : ℕ) (ds es : List ℕ) : List ℕ :=
  mulRows b ds es (List.replicate (ds.length + es.length) 0)

theorem length_mulRow {b a : ℕ} {es cells : List ℕ} (carry : ℕ) (h : es.length ≤ cells.length) :
    (mulRow b a es cells carry).length = cells.length := by
  induction es generalizing cells carry with
  | nil => rw [mulRow, List.length_set]
  | cons e es ih =>
      cases cells with
      | nil => simp at h
      | cons c cells =>
          rw [mulRow, List.length_cons, List.length_cons, ih _ (by simpa using h)]

/-- A row adds its product, if the cell that takes the last carry is still zero. -/
theorem mulRow_value {b a : ℕ} {es front : List ℕ} (back : List ℕ) (carry : ℕ)
    (hlength : front.length = es.length) :
    Nat.ofDigits b (mulRow b a es (front ++ 0 :: back) carry) =
      Nat.ofDigits b (front ++ 0 :: back) + a * Nat.ofDigits b es + carry := by
  induction es generalizing front carry with
  | nil =>
      obtain rfl : front = [] := List.length_eq_zero_iff.mp hlength
      simp [mulRow, Nat.ofDigits_cons]
      ring
  | cons e es ih =>
      cases front with
      | nil => cases hlength
      | cons c front =>
          have hrest := ih ((c + a * e + carry) / b) (Nat.succ.inj hlength)
          have hsum := Nat.mod_add_div (c + a * e + carry) b
          rw [List.cons_append, mulRow, Nat.ofDigits_cons, Nat.ofDigits_cons, Nat.ofDigits_cons,
            hrest]
          linear_combination hsum

/-- A row leaves the cells behind the carry alone. -/
theorem mulRow_back {b a : ℕ} {es front : List ℕ} (back : List ℕ) (carry : ℕ)
    (hlength : front.length = es.length) :
    ∃ row, row.length = es.length + 1 ∧ mulRow b a es (front ++ 0 :: back) carry = row ++ back := by
  induction es generalizing front carry with
  | nil =>
      obtain rfl : front = [] := List.length_eq_zero_iff.mp hlength
      exact ⟨[carry], rfl, rfl⟩
  | cons e es ih =>
      cases front with
      | nil => cases hlength
      | cons c front =>
          obtain ⟨row, hrow, heq⟩ := ih ((c + a * e + carry) / b) (Nat.succ.inj hlength)
          refine ⟨(c + a * e + carry) % b :: row, by rw [List.length_cons, hrow, List.length_cons], ?_⟩
          rw [List.cons_append, mulRow, heq]
          rfl

/-- Cells and carries stay digits, so that no sum of a row reaches the square of the base. -/
theorem proper_mulRow {b a : ℕ} (ha : a < b) {es cells : List ℕ} {carry : ℕ}
    (he : Proper b es) (hcells : Proper b cells) (hcarry : carry < b) :
    Proper b (mulRow b a es cells carry) := by
  induction es generalizing cells carry with
  | nil =>
      intro x hx
      rw [mulRow] at hx
      rcases List.mem_or_eq_of_mem_set hx with hx | rfl
      · exact hcells x hx
      · exact hcarry
  | cons e es ih =>
      cases cells with
      | nil => simp [mulRow, Proper]
      | cons c cells =>
          have hpos : 0 < b := by omega
          rw [mulRow]
          intro x hx
          rcases List.mem_cons.mp hx with rfl | hx
          · exact Nat.mod_lt _ hpos
          · refine ih (fun d hd => he d (List.mem_cons_of_mem _ hd))
              (fun d hd => hcells d (List.mem_cons_of_mem _ hd)) ?_ x hx
            have hc := hcells c List.mem_cons_self
            have hmul : a * e ≤ (b - 1) * (b - 1) :=
              Nat.mul_le_mul (by omega) (Nat.le_sub_one_of_lt (he e List.mem_cons_self))
            rw [Nat.div_lt_iff_lt_mul hpos]
            obtain ⟨n, rfl⟩ : ∃ n, b = n + 1 := ⟨b - 1, by omega⟩
            rw [Nat.add_sub_cancel] at hmul
            have hsquare : (n + 1) * (n + 1) = n * n + 2 * n + 1 := by ring
            omega

theorem mulRows_value {b : ℕ} {es : List ℕ} (ds : List ℕ) {cells : List ℕ}
    (hlength : cells.length = es.length) :
    Nat.ofDigits b (mulRows b ds es (cells ++ List.replicate ds.length 0)) =
      Nat.ofDigits b cells + Nat.ofDigits b ds * Nat.ofDigits b es := by
  induction ds generalizing cells with
  | nil => simp [mulRows]
  | cons d ds ih =>
      obtain ⟨row, hrow, heq⟩ := mulRow_back (b := b) (a := d)
        (List.replicate ds.length 0) 0 hlength
      have hvalue := mulRow_value (b := b) (a := d) (List.replicate ds.length 0) 0 hlength
      rw [List.length_cons, List.replicate_succ, mulRows, heq]
      cases row with
      | nil => cases hrow
      | cons c row =>
          have hrest := ih (Nat.succ.inj hrow)
          rw [heq, List.cons_append, Nat.ofDigits_cons, Nat.ofDigits_append_replicate_zero,
            Nat.ofDigits_append, Nat.ofDigits_cons, Nat.ofDigits_replicate_zero] at hvalue
          rw [List.cons_append]
          dsimp only
          rw [Nat.ofDigits_cons, hrest, Nat.ofDigits_cons]
          linear_combination hvalue

theorem proper_mulRows {b : ℕ} (hb : 0 < b) {ds es cells : List ℕ} (hd : Proper b ds)
    (he : Proper b es) (hcells : Proper b cells) : Proper b (mulRows b ds es cells) := by
  induction ds generalizing cells with
  | nil => exact hcells
  | cons d ds ih =>
      have hrow := proper_mulRow (hd d List.mem_cons_self) he hcells hb
      rw [mulRows]
      split
      · simp [Proper]
      · next c rest heq =>
          rw [heq] at hrow
          intro x hx
          rcases List.mem_cons.mp hx with rfl | hx
          · exact hrow _ List.mem_cons_self
          · exact ih (fun x hx => hd x (List.mem_cons_of_mem _ hx))
              (fun x hx => hrow x (List.mem_cons_of_mem _ hx)) x hx

theorem length_mulRows {b : ℕ} {es : List ℕ} (ds : List ℕ) {cells : List ℕ}
    (h : ds.length + es.length ≤ cells.length) : (mulRows b ds es cells).length = cells.length := by
  induction ds generalizing cells with
  | nil => rfl
  | cons d ds ih =>
      rw [List.length_cons] at h
      have hrow := length_mulRow (b := b) (a := d) 0 (show es.length ≤ cells.length by omega)
      rw [mulRows]
      split
      · next hnil =>
          rw [hnil] at hrow
          exact hrow
      · next c rest heq =>
          rw [heq, List.length_cons] at hrow
          rw [List.length_cons, ih (by omega), hrow]

theorem multiply_ne_nil (b : ℕ) {ds : List ℕ} (h : ds ≠ []) (es : List ℕ) :
    multiply b ds es ≠ [] := by
  have hpos := List.length_pos_iff.mpr h
  refine List.ne_nil_of_length_pos ?_
  rw [multiply, length_mulRows ds (List.length_replicate.ge), List.length_replicate]
  omega

theorem value_multiply (b : ℕ) (ds es : List ℕ) :
    Nat.ofDigits b (multiply b ds es) = Nat.ofDigits b ds * Nat.ofDigits b es := by
  rw [multiply, Nat.add_comm, ← List.replicate_append_replicate,
    mulRows_value ds List.length_replicate, Nat.ofDigits_replicate_zero, Nat.zero_add]

theorem proper_multiply {b : ℕ} (hb : 0 < b) {ds es : List ℕ} (hd : Proper b ds)
    (he : Proper b es) : Proper b (multiply b ds es) := by
  refine proper_mulRows hb hd he fun d h => ?_
  rw [(List.mem_replicate.mp h).2]
  exact hb

/-! ## Fixed formats -/

/-- Trailing zeros off a coefficient over a power of the base, until the coefficient is at
most `M` and the scale at most `S`. -/
def shrink (b M S : ℕ) : ℕ → ℕ → ℕ × ℕ
  | c, 0 => (c, 0)
  | c, s + 1 => if (M < c ∨ S < s + 1) ∧ c % b = 0 then shrink b M S (c / b) s else (c, s + 1)

theorem shrink_value (b M S c s : ℕ) :
    (shrink b M S c s).1 * b ^ s = c * b ^ (shrink b M S c s).2 := by
  induction s generalizing c with
  | zero => rfl
  | succ s ih =>
      rw [shrink]
      split
      · next hshrinks =>
          have hdvd : c / b * b = c := Nat.div_mul_cancel (Nat.dvd_of_mod_eq_zero hshrinks.2)
          calc (shrink b M S (c / b) s).1 * b ^ (s + 1)
              = (shrink b M S (c / b) s).1 * b ^ s * b := by rw [pow_succ, Nat.mul_assoc]
            _ = c / b * b * b ^ (shrink b M S (c / b) s).2 := by rw [ih]; ring
            _ = c * b ^ (shrink b M S (c / b) s).2 := by rw [hdvd]
      · rfl

/-- What is left fits the format exactly if the number has a form that does. -/
theorem shrink_fits_iff {b : ℕ} (hb : 1 < b) (M S c s : ℕ) :
    ((shrink b M S c s).1 ≤ M ∧ (shrink b M S c s).2 ≤ S) ↔
      ∃ c' s', c' ≤ M ∧ s' ≤ S ∧ c' * b ^ s = c * b ^ s' := by
  refine ⟨fun h => ⟨_, _, h.1, h.2, shrink_value b M S c s⟩, ?_⟩
  rintro ⟨c', s', hc', hs', heq⟩
  have hpow (k : ℕ) : 0 < b ^ k := Nat.pow_pos (by omega)
  induction s generalizing c with
  | zero =>
      rw [pow_zero, Nat.mul_one] at heq
      refine ⟨?_, Nat.zero_le S⟩
      calc c ≤ c * b ^ s' := Nat.le_mul_of_pos_right c (hpow s')
        _ = c' := heq.symm
        _ ≤ M := hc'
  | succ s ih =>
      rw [shrink]
      by_cases hfits : c ≤ M ∧ s + 1 ≤ S
      · rw [if_neg (by omega)]
        exact hfits
      -- A form that fits has a smaller scale, so the coefficient ends with a zero.
      have hscale : s' ≤ s := by
        by_contra hlt
        refine hfits ⟨?_, by omega⟩
        have hsplit : b ^ s' = b ^ (s' - (s + 1)) * b ^ (s + 1) := by
          rw [← pow_add, Nat.sub_add_cancel (by omega)]
        rw [hsplit, ← Nat.mul_assoc] at heq
        have hcoefficient := Nat.eq_of_mul_eq_mul_right (hpow (s + 1)) heq
        calc c ≤ c * b ^ (s' - (s + 1)) := Nat.le_mul_of_pos_right c (hpow _)
          _ = c' := hcoefficient.symm
          _ ≤ M := hc'
      have hc : c = c' * b ^ (s - s') * b := by
        have hsplit : b ^ (s + 1) = b ^ (s - s') * b * b ^ s' := by
          rw [← pow_succ, ← pow_add]
          congr 1
          omega
        rw [hsplit, ← Nat.mul_assoc] at heq
        rw [← Nat.eq_of_mul_eq_mul_right (hpow s') heq]
        ring
      have hmod : c % b = 0 := by rw [hc, Nat.mul_mod_left]
      rw [if_pos ⟨by omega, hmod⟩]
      refine ih (c / b) ?_
      have hdvd : c / b * b = c := Nat.div_mul_cancel (Nat.dvd_of_mod_eq_zero hmod)
      refine Nat.eq_of_mul_eq_mul_right (by omega : 0 < b) ?_
      calc c' * b ^ s * b = c' * b ^ (s + 1) := by rw [pow_succ, Nat.mul_assoc]
        _ = c / b * b * b ^ s' := by rw [heq, hdvd]
        _ = c / b * b ^ s' * b := by ring

end Pollard.Lib.Digits
