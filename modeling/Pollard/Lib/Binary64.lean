import Mathlib.Data.Int.Log
import Mathlib.Data.Rat.Floor
import Mathlib.Tactic.Linarith
import Mathlib.Tactic.Positivity

/-!
# Binary64 numbers as rationals

Rounding to the nearest binary64 number, ties to even, and the shortest decimal
that rounds back to one.  A finite binary64 number is its exact value; infinities
and NaN have no value here, and exponents are not bounded above.
-/

namespace Pollard.Lib.Binary64

/-- The nearest integer, ties to even. -/
def roundHalfEven (q : ℚ) : ℤ :=
  let below := ⌊q⌋
  let rest := q - below
  if rest < 1 / 2 then below
  else if rest > 1 / 2 then below + 1
  else if below % 2 = 0 then below else below + 1

/-- The nearest multiple of a quantum. -/
def roundTo (quantum q : ℚ) : ℚ := roundHalfEven (q / quantum) * quantum

/-- The distance between neighbouring binary64 numbers of the size of a number. -/
def ulp (q : ℚ) : ℚ := 2 ^ max (Int.log 2 |q| - 52) (-1074)

/-- The nearest binary64 number. -/
def round (q : ℚ) : ℚ := roundTo (ulp q) q

/-- The nearest decimal of a number of significant digits. -/
def decimal (digits : ℕ) (q : ℚ) : ℚ := roundTo (10 ^ (Int.log 10 |q| + 1 - digits)) q

/-- The shortest decimal that rounds to a binary64 number; seventeen digits always
suffice. -/
def shortest (q : ℚ) : ℚ :=
  (((List.range 17).map fun n => decimal (n + 1) q).find? fun d => round d = q).getD q

theorem roundHalfEven_intCast (n : ℤ) : roundHalfEven n = n := by
  simp [roundHalfEven]

theorem roundTo_of_multiple {quantum : ℚ} (h : quantum ≠ 0) (n : ℤ) :
    roundTo quantum (n * quantum) = n * quantum := by
  rw [roundTo, mul_div_cancel_right₀ _ h, roundHalfEven_intCast]

@[simp] theorem round_zero : round 0 = 0 := by
  simp [round, roundTo, roundHalfEven]

@[simp] theorem decimal_zero (digits : ℕ) : decimal digits 0 = 0 := by
  simp [decimal, roundTo, roundHalfEven]

@[simp] theorem shortest_zero : shortest 0 = 0 := by
  simp [shortest, List.range_succ_eq_map]

example : round (1 / 10) ≠ 1 / 10 ∧ shortest (round (1 / 10)) = 1 / 10 := by decide +kernel

example : round (2 ^ 53 + 1) = 2 ^ 53 := by decide +kernel

/-! ## Rounding keeps the order -/

theorem le_roundHalfEven (q : ℚ) : ⌊q⌋ ≤ roundHalfEven q := by
  unfold roundHalfEven
  dsimp only
  split_ifs <;> omega

theorem roundHalfEven_le (q : ℚ) : roundHalfEven q ≤ ⌊q⌋ + 1 := by
  unfold roundHalfEven
  dsimp only
  split_ifs <;> omega

theorem roundHalfEven_mono {a b : ℚ} (h : a ≤ b) : roundHalfEven a ≤ roundHalfEven b := by
  rcases (Int.floor_le_floor h).lt_or_eq with hlt | heq
  · exact (roundHalfEven_le a).trans (hlt.trans_le (le_roundHalfEven b))
  · have hrest : a - (⌊a⌋ : ℚ) ≤ b - (⌊b⌋ : ℚ) := by rw [heq]; linarith
    unfold roundHalfEven
    dsimp only
    rw [← heq] at hrest ⊢
    split_ifs <;> first | omega | (exfalso; linarith)

theorem roundTo_mono {quantum a b : ℚ} (hquantum : 0 < quantum) (h : a ≤ b) :
    roundTo quantum a ≤ roundTo quantum b := by
  unfold roundTo
  have hdiv : a / quantum ≤ b / quantum := div_le_div_of_nonneg_right h hquantum.le
  exact mul_le_mul_of_nonneg_right (Int.cast_le.mpr (roundHalfEven_mono hdiv)) hquantum.le

theorem ulp_pos (q : ℚ) : 0 < ulp q := zpow_pos two_pos _

/-- A power of two is a multiple of a smaller one. -/
theorem zpow_multiple {u e : ℤ} (h : u ≤ e) : ∃ n : ℤ, (2 : ℚ) ^ e = n * 2 ^ u := by
  refine ⟨2 ^ (e - u).toNat, ?_⟩
  rw [Int.cast_pow, Int.cast_ofNat, ← zpow_natCast, ← zpow_add₀ two_ne_zero,
    Int.toNat_of_nonneg (by omega)]
  congr 1
  omega

theorem roundTo_zpow {u e : ℤ} (h : u ≤ e) : roundTo (2 ^ u) ((2 : ℚ) ^ e) = 2 ^ e := by
  obtain ⟨n, hn⟩ := zpow_multiple h
  rw [hn, roundTo_of_multiple (zpow_pos two_pos u).ne']

theorem round_nonneg {q : ℚ} (h : 0 ≤ q) : 0 ≤ round q := by
  have hzero : roundTo (ulp q) 0 = 0 := by simp [roundTo, roundHalfEven]
  rw [← hzero]
  exact roundTo_mono (ulp_pos q) h

/-- Rounding keeps the order of nonnegative numbers. -/
theorem round_mono {a b : ℚ} (ha : 0 ≤ a) (h : a ≤ b) : round a ≤ round b := by
  rcases ha.eq_or_lt with rfl | hpos
  · rw [round_zero]
    exact round_nonneg h
  have hb : 0 < b := hpos.trans_le h
  have hlog : Int.log 2 a ≤ Int.log 2 b := Int.log_mono_right hpos h
  rw [round, round, ulp, ulp, abs_of_pos hpos, abs_of_pos hb]
  rcases hlog.eq_or_lt with heq | hlt
  · rw [heq]
    exact roundTo_mono (zpow_pos two_pos _) h
  by_cases hsubnormal : Int.log 2 b - 52 ≤ -1074
  · rw [max_eq_right hsubnormal, max_eq_right (by omega)]
    exact roundTo_mono (zpow_pos two_pos _) h
  -- A power of two stands between the numbers, and both quanta divide it.
  have hbelow : a ≤ (2 : ℚ) ^ Int.log 2 b :=
    ((Int.lt_zpow_iff_log_lt one_lt_two hpos).mpr hlt).le
  have habove : (2 : ℚ) ^ Int.log 2 b ≤ b := Int.zpow_log_le_self one_lt_two hb
  calc
    roundTo (2 ^ max (Int.log 2 a - 52) (-1074)) a
        ≤ roundTo (2 ^ max (Int.log 2 a - 52) (-1074)) (2 ^ Int.log 2 b) :=
      roundTo_mono (zpow_pos two_pos _) hbelow
    _ = 2 ^ Int.log 2 b := roundTo_zpow (by omega)
    _ = roundTo (2 ^ max (Int.log 2 b - 52) (-1074)) (2 ^ Int.log 2 b) :=
      (roundTo_zpow (by omega)).symm
    _ ≤ roundTo (2 ^ max (Int.log 2 b - 52) (-1074)) b := roundTo_mono (zpow_pos two_pos _) habove

theorem ulp_eq {q : ℚ} {e : ℤ} (hbelow : (2 : ℚ) ^ e ≤ q) (habove : q < 2 ^ (e + 1)) :
    ulp q = 2 ^ max (e - 52) (-1074) := by
  have hpos : 0 < q := (zpow_pos two_pos e).trans_le hbelow
  have hlog : Int.log 2 q = e := by
    have hle := (Int.zpow_le_iff_le_log one_lt_two hpos).mp hbelow
    have hlt := (Int.lt_zpow_iff_log_lt one_lt_two hpos).mp habove
    omega
  rw [ulp, abs_of_pos hpos, hlog]

/-- Less than half a quantum is rounded away. -/
theorem roundTo_add_of_lt_half {quantum rest : ℚ} (hquantum : 0 < quantum) (n : ℤ)
    (hrest : 0 ≤ rest) (hhalf : 2 * rest < quantum) :
    roundTo quantum (n * quantum + rest) = n * quantum := by
  have hdiv : (n * quantum + rest) / quantum = n + rest / quantum := by
    field_simp
  have hsmall : rest / quantum < 1 / 2 := by
    rw [div_lt_div_iff₀ hquantum two_pos]
    linarith
  have hfloor : ⌊rest / quantum⌋ = 0 := by
    rw [Int.floor_eq_zero_iff]
    exact ⟨div_nonneg hrest hquantum.le, by linarith⟩
  rw [roundTo, hdiv, roundHalfEven, Int.floor_intCast_add, hfloor, add_zero,
    if_pos (by linarith)]

/-- A number of at most 53 bits is its own rounding. -/
theorem round_natCast {n : ℕ} (h : n ≤ 2 ^ 53) : round n = n := by
  rcases Nat.eq_zero_or_pos n with rfl | hpos
  · simp
  have hpos' : (0 : ℚ) < n := Nat.cast_pos.mpr hpos
  have hone : (1 : ℚ) ≤ n := Nat.one_le_cast.mpr hpos
  have hlog : 0 ≤ Int.log 2 (n : ℚ) :=
    (Int.zpow_le_iff_le_log one_lt_two hpos').mp (by simpa using hone)
  by_cases htop : n = 2 ^ 53
  · subst htop
    have hcast : ((2 ^ 53 : ℕ) : ℚ) = 2 ^ (53 : ℤ) := by norm_num
    rw [hcast, round, ulp_eq le_rfl (by norm_num)]
    exact roundTo_zpow (by norm_num)
  have hlt : (n : ℚ) < 2 ^ (53 : ℤ) := by
    have hcast : (n : ℚ) < (2 ^ 53 : ℕ) := Nat.cast_lt.mpr (by omega)
    norm_num at hcast ⊢
    exact hcast
  have hlog' : Int.log 2 (n : ℚ) < 53 := (Int.lt_zpow_iff_log_lt one_lt_two hpos').mp hlt
  rw [round, ulp, abs_of_pos hpos']
  -- The quantum is at most one, so it divides the number.
  obtain ⟨m, hm⟩ := zpow_multiple (u := max (Int.log 2 (n : ℚ) - 52) (-1074)) (e := 0) (by omega)
  have hmultiple : (n : ℚ) =
      ((n * m : ℤ) : ℚ) * 2 ^ max (Int.log 2 (n : ℚ) - 52) (-1074) := by
    push_cast
    rw [mul_assoc, ← hm, zpow_zero, mul_one]
  nth_rewrite 2 [hmultiple]
  rw [roundTo_of_multiple (zpow_pos two_pos _).ne', ← hmultiple]

/-- A number of 53 bits above one swallows what is less than one. -/
theorem round_add_of_lt_one {m : ℤ} {u : ℕ} (hm : 2 ^ 52 ≤ m) (hm' : m < 2 ^ 53) {rest : ℚ}
    (hrest : 0 ≤ rest) (hone : rest < 1) :
    round (m * 2 ^ ((u : ℤ) + 1) + rest) = m * 2 ^ ((u : ℤ) + 1) := by
  have hu : (0 : ℚ) < 2 ^ ((u : ℤ) + 1) := zpow_pos two_pos _
  have htwo : (2 : ℚ) ≤ 2 ^ ((u : ℤ) + 1) := by
    rw [zpow_add_one₀ two_ne_zero, zpow_natCast]
    have hpow : (1 : ℚ) ≤ 2 ^ u := one_le_pow₀ one_le_two
    linarith
  have hlower : ((2 : ℚ) ^ (52 : ℤ)) ≤ m := by
    have hcast : ((2 ^ 52 : ℤ) : ℚ) ≤ m := Int.cast_le.mpr hm
    norm_num at hcast ⊢
    exact hcast
  have hupper : (m : ℚ) + 1 ≤ (2 : ℚ) ^ (53 : ℤ) := by
    have hcast : ((m + 1 : ℤ) : ℚ) ≤ ((2 ^ 53 : ℤ) : ℚ) := Int.cast_le.mpr hm'
    norm_num at hcast ⊢
    exact hcast
  have hulp : ulp (m * 2 ^ ((u : ℤ) + 1) + rest) = 2 ^ ((u : ℤ) + 1) := by
    rw [ulp_eq (e := 53 + u)]
    · rw [max_eq_left (by omega)]
      congr 1
      ring
    · calc
        (2 : ℚ) ^ (53 + (u : ℤ)) = 2 ^ (52 : ℤ) * 2 ^ ((u : ℤ) + 1) := by
          rw [← zpow_add₀ two_ne_zero]
          congr 1
          ring
        _ ≤ m * 2 ^ ((u : ℤ) + 1) := mul_le_mul_of_nonneg_right hlower hu.le
        _ ≤ m * 2 ^ ((u : ℤ) + 1) + rest := le_add_of_nonneg_right hrest
    · calc
        (m : ℚ) * 2 ^ ((u : ℤ) + 1) + rest < (m + 1) * 2 ^ ((u : ℤ) + 1) := by linarith
        _ ≤ 2 ^ (53 : ℤ) * 2 ^ ((u : ℤ) + 1) := mul_le_mul_of_nonneg_right hupper hu.le
        _ = 2 ^ (53 + (u : ℤ) + 1) := by
          rw [← zpow_add₀ two_ne_zero]
          congr 1
  rw [round, hulp]
  exact roundTo_add_of_lt_half hu m hrest (by linarith)

/-- The rounding of a number of 53 bits or more has 53 bits. -/
theorem round_of_le {n : ℕ} (h : 2 ^ 53 ≤ n) :
    ∃ (m : ℤ) (u : ℕ), 2 ^ 52 ≤ m ∧ m < 2 ^ 53 ∧ round n = m * 2 ^ ((u : ℤ) + 1) := by
  have hpos : (0 : ℚ) < n := Nat.cast_pos.mpr (by omega)
  have hle : (2 : ℚ) ^ (53 : ℤ) ≤ n := by
    have hcast : ((2 ^ 53 : ℕ) : ℚ) ≤ n := Nat.cast_le.mpr h
    norm_num at hcast ⊢
    exact hcast
  have hlog := (Int.zpow_le_iff_le_log one_lt_two hpos).mp hle
  obtain ⟨u, hu⟩ := Int.eq_ofNat_of_zero_le (show 0 ≤ Int.log 2 (n : ℚ) - 53 by omega)
  have hlog : Int.log 2 (n : ℚ) = u + 53 := by omega
  have hquantum : (0 : ℚ) < 2 ^ ((u : ℤ) + 1) := zpow_pos two_pos _
  have hulp : ulp (n : ℚ) = 2 ^ ((u : ℤ) + 1) := by
    rw [ulp, abs_of_pos hpos, hlog, max_eq_left (by omega)]
    congr 1
    ring
  have hlower : (2 : ℚ) ^ (52 : ℤ) * 2 ^ ((u : ℤ) + 1) ≤ n := by
    have hself := Int.zpow_log_le_self one_lt_two hpos
    rw [hlog] at hself
    refine le_of_eq_of_le ?_ hself
    rw [← zpow_add₀ two_ne_zero]
    push_cast
    congr 1
    ring
  have hupper : (n : ℚ) ≤ 2 ^ (53 : ℤ) * 2 ^ ((u : ℤ) + 1) := by
    have hself := Int.lt_zpow_succ_log_self one_lt_two (n : ℚ)
    rw [hlog] at hself
    refine hself.le.trans_eq ?_
    rw [← zpow_add₀ two_ne_zero]
    push_cast
    congr 1
    ring
  have hm : (2 ^ 52 : ℤ) ≤ roundHalfEven ((n : ℚ) / 2 ^ ((u : ℤ) + 1)) := by
    rw [← roundHalfEven_intCast (2 ^ 52)]
    refine roundHalfEven_mono ((le_div_iff₀ hquantum).mpr ?_)
    push_cast
    exact_mod_cast hlower
  have hm' : roundHalfEven ((n : ℚ) / 2 ^ ((u : ℤ) + 1)) ≤ 2 ^ 53 := by
    rw [← roundHalfEven_intCast (2 ^ 53)]
    refine roundHalfEven_mono ((div_le_iff₀ hquantum).mpr ?_)
    push_cast
    exact_mod_cast hupper
  have hround : round (n : ℚ) =
      roundHalfEven ((n : ℚ) / 2 ^ ((u : ℤ) + 1)) * 2 ^ ((u : ℤ) + 1) := by
    rw [round, hulp, roundTo]
  rcases hm'.lt_or_eq with hlt | heq
  · exact ⟨_, u, hm, hlt, hround⟩
  · refine ⟨2 ^ 52, u + 1, le_rfl, by norm_num, ?_⟩
    rw [hround, heq]
    push_cast
    rw [zpow_add_one₀ two_ne_zero (u + 1 : ℤ)]
    ring

end Pollard.Lib.Binary64
