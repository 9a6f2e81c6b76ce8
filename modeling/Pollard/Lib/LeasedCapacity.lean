import Pollard.Lib.Dict
import Mathlib.Algebra.Order.Group.Defs
import Mathlib.Algebra.Order.BigOperators.Group.List

/-!
# Leased capacity

An abstract book of capacities.  Each account has a limit and a load, the amount
consumed so far as seen from an instant.  A hold sets amounts aside until it
expires; settling it turns at most that much into load.  Admission compares the
load and the live holds with the limit, and nothing else ever does.

The one theorem is that the limit then bounds load and live holds together at
every instant from the last step on.
-/

namespace Pollard.Lib.LeasedCapacity

/-- Amounts set aside on some accounts until an instant. -/
structure Hold (ι T A : Type) where
  expires : T
  amount : ι → A

structure Book (ι κ T A : Type) where
  load : ι → T → A
  holds : Dict κ (Hold ι T A)

variable {ι κ T A : Type} [LinearOrder T] [AddCommGroup A] [PartialOrder A]

/-- What a hold sets aside on an account at an instant. -/
def Hold.live (h : Hold ι T A) (i : ι) (t : T) : A :=
  if t < h.expires then h.amount i else 0

/-- What all holds set aside on an account at an instant. -/
def Book.held (b : Book ι κ T A) (i : ι) (t : T) : A :=
  b.holds.sumBy fun h => h.live i t

theorem Hold.live_nonneg {h : Hold ι T A} {i : ι} (hamount : 0 ≤ h.amount i) (t : T) :
    0 ≤ h.live i t := by
  unfold Hold.live
  split
  · exact hamount
  · exact le_rfl

theorem Hold.live_le_amount {h : Hold ι T A} {i : ι} (hamount : 0 ≤ h.amount i) (t : T) :
    h.live i t ≤ h.amount i := by
  unfold Hold.live
  split
  · exact le_rfl
  · exact hamount

theorem Hold.live_anti {h : Hold ι T A} {i : ι} (hamount : 0 ≤ h.amount i) {t u : T}
    (htu : t ≤ u) : h.live i u ≤ h.live i t := by
  unfold Hold.live
  split
  · next hu => rw [if_pos (lt_of_le_of_lt htu hu)]
  · split
    · exact hamount
    · exact le_rfl

variable [DecidableEq κ]

/-- The moves of the book at an instant. -/
inductive Step (limit : ι → A) (now : T) (b : Book ι κ T A) : Book ι κ T A → Prop
  /-- A hold is admitted if each account it touches has room for it. -/
  | grant (k : κ) (h : Hold ι T A) (fresh : b.holds.get? k = none)
      (nonneg : ∀ i, 0 ≤ h.amount i)
      (fits : ∀ i, h.amount i ≠ 0 → b.load i now + b.held i now + h.amount i ≤ limit i) :
      Step limit now b ⟨b.load, b.holds.set k h⟩
  /-- A live hold is exchanged for load of at most its amounts. -/
  | settle (k : κ) (h : Hold ι T A) (load : ι → T → A) (found : b.holds.get? k = some h)
      (live : now < h.expires)
      (charged : ∀ i t, now ≤ t → load i t ≤ b.load i t + h.amount i)
      (aging : ∀ i t u, now ≤ t → t ≤ u → load i u ≤ load i t) :
      Step limit now b ⟨load, b.holds.erase k⟩
  /-- A hold is given back. -/
  | drop (k : κ) (h : Hold ι T A) (found : b.holds.get? k = some h) :
      Step limit now b ⟨b.load, b.holds.erase k⟩
  /-- A live hold gets a new expiry. -/
  | extend (k : κ) (h : Hold ι T A) (expires : T) (found : b.holds.get? k = some h)
      (live : now < h.expires) :
      Step limit now b ⟨b.load, b.holds.set k ⟨expires, h.amount⟩⟩
  | idle : Step limit now b b

/-- The invariant: load only ages away, holds are nonnegative, and the limit
bounds load and live holds from now on. -/
structure Sound (limit : ι → A) (now : T) (b : Book ι κ T A) : Prop where
  aging : ∀ i t u, now ≤ t → t ≤ u → b.load i u ≤ b.load i t
  nonneg : ∀ k h, b.holds.get? k = some h → ∀ i, 0 ≤ h.amount i
  within : ∀ i t, now ≤ t → b.load i t + b.held i t ≤ limit i

omit [LinearOrder T] in
theorem nonneg_set {b : Book ι κ T A}
    (hb : ∀ k h, b.holds.get? k = some h → ∀ i, 0 ≤ h.amount i) {k : κ} {h : Hold ι T A}
    (hh : ∀ i, 0 ≤ h.amount i) :
    ∀ k' h', (b.holds.set k h).get? k' = some h' → ∀ i, 0 ≤ h'.amount i := by
  intro k' h' hget
  rw [Dict.get?_set] at hget
  split at hget
  · cases hget
    exact hh
  · exact hb k' h' hget

omit [LinearOrder T] in
theorem nonneg_erase {b : Book ι κ T A}
    (hb : ∀ k h, b.holds.get? k = some h → ∀ i, 0 ≤ h.amount i) (k : κ) :
    ∀ k' h', (b.holds.erase k).get? k' = some h' → ∀ i, 0 ≤ h'.amount i := by
  intro k' h' hget
  rw [Dict.erase, Dict.get?_filter, Option.filter_eq_some_iff] at hget
  exact hb k' h' hget.1

theorem Sound.later {limit : ι → A} {now now' : T} {b : Book ι κ T A}
    (hb : Sound limit now b) (hnow : now ≤ now') : Sound limit now' b where
  aging i t u ht htu := hb.aging i t u (hnow.trans ht) htu
  nonneg := hb.nonneg
  within i t ht := hb.within i t (hnow.trans ht)

variable [IsOrderedAddMonoid A]

theorem held_nonneg {b : Book ι κ T A}
    (hb : ∀ k h, b.holds.get? k = some h → ∀ i, 0 ≤ h.amount i) (i : ι) (t : T) :
    0 ≤ b.held i t := by
  apply List.sum_nonneg
  intro x hx
  obtain ⟨h, hmem, rfl⟩ := List.mem_map.mp hx
  obtain ⟨k, hk⟩ := Dict.exists_get?_of_mem_values hmem
  exact Hold.live_nonneg (hb k h hk i) t

/-- Live holds only expire. -/
theorem held_anti {b : Book ι κ T A}
    (hb : ∀ k h, b.holds.get? k = some h → ∀ i, 0 ≤ h.amount i) (i : ι) {t u : T}
    (htu : t ≤ u) : b.held i u ≤ b.held i t := by
  apply List.sum_le_sum
  intro h hmem
  obtain ⟨k, hk⟩ := Dict.exists_get?_of_mem_values hmem
  exact Hold.live_anti (hb k h hk i) htu

/-- One move keeps the invariant. -/
theorem Sound.step {limit : ι → A} {now now' : T} {b b' : Book ι κ T A}
    (hb : Sound limit now b) (hnow : now ≤ now') (hstep : Step limit now' b b') :
    Sound limit now' b' := by
  have hlater := hb.later hnow
  cases hstep with
  | grant k h fresh nonneg fits =>
      refine ⟨hlater.aging, nonneg_set hb.nonneg nonneg, fun i t ht => ?_⟩
      have hheld : Book.held ⟨b.load, b.holds.set k h⟩ i t = b.held i t + h.live i t :=
        Dict.sumBy_set_of_get?_none (fun h : Hold ι T A => h.live i t) h fresh
      rw [hheld, ← add_assoc]
      by_cases hzero : h.amount i = 0
      · have hlive : h.live i t = 0 := by simp [Hold.live, hzero]
        rw [hlive, add_zero]
        exact hlater.within i t ht
      · calc
          b.load i t + b.held i t + h.live i t
              ≤ b.load i now' + b.held i now' + h.amount i :=
            add_le_add (add_le_add (hlater.aging i now' t le_rfl ht)
              (held_anti hb.nonneg i ht)) (Hold.live_le_amount (nonneg i) t)
          _ ≤ limit i := fits i hzero
  | settle k h load found live charged aging =>
      refine ⟨aging, nonneg_erase hb.nonneg k, fun i t ht => ?_⟩
      have hheld : ∀ t, b.held i t = Book.held ⟨load, b.holds.erase k⟩ i t + h.live i t :=
        fun t => (Dict.sumBy_erase_of_get?_some (fun h : Hold ι T A => h.live i t) found).symm
      have hlive : h.live i now' = h.amount i := by rw [Hold.live, if_pos live]
      -- The bound is taken at the settling instant, where the hold still counts.
      calc
        load i t + Book.held ⟨load, b.holds.erase k⟩ i t
            ≤ load i now' + Book.held ⟨load, b.holds.erase k⟩ i now' :=
          add_le_add (aging i now' t le_rfl ht)
            (held_anti (b := ⟨load, b.holds.erase k⟩) (nonneg_erase hb.nonneg k) i ht)
        _ ≤ b.load i now' + h.amount i + Book.held ⟨load, b.holds.erase k⟩ i now' :=
          add_le_add_left (charged i now' le_rfl) _
        _ = b.load i now' + b.held i now' := by rw [hheld now', hlive]; abel
        _ ≤ limit i := hlater.within i now' le_rfl
  | drop k h found =>
      refine ⟨hlater.aging, nonneg_erase hb.nonneg k, fun i t ht => ?_⟩
      have hheld : Book.held ⟨b.load, b.holds.erase k⟩ i t + h.live i t = b.held i t :=
        Dict.sumBy_erase_of_get?_some (fun h : Hold ι T A => h.live i t) found
      refine le_trans (add_le_add_right ?_ (b.load i t)) (hlater.within i t ht)
      rw [← hheld]
      exact le_add_of_nonneg_right (Hold.live_nonneg (hb.nonneg k h found i) t)
  | extend k h expires found live =>
      have hamount := hb.nonneg k h found
      refine ⟨hlater.aging, nonneg_set hb.nonneg hamount, fun i t ht => ?_⟩
      have hheld := Dict.sumBy_set_of_get?_some (fun h : Hold ι T A => h.live i now')
        ⟨expires, h.amount⟩ found
      have hlive : h.live i now' = h.amount i := by rw [Hold.live, if_pos live]
      have hle : Book.held ⟨b.load, b.holds.set k ⟨expires, h.amount⟩⟩ i now' ≤ b.held i now' := by
        have hnew := Hold.live_le_amount (h := ⟨expires, h.amount⟩) (hamount i) now'
        have hsum : Book.held ⟨b.load, b.holds.set k ⟨expires, h.amount⟩⟩ i now' + h.amount i
            = b.held i now' + Hold.live ⟨expires, h.amount⟩ i now' := by
          rw [← hlive]
          exact hheld
        have hbound : Book.held ⟨b.load, b.holds.set k ⟨expires, h.amount⟩⟩ i now' + h.amount i
            ≤ b.held i now' + h.amount i := hsum.trans_le (add_le_add_right hnew _)
        exact le_of_add_le_add_right hbound
      calc
        b.load i t + Book.held ⟨b.load, b.holds.set k ⟨expires, h.amount⟩⟩ i t
            ≤ b.load i now' + Book.held ⟨b.load, b.holds.set k ⟨expires, h.amount⟩⟩ i now' :=
          add_le_add (hlater.aging i now' t le_rfl ht)
            (held_anti (b := ⟨b.load, b.holds.set k ⟨expires, h.amount⟩⟩)
              (nonneg_set hb.nonneg hamount) i ht)
        _ ≤ b.load i now' + b.held i now' := add_le_add_right hle _
        _ ≤ limit i := hlater.within i now' le_rfl
  | idle => exact hlater

end Pollard.Lib.LeasedCapacity
