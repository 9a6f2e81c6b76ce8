import Mathlib.Algebra.BigOperators.Group.List.Basic
import Mathlib.Data.List.Nodup

/-!
# Sums over a partition

What is summed class by class, and apart over what is in no class, is summed once.
-/

namespace Pollard.Lib.Partition

variable {α κ M : Type} [DecidableEq κ] [AddCommMonoid M] {class? : α → Option κ}

/-- The elements of a class. -/
def members (class? : α → Option κ) (c : Option κ) (l : List α) : List α :=
  l.filter fun a => class? a = c

theorem members_cons (a : α) (l : List α) (c : Option κ) :
    members class? c (a :: l) = if class? a = c then a :: members class? c l
      else members class? c l := by
  simp only [members, List.filter_cons, decide_eq_true_eq]

theorem members_append (l l' : List α) (c : Option κ) :
    members class? c (l ++ l') = members class? c l ++ members class? c l' :=
  List.filter_append ..

theorem sum_add_at {keys : List κ} (hnodup : keys.Nodup) {key : κ} (hkey : key ∈ keys) (x : M)
    (g : κ → M) : (keys.map fun k => if key = k then x + g k else g k).sum =
      x + (keys.map g).sum := by
  induction keys with
  | nil => cases hkey
  | cons k keys ih =>
      rw [List.nodup_cons] at hnodup
      rw [List.map_cons, List.map_cons, List.sum_cons, List.sum_cons]
      rcases List.mem_cons.mp hkey with rfl | hkey
      · have hrest : (keys.map fun k => if key = k then x + g k else g k) = keys.map g := by
          refine List.map_congr_left fun k hk => if_neg ?_
          rintro rfl
          exact hnodup.1 hk
        rw [if_pos rfl, hrest, add_assoc]
      · have hne : key ≠ k := fun h => hnodup.1 (h ▸ hkey)
        rw [if_neg hne, ih hnodup.2 hkey, add_left_comm]

theorem sum_members {keys : List κ} (hnodup : keys.Nodup) {l : List α}
    (hkeys : ∀ a ∈ l, ∀ k, class? a = some k → k ∈ keys) (weight : α → M) :
    (keys.map fun k => ((members class? (some k) l).map weight).sum).sum +
      ((members class? none l).map weight).sum = (l.map weight).sum := by
  induction l with
  | nil => simp [members]
  | cons a l ih =>
      rw [List.forall_mem_cons] at hkeys
      have hrest := ih hkeys.2
      rw [List.map_cons, List.sum_cons, ← hrest]
      simp only [members_cons]
      cases hclass : class? a with
      | none =>
          simp only [reduceCtorEq, if_false, if_true, List.map_cons, List.sum_cons]
          exact add_left_comm _ _ _
      | some key =>
          have hsum := sum_add_at hnodup (hkeys.1 key hclass) (weight a)
            fun k => ((members class? (some k) l).map weight).sum
          simp only [reduceCtorEq, if_false, Option.some.injEq]
          rw [← add_assoc, ← hsum]
          congr 2
          refine List.map_congr_left fun k _ => ?_
          split <;> rfl

end Pollard.Lib.Partition
