import Mathlib.Data.List.Perm.Basic
import Mathlib.Data.List.Nodup
import Mathlib.Algebra.BigOperators.Group.List.Basic

/-!
# Forests given by parent pointers

A forest is a list of keys with their parents, newest first; a parent is always
older than its children.  What lies below a key can be found from each key's chain
of ancestors, or by a walk from the key over children, in any order; both find the
same keys.
-/

namespace Pollard.Lib.Forest

variable {κ : Type}

abbrev Edges (κ : Type) := List (κ × Option κ)

def keys (edges : Edges κ) : List κ := edges.map Prod.fst

/-- Keys are distinct, and a parent is an older key. -/
def Grounded : Edges κ → Prop
  | [] => True
  | (k, p) :: older => k ∉ keys older ∧ (∀ q ∈ p, q ∈ keys older) ∧ Grounded older

theorem Grounded.nodup {edges : Edges κ} (h : Grounded edges) : (keys edges).Nodup := by
  induction edges with
  | nil => simp [keys]
  | cons edge older ih =>
      rw [keys, List.map_cons, List.nodup_cons]
      exact ⟨h.1, ih h.2.2⟩

theorem Grounded.parent_mem {edges : Edges κ} (h : Grounded edges) {k q : κ}
    (hmem : (k, some q) ∈ edges) : q ∈ keys edges := by
  induction edges with
  | nil => simp at hmem
  | cons edge older ih =>
      obtain ⟨hfresh, hparent, hgrounded⟩ := h
      rcases List.mem_cons.mp hmem with rfl | hmem
      · exact List.mem_cons_of_mem _ (hparent q rfl)
      · exact List.mem_cons_of_mem _ (ih hgrounded hmem)

/-- What holds of the roots, and of a key if of its parent, holds of every key. -/
theorem Grounded.forall_keys {edges : Edges κ} (h : Grounded edges) {P : κ → Prop}
    (hroot : ∀ k, (k, none) ∈ edges → P k)
    (hchild : ∀ k q, (k, some q) ∈ edges → P q → P k) : ∀ k ∈ keys edges, P k := by
  induction edges with
  | nil => exact nofun
  | cons edge older ih =>
      obtain ⟨k, p⟩ := edge
      obtain ⟨hfresh, hparent, hgrounded⟩ := h
      have holder := ih hgrounded (fun l hmem => hroot l (List.mem_cons_of_mem _ hmem))
        fun l q hmem => hchild l q (List.mem_cons_of_mem _ hmem)
      rw [keys, List.map_cons, List.forall_mem_cons]
      refine ⟨?_, holder⟩
      cases p with
      | none => exact hroot k List.mem_cons_self
      | some q => exact hchild k q List.mem_cons_self (holder q (hparent q rfl))

/-- What is left of a forest is one, if the parents of what is kept are kept. -/
theorem Grounded.filter {edges : Edges κ} (h : Grounded edges) {keep : κ → Bool}
    (hkeep : ∀ k q, (k, some q) ∈ edges → keep k = true → keep q = true) :
    Grounded (edges.filter fun e => keep e.1) := by
  have hkeys : ∀ older : Edges κ, keys (older.filter fun e => keep e.1) =
      (keys older).filter keep := fun older => by
    rw [keys, keys, List.filter_map]
    rfl
  induction edges with
  | nil => trivial
  | cons edge older ih =>
      obtain ⟨k, p⟩ := edge
      obtain ⟨hfresh, hparent, hgrounded⟩ := h
      have hrest := ih hgrounded fun l q hmem => hkeep l q (List.mem_cons_of_mem _ hmem)
      by_cases hk : keep k = true
      · rw [List.filter_cons_of_pos (by simpa using hk)]
        refine ⟨?_, ?_, hrest⟩
        · rw [hkeys]
          exact fun hmem => hfresh (List.mem_filter.mp hmem).1
        · intro q hq
          rw [hkeys, List.mem_filter]
          refine ⟨hparent q hq, hkeep k q ?_ hk⟩
          rw [Option.mem_def.mp hq]
          exact List.mem_cons_self
      · rw [List.filter_cons_of_neg (by simpa using hk)]
        exact hrest

/-- A walk over children, depth first. -/
def walk (children : κ → List κ) : ℕ → List κ → List κ
  | 0, _ => []
  | _ + 1, [] => []
  | fuel + 1, x :: pending => x :: walk children fuel (children x ++ pending)

/-- A walk that ended is the same with any fuel that lasts. -/
theorem walk_fuel {children : κ → List κ} {fuel fuel' : ℕ} {pending : List κ}
    (h : (walk children fuel pending).length < fuel)
    (h' : (walk children fuel pending).length < fuel') :
    walk children fuel' pending = walk children fuel pending := by
  induction fuel generalizing fuel' pending with
  | zero => exact absurd h (Nat.not_lt_zero _)
  | succ fuel ih =>
      cases fuel' with
      | zero => exact absurd h' (Nat.not_lt_zero _)
      | succ fuel' =>
          cases pending with
          | nil => rfl
          | cons x pending =>
              rw [walk, List.length_cons, Nat.add_lt_add_iff_right] at h h'
              rw [walk, walk, ih h h']

/-- A walk asks only for the children of the keys it visits. -/
theorem walk_congr {children children' : κ → List κ} {fuel : ℕ} {pending : List κ}
    (h : ∀ x ∈ walk children fuel pending, children x = children' x) :
    walk children' fuel pending = walk children fuel pending := by
  induction fuel generalizing pending with
  | zero => rfl
  | succ fuel ih =>
      cases pending with
      | nil => rfl
      | cons x pending =>
          rw [walk, List.forall_mem_cons] at h
          rw [walk, walk, ← h.1, ih h.2]

/-- A walk that ended has visited what was pending. -/
theorem mem_walk_of_pending {children : κ → List κ} {fuel : ℕ} {pending : List κ}
    (h : (walk children fuel pending).length < fuel) {x : κ} (hx : x ∈ pending) :
    x ∈ walk children fuel pending := by
  induction fuel generalizing pending with
  | zero => exact absurd h (Nat.not_lt_zero _)
  | succ fuel ih =>
      cases pending with
      | nil => cases hx
      | cons y pending =>
          rw [walk, List.length_cons, Nat.add_lt_add_iff_right] at h
          rw [walk]
          rcases List.mem_cons.mp hx with rfl | hx
          · exact List.mem_cons_self
          · exact List.mem_cons_of_mem _ (ih h (List.mem_append_right _ hx))

/-- A walk that ended has visited the children of what it visited. -/
theorem mem_walk_of_child {children : κ → List κ} {fuel : ℕ} {pending : List κ}
    (h : (walk children fuel pending).length < fuel) {x y : κ}
    (hx : x ∈ walk children fuel pending) (hy : y ∈ children x) :
    y ∈ walk children fuel pending := by
  induction fuel generalizing pending with
  | zero => exact absurd h (Nat.not_lt_zero _)
  | succ fuel ih =>
      cases pending with
      | nil => cases hx
      | cons z pending =>
          rw [walk, List.length_cons, Nat.add_lt_add_iff_right] at h
          rw [walk] at hx ⊢
          refine List.mem_cons_of_mem _ ?_
          rcases List.mem_cons.mp hx with rfl | hx
          · exact mem_walk_of_pending h (List.mem_append_left _ hy)
          · exact ih h hx

variable [DecidableEq κ]

/-- A key and its ancestors, up to a root. -/
def chain : Edges κ → κ → List κ
  | [], _ => []
  | (k, p) :: older, x =>
      if k = x then x :: p.elim [] (chain older) else chain older x

def childrenOf (edges : Edges κ) (x : κ) : List κ :=
  (edges.filter fun e => e.2 = some x).map Prod.fst

/-- The keys at or below a key. -/
def below (edges : Edges κ) (x : κ) : List κ :=
  (keys edges).filter fun y => x ∈ chain edges y

/-! ## Chains -/

theorem mem_keys_of_mem_chain {edges : Edges κ} {x y : κ} (h : y ∈ chain edges x) :
    y ∈ keys edges := by
  induction edges generalizing x with
  | nil => simp [chain] at h
  | cons edge older ih =>
      obtain ⟨k, p⟩ := edge
      by_cases hk : k = x
      · subst hk
        cases p with
        | none => simp_all [chain, keys]
        | some q =>
            rw [chain, if_pos rfl] at h
            rcases List.mem_cons.mp h with rfl | h
            · exact List.mem_cons_self
            · exact List.mem_cons_of_mem _ (ih h)
      · rw [chain, if_neg hk] at h
        exact List.mem_cons_of_mem _ (ih h)

theorem mem_chain_self {edges : Edges κ} {x : κ} (h : x ∈ keys edges) :
    x ∈ chain edges x := by
  induction edges with
  | nil => simp [keys] at h
  | cons edge older ih =>
      obtain ⟨k, p⟩ := edge
      by_cases hk : k = x
      · subst hk
        cases p <;> simp [chain]
      · rw [chain, if_neg hk]
        rcases List.mem_cons.mp h with h | h
        · exact absurd h.symm hk
        · exact ih h

theorem mem_keys_of_chain {edges : Edges κ} {x y : κ} (h : y ∈ chain edges x) :
    x ∈ keys edges := by
  induction edges with
  | nil => simp [chain] at h
  | cons edge older ih =>
      obtain ⟨k, p⟩ := edge
      by_cases hk : k = x
      · subst hk
        exact List.mem_cons_self
      · rw [chain, if_neg hk] at h
        exact List.mem_cons_of_mem _ (ih h)

/-- A new key does not change the chains of the others. -/
theorem chain_cons_of_mem {older : Edges κ} {k : κ} {p : Option κ} (hk : k ∉ keys older)
    {x : κ} (hx : x ∈ keys older) : chain ((k, p) :: older) x = chain older x := by
  rw [chain, if_neg]
  rintro rfl
  exact hk hx

theorem chain_cons_self (older : Edges κ) (k q : κ) :
    chain ((k, some q) :: older) k = k :: chain older q := by
  rw [chain, if_pos rfl, Option.elim_some]

/-- The chain of a key goes on with the one of its parent. -/
theorem chain_of_parent {edges : Edges κ} (h : Grounded edges) {k q : κ}
    (hmem : (k, some q) ∈ edges) : chain edges k = k :: chain edges q := by
  induction edges with
  | nil => cases hmem
  | cons edge older ih =>
      obtain ⟨l, p⟩ := edge
      obtain ⟨hfresh, hparent, hgrounded⟩ := h
      rcases List.mem_cons.mp hmem with hself | hmem
      · cases hself
        rw [chain_cons_self, chain_cons_of_mem hfresh (hparent q rfl)]
      · have hk : k ∈ keys older := List.mem_map_of_mem hmem
        rw [chain_cons_of_mem hfresh hk, chain_cons_of_mem hfresh (hgrounded.parent_mem hmem),
          ih hgrounded hmem]

/-- No key is above itself. -/
theorem not_mem_chain_parent {edges : Edges κ} (h : Grounded edges) {k q : κ}
    (hmem : (k, some q) ∈ edges) : k ∉ chain edges q := by
  induction edges with
  | nil => cases hmem
  | cons edge older ih =>
      obtain ⟨l, p⟩ := edge
      obtain ⟨hfresh, hparent, hgrounded⟩ := h
      rcases List.mem_cons.mp hmem with hself | hmem
      · cases hself
        rw [chain_cons_of_mem hfresh (hparent q rfl)]
        exact fun hk => hfresh (mem_keys_of_mem_chain hk)
      · rw [chain_cons_of_mem hfresh (hgrounded.parent_mem hmem)]
        exact ih hgrounded hmem

/-- An ancestor of an ancestor is an ancestor. -/
theorem chain_trans {edges : Edges κ} (h : Grounded edges) {x y z : κ}
    (hxy : x ∈ chain edges y) (hyz : y ∈ chain edges z) : x ∈ chain edges z := by
  induction edges generalizing z with
  | nil => cases hyz
  | cons edge older ih =>
      obtain ⟨k, p⟩ := edge
      obtain ⟨hfresh, hparent, hgrounded⟩ := h
      have hold : ∀ q, y ∈ chain older q → x ∈ chain older q := fun q hq => by
        rw [chain_cons_of_mem hfresh (mem_keys_of_mem_chain hq)] at hxy
        exact ih hgrounded hxy hq
      by_cases hz : k = z
      · subst hz
        cases p with
        | none =>
            have hself : y = k := by simpa [chain] using hyz
            rwa [hself] at hxy
        | some q =>
            rw [chain_cons_self] at hyz ⊢
            rcases List.mem_cons.mp hyz with rfl | hyz
            · rwa [chain_cons_self] at hxy
            · exact List.mem_cons_of_mem _ (hold q hyz)
      · rw [chain, if_neg hz] at hyz ⊢
        exact hold z hyz

/-- Keys above each other are one key. -/
theorem chain_antisymm {edges : Edges κ} (h : Grounded edges) {x y : κ}
    (hxy : x ∈ chain edges y) (hyx : y ∈ chain edges x) : x = y := by
  induction edges with
  | nil => cases hxy
  | cons edge older ih =>
      obtain ⟨k, p⟩ := edge
      obtain ⟨hfresh, -, hgrounded⟩ := h
      by_cases hy : k = y
      · by_cases hx : k = x
        · rw [← hx, hy]
        · rw [chain, if_neg hx] at hyx
          exact absurd (hy ▸ mem_keys_of_mem_chain hyx) hfresh
      · by_cases hx : k = x
        · rw [chain, if_neg hy] at hxy
          exact absurd (hx ▸ mem_keys_of_mem_chain hxy) hfresh
        · rw [chain, if_neg hy] at hxy
          rw [chain, if_neg hx] at hyx
          exact ih hgrounded hxy hyx

/-- Every chain ends at a root. -/
theorem exists_root {edges : Edges κ} (h : Grounded edges) {k : κ} (hk : k ∈ keys edges) :
    ∃ r ∈ chain edges k, (r, none) ∈ edges := by
  induction edges generalizing k with
  | nil => cases hk
  | cons edge older ih =>
      obtain ⟨l, p⟩ := edge
      obtain ⟨hfresh, hparent, hgrounded⟩ := h
      by_cases hl : l = k
      · subst hl
        cases p with
        | none => exact ⟨l, by simp [chain], List.mem_cons_self⟩
        | some q =>
            obtain ⟨r, hr, hroot⟩ := ih hgrounded (hparent q rfl)
            rw [chain_cons_self]
            exact ⟨r, List.mem_cons_of_mem _ hr, List.mem_cons_of_mem _ hroot⟩
      · rw [chain, if_neg hl]
        obtain ⟨r, hr, hroot⟩ := ih hgrounded ((List.mem_cons.mp hk).resolve_left (Ne.symm hl))
        exact ⟨r, hr, List.mem_cons_of_mem _ hroot⟩

/-- A chain that meets a key off its start meets one child of it. -/
theorem children_in_chain {edges : Edges κ} (h : Grounded edges) (x q : κ) :
    ((childrenOf edges x).filter fun c => c ∈ chain edges q).length =
      if x ∈ chain edges q ∧ q ≠ x then 1 else 0 := by
  induction edges generalizing q with
  | nil => simp [childrenOf, chain]
  | cons edge older ih =>
      obtain ⟨k, p⟩ := edge
      obtain ⟨hfresh, hparent, hgrounded⟩ := h
      have hne : ∀ c ∈ childrenOf older x, c ≠ k := by
        rintro c hc rfl
        obtain ⟨e, he, rfl⟩ := List.mem_map.mp hc
        exact hfresh (List.mem_map_of_mem (List.mem_filter.mp he).1)
      have hchildren : childrenOf ((k, p) :: older) x =
          (if p = some x then [k] else []) ++ childrenOf older x := by
        simp only [childrenOf, List.filter_cons]
        split <;> simp_all
      rw [hchildren, List.filter_append, List.length_append]
      by_cases hq : k = q
      · subst hq
        cases p with
        | none =>
            have hrest : (childrenOf older x).filter
                (fun c => decide (c ∈ chain ((k, none) :: older) k)) = [] := by
              rw [List.filter_eq_nil_iff]
              intro c hc
              simp [chain, hne c hc]
            have hself : ¬ (x = k ∧ ¬ k = x) := fun h => h.2 h.1.symm
            rw [hrest]
            simp [chain, hself]
        | some r =>
            have hrest : (childrenOf older x).filter
                (fun c => decide (c ∈ chain ((k, some r) :: older) k)) =
                (childrenOf older x).filter fun c => c ∈ chain older r := by
              apply List.filter_congr
              intro c hc
              rw [chain_cons_self, decide_eq_decide, List.mem_cons]
              exact or_iff_right (hne c hc)
            have hr : r ∈ keys older := hparent r rfl
            have hkchain : k ∉ chain older r := fun h => hfresh (mem_keys_of_mem_chain h)
            rw [hrest, ih hgrounded r, chain_cons_self]
            by_cases hrx : r = x
            · subst hrx
              have hkr : k ≠ r := fun h => hfresh (h ▸ hr)
              simp [mem_chain_self hr, hkr]
            · by_cases hkx : k = x
              · subst hkx
                simp [hrx, hkchain]
              · have hxk : x ≠ k := fun h => hkx h.symm
                simp [hrx, hkx, hxk]
      · have hchain : chain ((k, p) :: older) q = chain older q := by
          rw [chain, if_neg hq]
        have hkchain : k ∉ chain older q := fun h => hfresh (mem_keys_of_mem_chain h)
        rw [hchain, ih hgrounded q]
        split <;> simp [hkchain]

/-! ## Below a key -/

theorem count_below {edges : Edges κ} (h : Grounded edges) (x y : κ) :
    (below edges x).count y = if x ∈ chain edges y then 1 else 0 := by
  rw [below]
  split
  · next hmem =>
      apply List.count_eq_one_of_mem (h.nodup.filter _)
      exact List.mem_filter.mpr ⟨mem_keys_of_chain hmem, by simpa using hmem⟩
  · next hmem =>
      apply List.count_eq_zero_of_not_mem
      simp [List.mem_filter, hmem]

/-- Below a key lie the key itself and what lies below its children. -/
theorem below_perm {edges : Edges κ} (h : Grounded edges) {x : κ} (hx : x ∈ keys edges) :
    (below edges x).Perm (x :: (childrenOf edges x).flatMap (below edges)) := by
  rw [List.perm_iff_count]
  intro y
  have hsum : ((childrenOf edges x).flatMap (below edges)).count y =
      ((childrenOf edges x).filter fun c => c ∈ chain edges y).length := by
    generalize childrenOf edges x = children
    induction children with
    | nil => simp
    | cons c children ih =>
        rw [List.flatMap_cons, List.count_append, ih, count_below h, List.filter_cons]
        split <;> simp_all [Nat.add_comm]
  rw [count_below h, List.count_cons, hsum, children_in_chain h]
  by_cases hxy : x = y
  · subst hxy
    simp [mem_chain_self hx]
  · have hyx : y ≠ x := fun h => hxy h.symm
    simp [hxy, hyx]

/-- Enough fuel walks everything below the pending keys. -/
theorem walk_perm {edges : Edges κ} (h : Grounded edges) {children : κ → List κ}
    (hchildren : ∀ x, (children x).Perm (childrenOf edges x)) :
    ∀ (fuel : ℕ) (pending : List κ), (∀ x ∈ pending, x ∈ keys edges) →
      (pending.flatMap (below edges)).length ≤ fuel →
      (walk children fuel pending).Perm (pending.flatMap (below edges)) := by
  have hchild : ∀ x, ∀ c ∈ childrenOf edges x, c ∈ keys edges := by
    intro x c hc
    obtain ⟨e, he, rfl⟩ := List.mem_map.mp hc
    exact List.mem_map_of_mem (List.mem_filter.mp he).1
  intro fuel
  induction fuel with
  | zero =>
      intro pending hmem hlength
      cases pending with
      | nil => simp [walk]
      | cons x pending =>
          have hself : x ∈ below edges x := by
            have hx := hmem x List.mem_cons_self
            exact List.mem_filter.mpr ⟨hx, by simpa using mem_chain_self hx⟩
          have hpos : 0 < (below edges x).length := List.length_pos_of_mem hself
          simp only [List.flatMap_cons, List.length_append] at hlength
          omega
  | succ fuel ih =>
      intro pending hmem hlength
      cases pending with
      | nil => simp [walk]
      | cons x pending =>
          have hsplit := below_perm h (hmem x List.mem_cons_self)
          have hflat : ((children x ++ pending).flatMap (below edges)).Perm
              ((childrenOf edges x).flatMap (below edges) ++
                pending.flatMap (below edges)) := by
            rw [List.flatMap_append]
            exact ((hchildren x).flatMap_right _).append_right _
          have hall : ((x :: pending).flatMap (below edges)).Perm
              (x :: (children x ++ pending).flatMap (below edges)) := by
            rw [List.flatMap_cons]
            exact (hsplit.append_right _).trans (List.Perm.cons x hflat.symm)
          rw [walk]
          refine (List.Perm.cons x (ih _ ?_ ?_)).trans hall.symm
          · intro y hy
            rcases List.mem_append.mp hy with hy | hy
            · exact hchild x y ((hchildren x).mem_iff.mp hy)
            · exact hmem y (List.mem_cons_of_mem _ hy)
          · have hle := hall.length_eq ▸ hlength
            rw [List.length_cons] at hle
            omega

/-- A walk from one key finds what lies below it. -/
theorem walk_below {edges : Edges κ} (h : Grounded edges) {children : κ → List κ}
    (hchildren : ∀ x, (children x).Perm (childrenOf edges x)) {x : κ} (hx : x ∈ keys edges)
    {fuel : ℕ} (hfuel : edges.length ≤ fuel) :
    (walk children fuel [x]).Perm (below edges x) := by
  have hlength : (below edges x).length ≤ edges.length := by
    have hle := List.length_filter_le (fun y => decide (x ∈ chain edges y)) (keys edges)
    simpa [below, keys] using hle
  have hwalk := walk_perm h hchildren fuel [x] (by simpa using hx)
    (by simpa using Nat.le_trans hlength hfuel)
  simpa using hwalk

end Pollard.Lib.Forest
