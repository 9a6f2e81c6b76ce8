import Mathlib.Data.List.Forall2

/-!
# Results of computations without a state

What a sequence of fallible computations that ran has done.
-/

namespace Pollard.Lib.Fallible

variable {ε α β : Type}

theorem bind_ok_iff {x : Except ε α} {f : α → Except ε β} {b : β} :
    x.bind f = .ok b ↔ ∃ a, x = .ok a ∧ f a = .ok b := by
  cases x with
  | error e => exact ⟨nofun, fun ⟨_, h, _⟩ => nomatch h⟩
  | ok a =>
      constructor
      · exact fun h => ⟨a, rfl, h⟩
      · rintro ⟨_, ⟨⟩, h⟩
        exact h

theorem map_ok_iff {x : Except ε α} {f : α → β} {b : β} :
    x.map f = .ok b ↔ ∃ a, x = .ok a ∧ f a = b := by
  cases x with
  | error e => exact ⟨nofun, fun ⟨_, h, _⟩ => nomatch h⟩
  | ok a =>
      constructor
      · exact fun h => ⟨a, rfl, Except.ok.inj h⟩
      · rintro ⟨_, ⟨⟩, rfl⟩
        rfl

/-- A check that fails with this error. -/
def ensure (p : Prop) [Decidable p] (error : ε) : Except ε Unit :=
  if p then .ok () else .error error

theorem ensure_ok_iff {p : Prop} [Decidable p] {error : ε} : ensure p error = .ok () ↔ p := by
  unfold ensure
  split
  · next h => exact iff_of_true rfl h
  · next h => exact iff_of_false nofun h

theorem ensure_eq {p : Prop} [Decidable p] {error error' : ε} (h : ensure p error = .error error') :
    ¬ p ∧ error = error' := by
  unfold ensure at h
  split at h
  · cases h
  · next hp => exact ⟨hp, Except.error.inj h⟩

theorem bind_ne_error {x : Except ε α} {f : α → Except ε β} {error : ε} (hx : x ≠ .error error)
    (hf : ∀ a, f a ≠ .error error) : x.bind f ≠ .error error := by
  cases x with
  | error e => exact fun h => hx (congrArg Except.error (Except.error.inj h))
  | ok a => exact hf a

theorem ensure_ne_error {p : Prop} [Decidable p] {error error' : ε} (h : error ≠ error') :
    ensure p error ≠ .error error' :=
  fun heq => h (ensure_eq heq).2

theorem mapError_ok {ε' : Type} {x : Except ε α} {f : ε → ε'} {a : α}
    (h : x.mapError f = .ok a) : x = .ok a := by
  cases x with
  | error e => cases h
  | ok b => rw [Except.ok.inj h]

theorem toOption_eq_some {x : Except ε α} {a : α} (h : x.toOption = some a) : x = .ok a := by
  cases x with
  | error e => cases h
  | ok b => rw [Option.some.inj h]

/-- A check of every element, in order. -/
def checkAll (check : α → Except ε Unit) : List α → Except ε Unit
  | [] => .ok ()
  | a :: l => (check a).bind fun _ => checkAll check l

theorem checkAll_ok_iff {check : α → Except ε Unit} {l : List α} :
    checkAll check l = .ok () ↔ ∀ a ∈ l, check a = .ok () := by
  induction l with
  | nil => simp [checkAll]
  | cons a l ih =>
      rw [checkAll, bind_ok_iff, ih, List.forall_mem_cons]
      exact ⟨fun ⟨(), ha, hl⟩ => ⟨ha, hl⟩, fun ⟨ha, hl⟩ => ⟨(), ha, hl⟩⟩

/-! ## Errors -/

/-- Every error of a computation meets a condition. -/
def FailsWith (P : ε → Prop) (x : Except ε α) : Prop := ∀ error, x = .error error → P error

namespace FailsWith

variable {P : ε → Prop}

theorem ok (a : α) : FailsWith P (.ok a : Except ε α) := fun _ h => nomatch h

theorem error {e : ε} (h : P e) : FailsWith P (.error e : Except ε α) := by
  rintro _ ⟨⟩
  exact h

theorem bind {x : Except ε α} {f : α → Except ε β} (hx : FailsWith P x)
    (hf : ∀ a, FailsWith P (f a)) : FailsWith P (x.bind f) := by
  cases x with
  | error e => exact .error (hx e rfl)
  | ok a => exact hf a

theorem map {x : Except ε α} {f : α → β} (hx : FailsWith P x) : FailsWith P (x.map f) := by
  cases x with
  | error e => exact .error (hx e rfl)
  | ok a => exact .ok _

theorem mapM {f : α → Except ε β} {l : List α} (h : ∀ a ∈ l, FailsWith P (f a)) :
    FailsWith P (l.mapM f) := by
  induction l with
  | nil => exact .ok _
  | cons a l ih =>
      rw [List.forall_mem_cons] at h
      rw [List.mapM_cons]
      exact h.1.bind fun b => (ih h.2).bind fun _ => .ok _

end FailsWith

/-- A loop that fails does so in some round. -/
theorem foldlM_error {f : β → α → Except ε β} {l : List α} {b : β} {error : ε}
    (h : l.foldlM f b = .error error) : ∃ a ∈ l, ∃ b, f b a = .error error := by
  induction l generalizing b with
  | nil => cases h
  | cons a l ih =>
      rw [List.foldlM_cons] at h
      cases hround : f b a with
      | error e =>
          rw [hround] at h
          exact ⟨a, List.mem_cons_self, b, hround.trans h⟩
      | ok next =>
          rw [hround] at h
          obtain ⟨c, hc, hfails⟩ := ih h
          exact ⟨c, List.mem_cons_of_mem _ hc, hfails⟩

/-! ## Lists -/

/-- A list is computed element by element. -/
theorem mapM_ok_iff {f : α → Except ε β} {l : List α} {bs : List β} :
    l.mapM f = .ok bs ↔ List.Forall₂ (fun a b => f a = .ok b) l bs := by
  induction l generalizing bs with
  | nil =>
      rw [List.mapM_nil, List.forall₂_nil_left_iff]
      exact ⟨fun h => (Except.ok.inj h).symm, fun h => h ▸ rfl⟩
  | cons a l ih =>
      rw [List.mapM_cons, List.forall₂_cons_left_iff]
      change (f a).bind (fun b => (l.mapM f).bind fun bs => .ok (b :: bs)) = _ ↔ _
      simp only [bind_ok_iff, ih]
      constructor
      · rintro ⟨b, hb, bs, hbs, heq⟩
        exact ⟨b, bs, hb, hbs, (Except.ok.inj heq).symm⟩
      · rintro ⟨b, bs, hb, hbs, rfl⟩
        exact ⟨b, hb, bs, hbs, rfl⟩

theorem mapM_id_ok (l : List α) : (l.map (.ok : α → Except ε α)).mapM id = .ok l := by
  rw [mapM_ok_iff, List.forall₂_map_left_iff]
  exact List.forall₂_same.mpr fun _ _ => rfl

theorem isOk_iff {x : Except ε α} : x.isOk = true ↔ ∃ a, x = .ok a := by
  cases x with
  | error e => exact ⟨nofun, nofun⟩
  | ok a => exact ⟨fun _ => ⟨a, rfl⟩, fun _ => rfl⟩

/-- Where every element has a result, the list has the list of them. -/
theorem mapM_ok {f : α → Except ε β} {R : α → β → Prop} {l : List α}
    (h : ∀ a ∈ l, ∃ b, f a = .ok b ∧ R a b) :
    ∃ bs, l.mapM f = .ok bs ∧ List.Forall₂ R l bs := by
  induction l with
  | nil => exact ⟨[], rfl, .nil⟩
  | cons a l ih =>
      obtain ⟨b, hb, hrel⟩ := h a List.mem_cons_self
      obtain ⟨bs, hbs, hall⟩ := ih fun c hc => h c (List.mem_cons_of_mem _ hc)
      refine ⟨b :: bs, ?_, .cons hrel hall⟩
      rw [List.mapM_cons, hb, hbs]
      rfl

theorem exists_of_forall₂ {R : α → β → Prop} {as : List α} {bs : List β}
    (h : List.Forall₂ R as bs) {a : α} (ha : a ∈ as) : ∃ b ∈ bs, R a b := by
  induction h with
  | nil => cases ha
  | cons hfirst _ ih =>
      rcases List.mem_cons.mp ha with rfl | ha
      · exact ⟨_, List.mem_cons_self, hfirst⟩
      · obtain ⟨b, hb, hab⟩ := ih ha
        exact ⟨b, List.mem_cons_of_mem _ hb, hab⟩

theorem forall₂_imp_of_mem {R S : α → β → Prop} {as : List α} {bs : List β}
    (h : List.Forall₂ R as bs) (himp : ∀ a ∈ as, ∀ b, R a b → S a b) : List.Forall₂ S as bs := by
  induction h with
  | nil => exact .nil
  | cons hfirst _ ih =>
      rw [List.forall_mem_cons] at himp
      exact .cons (himp.1 _ hfirst) (ih himp.2)

theorem forall₂_imp_of_mem_both {R S : α → β → Prop} {as : List α} {bs : List β}
    (h : List.Forall₂ R as bs) (himp : ∀ a ∈ as, ∀ b ∈ bs, R a b → S a b) :
    List.Forall₂ S as bs := by
  induction h with
  | nil => exact .nil
  | cons hfirst _ ih =>
      refine .cons (himp _ List.mem_cons_self _ List.mem_cons_self hfirst) (ih ?_)
      exact fun a ha b hb => himp a (List.mem_cons_of_mem _ ha) b (List.mem_cons_of_mem _ hb)

theorem exists_left_of_forall₂ {R : α → β → Prop} {as : List α} {bs : List β}
    (h : List.Forall₂ R as bs) {b : β} (hb : b ∈ bs) : ∃ a ∈ as, R a b :=
  exists_of_forall₂ h.flip hb

end Pollard.Lib.Fallible
