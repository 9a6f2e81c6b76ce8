import Mathlib.Data.List.Basic

/-!
# Encodings that are read in one way

An encoding reads a value if, before what may follow, it tells which value it is of and
where it ends.
-/

namespace Pollard.Lib.Reading

variable {α β γ : Type}

/-- Before what may follow, the encoding of `a` is that of no other valid value. -/
def Reads (encode : α → List γ) (Valid : α → Prop) (Follow : List γ → Prop) (a : α) : Prop :=
  ∀ b s t, Valid b → Follow s → Follow t → encode a ++ s = encode b ++ t → a = b ∧ s = t

variable {encode : α → List γ} {Valid : α → Prop} {Follow : List γ → Prop}

/-- An encoding read before whatever follows is injective. -/
theorem Reads.injective {a b : α} (h : Reads encode Valid Follow a) (hb : Valid b)
    (hnil : Follow []) (heq : encode a = encode b) : a = b :=
  (h b [] [] hb hnil hnil (by rw [heq])).1

/-- A value after another, with marks around them. -/
theorem Reads.pair {encode' : β → List γ} {Valid' : β → Prop} {Follow' : List γ → Prop}
    {opening between closing : List γ} {a : α} {b : β}
    (ha : Reads encode Valid Follow a) (hb : Reads encode' Valid' Follow' b)
    (hbetween : ∀ s, Follow (between ++ s)) (hclosing : ∀ s, Follow' s → Follow' (closing ++ s)) :
    Reads (fun p : α × β => opening ++ encode p.1 ++ between ++ encode' p.2 ++ closing)
      (fun p => Valid p.1 ∧ Valid' p.2) Follow' (a, b) := by
  rintro ⟨a', b'⟩ s t ⟨hvalid, hvalid'⟩ hs ht heq
  simp only [List.append_assoc, List.append_cancel_left_eq] at heq
  obtain ⟨rfl, hrest⟩ := ha a' _ _ hvalid (hbetween _) (hbetween _) heq
  obtain ⟨rfl, htail⟩ := hb b' _ _ hvalid' (hclosing s hs) (hclosing t ht)
    (List.append_cancel_left hrest)
  exact ⟨rfl, List.append_cancel_left htail⟩

/-- A sequence up to a stop that no encoding starts with. -/
theorem reads_sequence {stop : γ} {as bs : List α} {s t : List γ}
    (ha : ∀ a ∈ as, Valid a ∧ Reads encode Valid Follow a) (hb : ∀ b ∈ bs, Valid b)
    (hstop : ∀ a s t, Valid a → encode a ++ s ≠ stop :: t)
    (hend : ∀ s, Follow (stop :: s)) (hnext : ∀ a s, Valid a → Follow (encode a ++ s))
    (heq : as.flatMap encode ++ stop :: s = bs.flatMap encode ++ stop :: t) :
    as = bs ∧ s = t := by
  have hfollow : ∀ (l : List α) (s : List γ), (∀ a ∈ l, Valid a) →
      Follow (l.flatMap encode ++ stop :: s) := by
    intro l s hl
    cases l with
    | nil => exact hend s
    | cons a l =>
        rw [List.flatMap_cons, List.append_assoc]
        exact hnext a _ (hl a List.mem_cons_self)
  induction as generalizing bs with
  | nil =>
      cases bs with
      | nil => exact ⟨rfl, List.tail_eq_of_cons_eq heq⟩
      | cons b bs =>
          rw [List.flatMap_cons, List.append_assoc] at heq
          exact absurd heq.symm (hstop b _ _ (hb b List.mem_cons_self))
  | cons a as ih =>
      obtain ⟨hvalid, hreads⟩ := ha a List.mem_cons_self
      cases bs with
      | nil =>
          rw [List.flatMap_cons, List.append_assoc] at heq
          exact absurd heq (hstop a _ _ hvalid)
      | cons b bs =>
          rw [List.forall_mem_cons] at ha hb
          rw [List.flatMap_cons, List.append_assoc, List.flatMap_cons, List.append_assoc] at heq
          obtain ⟨rfl, hrest⟩ := hreads b _ _ hb.1 (hfollow as s fun a h => (ha.2 a h).1)
            (hfollow bs t hb.2) heq
          obtain ⟨rfl, htail⟩ := ih ha.2 hb.2 hrest
          exact ⟨rfl, htail⟩

/-- Encodings with a separator between them. -/
def separated (separator : γ) (encode : α → List γ) : List α → List γ
  | [] => []
  | a :: as => encode a ++ as.flatMap fun a => separator :: encode a

theorem separated_map (separator : γ) (encode : β → List γ) (f : α → β) (as : List α) :
    separated separator encode (as.map f) = separated separator (fun a => encode (f a)) as := by
  cases as with
  | nil => rfl
  | cons a as => rw [List.map_cons, separated, separated, List.flatMap_map]

/-- What is written for each symbol of a separated sequence. -/
theorem separated_flatMap {δ : Type} {separator : γ} {mark : δ} {write : γ → List δ}
    (h : write separator = [mark]) (encode : α → List γ) (as : List α) :
    (separated separator encode as).flatMap write =
      separated mark (fun a => (encode a).flatMap write) as := by
  cases as with
  | nil => rfl
  | cons a as =>
      simp only [separated, List.flatMap_append, List.flatMap_assoc, List.flatMap_cons, h,
        List.singleton_append]

theorem separated_eq_intercalate (separator : γ) (encode : α → List γ) (as : List α) :
    separated separator encode as = [separator].intercalate (as.map encode) := by
  cases as with
  | nil => rfl
  | cons a as =>
      induction as generalizing a with
      | nil => simp [separated, List.intercalate]
      | cons b as ih =>
          have hb := ih b
          simp only [separated, List.intercalate, List.map_cons, List.intersperse_cons_cons,
            List.flatten_cons, List.flatMap_cons] at hb ⊢
          rw [← hb]
          simp

/-- A separated sequence up to a stop. -/
theorem reads_separated {separator stop : γ} {as bs : List α} {s t : List γ}
    (ha : ∀ a ∈ as, Valid a ∧ Reads encode Valid Follow a) (hb : ∀ b ∈ bs, Valid b)
    (hstop : ∀ a s t, Valid a → encode a ++ s ≠ stop :: t) (hne : separator ≠ stop)
    (hend : ∀ s, Follow (stop :: s)) (hnext : ∀ s, Follow (separator :: s))
    (heq : separated separator encode as ++ stop :: s =
      separated separator encode bs ++ stop :: t) : as = bs ∧ s = t := by
  have hfollow : ∀ (l : List α) (s : List γ),
      Follow (l.flatMap (fun a => separator :: encode a) ++ stop :: s) := by
    intro l s
    cases l with
    | nil => exact hend s
    | cons a l => exact hnext _
  have hmore : ∀ a ∈ as, Reads (fun a => separator :: encode a) Valid Follow a := by
    intro a hmem b s t hb hs ht heq
    exact (ha a hmem).2 b s t hb hs ht (List.tail_eq_of_cons_eq heq)
  cases as with
  | nil =>
      cases bs with
      | nil => exact ⟨rfl, List.tail_eq_of_cons_eq heq⟩
      | cons b bs =>
          rw [separated, separated, List.append_assoc] at heq
          exact absurd heq.symm (hstop b _ _ (hb b List.mem_cons_self))
  | cons a as =>
      obtain ⟨hvalid, hreads⟩ := ha a List.mem_cons_self
      cases bs with
      | nil =>
          rw [separated, separated, List.append_assoc] at heq
          exact absurd heq (hstop a _ _ hvalid)
      | cons b bs =>
          rw [List.forall_mem_cons] at ha hb hmore
          rw [separated, separated, List.append_assoc, List.append_assoc] at heq
          obtain ⟨rfl, hrest⟩ := hreads b _ _ hb.1 (hfollow as s) (hfollow bs t) heq
          obtain ⟨rfl, htail⟩ := reads_sequence (fun a h => ⟨(ha.2 a h).1, hmore.2 a h⟩) hb.2
            (fun a s t _ h => hne (List.head_eq_of_cons_eq h)) hend (fun a s _ => hnext _) hrest
          exact ⟨rfl, htail⟩

/-- A run of marked symbols before one that is not. -/
theorem reads_run {mark : γ → Bool} {a b s t : List γ} (ha : a.all mark = true)
    (hb : b.all mark = true) (hs : s.head?.all (fun c => ¬ mark c) = true)
    (ht : t.head?.all (fun c => ¬ mark c) = true) (heq : a ++ s = b ++ t) : a = b ∧ s = t := by
  have hrun : ∀ l r : List γ, l.all mark = true → r.head?.all (fun c => ¬ mark c) = true →
      (l ++ r).takeWhile mark = l ∧ (l ++ r).dropWhile mark = r := by
    intro l r hl hr
    rw [List.all_eq_true] at hl
    rw [List.takeWhile_append_of_pos hl, List.dropWhile_append_of_pos hl]
    cases r with
    | nil => simp
    | cons c r =>
        have hc : mark c = false := by simpa using hr
        simp [hc]
  obtain ⟨hta, hda⟩ := hrun a s ha hs
  obtain ⟨htb, hdb⟩ := hrun b t hb ht
  rw [heq] at hta hda
  exact ⟨hta.symm.trans htb, hda.symm.trans hdb⟩

end Pollard.Lib.Reading
