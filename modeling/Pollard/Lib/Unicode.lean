import Pollard.Lib.Reading
import Mathlib.Data.List.Lex
import Mathlib.Data.List.Sort
import Mathlib.Data.String.Basic

/-!
# Encodings of code points

UTF-8 and UTF-16 of a code point, and the orders they give texts.
-/

namespace Pollard.Lib.Unicode

open Reading

/-- The octets of a code point. -/
def utf8 (n : ℕ) : List ℕ :=
  if n < 0x80 then [n]
  else if n < 0x800 then [0xC0 + n / 64, 0x80 + n % 64]
  else if n < 0x10000 then [0xE0 + n / 4096, 0x80 + n / 64 % 64, 0x80 + n % 64]
  else [0xF0 + n / 262144, 0x80 + n / 4096 % 64, 0x80 + n / 64 % 64, 0x80 + n % 64]

/-- The octets of a lower code point come before those of a higher one, whatever follows. -/
theorem utf8_lt {n m : ℕ} (h : n < m) (s t : List ℕ) : utf8 n ++ s < utf8 m ++ t := by
  unfold utf8
  split_ifs <;> simp only [List.cons_append, List.nil_append, List.cons_lt_cons_iff] <;> omega

theorem utf8_ne_nil (n : ℕ) : utf8 n ≠ [] := by
  unfold utf8
  split_ifs <;> simp

/-- Below 128 a code point is its octet; the octets of any other are above. -/
theorem utf8_of_lt {n : ℕ} (h : n < 0x80) : utf8 n = [n] := if_pos h

theorem le_of_mem_utf8 {n octet : ℕ} (h : 0x80 ≤ n) (hmem : octet ∈ utf8 n) : 0x80 ≤ octet := by
  unfold utf8 at hmem
  split_ifs at hmem <;> simp at hmem <;> omega

/-- The order of the octets of texts is that of their code points. -/
theorem flatMap_utf8_lt {as bs : List ℕ} (h : as < bs) : as.flatMap utf8 < bs.flatMap utf8 := by
  induction as generalizing bs with
  | nil =>
      cases bs with
      | nil => exact absurd h (lt_irrefl _)
      | cons b bs =>
          rw [List.flatMap_cons]
          cases hcode : utf8 b with
          | nil => exact absurd hcode (utf8_ne_nil b)
          | cons c code => exact List.nil_lt_cons _ _
  | cons a as ih =>
      cases bs with
      | nil => exact absurd h (List.not_lt_nil _)
      | cons b bs =>
          rw [List.flatMap_cons, List.flatMap_cons]
          rcases List.cons_lt_cons_iff.mp h with hlt | ⟨rfl, hrest⟩
          · exact utf8_lt hlt _ _
          · exact List.append_left_lt (ih hrest)

theorem flatMap_utf8_lt_iff {as bs : List ℕ} :
    as.flatMap utf8 < bs.flatMap utf8 ↔ as < bs := by
  refine ⟨fun h => ?_, flatMap_utf8_lt⟩
  rcases lt_trichotomy as bs with hlt | rfl | hlt
  · exact hlt
  · exact absurd h (lt_irrefl _)
  · exact absurd h (lt_asymm (flatMap_utf8_lt hlt))

theorem flatMap_utf8_le_iff {as bs : List ℕ} :
    as.flatMap utf8 ≤ bs.flatMap utf8 ↔ as ≤ bs := by
  rw [← not_lt, ← not_lt, flatMap_utf8_lt_iff]

theorem flatMap_utf8_injective : Function.Injective fun as : List ℕ => as.flatMap utf8 := by
  intro as bs heq
  rcases lt_trichotomy as bs with hlt | rfl | hlt
  · exact absurd heq (ne_of_lt (flatMap_utf8_lt hlt))
  · rfl
  · exact absurd heq.symm (ne_of_lt (flatMap_utf8_lt hlt))

/-! ## UTF-16 -/

def highSurrogate (u : ℕ) : Bool := 0xD800 ≤ u ∧ u ≤ 0xDBFF

def lowSurrogate (u : ℕ) : Bool := 0xDC00 ≤ u ∧ u ≤ 0xDFFF

/-- A code point that is no surrogate. -/
def scalar (n : ℕ) : Bool := n < 0xD800 ∨ 0xDFFF < n ∧ n < 0x110000

/-- The code units of a code point. -/
def utf16 (n : ℕ) : List ℕ :=
  if n < 0x10000 then [n]
  else [0xD800 + (n - 0x10000) / 1024, 0xDC00 + (n - 0x10000) % 1024]

/-- The code points of code units; a surrogate by itself is one. -/
def codePoints : List ℕ → List ℕ
  | [] => []
  | [u] => [u]
  | u :: v :: rest =>
      if highSurrogate u && lowSurrogate v then
        (0x10000 + (u - 0xD800) * 1024 + (v - 0xDC00)) :: codePoints rest
      else u :: codePoints (v :: rest)

theorem codePoints_cons_of_scalar {u : ℕ} (h : scalar u = true) (rest : List ℕ) :
    codePoints (u :: rest) = u :: codePoints rest := by
  have hhigh : highSurrogate u = false := by
    simp [scalar, highSurrogate] at h ⊢
    omega
  cases rest with
  | nil => rfl
  | cons v rest => simp [codePoints, hhigh]

theorem codePoints_utf16_append {n : ℕ} (h : scalar n = true) (rest : List ℕ) :
    codePoints (utf16 n ++ rest) = n :: codePoints rest := by
  unfold utf16
  split
  · exact codePoints_cons_of_scalar h rest
  · next hlarge =>
      have hscalar : n < 0x110000 := by
        simp [scalar] at h
        omega
      have hhigh : highSurrogate (0xD800 + (n - 0x10000) / 1024) = true := by
        simp [highSurrogate]
        omega
      have hlow : lowSurrogate (0xDC00 + (n - 0x10000) % 1024) = true := by
        simp [lowSurrogate]
        omega
      rw [List.cons_append, List.cons_append, List.nil_append, codePoints, hhigh, hlow]
      simp only [Bool.and_self, if_true, List.cons.injEq, and_true]
      omega

/-- The code points of the UTF-16 form of a text without surrogates are those of the text. -/
theorem codePoints_flatMap_utf16 {text : List ℕ} (h : ∀ n ∈ text, scalar n = true) :
    codePoints (text.flatMap utf16) = text := by
  induction text with
  | nil => rfl
  | cons n text ih =>
      rw [List.forall_mem_cons] at h
      rw [List.flatMap_cons, codePoints_utf16_append h.1, ih h.2]

theorem scalar_char (c : Char) : scalar c.toNat = true := by
  have h := c.valid
  simp only [UInt32.isValidChar, Nat.isValidChar] at h
  change c.toNat < 0xd800 ∨ 0xdfff < c.toNat ∧ c.toNat < 0x110000 at h
  simp only [scalar, decide_eq_true_eq]
  exact h

/-- Texts are ordered as their code points are. -/
theorem map_toNat_lt_iff {as bs : List Char} :
    as.map Char.toNat < bs.map Char.toNat ↔ as < bs := by
  induction as generalizing bs with
  | nil => cases bs <;> simp
  | cons a as ih =>
      cases bs with
      | nil => simp
      | cons b bs =>
          rw [List.map_cons, List.map_cons, List.cons_lt_cons_iff, List.cons_lt_cons_iff, ih,
            Char.toNat_inj]
          rfl

theorem map_toNat_le_iff {as bs : List Char} :
    as.map Char.toNat ≤ bs.map Char.toNat ↔ as ≤ bs := by
  rw [← not_lt, ← not_lt, map_toNat_lt_iff]

end Pollard.Lib.Unicode
