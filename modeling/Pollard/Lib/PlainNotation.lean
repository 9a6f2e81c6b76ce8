import Mathlib.Data.List.DropRight
import Mathlib.Data.Rat.Defs
import Mathlib.Data.Rat.Cast.Order
import Mathlib.Tactic.FieldSimp

/-!
# Plain notation

A number over a power of ten, written in digits with a point, and what such digits read.
-/

namespace Pollard.Lib.PlainNotation

/-- `n` over `10 ^ places` in digits, with at least one before the point. -/
def write (negative : Bool) (n places : ℕ) : List Char :=
  let digits := Nat.toDigits 10 n
  let padded := List.replicate (places + 1 - digits.length) '0' ++ digits
  (if negative then ['-'] else []) ++ padded.take (padded.length - places) ++
    if places = 0 then [] else '.' :: padded.drop (padded.length - places)

/-- The number that digits with a point read. -/
def unsigned (text : List Char) : ℚ :=
  let whole := text.takeWhile fun c => c ≠ '.'
  let fraction := (text.dropWhile fun c => c ≠ '.').drop 1
  (Nat.ofDigitChars 10 whole 0 : ℚ) + (Nat.ofDigitChars 10 fraction 0 : ℚ) / 10 ^ fraction.length

/-- The number that digits with a sign and a point read. -/
def read : List Char → ℚ
  | '-' :: text => -unsigned text
  | text => unsigned text

/-! ## Reading -/

theorem unsigned_whole {whole : List Char} (h : ∀ c ∈ whole, c ≠ '.') :
    unsigned whole = Nat.ofDigitChars 10 whole 0 := by
  have htake : whole.takeWhile (fun c => decide (c ≠ '.')) = whole :=
    List.takeWhile_eq_self_iff.mpr fun c hc => by simpa using h c hc
  have hdrop : whole.dropWhile (fun c => decide (c ≠ '.')) = [] :=
    List.dropWhile_eq_nil_iff.mpr fun c hc => by simpa using h c hc
  rw [unsigned, htake, hdrop]
  simp

theorem unsigned_point {whole : List Char} (h : ∀ c ∈ whole, c ≠ '.') (fraction : List Char) :
    unsigned (whole ++ '.' :: fraction) =
      Nat.ofDigitChars 10 whole 0 +
        (Nat.ofDigitChars 10 fraction 0 : ℚ) / 10 ^ fraction.length := by
  have hall : ∀ c ∈ whole, decide (c ≠ '.') = true := fun c hc => by simpa using h c hc
  have htake : (whole ++ '.' :: fraction).takeWhile (fun c => decide (c ≠ '.')) = whole := by
    rw [List.takeWhile_append_of_pos hall]
    simp
  have hdrop : (whole ++ '.' :: fraction).dropWhile (fun c => decide (c ≠ '.')) =
      '.' :: fraction := by
    rw [List.dropWhile_append_of_pos hall]
    simp
  rw [unsigned, htake, hdrop]
  rfl

/-- Digits around a point read the number of all of them, over the places behind it. -/
theorem unsigned_split {whole fraction : List Char} (h : ∀ c ∈ whole, c ≠ '.') :
    unsigned (whole ++ '.' :: fraction) =
      (Nat.ofDigitChars 10 (whole ++ fraction) 0 : ℚ) / 10 ^ fraction.length := by
  have hall : Nat.ofDigitChars 10 (whole ++ fraction) 0 =
      10 ^ fraction.length * Nat.ofDigitChars 10 whole 0 + Nat.ofDigitChars 10 fraction 0 := by
    rw [Nat.ofDigitChars_append, Nat.ofDigitChars_eq_ofDigitChars_zero]
  rw [unsigned_point h, hall]
  push_cast
  field_simp

theorem unsigned_strip {whole : List Char} (h : ∀ c ∈ whole, c ≠ '.') (fraction : List Char) :
    unsigned (whole ++ '.' :: fraction.rdropWhile fun c => c = '0') =
      unsigned (whole ++ '.' :: fraction) := by
  induction fraction using List.reverseRecOn with
  | nil => rfl
  | append_singleton fraction c ih =>
      rw [List.rdropWhile_concat]
      split
      · next hzero =>
          have hc : c = '0' := by simpa using hzero
          subst hc
          rw [ih, unsigned_point h, unsigned_point h, Nat.ofDigitChars_append,
            List.length_append, List.length_singleton, pow_succ]
          have hlast : ∀ n, Nat.ofDigitChars 10 ['0'] n = 10 * n := fun n => by
            simp [Nat.ofDigitChars_cons]
          rw [hlast]
          push_cast
          field_simp
      · rfl

theorem read_of_head {text : List Char} (h : text.head? ≠ some '-') : read text = unsigned text := by
  unfold read
  split
  · exact absurd rfl h
  · rfl

/-! ## What is written -/

theorem isDigit_of_mem_padded {n k : ℕ} {c : Char}
    (h : c ∈ List.replicate k '0' ++ Nat.toDigits 10 n) : c.isDigit = true := by
  rcases List.mem_append.mp h with h | h
  · rw [List.eq_of_mem_replicate h]
    rfl
  · exact Nat.isDigit_of_mem_toDigits (by decide) (by decide) h

theorem ne_of_isDigit {c d : Char} (hc : c.isDigit = true) (hd : d.isDigit = false) : c ≠ d := by
  rintro rfl
  rw [hc] at hd
  cases hd

/-- The digits before and behind the point. -/
theorem exists_digits (n places : ℕ) : ∃ whole fraction : List Char,
    (∀ negative, write negative n places = (if negative then ['-'] else []) ++ whole ++
      if places = 0 then [] else '.' :: fraction) ∧
    (∀ c ∈ whole, c.isDigit = true) ∧ (∀ c ∈ fraction, c.isDigit = true) ∧
    whole ≠ [] ∧ fraction.length = places ∧
    Nat.ofDigitChars 10 (whole ++ fraction) 0 = n := by
  let padded := List.replicate (places + 1 - (Nat.toDigits 10 n).length) '0' ++ Nat.toDigits 10 n
  have hlong : places + 1 ≤ padded.length := by
    rw [List.length_append, List.length_replicate]
    omega
  have hdigits : ∀ c ∈ padded, c.isDigit = true := fun c hc => isDigit_of_mem_padded hc
  refine ⟨padded.take (padded.length - places), padded.drop (padded.length - places),
    fun _ => rfl, fun c hc => hdigits c (List.mem_of_mem_take hc),
    fun c hc => hdigits c (List.mem_of_mem_drop hc), fun hnil => ?_, ?_, ?_⟩
  · have hlength := congrArg List.length hnil
    rw [List.length_take, List.length_nil] at hlength
    omega
  · rw [List.length_drop]
    omega
  · rw [List.take_append_drop, Nat.ofDigitChars_append, Nat.ofDigitChars_replicate_zero]
    simp

theorem read_sign {negative : Bool} {text : List Char} (h : text.head? ≠ some '-') :
    read ((if negative then ['-'] else []) ++ text) =
      if negative then -unsigned text else unsigned text := by
  cases negative with
  | true => rfl
  | false => exact read_of_head h

theorem head?_of_isDigit {whole rest : List Char} (hdigits : ∀ c ∈ whole, c.isDigit = true)
    (hne : whole ≠ []) : (whole ++ rest).head? ≠ some '-' := by
  cases whole with
  | nil => exact absurd rfl hne
  | cons c whole =>
      rw [List.cons_append, List.head?_cons, ne_eq, Option.some.injEq]
      exact ne_of_isDigit (hdigits c List.mem_cons_self) rfl

/-- What is written is read back. -/
theorem read_write (negative : Bool) (n places : ℕ) :
    read (write negative n places) = (if negative then -1 else 1) * ((n : ℚ) / 10 ^ places) := by
  obtain ⟨whole, fraction, hwrite, hwhole, -, hne, hlength, hvalue⟩ := exists_digits n places
  have hpoint : ∀ c ∈ whole, c ≠ '.' := fun c hc => ne_of_isDigit (hwhole c hc) rfl
  rw [hwrite, List.append_assoc, read_sign (head?_of_isDigit hwhole hne)]
  have hread : unsigned (whole ++ if places = 0 then [] else '.' :: fraction) =
      (n : ℚ) / 10 ^ places := by
    split
    · next hzero =>
        subst hzero
        rw [List.length_eq_zero_iff.mp hlength, List.append_nil] at hvalue
        rw [List.append_nil, unsigned_whole hpoint, hvalue, pow_zero, div_one]
    · rw [unsigned_split hpoint, hvalue, hlength]
  rw [hread]
  cases negative <;> simp

/-- A zero behind the point says nothing either. -/
theorem read_write_append_zero (negative : Bool) (n : ℕ) :
    read (write negative n 0 ++ ['.', '0']) = read (write negative n 0) := by
  obtain ⟨whole, fraction, hwrite, hwhole, -, hne, -, -⟩ := exists_digits n 0
  have hpoint : ∀ c ∈ whole, c ≠ '.' := fun c hc => ne_of_isDigit (hwhole c hc) rfl
  have hzero : unsigned (whole ++ ['.', '0']) = unsigned whole := by
    rw [unsigned_point hpoint, unsigned_whole hpoint]
    simp [Nat.ofDigitChars_cons]
  have hread : whole.head? ≠ some '-' := by
    rw [← List.append_nil whole]
    exact head?_of_isDigit hwhole hne
  rw [hwrite, if_pos rfl, List.append_nil, List.append_assoc,
    read_sign (head?_of_isDigit hwhole hne), read_sign hread, hzero]

/-- `text.rstrip("0").rstrip(".") if "." in text else text` -/
def strip (text : List Char) : List Char :=
  if '.' ∈ text then (text.rdropWhile fun c => c = '0').rdropWhile fun c => c = '.' else text

theorem rdropWhile_append_cons {p : Char → Bool} (front : List Char) {c : Char}
    (hc : p c = false) (back : List Char) :
    (front ++ c :: back).rdropWhile p = front ++ c :: back.rdropWhile p := by
  induction back using List.reverseRecOn with
  | nil =>
      rw [List.rdropWhile_concat, if_neg (by rw [hc]; exact Bool.false_ne_true),
        List.rdropWhile_nil]
  | append_singleton back d ih =>
      rw [← List.cons_append, ← List.append_assoc, List.rdropWhile_concat,
        List.rdropWhile_concat]
      split
      · exact ih
      · rw [List.append_assoc, List.cons_append]

theorem strip_of_not_mem {text : List Char} (h : '.' ∉ text) : strip text = text := if_neg h

/-- What stripping leaves of digits behind a point. -/
theorem strip_point {front fraction : List Char} (hfront : ∀ hne : front ≠ [],
    front.getLast hne ≠ '.') (hfraction : ∀ c ∈ fraction, c ≠ '.') :
    strip (front ++ '.' :: fraction) =
      if fraction.rdropWhile (fun c => c = '0') = [] then front
      else front ++ '.' :: fraction.rdropWhile fun c => c = '0' := by
  rw [strip, if_pos (by simp), rdropWhile_append_cons front (by decide) fraction]
  cases hleft : fraction.rdropWhile (fun c => decide (c = '0')) using List.reverseRecOn with
  | nil =>
      rw [if_pos rfl, List.rdropWhile_concat_pos _ _ _ (by decide)]
      exact List.rdropWhile_eq_self_iff.mpr fun hne => by simpa using hfront hne
  | append_singleton left c =>
      have hmem : c ∈ fraction := by
        refine (List.rdropWhile_prefix (fun c => decide (c = '0')) fraction).subset ?_
        rw [hleft]
        simp
      rw [if_neg (by simp), ← List.cons_append, ← List.append_assoc,
        List.rdropWhile_concat_neg _ _ _ (by simpa using hfraction c hmem)]

/-- Zeros behind the point say nothing. -/
theorem read_strip_write (negative : Bool) (n places : ℕ) :
    read (strip (write negative n places)) = read (write negative n places) := by
  obtain ⟨whole, fraction, hwrite, hwhole, hfraction, hne, -, -⟩ := exists_digits n places
  have hpoint : ∀ c ∈ whole, c ≠ '.' := fun c hc => ne_of_isDigit (hwhole c hc) rfl
  let sign : List Char := if negative then ['-'] else []
  have hsign : '.' ∉ sign := by cases negative <;> simp [sign]
  rw [hwrite]
  change read (strip (sign ++ whole ++ _)) = read (sign ++ whole ++ _)
  by_cases hplaces : places = 0
  · rw [if_pos hplaces, List.append_nil, strip_of_not_mem]
    exact fun hmem => (List.mem_append.mp hmem).elim hsign fun h => hpoint '.' h rfl
  · rw [if_neg hplaces, strip_point]
    · have hstrip := unsigned_strip hpoint fraction
      split
      · next hleft =>
          rw [hleft, unsigned_point hpoint, ← unsigned_whole hpoint] at hstrip
          rw [read_sign, List.append_assoc, read_sign (head?_of_isDigit hwhole hne), ← hstrip]
          · simp
          · rw [← List.append_nil whole]
            exact head?_of_isDigit hwhole hne
      · rw [List.append_assoc, List.append_assoc, read_sign (head?_of_isDigit hwhole hne),
          read_sign (head?_of_isDigit hwhole hne), hstrip]
    · intro hfront
      rw [List.getLast_append_of_ne_nil hfront hne]
      exact hpoint _ (List.getLast_mem hne)
    · exact fun c hc => ne_of_isDigit (hfraction c hc) rfl

end Pollard.Lib.PlainNotation
