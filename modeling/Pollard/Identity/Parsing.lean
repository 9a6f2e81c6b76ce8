import Pollard.Identity.Commitments

/-!
# Reading canonical texts

A reader of the compact texts the writers give, and of the octets of a text.
-/

namespace Pollard

open Lib Reading

/-! ## Values -/

/-- A text up to its closing quotation mark. -/
def readChars : ℕ → List Char → Option (List Char × List Char)
  | 0, _ => none
  | fuel + 1, text =>
      if text.head? = some '"' then some ([], text.tail)
      else do
        let (n, rest) ← unescape text
        let (chars, rest) ← readChars fuel rest
        return (Char.ofNat n :: chars, rest)

mutual

/-- A value at the start of a text, and the rest. -/
def readValue : ℕ → List Char → Option (Value × List Char)
  | 0, _ => none
  | fuel + 1, text =>
      match text with
      | 'n' :: 'u' :: 'l' :: 'l' :: rest => some (.none, rest)
      | 't' :: 'r' :: 'u' :: 'e' :: rest => some (.bool true, rest)
      | 'f' :: 'a' :: 'l' :: 's' :: 'e' :: rest => some (.bool false, rest)
      | '"' :: rest => (readChars fuel rest).map fun s => (.str (String.ofList s.1), s.2)
      | '[' :: rest =>
          if rest.head? = some ']' then some (.list [], rest.tail)
          else (readItems fuel rest).map fun s => (.list s.1, s.2)
      | '\x7b' :: rest =>
          if rest.head? = some '\x7d' then some (.dict [], rest.tail)
          else (readEntries fuel rest).map fun s => (.dict s.1, s.2)
      | text =>
          if text.takeWhile numeric = [] then none
          else some (.int (readInt (text.takeWhile numeric)), text.dropWhile numeric)

/-- The items of a list, of which there is one at least. -/
def readItems : ℕ → List Char → Option (List Value × List Char)
  | 0, _ => none
  | fuel + 1, text => do
      let (item, rest) ← readValue fuel text
      match rest with
      | ',' :: rest =>
          let (items, rest) ← readItems fuel rest
          return (item :: items, rest)
      | ']' :: rest => return ([item], rest)
      | _ => none

def readEntries : ℕ → List Char → Option (List (String × Value) × List Char)
  | 0, _ => none
  | fuel + 1, text =>
      match text with
      | '"' :: rest => do
          let (key, rest) ← readChars fuel rest
          match rest with
          | ':' :: rest =>
              let (value, rest) ← readValue fuel rest
              match rest with
              | ',' :: rest =>
                  let (entries, rest) ← readEntries fuel rest
                  return ((String.ofList key, value) :: entries, rest)
              | '\x7d' :: rest => return ([(String.ofList key, value)], rest)
              | _ => none
          | _ => none
      | _ => none

end

/-- `json.loads` of a compact text of an identity value. -/
def Value.loads (text : String) : Option Value :=
  match readValue text.length text.toList with
  | some (value, []) => some value
  | _ => none

theorem readChars_chars (chars rest : List Char) {fuel : ℕ}
    (hfuel : (chars.flatMap fun c => (jsonChar c).toList).length < fuel) :
    readChars fuel ((chars.flatMap fun c => (jsonChar c).toList) ++ '"' :: rest) =
      some (chars, rest) := by
  induction chars generalizing fuel with
  | nil =>
      obtain ⟨fuel, rfl⟩ : ∃ n, fuel = n + 1 := ⟨fuel - 1, by omega⟩
      rfl
  | cons c chars ih =>
      obtain ⟨fuel, rfl⟩ : ∃ n, fuel = n + 1 := ⟨fuel - 1, by omega⟩
      have hne : (jsonChar c).toList ≠ [] := by
        intro heq
        have hchar := unescape_jsonChar c []
        rw [heq] at hchar
        cases hchar
      have hlength := List.length_pos_iff.mpr hne
      rw [List.flatMap_cons, List.length_append] at hfuel
      rw [List.flatMap_cons, List.append_assoc, readChars, if_neg, unescape_jsonChar]
      · change (readChars fuel _).bind _ = _
        rw [ih (by omega)]
        change some (Char.ofNat c.toNat :: chars, rest) = _
        rw [Char.ofNat_toNat]
      · intro hquote
        obtain ⟨tail, htail⟩ := List.head?_eq_some_iff.mp hquote
        exact jsonChar_ne_quote c _ _ htail

theorem separated_cons_cons {α γ : Type} (separator : γ) (encode : α → List γ) (a b : α)
    (as : List α) : separated separator encode (a :: b :: as) =
      encode a ++ separator :: separated separator encode (b :: as) := by
  simp [separated]

/-- The reader reads the value off its text. -/
def Readable (value : Value) : Prop :=
  ∀ (fuel : ℕ) (rest : List Char), value.dumps.toList.length ≤ fuel → AfterValue rest →
    readValue fuel (value.dumps.toList ++ rest) = some (value, rest)

theorem readItems_separated {items : List Value} (hne : items ≠ [])
    (hitems : ∀ item ∈ items, Readable item) {fuel : ℕ} (rest : List Char)
    (hfuel : (separated ',' (fun item : Value => item.dumps.toList) items).length < fuel) :
    readItems fuel (separated ',' (fun item : Value => item.dumps.toList) items ++ ']' :: rest) =
      some (items, rest) := by
  induction items generalizing fuel with
  | nil => exact absurd rfl hne
  | cons item items ih =>
      obtain ⟨fuel, rfl⟩ : ∃ n, fuel = n + 1 := ⟨fuel - 1, by omega⟩
      rw [List.forall_mem_cons] at hitems
      cases items with
      | nil =>
          simp only [separated, List.flatMap_nil, List.append_nil] at hfuel ⊢
          rw [readItems, hitems.1 fuel _ (by omega) (by rfl)]
          rfl
      | cons next items =>
          rw [separated_cons_cons, List.length_append, List.length_cons] at hfuel
          rw [separated_cons_cons, List.append_assoc, List.cons_append, readItems,
            hitems.1 fuel _ (by omega) (by rfl)]
          change (readItems fuel _).bind _ = _
          rw [ih (List.cons_ne_nil _ _) hitems.2 (by omega)]
          rfl

theorem entryText_eq (e : String × Value) (rest : List Char) :
    Value.entryText e ++ rest = '"' :: ((e.1.toList.flatMap fun c => (jsonChar c).toList) ++
      '"' :: ':' :: (e.2.dumps.toList ++ rest)) := by
  rw [Value.entryText, jsonString_toList]
  simp

theorem readEntries_separated {entries : List (String × Value)} (hne : entries ≠ [])
    (hentries : ∀ e ∈ entries, Readable e.2) {fuel : ℕ} (rest : List Char)
    (hfuel : (separated ',' Value.entryText entries).length < fuel) :
    readEntries fuel (separated ',' Value.entryText entries ++ '\x7d' :: rest) =
      some (entries, rest) := by
  induction entries generalizing fuel with
  | nil => exact absurd rfl hne
  | cons e entries ih =>
      obtain ⟨fuel, rfl⟩ : ∃ n, fuel = n + 1 := ⟨fuel - 1, by omega⟩
      rw [List.forall_mem_cons] at hentries
      have hlength := congrArg List.length (entryText_eq e [])
      simp only [List.append_nil, List.length_cons, List.length_append] at hlength
      cases entries with
      | nil =>
          simp only [separated, List.flatMap_nil, List.append_nil] at hfuel ⊢
          rw [entryText_eq, readEntries]
          change (readChars fuel _).bind _ = _
          rw [readChars_chars _ _ (by omega)]
          change (readValue fuel _).bind _ = _
          rw [hentries.1 fuel _ (by omega) (by rfl)]
          simp [String.ofList_toList]
      | cons next entries =>
          rw [separated_cons_cons, List.length_append, List.length_cons] at hfuel
          rw [separated_cons_cons, List.append_assoc, List.cons_append, entryText_eq, readEntries]
          change (readChars fuel _).bind _ = _
          rw [readChars_chars _ _ (by omega)]
          change (readValue fuel _).bind _ = _
          rw [hentries.1 fuel _ (by omega) (by rfl)]
          change (readEntries fuel _).bind _ = _
          rw [ih (List.cons_ne_nil _ _) hentries.2 (by omega)]
          simp [String.ofList_toList]

theorem takeWhile_numeric {rest : List Char} (hrest : AfterValue rest) :
    rest.takeWhile numeric = [] ∧ rest.dropWhile numeric = rest := by
  cases rest with
  | nil => exact ⟨rfl, rfl⟩
  | cons c rest =>
      have hc : numeric c = false := by simpa [AfterValue] using hrest
      simp [hc]

/-- A text that starts with a digit or a minus sign is read as a number. -/
theorem readValue_numeric {c : Char} (hc : numeric c = true) (fuel : ℕ) (cs : List Char) :
    readValue (fuel + 1) (c :: cs) =
      some (.int (readInt ((c :: cs).takeWhile numeric)), (c :: cs).dropWhile numeric) := by
  have hne : (c :: cs).takeWhile numeric ≠ [] := by simp [hc]
  unfold readValue
  split
  all_goals try
    next heq =>
      rw [List.head_eq_of_cons_eq heq] at hc
      exact absurd hc (by decide)
  exact if_neg hne

theorem readable_int (n : ℤ) : Readable (.int n) := by
  intro fuel rest hfuel hrest
  obtain ⟨c, cs, hchars⟩ := List.exists_cons_of_ne_nil (int_toString_ne_nil n)
  have hall := int_toString_numeric n
  have hdumps : (Value.dumps (.int n)).toList = c :: cs := hchars
  rw [hdumps, List.length_cons] at hfuel
  obtain ⟨fuel, rfl⟩ : ∃ n, fuel = n + 1 := ⟨fuel - 1, by omega⟩
  have hc : numeric c = true := by
    rw [hchars, List.all_cons, Bool.and_eq_true] at hall
    exact hall.1
  rw [List.all_eq_true] at hall
  rw [hdumps, List.cons_append, readValue_numeric hc, ← List.cons_append, ← hchars,
    List.takeWhile_append_of_pos hall, List.dropWhile_append_of_pos hall,
    (takeWhile_numeric hrest).1, (takeWhile_numeric hrest).2, List.append_nil, readInt_toString]

theorem readValue_quote (fuel : ℕ) (rest : List Char) :
    readValue (fuel + 1) ('"' :: rest) =
      (readChars fuel rest).map fun s => (.str (String.ofList s.1), s.2) := rfl

theorem readValue_list (fuel : ℕ) (rest : List Char) :
    readValue (fuel + 1) ('[' :: rest) =
      if rest.head? = some ']' then some (.list [], rest.tail)
      else (readItems fuel rest).map fun s => (.list s.1, s.2) := rfl

theorem readValue_dict (fuel : ℕ) (rest : List Char) :
    readValue (fuel + 1) ('\x7b' :: rest) =
      if rest.head? = some '\x7d' then some (.dict [], rest.tail)
      else (readEntries fuel rest).map fun s => (.dict s.1, s.2) := rfl

/-- A text that does not start with a character, whatever follows. -/
theorem head?_ne {text : List Char} {c : Char} (h : ∀ tail, text ≠ c :: tail) :
    text.head? ≠ some c := by
  intro heq
  obtain ⟨tail, htail⟩ := List.head?_eq_some_iff.mp heq
  exact h tail htail

mutual

theorem readable : ∀ value : Value, value.isIdentity = true → Readable value
  | .none, _ => by
      rintro (_ | fuel) rest hfuel -
      · cases hfuel
      · rfl
  | .bool b, _ => by
      rintro (_ | fuel) rest hfuel -
      · cases b <;> cases hfuel
      · cases b <;> rfl
  | .int n, _ => readable_int n
  | .str s, _ => by
      intro fuel rest hfuel _
      rw [Value.dumps, jsonString_toList] at hfuel ⊢
      obtain ⟨fuel, rfl⟩ : ∃ n, fuel = n + 1 := ⟨fuel - 1, by simp at hfuel; omega⟩
      simp only [List.cons_append, List.length_cons, List.length_append] at hfuel
      rw [List.append_assoc, List.cons_append, readValue_quote, List.singleton_append,
        readChars_chars _ _ (by omega)]
      simp [String.ofList_toList]
  | .list items, h => by
      intro fuel rest hfuel _
      rw [Value.dumps_list] at hfuel ⊢
      obtain ⟨fuel, rfl⟩ : ∃ n, fuel = n + 1 := ⟨fuel - 1, by simp at hfuel; omega⟩
      simp only [List.cons_append, List.length_cons, List.length_append] at hfuel
      rw [List.append_assoc, List.cons_append, readValue_list, List.singleton_append]
      cases items with
      | nil => rfl
      | cons item items =>
          have hfirst := Value.dumps_ne_close (Value.isIdentity_list.mp h item List.mem_cons_self)
          rw [if_neg, readItems_separated (List.cons_ne_nil _ _) (readable_items _ h) _ (by omega)]
          · rfl
          · rw [separated, List.append_assoc]
            exact head?_ne (hfirst _)
  | .dict entries, h => by
      intro fuel rest hfuel _
      rw [Value.dumps_dict] at hfuel ⊢
      obtain ⟨fuel, rfl⟩ : ∃ n, fuel = n + 1 := ⟨fuel - 1, by simp at hfuel; omega⟩
      simp only [List.cons_append, List.length_cons, List.length_append] at hfuel
      rw [List.append_assoc, List.cons_append, readValue_dict, List.singleton_append]
      cases entries with
      | nil => rfl
      | cons e entries =>
          rw [if_neg, readEntries_separated (List.cons_ne_nil _ _) (readable_entries _ h) _
            (by omega)]
          · rfl
          · rw [separated, List.append_assoc]
            exact head?_ne (Value.entryText_ne_close e _)

theorem readable_items : ∀ items : List Value, Value.isIdentityItems items = true →
    ∀ item ∈ items, Readable item
  | [], _, _, hmem => absurd hmem List.not_mem_nil
  | first :: rest, h, item, hmem => by
      rw [Value.isIdentityItems, Bool.and_eq_true] at h
      rcases List.mem_cons.mp hmem with heq | hrest
      · rw [heq]
        exact readable first h.1
      · exact readable_items rest h.2 item hrest

theorem readable_entries : ∀ entries : List (String × Value),
    Value.isIdentityEntries entries = true → ∀ e ∈ entries, Readable e.2
  | [], _, _, hmem => absurd hmem List.not_mem_nil
  | (key, value) :: rest, h, e, hmem => by
      rw [Value.isIdentityEntries, Bool.and_eq_true] at h
      rcases List.mem_cons.mp hmem with heq | hrest
      · rw [heq]
        exact readable value h.1
      · exact readable_entries rest h.2 e hrest

end

/-- What is written is read back. -/
theorem Value.loads_dumps {value : Value} (h : value.isIdentity = true) :
    Value.loads value.dumps = some value := by
  have hread := readable value h value.dumps.length [] (by rw [String.length_toList]) (by rfl)
  rw [List.append_nil] at hread
  rw [Value.loads, hread]

/-! ## Octets -/

/-- The code points of octets, inside a code point of which some octets are left. -/
def decodeOctets : ℕ → ℕ → List ℕ → List ℕ
  | _, _, [] => []
  | 0, _, octet :: rest =>
      if octet < 0x80 then octet :: decodeOctets 0 0 rest
      else if octet < 0xE0 then decodeOctets 1 (octet - 0xC0) rest
      else if octet < 0xF0 then decodeOctets 2 (octet - 0xE0) rest
      else decodeOctets 3 (octet - 0xF0) rest
  | 1, high, octet :: rest => (high * 64 + (octet - 0x80)) :: decodeOctets 0 0 rest
  | left + 2, high, octet :: rest => decodeOctets (left + 1) (high * 64 + (octet - 0x80)) rest

/-- `String::from_utf8` -/
def fromUtf8 (octets : List ℕ) : Option String :=
  let text := String.ofList ((decodeOctets 0 0 octets).map Char.ofNat)
  if utf8Bytes text = octets then some text else none

theorem decodeOctets_utf8 {n : ℕ} (h : n < 0x110000) (rest : List ℕ) :
    decodeOctets 0 0 (Unicode.utf8 n ++ rest) = n :: decodeOctets 0 0 rest := by
  unfold Unicode.utf8
  split_ifs with h1 h2 h3
  · simp [decodeOctets, h1]
  · have hfirst : ¬ 0xC0 + n / 64 < 0x80 ∧ 0xC0 + n / 64 < 0xE0 := by omega
    simp only [List.cons_append, List.nil_append, decodeOctets, hfirst, if_true, if_false,
      List.cons.injEq, and_true]
    omega
  · have hfirst : ¬ 0xE0 + n / 4096 < 0x80 ∧ ¬ 0xE0 + n / 4096 < 0xE0 ∧
        0xE0 + n / 4096 < 0xF0 := by omega
    simp only [List.cons_append, List.nil_append, decodeOctets, hfirst, if_true, if_false,
      List.cons.injEq, and_true]
    omega
  · have hfirst : ¬ 0xF0 + n / 262144 < 0x80 ∧ ¬ 0xF0 + n / 262144 < 0xE0 ∧
        ¬ 0xF0 + n / 262144 < 0xF0 := by omega
    simp only [List.cons_append, List.nil_append, decodeOctets, hfirst, if_false,
      List.cons.injEq, and_true]
    omega

theorem fromUtf8_utf8Bytes (text : String) : fromUtf8 (utf8Bytes text) = some text := by
  have hdecode (chars : List Char) :
      (decodeOctets 0 0 ((chars.map Char.toNat).flatMap Unicode.utf8)).map Char.ofNat = chars := by
    induction chars with
    | nil => rfl
    | cons c chars ih =>
        have hscalar := Unicode.scalar_char c
        simp only [Unicode.scalar, decide_eq_true_eq] at hscalar
        rw [List.map_cons, List.flatMap_cons, decodeOctets_utf8 (by omega), List.map_cons, ih,
          Char.ofNat_toNat]
  have htext : String.ofList ((decodeOctets 0 0 (utf8Bytes text)).map Char.ofNat) = text := by
    rw [utf8Bytes, hdecode, String.ofList_toList]
  rw [fromUtf8, htext]
  exact if_pos rfl

end Pollard
