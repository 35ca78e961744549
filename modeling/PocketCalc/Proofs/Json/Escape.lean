import PocketCalc.Json.Reader

/-!
# Strings in JSON

A character stands in a string either for itself or behind a backslash in a form that is read back
(`escape_cases`). So a string is read back from what is written for it
(`readString_flatMap_escape`), and nothing that is written is a control character
(`le_toNat_of_mem_stringChars`).
-/

namespace PocketCalc.Json

/-- Two hexadecimal digits after two zeros are read as the number below thirty-two that they
write. -/
theorem hexValue4?_hexDigit :
    ∀ n < 32, hexValue4? '0' '0' (hexDigit (n / 16)) (hexDigit (n % 16)) = some n := by
  decide

/-- A hexadecimal digit is no control character. -/
theorem le_toNat_hexDigit : ∀ n < 16, 32 ≤ (hexDigit n).toNat := by decide

/-- The hexadecimal escape of a control character is read as the character. -/
theorem readUnicode_hexDigits {c : Char} (h : c.toNat < 32) (rest : List Char) :
    readUnicode ('0' :: '0' :: hexDigit (c.toNat / 16) :: hexDigit (c.toNat % 16) :: rest) =
      .ok (c, rest) := by
  have hlow : isLowSurrogate c.toNat = false := by
    simp only [isLowSurrogate, Bool.and_eq_false_iff, decide_eq_false_iff_not]
    omega
  have hhigh : isHighSurrogate c.toNat = false := by
    simp only [isHighSurrogate, Bool.and_eq_false_iff, decide_eq_false_iff_not]
    omega
  simp [readUnicode, readHex, hexValue4?_hexDigit _ h, hlow, hhigh]

/-- The hexadecimal escape of a control character has no control characters. -/
theorem le_toNat_of_mem_hexDigits {c d : Char} (h : c.toNat < 32)
    (hd : d ∈ ['u', '0', '0', hexDigit (c.toNat / 16), hexDigit (c.toNat % 16)]) :
    32 ≤ d.toNat := by
  simp only [List.mem_cons, List.not_mem_nil, or_false] at hd
  rcases hd with rfl | rfl | rfl | rfl | rfl
  · decide
  · decide
  · decide
  · exact le_toNat_hexDigit _ (by omega)
  · exact le_toNat_hexDigit _ (by omega)

/-- A character is written as itself, or behind a backslash as an escape that is read back. -/
theorem escape_cases (c : Char) :
    (escape c = [c] ∧ c ≠ '"' ∧ c ≠ '\\' ∧ 32 ≤ c.toNat) ∨
      ∃ escaped, escape c = '\\' :: escaped ∧ (∀ d ∈ escaped, 32 ≤ d.toNat) ∧
        ∀ rest, readEscape (escaped ++ rest) = .ok (c, rest) := by
  unfold escape
  split
  · next h =>
    subst h
    exact .inr ⟨['"'], rfl, by simp, fun _ ↦ rfl⟩
  split
  · next h =>
    subst h
    exact .inr ⟨['\\'], rfl, by simp, fun _ ↦ rfl⟩
  split
  · next h =>
    subst h
    exact .inr ⟨['b'], rfl, by simp, fun _ ↦ rfl⟩
  split
  · next h =>
    subst h
    exact .inr ⟨['t'], rfl, by simp, fun _ ↦ rfl⟩
  split
  · next h =>
    subst h
    exact .inr ⟨['n'], rfl, by simp, fun _ ↦ rfl⟩
  split
  · next h =>
    subst h
    exact .inr ⟨['f'], rfl, by simp, fun _ ↦ rfl⟩
  split
  · next h =>
    subst h
    exact .inr ⟨['r'], rfl, by simp, fun _ ↦ rfl⟩
  split
  · next h =>
    exact .inr ⟨_, rfl, fun _ hd ↦ le_toNat_of_mem_hexDigits h hd, readUnicode_hexDigits h⟩
  · next hquote hbackslash _ _ _ _ _ hcontrol =>
    exact .inl ⟨rfl, hquote, hbackslash, Nat.le_of_not_lt hcontrol⟩

/-- What is written for a character is read as the character. -/
theorem readStringWithin_escape (c : Char) (bound : Nat) (rest : List Char) :
    readStringWithin (bound + 1) (escape c ++ rest) =
      (readStringWithin bound rest).map fun (cs, rest) ↦ (c :: cs, rest) := by
  rcases escape_cases c with ⟨hself, hquote, hbackslash, hcontrol⟩ | ⟨escaped, hescape, -, hread⟩
  · rw [hself, List.singleton_append, readStringWithin, if_neg hquote, if_neg hbackslash,
      if_neg (Nat.not_lt_of_le hcontrol)]
  · rw [hescape, List.cons_append, readStringWithin, if_neg (by decide), if_pos rfl, hread]

/-- Something is written for every character. -/
theorem length_le_length_flatMap_escape (cs : List Char) :
    cs.length ≤ (cs.flatMap escape).length := by
  induction cs with
  | nil => exact Nat.le_refl 0
  | cons c rest ih =>
    have hpos : 0 < (escape c).length := by
      rcases escape_cases c with ⟨hself, -⟩ | ⟨escaped, hescape, -⟩
      · rw [hself, List.length_singleton]
        exact Nat.one_pos
      · rw [hescape, List.length_cons]
        exact Nat.succ_pos _
    rw [List.flatMap_cons, List.length_append, List.length_cons]
    omega

/-- The characters of a string are read up to its closing quote when the bound leaves room for
them. -/
theorem readStringWithin_flatMap_escape (cs rest : List Char) {bound : Nat}
    (h : cs.length < bound) :
    readStringWithin bound (cs.flatMap escape ++ '"' :: rest) = .ok (cs, rest) := by
  induction cs generalizing bound with
  | nil =>
    obtain ⟨n, rfl⟩ := Nat.exists_eq_succ_of_ne_zero (Nat.ne_of_gt h)
    rfl
  | cons c cs ih =>
    obtain ⟨n, rfl⟩ := Nat.exists_eq_succ_of_ne_zero (Nat.ne_of_gt (Nat.zero_lt_of_lt h))
    rw [List.flatMap_cons, List.append_assoc, readStringWithin_escape,
      ih (Nat.lt_of_succ_lt_succ h)]
    rfl

/-- A string is read back from its characters and its closing quote. -/
theorem readString_flatMap_escape (cs rest : List Char) :
    readString (cs.flatMap escape ++ '"' :: rest) = .ok (String.ofList cs, rest) := by
  have hroom : cs.length < (cs.flatMap escape ++ '"' :: rest).length := by
    have hle := length_le_length_flatMap_escape cs
    rw [List.length_append, List.length_cons]
    omega
  rw [readString, readStringWithin_flatMap_escape cs rest hroom]
  rfl

/-- No character of a written string is a control character. -/
theorem le_toNat_of_mem_stringChars {cs : List Char} {d : Char} (h : d ∈ stringChars cs) :
    32 ≤ d.toNat := by
  rw [stringChars, List.mem_cons, List.mem_append, List.mem_flatMap, List.mem_singleton] at h
  rcases h with rfl | ⟨c, -, hd⟩ | rfl
  · decide
  · rcases escape_cases c with ⟨hself, -, -, hcontrol⟩ | ⟨escaped, hescape, hplain, -⟩
    · rw [hself, List.mem_singleton] at hd
      rwa [hd]
    · rw [hescape, List.mem_cons] at hd
      rcases hd with rfl | hd
      · decide
      · exact hplain d hd
  · decide

end PocketCalc.Json
