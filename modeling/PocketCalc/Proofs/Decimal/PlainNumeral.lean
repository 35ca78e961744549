import Mathlib.Data.List.TakeWhile
import PocketCalc.Token.Lexer

/-!
# Plain text reads back

The plain text of a finite number with a clear sign is a numeral without sign and exponent, a
`PlainNumeral`. Such a numeral consists of characters of a literal and has one point at most, so
that nothing of it is lost when it is typed. The one in question writes the shortest decimal of the
number, perhaps with the exponent spelled out in zeros, and so it is a literal of that number
(`Binary64.ofLiteral_plainChars`). No literal has a sign (`Binary64.isNegative_ofLiteral`).
-/

namespace PocketCalc

-- Powers of natural numbers are the core library's here, whatever else is imported.
attribute [local instance (high)] instPowNat

/-- A numeral without sign and exponent and the number that it writes: digits alone, or digits in
front of a point and perhaps more behind it. -/
inductive PlainNumeral : List Char → Decimal → Prop where
  | whole {digits : List Char} (ne_nil : digits ≠ []) (isDigit : ∀ c ∈ digits, c.isDigit = true) :
    PlainNumeral digits ⟨digitsValue digits, 0⟩
  | pointed {whole fraction : List Char} (ne_nil : whole ≠ [])
    (isDigit_whole : ∀ c ∈ whole, c.isDigit = true)
    (isDigit_fraction : ∀ c ∈ fraction, c.isDigit = true) :
    PlainNumeral (whole ++ '.' :: fraction) ⟨digitsValue (whole ++ fraction), -fraction.length⟩

/-- Reading on up to a point that is not in the class of the characters in front of it. -/
theorem takeWhile_point {p : Char → Bool} {whole : List Char}
    (h : ∀ c ∈ whole, p c = true) (hp : p '.' = false) (rest : List Char) :
    (whole ++ '.' :: rest).takeWhile p = whole := by
  rw [List.takeWhile_append_of_pos h, List.takeWhile_cons_of_neg (by simp [hp]), List.append_nil]

/-- What is left from such a point on. -/
theorem dropWhile_point {p : Char → Bool} {whole : List Char}
    (h : ∀ c ∈ whole, p c = true) (hp : p '.' = false) (rest : List Char) :
    (whole ++ '.' :: rest).dropWhile p = '.' :: rest := by
  rw [List.dropWhile_append_of_pos h, List.dropWhile_cons_of_neg (by simp [hp])]

/-- The point is no digit. -/
theorem ne_point_of_isDigit {c : Char} (h : c.isDigit = true) : decide (c ≠ '.') = true := by
  rw [decide_eq_true_iff]
  rintro rfl
  exact absurd h (by decide)

namespace PlainNumeral

/-- A plain numeral has a character. -/
theorem ne_nil {cs : List Char} {d : Decimal} (h : PlainNumeral cs d) : cs ≠ [] := by
  cases h with
  | whole ne_nil _ => exact ne_nil
  | pointed => simp

/-- A plain numeral consists of characters of a literal. -/
theorem isLiteralChar_of_mem {cs : List Char} {d : Decimal} (h : PlainNumeral cs d) {c : Char}
    (hc : c ∈ cs) : isLiteralChar c = true := by
  have hdigit : c.isDigit = true → isLiteralChar c = true := fun hd ↦ by simp [isLiteralChar, hd]
  cases h with
  | whole _ isDigit => exact hdigit (isDigit c hc)
  | pointed _ isDigit_whole isDigit_fraction =>
    rcases List.mem_append.mp hc with hw | hc
    · exact hdigit (isDigit_whole c hw)
    · rcases List.mem_cons.mp hc with rfl | hf
      · rfl
      · exact hdigit (isDigit_fraction c hf)

/-- A plain numeral reads as the number that it writes. -/
theorem ofNumeral?_eq {cs : List Char} {d : Decimal} (h : PlainNumeral cs d) :
    Decimal.ofNumeral? cs = some d := by
  cases h with
  | whole ne_nil isDigit =>
    rw [Decimal.ofNumeral?, List.takeWhile_eq_self_iff.mpr isDigit,
      List.dropWhile_eq_nil_iff.mpr isDigit]
    simp [Decimal.splitFraction, Decimal.exponentOfNumeral?, ne_nil]
  | pointed ne_nil isDigit_whole isDigit_fraction =>
    rw [Decimal.ofNumeral?, takeWhile_point isDigit_whole rfl, dropWhile_point isDigit_whole rfl,
      Decimal.splitFraction, List.takeWhile_eq_self_iff.mpr isDigit_fraction,
      List.dropWhile_eq_nil_iff.mpr isDigit_fraction]
    simp [Decimal.exponentOfNumeral?, ne_nil]

/-- A plain numeral has no second point to be cut at. -/
theorem beforeSecondPoint_eq {cs : List Char} {d : Decimal} (h : PlainNumeral cs d) :
    Binary64.beforeSecondPoint cs = cs := by
  cases h with
  | whole _ isDigit =>
    have hpoint := fun c hc ↦ ne_point_of_isDigit (isDigit c hc)
    rw [Binary64.beforeSecondPoint, List.takeWhile_eq_self_iff.mpr hpoint,
      List.dropWhile_eq_nil_iff.mpr hpoint]
  | pointed _ isDigit_whole isDigit_fraction =>
    have hwhole := fun c hc ↦ ne_point_of_isDigit (isDigit_whole c hc)
    have hfraction := fun c hc ↦ ne_point_of_isDigit (isDigit_fraction c hc)
    rw [Binary64.beforeSecondPoint, takeWhile_point hwhole rfl, dropWhile_point hwhole rfl]
    dsimp only
    rw [List.takeWhile_eq_self_iff.mpr hfraction]

end PlainNumeral

/-- Characters of a literal have no sign in front. -/
theorem splitSign_of_isLiteralChar {cs : List Char} (h : ∀ c ∈ cs, isLiteralChar c = true) :
    splitSign cs = (false, cs) := by
  cases cs with
  | nil => rfl
  | cons c rest =>
    have hc := h c List.mem_cons_self
    unfold splitSign
    split
    · next heq =>
      cases heq
      exact absurd hc (by decide)
    · next heq =>
      cases heq
      exact absurd hc (by decide)
    · rfl

namespace Decimal

/-- The number with an exponent above zero spelled out in zeros at the end of the coefficient. -/
def expanded (d : Decimal) : Decimal :=
  if 0 ≤ d.exponent then ⟨d.coefficient * 10 ^ d.exponent.toNat, 0⟩ else d

/-- Spelling the exponent out does not change the double that is nearest. -/
theorem nearest?_expanded {d : Decimal} {m : Magnitude} (h : d.nearest? = some m) :
    d.expanded.nearest? = some m := by
  unfold expanded
  split
  · next hexponent =>
    by_cases hzero : d.coefficient = 0
    · rw [nearest?_of_coefficient_eq_zero hzero] at h
      rw [nearest?_of_coefficient_eq_zero (by simp [hzero]), h]
    · have hvanishes : ¬ d.Vanishes := by
        simp only [Vanishes]
        omega
      have hoverflows : ¬ d.Overflows := by
        intro hover
        rw [nearest?, if_neg hvanishes, if_pos hover] at h
        cases h
      have hexpanded : d.coefficient * 10 ^ d.exponent.toNat ≠ 0 :=
        Nat.mul_ne_zero hzero (Nat.ne_of_gt (Nat.pow_pos (by decide)))
      rw [nearest?_eq_quotient hvanishes hoverflows] at h
      rw [nearest?_eq_quotient (by simp only [Vanishes]; omega) (by simp [Overflows]), ← h]
      have hneg : (-d.exponent).toNat = 0 := by omega
      simp [quotient, hneg]
  · exact h

end Decimal

/-- The digits of a number are digits. -/
theorem isDigit_digitChars (n : Nat) : ∀ c ∈ digitChars n, c.isDigit = true := fun _ h ↦
  Nat.isDigit_of_mem_toDigits (by decide) (by decide) h

/-- A number has a digit. -/
theorem digitChars_ne_nil (n : Nat) : digitChars n ≠ [] := Nat.toDigits_ne_nil

/-- The digits of a number have its value. -/
theorem digitsValue_digitChars (n : Nat) : digitsValue (digitChars n) = n :=
  Nat.ofDigitChars_ten_toDigits

/-- Zeros are digits. -/
theorem isDigit_replicate_zero (n : Nat) : ∀ c ∈ List.replicate n '0', c.isDigit = true := by
  intro c hc
  rw [List.eq_of_mem_replicate hc]
  rfl

/-- Zeros behind digits are digits with them. -/
theorem isDigit_append_zeros {digits : List Char} (h : ∀ c ∈ digits, c.isDigit = true) (n : Nat) :
    ∀ c ∈ digits ++ List.replicate n '0', c.isDigit = true :=
  List.forall_mem_append.mpr ⟨h, isDigit_replicate_zero n⟩

/-- Each zero behind digits multiplies their value by ten. -/
theorem digitsValue_append_zeros (digits : List Char) (n : Nat) :
    digitsValue (digits ++ List.replicate n '0') = digitsValue digits * 10 ^ n := by
  rw [digitsValue, Nat.ofDigitChars_append, Nat.ofDigitChars_replicate_zero, Nat.mul_comm,
    digitsValue]

/-- Zeros in front of digits do not change their value. -/
theorem digitsValue_zeros_append (n : Nat) (digits : List Char) :
    digitsValue (List.replicate n '0' ++ digits) = digitsValue digits := by
  rw [digitsValue, Nat.ofDigitChars_append, Nat.ofDigitChars_replicate_zero, Nat.mul_zero,
    digitsValue]

/-- Digits with a point before the last of them are digits in front of a point and behind it; zeros
fill up to the point. -/
theorem Decimal.exists_pointed_eq {digits : List Char} (h : ∀ c ∈ digits, c.isDigit = true)
    (places : Nat) :
    ∃ whole fraction, pointed digits places = whole ++ '.' :: fraction ∧
      whole ++ fraction = List.replicate (places + 1 - digits.length) '0' ++ digits ∧
      whole ≠ [] ∧ fraction.length = places ∧
      (∀ c ∈ whole, c.isDigit = true) ∧ ∀ c ∈ fraction, c.isDigit = true := by
  unfold pointed
  extract_lets padded whole
  have hdigit : ∀ c ∈ padded, c.isDigit = true :=
    List.forall_mem_append.mpr ⟨isDigit_replicate_zero _, h⟩
  have hlength : places < padded.length := by
    simp only [padded, List.length_append, List.length_replicate]
    omega
  refine ⟨padded.take whole, padded.drop whole, rfl, List.take_append_drop _ _, ?_, ?_,
    fun c hc ↦ hdigit c (List.mem_of_mem_take hc), fun c hc ↦ hdigit c (List.mem_of_mem_drop hc)⟩
  · intro hnil
    have := congrArg List.length hnil
    simp only [List.length_take, List.length_nil, whole] at this
    omega
  · simp only [List.length_drop, whole]
    omega

namespace PlainNumeral

/-- Digits with a point before the last of them write their value over a power of ten. -/
theorem of_pointed {digits : List Char} (h : ∀ c ∈ digits, c.isDigit = true) (places : Nat) :
    PlainNumeral (Decimal.pointed digits places) ⟨digitsValue digits, -places⟩ := by
  obtain ⟨whole, fraction, hpointed, happend, hne, hplaces, hwhole, hfraction⟩ :=
    Decimal.exists_pointed_eq h places
  have hnumeral := pointed hne hwhole hfraction
  rw [happend, digitsValue_zeros_append, hplaces] at hnumeral
  rwa [hpointed]

/-- The plain text of a decimal is a numeral for it, with its exponent spelled out. -/
theorem of_plainChars (d : Decimal) : PlainNumeral d.plainChars d.expanded := by
  have hdigits := isDigit_digitChars d.coefficient
  have hvalue := digitsValue_digitChars d.coefficient
  unfold Decimal.plainChars Decimal.expanded
  split
  · have hexpanded :
        digitsValue (digitChars d.coefficient ++ List.replicate d.exponent.toNat '0') =
          d.coefficient * 10 ^ d.exponent.toNat := by
      rw [digitsValue_append_zeros, hvalue]
    rw [← hexpanded]
    exact whole (List.append_ne_nil_of_left_ne_nil (digitChars_ne_nil _) _)
      (isDigit_append_zeros hdigits _)
  · have hplaces : -((-d.exponent).toNat : Int) = d.exponent := by omega
    have hnumeral := of_pointed hdigits (-d.exponent).toNat
    rwa [hvalue, hplaces] at hnumeral

end PlainNumeral

namespace Binary64

/-- The plain text of a finite number without sign is a plain numeral. -/
theorem plainNumeral_plainChars (m : Magnitude) :
    PlainNumeral (finite false m).plainChars (Decimal.shortest .up m).expanded :=
  .of_plainChars (Decimal.shortest .up m)

/-- The plain text of a number is a numeral of that number. -/
theorem ofNumeral?_plainChars (x : Binary64) : ofNumeral? x.plainChars = some x := by
  cases x with
  | nan => rfl
  | infinite negative => cases negative <;> rfl
  | finite negative m =>
    have h := plainNumeral_plainChars m
    have hnearest := Decimal.nearest?_expanded (Decimal.nearest?_shortest .up m)
    have hsign :
        splitSign (finite negative m).plainChars = (negative, (finite false m).plainChars) := by
      cases negative with
      | true => rfl
      | false => exact splitSign_of_isLiteralChar fun c hc ↦ h.isLiteralChar_of_mem hc
    rw [ofNumeral?, hsign]
    dsimp only
    rw [h.ofNumeral?_eq]
    dsimp only
    rw [Decimal.toBinary64, hnearest, ofMagnitude?]

/-- The plain text of a finite number without sign is a literal of that number. -/
theorem ofLiteral_plainChars (m : Magnitude) :
    ofLiteral (finite false m).plainChars = finite false m := by
  rw [ofLiteral, (plainNumeral_plainChars m).beforeSecondPoint_eq, ofNumeral?_plainChars,
    Option.getD_some]

/-- Only the negative zero is written with a minus sign and the digit zero. -/
theorem plain_eq_negative_zero_iff {x : Binary64} : x.plain = "-0" ↔ x = zero true := by
  constructor
  · intro h
    have hchars : x.plainChars = ['-', '0'] := by
      rw [← toList_plain, h]
      rfl
    cases x with
    | nan => cases hchars
    | infinite negative => cases negative <;> cases hchars
    | finite negative m =>
      cases negative with
      | false =>
        -- No numeral starts with a sign.
        have hliteral := (plainNumeral_plainChars m).isLiteralChar_of_mem
          (hchars ▸ List.mem_cons_self : '-' ∈ (finite false m).plainChars)
        exact absurd hliteral (by decide)
      | true =>
        have hdigit : (finite false m).plainChars = ['0'] := (List.cons.inj hchars).2
        have hzero := ofLiteral_plainChars m
        rw [hdigit] at hzero
        have hread : ofLiteral ['0'] = zero false := rfl
        cases hread.symm.trans hzero
        rfl
  · rintro rfl
    rfl

/-- Whether the sign bit of an infinity or of a finite number is set. -/
def isNegative : Binary64 → Bool
  | nan => false
  | infinite negative => negative
  | finite negative _ => negative

/-- A rounded number has the sign that it is given. -/
theorem isNegative_ofMagnitude? (negative : Bool) (m : Option Magnitude) :
    (ofMagnitude? negative m).isNegative = negative := by
  cases m <;> rfl

/-- What is in front of the second point is part of the text. -/
theorem mem_of_mem_beforeSecondPoint {cs : List Char} {c : Char} (h : c ∈ beforeSecondPoint cs) :
    c ∈ cs := by
  unfold beforeSecondPoint at h
  rw [← List.takeWhile_append_dropWhile (p := (· ≠ '.')) (l := cs)]
  cases hrest : cs.dropWhile (· ≠ '.') with
  | nil =>
    rw [hrest] at h
    exact List.mem_append_left _ h
  | cons point rest =>
    rw [hrest] at h
    rcases List.mem_append.mp h with hwhole | hfraction
    · exact List.mem_append_left _ hwhole
    · refine List.mem_append_right _ ?_
      rcases List.mem_cons.mp hfraction with rfl | hmem
      · exact List.mem_cons_self
      · exact List.mem_cons_of_mem _ ((List.takeWhile_sublist _).subset hmem)

/-- A literal of digits and points has no sign. -/
theorem isNegative_ofLiteral {cs : List Char} (h : ∀ c ∈ cs, isLiteralChar c = true) :
    (ofLiteral cs).isNegative = false := by
  rw [ofLiteral, ofNumeral?,
    splitSign_of_isLiteralChar fun c hc ↦ h c (mem_of_mem_beforeSecondPoint hc)]
  dsimp only
  cases Decimal.ofNumeral? (beforeSecondPoint cs) with
  | some d => exact isNegative_ofMagnitude? false d.nearest?
  | none =>
    dsimp only
    unfold ofWord?
    split
    · rfl
    · split
      · rfl
      · rfl

end Binary64

end PocketCalc
