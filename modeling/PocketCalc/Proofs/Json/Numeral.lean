import PocketCalc.Json.Reader
import PocketCalc.Proofs.Decimal.Literal

/-!
# Numbers in JSON

A `NumeralText` is the text of a number without its sign: digits without a zero in front of others,
perhaps a point with more digits, perhaps an exponent. It is read to its end whatever follows that
is no part of a number (`NumeralText.readNumeral_append`). What is written for a magnitude is such a
text, and the decimal of its digits has the magnitude as its nearest one
(`exists_numeralText_shortest`).
-/

namespace PocketCalc

-- Powers of natural numbers are the core library's here, whatever else is imported.
attribute [local instance (high)] instPowNat

/-- Decimals of one value have one nearest magnitude. -/
theorem Decimal.nearest?_eq_of_value_eq {d d' : Decimal} (h : d.value = d'.value) :
    d.nearest? = d'.nearest? := by
  have hequal : d.toBinary64 false = d'.toBinary64 false :=
    (isNearest_toBinary64 d).eq (h ▸ isNearest_toBinary64 d')
  unfold toBinary64 at hequal
  cases hd : d.nearest? <;> cases hd' : d'.nearest? <;>
    simp [hd, hd', Binary64.ofMagnitude?] at hequal ⊢
  exact hequal

/-- The digits of a number that is not zero do not begin with a zero. -/
theorem head?_digitChars_ne {n : Nat} (h : n ≠ 0) : (digitChars n).head? ≠ some '0' := by
  have hdigit : ∀ k < 10, k ≠ 0 → Nat.digitChar k ≠ '0' := by decide
  induction n using Nat.strongRecOn with
  | ind n ih =>
    rw [digitChars, Nat.toDigits_eq_if (by decide)]
    split
    · next hlt => simpa using hdigit n hlt h
    · next hge =>
      rw [List.head?_append_of_ne_nil _ Nat.toDigits_ne_nil]
      exact ih (n / 10) (by omega) (by omega)

namespace Json

/-- Digits before the point: at least one, and no zero in front of others. -/
structure IsWhole (cs : List Char) : Prop where
  ne_nil : cs ≠ []
  isDigit : ∀ c ∈ cs, c.isDigit = true
  noLeadingZero : ∀ c rest, cs ≠ '0' :: c :: rest

/-- The text of an exponent, which may be absent. -/
inductive ExponentText : List Char → Int → Prop where
  | absent : ExponentText [] 0
  | signed (negative : Bool) {digits : List Char} (ne_nil : digits ≠ [])
    (isDigit : ∀ c ∈ digits, c.isDigit = true) :
    ExponentText ('e' :: (if negative then '-' else '+') :: digits)
      (signedInt negative (digitsValue digits))

/-- The text of a number without its sign. -/
inductive NumeralText : List Char → Numeral → Prop where
  | whole {whole text : List Char} {exponent : Int} (isWhole : IsWhole whole)
    (exponentText : ExponentText text exponent) :
    NumeralText (whole ++ text) ⟨whole, [], exponent⟩
  | pointed {whole fraction text : List Char} {exponent : Int} (isWhole : IsWhole whole)
    (ne_nil : fraction ≠ []) (isDigit : ∀ c ∈ fraction, c.isDigit = true)
    (exponentText : ExponentText text exponent) :
    NumeralText (whole ++ '.' :: (fraction ++ text)) ⟨whole, fraction, exponent⟩

/-- What follows is no part of a number. -/
def EndsNumber (rest : List Char) : Prop :=
  ∀ c ∈ rest.head?, c.isDigit = false ∧ c ≠ '.' ∧ c ≠ 'e' ∧ c ≠ 'E'

/-- A number may stand at the end of a text. -/
theorem endsNumber_nil : EndsNumber [] := fun _ hc ↦ absurd hc (Option.not_mem_none _)

/-- Digits are read up to what is none. -/
theorem readDigits_append {digits rest : List Char} (hne : digits ≠ [])
    (hdigits : ∀ c ∈ digits, c.isDigit = true) (hrest : ∀ c ∈ rest.head?, c.isDigit = false) :
    readDigits (digits ++ rest) = .ok (digits, rest) := by
  have hstop : rest.takeWhile Char.isDigit = [] ∧ rest.dropWhile Char.isDigit = rest := by
    cases rest with
    | nil => exact ⟨rfl, rfl⟩
    | cons c rest =>
      have hc := hrest c rfl
      exact ⟨List.takeWhile_cons_of_neg (by simp [hc]), List.dropWhile_cons_of_neg (by simp [hc])⟩
  have htake : (digits ++ rest).takeWhile Char.isDigit = digits := by
    rw [List.takeWhile_append_of_pos hdigits, hstop.1, List.append_nil]
  have hdrop : (digits ++ rest).dropWhile Char.isDigit = rest := by
    rw [List.dropWhile_append_of_pos hdigits, hstop.2]
  cases digits with
  | nil => exact absurd rfl hne
  | cons c digits =>
    rw [List.cons_append] at htake hdrop ⊢
    rw [readDigits, if_pos (hdigits c List.mem_cons_self), htake, hdrop]

/-- The digits before the point are read up to what is no digit. -/
theorem readWhole_append {whole rest : List Char} (h : IsWhole whole)
    (hrest : ∀ c ∈ rest.head?, c.isDigit = false) :
    readWhole (whole ++ rest) = .ok (whole, rest) := by
  rw [readWhole, readDigits_append h.ne_nil h.isDigit hrest]
  split
  · next heq =>
    cases heq
    exact absurd rfl (h.noLeadingZero _ _)
  · rfl

/-- An exponent is read to its end. -/
theorem ExponentText.readExponent_append {text : List Char} {exponent : Int}
    (h : ExponentText text exponent) {rest : List Char} (hrest : EndsNumber rest) :
    readExponent (text ++ rest) = .ok (exponent, rest) := by
  cases h with
  | absent =>
    cases rest with
    | nil => rfl
    | cons c rest =>
      obtain ⟨-, -, he, hE⟩ := hrest c rfl
      rw [List.nil_append, readExponent, if_neg (by simp [he, hE])]
  | signed negative ne_nil isDigit =>
    have hdigits := readDigits_append ne_nil isDigit fun c hc ↦ (hrest c hc).1
    cases negative <;> simp [readExponent, splitSign, hdigits, Except.map]

/-- In front of what ends a number or of an exponent stands neither a digit nor a point. -/
theorem ExponentText.head?_append {text : List Char} {exponent : Int}
    (h : ExponentText text exponent) {rest : List Char} (hrest : EndsNumber rest) :
    ∀ c ∈ (text ++ rest).head?, c.isDigit = false ∧ c ≠ '.' := by
  cases h with
  | absent => exact fun c hc ↦ ⟨(hrest c hc).1, (hrest c hc).2.1⟩
  | signed negative ne_nil isDigit =>
    intro c hc
    cases hc
    exact ⟨rfl, by decide⟩

/-- The text of a number is read to its end. -/
theorem NumeralText.readNumeral_append {cs : List Char} {n : Numeral} (h : NumeralText cs n)
    {rest : List Char} (hrest : EndsNumber rest) : readNumeral (cs ++ rest) = .ok (n, rest) := by
  cases h with
  | @whole whole text exponent isWhole exponentText =>
    have hhead := exponentText.head?_append hrest
    have hfraction : readFraction (text ++ rest) = .ok ([], text ++ rest) := by
      unfold readFraction
      split
      · next after heq => exact absurd rfl (hhead '.' (by rw [heq]; rfl)).2
      · rfl
    rw [List.append_assoc, readNumeral, readWhole_append isWhole fun c hc ↦ (hhead c hc).1]
    dsimp only
    rw [hfraction]
    dsimp only
    rw [exponentText.readExponent_append hrest]
    rfl
  | @pointed whole fraction text exponent isWhole ne_nil isDigit exponentText =>
    have hhead := exponentText.head?_append hrest
    have hdigits := readDigits_append ne_nil isDigit fun c hc ↦ (hhead c hc).1
    have hpoint : ∀ c ∈ ('.' :: (fraction ++ (text ++ rest))).head?, c.isDigit = false := by
      intro c hc
      cases hc
      rfl
    rw [List.append_assoc, List.cons_append, List.append_assoc, readNumeral,
      readWhole_append isWhole hpoint]
    dsimp only
    rw [readFraction, hdigits]
    dsimp only
    rw [exponentText.readExponent_append hrest]
    rfl

/-- The text of a number begins with a digit. -/
theorem NumeralText.exists_eq_cons {cs : List Char} {n : Numeral} (h : NumeralText cs n) :
    ∃ c rest, cs = c :: rest ∧ c.isDigit = true := by
  cases h with
  | @whole whole _ _ isWhole | @pointed whole _ _ _ isWhole =>
    obtain ⟨c, rest, rfl⟩ := List.exists_cons_of_ne_nil isWhole.ne_nil
    exact ⟨c, _, rfl, isWhole.isDigit c List.mem_cons_self⟩

/-! ### What is written -/

/-- Digits that do not begin with a zero stand before a point. -/
theorem IsWhole.of_head? {cs : List Char} (hne : cs ≠ []) (hdigit : ∀ c ∈ cs, c.isDigit = true)
    (hhead : cs.head? ≠ some '0') : IsWhole cs := by
  refine ⟨hne, hdigit, ?_⟩
  rintro c rest rfl
  exact hhead rfl

/-- One digit stands before a point. -/
theorem isWhole_singleton {c : Char} (h : c.isDigit = true) : IsWhole [c] := by
  refine ⟨List.cons_ne_nil _ _, ?_, by simp⟩
  intro d hd
  rwa [List.mem_singleton.mp hd]

namespace Numeral

/-- The decimal that the digits of a number write. -/
def decimal (n : Numeral) : Decimal :=
  ⟨digitsValue (n.whole ++ n.fraction), n.exponent - n.fraction.length⟩

/-- The conversion to the nearest magnitude. -/
def nearest? : Conversion := fun n ↦ n.decimal.nearest?

end Numeral

/-- A signed power of ten is the text of an exponent. -/
theorem exponentText_signed (order : Int) :
    ExponentText ('e' :: (if order < 0 then '-' else '+') :: digitChars order.natAbs) order := by
  have htext (negative : Bool) := ExponentText.signed negative
    (digitChars_ne_nil order.natAbs) (isDigit_digitChars order.natAbs)
  rw [digitsValue_digitChars] at htext
  by_cases hsign : order < 0
  · have hnegative := htext true
    rw [signedInt_true, Int.ofNat_natAbs_of_nonpos hsign.le, Int.neg_neg] at hnegative
    simpa [hsign] using hnegative
  · have hpositive := htext false
    rw [signedInt_false, Int.natAbs_of_nonneg (Int.not_lt.mp hsign)] at hpositive
    simpa [hsign] using hpositive

/-- A number with a fraction `.0` is the text of a number. -/
theorem exists_numeralText_whole {whole : List Char} (h : IsWhole whole) :
    ∃ n, NumeralText (whole ++ ['.', '0']) n ∧ n.decimal = ⟨digitsValue whole * 10, -1⟩ := by
  have hfraction : ∀ c ∈ ['0'], c.isDigit = true := by simp
  refine ⟨⟨whole, ['0'], 0⟩, .pointed h (List.cons_ne_nil _ _) hfraction .absent, ?_⟩
  have hvalue := digitsValue_append_zeros whole 1
  rw [Nat.pow_one] at hvalue
  exact congrArg (Decimal.mk · (-1)) hvalue

/-- Digits with a point before the last of them are the text of a number. -/
theorem exists_numeralText_pointed {digits : List Char} (hdigits : ∀ c ∈ digits, c.isDigit = true)
    (hhead : digits.head? ≠ some '0') {places : Nat} (hplaces : 0 < places) :
    ∃ n, NumeralText (Decimal.pointed digits places) n ∧
      n.decimal = ⟨digitsValue digits, -places⟩ := by
  obtain ⟨whole, fraction, hpointed, happend, hne, hlength, hwhole, hfraction⟩ :=
    Decimal.exists_pointed_eq hdigits places
  have hiswhole : IsWhole whole := by
    by_cases hshort : digits.length ≤ places
    · -- Zeros fill up to the point, so that one digit stands before it.
      have hone : whole.length = 1 := by
        have htotal := congrArg List.length happend
        simp only [List.length_append, List.length_replicate] at htotal
        omega
      obtain ⟨c, rfl⟩ := List.length_eq_one_iff.mp hone
      exact isWhole_singleton (hwhole c List.mem_cons_self)
    · have hnone : places + 1 - digits.length = 0 := by omega
      rw [hnone, List.replicate_zero, List.nil_append] at happend
      refine .of_head? hne hwhole ?_
      rwa [← happend, List.head?_append_of_ne_nil _ hne] at hhead
  have hsome : fraction ≠ [] := by
    rintro rfl
    exact hplaces.ne hlength
  refine ⟨⟨whole, fraction, 0⟩, ?_, ?_⟩
  · have htext := NumeralText.pointed hiswhole hsome hfraction .absent
    rwa [List.append_nil, ← hpointed] at htext
  · rw [Numeral.decimal, happend, digitsValue_zeros_append, hlength, Int.zero_sub]

/-- Digits with a point after the first one and a power of ten are the text of a number. -/
theorem exists_numeralText_scientific {digits : List Char} (hne : digits ≠ [])
    (hdigits : ∀ c ∈ digits, c.isDigit = true) (exponent : Int) :
    ∃ n, NumeralText (Decimal.scientificChars digits (exponent + digits.length - 1)) n ∧
      n.decimal = ⟨digitsValue digits, exponent⟩ := by
  have hexponent := exponentText_signed (exponent + digits.length - 1)
  match digits, hne with
  | [first], _ =>
    have hwhole := isWhole_singleton (hdigits first List.mem_cons_self)
    refine ⟨⟨[first], [], _⟩, .whole hwhole hexponent, ?_⟩
    simp [Numeral.decimal]
  | first :: second :: rest, _ =>
    have hwhole := isWhole_singleton (hdigits first List.mem_cons_self)
    refine ⟨⟨[first], second :: rest, _⟩, .pointed hwhole (List.cons_ne_nil _ _)
      (fun c hc ↦ hdigits c (List.mem_cons_of_mem _ hc)) hexponent, ?_⟩
    simp only [Numeral.decimal, List.singleton_append, List.length_cons, Decimal.mk.injEq, true_and]
    omega

/-- The digits of a number and zeros after them stand before a point, unless more zeros follow the
digit zero. -/
theorem isWhole_digitChars_append {c e : Nat} (hzero : c = 0 → e = 0) :
    IsWhole (digitChars c ++ List.replicate e '0') := by
  by_cases hc : c = 0
  · rw [hzero hc, hc, List.replicate_zero, List.append_nil]
    exact isWhole_singleton rfl
  · refine .of_head? (List.append_ne_nil_of_left_ne_nil (digitChars_ne_nil c) _)
      (isDigit_append_zeros (isDigit_digitChars c) e) ?_
    rw [List.head?_append_of_ne_nil _ (digitChars_ne_nil c)]
    exact head?_digitChars_ne hc

/-- What is written for a decimal is the text of a number, and its digits write the same value. -/
theorem exists_numeralText_jsonChars {d : Decimal} (hzero : d.coefficient = 0 → d.exponent = 0) :
    ∃ n, NumeralText d.jsonChars n ∧ n.decimal.value = d.value := by
  have hdigits := isDigit_digitChars d.coefficient
  have hne := digitChars_ne_nil d.coefficient
  have hvalue := digitsValue_digitChars d.coefficient
  unfold Decimal.jsonChars
  extract_lets digits order
  split
  · split
    · next hexponent =>
      have hwhole : IsWhole (digits ++ List.replicate d.exponent.toNat '0') :=
        isWhole_digitChars_append fun h ↦ by rw [hzero h, Int.toNat_zero]
      obtain ⟨n, htext, hdecimal⟩ := exists_numeralText_whole hwhole
      refine ⟨n, htext, ?_⟩
      have hpower : (10 : ℚ) ^ d.exponent = 10 ^ d.exponent.toNat := by
        rw [← zpow_natCast, Int.toNat_of_nonneg hexponent]
      rw [hdecimal, digitsValue_append_zeros, hvalue, Decimal.value, Decimal.value, hpower]
      push_cast
      rw [zpow_neg_one, mul_assoc, mul_inv_cancel₀ (by norm_num), mul_one]
    · next hexponent =>
      have hcoefficient : d.coefficient ≠ 0 := fun h ↦ hexponent (hzero h ▸ Int.le_refl 0)
      obtain ⟨n, htext, hdecimal⟩ := exists_numeralText_pointed hdigits
        (head?_digitChars_ne hcoefficient) (by omega : 0 < (-d.exponent).toNat)
      have hplaces : -((-d.exponent).toNat : Int) = d.exponent := by omega
      exact ⟨n, htext, by rw [hdecimal, hvalue, hplaces]⟩
  · obtain ⟨n, htext, hdecimal⟩ := exists_numeralText_scientific hne hdigits d.exponent
    exact ⟨n, htext, by rw [hdecimal, hvalue]⟩

/-- What is written for a magnitude is the text of a number that is nearest to the magnitude. -/
theorem exists_numeralText_shortest (m : Magnitude) :
    ∃ n, NumeralText (Decimal.shortest .even m).jsonChars n ∧ n.nearest? = some m := by
  have hnearest := Decimal.nearest?_shortest .even m
  have hzero : (Decimal.shortest .even m).coefficient = 0 →
      (Decimal.shortest .even m).exponent = 0 := by
    intro h
    rw [Decimal.nearest?_of_coefficient_eq_zero h] at hnearest
    cases hnearest
    rfl
  obtain ⟨n, htext, hvalue⟩ := exists_numeralText_jsonChars hzero
  exact ⟨n, htext, (Decimal.nearest?_eq_of_value_eq hvalue).trans hnearest⟩

end Json

end PocketCalc
