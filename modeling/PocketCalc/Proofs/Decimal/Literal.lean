import PocketCalc.Proofs.Binary64.Order
import PocketCalc.Proofs.Decimal.PlainNumeral

/-!
# The number that a literal writes

Reading a decimal is correct rounding (`Decimal.isNearest_toBinary64`): the exponents that are
settled first lead to the same double as the exact quotient. What stands in front of the second
point of a literal writes a number (`writtenNumber`), and the literal is the double nearest to it
(`Binary64.ofLiteral_writtenNumber`).
-/

namespace PocketCalc

-- Powers of natural numbers are the core library's here, whatever else is imported.
attribute [local instance (high)] instPowNat

-- The bounds are compared with each other by evaluation and otherwise kept closed.
attribute [local irreducible] unitsPerOne overflowUnits overflowBound

/-! ### Decimals -/

/-- Less than half a unit is rounded to nothing. -/
theorem roundUnits_eq_zero {num den : Nat} (h : 2 * num < den) : roundUnits num den = 0 := by
  have hlt : num < den := by omega
  simp [roundUnits, divNearestEven, ulp, Nat.div_eq_of_lt hlt, Nat.mod_eq_of_lt hlt, h]

namespace Decimal

/-- The number that a coefficient and a power of ten write. -/
def value (d : Decimal) : ℚ := d.coefficient * 10 ^ d.exponent

/-- The exact quotient has the value of the decimal. -/
theorem value_eq_quotient (d : Decimal) :
    d.value = d.quotient.1 / d.quotient.2 / unitsPerOne := by
  have hexponent : d.exponent = d.exponent.toNat - (-d.exponent).toNat := by omega
  rw [value, quotient, Nat.cast_mul, mul_div_right_comm,
    mul_div_cancel_right₀ _ cast_unitsPerOne_pos.ne']
  conv => lhs; rw [hexponent, zpow_sub₀ (by norm_num), zpow_natCast, zpow_natCast, ← mul_div_assoc]
  push_cast
  rfl

private theorem ten_pow_compared : 2 * (2 * unitsPerOne) < 10 ^ (325 : Nat) ∧
    overflowBound ≤ 10 ^ (310 : Nat) * unitsPerOne := by
  decide +kernel

private theorem two_pow_lt_ten_pow (n : Nat) :
    2 ^ (n + 1) * (2 * unitsPerOne) < 10 ^ (325 + n) := by
  have hbase := ten_pow_compared.1
  calc 2 ^ (n + 1) * (2 * unitsPerOne) = 2 ^ n * (2 * (2 * unitsPerOne)) := by
        rw [Nat.pow_succ, Nat.mul_assoc]
    _ < 2 ^ n * 10 ^ 325 := Nat.mul_lt_mul_of_pos_left hbase (Nat.two_pow_pos n)
    _ ≤ 10 ^ n * 10 ^ 325 := Nat.mul_le_mul_right _ (Nat.pow_le_pow_left (by decide) n)
    _ = 10 ^ (325 + n) := by rw [Nat.pow_add, Nat.mul_comm]

/-- A number that vanishes is less than half a unit. -/
theorem two_mul_quotient_lt {d : Decimal} (h : d.Vanishes) : 2 * d.quotient.1 < d.quotient.2 := by
  rcases h with hzero | hsmall
  · have hpos := d.quotient_snd_pos
    rwa [quotient, hzero, Nat.zero_mul, Nat.zero_mul, Nat.mul_zero]
  · obtain ⟨n, hn⟩ : ∃ n : Nat, d.exponent = -n := ⟨(-d.exponent).toNat, by omega⟩
    have hd : d = ⟨d.coefficient, -n⟩ := by rw [← hn]
    rw [hd, quotient_neg_natCast]
    calc 2 * (d.coefficient * unitsPerOne) = d.coefficient * (2 * unitsPerOne) :=
          Nat.mul_left_comm _ _ _
      _ ≤ 2 ^ (d.coefficient.log2 + 1) * (2 * unitsPerOne) :=
          Nat.mul_le_mul_right _ Nat.lt_log2_self.le
      _ < 10 ^ (325 + d.coefficient.log2) := two_pow_lt_ten_pow _
      _ ≤ 10 ^ n := Nat.pow_le_pow_right (by decide) (by omega)

/-- A number that overflows by its exponent is past the overflow bound. -/
theorem overflowBound_mul_le_quotient {d : Decimal} (hcoefficient : d.coefficient ≠ 0)
    (h : d.Overflows) : overflowBound * d.quotient.2 ≤ d.quotient.1 := by
  obtain ⟨e, he⟩ : ∃ e, e = 310 := ⟨_, rfl⟩
  obtain ⟨n, hn⟩ : ∃ n : Nat, d.exponent = (e + n : Nat) := by
    unfold Overflows at h
    exact ⟨d.exponent.toNat - e, by omega⟩
  have hd : d = ⟨d.coefficient, (e + n : Nat)⟩ := by rw [← hn]
  have hbase : overflowBound ≤ 10 ^ e * unitsPerOne := by
    rw [he]
    exact ten_pow_compared.2
  rw [hd, quotient_natCast, Nat.mul_one]
  calc overflowBound ≤ 10 ^ e * unitsPerOne := hbase
    _ ≤ 10 ^ (e + n) * unitsPerOne :=
        Nat.mul_le_mul_right _ (Nat.pow_le_pow_right (by decide) (Nat.le_add_right _ _))
    _ ≤ d.coefficient * 10 ^ (e + n) * unitsPerOne :=
        Nat.mul_le_mul_right _ (Nat.le_mul_of_pos_left _ (Nat.pos_of_ne_zero hcoefficient))

/-- The exponents that are settled first lead to what the exact quotient is rounded to. -/
theorem nearest?_eq_nearest?_quotient (d : Decimal) :
    d.nearest? = Magnitude.nearest? d.quotient.1 d.quotient.2 := by
  by_cases hvanishes : d.Vanishes
  · have hround := roundUnits_eq_zero (two_mul_quotient_lt hvanishes)
    have hlt : roundUnits d.quotient.1 d.quotient.2 < overflowUnits := by
      rw [hround]
      exact Nat.zero_lt_of_lt overflowBound_lt_overflowUnits
    rw [nearest?, if_pos hvanishes, Magnitude.nearest?, dif_pos hlt]
    exact congrArg some (Magnitude.ext hround.symm)
  · by_cases hoverflows : d.Overflows
    · have hover := overflowBound_mul_le_quotient (fun hzero ↦ hvanishes (.inl hzero)) hoverflows
      rw [nearest?, if_neg hvanishes, if_pos hoverflows, eq_comm, Magnitude.nearest?_eq_none_iff,
        overflowUnits_le_roundUnits_iff d.quotient_snd_pos]
      exact hover
    · exact nearest?_eq_quotient hvanishes hoverflows

/-- A decimal is read as the nearest double. -/
theorem isNearest_toBinary64 (d : Decimal) : (d.toBinary64 false).IsNearest d.value := by
  have hnonneg : 0 ≤ d.value := mul_nonneg (Nat.cast_nonneg _) (zpow_nonneg (by norm_num) _)
  have hvalue := d.value_eq_quotient
  have hnear := Binary64.isNearest_ofQuotient (q := d.value) d.quotient_snd_pos
    (by rw [abs_of_nonneg hnonneg]; exact hvalue)
  rwa [decide_eq_false (not_lt.mpr hnonneg), Binary64.ofQuotient,
    ← nearest?_eq_nearest?_quotient] at hnear

end Decimal

/-! ### The part in front of the second point -/

/-- What stands in front of the second point of a text, or all of it when there is no second one. -/
def IsBeforeSecondPoint (head cs : List Char) : Prop :=
  (head = cs ∧ cs.count '.' ≤ 1) ∨ ∃ rest, cs = head ++ '.' :: rest ∧ head.count '.' = 1

section Points

variable {cs whole : List Char}

private theorem ne_point_of_mem (h : '.' ∉ whole) : ∀ c ∈ whole, decide (c ≠ '.') = true := by
  intro c hc
  rw [decide_eq_true_iff]
  rintro rfl
  exact h hc

/-- A text is cut at its second point. -/
theorem beforeSecondPoint_eq_append (h : '.' ∉ whole) (rest : List Char) :
    Binary64.beforeSecondPoint (whole ++ '.' :: rest) =
      whole ++ '.' :: rest.takeWhile (· ≠ '.') := by
  have hwhole := ne_point_of_mem h
  rw [Binary64.beforeSecondPoint, takeWhile_point hwhole (by decide),
    dropWhile_point hwhole (by decide)]

/-- A text with one point at most is not cut. -/
theorem beforeSecondPoint_of_count_le_one (h : cs.count '.' ≤ 1) :
    Binary64.beforeSecondPoint cs = cs := by
  by_cases hpoint : '.' ∈ cs
  · obtain ⟨whole, rest, rfl, hwhole⟩ := List.eq_append_cons_of_mem hpoint
    rw [List.count_append, List.count_cons_self] at h
    have hrest : '.' ∉ rest := List.count_eq_zero.mp (by omega)
    rw [beforeSecondPoint_eq_append hwhole, List.takeWhile_eq_self_iff.mpr (ne_point_of_mem hrest)]
  · rw [Binary64.beforeSecondPoint, List.takeWhile_eq_self_iff.mpr (ne_point_of_mem hpoint),
      List.dropWhile_eq_nil_iff.mpr (ne_point_of_mem hpoint)]

/-- Whatever follows a second point is cut off. -/
theorem beforeSecondPoint_append_point {head : List Char} (h : head.count '.' = 1)
    (rest : List Char) : Binary64.beforeSecondPoint (head ++ '.' :: rest) = head := by
  obtain ⟨whole, middle, rfl, hwhole⟩ :=
    List.eq_append_cons_of_mem (List.count_pos_iff.mp (by omega : 0 < head.count '.'))
  rw [List.count_append, List.count_cons_self] at h
  have hmiddle : '.' ∉ middle := List.count_eq_zero.mp (by omega)
  rw [List.append_assoc, List.cons_append, beforeSecondPoint_eq_append hwhole,
    takeWhile_point (ne_point_of_mem hmiddle) (by decide)]

/-- The part in front of the second point is where reading a literal stops. -/
theorem isBeforeSecondPoint_iff {head : List Char} :
    IsBeforeSecondPoint head cs ↔ head = Binary64.beforeSecondPoint cs := by
  constructor
  · rintro (⟨rfl, hcount⟩ | ⟨rest, rfl, hcount⟩)
    · exact (beforeSecondPoint_of_count_le_one hcount).symm
    · exact (beforeSecondPoint_append_point hcount rest).symm
  · rintro rfl
    by_cases hcount : cs.count '.' ≤ 1
    · exact .inl ⟨beforeSecondPoint_of_count_le_one hcount, hcount⟩
    · obtain ⟨whole, rest, rfl, hwhole⟩ :=
        List.eq_append_cons_of_mem (List.count_pos_iff.mp (by omega : 0 < cs.count '.'))
      rw [List.count_append, List.count_cons_self, List.count_eq_zero.mpr hwhole] at hcount
      obtain ⟨middle, tail, rfl, hmiddle⟩ :=
        List.eq_append_cons_of_mem (List.count_pos_iff.mp (by omega : 0 < rest.count '.'))
      have hone : (whole ++ '.' :: middle).count '.' = 1 := by
        rw [List.count_append, List.count_cons_self, List.count_eq_zero.mpr hwhole,
          List.count_eq_zero.mpr hmiddle]
      have hsplit : whole ++ '.' :: (middle ++ '.' :: tail) =
          (whole ++ '.' :: middle) ++ '.' :: tail := by
        rw [List.append_assoc, List.cons_append]
      rw [hsplit, beforeSecondPoint_append_point hone]
      exact .inr ⟨tail, rfl, hone⟩

/-- No part in front of the second point has two points. -/
theorem IsBeforeSecondPoint.count_le_one {head : List Char} (h : IsBeforeSecondPoint head cs) :
    head.count '.' ≤ 1 := by
  rcases h with ⟨rfl, hcount⟩ | ⟨rest, -, hcount⟩ <;> omega

end Points

/-! ### Digits and one point -/

/-- The number that digits with one point at most write: the digits behind the point count tenths,
hundredths and so on. -/
def writtenNumber (head : List Char) : ℚ :=
  let whole := head.takeWhile (· ≠ '.')
  let fraction := (head.dropWhile (· ≠ '.')).tail
  digitsValue whole + digitsValue fraction / 10 ^ fraction.length

/-- The value of digits in front of other digits. -/
theorem digitsValue_append (digits more : List Char) :
    digitsValue (digits ++ more) = digitsValue digits * 10 ^ more.length + digitsValue more := by
  rw [digitsValue, Nat.ofDigitChars_append, Nat.ofDigitChars_eq_ofDigitChars_zero, Nat.mul_comm]
  rfl

section Digits

variable {digits whole fraction head : List Char}

private theorem point_notMem (h : ∀ c ∈ digits, c.isDigit = true) : '.' ∉ digits :=
  fun hmem ↦ absurd (h '.' hmem) (by decide)

/-- Without a point the digits write a whole number. -/
theorem writtenNumber_digits (h : ∀ c ∈ digits, c.isDigit = true) :
    writtenNumber digits = digitsValue digits := by
  have hpoint := ne_point_of_mem (point_notMem h)
  rw [writtenNumber, List.takeWhile_eq_self_iff.mpr hpoint, List.dropWhile_eq_nil_iff.mpr hpoint]
  simp [digitsValue]

/-- The digits on both sides of a point. -/
theorem writtenNumber_pointed (h : ∀ c ∈ whole, c.isDigit = true) (fraction : List Char) :
    writtenNumber (whole ++ '.' :: fraction) =
      digitsValue whole + digitsValue fraction / 10 ^ fraction.length := by
  have hpoint := ne_point_of_mem (point_notMem h)
  rw [writtenNumber, takeWhile_point hpoint (by decide), dropWhile_point hpoint (by decide),
    List.tail_cons]

/-- Zeros in front do not change the number. -/
theorem writtenNumber_zeros_append (n : Nat) (head : List Char) :
    writtenNumber (List.replicate n '0' ++ head) = writtenNumber head := by
  have hzeros : ∀ c ∈ List.replicate n '0', decide (c ≠ '.') = true := by
    intro c hc
    rw [List.eq_of_mem_replicate hc]
    rfl
  rw [writtenNumber, List.takeWhile_append_of_pos hzeros, List.dropWhile_append_of_pos hzeros]
  rw [digitsValue_zeros_append, writtenNumber]

/-- Zeros behind the digits of a fraction do not change the number. -/
theorem writtenNumber_append_zeros (h : '.' ∈ head) (n : Nat) :
    writtenNumber (head ++ List.replicate n '0') = writtenNumber head := by
  obtain ⟨whole, fraction, rfl, hwhole⟩ := List.eq_append_cons_of_mem h
  have hpoint := ne_point_of_mem hwhole
  have hpow : (10 : ℚ) ^ n ≠ 0 := by positivity
  rw [List.append_assoc, List.cons_append, writtenNumber, writtenNumber,
    takeWhile_point hpoint (by decide), takeWhile_point hpoint (by decide),
    dropWhile_point hpoint (by decide), dropWhile_point hpoint (by decide)]
  rw [List.tail_cons, List.tail_cons, digitsValue_append_zeros, List.length_append,
    List.length_replicate, pow_add]
  push_cast
  rw [mul_div_mul_right _ _ hpow]

/-- Digits on both sides of a point write the value of all of them over a power of ten. -/
theorem value_pointed (whole fraction : List Char) :
    Decimal.value ⟨digitsValue (whole ++ fraction), -fraction.length⟩ =
      digitsValue whole + digitsValue fraction / 10 ^ fraction.length := by
  have hpow : (10 : ℚ) ^ fraction.length ≠ 0 := by positivity
  rw [Decimal.value, digitsValue_append, zpow_neg, zpow_natCast, ← div_eq_mul_inv]
  push_cast
  rw [add_div, mul_div_cancel_right₀ _ hpow]

/-- Digits read as a whole number. -/
theorem ofNumeral?_digits (h : ∀ c ∈ digits, c.isDigit = true) (hne : digits ≠ []) :
    Decimal.ofNumeral? digits = some ⟨digitsValue digits, 0⟩ :=
  (PlainNumeral.whole hne h).ofNumeral?_eq

/-- Digits with a point read as all digits over a power of ten; the digits may all stand on one side
of the point. -/
theorem ofNumeral?_pointed (hwhole : ∀ c ∈ whole, c.isDigit = true)
    (hfraction : ∀ c ∈ fraction, c.isDigit = true) (hne : ¬ (whole = [] ∧ fraction = [])) :
    Decimal.ofNumeral? (whole ++ '.' :: fraction) =
      some ⟨digitsValue (whole ++ fraction), -fraction.length⟩ := by
  rw [Decimal.ofNumeral?, takeWhile_point hwhole rfl, dropWhile_point hwhole rfl,
    Decimal.splitFraction, List.takeWhile_eq_self_iff.mpr hfraction,
    List.dropWhile_eq_nil_iff.mpr hfraction]
  dsimp only
  rw [if_neg hne, Decimal.exponentOfNumeral?, Option.map_some, zero_sub]

/-- Characters of a literal with one point at most are digits, or digits around the point. -/
theorem digits_or_pointed (h : ∀ c ∈ head, isLiteralChar c = true) (hcount : head.count '.' ≤ 1) :
    (∀ c ∈ head, c.isDigit = true) ∨ ∃ whole fraction, head = whole ++ '.' :: fraction ∧
      (∀ c ∈ whole, c.isDigit = true) ∧ ∀ c ∈ fraction, c.isDigit = true := by
  have hdigit {part : List Char} (hpart : ∀ c ∈ part, c ∈ head) (hpoint : '.' ∉ part) :
      ∀ c ∈ part, c.isDigit = true := by
    intro c hc
    have hne : c ≠ '.' := fun heq ↦ hpoint (heq ▸ hc)
    simpa [isLiteralChar, hne] using h c (hpart c hc)
  by_cases hpoint : '.' ∈ head
  · obtain ⟨whole, fraction, rfl, hwhole⟩ := List.eq_append_cons_of_mem hpoint
    rw [List.count_append, List.count_cons_self] at hcount
    refine .inr ⟨whole, fraction, rfl, hdigit (fun c hc ↦ List.mem_append_left _ hc) hwhole,
      hdigit (fun c hc ↦ List.mem_append_right _ (List.mem_cons_of_mem _ hc)) ?_⟩
    exact List.count_eq_zero.mp (by omega)
  · exact .inl (hdigit (fun c hc ↦ hc) hpoint)

/-- With a digit in it the text reads as the number that it writes. -/
theorem exists_ofNumeral?_eq (h : ∀ c ∈ head, isLiteralChar c = true) (hcount : head.count '.' ≤ 1)
    (hdigit : ∃ c ∈ head, c.isDigit = true) :
    ∃ d, Decimal.ofNumeral? head = some d ∧ d.value = writtenNumber head := by
  obtain ⟨c, hc, hc'⟩ := hdigit
  rcases digits_or_pointed h hcount with hdigits | ⟨whole, fraction, rfl, hwhole, hfraction⟩
  · refine ⟨_, ofNumeral?_digits hdigits (List.ne_nil_of_mem hc), ?_⟩
    rw [writtenNumber_digits hdigits, Decimal.value, zpow_zero, mul_one]
  · have hne : ¬ (whole = [] ∧ fraction = []) := by
      rintro ⟨rfl, rfl⟩
      obtain rfl := List.mem_singleton.mp hc
      exact absurd hc' (by decide)
    refine ⟨_, ofNumeral?_pointed hwhole hfraction hne, ?_⟩
    rw [writtenNumber_pointed hwhole, value_pointed]

/-- Without a digit in it the text is no numeral. -/
theorem eq_nil_or_point (h : ∀ c ∈ head, isLiteralChar c = true) (hcount : head.count '.' ≤ 1)
    (hdigit : ∀ c ∈ head, c.isDigit = false) : head = [] ∨ head = ['.'] := by
  have hnil {part : List Char} (hpart : ∀ c ∈ part, c ∈ head)
      (hdigits : ∀ c ∈ part, c.isDigit = true) : part = [] := by
    refine List.eq_nil_iff_forall_not_mem.mpr fun c hc ↦ ?_
    have hcontra := (hdigits c hc).symm.trans (hdigit c (hpart c hc))
    cases hcontra
  rcases digits_or_pointed h hcount with hdigits | ⟨whole, fraction, rfl, hwhole, hfraction⟩
  · exact .inl (hnil (fun c hc ↦ hc) hdigits)
  · right
    rw [hnil (fun c hc ↦ List.mem_append_left _ hc) hwhole,
      hnil (fun c hc ↦ List.mem_append_right _ (List.mem_cons_of_mem _ hc)) hfraction]
    rfl

end Digits

/-! ### Literals -/

namespace Binary64

section Literals

variable {cs head : List Char}

/-- A literal without a digit in front of its second point is not a number. -/
theorem ofLiteral_eq_nan (hcs : ∀ c ∈ cs, isLiteralChar c = true)
    (hhead : IsBeforeSecondPoint head cs) (hdigit : ∀ c ∈ head, c.isDigit = false) :
    ofLiteral cs = nan := by
  rw [ofLiteral, ← isBeforeSecondPoint_iff.mp hhead]
  have hliteral : ∀ c ∈ head, isLiteralChar c = true := fun c hc ↦
    hcs c (mem_of_mem_beforeSecondPoint (isBeforeSecondPoint_iff.mp hhead ▸ hc))
  rcases eq_nil_or_point hliteral hhead.count_le_one hdigit with rfl | rfl <;> rfl

/-- A literal with a digit in front of its second point is the double nearest to the number that it
writes. -/
theorem isNearest_ofLiteral (hcs : ∀ c ∈ cs, isLiteralChar c = true)
    (hhead : IsBeforeSecondPoint head cs) (hdigit : ∃ c ∈ head, c.isDigit = true) :
    (ofLiteral cs).IsNearest (writtenNumber head) := by
  have heq := isBeforeSecondPoint_iff.mp hhead
  have hliteral : ∀ c ∈ head, isLiteralChar c = true := fun c hc ↦
    hcs c (mem_of_mem_beforeSecondPoint (heq ▸ hc))
  obtain ⟨d, hd, hvalue⟩ := exists_ofNumeral?_eq hliteral hhead.count_le_one hdigit
  rw [ofLiteral, ← heq, ofNumeral?, splitSign_of_isLiteralChar hliteral]
  dsimp only
  rw [hd, ← hvalue]
  exact d.isNearest_toBinary64

/-- Exactly the literals without a digit in front of their second point are not a number. -/
theorem ofLiteral_eq_nan_iff (hcs : ∀ c ∈ cs, isLiteralChar c = true)
    (hhead : IsBeforeSecondPoint head cs) :
    ofLiteral cs = nan ↔ ∀ c ∈ head, c.isDigit = false := by
  refine ⟨fun hnan ↦ ?_, ofLiteral_eq_nan hcs hhead⟩
  by_contra hdigit
  push Not at hdigit
  have hnear := isNearest_ofLiteral hcs hhead (by simpa using hdigit)
  rw [hnan] at hnear
  exact hnear

/-- A literal that is a number is the double nearest to the number that it writes. -/
theorem isNearest_ofLiteral_of_ne_nan (hcs : ∀ c ∈ cs, isLiteralChar c = true)
    (hhead : IsBeforeSecondPoint head cs) (hne : ofLiteral cs ≠ nan) :
    (ofLiteral cs).IsNearest (writtenNumber head) := by
  refine isNearest_ofLiteral hcs hhead ?_
  have hdigit := (ofLiteral_eq_nan_iff hcs hhead).not.mp hne
  simpa using hdigit

private theorem isLiteralChar_of_mem_zeros {n : Nat} {c : Char} (hc : c ∈ List.replicate n '0') :
    isLiteralChar c = true := by
  rw [List.eq_of_mem_replicate hc]
  rfl

private theorem count_point_zeros (n : Nat) : (List.replicate n '0').count '.' = 0 := by
  rw [List.count_replicate]
  rfl

/-- Literals that write the same number are the same double. -/
theorem ofLiteral_eq_of_writtenNumber_eq {cs' head' : List Char}
    (hcs : ∀ c ∈ cs, isLiteralChar c = true) (hcs' : ∀ c ∈ cs', isLiteralChar c = true)
    (hhead : IsBeforeSecondPoint head cs) (hhead' : IsBeforeSecondPoint head' cs')
    (hsub : ∀ c ∈ head, c ∈ head') (hne : ofLiteral cs ≠ nan)
    (h : writtenNumber head' = writtenNumber head) : ofLiteral cs' = ofLiteral cs := by
  have hdigit : ∃ c ∈ head, c.isDigit = true := by
    simpa using (ofLiteral_eq_nan_iff hcs hhead).not.mp hne
  obtain ⟨c, hc, hc'⟩ := hdigit
  have hnear := isNearest_ofLiteral hcs' hhead' ⟨c, hsub c hc, hc'⟩
  rw [h] at hnear
  exact hnear.eq (isNearest_ofLiteral_of_ne_nan hcs hhead hne)

/-- Zeros in front do not change the value of a literal that is a number. -/
theorem ofLiteral_zeros_append (n : Nat) (hcs : ∀ c ∈ cs, isLiteralChar c = true)
    (hne : ofLiteral cs ≠ nan) : ofLiteral (List.replicate n '0' ++ cs) = ofLiteral cs := by
  obtain ⟨head, hhead⟩ : ∃ head, IsBeforeSecondPoint head cs :=
    ⟨_, isBeforeSecondPoint_iff.mpr rfl⟩
  have hzeros :
      IsBeforeSecondPoint (List.replicate n '0' ++ head) (List.replicate n '0' ++ cs) := by
    rcases hhead with ⟨rfl, hcount⟩ | ⟨rest, rfl, hcount⟩
    · refine .inl ⟨rfl, ?_⟩
      rwa [List.count_append, count_point_zeros, Nat.zero_add]
    · refine .inr ⟨rest, (List.append_assoc _ _ _).symm, ?_⟩
      rwa [List.count_append, count_point_zeros, Nat.zero_add]
  refine ofLiteral_eq_of_writtenNumber_eq hcs (fun c hc ↦ ?_) hhead hzeros
    (fun c hc ↦ List.mem_append_right _ hc) hne (writtenNumber_zeros_append n head)
  rcases List.mem_append.mp hc with hzero | hmem
  · exact isLiteralChar_of_mem_zeros hzero
  · exact hcs c hmem

/-- Zeros behind its fraction do not change the value of a literal that is a number. -/
theorem ofLiteral_append_zeros (n : Nat) (hcs : ∀ c ∈ cs, isLiteralChar c = true)
    (hpoint : cs.count '.' = 1) (hne : ofLiteral cs ≠ nan) :
    ofLiteral (cs ++ List.replicate n '0') = ofLiteral cs := by
  have hmem : '.' ∈ cs := List.count_pos_iff.mp (by omega)
  refine ofLiteral_eq_of_writtenNumber_eq hcs (fun c hc ↦ ?_) (.inl ⟨rfl, hpoint.le⟩)
    (.inl ⟨rfl, ?_⟩) (fun c hc ↦ List.mem_append_left _ hc) hne (writtenNumber_append_zeros hmem n)
  · rcases List.mem_append.mp hc with hliteral | hzero
    · exact hcs c hliteral
    · exact isLiteralChar_of_mem_zeros hzero
  · rw [List.count_append, count_point_zeros, hpoint]

/-- Whatever follows a second point does not change the value. -/
theorem ofLiteral_append_point (hpoint : head.count '.' = 1) (rest : List Char) :
    ofLiteral (head ++ '.' :: rest) = ofLiteral head := by
  rw [ofLiteral, ofLiteral, beforeSecondPoint_append_point hpoint,
    beforeSecondPoint_of_count_le_one hpoint.le]

end Literals

/-- A literal means the number that is written in front of its second point. Without a digit there
it is not a number; otherwise it is the double nearest to the number, without sign. Therefore the
text behind a second point, zeros in front and zeros at the end of the fraction do not change the
value, and a larger number is never read as a smaller double. -/
theorem ofLiteral_writtenNumber :
    (∀ cs head : List Char, (∀ c ∈ cs, isLiteralChar c = true) → IsBeforeSecondPoint head cs →
      (ofLiteral cs = nan ↔ ∀ c ∈ head, c.isDigit = false) ∧
      (ofLiteral cs ≠ nan →
        (ofLiteral cs).IsNearest (writtenNumber head) ∧ (ofLiteral cs).isNegative = false)) ∧
    (∀ head rest : List Char, head.count '.' = 1 →
      ofLiteral (head ++ '.' :: rest) = ofLiteral head) ∧
    (∀ (cs : List Char) (n : Nat), (∀ c ∈ cs, isLiteralChar c = true) → ofLiteral cs ≠ nan →
      ofLiteral (List.replicate n '0' ++ cs) = ofLiteral cs) ∧
    (∀ (cs : List Char) (n : Nat), (∀ c ∈ cs, isLiteralChar c = true) → cs.count '.' = 1 →
      ofLiteral cs ≠ nan → ofLiteral (cs ++ List.replicate n '0') = ofLiteral cs) ∧
    ∀ cs cs' head head' : List Char, (∀ c ∈ cs, isLiteralChar c = true) →
      (∀ c ∈ cs', isLiteralChar c = true) → IsBeforeSecondPoint head cs →
      IsBeforeSecondPoint head' cs' → ofLiteral cs ≠ nan → ofLiteral cs' ≠ nan →
      writtenNumber head ≤ writtenNumber head' → ofLiteral cs ≤ ofLiteral cs' := by
  refine ⟨fun cs head hcs hhead ↦ ⟨ofLiteral_eq_nan_iff hcs hhead, fun hne ↦ ?_⟩,
    fun head rest hpoint ↦ ofLiteral_append_point hpoint rest,
    fun cs n hcs hne ↦ ofLiteral_zeros_append n hcs hne,
    fun cs n hcs hpoint hne ↦ ofLiteral_append_zeros n hcs hpoint hne, ?_⟩
  · exact ⟨isNearest_ofLiteral_of_ne_nan hcs hhead hne, isNegative_ofLiteral hcs⟩
  · intro cs cs' head head' hcs hcs' hhead hhead' hne hne' hle
    exact (isNearest_ofLiteral_of_ne_nan hcs hhead hne).le_of_le
      (isNearest_ofLiteral_of_ne_nan hcs' hhead' hne') hle

/-- A literal with a second point, more zeros than it needs and a larger neighbour. -/
theorem ofLiteral_writtenNumber_points :
    let short := ['.', '5']
    let long := ['.', '5', '0', '.', '7']
    let larger := ['5', '.']
    (IsBeforeSecondPoint ['.', '5', '0'] long ∧ ofLiteral long ≠ nan ∧
      (ofLiteral long).IsNearest (writtenNumber ['.', '5', '0']) ∧
      (ofLiteral long).isNegative = false) ∧
    ofLiteral long = ofLiteral ['.', '5', '0'] ∧
    ofLiteral ('0' :: '0' :: short) = ofLiteral short ∧
    ofLiteral (short ++ ['0']) = ofLiteral short ∧
    (writtenNumber short ≤ writtenNumber larger ∧ ofLiteral short ≤ ofLiteral larger) := by
  intro short long larger
  obtain ⟨hvalue, hrest, hzeros, hzeros', hmono⟩ := ofLiteral_writtenNumber
  have hhead : IsBeforeSecondPoint ['.', '5', '0'] long := .inr ⟨['7'], rfl, by decide⟩
  have hhead' : IsBeforeSecondPoint short short := .inl ⟨rfl, by decide⟩
  have hhead'' : IsBeforeSecondPoint larger larger := .inl ⟨rfl, by decide⟩
  have hchars : ∀ c ∈ long, isLiteralChar c = true := List.all_eq_true.mp rfl
  have hchars' : ∀ c ∈ short, isLiteralChar c = true := List.all_eq_true.mp rfl
  have hchars'' : ∀ c ∈ larger, isLiteralChar c = true := List.all_eq_true.mp rfl
  have hdigit {head : List Char} (hmem : '5' ∈ head) : ¬ ∀ c ∈ head, c.isDigit = false :=
    fun h ↦ absurd (h '5' hmem) (by decide)
  have hlong := (ofLiteral_eq_nan_iff hchars hhead).not.mpr (hdigit (by decide))
  have hshort := (ofLiteral_eq_nan_iff hchars' hhead').not.mpr (hdigit (by decide))
  have hlarger := (ofLiteral_eq_nan_iff hchars'' hhead'').not.mpr (hdigit (by decide))
  have hle : writtenNumber short ≤ writtenNumber larger := by
    have hnone : ∀ c ∈ ([] : List Char), c.isDigit = true := List.all_eq_true.mp rfl
    have hfive : ∀ c ∈ ['5'], c.isDigit = true := List.all_eq_true.mp rfl
    have hshortValue : writtenNumber short = (0 : Nat) + (5 : Nat) / 10 ^ 1 :=
      writtenNumber_pointed hnone ['5']
    have hlargerValue : writtenNumber larger = (5 : Nat) + (0 : Nat) / 10 ^ 0 :=
      writtenNumber_pointed hfive []
    rw [hshortValue, hlargerValue]
    norm_num
  exact ⟨⟨hhead, hlong, (hvalue long _ hchars hhead).2 hlong⟩,
    hrest ['.', '5', '0'] ['7'] (by decide), hzeros short 2 hchars' hshort,
    hzeros' short 1 hchars' (by decide) hshort, hle,
    hmono short larger short larger hchars' hchars'' hhead' hhead'' hshort hlarger hle⟩

end Binary64

end PocketCalc
