import PocketCalc.Proofs.Binary64.Display
import PocketCalc.Proofs.Json.Value

/-!
# Numbers that scaling reads back

Whole numbers of at most 53 bits are doubles, and so are the powers of ten up to `10 ^ 22`. Scaling
one by the other rounds only once, and so leads to the nearest magnitude
(`Decimal.scaled?_eq_nearest?`). What is written for a number is then read back by scaling when its
digits are within these bounds (`Json.readsBack_scaled`). Outside of them it need not be: a number
that is written as `3e+25` is read as one of its neighbours.
-/

namespace PocketCalc

-- Powers of natural numbers are the core library's here, whatever else is imported.
attribute [local instance (high)] instPowNat

-- The bounds are compared with each other by evaluation and otherwise kept closed.
attribute [local irreducible] unitsPerOne overflowUnits maxUnits overflowBound

namespace Binary64

private theorem ten_pow_mul_unitsPerOne_lt : 10 ^ (22 : Nat) * unitsPerOne < overflowUnits := by
  unfold unitsPerOne overflowUnits
  decide +kernel

/-- A power of ten up to `10 ^ 22` is a double. -/
theorem isDouble_ten_pow {n : Nat} (h : n ≤ 22) : IsDouble (10 ^ n * unitsPerOne) := by
  have hfive : 5 ^ n ≤ 2 ^ (53 : Nat) :=
    Nat.le_trans (Nat.pow_le_pow_right (by decide) h) (by decide)
  refine ⟨?_, ?_⟩
  · exact Nat.lt_of_le_of_lt (Nat.mul_le_mul_right _ (Nat.pow_le_pow_right (by decide) h))
      ten_pow_mul_unitsPerOne_lt
  · have hten : 10 ^ n * unitsPerOne = 5 ^ n * 2 ^ (n + unitPlaces) := by
      rw [unitsPerOne_eq, Nat.pow_add, ← Nat.mul_assoc, ← Nat.mul_pow]
    rw [hten]
    exact ulp_mul_two_pow_dvd hfive _

/-- The magnitude of a rounded quotient is the nearest one. -/
theorem magnitude?_ofQuotient (negative : Bool) (num den : Nat) :
    (ofQuotient negative num den).magnitude? = Magnitude.nearest? num den := by
  unfold ofQuotient
  cases Magnitude.nearest? num den <;> rfl

/-- A product with a power of ten that is a double is rounded once. -/
theorem finite_mul_tenPow (m : Magnitude) {n : Nat} (h : n ≤ 22) :
    finite false m * tenPow n = ofQuotient false (10 ^ n * m.units) 1 :=
  finite_mul_ofNat false m (isDouble_ten_pow h)

/-- A quotient by a power of ten that is a double is rounded once. -/
theorem finite_div_tenPow (m : Magnitude) {n : Nat} (h : n ≤ 22) :
    finite false m / tenPow n = ofQuotient false m.units (10 ^ n) :=
  finite_div_ofNat false m (Nat.pow_pos (by decide)) (isDouble_ten_pow h)

end Binary64

namespace Decimal

/-- Scaling leads to the nearest magnitude when the coefficient and the power of ten are doubles. -/
theorem scaled?_eq_nearest? {d : Decimal} (hcoefficient : d.coefficient ≤ 2 ^ (53 : Nat))
    (hexponent : d.exponent.natAbs ≤ 22) : d.scaled? = d.nearest? := by
  have hc := Binary64.isDouble_mul_unitsPerOne hcoefficient
  rw [scaled?, Binary64.ofNat_eq_finite hc, Binary64.scaleTen]
  by_cases hzero : d.coefficient = 0
  · have hisZero : Binary64.isZero (.finite false ⟨d.coefficient * unitsPerOne, hc⟩) := by
      simp [Binary64.isZero, hzero]
    rw [if_pos hisZero, nearest?_of_coefficient_eq_zero hzero, Binary64.magnitude?]
    exact congrArg some (Magnitude.ext (by simp [hzero, Magnitude.units_zero]))
  · have hisZero : ¬ Binary64.isZero (.finite false ⟨d.coefficient * unitsPerOne, hc⟩) := by
      simp [Binary64.isZero, hzero, unitsPerOne_pos.ne']
    have hmax : ¬ (maxTenPower : Int) < d.exponent := by
      unfold maxTenPower
      omega
    rw [if_neg hisZero, if_neg hmax, nearest?_eq_nearest?_quotient, quotient]
    split
    · next hsign =>
      have hnone : (-d.exponent).toNat = 0 := by omega
      rw [Binary64.finite_mul_tenPow _ (by omega), Binary64.magnitude?_ofQuotient, hnone,
        Nat.pow_zero, Nat.mul_left_comm, Nat.mul_assoc]
    · next hsign =>
      have hmin : -(maxTenPower : Int) ≤ d.exponent := by
        unfold maxTenPower
        omega
      have hnone : d.exponent.toNat = 0 := by omega
      rw [if_pos hmin, Binary64.finite_div_tenPow _ (by omega), Binary64.magnitude?_ofQuotient,
        hnone, Nat.pow_zero, Nat.mul_one]

/-- Digits do not make a coefficient smaller. -/
theorem le_ofDigitChars (coefficient : Nat) (cs : List Char) :
    coefficient ≤ Nat.ofDigitChars 10 cs coefficient := by
  rw [Nat.ofDigitChars_eq_ofDigitChars_zero]
  exact Nat.le_trans (Nat.le_mul_of_pos_left _ (Nat.pow_pos (by decide))) (Nat.le_add_right _ _)

/-- Digits that fit in 64 bits are all kept. -/
theorem appendFitting_of_lt {coefficient : Nat} {cs : List Char}
    (h : Nat.ofDigitChars 10 cs coefficient < 2 ^ (64 : Nat)) :
    appendFitting coefficient cs = (Nat.ofDigitChars 10 cs coefficient, 0) := by
  induction cs generalizing coefficient with
  | nil => rfl
  | cons c rest ih =>
    have hcons : Nat.ofDigitChars 10 (c :: rest) coefficient =
        Nat.ofDigitChars 10 rest (Nat.ofDigitChars 10 [c] coefficient) := by
      rw [← Nat.ofDigitChars_append, List.singleton_append]
    rw [hcons] at h ⊢
    have hnext : Nat.ofDigitChars 10 [c] coefficient < 2 ^ (64 : Nat) :=
      Nat.lt_of_le_of_lt (le_ofDigitChars _ rest) h
    rw [appendFitting, if_pos hnext, ih h]

end Decimal

namespace Json

/-- Numbers whose digits are within the bounds are converted to the nearest magnitude by scaling. -/
theorem Numeral.scaled?_eq_nearest? {n : Numeral}
    (hcoefficient : n.decimal.coefficient ≤ 2 ^ (53 : Nat))
    (hexponent : n.decimal.exponent.natAbs ≤ 22) : n.scaled? = n.nearest? := by
  have hfits :
      Nat.ofDigitChars 10 n.fraction (Nat.ofDigitChars 10 n.whole 0) < 2 ^ (64 : Nat) := by
    rw [← Nat.ofDigitChars_append]
    exact Nat.lt_of_le_of_lt hcoefficient (by decide)
  have hdecimal : Decimal.ofFittingDigits n.whole n.fraction n.exponent = n.decimal := by
    rw [Decimal.ofFittingDigits, Decimal.appendFitting_of_lt
      (Nat.lt_of_le_of_lt (Decimal.le_ofDigitChars _ n.fraction) hfits)]
    dsimp only
    rw [Decimal.appendFitting_of_lt hfits, ← Nat.ofDigitChars_append]
    simp [decimal, digitsValue]
  rw [scaled?, hdecimal, nearest?, Decimal.scaled?_eq_nearest? hcoefficient hexponent]

example : Numeral.scaled? ⟨['3'], [], 25⟩ ≠ Numeral.nearest? ⟨['3'], [], 25⟩ := by decide +kernel

/-- Scaling reads back what is written for a number when its digits are within the bounds. -/
theorem readsBack_scaled {negative : Bool} {m : Magnitude} {n : Numeral}
    (h : NumeralText (Decimal.shortest .even m).jsonChars n)
    (hcoefficient : n.decimal.coefficient ≤ 2 ^ (53 : Nat))
    (hexponent : n.decimal.exponent.natAbs ≤ 22) :
    ReadsBack Numeral.scaled? (.finite negative m) := by
  obtain ⟨n', h', hnearest⟩ := exists_numeralText_shortest m
  cases (h.readNumeral_append endsNumber_nil).symm.trans (h'.readNumeral_append endsNumber_nil)
  rw [ReadsBack, h.parseWith_number, Numeral.scaled?_eq_nearest? hcoefficient hexponent, hnearest,
    Option.elim_some]

/-- Scaling reads back a whole number of few digits. -/
theorem readsBack_scaled_whole {negative : Bool} {m : Magnitude} {whole : List Char}
    (h : (Decimal.shortest .even m).jsonChars = whole ++ ['.', '0']) (isWhole : IsWhole whole)
    (hbound : digitsValue (whole ++ ['0']) ≤ 2 ^ (53 : Nat)) :
    ReadsBack Numeral.scaled? (.finite negative m) := by
  have htext : NumeralText (Decimal.shortest .even m).jsonChars ⟨whole, ['0'], 0⟩ := by
    have hdigit : ∀ c ∈ ['0'], c.isDigit = true := List.forall_mem_singleton.mpr rfl
    rw [h]
    exact .pointed isWhole (List.cons_ne_nil _ _) hdigit .absent
  exact readsBack_scaled htext hbound (by simp [Numeral.decimal])

end Json

end PocketCalc
