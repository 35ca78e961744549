import PocketCalc.Binary64.Round

/-!
# Decimal numbers

A `Decimal` is a coefficient and a power of ten. `Decimal.nearest?` reads it as a double, correctly
rounded: the exponents that decide the answer by themselves are settled first, so that no power of
ten is computed for them, and all others are rounded as exact quotients.
-/

namespace PocketCalc

-- Powers of natural numbers are the core library's here, whatever else is imported.
attribute [local instance (high)] instPowNat

/-- The number `coefficient · 10 ^ exponent`. -/
structure Decimal where
  coefficient : Nat
  exponent : Int
deriving DecidableEq, Repr

namespace Decimal

/-- The same number with no zero at the end of the coefficient; zero itself stays as it is. -/
def stripZeros (d : Decimal) : Decimal :=
  if d.coefficient ≠ 0 ∧ d.coefficient % 10 = 0 then
    stripZeros ⟨d.coefficient / 10, d.exponent + 1⟩
  else d
termination_by d.coefficient
decreasing_by omega

/-- The value as an exact quotient of two natural numbers of units. -/
def quotient (d : Decimal) : Nat × Nat :=
  (d.coefficient * 10 ^ d.exponent.toNat * unitsPerOne, 10 ^ (-d.exponent).toNat)

/-- Too small to round to anything but zero: below `10 ^ -324`, the coefficient being less than ten
to the number of its bits. -/
def Vanishes (d : Decimal) : Prop :=
  d.coefficient = 0 ∨ d.exponent + d.coefficient.log2 < -324

/-- Too large to round to anything but an infinity: at least `10 ^ 310`. -/
def Overflows (d : Decimal) : Prop := 310 ≤ d.exponent

/-- Vanishing is decided on the coefficient and the exponent. -/
instance (d : Decimal) : Decidable d.Vanishes := inferInstanceAs (Decidable (_ ∨ _))

/-- Overflow by the exponent is decided by one comparison. -/
instance (d : Decimal) : Decidable d.Overflows := inferInstanceAs (Decidable (_ ≤ _))

/-- The magnitude nearest to the number, or none when that is past the largest one. -/
def nearest? (d : Decimal) : Option Magnitude :=
  if d.Vanishes then some .zero
  else if d.Overflows then none
  else Magnitude.nearest? d.quotient.1 d.quotient.2

/-- The double nearest to the number with the given sign. -/
def toBinary64 (negative : Bool) (d : Decimal) : Binary64 :=
  .ofMagnitude? negative d.nearest?

/-- A unit is this many times `10 ^ -1074`. -/
def unitCoefficient : Nat := 5 ^ unitPlaces

/-- The decimal that is exactly a magnitude. -/
def ofMagnitude (m : Magnitude) : Decimal := ⟨m.units * unitCoefficient, -unitPlaces⟩

/-- A denominator is never zero. -/
theorem quotient_snd_pos (d : Decimal) : 0 < d.quotient.2 := Nat.pow_pos (by decide)

/-- A number without fraction digits has the denominator one. -/
theorem quotient_natCast (c n : Nat) : quotient ⟨c, n⟩ = (c * 10 ^ n * unitsPerOne, 1) := by
  simp [quotient]

/-- The denominator holds one ten for each fraction digit. -/
theorem quotient_neg_natCast (c n : Nat) : quotient ⟨c, -n⟩ = (c * unitsPerOne, 10 ^ n) := by
  simp [quotient]

/-- A number with a zero coefficient rounds to zero. -/
theorem nearest?_of_coefficient_eq_zero {d : Decimal} (h : d.coefficient = 0) :
    d.nearest? = some .zero := if_pos (Or.inl h)

/-- Between the two bounds on the exponent the exact quotient is rounded. -/
theorem nearest?_eq_quotient {d : Decimal} (hv : ¬ d.Vanishes) (ho : ¬ d.Overflows) :
    d.nearest? = Magnitude.nearest? d.quotient.1 d.quotient.2 := by
  rw [nearest?, if_neg hv, if_neg ho]

private theorem five_pow_mul_two_pow (n : Nat) : 5 ^ n * 2 ^ n = 10 ^ n := (Nat.mul_pow 5 2 n).symm

private theorem unitCoefficient_mul_unitsPerOne :
    unitCoefficient * unitsPerOne = 10 ^ unitPlaces := by
  unfold unitCoefficient unitsPerOne
  exact five_pow_mul_two_pow unitPlaces

private theorem unitCoefficient_pos : 0 < unitCoefficient := Nat.pow_pos (by decide)

private theorem le_log2_unitCoefficient : 2000 ≤ unitCoefficient.log2 := by decide +kernel

private theorem le_log2_mul_unitCoefficient {n : Nat} (h : n ≠ 0) :
    2000 ≤ (n * unitCoefficient).log2 := by
  have hc : unitCoefficient ≠ 0 := Nat.ne_of_gt unitCoefficient_pos
  refine Nat.le_trans le_log2_unitCoefficient ((Nat.le_log2 (Nat.mul_ne_zero h hc)).mpr ?_)
  exact Nat.le_trans (Nat.log2_self_le hc) (Nat.le_mul_of_pos_left _ (Nat.pos_of_ne_zero h))

/-- The exact decimal of a magnitude reads back as the magnitude. -/
theorem nearest?_ofMagnitude (m : Magnitude) : (ofMagnitude m).nearest? = some m := by
  by_cases hz : m.units = 0
  · rw [Magnitude.units_eq_zero_iff.mp hz]
    exact nearest?_of_coefficient_eq_zero (by simp [ofMagnitude, Magnitude.units_zero])
  · have hne := Nat.mul_ne_zero hz (Nat.ne_of_gt unitCoefficient_pos)
    have hlog := le_log2_mul_unitCoefficient hz
    have hv : ¬ (ofMagnitude m).Vanishes := by
      simp only [Vanishes, ofMagnitude, unitPlaces]
      omega
    have ho : ¬ (ofMagnitude m).Overflows := by
      simp only [Overflows, ofMagnitude]
      omega
    rw [nearest?_eq_quotient hv ho, ofMagnitude, quotient_neg_natCast]
    refine Magnitude.nearest?_of_eq m (Nat.pow_pos (by decide)) ?_
    rw [Nat.mul_assoc, unitCoefficient_mul_unitsPerOne]

end Decimal

end PocketCalc
