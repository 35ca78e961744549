import PocketCalc.Binary64.Arithmetic
import PocketCalc.Decimal.Numeral

/-!
# Reading decimals by scaling

Scaling reads a decimal with double arithmetic alone: of the digits only as many are kept as fit in
64 bits, the whole number they write is rounded to a double, and this is multiplied or divided by a
power of ten that is itself rounded to a double. Each of these steps rounds, so the result may lie a
little beside the double nearest to the number (`Decimal.nearest?`). A negative power of ten beyond
`10 ^ -308` is reached in several divisions.
-/

namespace PocketCalc

-- Powers of natural numbers are the core library's here, whatever else is imported.
attribute [local instance (high)] instPowNat

/-- The greatest power of ten below overflow. -/
def maxTenPower : Nat := 308

namespace Binary64

/-- The double nearest to a power of ten. -/
def tenPow (n : Nat) : Binary64 := ofNat (10 ^ n)

/-- Whether the number is one of the zeros. -/
def isZero : Binary64 → Bool
  | finite _ m => m.units == 0
  | _ => false

/-- The number multiplied by a power of ten, or divided by one for each step down to a negative
exponent; zero stays zero, and any other number overflows beyond the greatest power of ten. -/
def scaleTen (x : Binary64) (exponent : Int) : Binary64 :=
  if x.isZero then x
  else if maxTenPower < exponent then infinite false
  else if 0 ≤ exponent then x * tenPow exponent.toNat
  else if -maxTenPower ≤ exponent then x / tenPow (-exponent).toNat
  else scaleTen (x / tenPow maxTenPower) (exponent + maxTenPower)
termination_by (-exponent).toNat
decreasing_by
  unfold maxTenPower at *
  omega

/-- The magnitude of a finite number. -/
def magnitude? : Binary64 → Option Magnitude
  | finite _ m => some m
  | _ => none

end Binary64

namespace Decimal

/-- A coefficient extended by digits as long as it fits in 64 bits, and the number of digits that
are left over. -/
def appendFitting (coefficient : Nat) : List Char → Nat × Nat
  | [] => (coefficient, 0)
  | c :: rest =>
    let next := Nat.ofDigitChars 10 [c] coefficient
    if next < 2 ^ (64 : Nat) then appendFitting next rest else (coefficient, rest.length + 1)

/-- The decimal of the digits before and after the point and an exponent, with a coefficient of 64
bits: digits left over before the point raise the exponent, those after the point are dropped. -/
def ofFittingDigits (whole fraction : List Char) (exponent : Int) : Decimal :=
  let (coefficient, raised) := appendFitting 0 whole
  let (coefficient, dropped) := appendFitting coefficient fraction
  ⟨coefficient, exponent + raised - (fraction.length - dropped : Nat)⟩

/-- The magnitude that scaling the rounded coefficient gives, or none when it overflows. -/
def scaled? (d : Decimal) : Option Magnitude :=
  ((Binary64.ofNat d.coefficient).scaleTen d.exponent).magnitude?

end Decimal

/-- An extended coefficient fits in 64 bits if the first one does. -/
theorem Decimal.appendFitting_lt {coefficient : Nat} (h : coefficient < 2 ^ (64 : Nat))
    (cs : List Char) : (appendFitting coefficient cs).1 < 2 ^ (64 : Nat) := by
  induction cs generalizing coefficient with
  | nil => exact h
  | cons c rest ih =>
    unfold appendFitting
    dsimp only
    split
    · next hn => exact ih hn
    · exact h

/-- At most all digits are left over. -/
theorem Decimal.appendFitting_snd_le (coefficient : Nat) (cs : List Char) :
    (appendFitting coefficient cs).2 ≤ cs.length := by
  induction cs generalizing coefficient with
  | nil => exact Nat.le_refl 0
  | cons c rest ih =>
    unfold appendFitting
    dsimp only
    split
    · exact Nat.le_succ_of_le (ih _)
    · exact Nat.le_refl _

end PocketCalc
