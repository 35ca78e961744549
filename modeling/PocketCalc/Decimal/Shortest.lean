import PocketCalc.Decimal.Basic

/-!
# The shortest decimal of a magnitude

`Decimal.shortest` gives the decimal with the fewest digits that reads back as a magnitude, and of
several with that many digits the one nearest to it. On a grid of decimals with a given number of
digits only the two neighbours of the value can be nearest, so these are tried, the nearer one
first, with one digit, two digits and so on. Which of two equally near neighbours comes first is a
`TieRule`. The result always reads back (`nearest?_shortest`).
-/

namespace PocketCalc

-- Powers of natural numbers are the core library's here, whatever else is imported.
attribute [local instance (high)] instPowNat

/-- Which of two neighbours on a decimal grid is preferred when the value is half-way between. -/
inductive TieRule where
  | up
  | even
deriving DecidableEq, Repr

namespace Magnitude

/-- The power of ten of the first significant digit of a nonzero magnitude: the digits before the
point are counted, after a shift that brings the first digit of a fraction there. -/
def decimalOrder (m : Magnitude) : Int :=
  let shift : Nat := if unitsPerOne ≤ m.units then 0 else 400
  (m.units * 10 ^ shift / unitsPerOne).repr.length - 1 - shift

end Magnitude

namespace Decimal

/-- The two multiples of `10 ^ exponent` around a magnitude, the preferred one first. -/
def neighbours (tie : TieRule) (m : Magnitude) (exponent : Int) : List Decimal :=
  let num := m.units * 10 ^ (-exponent).toNat
  let den := unitsPerOne * 10 ^ exponent.toNat
  let below := num / den
  let twice := 2 * (num % den)
  let belowFirst := match tie with
    | .up => decide (twice < den)
    | .even => decide (twice < den ∨ (twice = den ∧ below % 2 = 0))
  if belowFirst then [⟨below, exponent⟩, ⟨below + 1, exponent⟩]
  else [⟨below + 1, exponent⟩, ⟨below, exponent⟩]

/-- The preferred neighbour of the given exponent that reads back, if one does. -/
def neighbour? (tie : TieRule) (m : Magnitude) (exponent : Int) : Option Decimal :=
  ((neighbours tie m exponent).map stripZeros).find? fun d ↦ d.nearest? = some m

/-- The exponents of the decimals with one significant digit, two digits and so on up to seventeen,
given the power of ten of the first digit. -/
def shortestExponents (order : Int) : List Int :=
  (List.range 17).map fun (i : Nat) ↦ order - i

/-- The fewest digits that read back as the magnitude, the nearest such decimal winning; zero is
written with the digit zero. -/
def shortest (tie : TieRule) (m : Magnitude) : Decimal :=
  if m.units = 0 then ⟨0, 0⟩
  else ((shortestExponents m.decimalOrder).findSome? (neighbour? tie m)).getD (ofMagnitude m)

/-- A decimal chosen among the neighbours reads back. -/
theorem nearest?_of_neighbour? {tie : TieRule} {m : Magnitude} {exponent : Int} {d : Decimal}
    (h : neighbour? tie m exponent = some d) : d.nearest? = some m := by
  simpa using List.find?_some h

/-- The shortest decimal of a magnitude reads back as the magnitude. -/
theorem nearest?_shortest (tie : TieRule) (m : Magnitude) :
    (shortest tie m).nearest? = some m := by
  unfold shortest
  split
  · next hz => rw [nearest?_of_coefficient_eq_zero rfl, Magnitude.units_eq_zero_iff.mp hz]
  · cases h : (shortestExponents m.decimalOrder).findSome? (neighbour? tie m) with
    | none => exact nearest?_ofMagnitude m
    | some d =>
      obtain ⟨_, _, hd⟩ := List.exists_of_findSome?_eq_some h
      exact nearest?_of_neighbour? hd

/-- The shortest decimal of a finite number reads back as the number. -/
theorem toBinary64_shortest (tie : TieRule) (negative : Bool) (m : Magnitude) :
    (shortest tie m).toBinary64 negative = .finite negative m := by
  rw [toBinary64, nearest?_shortest, Binary64.ofMagnitude?]

end Decimal

end PocketCalc
