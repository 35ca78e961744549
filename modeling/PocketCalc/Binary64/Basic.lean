/-!
# Double-precision numbers

A finite number is a sign and a whole number of *units*. A unit is `2^-1074`, the least positive
double, so every finite double is exactly representable and nothing about its value is lost.
`IsDouble` says which numbers of units have at most 53 significant bits and stay below overflow.
There is one not-a-number, and the two zeros are different numbers.
-/

namespace PocketCalc

-- Powers of natural numbers are the core library's here, whatever else is imported.
attribute [local instance (high)] instPowNat

/-- A unit has this many binary places, and as many decimal ones. -/
def unitPlaces : Nat := 1074

/-- The number of units in the number one. -/
def unitsPerOne : Nat := 2 ^ unitPlaces

/-- The least power of two, in units, that is too large for a double. -/
def overflowUnits : Nat := 2 ^ (2098 : Nat)

/-- The distance, in units, between neighbouring doubles of the size of `n` units. -/
def ulp (n : Nat) : Nat := 2 ^ (n.log2 - 52)

/-- A number of units is a double when it does not overflow and has at most 53 significant bits. -/
def IsDouble (n : Nat) : Prop := n < overflowUnits ∧ ulp n ∣ n

/-- Being a double is decided by one comparison and one division. -/
instance (n : Nat) : Decidable (IsDouble n) := inferInstanceAs (Decidable (_ ∧ _))

/-- Neighbouring doubles are at least one unit apart. -/
theorem ulp_pos (n : Nat) : 0 < ulp n := Nat.two_pow_pos _

/-- Larger numbers are spaced at least as widely, by a multiple of the smaller spacing. -/
theorem ulp_dvd_ulp {m n : Nat} (h : m ≤ n) : ulp m ∣ ulp n := by
  refine Nat.pow_dvd_pow 2 (Nat.sub_le_sub_right ?_ 52)
  by_cases hm : m = 0
  · simp [hm]
  · have hn : n ≠ 0 := by omega
    exact (Nat.le_log2 hn).mpr (Nat.le_trans (Nat.log2_self_le hm) h)

/-- Below `2^(53 + e)` the spacing divides `2^e`. -/
theorem ulp_dvd_two_pow {n e : Nat} (h : n < 2 ^ (53 + e)) : ulp n ∣ 2 ^ e := by
  refine Nat.pow_dvd_pow 2 ?_
  by_cases hn : n = 0
  · simp [hn]
  · have := (Nat.log2_lt hn).mpr h
    omega

/-- The size of a finite double, in units. -/
structure Magnitude where
  units : Nat
  isDouble : IsDouble units
deriving DecidableEq, Repr

namespace Magnitude

/-- Magnitudes are equal when they have the same number of units. -/
theorem ext {a b : Magnitude} (h : a.units = b.units) : a = b := by
  cases a
  cases b
  cases h
  rfl

/-- A magnitude is its number of units. -/
theorem units_inj {a b : Magnitude} : a.units = b.units ↔ a = b :=
  ⟨ext, fun h ↦ congrArg units h⟩

/-- The magnitude of both zeros. -/
def zero : Magnitude := ⟨0, by decide +kernel⟩

/-- Zero has no units. -/
theorem units_zero : zero.units = 0 := rfl

/-- Only the magnitude zero has no units. -/
theorem units_eq_zero_iff {m : Magnitude} : m.units = 0 ↔ m = zero := units_inj (b := zero)

end Magnitude

/-- A double-precision number: not a number, an infinity, or a signed magnitude. -/
inductive Binary64 where
  | nan
  | infinite (negative : Bool)
  | finite (negative : Bool) (magnitude : Magnitude)
deriving DecidableEq, Repr

namespace Binary64

/-- The zero of the given sign. -/
def zero (negative : Bool) : Binary64 := finite negative .zero

/-- Neither an infinity nor not-a-number. -/
def isFinite : Binary64 → Bool
  | finite _ _ => true
  | _ => false

/-- The number with its sign turned round; not-a-number has no sign. -/
def neg : Binary64 → Binary64
  | nan => nan
  | infinite negative => infinite !negative
  | finite negative magnitude => finite (!negative) magnitude

/-- Negation of a double. -/
instance : Neg Binary64 where neg := neg

/-- Turning the sign round twice changes nothing. -/
theorem neg_neg (x : Binary64) : - -x = x := by
  cases x <;> simp [Neg.neg, neg]

end Binary64

/-- The integer with the given sign and absolute value. -/
def signedInt (negative : Bool) (n : Nat) : Int := if negative then -n else n

/-- A clear sign leaves the number as it is. -/
@[simp] theorem signedInt_false (n : Nat) : signedInt false n = n := rfl

/-- A set sign turns the number round. -/
@[simp] theorem signedInt_true (n : Nat) : signedInt true n = -n := rfl

/-- The sign does not change the absolute value. -/
theorem natAbs_signedInt (negative : Bool) (n : Nat) : (signedInt negative n).natAbs = n := by
  cases negative <;> simp

end PocketCalc
