import PocketCalc.Binary64.Basic

/-!
# Rounding an exact quotient to a double

Every operation and every decimal text is computed exactly, as a quotient of natural numbers of
units, and rounded once by `Magnitude.nearest?`: to the nearest double, the half-way quotient to the
neighbour with an even last bit, and to nothing, which stands for an infinity, from the half-way
point past the largest double on.
-/

namespace PocketCalc

-- Powers of natural numbers are the core library's here, whatever else is imported.
attribute [local instance (high)] instPowNat

/-- The whole number nearest to a quotient; of two equally near, the even one. -/
def divNearestEven (num den : Nat) : Nat :=
  let quotient := num / den
  let twice := 2 * (num % den)
  if twice < den ∨ (twice = den ∧ quotient % 2 = 0) then quotient else quotient + 1

/-- The nearest whole number is the quotient rounded down or the next one. -/
theorem divNearestEven_eq_or (num den : Nat) :
    divNearestEven num den = num / den ∨ divNearestEven num den = num / den + 1 := by
  unfold divNearestEven
  dsimp only
  split <;> simp

/-- A whole quotient is its own nearest whole number. -/
theorem divNearestEven_mul (n : Nat) {den : Nat} (h : 0 < den) :
    divNearestEven (n * den) den = n := by
  simp [divNearestEven, Nat.mul_div_cancel n h, h]

/-- The multiple of the spacing around a quotient that is nearest to it, with ties to even. -/
def roundUnits (num den : Nat) : Nat :=
  let step := ulp (num / den)
  divNearestEven num (den * step) * step

/-- Counted in spacings, a number has at most 53 bits. -/
theorem div_ulp_lt (n : Nat) : n / ulp n < 2 ^ (53 : Nat) := by
  refine Nat.div_lt_of_lt_mul ?_
  unfold ulp
  rw [← Nat.pow_add]
  exact Nat.lt_of_lt_of_le Nat.lt_log2_self (Nat.pow_le_pow_right (by decide) (by omega))

/-- Counted in spacings, a rounded quotient has at most 53 bits, or is the next power of two. -/
theorem divNearestEven_ulp_le (num den : Nat) :
    divNearestEven num (den * ulp (num / den)) ≤ 2 ^ (53 : Nat) := by
  have h := div_ulp_lt (num / den)
  rw [Nat.div_div_eq_div_mul] at h
  rcases divNearestEven_eq_or num (den * ulp (num / den)) with e | e <;> omega

/-- Multiples of a power of two by less than `2^53` are spaced by at most that power. -/
theorem ulp_mul_two_pow_dvd_two_pow {q : Nat} (h : q < 2 ^ (53 : Nat)) (e : Nat) :
    ulp (q * 2 ^ e) ∣ 2 ^ e := by
  refine ulp_dvd_two_pow ?_
  rw [Nat.pow_add]
  exact Nat.mul_lt_mul_of_pos_right h (Nat.two_pow_pos e)

/-- A multiple of a power of two by at most `2^53` has at most 53 significant bits. -/
theorem ulp_mul_two_pow_dvd {q : Nat} (h : q ≤ 2 ^ (53 : Nat)) (e : Nat) :
    ulp (q * 2 ^ e) ∣ q * 2 ^ e := by
  rcases Nat.lt_or_eq_of_le h with hlt | rfl
  · exact Nat.dvd_trans (ulp_mul_two_pow_dvd_two_pow hlt e) (Nat.dvd_mul_left _ _)
  · unfold ulp
    rw [← Nat.pow_add, Nat.log2_two_pow]
    exact Nat.pow_dvd_pow 2 (by omega)

/-- A multiple of a power of two by an even number has a clear last bit. -/
theorem two_mul_ulp_mul_two_pow_dvd {q : Nat} (h : q ≤ 2 ^ (53 : Nat)) (heven : q % 2 = 0)
    (e : Nat) : 2 * ulp (q * 2 ^ e) ∣ q * 2 ^ e := by
  rcases Nat.lt_or_eq_of_le h with hlt | rfl
  · exact Nat.mul_dvd_mul (Nat.dvd_of_mod_eq_zero heven) (ulp_mul_two_pow_dvd_two_pow hlt e)
  · unfold ulp
    rw [← Nat.pow_add, Nat.log2_two_pow, ← Nat.pow_succ']
    exact Nat.pow_dvd_pow 2 (by omega)

/-- A rounded number of units has at most 53 significant bits. -/
theorem ulp_roundUnits_dvd (num den : Nat) : ulp (roundUnits num den) ∣ roundUnits num den :=
  ulp_mul_two_pow_dvd (divNearestEven_ulp_le num den) _

/-- Rounding a whole number of units with at most 53 significant bits changes nothing. -/
theorem roundUnits_of_ulp_dvd {n : Nat} (h : ulp n ∣ n) {den : Nat} (hden : 0 < den) :
    roundUnits (n * den) den = n := by
  obtain ⟨k, hk⟩ := h
  have hpos : 0 < den * ulp n := Nat.mul_pos hden (ulp_pos n)
  have hmul : n * den = k * (den * ulp n) := by
    conv => lhs; rw [hk]
    rw [Nat.mul_comm (ulp n) k, Nat.mul_assoc, Nat.mul_comm (ulp n) den]
  unfold roundUnits
  dsimp only
  rw [Nat.mul_div_cancel n hden, hmul, divNearestEven_mul k hpos, Nat.mul_comm]
  exact hk.symm

namespace Magnitude

/-- The magnitude nearest to `num / den` units, or none when that is past the largest one. -/
def nearest? (num den : Nat) : Option Magnitude :=
  if h : roundUnits num den < overflowUnits then
    some ⟨roundUnits num den, h, ulp_roundUnits_dvd num den⟩
  else none

/-- A quotient that is exactly a magnitude rounds to it. -/
theorem nearest?_of_eq (m : Magnitude) {num den : Nat} (hden : 0 < den)
    (h : num = m.units * den) : nearest? num den = some m := by
  have hr : roundUnits num den = m.units := by
    rw [h, roundUnits_of_ulp_dvd m.isDouble.2 hden]
  unfold nearest?
  rw [dif_pos (by rw [hr]; exact m.isDouble.1)]
  exact congrArg some (ext hr)

/-- Overflow is decided on the rounded number of units. -/
theorem nearest?_eq_none_iff {num den : Nat} :
    nearest? num den = none ↔ overflowUnits ≤ roundUnits num den := by
  unfold nearest?
  split <;> simp <;> omega

/-- A nearest magnitude has the rounded number of units. -/
theorem units_of_nearest?_eq_some {num den : Nat} {m : Magnitude}
    (h : nearest? num den = some m) : m.units = roundUnits num den := by
  unfold nearest? at h
  split at h
  · cases h
    rfl
  · cases h

end Magnitude

namespace Binary64

/-- A rounded magnitude with its sign; past the largest magnitude comes the infinity. -/
def ofMagnitude? (negative : Bool) : Option Magnitude → Binary64
  | some magnitude => finite negative magnitude
  | none => infinite negative

/-- The double nearest to `num / den` units with the given sign. -/
def ofQuotient (negative : Bool) (num den : Nat) : Binary64 :=
  ofMagnitude? negative (Magnitude.nearest? num den)

/-- The double nearest to the fraction `num / den` with the given sign. -/
def ofFraction (negative : Bool) (num den : Nat) : Binary64 :=
  ofQuotient negative (num * unitsPerOne) den

/-- The double nearest to a natural number. -/
def ofNat (n : Nat) : Binary64 := ofFraction false n 1

/-- A quotient that is exactly a magnitude rounds to it. -/
theorem ofQuotient_of_eq (negative : Bool) (m : Magnitude) {num den : Nat} (hden : 0 < den)
    (h : num = m.units * den) : ofQuotient negative num den = finite negative m := by
  rw [ofQuotient, Magnitude.nearest?_of_eq m hden h, ofMagnitude?]

/-- Rounding zero gives zero. -/
theorem ofQuotient_zero (negative : Bool) {den : Nat} (hden : 0 < den) :
    ofQuotient negative 0 den = zero negative :=
  ofQuotient_of_eq negative .zero hden (by simp [Magnitude.units_zero])

end Binary64

end PocketCalc
