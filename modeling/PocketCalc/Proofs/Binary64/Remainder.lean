import PocketCalc.Arithmetic
import PocketCalc.Proofs.Binary64.Nearest
import PocketCalc.Proofs.Evaluation.Run

/-!
# Exact remainders

The remainder of two finite numbers is a whole number of units that are counted in spacings of one
of the two, so it is a double and nothing is rounded, however far the two are apart
(`Magnitude.isDouble_mod`, `Binary64.finite_mod_finite`). `Binary64.remainder_exact` says of every
pair of doubles what the percent sign computes under the remainder policy.
-/

namespace PocketCalc

namespace Magnitude

/-- The number that a magnitude is with a sign. -/
def signedValue (negative : Bool) (m : Magnitude) : ℚ := signedInt negative m.units / unitsPerOne

/-- The sign does not change the absolute value. -/
theorem abs_signedValue (negative : Bool) (m : Magnitude) : |m.signedValue negative| = m.value := by
  have habs : |((signedInt negative m.units : Int) : ℚ)| = m.units := by
    rw [← Int.cast_abs, Int.abs_eq_natAbs, natAbs_signedInt, Int.cast_natCast]
  rw [signedValue, value, abs_div, habs, abs_of_pos cast_unitsPerOne_pos]

/-- The remainder of two magnitudes is one: it is a multiple of the spacing of the smaller one. -/
theorem isDouble_mod (a b : Magnitude) : IsDouble (a.units % b.units) := by
  refine ⟨Nat.lt_of_le_of_lt (Nat.mod_le _ _) a.isDouble.1, ?_⟩
  rcases Nat.lt_or_ge a.units b.units with hlt | hge
  · rw [Nat.mod_eq_of_lt hlt]
    exact a.isDouble.2
  · have hspacing : ulp b.units ∣ a.units := Nat.dvd_trans (ulp_dvd_ulp hge) a.isDouble.2
    have hmod : ulp b.units ∣ a.units % b.units := (Nat.dvd_mod_iff b.isDouble.2).mpr hspacing
    rcases Nat.eq_zero_or_pos b.units with hzero | hpos
    · rw [hzero, Nat.mod_zero]
      exact a.isDouble.2
    · exact Nat.dvd_trans (ulp_dvd_ulp (Nat.mod_lt _ hpos).le) hmod

/-- The remainder of two magnitudes. -/
def mod (a b : Magnitude) : Magnitude := ⟨a.units % b.units, isDouble_mod a b⟩

/-- A remainder is smaller than the divisor. -/
theorem value_mod_lt (a : Magnitude) {b : Magnitude} (h : b ≠ zero) : (a.mod b).value < b.value :=
  value_lt_value (Nat.mod_lt _ (Nat.pos_of_ne_zero (units_eq_zero_iff.not.mpr h)))

/-- A number is a whole multiple of the divisor and the remainder, whatever the signs are. -/
theorem exists_signedValue_eq (negative negative' : Bool) (a b : Magnitude) :
    ∃ q : ℤ, a.signedValue negative =
      q * b.signedValue negative' + (a.mod b).signedValue negative := by
  obtain ⟨k, hk⟩ : ∃ k : Nat, a.units = k * b.units + (a.mod b).units :=
    ⟨a.units / b.units, (Nat.div_add_mod' a.units b.units).symm⟩
  have hsigned : signedInt negative a.units = signedInt (negative ^^ negative') k *
      signedInt negative' b.units + signedInt negative (a.mod b).units := by
    rw [hk]
    cases negative <;> cases negative' <;> simp <;> ring
  refine ⟨signedInt (negative ^^ negative') k, ?_⟩
  rw [signedValue, signedValue, signedValue, mul_div_assoc', ← add_div, hsigned]
  push_cast
  rfl

end Magnitude

namespace Binary64

/-- The remainder of finite numbers is not rounded and has the sign of the left one. -/
theorem finite_mod_finite (negative negative' : Bool) (a : Magnitude) {b : Magnitude}
    (h : b ≠ .zero) :
    finite negative a % finite negative' b = finite negative (a.mod b) := by
  have hunits : b.units ≠ 0 := Magnitude.units_eq_zero_iff.not.mpr h
  change rem (finite negative a) (finite negative' b) = _
  rw [rem, if_neg hunits]
  exact ofQuotient_of_eq negative (a.mod b) Nat.one_pos (Nat.mul_one _).symm

/-- Not-a-number has no remainder on either side. -/
theorem mod_nan (x : Binary64) : nan % x = nan ∧ x % nan = nan :=
  ⟨rfl, by cases x <;> rfl⟩

/-- Under the remainder policy the percent sign computes the exact remainder. For finite numbers,
the right one not zero, it is a finite number of the sign of the left one, smaller than the right
one and a whole multiple of the right one away from the left one. An infinity on the right leaves a
finite number as it is; with an infinity on the left, a zero on the right or not-a-number on either
side the result is not a number. -/
theorem remainder_exact :
    (∀ x y, evaluate (.ofSettings .remainder true) [.number x, .number y, .operator .percent] =
      .ok (OperatorSymbol.percent.apply x y)) ∧
    (∀ negative negative' (a b : Magnitude), b ≠ .zero → ∃ (r : Magnitude) (q : ℤ),
      OperatorSymbol.percent.apply (finite negative a) (finite negative' b) = finite negative r ∧
      a.signedValue negative = q * b.signedValue negative' + r.signedValue negative ∧
      |r.signedValue negative| < |b.signedValue negative'|) ∧
    (∀ negative negative' a, OperatorSymbol.percent.apply (finite negative a) (infinite negative') =
      finite negative a) ∧
    (∀ negative x, OperatorSymbol.percent.apply (infinite negative) x = nan) ∧
    (∀ negative x, OperatorSymbol.percent.apply x (zero negative) = nan) ∧
    ∀ x, OperatorSymbol.percent.apply nan x = nan ∧ OperatorSymbol.percent.apply x nan = nan := by
  refine ⟨fun x y ↦ ?_, fun negative negative' a b hb ↦ ?_, fun _ _ _ ↦ rfl, fun negative x ↦ ?_,
    fun negative x ↦ ?_, mod_nan⟩
  · have hrun : Evaluation.run .remainder .empty none
        ([.number x] ++ ([.number y] ++ [.operator .percent])) =
          .ok (Stack.empty.push (OperatorSymbol.percent.apply x y)) :=
      Evaluation.run_operands_operator (PercentPolicy.isBinary_remainder .percent) rfl rfl
    exact Evaluation.evaluate_ofSettings_of_run true hrun
  · obtain ⟨q, hq⟩ := Magnitude.exists_signedValue_eq negative negative' a b
    refine ⟨a.mod b, q, finite_mod_finite negative negative' a hb, hq, ?_⟩
    rw [Magnitude.abs_signedValue, Magnitude.abs_signedValue]
    exact a.value_mod_lt hb
  · cases x <;> rfl
  · cases x <;> rfl

/-- The largest double, negative, has an exact remainder by three times the least one. -/
theorem remainder_exact_extremes :
    let largest : Magnitude := ⟨maxUnits, isDouble_maxUnits⟩
    let three : Magnitude := ⟨3, by decide +kernel⟩
    three ≠ .zero ∧ ∃ (r : Magnitude) (q : ℤ),
      OperatorSymbol.percent.apply (finite true largest) (finite false three) = finite true r ∧
      largest.signedValue true = q * three.signedValue false + r.signedValue true ∧
      |r.signedValue true| < |three.signedValue false| := by
  intro largest three
  have hthree : three ≠ .zero := fun h ↦ by
    have hunits := congrArg Magnitude.units h
    rw [Magnitude.units_zero] at hunits
    exact absurd hunits (by decide)
  obtain ⟨-, hfinite, -⟩ := remainder_exact
  exact ⟨hthree, hfinite true false largest three hthree⟩

end Binary64

end PocketCalc
