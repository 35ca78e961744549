import PocketCalc.Proofs.Binary64.Display

/-!
# Numbers with two decimal places

A double nearest to a whole number of hundredths is shown as it is when it is not too large: its
hundredths come out with an error below one half, which the floor takes away
(`displayHundredths_eq_of_abs_sub_lt`). From `2 ^ 52` hundredths on there is no double between the
whole numbers, and adding one half makes odd hundredths even (`displayHundredths_of_le`). Main
result: `Binary64.roundForDisplay_hundredths`.
-/

namespace PocketCalc

-- Powers of natural numbers are the core library's here, whatever else is imported.
attribute [local instance (high)] instPowNat

-- The bounds are compared with each other by evaluation and otherwise kept closed.
attribute [local irreducible] unitsPerOne unitsPerHalf overflowUnits maxUnits overflowBound

/-- The number of units in one quarter. -/
def unitsPerQuarter : Nat := 2 ^ (unitPlaces - 2)

/-- Four quarters are one. -/
theorem four_mul_unitsPerQuarter : 4 * unitsPerQuarter = unitsPerOne := by
  unfold unitsPerQuarter
  rw [← two_pow_mul_two_pow_sub (by decide : 2 ≤ unitPlaces)]

/-- Two quarters are one half. -/
theorem two_mul_unitsPerQuarter : 2 * unitsPerQuarter = unitsPerHalf := by
  have hfour := four_mul_unitsPerQuarter
  have htwo := unitsPerHalf_add_self
  omega

/-- There are units in one quarter. -/
theorem unitsPerQuarter_pos : 0 < unitsPerQuarter := by
  unfold unitsPerQuarter
  exact Nat.two_pow_pos _

attribute [local irreducible] unitsPerQuarter

private theorem ulp_natAbs_mul_dvd {q : Int} (h : q.natAbs ≤ 2 ^ (53 : Nat)) {n e : Nat}
    (hn : n = 2 ^ e) : ulp (q * n).natAbs ∣ (q * n).natAbs := by
  rw [Int.natAbs_mul, Int.natAbs_natCast, hn]
  exact ulp_mul_two_pow_dvd h e

/-- Quarters of at most 53 bits are doubles. -/
theorem ulp_natAbs_mul_unitsPerQuarter_dvd {q : Int} (h : q.natAbs ≤ 2 ^ (53 : Nat)) :
    ulp (q * unitsPerQuarter).natAbs ∣ (q * unitsPerQuarter).natAbs :=
  ulp_natAbs_mul_dvd h (by unfold unitsPerQuarter; rfl)

/-- Halves of at most 53 bits are doubles. -/
theorem ulp_natAbs_mul_unitsPerHalf_dvd {q : Int} (h : q.natAbs ≤ 2 ^ (53 : Nat)) :
    ulp (q * unitsPerHalf).natAbs ∣ (q * unitsPerHalf).natAbs :=
  ulp_natAbs_mul_dvd h (by unfold unitsPerHalf; rfl)

/-- Signed whole numbers of at most 53 bits are doubles. -/
theorem ulp_natAbs_mul_unitsPerOne_dvd {q : Int} (h : q.natAbs ≤ 2 ^ (53 : Nat)) :
    ulp (q * unitsPerOne).natAbs ∣ (q * unitsPerOne).natAbs :=
  ulp_natAbs_mul_dvd h (by unfold unitsPerOne; rfl)

/-- Large doubles are whole numbers of halves. -/
theorem unitsPerHalf_dvd_of_le {n : Nat} (hn : ulp n ∣ n)
    (h : 2 ^ (52 : Nat) * unitsPerHalf ≤ n) : unitsPerHalf ∣ n := by
  unfold unitsPerHalf at h ⊢
  exact Nat.dvd_trans (two_pow_dvd_ulp (by rwa [Nat.pow_add])) hn

/-- Up to `2^45`, rounding hundredths to a double moves them by less than a quarter. -/
theorem abs_hundred_mul_roundRatio_sub_lt {k : Int} (h : k.natAbs ≤ 100 * 2 ^ (45 : Nat)) :
    |100 * roundRatio (k * unitsPerOne) 100 - k * unitsPerOne| < (unitsPerQuarter : Int) := by
  obtain ⟨e, he⟩ : ∃ e, e = unitPlaces - 8 := ⟨_, rfl⟩
  have hone : 2 ^ (8 : Nat) * 2 ^ e = unitsPerOne := by
    rw [he]
    exact two_pow_mul_two_pow_sub (by decide)
  have hpower : 2 ^ (53 + e) = 2 ^ (45 : Nat) * unitsPerOne := by
    rw [← hone, ← Nat.mul_assoc, ← Nat.pow_add, ← Nat.pow_add]
  have hquarter : 64 * 2 ^ e = unitsPerQuarter := by
    have hfour := four_mul_unitsPerQuarter
    omega
  have hle : (k * unitsPerOne).natAbs ≤ 2 ^ (53 + e) * 100 := by
    rw [Int.natAbs_mul, Int.natAbs_natCast, hpower, Nat.mul_right_comm, Nat.mul_comm _ 100]
    exact Nat.mul_le_mul_right _ h
  have hnear := abs_roundRatio_sub_le_two_pow (by decide : 0 < 100) hle
  have hpos : (0 : ℚ) < (2 ^ e : Nat) := by exact_mod_cast Nat.two_pow_pos e
  rw [Nat.cast_ofNat, abs_le] at hnear
  have hcast : |(100 * roundRatio (k * unitsPerOne) 100 - k * unitsPerOne : ℚ)| <
      (unitsPerQuarter : ℚ) := by
    rw [← hquarter, abs_lt]
    push_cast at hnear hpos ⊢
    constructor <;> linarith
  exact_mod_cast hcast

section Quarters

private theorem cast_unitsPerOne_eq : (unitsPerOne : Int) = 4 * unitsPerQuarter := by
  exact_mod_cast four_mul_unitsPerQuarter.symm

private theorem cast_unitsPerHalf_eq : (unitsPerHalf : Int) = 2 * unitsPerQuarter := by
  exact_mod_cast two_mul_unitsPerQuarter.symm

private theorem cast_unitsPerQuarter_pos : (0 : Int) < unitsPerQuarter := by
  exact_mod_cast unitsPerQuarter_pos

variable {n k : Int}

/-- A whole number of hundredths stays less than one half away when it is computed again. -/
theorem abs_roundRatio_hundred_mul_sub_lt (h : k.natAbs ≤ 2 ^ (53 : Nat))
    (hnear : |100 * n - k * unitsPerOne| < (unitsPerQuarter : Int)) :
    |roundRatio (100 * n) 1 - k * unitsPerOne| < (unitsPerHalf : Int) := by
  have hle := abs_roundRatio_sub_le (ulp_natAbs_mul_unitsPerOne_dvd h) (100 * n) Nat.one_pos
  rw [Nat.cast_one, div_one] at hle
  have hcast : |roundRatio (100 * n) 1 - 100 * n| ≤ |k * unitsPerOne - 100 * n| := by
    exact_mod_cast hle
  have htriangle := abs_sub_le (roundRatio (100 * n) 1) (100 * n) (k * unitsPerOne)
  rw [abs_sub_comm (k * (unitsPerOne : Int))] at hcast
  rw [cast_unitsPerHalf_eq]
  linarith

/-- Below `2^51` the hundredths are computed with quarters, so the sum stays three quarters above
the whole number. -/
private theorem roundRatio_sum_lt_of_quarters (hlow : -2 ^ 51 ≤ k) (hhigh : k < 2 ^ 51)
    (hnear : |100 * n - k * unitsPerOne| < (unitsPerQuarter : Int)) :
    roundRatio (roundRatio (100 * n) 1 + unitsPerHalf) 1 < (k + 1) * unitsPerOne := by
  have hpos := cast_unitsPerQuarter_pos
  have hupper := (abs_lt.mp hnear).2
  rw [cast_unitsPerOne_eq] at hupper ⊢
  have hproduct : roundRatio (100 * n) 1 ≤ (4 * k + 1) * unitsPerQuarter :=
    roundRatio_one_le (ulp_natAbs_mul_unitsPerQuarter_dvd (by omega)) (by linarith)
  have hsum : roundRatio (roundRatio (100 * n) 1 + unitsPerHalf) 1 ≤
      (4 * k + 3) * unitsPerQuarter := by
    refine roundRatio_one_le (ulp_natAbs_mul_unitsPerQuarter_dvd (by omega)) ?_
    rw [cast_unitsPerHalf_eq]
    linarith
  linarith

/-- From `2^51` on the hundredths are computed with halves and come out as they were, or below. -/
private theorem roundRatio_hundred_mul_le (h : k.natAbs ≤ 2 ^ (53 : Nat))
    (hlarge : 2 ^ 51 ≤ k ∨ k < -2 ^ 51)
    (hnear : |100 * n - k * unitsPerOne| < (unitsPerQuarter : Int)) :
    roundRatio (100 * n) 1 ≤ k * unitsPerOne := by
  have hpos := cast_unitsPerQuarter_pos
  have hhalf := abs_lt.mp (abs_roundRatio_hundred_mul_sub_lt h hnear)
  by_contra hlt
  have hdvd : (unitsPerHalf : Int) ∣ roundRatio (100 * n) 1 - k * unitsPerOne := by
    refine Int.dvd_sub ?_ ?_
    · refine Int.natCast_dvd.mpr (unitsPerHalf_dvd_of_le (ulp_natAbs_roundRatio_dvd _ _) ?_)
      have hcast : (2 ^ 52 * unitsPerHalf : Int) ≤ (roundRatio (100 * n) 1).natAbs := by
        rw [cast_unitsPerHalf_eq, cast_unitsPerOne_eq] at *
        rcases hlarge with hk | hk
        · have := mul_le_mul_of_nonneg_right hk hpos.le
          have := Int.le_natAbs (a := roundRatio (100 * n) 1)
          linarith
        · have := mul_le_mul_of_nonneg_right (Int.le_sub_one_of_lt hk) hpos.le
          have := Int.le_natAbs (a := -roundRatio (100 * n) 1)
          rw [Int.natAbs_neg] at this
          linarith
      exact_mod_cast hcast
    · rw [cast_unitsPerOne_eq, cast_unitsPerHalf_eq]
      exact ⟨2 * k, by ring⟩
  have hle := Int.le_of_dvd (by linarith) hdvd
  linarith

/-- A whole number of hundredths that is moved by less than a quarter is shown as it was. -/
theorem displayHundredths_eq_of_abs_sub_lt (h : k.natAbs < 2 ^ (52 : Nat))
    (hnear : |100 * n - k * unitsPerOne| < (unitsPerQuarter : Int)) : displayHundredths n = k := by
  have hpos := cast_unitsPerQuarter_pos
  have hhalf := abs_lt.mp (abs_roundRatio_hundred_mul_sub_lt (by omega) hnear)
  have hlower : k * unitsPerOne ≤ roundRatio (roundRatio (100 * n) 1 + unitsPerHalf) 1 :=
    le_roundRatio_one (ulp_natAbs_mul_unitsPerOne_dvd (by omega)) (by linarith)
  have hupper : roundRatio (roundRatio (100 * n) 1 + unitsPerHalf) 1 < (k + 1) * unitsPerOne := by
    by_cases hsmall : -2 ^ 51 ≤ k ∧ k < 2 ^ 51
    · exact roundRatio_sum_lt_of_quarters hsmall.1 hsmall.2 hnear
    · have hproduct := roundRatio_hundred_mul_le (by omega) (by omega) hnear
      have hsum : roundRatio (roundRatio (100 * n) 1 + unitsPerHalf) 1 ≤
          (2 * k + 1) * unitsPerHalf := by
        refine roundRatio_one_le (ulp_natAbs_mul_unitsPerHalf_dvd (by omega)) ?_
        rw [cast_unitsPerOne_eq] at hproduct
        rw [cast_unitsPerHalf_eq]
        linarith
      rw [cast_unitsPerHalf_eq] at hsum ⊢
      rw [cast_unitsPerOne_eq]
      linarith
  have hone := intCast_unitsPerOne_pos
  exact Int.le_antisymm (Int.le_of_lt_add_one ((Int.ediv_lt_iff_lt_mul hone).mpr hupper))
    ((Int.le_ediv_iff_mul_le hone).mpr hlower)

end Quarters

/-! ### Whole numbers -/

section Whole

variable {k : Int}

private theorem unitsPerHalf_lt : (unitsPerHalf : Int) < unitsPerOne := by
  have htwo := unitsPerHalf_add_self
  have hpos := unitsPerOne_pos
  omega

private theorem unitsPerOne_dvd_ulp {n : Nat} (h : 2 ^ (52 : Nat) * unitsPerOne ≤ n) :
    unitsPerOne ∣ ulp n := by
  unfold unitsPerOne at h ⊢
  exact two_pow_dvd_ulp (by rwa [Nat.pow_add])

private theorem cast_unitsPerOne_eq_two_mul : (unitsPerOne : Int) = 2 * unitsPerHalf := by
  exact_mod_cast ((Nat.two_mul unitsPerHalf).trans unitsPerHalf_add_self).symm

/-- The sum of a whole number that is a double and one half is not rounded past the next whole
number: the number itself is nearer than what lies beyond. -/
private theorem roundRatio_add_half_bounds
    (hdouble : ulp (k * unitsPerOne).natAbs ∣ (k * unitsPerOne).natAbs) :
    k * unitsPerOne ≤ roundRatio (k * unitsPerOne + unitsPerHalf) 1 ∧
      roundRatio (k * unitsPerOne + unitsPerHalf) 1 ≤ (k + 1) * unitsPerOne := by
  have hhalf : (0 : Int) ≤ unitsPerHalf := Int.natCast_nonneg _
  refine ⟨le_roundRatio_one hdouble (by omega), ?_⟩
  have hnear := abs_roundRatio_sub_le hdouble (k * unitsPerOne + unitsPerHalf) Nat.one_pos
  rw [Nat.cast_one, div_one] at hnear
  have hcast : |roundRatio (k * unitsPerOne + unitsPerHalf) 1 - (k * unitsPerOne + unitsPerHalf)| ≤
      |k * unitsPerOne - (k * unitsPerOne + unitsPerHalf)| := by exact_mod_cast hnear
  rw [sub_add_cancel_left, abs_neg, abs_of_nonneg hhalf] at hcast
  have hupper := (abs_le.mp hcast).2
  have htwo := cast_unitsPerOne_eq_two_mul
  linarith

/-- From `2^52` on that sum is rounded to a multiple of one. -/
private theorem unitsPerOne_dvd_ulp_add_half
    (hdouble : ulp (k * unitsPerOne).natAbs ∣ (k * unitsPerOne).natAbs)
    (hlarge : 2 ^ 52 ≤ k ∨ k < -2 ^ 52) :
    unitsPerOne ∣ ulp (roundRatio (k * unitsPerOne + unitsPerHalf) 1).natAbs := by
  have hpos := intCast_unitsPerOne_pos
  refine unitsPerOne_dvd_ulp ?_
  have hcast : (2 ^ 52 * unitsPerOne : Int) ≤
      (roundRatio (k * unitsPerOne + unitsPerHalf) 1).natAbs := by
    rcases hlarge with hk | hk
    · have hlower := (roundRatio_add_half_bounds hdouble).1
      have := mul_le_mul_of_nonneg_right hk hpos.le
      omega
    · have hupper : roundRatio (k * unitsPerOne + unitsPerHalf) 1 ≤ (-2 ^ 52) * unitsPerOne := by
        refine roundRatio_one_le (ulp_natAbs_mul_unitsPerOne_dvd (by decide)) ?_
        have := mul_le_mul_of_nonneg_right (Int.le_sub_one_of_lt hk) hpos.le
        have := unitsPerHalf_lt
        linarith
      rw [Int.neg_mul] at hupper
      omega
  exact_mod_cast hcast

/-- From `2^52` on that sum is rounded to the number or to the next one. -/
private theorem exists_roundRatio_add_half_eq
    (hdouble : ulp (k * unitsPerOne).natAbs ∣ (k * unitsPerOne).natAbs)
    (hlarge : 2 ^ 52 ≤ k ∨ k < -2 ^ 52) :
    ∃ j, roundRatio (k * unitsPerOne + unitsPerHalf) 1 = j * unitsPerOne ∧ k ≤ j ∧ j ≤ k + 1 := by
  have hpos := intCast_unitsPerOne_pos
  obtain ⟨hlower, hupper⟩ := roundRatio_add_half_bounds hdouble
  have hulp := unitsPerOne_dvd_ulp_add_half hdouble hlarge
  obtain ⟨j, hj⟩ := Int.natCast_dvd.mpr (Nat.dvd_trans hulp (ulp_natAbs_roundRatio_dvd _ _))
  rw [Int.mul_comm (unitsPerOne : Int) j] at hj
  rw [hj] at hlower hupper ⊢
  exact ⟨j, rfl, le_of_mul_le_mul_right hlower hpos, le_of_mul_le_mul_right hupper hpos⟩

/-- A whole number and the next one are both one half away from that sum. -/
private theorem abs_sub_add_half {i : Int} (hki : k ≤ i) (hik : i ≤ k + 1) :
    |((i * unitsPerOne : Int) : ℚ) - (k * unitsPerOne + unitsPerHalf : Int) / (1 : Nat)| =
      unitsPerHalf := by
  have hhalf : (0 : ℚ) ≤ unitsPerHalf := Nat.cast_nonneg _
  have htwo : (unitsPerOne : ℚ) = 2 * unitsPerHalf := by
    exact_mod_cast cast_unitsPerOne_eq_two_mul
  have hcases : i = k ∨ i = k + 1 := by omega
  rcases hcases with rfl | rfl
  · have hbelow : ((i * unitsPerOne : Int) : ℚ) -
        (i * unitsPerOne + unitsPerHalf : Int) / (1 : Nat) = -unitsPerHalf := by
      push_cast
      ring
    rw [hbelow, abs_neg, abs_of_nonneg hhalf]
  · have habove : (((k + 1) * unitsPerOne : Int) : ℚ) -
        (k * unitsPerOne + unitsPerHalf : Int) / (1 : Nat) = unitsPerHalf := by
      push_cast
      linarith
    rw [habove, abs_of_nonneg hhalf]

/-- A double from `2^53` on is even. -/
private theorem even_of_ulp_dvd (hdouble : ulp (k * unitsPerOne).natAbs ∣ (k * unitsPerOne).natAbs)
    (h : 2 ^ (53 : Nat) ≤ k.natAbs) : k % 2 = 0 := by
  obtain ⟨e, he⟩ : ∃ e, e = unitPlaces + 1 := ⟨_, rfl⟩
  have hpower : 2 ^ e = 2 * unitsPerOne := by
    rw [he, Nat.pow_succ', unitsPerOne_eq]
  have hle : 2 ^ (52 + e) ≤ (k * unitsPerOne).natAbs := by
    have := Nat.mul_le_mul_right unitsPerOne h
    rw [Nat.pow_add, hpower, Int.natAbs_mul, Int.natAbs_natCast]
    linarith
  have hdvd := Nat.dvd_trans (two_pow_dvd_ulp hle) hdouble
  rw [hpower, Int.natAbs_mul, Int.natAbs_natCast] at hdvd
  have := Nat.dvd_of_mul_dvd_mul_right unitsPerOne_pos hdvd
  omega

/-- The sum of a large whole number and one half is rounded to an even number: an odd number becomes
the next one. -/
theorem roundRatio_mul_unitsPerOne_add_half
    (hdouble : ulp (k * unitsPerOne).natAbs ∣ (k * unitsPerOne).natAbs)
    (hlarge : 2 ^ 52 ≤ k ∨ k < -2 ^ 52) :
    roundRatio (k * unitsPerOne + unitsPerHalf) 1 = (k + k % 2) * unitsPerOne := by
  have hulp := unitsPerOne_dvd_ulp_add_half hdouble hlarge
  obtain ⟨j, hj, hkj, hjk⟩ := exists_roundRatio_add_half_eq hdouble hlarge
  rw [hj]
  by_contra hne
  have hwrong : j ≠ k + k % 2 := fun heq ↦ hne (by rw [heq])
  -- The even one of the two neighbours is a double and as near as the odd one.
  have hother : ulp ((k + k % 2) * unitsPerOne).natAbs ∣ ((k + k % 2) * unitsPerOne).natAbs := by
    by_cases heven : k % 2 = 0
    · rwa [heven, add_zero]
    · refine ulp_natAbs_mul_unitsPerOne_dvd ?_
      have := mt (even_of_ulp_dvd hdouble) heven
      omega
  have hdistance := abs_sub_add_half (k := k) (i := k + k % 2) (by omega) (by omega)
  have hdistance' := abs_sub_add_half hkj hjk
  rw [← hj] at hdistance'
  have hclear := two_mul_ulp_dvd_roundRatio hother Nat.one_pos (fun heq ↦ hne (hj ▸ heq.symm))
    (hdistance.trans hdistance'.symm)
  rw [hj, Int.natAbs_mul, Int.natAbs_natCast] at hclear hulp
  have hdvd := Nat.dvd_trans (Nat.mul_dvd_mul_left 2 hulp) hclear
  have := Nat.dvd_of_mul_dvd_mul_right unitsPerOne_pos hdvd
  omega

/-- A number with a whole number of hundredths from `2^52` on is shown with an even number of
them. -/
theorem displayHundredths_of_le {n : Int}
    (hdouble : ulp (k * unitsPerOne).natAbs ∣ (k * unitsPerOne).natAbs)
    (hlarge : 2 ^ (52 : Nat) ≤ k.natAbs) (hproduct : roundRatio (100 * n) 1 = k * unitsPerOne) :
    displayHundredths n = k + k % 2 := by
  have hpos := intCast_unitsPerOne_pos
  unfold displayHundredths
  rw [hproduct]
  by_cases hlow : k = -2 ^ 52
  · -- Half of the spacing remains below this number, so that its sum with one half is exact.
    have hsum : k * unitsPerOne + unitsPerHalf = (2 * k + 1) * unitsPerHalf := by
      rw [cast_unitsPerOne_eq_two_mul]
      ring
    rw [hsum, roundRatio_one_of_ulp_dvd (ulp_natAbs_mul_unitsPerHalf_dvd (by omega)), ← hsum,
      add_comm, Int.add_mul_ediv_right _ _ hpos.ne',
      Int.ediv_eq_zero_of_lt (Int.natCast_nonneg _) unitsPerHalf_lt]
    omega
  · rw [roundRatio_mul_unitsPerOne_add_half hdouble (by omega), Int.mul_ediv_cancel _ hpos.ne']

/-- A whole number is shown as it is when its hundredths have at most 55 bits. -/
theorem displayHundredths_mul_unitsPerOne (h : 100 * k.natAbs < 2 ^ (55 : Nat)) :
    displayHundredths (k * unitsPerOne) = 100 * k := by
  have hpos := intCast_unitsPerOne_pos
  have hdouble : ulp (100 * k * unitsPerOne).natAbs ∣ (100 * k * unitsPerOne).natAbs := by
    have hquad : 100 * k * unitsPerOne = 25 * k * (4 * unitsPerOne : Nat) := by
      push_cast
      ring
    have hpower : 4 * unitsPerOne = 2 ^ (unitPlaces + 2) := by
      rw [Nat.pow_add, unitsPerOne_eq, Nat.mul_comm]
    rw [hquad]
    exact ulp_natAbs_mul_dvd (by omega) hpower
  have hproduct : roundRatio (100 * (k * unitsPerOne)) 1 = 100 * k * unitsPerOne := by
    rw [← mul_assoc, roundRatio_one_of_ulp_dvd hdouble]
  by_cases hlarge : 2 ^ (52 : Nat) ≤ (100 * k).natAbs
  · rw [displayHundredths_of_le hdouble hlarge hproduct]
    omega
  · refine displayHundredths_eq_of_abs_sub_lt (Nat.lt_of_not_le hlarge) ?_
    rw [← mul_assoc, sub_self, abs_zero]
    exact_mod_cast unitsPerQuarter_pos

end Whole

/-! ### Shown numbers -/

namespace Binary64

/-- A signed quotient with hundredths that do not overflow is shown as the double nearest to a whole
number of hundredths. -/
theorem roundForDisplay_ofRatio {num : Int} {den : Nat} (hden : 0 < den)
    (h : 100 * (roundRatio num den).natAbs < overflowBound) :
    (ofRatio num den).roundForDisplay =
      ofRatio (displayHundredths (roundRatio num den) * unitsPerOne) 100 := by
  have hbound := overflowBound_lt_overflowUnits
  have hlt : num.natAbs < overflowBound * den := by
    rw [← natAbs_roundRatio_lt_iff hden]
    omega
  obtain ⟨m, hm, hunits⟩ := exists_ofQuotient_eq_finite (decide (num < 0)) hden hlt
  have hsigned : signedInt (decide (num < 0)) m.units = roundRatio num den := by
    rw [hunits, roundRatio]
  rw [ofRatio, hm, roundForDisplay_finite (by rw [← hsigned, natAbs_signedInt] at h; exact h),
    hsigned]

/-- Up to `2^45`, the double nearest to a whole number of hundredths is shown as it is. -/
theorem roundForDisplay_ofRatio_hundred {k : Int} (h : k.natAbs ≤ 100 * 2 ^ (45 : Nat)) :
    (ofRatio (k * unitsPerOne) 100).roundForDisplay = ofRatio (k * unitsPerOne) 100 := by
  have hnear := abs_hundred_mul_roundRatio_sub_lt h
  have hbound := two_pow_mul_unitsPerOne_lt
  have hfour := four_mul_unitsPerQuarter
  have hle : (k * unitsPerOne).natAbs ≤ 100 * 2 ^ (45 : Nat) * unitsPerOne := by
    rw [Int.natAbs_mul, Int.natAbs_natCast]
    exact Nat.mul_le_mul_right _ h
  have hsmall : 100 * (roundRatio (k * unitsPerOne) 100).natAbs < overflowBound := by
    rw [abs_lt] at hnear
    omega
  rw [roundForDisplay_ofRatio (by decide) hsmall,
    displayHundredths_eq_of_abs_sub_lt (by omega) hnear]

/-- A whole number with hundredths of at most 55 bits is shown as it is. -/
theorem roundForDisplay_ofRatio_one {n : Int} (h : 100 * n.natAbs < 2 ^ (55 : Nat)) :
    (ofRatio (n * unitsPerOne) 1).roundForDisplay = ofRatio (n * unitsPerOne) 1 := by
  have hround : roundRatio (n * unitsPerOne) 1 = n * unitsPerOne :=
    roundRatio_one_of_ulp_dvd (ulp_natAbs_mul_unitsPerOne_dvd (by omega))
  have hbound := two_pow_mul_unitsPerOne_lt
  have hsmall : 100 * (roundRatio (n * unitsPerOne) 1).natAbs < overflowBound := by
    have hle := Nat.mul_le_mul_right unitsPerOne h.le
    rw [hround, Int.natAbs_mul, Int.natAbs_natCast, ← Nat.mul_assoc]
    exact Nat.lt_of_le_of_lt hle hbound
  rw [roundForDisplay_ofRatio Nat.one_pos hsmall, hround, displayHundredths_mul_unitsPerOne h,
    ofRatio, ofRatio]
  have hsign :
      decide (100 * n * (unitsPerOne : Int) < 0) = decide (n * (unitsPerOne : Int) < 0) := by
    rw [decide_eq_decide, mul_assoc]
    omega
  rw [hsign]
  refine ofQuotient_congr _ (by decide) Nat.one_pos ?_
  rw [mul_assoc, Int.natAbs_mul]
  push_cast
  ring

/-- A number between `-2 ^ 45` and `2 ^ 45` is shown as the double nearest to a whole number of
hundredths in the same range. -/
theorem exists_roundForDisplay_eq (negative : Bool) {m : Magnitude}
    (h : m.units ≤ 2 ^ (45 : Nat) * unitsPerOne) :
    ∃ k : Int, k.natAbs ≤ 100 * 2 ^ (45 : Nat) ∧
      (finite negative m).roundForDisplay = ofRatio (k * unitsPerOne) 100 := by
  have hbound := two_pow_mul_unitsPerOne_lt
  have habs := natAbs_signedInt negative m.units
  have hlower : displayHundredths (-2 ^ 45 * unitsPerOne) ≤
      displayHundredths (signedInt negative m.units) :=
    displayHundredths_mono (by rw [Int.neg_mul]; zify at h; omega)
  have hupper : displayHundredths (signedInt negative m.units) ≤
      displayHundredths (2 ^ 45 * unitsPerOne) :=
    displayHundredths_mono (by zify at h; omega)
  rw [displayHundredths_mul_unitsPerOne (by decide)] at hlower hupper
  exact ⟨_, by omega, roundForDisplay_finite (by omega)⟩

/-- Rounding for display twice is rounding once, for small numbers. -/
theorem roundForDisplay_roundForDisplay {negative : Bool} {m : Magnitude}
    (h : m.units ≤ 2 ^ (45 : Nat) * unitsPerOne) :
    (finite negative m).roundForDisplay.roundForDisplay = (finite negative m).roundForDisplay := by
  obtain ⟨k, hk, hshown⟩ := exists_roundForDisplay_eq negative h
  rw [hshown, roundForDisplay_ofRatio_hundred hk]

/-- From `2^52` rounded hundredths on, the number that is shown has an even number of them. -/
theorem exists_isNearest_roundForDisplay {x : Binary64} (hfinite : (x * hundred).isFinite = true)
    (hlarge : 2 ^ (52 : Nat) * unitsPerOne ≤ (x * hundred).rank.natAbs) :
    ∃ k : Int, (x * hundred).rank = k * unitsPerOne ∧
      x.roundForDisplay.IsNearest (((k + k % 2 : Int) : ℚ) / 100) := by
  cases x with
  | nan => cases hfinite
  | infinite negative =>
    rw [isFinite_infinite_mul_hundred] at hfinite
    cases hfinite
  | finite negative m =>
    have hlow := (isFinite_finite_mul_hundred_iff negative).mp hfinite
    obtain ⟨p, hp, hproduct⟩ := exists_finite_mul_hundred_eq negative hlow
    rw [hp, rank, hproduct] at hlarge
    rw [hp, rank, hproduct, roundForDisplay_finite hlow]
    have hdouble := ulp_natAbs_roundRatio_dvd (100 * signedInt negative m.units) 1
    obtain ⟨k, hk⟩ := Int.natCast_dvd.mpr (unitsPerOne_dvd_of_le hdouble hlarge)
    rw [mul_comm (unitsPerOne : Int) k] at hk
    rw [hk] at hdouble hlarge
    rw [Int.natAbs_mul, Int.natAbs_natCast] at hlarge
    refine ⟨k, hk, ?_⟩
    rw [displayHundredths_of_le hdouble (Nat.le_of_mul_le_mul_right hlarge unitsPerOne_pos) hk]
    exact isNearest_ofRatio_mul_unitsPerOne _ (by decide)

/-- Numbers with two decimal places are shown as they are up to `2 ^ 45`, and whole numbers while
their hundredths stay below `2 ^ 55`; rounding for display twice is rounding once up to `2 ^ 45` and
where the hundredths overflow. From `2 ^ 52` rounded hundredths on, the sum with one half is a tie,
which makes an odd number of hundredths even: such a number is not shown as it is. -/
theorem roundForDisplay_hundredths (x : Binary64) :
    (∀ k : Int, x.IsNearest (k / 100) → k.natAbs ≤ 100 * 2 ^ 45 → x.roundForDisplay = x) ∧
    (∀ n : Int, x.IsNearest n → 100 * n.natAbs < 2 ^ 55 → x.roundForDisplay = x) ∧
    ((x * hundred).isFinite = false ∨ x.rank.natAbs ≤ 2 ^ 45 * unitsPerOne →
      x.roundForDisplay.roundForDisplay = x.roundForDisplay) ∧
    ((x * hundred).isFinite = true → 2 ^ 52 * unitsPerOne ≤ (x * hundred).rank.natAbs →
      ∃ k : Int, (x * hundred).rank = k * unitsPerOne ∧
        x.roundForDisplay.IsNearest (((k + k % 2 : Int) : ℚ) / 100)) := by
  refine ⟨fun k hx hk ↦ ?_, fun n hx hn ↦ ?_, fun hx ↦ ?_, exists_isNearest_roundForDisplay⟩
  · rw [hx.eq (isNearest_ofRatio_mul_unitsPerOne k (by decide : 0 < 100))]
    exact roundForDisplay_ofRatio_hundred hk
  · have hwhole := isNearest_ofRatio_mul_unitsPerOne n Nat.one_pos
    rw [Nat.cast_one, div_one] at hwhole
    rw [hx.eq hwhole]
    exact roundForDisplay_ofRatio_one hn
  · rcases hx with hover | hsmall
    · have hsame : x.roundForDisplay = x := by
        unfold roundForDisplay
        dsimp only
        rw [hover, if_neg Bool.false_ne_true]
      rw [hsame, hsame]
    · cases x with
      | nan => rfl
      | infinite negative => rw [roundForDisplay_infinite, roundForDisplay_infinite]
      | finite negative m =>
        rw [rank, natAbs_signedInt] at hsmall
        exact roundForDisplay_roundForDisplay hsmall

/-- Hundredths up to the bound, a negative whole number, a number below one hundredth and one with a
large number of hundredths. -/
theorem roundForDisplay_hundredths_bounds :
    let hundredths : Binary64 := ofFraction true 3518437208883199 100
    let whole : Binary64 := ofNat 360287970189639
    let small : Binary64 := ofFraction true 7 1000
    let large : Binary64 := ofNat (2 ^ (53 : Nat))
    (hundredths.IsNearest ((-3518437208883199 : Int) / 100) ∧
      hundredths.roundForDisplay = hundredths) ∧
    (whole.IsNearest (360287970189639 : Int) ∧ whole.roundForDisplay = whole) ∧
    (small.rank.natAbs ≤ 2 ^ 45 * unitsPerOne ∧
      small.roundForDisplay.roundForDisplay = small.roundForDisplay) ∧
    ((large * hundred).isFinite = true ∧
      2 ^ 52 * unitsPerOne ≤ (large * hundred).rank.natAbs ∧
      ∃ k : Int, (large * hundred).rank = k * unitsPerOne ∧
        large.roundForDisplay.IsNearest (((k + k % 2 : Int) : ℚ) / 100)) := by
  intro hundredths whole small large
  obtain ⟨hhundredths, -⟩ := roundForDisplay_hundredths hundredths
  obtain ⟨-, hwhole, -⟩ := roundForDisplay_hundredths whole
  obtain ⟨-, -, hsmall, -⟩ := roundForDisplay_hundredths small
  obtain ⟨-, -, -, hlarge⟩ := roundForDisplay_hundredths large
  have hnear : hundredths.IsNearest ((-3518437208883199 : Int) / 100) := by
    have hq : ((-3518437208883199 : Int) / 100 : ℚ) < 0 := by norm_num
    have habs : |((-3518437208883199 : Int) / 100 : ℚ)| =
        (3518437208883199 : Nat) / (100 : Nat) := by
      rw [abs_of_neg hq]
      norm_num
    have hfraction := isNearest_ofFraction (by decide) habs
    rwa [decide_eq_true hq] at hfraction
  have hnear' : whole.IsNearest (360287970189639 : Int) := by
    have hfraction := isNearest_ofFraction_false 360287970189639 Nat.one_pos
    rwa [Nat.cast_one, div_one] at hfraction
  have hbelow : small.rank.natAbs ≤ 2 ^ 45 * unitsPerOne := by decide +kernel
  have hfinite : (large * hundred).isFinite = true := by decide +kernel
  have habove : 2 ^ 52 * unitsPerOne ≤ (large * hundred).rank.natAbs := by decide +kernel
  exact ⟨⟨hnear, hhundredths _ hnear (by decide)⟩, ⟨hnear', hwhole _ hnear' (by decide)⟩,
    ⟨hbelow, hsmall (.inr hbelow)⟩, hfinite, habove, hlarge hfinite habove⟩

/-- Beyond the bounds a number with two decimal places, a whole number and a number that has been
rounded already are each shown as another number. -/
theorem roundForDisplay_hundredths_ne :
    let hundredths : Binary64 := ofFraction false 3518437208883202 100
    let whole : Binary64 := ofNat 360287970189641
    let small : Binary64 := ofFraction false 2251799813685249 64
    (hundredths.IsNearest (3518437208883202 / 100) ∧ whole.IsNearest (360287970189641 / 1)) ∧
      hundredths.roundForDisplay = ofFraction false 3518437208883203 100 ∧
      hundredths.roundForDisplay ≠ hundredths ∧
      whole.roundForDisplay = ofFraction false 36028797018964094 100 ∧
      whole.roundForDisplay ≠ whole ∧
      small.roundForDisplay.roundForDisplay ≠ small.roundForDisplay := by
  intro hundredths whole small
  have hnear := isNearest_ofFraction_false 3518437208883202 (by decide : 0 < 100)
  have hnear' := isNearest_ofFraction_false 360287970189641 Nat.one_pos
  rw [Nat.cast_ofNat, Nat.cast_ofNat] at hnear
  rw [Nat.cast_ofNat, Nat.cast_one] at hnear'
  exact ⟨⟨hnear, hnear'⟩, by decide +kernel⟩

end Binary64

end PocketCalc
