import PocketCalc.Arithmetic
import PocketCalc.Proofs.Binary64.Order
import PocketCalc.Proofs.Decimal.PlainNumeral

/-!
# Rounding for display

A finite number whose hundredths do not overflow is shown as the double nearest to a whole number of
hundredths (`Binary64.roundForDisplay_finite`). That number comes from two rounded operations and a
floor, each of which keeps the order, so that results are never reordered
(`Binary64.roundForDisplay_order`), also where larger numbers are shown as they are.
-/

namespace PocketCalc

-- Powers of natural numbers are the core library's here, whatever else is imported.
attribute [local instance (high)] instPowNat

-- The bounds are compared with each other by evaluation and otherwise kept closed.
attribute [local irreducible] unitsPerOne overflowUnits maxUnits overflowBound

/-- One is a power of two in units. -/
theorem unitsPerOne_eq : unitsPerOne = 2 ^ unitPlaces := by
  unfold unitsPerOne
  rfl

/-- Large doubles are whole numbers. -/
theorem unitsPerOne_dvd_of_le {n : Nat} (hn : ulp n ∣ n) (h : 2 ^ (52 : Nat) * unitsPerOne ≤ n) :
    unitsPerOne ∣ n := by
  rw [unitsPerOne_eq] at h ⊢
  exact Nat.dvd_trans (two_pow_dvd_ulp (by rwa [Nat.pow_add])) hn

/-- Whole numbers of at most 53 bits are doubles. -/
theorem ulp_mul_unitsPerOne_dvd {q : Nat} (h : q ≤ 2 ^ (53 : Nat)) :
    ulp (q * unitsPerOne) ∣ q * unitsPerOne := by
  rw [unitsPerOne_eq]
  exact ulp_mul_two_pow_dvd h unitPlaces

/-- The number of units in one half. -/
def unitsPerHalf : Nat := 2 ^ (unitPlaces - 1)

/-- A power of two in units, and as many units as make it up to one. -/
theorem two_pow_mul_two_pow_sub {n : Nat} (h : n ≤ unitPlaces) :
    2 ^ n * 2 ^ (unitPlaces - n) = unitsPerOne := by
  rw [← Nat.pow_add, Nat.add_sub_cancel' h, unitsPerOne_eq]

/-- Two halves are one. -/
theorem unitsPerHalf_add_self : unitsPerHalf + unitsPerHalf = unitsPerOne := by
  unfold unitsPerHalf
  rw [← Nat.two_mul, ← two_pow_mul_two_pow_sub (by decide : 1 ≤ unitPlaces), Nat.pow_one]

attribute [local irreducible] unitsPerHalf

/-- The hundredths that are shown of a signed number of units: the rounded hundredths and one half,
rounded again, and down to a whole number. -/
def displayHundredths (n : Int) : Int :=
  roundRatio (roundRatio (100 * n) 1 + unitsPerHalf) 1 / unitsPerOne

namespace Binary64

/-- A whole number of at most 53 bits is a double. -/
theorem isDouble_mul_unitsPerOne {q : Nat} (h : q ≤ 2 ^ (53 : Nat)) :
    IsDouble (q * unitsPerOne) := by
  refine ⟨?_, ulp_mul_unitsPerOne_dvd h⟩
  calc q * unitsPerOne ≤ 2 ^ (55 : Nat) * unitsPerOne :=
        Nat.mul_le_mul_right _ (Nat.le_trans h (by decide))
    _ < overflowUnits := Nat.lt_trans two_pow_mul_unitsPerOne_lt overflowBound_lt_overflowUnits

/-- A whole number that is a double is not rounded. -/
theorem ofNat_eq_finite {n : Nat} (h : IsDouble (n * unitsPerOne)) :
    ofNat n = finite false ⟨n * unitsPerOne, h⟩ :=
  ofQuotient_of_eq false _ Nat.one_pos (Nat.mul_one _).symm

/-- A product with a whole number that is a double is rounded once. -/
theorem finite_mul_ofNat (negative : Bool) (m : Magnitude) {n : Nat}
    (h : IsDouble (n * unitsPerOne)) :
    finite negative m * ofNat n = ofQuotient negative (n * m.units) 1 := by
  rw [ofNat_eq_finite h]
  change ofQuotient (negative ^^ false) (m.units * (n * unitsPerOne)) unitsPerOne = _
  rw [Bool.xor_false]
  refine ofQuotient_congr negative unitsPerOne_pos Nat.one_pos ?_
  have hne := cast_unitsPerOne_pos.ne'
  push_cast
  field_simp

/-- A quotient by a whole number that is a double is rounded once. -/
theorem finite_div_ofNat (negative : Bool) (m : Magnitude) {n : Nat} (hn : 0 < n)
    (h : IsDouble (n * unitsPerOne)) :
    finite negative m / ofNat n = ofQuotient negative m.units n := by
  rw [ofNat_eq_finite h]
  change (if n * unitsPerOne = 0 then if m.units = 0 then nan else infinite (negative ^^ false)
    else ofQuotient (negative ^^ false) (m.units * unitsPerOne) (n * unitsPerOne)) = _
  have hpos : 0 < n * unitsPerOne := Nat.mul_pos hn unitsPerOne_pos
  rw [if_neg hpos.ne', Bool.xor_false]
  refine ofQuotient_congr negative hpos hn ?_
  have hne := cast_unitsPerOne_pos.ne'
  push_cast
  field_simp

private theorem isDouble_hundred : IsDouble (100 * unitsPerOne) :=
  isDouble_mul_unitsPerOne (by decide)

private theorem isDouble_half : IsDouble unitsPerHalf := by
  have hbound := maxUnits_add_unitsPerOne_le
  have hover := overflowBound_lt_overflowUnits
  have htwo := unitsPerHalf_add_self
  refine ⟨by omega, ?_⟩
  rw [← Nat.one_mul unitsPerHalf]
  unfold unitsPerHalf
  exact ulp_mul_two_pow_dvd (by decide) _

private theorem hundred_eq : hundred = finite false ⟨100 * unitsPerOne, isDouble_hundred⟩ :=
  ofNat_eq_finite isDouble_hundred

private theorem half_eq : half = finite false ⟨unitsPerHalf, isDouble_half⟩ := by
  refine ofQuotient_of_eq false _ Nat.two_pos ?_
  rw [Nat.one_mul, Nat.mul_two, unitsPerHalf_add_self]

/-- The hundredths of a finite number. -/
theorem finite_mul_hundred (negative : Bool) (m : Magnitude) :
    finite negative m * hundred = ofQuotient negative (100 * m.units) 1 :=
  finite_mul_ofNat negative m isDouble_hundred

/-- One half more than a finite number. -/
theorem finite_add_half (negative : Bool) (m : Magnitude) :
    finite negative m + half = ofRatio (signedInt negative m.units + unitsPerHalf) 1 := by
  rw [half_eq]
  change (if signedInt negative m.units + (unitsPerHalf : Int) = 0 then zero (negative && false)
    else ofRatio (signedInt negative m.units + unitsPerHalf) 1) = _
  split
  · next hzero =>
    rw [hzero, Bool.and_false, ofRatio, Int.natAbs_zero, ofQuotient_zero _ Nat.one_pos,
      decide_eq_false (lt_irrefl _)]
  · rfl

private theorem neg_ediv_eq {u : Nat} (hu : 0 < u) (n : Nat) :
    -(n : Int) / u = -((n + (u - 1)) / u : Nat) := by
  have hdiv := Nat.div_add_mod (n + (u - 1)) u
  have hmod := Nat.mod_lt (n + (u - 1)) hu
  generalize (n + (u - 1)) / u = c at *
  generalize (n + (u - 1)) % u = r at *
  refine ((Int.ediv_emod_unique (r := u - 1 - r) (by omega)).mpr ⟨?_, ?_, ?_⟩).1
  · have hcast : (u : Int) * c + r = n + (u - 1) := by
      have := congrArg (Nat.cast (R := Int)) hdiv
      push_cast [Nat.cast_sub hu] at this
      linarith
    linarith
  · omega
  · omega

/-- Rounding down a finite number; a negative one is not zero. -/
theorem floor_finite {negative : Bool} {m : Magnitude} (h : negative = true → m.units ≠ 0) :
    (finite negative m).floor =
      ofRatio (signedInt negative m.units / unitsPerOne * unitsPerOne) 1 := by
  cases negative with
  | false =>
    rw [signedInt_false, ofRatio, ← Int.natCast_ediv, ← Int.natCast_mul, Int.natAbs_natCast,
      decide_eq_false (by omega)]
    rfl
  | true =>
    have hpos : 0 < (m.units + (unitsPerOne - 1)) / unitsPerOne :=
      Nat.div_pos (by have := h rfl; have := unitsPerOne_pos; omega) unitsPerOne_pos
    have hneg : -(((m.units + (unitsPerOne - 1)) / unitsPerOne : Nat) : Int) * unitsPerOne < 0 :=
      Int.mul_neg_of_neg_of_pos (by omega) intCast_unitsPerOne_pos
    rw [signedInt_true, neg_ediv_eq unitsPerOne_pos, ofRatio, decide_eq_true hneg, Int.natAbs_mul,
      Int.natAbs_neg, Int.natAbs_natCast, Int.natAbs_natCast]
    rfl

end Binary64

/-! ### Rounding down -/

private theorem natAbs_mul_unitsPerOne (q : Int) :
    (q * unitsPerOne).natAbs = q.natAbs * unitsPerOne := by
  rw [Int.natAbs_mul, Int.natAbs_natCast]

/-- A double that is rounded down is a double. -/
theorem ulp_natAbs_floor_dvd {n : Int} (hn : ulp n.natAbs ∣ n.natAbs) :
    ulp (n / unitsPerOne * unitsPerOne).natAbs ∣ (n / unitsPerOne * unitsPerOne).natAbs := by
  by_cases hlow : 2 ^ (52 : Nat) * unitsPerOne ≤ n.natAbs
  · have hdvd := unitsPerOne_dvd_of_le hn hlow
    rw [Int.ediv_mul_cancel (Int.natCast_dvd.mpr hdvd)]
    exact hn
  · have hpos := intCast_unitsPerOne_pos
    have habs : (n.natAbs : Int) < 2 ^ 52 * unitsPerOne := by
      exact_mod_cast Nat.lt_of_not_le hlow
    have hupper : n / unitsPerOne < 2 ^ 52 := by
      rw [Int.ediv_lt_iff_lt_mul hpos]
      omega
    have hlower : -2 ^ 52 ≤ n / unitsPerOne := by
      rw [Int.le_ediv_iff_mul_le hpos, Int.neg_mul]
      omega
    rw [natAbs_mul_unitsPerOne]
    exact ulp_mul_unitsPerOne_dvd (by omega)

/-- Rounding down does not lead past the largest double. -/
theorem natAbs_floor_le {n : Int} (hn : n.natAbs ≤ maxUnits) :
    (n / unitsPerOne * unitsPerOne).natAbs ≤ maxUnits := by
  have hpos := intCast_unitsPerOne_pos
  have hwhole : (unitsPerOne : Int) ∣ -maxUnits := by
    rw [Int.dvd_neg]
    exact_mod_cast unitsPerOne_dvd_maxUnits
  have hupper := Int.ediv_mul_le n hpos.ne'
  have hlower := Int.mul_le_mul_of_nonneg_right
    (Int.ediv_le_ediv hpos (show -(maxUnits : Int) ≤ n by omega)) hpos.le
  rw [Int.ediv_mul_cancel hwhole] at hlower
  omega

/-! ### The shown number -/

private theorem maxUnits_add_lt : maxUnits + unitsPerHalf < overflowBound := by
  have hbound := maxUnits_add_unitsPerOne_le
  have htwo := unitsPerHalf_add_self
  have hpos := unitsPerOne_pos
  omega

/-- The rounded number of units has at most 53 significant bits. -/
theorem ulp_natAbs_roundRatio_dvd (num : Int) (den : Nat) :
    ulp (roundRatio num den).natAbs ∣ (roundRatio num den).natAbs := by
  rw [roundRatio, natAbs_signedInt]
  exact ulp_roundUnits_dvd _ _

/-- The number of units of a finite rounded quotient. -/
theorem natAbs_roundRatio_le {num : Int} {den : Nat} (hden : 0 < den)
    (h : num.natAbs < overflowBound * den) : (roundRatio num den).natAbs ≤ maxUnits := by
  obtain ⟨m, -, hm⟩ := Binary64.exists_ofQuotient_eq_finite false hden h
  rw [roundRatio, natAbs_signedInt, ← hm]
  exact m.units_le

namespace Binary64

/-- A signed number of units that is a double is its own nearest double. -/
theorem exists_ofRatio_eq_finite {n : Int} (hn : ulp n.natAbs ∣ n.natAbs)
    (hle : n.natAbs ≤ maxUnits) :
    ∃ m, ofRatio n 1 = finite (decide (n < 0)) m ∧ m.units = n.natAbs := by
  have hlt : n.natAbs < overflowUnits :=
    Nat.lt_of_le_of_lt hle (Nat.lt_trans maxUnits_lt_overflowBound overflowBound_lt_overflowUnits)
  exact ⟨⟨n.natAbs, hlt, hn⟩, ofQuotient_of_eq _ _ Nat.one_pos (Nat.mul_one _).symm, rfl⟩

/-- A finite number divided by one hundred. -/
theorem finite_div_hundred (negative : Bool) (m : Magnitude) :
    finite negative m / hundred = ofQuotient negative m.units 100 :=
  finite_div_ofNat negative m (by decide) isDouble_hundred

/-- Exactly the finite numbers that are not too large have finite hundredths. -/
theorem isFinite_finite_mul_hundred_iff (negative : Bool) {m : Magnitude} :
    (finite negative m * hundred).isFinite = true ↔ 100 * m.units < overflowBound := by
  rw [finite_mul_hundred, isFinite_ofQuotient_iff negative Nat.one_pos, Nat.mul_one]

/-- The hundredths of an infinity are not finite. -/
theorem isFinite_infinite_mul_hundred (negative : Bool) :
    (infinite negative * hundred).isFinite = false := by
  rw [hundred_eq]
  change (if 100 * unitsPerOne = 0 then nan else infinite (negative ^^ false)).isFinite = false
  split <;> rfl

/-- The finite hundredths of a finite number, in units. -/
theorem exists_finite_mul_hundred_eq (negative : Bool) {m : Magnitude}
    (h : 100 * m.units < overflowBound) :
    ∃ p, finite negative m * hundred = finite negative p ∧
      signedInt negative p.units = roundRatio (100 * signedInt negative m.units) 1 := by
  have hlt : 100 * m.units < overflowBound * 1 := by omega
  obtain ⟨p, hp, hpunits⟩ := exists_ofQuotient_eq_finite negative Nat.one_pos hlt
  refine ⟨p, (finite_mul_hundred negative m).trans hp, ?_⟩
  rw [hpunits, signedInt_roundUnits negative _ Nat.one_pos]
  congr 1
  cases negative <;> simp

/-- A finite number with hundredths that do not overflow is shown as the double nearest to a whole
number of hundredths. -/
theorem roundForDisplay_finite {negative : Bool} {m : Magnitude}
    (h : 100 * m.units < overflowBound) :
    (finite negative m).roundForDisplay =
      ofRatio (displayHundredths (signedInt negative m.units) * unitsPerOne) 100 := by
  obtain ⟨p, hp, hproduct⟩ := exists_finite_mul_hundred_eq negative h
  have hsum : (signedInt negative p.units + unitsPerHalf).natAbs < overflowBound * 1 := by
    have hle := p.units_le
    have hbound := maxUnits_add_lt
    have habs := natAbs_signedInt negative p.units
    omega
  obtain ⟨t, ht, htunits⟩ := exists_ofQuotient_eq_finite
    (decide (signedInt negative p.units + (unitsPerHalf : Int) < 0)) Nat.one_pos hsum
  have hbounds := natAbs_roundRatio_le Nat.one_pos hsum
  -- The sum of a finite number and one half is negative only when it is not rounded to zero.
  have hnonzero : decide (signedInt negative p.units + (unitsPerHalf : Int) < 0) = true →
      t.units ≠ 0 := by
    intro hneg
    have hlt := of_decide_eq_true hneg
    have hone : 1 ≤ roundUnits (signedInt negative p.units + (unitsPerHalf : Int)).natAbs 1 :=
      le_roundUnits (Nat.one_dvd 1) Nat.one_pos (by omega)
    omega
  have hfloor := floor_finite hnonzero
  have ht' : signedInt (decide (signedInt negative p.units + (unitsPerHalf : Int) < 0)) t.units =
      roundRatio (signedInt negative p.units + unitsPerHalf) 1 := by rw [htunits, roundRatio]
  rw [ht'] at hfloor
  obtain ⟨f, hf, hfunits⟩ := exists_ofRatio_eq_finite
    (ulp_natAbs_floor_dvd (ulp_natAbs_roundRatio_dvd _ _)) (natAbs_floor_le hbounds)
  unfold roundForDisplay
  dsimp only
  rw [hp, isFinite, if_pos rfl, finite_add_half, ofRatio, ht, hfloor, hf,
    finite_div_hundred, hfunits, displayHundredths, ← hproduct]
  rfl

/-- A finite number with hundredths that overflow is shown as it is. -/
theorem roundForDisplay_of_overflow {negative : Bool} {m : Magnitude}
    (h : overflowBound ≤ 100 * m.units) :
    (finite negative m).roundForDisplay = finite negative m := by
  have hinfinite := (isFinite_finite_mul_hundred_iff negative).not.mpr (Nat.not_lt_of_le h)
  unfold roundForDisplay
  dsimp only
  rw [if_neg hinfinite]

/-- An infinity is shown as it is. -/
theorem roundForDisplay_infinite (negative : Bool) :
    (infinite negative).roundForDisplay = infinite negative := by
  unfold roundForDisplay
  dsimp only
  rw [isFinite_infinite_mul_hundred, if_neg Bool.false_ne_true]

end Binary64

/-! ### The order of shown numbers -/

/-- A larger number has no fewer hundredths. -/
theorem displayHundredths_mono {n n' : Int} (h : n ≤ n') :
    displayHundredths n ≤ displayHundredths n' := by
  have hproduct : roundRatio (100 * n) 1 ≤ roundRatio (100 * n') 1 :=
    roundRatio_one_mono (by omega)
  have hsum : roundRatio (roundRatio (100 * n) 1 + unitsPerHalf) 1 ≤
      roundRatio (roundRatio (100 * n') 1 + unitsPerHalf) 1 := roundRatio_one_mono (by omega)
  exact Int.ediv_le_ediv intCast_unitsPerOne_pos hsum

/-- The hundredths that are shown do not overflow when the number has hundredths that do not. -/
theorem natAbs_displayHundredths_le {n : Int} (h : (100 * n).natAbs < overflowBound) :
    (displayHundredths n * unitsPerOne).natAbs ≤ maxUnits := by
  have hproduct : (roundRatio (100 * n) 1).natAbs ≤ maxUnits :=
    natAbs_roundRatio_le Nat.one_pos (by omega)
  have hbound := maxUnits_add_lt
  exact natAbs_floor_le (natAbs_roundRatio_le Nat.one_pos (by omega))

/-- One hundred times the number that is shown, in units, whether the hundredths overflow or not. -/
def shownHundredths (n : Int) : Int :=
  if (100 * n).natAbs < overflowBound then displayHundredths n * unitsPerOne else 100 * n

/-- A larger number is not shown as a smaller one, also where one has hundredths that overflow. -/
theorem shownHundredths_mono {n n' : Int} (h : n ≤ n') :
    shownHundredths n ≤ shownHundredths n' := by
  have hmax := maxUnits_lt_overflowBound
  unfold shownHundredths
  by_cases hlow : (100 * n).natAbs < overflowBound
  · have hshown := natAbs_displayHundredths_le hlow
    by_cases hlow' : (100 * n').natAbs < overflowBound
    · rw [if_pos hlow, if_pos hlow']
      exact Int.mul_le_mul_of_nonneg_right (displayHundredths_mono h) intCast_unitsPerOne_pos.le
    · rw [if_pos hlow, if_neg hlow']
      omega
  · by_cases hlow' : (100 * n').natAbs < overflowBound
    · have hshown' := natAbs_displayHundredths_le hlow'
      rw [if_neg hlow, if_pos hlow']
      omega
    · rw [if_neg hlow, if_neg hlow']
      omega

namespace Binary64

/-- The ranks of numbers lie between those of the infinities. -/
theorem natAbs_rank_le (x : Binary64) : x.rank.natAbs ≤ overflowUnits := by
  cases x with
  | nan => exact Nat.zero_le _
  | infinite negative => rw [rank, natAbs_signedInt]
  | finite negative m =>
    rw [rank, natAbs_signedInt]
    exact m.isDouble.1.le

/-- Every number is at most the positive infinity. -/
theorem le_infinite {x : Binary64} (h : x ≠ nan) : x ≤ infinite false := by
  have hbound := x.natAbs_rank_le
  have hrank : (infinite false).rank = overflowUnits := rfl
  exact ⟨h, by simp, by omega⟩

/-- A number with a set sign is at most the negative zero. -/
theorem le_zero_of_isNegative {x : Binary64} (h : x.isNegative = true) : x ≤ zero true := by
  cases x with
  | nan => cases h
  | infinite negative =>
    obtain rfl : negative = true := h
    exact ⟨by simp, by simp [zero], by simp [rank, zero, Magnitude.units_zero]⟩
  | finite negative m =>
    obtain rfl : negative = true := h
    exact ⟨by simp, by simp [zero], by simp [rank, zero, Magnitude.units_zero]⟩

/-- The rank of a finite number is that of its units when they are rounded. -/
theorem rank_ofRatio_rank (negative : Bool) (m : Magnitude) {den : Nat} (hden : 0 < den) :
    (ofRatio ((finite negative m).rank * den) den).rank = (finite negative m).rank := by
  have habs := natAbs_signedInt negative m.units
  have hlt := m.isDouble.1
  have hdvd : ulp (signedInt negative m.units).natAbs ∣ (signedInt negative m.units).natAbs := by
    rw [habs]
    exact m.isDouble.2
  rw [rank_ofRatio, rank, roundRatio_of_ulp_dvd hdvd hden]
  omega

/-- What is shown of a finite number has the rank of its shown hundredths. -/
theorem rank_roundForDisplay_finite (negative : Bool) (m : Magnitude) :
    (finite negative m).roundForDisplay.rank =
      (ofRatio (shownHundredths (finite negative m).rank) 100).rank := by
  have habs := natAbs_signedInt negative m.units
  unfold shownHundredths
  rw [rank]
  by_cases hlow : 100 * m.units < overflowBound
  · rw [roundForDisplay_finite hlow, if_pos (by omega)]
  · rw [roundForDisplay_of_overflow (Nat.le_of_not_lt hlow), if_neg (by omega), Int.mul_comm]
    exact (rank_ofRatio_rank negative m (by decide : 0 < 100)).symm

/-- A finite number is shown as a finite number. -/
theorem isFinite_roundForDisplay_finite (negative : Bool) (m : Magnitude) :
    (finite negative m).roundForDisplay.isFinite = true := by
  by_cases hlow : 100 * m.units < overflowBound
  · have hshown := natAbs_displayHundredths_le (n := signedInt negative m.units)
      (by have := natAbs_signedInt negative m.units; omega)
    have hbound := maxUnits_add_lt
    rw [roundForDisplay_finite hlow, ofRatio, isFinite_ofQuotient_iff _ (by decide)]
    omega
  · rw [roundForDisplay_of_overflow (Nat.le_of_not_lt hlow), isFinite]

/-- Exactly the finite numbers are shown as finite numbers. -/
theorem isFinite_roundForDisplay (x : Binary64) : x.roundForDisplay.isFinite = x.isFinite := by
  cases x with
  | nan => rfl
  | infinite negative => rw [roundForDisplay_infinite]
  | finite negative m => rw [isFinite_roundForDisplay_finite, isFinite]

/-- Exactly not-a-number is shown as not-a-number. -/
theorem roundForDisplay_eq_nan_iff {x : Binary64} : x.roundForDisplay = nan ↔ x = nan := by
  constructor
  · intro h
    cases x with
    | nan => rfl
    | infinite negative => rwa [roundForDisplay_infinite] at h
    | finite negative m =>
      have hfinite := isFinite_roundForDisplay_finite negative m
      rw [h] at hfinite
      cases hfinite
  · rintro rfl
    exact roundForDisplay_nan

/-- Rounding for display keeps the order. -/
theorem roundForDisplay_le_roundForDisplay {x y : Binary64} (h : x ≤ y) :
    x.roundForDisplay ≤ y.roundForDisplay := by
  obtain ⟨hx, hy, hrank⟩ := h
  refine ⟨roundForDisplay_eq_nan_iff.not.mpr hx, roundForDisplay_eq_nan_iff.not.mpr hy, ?_⟩
  have hbound := x.roundForDisplay.natAbs_rank_le
  have hbound' := y.roundForDisplay.natAbs_rank_le
  cases x with
  | nan => exact absurd rfl hx
  | infinite negative =>
    rw [roundForDisplay_infinite]
    cases negative with
    | true =>
      rw [rank, signedInt_true]
      omega
    | false =>
      -- Only the same infinity is as large.
      cases y with
      | nan => exact absurd rfl hy
      | infinite negative' => rwa [roundForDisplay_infinite]
      | finite negative' m' =>
        have hlt := m'.isDouble.1
        have habs := natAbs_signedInt negative' m'.units
        rw [rank, rank, signedInt_false] at hrank
        omega
  | finite negative m =>
    cases y with
    | nan => exact absurd rfl hy
    | infinite negative' =>
      rw [roundForDisplay_infinite]
      cases negative' with
      | true =>
        have hlt := m.isDouble.1
        have habs := natAbs_signedInt negative m.units
        rw [rank, rank, signedInt_true] at hrank
        omega
      | false => exact (le_infinite (roundForDisplay_eq_nan_iff.not.mpr hx)).2.2
    | finite negative' m' =>
      rw [rank_roundForDisplay_finite, rank_roundForDisplay_finite]
      refine (ofRatio_le_ofRatio (by decide) (by decide) ?_).2.2
      refine div_le_div_of_nonneg_right ?_ (by positivity)
      exact_mod_cast shownHundredths_mono hrank

/-- A negative zero is never shown. -/
theorem roundForDisplay_ne_negative_zero (x : Binary64) : x.roundForDisplay ≠ zero true := by
  intro h
  have hbound := maxUnits_add_lt
  cases x with
  | nan => cases h
  | infinite negative =>
    rw [roundForDisplay_infinite] at h
    cases h
  | finite negative m =>
    by_cases hlow : 100 * m.units < overflowBound
    · have hshown := natAbs_displayHundredths_le (n := signedInt negative m.units)
        (by have := natAbs_signedInt negative m.units; omega)
      rw [roundForDisplay_finite hlow, ofRatio] at h
      obtain ⟨f, hf, hfunits⟩ := exists_ofQuotient_eq_finite
        (decide (displayHundredths (signedInt negative m.units) * (unitsPerOne : Int) < 0))
        (by decide : 0 < 100) (Nat.lt_of_le_of_lt hshown (by omega))
      rw [hf, zero, finite.injEq] at h
      obtain ⟨hsign, rfl⟩ := h
      -- A negative number of hundredths is at least one hundredth away from zero.
      have hneg := of_decide_eq_true hsign
      have hwhole : unitsPerOne ∣ (displayHundredths (signedInt negative m.units) *
          (unitsPerOne : Int)).natAbs := by
        rw [natAbs_mul_unitsPerOne]
        exact Nat.dvd_mul_left _ _
      have hone : 1 * 100 ≤ unitsPerOne := hundred_le_unitsPerOne
      have hle := Nat.le_trans hone (Nat.le_of_dvd (by omega) hwhole)
      have hunit := le_roundUnits (Nat.one_dvd 1) (by decide) hle
      rw [← hfunits, Magnitude.units_zero] at hunit
      omega
    · rw [roundForDisplay_of_overflow (Nat.le_of_not_lt hlow), zero, finite.injEq] at h
      rw [h.2, Magnitude.units_zero] at hlow
      omega

/-- Rounding for display never reorders numbers, infinities and both zeros included. It keeps the
finite numbers finite, both infinities and not-a-number, and it never gives a negative zero, so that
no result is written `-0`. -/
theorem roundForDisplay_order :
    (∀ x y : Binary64, x ≤ y → x.roundForDisplay ≤ y.roundForDisplay) ∧
    (∀ x : Binary64, x.roundForDisplay.isFinite = x.isFinite) ∧
    (∀ negative, (infinite negative).roundForDisplay = infinite negative) ∧
    nan.roundForDisplay = nan ∧
    ∀ x : Binary64, x.roundForDisplay ≠ zero true ∧ x.roundForDisplay.plain ≠ "-0" := by
  refine ⟨fun _ _ ↦ roundForDisplay_le_roundForDisplay, isFinite_roundForDisplay,
    roundForDisplay_infinite, roundForDisplay_nan, fun x ↦ ?_⟩
  have hzero := x.roundForDisplay_ne_negative_zero
  exact ⟨hzero, plain_eq_negative_zero_iff.not.mpr hzero⟩

/-- A small negative number and a negative zero, of which neither is shown as a negative zero, and a
number whose hundredths overflow below an infinity. -/
theorem roundForDisplay_order_signs :
    let small : Binary64 := ofFraction true 4 1000
    let large : Binary64 := ofNat (10 ^ (307 : Nat))
    (small ≤ zero true ∧ small.roundForDisplay ≤ (zero true).roundForDisplay) ∧
    (large ≤ infinite false ∧ large.roundForDisplay ≤ (infinite false).roundForDisplay) := by
  intro small large
  have hsmall : small ≤ zero true := le_zero_of_isNegative (isNegative_ofMagnitude? true _)
  have hnumber : ∀ n, ofNat n ≠ nan := fun n ↦ ofQuotient_ne_nan _ _ _
  have hlarge : large ≤ infinite false := le_infinite (hnumber _)
  obtain ⟨horder, -⟩ := roundForDisplay_order
  exact ⟨⟨hsmall, horder small (zero true) hsmall⟩, ⟨hlarge, horder large (infinite false) hlarge⟩⟩

end Binary64

end PocketCalc
