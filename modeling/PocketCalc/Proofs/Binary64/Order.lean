import PocketCalc.Proofs.Binary64.Nearest

/-!
# The order of doubles

Numbers are ordered by their signed units, the infinities standing past all of them
(`Binary64.rank`); both zeros have the same rank, and not-a-number is not compared. A signed
quotient of units is rounded by `Binary64.ofRatio`, which keeps the order
(`Binary64.ofRatio_le_ofRatio`); so does correct rounding (`Binary64.IsNearest.le_of_le`).
-/

namespace PocketCalc

-- Powers of natural numbers are the core library's here, whatever else is imported.
attribute [local instance (high)] instPowNat

-- The bounds are compared with each other by evaluation and otherwise kept closed.
attribute [local irreducible] unitsPerOne overflowUnits maxUnits overflowBound

/-! ### Signed quotients of units -/

/-- The signed number of units that a signed quotient is rounded to, whether it overflows or not. -/
def roundRatio (num : Int) (den : Nat) : Int :=
  signedInt (decide (num < 0)) (roundUnits num.natAbs den)

/-- No units are rounded to none. -/
theorem roundUnits_zero {den : Nat} (hden : 0 < den) : roundUnits 0 den = 0 := by
  have h := roundUnits_of_ulp_dvd (Nat.dvd_zero (ulp 0)) hden
  rwa [Nat.zero_mul] at h

/-- What is not negative is rounded without sign. -/
theorem roundRatio_natCast (num den : Nat) : roundRatio num den = roundUnits num den := by
  simp [roundRatio, signedInt]

/-- Rounding is symmetric. -/
theorem roundRatio_neg (num : Int) {den : Nat} (hden : 0 < den) :
    roundRatio (-num) den = -roundRatio num den := by
  rcases lt_trichotomy num 0 with h | rfl | h
  · simp [roundRatio, signedInt, h, h.le]
  · simp [roundRatio, signedInt, roundUnits_zero hden]
  · simp [roundRatio, signedInt, h, h.le]

/-- The sign of zero units does not matter. -/
theorem signedInt_roundUnits (negative : Bool) (n : Nat) {den : Nat} (hden : 0 < den) :
    signedInt negative (roundUnits n den) = roundRatio (signedInt negative n) den := by
  cases negative with
  | false => exact (roundRatio_natCast n den).symm
  | true =>
    rw [signedInt_true, signedInt_true, roundRatio_neg _ hden, roundRatio_natCast]

/-- What is not negative is rounded to what is not negative. -/
theorem roundRatio_nonneg {num : Int} (h : 0 ≤ num) (den : Nat) : 0 ≤ roundRatio num den := by
  obtain ⟨n, rfl⟩ := Int.eq_ofNat_of_zero_le h
  rw [roundRatio_natCast]
  exact Int.natCast_nonneg _

/-- What is negative is rounded to what is not positive. -/
theorem roundRatio_nonpos {num : Int} (h : num < 0) (den : Nat) : roundRatio num den ≤ 0 := by
  simp [roundRatio, signedInt, h]

/-- A larger quotient has no smaller rounded number of units. -/
theorem roundRatio_mono {num num' : Int} {den den' : Nat} (hden : 0 < den) (hden' : 0 < den')
    (h : (num : ℚ) / den ≤ (num' : ℚ) / den') : roundRatio num den ≤ roundRatio num' den' := by
  have hpos : (0 : ℚ) < den := by positivity
  have hpos' : (0 : ℚ) < den' := by positivity
  have hkeeps {n n' d d' : Nat} (hd : 0 < d) (hd' : 0 < d') (hle : (n : ℚ) / d ≤ (n' : ℚ) / d') :
      roundRatio n d ≤ roundRatio n' d' := by
    rw [roundRatio_natCast, roundRatio_natCast]
    exact Int.ofNat_le.mpr (roundUnits_mono hd hd' hle)
  have hcross : num * den' ≤ num' * den := by
    rw [div_le_div_iff₀ hpos hpos'] at h
    exact_mod_cast h
  rcases lt_or_ge num 0 with hnum | hnum
  · rcases lt_or_ge num' 0 with hnum' | hnum'
    · -- Both are negative, so their absolute values are the other way round.
      obtain ⟨n, hn⟩ := Int.eq_ofNat_of_zero_le (a := -num) (by omega)
      obtain ⟨n', hn'⟩ := Int.eq_ofNat_of_zero_le (a := -num') (by omega)
      obtain rfl : num = -(n : Int) := by omega
      obtain rfl : num' = -(n' : Int) := by omega
      rw [roundRatio_neg _ hden, roundRatio_neg _ hden']
      refine Int.neg_le_neg (hkeeps hden' hden ?_)
      push_cast [neg_div] at h
      linarith
    · exact (roundRatio_nonpos hnum den).trans (roundRatio_nonneg hnum' den')
  · have hnum' : 0 ≤ num' := by
      by_contra hneg
      have hleft : 0 ≤ num * den' := by positivity
      have hright : num' * den < 0 := Int.mul_neg_of_neg_of_pos (by omega) (by omega)
      omega
    obtain ⟨n, rfl⟩ := Int.eq_ofNat_of_zero_le hnum
    obtain ⟨n', rfl⟩ := Int.eq_ofNat_of_zero_le hnum'
    rw [Int.cast_natCast, Int.cast_natCast] at h
    exact hkeeps hden hden' h

/-- A signed number of units with at most 53 significant bits is rounded to itself. -/
theorem roundRatio_of_ulp_dvd {d : Int} (hd : ulp d.natAbs ∣ d.natAbs) {den : Nat}
    (hden : 0 < den) : roundRatio (d * den) den = d := by
  have hround := roundUnits_of_ulp_dvd hd hden
  rcases d.natAbs_eq with heq | heq
  · rw [heq, ← Int.natCast_mul, roundRatio_natCast, hround]
  · rw [heq, Int.neg_mul, ← Int.natCast_mul, roundRatio_neg _ hden, roundRatio_natCast, hround]

/-! Rounding a whole number of units. -/

/-- A larger number of units is not rounded to a smaller one. -/
theorem roundRatio_one_mono {n n' : Int} (h : n ≤ n') : roundRatio n 1 ≤ roundRatio n' 1 :=
  roundRatio_mono Nat.one_pos Nat.one_pos
    (div_le_div_of_nonneg_right (by exact_mod_cast h) (by positivity))

/-- A signed double is rounded to itself. -/
theorem roundRatio_one_of_ulp_dvd {d : Int} (hd : ulp d.natAbs ∣ d.natAbs) :
    roundRatio d 1 = d := by
  have hround := roundRatio_of_ulp_dvd hd Nat.one_pos
  rwa [Nat.cast_one, Int.mul_one] at hround

/-- A double that is not larger than a number of units is not larger than the rounded one. -/
theorem le_roundRatio_one {d n : Int} (hd : ulp d.natAbs ∣ d.natAbs) (h : d ≤ n) :
    d ≤ roundRatio n 1 := by
  rw [← roundRatio_one_of_ulp_dvd hd]
  exact roundRatio_one_mono h

/-- A double that is not smaller than a number of units is not smaller than the rounded one. -/
theorem roundRatio_one_le {d n : Int} (hd : ulp d.natAbs ∣ d.natAbs) (h : n ≤ d) :
    roundRatio n 1 ≤ d := by
  rw [← roundRatio_one_of_ulp_dvd hd]
  exact roundRatio_one_mono h

/-- What holds of a quotient that is not negative, and of its opposite, holds of every quotient. -/
private theorem forall_signed {motive : Int → Int → Prop}
    (hneg : ∀ num d, motive (-num) (-d) → motive num d) (hnat : ∀ (n : Nat) d, motive n d)
    (num d : Int) : motive num d := by
  obtain ⟨n, rfl | rfl⟩ := num.eq_nat_or_neg
  · exact hnat n d
  · exact hneg _ d (by rw [Int.neg_neg]; exact hnat n (-d))

/-- What is negative is farther from a quotient that is not than zero is, and zero is a double. -/
private theorem abs_roundUnits_sub_lt_of_neg {d : Int} (h : d < 0) (n : Nat) {den : Nat}
    (hden : 0 < den) : |(roundUnits n den : ℚ) - n / den| < |(d : ℚ) - n / den| := by
  have hnonneg : (0 : ℚ) ≤ (n : ℚ) / den := by positivity
  have hzero := abs_roundUnits_sub_le (Nat.dvd_zero (ulp 0)) n hden
  have hcast : (d : ℚ) < 0 := by exact_mod_cast h
  rw [Nat.cast_zero, zero_sub, abs_neg, abs_of_nonneg hnonneg] at hzero
  rw [abs_of_neg (by linarith : (d : ℚ) - n / den < 0)]
  linarith

/-- No signed double is nearer to a quotient than the rounded one. -/
theorem abs_roundRatio_sub_le {d : Int} (hd : ulp d.natAbs ∣ d.natAbs) (num : Int) {den : Nat}
    (hden : 0 < den) : |(roundRatio num den : ℚ) - num / den| ≤ |(d : ℚ) - num / den| := by
  revert hd
  refine forall_signed (motive := fun num d ↦ ulp d.natAbs ∣ d.natAbs →
    |(roundRatio num den : ℚ) - num / den| ≤ |(d : ℚ) - num / den|) ?_ ?_ num d
  · intro num d h hd
    have hle := h (by rwa [Int.natAbs_neg])
    rw [roundRatio_neg _ hden] at hle
    push_cast at hle
    rwa [neg_div, sub_neg_eq_add, neg_add_eq_sub, sub_neg_eq_add, neg_add_eq_sub, abs_sub_comm,
      abs_sub_comm (num / den : ℚ)] at hle
  · intro n d hd
    rw [roundRatio_natCast, Int.cast_natCast, Int.cast_natCast]
    rcases lt_or_ge d 0 with hsign | hsign
    · exact (abs_roundUnits_sub_lt_of_neg hsign n hden).le
    · obtain ⟨k, rfl⟩ := Int.eq_ofNat_of_zero_le hsign
      rw [Int.cast_natCast]
      exact abs_roundUnits_sub_le hd n hden

/-- When another signed double is as near, the rounded one has a clear last bit. -/
theorem two_mul_ulp_dvd_roundRatio {d : Int} (hd : ulp d.natAbs ∣ d.natAbs) {num : Int} {den : Nat}
    (hden : 0 < den) (hne : d ≠ roundRatio num den)
    (h : |(d : ℚ) - num / den| = |(roundRatio num den : ℚ) - num / den|) :
    2 * ulp (roundRatio num den).natAbs ∣ (roundRatio num den).natAbs := by
  revert hd hne h
  refine forall_signed (motive := fun num d ↦ ulp d.natAbs ∣ d.natAbs → d ≠ roundRatio num den →
    |(d : ℚ) - num / den| = |(roundRatio num den : ℚ) - num / den| →
    2 * ulp (roundRatio num den).natAbs ∣ (roundRatio num den).natAbs) ?_ ?_ num d
  · intro num d h hd hne hequal
    rw [roundRatio_neg _ hden] at h
    rw [← Int.natAbs_neg]
    refine h (by rwa [Int.natAbs_neg]) (fun heq ↦ hne (Int.neg_inj.mp heq)) ?_
    push_cast
    rwa [neg_div, sub_neg_eq_add, neg_add_eq_sub, sub_neg_eq_add, neg_add_eq_sub, abs_sub_comm,
      abs_sub_comm (num / den : ℚ)]
  · intro n d hd hne hequal
    rw [roundRatio_natCast, Int.cast_natCast, Int.cast_natCast] at hequal
    rw [roundRatio_natCast] at hne ⊢
    rcases lt_or_ge d 0 with hsign | hsign
    · exact absurd hequal (abs_roundUnits_sub_lt_of_neg hsign n hden).ne'
    · obtain ⟨k, rfl⟩ := Int.eq_ofNat_of_zero_le hsign
      rw [Int.cast_natCast] at hequal
      exact two_mul_ulp_dvd_roundUnits hd hden (fun heq ↦ hne (congrArg Nat.cast heq)) hequal

/-- Up to a power of two with 53 bits above it, rounding moves a quotient by at most half of the
spacing there. -/
theorem abs_roundRatio_sub_le_two_pow {num : Int} {den e : Nat} (hden : 0 < den)
    (h : num.natAbs ≤ 2 ^ (53 + e) * den) :
    |(roundRatio num den : ℚ) - num / den| ≤ (2 ^ e : Nat) / 2 := by
  have hnat := abs_roundUnits_sub_le_two_pow hden h
  obtain ⟨n, rfl | rfl⟩ := num.eq_nat_or_neg
  · rw [Int.natAbs_natCast] at hnat
    rwa [roundRatio_natCast, Int.cast_natCast, Int.cast_natCast]
  · rw [Int.natAbs_neg, Int.natAbs_natCast] at hnat
    rw [roundRatio_neg _ hden, roundRatio_natCast]
    push_cast at hnat ⊢
    rwa [neg_div, sub_neg_eq_add, neg_add_eq_sub, abs_sub_comm]

/-- Rounding overflows from half-way between the largest double and the next power of two on. -/
theorem natAbs_roundRatio_lt_iff {num : Int} {den : Nat} (hden : 0 < den) :
    (roundRatio num den).natAbs < overflowUnits ↔ num.natAbs < overflowBound * den := by
  rw [roundRatio, natAbs_signedInt, ← Nat.not_le, overflowUnits_le_roundUnits_iff hden, Nat.not_le]

namespace Binary64

/-- The double nearest to a signed quotient of units; zero has no sign. -/
def ofRatio (num : Int) (den : Nat) : Binary64 := ofQuotient (decide (num < 0)) num.natAbs den

/-! ### The order -/

/-- Signed units, an infinity having as many as the first power of two past the largest double.
Not-a-number has no place in the order. -/
def rank : Binary64 → Int
  | nan => 0
  | infinite negative => signedInt negative overflowUnits
  | finite negative magnitude => signedInt negative magnitude.units

/-- The order of all doubles but not-a-number, in which both zeros are equal. -/
instance : LE Binary64 where le x y := x ≠ nan ∧ y ≠ nan ∧ x.rank ≤ y.rank

/-- The order is decided by comparing ranks. -/
instance (x y : Binary64) : Decidable (x ≤ y) := inferInstanceAs (Decidable (_ ∧ _ ∧ _))

/-- A rounded signed quotient of units is the nearest double. -/
theorem isNearest_ofRatio (num : Int) {den : Nat} (hden : 0 < den) :
    (ofRatio num den).IsNearest (num / den / unitsPerOne) := by
  have hpos : (0 : ℚ) < den := by positivity
  have hunits := cast_unitsPerOne_pos
  have hsign : ((num : ℚ) / den / unitsPerOne < 0) ↔ num < 0 := by
    rw [div_lt_iff₀ hunits, zero_mul, div_lt_iff₀ hpos, zero_mul, Int.cast_lt_zero]
  unfold ofRatio
  rw [← decide_eq_decide.mpr hsign]
  refine isNearest_ofQuotient hden ?_
  rw [abs_div, abs_div, abs_of_pos hunits, abs_of_pos hpos, Nat.cast_natAbs, Int.cast_abs]

/-- Equal quotients are rounded to the same double. -/
theorem ofQuotient_congr (negative : Bool) {num den num' den' : Nat} (hden : 0 < den)
    (hden' : 0 < den') (h : (num : ℚ) / den = (num' : ℚ) / den') :
    ofQuotient negative num den = ofQuotient negative num' den' := by
  simp only [ofQuotient, Magnitude.nearest?, roundUnits_congr hden hden' h]

/-- A quotient that does not overflow is rounded to a finite double. -/
theorem exists_ofQuotient_eq_finite (negative : Bool) {num den : Nat} (hden : 0 < den)
    (h : num < overflowBound * den) :
    ∃ m, ofQuotient negative num den = finite negative m ∧ m.units = roundUnits num den := by
  have hlt : roundUnits num den < overflowUnits := by
    rw [← Nat.not_le, overflowUnits_le_roundUnits_iff hden]
    exact Nat.not_le_of_lt h
  exact ⟨_, by rw [ofQuotient, Magnitude.nearest?, dif_pos hlt, ofMagnitude?], rfl⟩

/-- Exactly the quotients below the overflow bound are rounded to finite doubles. -/
theorem isFinite_ofQuotient_iff (negative : Bool) {num den : Nat} (hden : 0 < den) :
    (ofQuotient negative num den).isFinite = true ↔ num < overflowBound * den := by
  constructor
  · intro h
    by_contra hover
    have hnone : Magnitude.nearest? num den = none :=
      Magnitude.nearest?_eq_none_iff.mpr
        ((overflowUnits_le_roundUnits_iff hden).mpr (Nat.le_of_not_lt hover))
    rw [ofQuotient, hnone] at h
    cases h
  · intro h
    obtain ⟨m, hm, -⟩ := exists_ofQuotient_eq_finite negative hden h
    rw [hm, isFinite]

/-- A rounded quotient is a number. -/
theorem ofQuotient_ne_nan (negative : Bool) (num den : Nat) :
    ofQuotient negative num den ≠ nan := by
  unfold ofQuotient
  cases Magnitude.nearest? num den <;> simp [ofMagnitude?]

/-- The rank of a rounded quotient is its rounded number of units, cut off at the infinities. -/
theorem rank_ofRatio (num : Int) (den : Nat) :
    (ofRatio num den).rank =
      max (-(overflowUnits : Int)) (min (roundRatio num den) overflowUnits) := by
  unfold ofRatio ofQuotient roundRatio
  cases hnearest : Magnitude.nearest? num.natAbs den with
  | none =>
    have hover := Magnitude.nearest?_eq_none_iff.mp hnearest
    cases decide (num < 0) <;> simp only [ofMagnitude?, rank, signedInt_false, signedInt_true] <;>
      omega
  | some m =>
    have hunits := Magnitude.units_of_nearest?_eq_some hnearest
    have hlt := m.isDouble.1
    rw [← hunits]
    cases decide (num < 0) <;> simp only [ofMagnitude?, rank, signedInt_false, signedInt_true] <;>
      omega

/-- Rounding keeps the order. -/
theorem ofRatio_le_ofRatio {num num' : Int} {den den' : Nat} (hden : 0 < den) (hden' : 0 < den')
    (h : (num : ℚ) / den ≤ (num' : ℚ) / den') : ofRatio num den ≤ ofRatio num' den' := by
  refine ⟨ofQuotient_ne_nan _ _ _, ofQuotient_ne_nan _ _ _, ?_⟩
  have hmono := roundRatio_mono hden hden' h
  rw [rank_ofRatio, rank_ofRatio]
  omega

/-- A fraction is rounded to the nearest double. -/
theorem isNearest_ofRatio_mul_unitsPerOne (num : Int) {den : Nat} (hden : 0 < den) :
    (ofRatio (num * unitsPerOne) den).IsNearest (num / den) := by
  have hnear := isNearest_ofRatio (num * unitsPerOne) hden
  rwa [Int.cast_mul, Int.cast_natCast, mul_div_right_comm,
    mul_div_cancel_right₀ _ cast_unitsPerOne_pos.ne'] at hnear

/-- The double nearest to a larger number is not smaller. -/
theorem IsNearest.le_of_le {q q' : ℚ} {x y : Binary64} (hx : x.IsNearest q) (hy : y.IsNearest q')
    (h : q ≤ q') : x ≤ y := by
  have hnear := isNearest_ofRatio_mul_unitsPerOne q.num q.den_pos
  have hnear' := isNearest_ofRatio_mul_unitsPerOne q'.num q'.den_pos
  rw [Rat.num_div_den] at hnear hnear'
  rw [hx.eq hnear, hy.eq hnear']
  refine ofRatio_le_ofRatio q.den_pos q'.den_pos ?_
  rw [Int.cast_mul, Int.cast_mul, mul_div_right_comm, mul_div_right_comm, Rat.num_div_den,
    Rat.num_div_den]
  exact mul_le_mul_of_nonneg_right h (by positivity)

end Binary64

end PocketCalc
