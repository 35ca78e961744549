import Mathlib.Algebra.Order.Field.Basic
import Mathlib.Algebra.Order.Field.Rat
import Mathlib.Algebra.Order.Ring.Abs
import Mathlib.Data.Nat.Cast.Order.Field
import Mathlib.Tactic.FieldSimp
import Mathlib.Tactic.Linarith
import Mathlib.Tactic.Positivity
import Mathlib.Tactic.Ring
import PocketCalc.Binary64.Round

/-!
# The nearest double

`Binary64.IsNearest` says what correct rounding of a rational number is: no double is nearer, of two
equally near ones the last bit is clear, and from half-way between the largest double and the next
power of two on it is an infinity. There is one such double for each number, and it is the one that
`Binary64.ofQuotient` gives (`Binary64.isNearest_ofQuotient`, `Binary64.IsNearest.eq`). Rounding
keeps the order of quotients (`roundUnits_mono`), and with it all that depends on the value alone.
-/

namespace PocketCalc

-- Powers of natural numbers are the core library's here, whatever else is imported.
attribute [local instance (high)] instPowNat

/-! ### The nearest whole number -/

section WholeNumber

variable (num : Nat) {den : Nat}

private theorem cast_div_eq_add (hden : 0 < den) :
    (num : ℚ) / den = (num / den : Nat) + ((num % den : Nat) : ℚ) / den := by
  have hne : (den : ℚ) ≠ 0 := by positivity
  rw [div_eq_iff hne, add_mul, div_mul_cancel₀ _ hne]
  exact_mod_cast (Nat.div_add_mod' num den).symm

private theorem cast_mod_div_lt_one (hden : 0 < den) : ((num % den : Nat) : ℚ) / den < 1 := by
  rw [div_lt_one (by positivity)]
  exact_mod_cast Nat.mod_lt num hden

/-- The nearest whole number is at most one half away from the quotient. -/
theorem abs_divNearestEven_sub_le (hden : 0 < den) :
    |(divNearestEven num den : ℚ) - num / den| ≤ 1 / 2 := by
  have hpos : (0 : ℚ) < den := by positivity
  have hnonneg : (0 : ℚ) ≤ ((num % den : Nat) : ℚ) / den := by positivity
  have hlt := cast_mod_div_lt_one num hden
  rw [cast_div_eq_add num hden, abs_le]
  unfold divNearestEven
  dsimp only
  split
  · next hlow =>
    have hhalf : ((num % den : Nat) : ℚ) / den ≤ 1 / 2 := by
      rw [div_le_div_iff₀ hpos two_pos]
      exact_mod_cast (show num % den * 2 ≤ 1 * den by omega)
    constructor <;> linarith
  · next hhigh =>
    have hhalf : 1 / 2 ≤ ((num % den : Nat) : ℚ) / den := by
      rw [div_le_div_iff₀ two_pos hpos]
      exact_mod_cast (show 1 * den ≤ num % den * 2 by omega)
    push_cast
    constructor <;> linarith

/-- A quotient half-way between two whole numbers goes to the even one. -/
theorem even_divNearestEven (hden : 0 < den)
    (h : |(divNearestEven num den : ℚ) - num / den| = 1 / 2) : divNearestEven num den % 2 = 0 := by
  have hpos : (0 : ℚ) < den := by positivity
  have hnonneg : (0 : ℚ) ≤ ((num % den : Nat) : ℚ) / den := by positivity
  have hlt := cast_mod_div_lt_one num hden
  have hhalf : ((num % den : Nat) : ℚ) / den = 1 / 2 := by
    rw [cast_div_eq_add num hden] at h
    rcases divNearestEven_eq_or num den with heq | heq
    · rw [heq, sub_add_cancel_left, abs_neg, abs_of_nonneg hnonneg] at h
      exact h
    · rw [heq, Nat.cast_add, Nat.cast_one, add_sub_add_left_eq_sub,
        abs_of_pos (by linarith)] at h
      linarith
  have htwice : num % den * 2 = 1 * den := by
    rw [div_eq_div_iff hpos.ne' two_ne_zero] at hhalf
    exact_mod_cast hhalf
  unfold divNearestEven
  dsimp only
  split <;> omega

private theorem one_le_abs_cast_sub {k r : Nat} (h : k ≠ r) : (1 : ℚ) ≤ |(k : ℚ) - r| := by
  exact_mod_cast Int.one_le_abs (z := (k : Int) - r) (by omega)

/-- No whole number is nearer to the quotient. -/
theorem abs_divNearestEven_sub_le_abs_sub (hden : 0 < den) (k : Nat) :
    |(divNearestEven num den : ℚ) - num / den| ≤ |(k : ℚ) - num / den| := by
  by_cases hk : k = divNearestEven num den
  · rw [hk]
  · have hhalf := abs_divNearestEven_sub_le num hden
    have hapart := one_le_abs_cast_sub hk
    have htriangle := abs_sub_le (k : ℚ) (num / den) (divNearestEven num den)
    rw [abs_sub_comm (num / den : ℚ)] at htriangle
    linarith

/-- When another whole number is as near, the one that is taken is even. -/
theorem even_divNearestEven_of_abs_eq (hden : 0 < den) {k : Nat} (hk : k ≠ divNearestEven num den)
    (h : |(k : ℚ) - num / den| = |(divNearestEven num den : ℚ) - num / den|) :
    divNearestEven num den % 2 = 0 := by
  have hapart := one_le_abs_cast_sub hk
  have htriangle := abs_sub_le (k : ℚ) (num / den) (divNearestEven num den)
  rw [abs_sub_comm (num / den : ℚ)] at htriangle
  refine even_divNearestEven num hden (le_antisymm (abs_divNearestEven_sub_le num hden) ?_)
  linarith

end WholeNumber

/-- A larger quotient has no smaller nearest whole number. -/
theorem divNearestEven_mono {num den num' den' : Nat} (hden : 0 < den) (hden' : 0 < den')
    (h : (num : ℚ) / den ≤ (num' : ℚ) / den') :
    divNearestEven num den ≤ divNearestEven num' den' := by
  by_contra hlt
  have hnear := abs_le.mp (abs_divNearestEven_sub_le num hden)
  have hnear' := abs_le.mp (abs_divNearestEven_sub_le num' hden')
  have hnext : (divNearestEven num' den' : ℚ) + 1 ≤ divNearestEven num den := by
    exact_mod_cast (show divNearestEven num' den' + 1 ≤ divNearestEven num den by omega)
  -- Both quotients are half-way between the same two whole numbers, and both of these are even.
  have heven := even_divNearestEven num hden (by rw [abs_eq (by norm_num)]; left; linarith)
  have heven' := even_divNearestEven num' hden' (by rw [abs_eq (by norm_num)]; right; linarith)
  have heq : (divNearestEven num den : ℚ) = (divNearestEven num' den' + 1 : Nat) := by
    push_cast
    linarith
  have hsucc := Nat.cast_injective heq
  omega

/-! ### The nearest number of units -/

section Units

variable {num den num' den' : Nat}

/-- A rounded quotient is not larger than a power of two above the quotient. -/
theorem roundUnits_le_two_pow {e : Nat} (h : num / den < 2 ^ e) : roundUnits num den ≤ 2 ^ e := by
  have hdvd : ulp (num / den) ∣ 2 ^ e := by
    refine Nat.pow_dvd_pow 2 ?_
    by_cases hq : num / den = 0
    · simp [hq]
    · have := (Nat.log2_lt hq).mpr h
      omega
  obtain ⟨k, hk⟩ := hdvd
  have hlt : num / (den * ulp (num / den)) < k := by
    rw [← Nat.div_div_eq_div_mul]
    exact Nat.div_lt_of_lt_mul (hk ▸ h)
  have hle : divNearestEven num (den * ulp (num / den)) ≤ k := by
    rcases divNearestEven_eq_or num (den * ulp (num / den)) with heq | heq <;> omega
  rw [hk, Nat.mul_comm (ulp _)]
  exact Nat.mul_le_mul_right _ hle

/-- A rounded quotient is not smaller than the greatest power of two below the quotient. -/
theorem two_pow_log2_le_roundUnits (h : num / den ≠ 0) :
    2 ^ (num / den).log2 ≤ roundUnits num den := by
  have hdvd : ulp (num / den) ∣ 2 ^ (num / den).log2 := Nat.pow_dvd_pow 2 (Nat.sub_le _ _)
  obtain ⟨k, hk⟩ := hdvd
  have hle : k ≤ num / (den * ulp (num / den)) := by
    rw [← Nat.div_div_eq_div_mul, Nat.le_div_iff_mul_le (ulp_pos _), Nat.mul_comm, ← hk]
    exact Nat.log2_self_le h
  have hge : k ≤ divNearestEven num (den * ulp (num / den)) := by
    rcases divNearestEven_eq_or num (den * ulp (num / den)) with heq | heq <;> omega
  rw [hk, Nat.mul_comm (ulp _)]
  exact Nat.mul_le_mul_right _ hge

private theorem div_le_div_of_cast_div_le (hden : 0 < den) (hden' : 0 < den')
    (h : (num : ℚ) / den ≤ (num' : ℚ) / den') : num / den ≤ num' / den' := by
  rw [div_le_div_iff₀ (by positivity) (by positivity)] at h
  have hmul : num * den' ≤ num' * den := by exact_mod_cast h
  rw [Nat.le_div_iff_mul_le hden']
  refine Nat.le_of_mul_le_mul_right ?_ hden
  calc num / den * den' * den = num / den * den * den' := by ring
    _ ≤ num * den' := Nat.mul_le_mul_right _ (Nat.div_mul_le_self num den)
    _ ≤ num' * den := hmul

/-- Between quotients of different spacing there is a power of two. -/
private theorem log2_lt_log2_of_ulp_ne (h : num / den ≤ num' / den')
    (hstep : ulp (num / den) ≠ ulp (num' / den')) : (num / den).log2 < (num' / den').log2 := by
  refine Nat.lt_of_le_of_ne ?_ fun heq ↦ hstep (by rw [ulp, ulp, heq])
  by_cases hq : num / den = 0
  · simp [hq]
  · have hq' := (Nat.lt_of_lt_of_le (Nat.pos_of_ne_zero hq) h).ne'
    exact (Nat.le_log2 hq').mpr (Nat.le_trans (Nat.log2_self_le hq) h)

/-- A larger quotient has no smaller rounded number of units. -/
theorem roundUnits_mono (hden : 0 < den) (hden' : 0 < den')
    (h : (num : ℚ) / den ≤ (num' : ℚ) / den') : roundUnits num den ≤ roundUnits num' den' := by
  have hquotient := div_le_div_of_cast_div_le hden hden' h
  by_cases hstep : ulp (num / den) = ulp (num' / den')
  · unfold roundUnits
    rw [hstep]
    refine Nat.mul_le_mul_right _ (divNearestEven_mono (Nat.mul_pos hden (ulp_pos _))
      (Nat.mul_pos hden' (ulp_pos _)) ?_)
    rw [Nat.cast_mul, Nat.cast_mul, ← div_div, ← div_div]
    exact div_le_div_of_nonneg_right h (Nat.cast_nonneg _)
  · have hlt := log2_lt_log2_of_ulp_ne hquotient hstep
    have hq' : num' / den' ≠ 0 := by
      intro hzero
      rw [hzero, Nat.log2_zero] at hlt
      exact Nat.not_lt_zero _ hlt
    calc roundUnits num den ≤ 2 ^ ((num / den).log2 + 1) := roundUnits_le_two_pow Nat.lt_log2_self
      _ ≤ 2 ^ (num' / den').log2 := Nat.pow_le_pow_right (by decide) hlt
      _ ≤ roundUnits num' den' := two_pow_log2_le_roundUnits hq'

/-- Equal quotients are rounded to the same number of units. -/
theorem roundUnits_congr (hden : 0 < den) (hden' : 0 < den')
    (h : (num : ℚ) / den = (num' : ℚ) / den') : roundUnits num den = roundUnits num' den' :=
  Nat.le_antisymm (roundUnits_mono hden hden' h.le) (roundUnits_mono hden' hden h.ge)

/-- A double that is not larger than a quotient is not larger than the rounded one. -/
theorem le_roundUnits {d : Nat} (hd : ulp d ∣ d) (hden : 0 < den) (h : d * den ≤ num) :
    d ≤ roundUnits num den := by
  rw [← roundUnits_of_ulp_dvd hd hden]
  exact roundUnits_mono hden hden (div_le_div_of_nonneg_right (by exact_mod_cast h) (by positivity))

private theorem cast_div_mul_ulp (hden : 0 < den) :
    (num : ℚ) / (den * ulp (num / den) : Nat) * ulp (num / den) = num / den := by
  have hstep : (ulp (num / den) : ℚ) ≠ 0 := by
    exact_mod_cast (ulp_pos (num / den)).ne'
  have hne : (den : ℚ) ≠ 0 := by positivity
  push_cast
  field_simp

/-- The distance from a quotient, counted in spacings. -/
private theorem abs_mul_ulp_sub (hden : 0 < den) (k : Nat) :
    |((k * ulp (num / den) : Nat) : ℚ) - num / den| =
      |(k : ℚ) - num / (den * ulp (num / den) : Nat)| * ulp (num / den) := by
  conv_lhs => rw [← cast_div_mul_ulp hden]
  rw [Nat.cast_mul, ← sub_mul, abs_mul, Nat.abs_cast]

/-- No multiple of the spacing is nearer to a quotient than the rounded number of units. -/
private theorem abs_roundUnits_sub_le_mul_ulp (num : Nat) (hden : 0 < den) (k : Nat) :
    |(roundUnits num den : ℚ) - num / den| ≤
      |((k * ulp (num / den) : Nat) : ℚ) - num / den| := by
  rw [roundUnits, abs_mul_ulp_sub hden, abs_mul_ulp_sub hden]
  refine mul_le_mul_of_nonneg_right ?_ (Nat.cast_nonneg _)
  exact abs_divNearestEven_sub_le_abs_sub num (Nat.mul_pos hden (ulp_pos _)) k

/-- What is no multiple of the spacing lies below the power of two under the quotient. -/
private theorem lt_two_pow_log2_of_not_dvd {d : Nat} (hd : ulp d ∣ d) (h : ¬ ulp (num / den) ∣ d) :
    d < 2 ^ (num / den).log2 := by
  by_contra hge
  have hzero : d ≠ 0 := fun heq ↦ h (heq ▸ Nat.dvd_zero _)
  have hlog : (num / den).log2 ≤ d.log2 := (Nat.le_log2 hzero).mpr (Nat.le_of_not_lt hge)
  exact h (Nat.dvd_trans (Nat.pow_dvd_pow 2 (Nat.sub_le_sub_right hlog 52)) hd)

/-- Such a number is farther from the quotient than the rounded one. -/
private theorem abs_roundUnits_sub_lt_of_not_dvd {d : Nat} (hd : ulp d ∣ d) (hden : 0 < den)
    (h : ¬ ulp (num / den) ∣ d) :
    |(roundUnits num den : ℚ) - num / den| < |(d : ℚ) - num / den| := by
  have hlt := lt_two_pow_log2_of_not_dvd hd h
  obtain ⟨k, hk⟩ : ulp (num / den) ∣ 2 ^ (num / den).log2 := Nat.pow_dvd_pow 2 (Nat.sub_le _ _)
  rw [Nat.mul_comm] at hk
  have hq : num / den ≠ 0 := by
    intro hzero
    rw [hzero] at h
    exact h (Nat.one_dvd d)
  have hbelow : ((2 ^ (num / den).log2 : Nat) : ℚ) ≤ num / den := by
    refine le_trans ?_ (Nat.cast_div_le (m := num) (n := den))
    exact_mod_cast Nat.log2_self_le hq
  have hnear := abs_roundUnits_sub_le_mul_ulp num hden k
  rw [← hk] at hnear
  have hcast : (d : ℚ) < (2 ^ (num / den).log2 : Nat) := by exact_mod_cast hlt
  rw [abs_of_nonpos (sub_nonpos.mpr hbelow)] at hnear
  rw [abs_of_nonpos (by linarith : (d : ℚ) - num / den ≤ 0)]
  linarith

/-- No double is nearer to a quotient than the rounded number of units. -/
theorem abs_roundUnits_sub_le {d : Nat} (hd : ulp d ∣ d) (num : Nat) (hden : 0 < den) :
    |(roundUnits num den : ℚ) - num / den| ≤ |(d : ℚ) - num / den| := by
  by_cases hdvd : ulp (num / den) ∣ d
  · obtain ⟨k, hk⟩ := hdvd
    rw [hk, Nat.mul_comm]
    exact abs_roundUnits_sub_le_mul_ulp num hden k
  · exact (abs_roundUnits_sub_lt_of_not_dvd hd hden hdvd).le

/-- Up to a power of two with 53 bits above it, rounding moves a quotient by at most half of the
spacing there. -/
theorem abs_roundUnits_sub_le_two_pow {e : Nat} (hden : 0 < den) (h : num ≤ 2 ^ (53 + e) * den) :
    |(roundUnits num den : ℚ) - num / den| ≤ (2 ^ e : Nat) / 2 := by
  have hpos : 0 < den * 2 ^ e := Nat.mul_pos hden (Nat.two_pow_pos e)
  have hbits : divNearestEven num (den * 2 ^ e) ≤ 2 ^ (53 : Nat) := by
    rw [← divNearestEven_mul (2 ^ (53 : Nat)) hpos]
    refine divNearestEven_mono hpos hpos (div_le_div_of_nonneg_right ?_ (by positivity))
    have hle : num ≤ 2 ^ (53 : Nat) * (den * 2 ^ e) := by
      calc num ≤ 2 ^ (53 + e) * den := h
        _ = 2 ^ (53 : Nat) * (den * 2 ^ e) := by rw [Nat.pow_add]; ring
    exact_mod_cast hle
  have hnear := abs_roundUnits_sub_le (ulp_mul_two_pow_dvd hbits e) num hden
  have hhalf := mul_le_mul_of_nonneg_right (abs_divNearestEven_sub_le num hpos)
    (Nat.cast_nonneg (α := ℚ) (2 ^ e))
  have hscale : (num : ℚ) / (den * 2 ^ e : Nat) * (2 ^ e : Nat) = num / den := by
    have hne : ((2 ^ e : Nat) : ℚ) ≠ 0 := by exact_mod_cast (Nat.two_pow_pos e).ne'
    rw [Nat.cast_mul, div_mul_eq_div_div, div_mul_cancel₀ _ hne]
  rw [← Nat.abs_cast (2 ^ e), ← abs_mul, sub_mul, hscale, ← Nat.cast_mul, Nat.abs_cast] at hhalf
  linarith

/-- When another double is as near, the rounded number of units has a clear last bit. -/
theorem two_mul_ulp_dvd_roundUnits {d : Nat} (hd : ulp d ∣ d) (hden : 0 < den)
    (hne : d ≠ roundUnits num den)
    (h : |(d : ℚ) - num / den| = |(roundUnits num den : ℚ) - num / den|) :
    2 * ulp (roundUnits num den) ∣ roundUnits num den := by
  have hstep := ulp_pos (num / den)
  obtain ⟨k, hk⟩ : ulp (num / den) ∣ d := by
    by_contra hdvd
    exact (abs_roundUnits_sub_lt_of_not_dvd hd hden hdvd).ne' h
  have heven : divNearestEven num (den * ulp (num / den)) % 2 = 0 := by
    rw [hk, Nat.mul_comm, roundUnits, abs_mul_ulp_sub hden, abs_mul_ulp_sub hden] at h
    refine even_divNearestEven_of_abs_eq num (Nat.mul_pos hden hstep) (k := k) ?_
      (mul_right_cancel₀ (by exact_mod_cast hstep.ne') h)
    rintro rfl
    exact hne (by rw [hk, Nat.mul_comm, roundUnits])
  exact two_mul_ulp_mul_two_pow_dvd (divNearestEven_ulp_le num den) heven _

end Units

/-! ### Overflow -/

/-- The largest double, in units. -/
def maxUnits : Nat := 2 ^ (2098 : Nat) - 2 ^ (2045 : Nat)

/-- Half-way between the largest double and the next power of two, in units. -/
def overflowBound : Nat := 2 ^ (2098 : Nat) - 2 ^ (2044 : Nat)

-- The bounds are compared with each other by evaluation and otherwise kept closed.
attribute [local irreducible] unitsPerOne overflowUnits maxUnits overflowBound

/-- The bounds are a power of two and differences of powers of two. -/
private theorem bounds_two_pow :
    overflowUnits = 2 ^ (53 + 2045) ∧ maxUnits + 2 ^ (2045 : Nat) = 2 ^ (53 + 2045) ∧
      overflowBound + 2 ^ (2044 : Nat) = 2 ^ (2098 : Nat) := by
  decide +kernel

/-- How the bounds lie to each other and to the number one. -/
private theorem bounds_compared :
    overflowUnits + maxUnits = 2 * overflowBound ∧ maxUnits + unitsPerOne ≤ overflowBound ∧
      2 ^ (55 : Nat) * unitsPerOne < overflowBound ∧ unitsPerOne ∣ maxUnits ∧
      100 ≤ unitsPerOne := by
  decide +kernel

/-- The bound of overflow is in the middle between the largest double and the next power of two. -/
theorem overflowUnits_add_maxUnits : overflowUnits + maxUnits = 2 * overflowBound :=
  bounds_compared.1

/-- One more than the largest double does not overflow. -/
theorem maxUnits_add_unitsPerOne_le : maxUnits + unitsPerOne ≤ overflowBound :=
  bounds_compared.2.1

/-- No whole number of 55 bits overflows. -/
theorem two_pow_mul_unitsPerOne_lt : 2 ^ (55 : Nat) * unitsPerOne < overflowBound :=
  bounds_compared.2.2.1

/-- The largest double is a whole number. -/
theorem unitsPerOne_dvd_maxUnits : unitsPerOne ∣ maxUnits := bounds_compared.2.2.2.1

/-- A hundredth has a unit. -/
theorem hundred_le_unitsPerOne : 100 ≤ unitsPerOne := bounds_compared.2.2.2.2

/-- The largest double is one. -/
theorem isDouble_maxUnits : IsDouble maxUnits := by decide +kernel

/-- The bound of overflow is rounded to the next power of two. -/
theorem roundUnits_overflowBound : roundUnits (overflowBound * 1) 1 = overflowUnits := by
  decide +kernel

/-- The bound of overflow is past the largest double. -/
theorem maxUnits_lt_overflowBound : maxUnits < overflowBound := by
  have hone := hundred_le_unitsPerOne
  have hle := maxUnits_add_unitsPerOne_le
  omega

/-- The next power of two is past the bound of overflow. -/
theorem overflowBound_lt_overflowUnits : overflowBound < overflowUnits := by
  have hmiddle := overflowUnits_add_maxUnits
  have hlt := maxUnits_lt_overflowBound
  omega

/-- From a power of two on the spacing is at least the one there. -/
theorem two_pow_dvd_ulp {n e : Nat} (h : 2 ^ (52 + e) ≤ n) : 2 ^ e ∣ ulp n := by
  have hzero : n ≠ 0 := (Nat.lt_of_lt_of_le (Nat.two_pow_pos _) h).ne'
  have hlog : 52 + e ≤ n.log2 := (Nat.le_log2 hzero).mpr h
  exact Nat.pow_dvd_pow 2 (by omega)

/-- The doubles below a power of two stay one spacing away from it. -/
theorem add_two_pow_le_of_lt {n e : Nat} (hn : ulp n ∣ n) (h : n < 2 ^ (53 + e)) :
    n + 2 ^ e ≤ 2 ^ (53 + e) := by
  have hsplit : 2 ^ (53 + e) = 2 ^ (52 + e) + 2 ^ (52 + e) := by
    rw [← Nat.two_mul, ← Nat.pow_succ', Nat.succ_eq_add_one]
    congr 1
    omega
  by_cases hlow : n < 2 ^ (52 + e)
  · have hle : 2 ^ e ≤ 2 ^ (52 + e) := Nat.pow_le_pow_right (by decide) (by omega)
    omega
  · have hspacing := Nat.dvd_trans (two_pow_dvd_ulp (Nat.le_of_not_lt hlow)) hn
    have hpower : 2 ^ e ∣ 2 ^ (53 + e) := Nat.pow_dvd_pow 2 (by omega)
    by_contra hbetween
    exact absurd (Nat.le_of_lt_add_of_dvd (Nat.lt_of_not_le hbetween) hpower hspacing)
      (Nat.not_le_of_lt h)

/-- No double is larger than the largest one. -/
theorem Magnitude.units_le (m : Magnitude) : m.units ≤ maxUnits := by
  obtain ⟨e, he⟩ : ∃ e, e = 2045 := ⟨_, rfl⟩
  obtain ⟨hbelow, hsum, -⟩ := bounds_two_pow
  rw [← he] at hbelow hsum
  have hle := add_two_pow_le_of_lt m.isDouble.2 (hbelow ▸ m.isDouble.1)
  exact Nat.le_of_add_le_add_right (Nat.le_trans hle hsum.ge)

/-- A quotient overflows from half-way between the largest double and the next power of two on. -/
theorem overflowUnits_le_roundUnits_iff {num den : Nat} (hden : 0 < den) :
    overflowUnits ≤ roundUnits num den ↔ overflowBound * den ≤ num := by
  have hpos : (0 : ℚ) < den := by positivity
  constructor
  · intro h
    by_contra hlt
    have hcast : (num : ℚ) / den < overflowBound := by
      rw [div_lt_iff₀ hpos]
      exact_mod_cast Nat.lt_of_not_le hlt
    have hover : (overflowUnits : ℚ) ≤ roundUnits num den := by exact_mod_cast h
    have hmax : (maxUnits : ℚ) < overflowBound := by exact_mod_cast maxUnits_lt_overflowBound
    have hmiddle : (overflowUnits : ℚ) + maxUnits = 2 * overflowBound := by
      exact_mod_cast overflowUnits_add_maxUnits
    -- The largest double would be nearer.
    have hnear := abs_roundUnits_sub_le isDouble_maxUnits.2 num hden
    have hleft := le_trans (le_abs_self _) hnear
    rcases abs_cases ((maxUnits : ℚ) - num / den) with ⟨habs, -⟩ | ⟨habs, -⟩ <;> linarith
  · intro h
    rw [← roundUnits_overflowBound]
    refine roundUnits_mono Nat.one_pos hden ?_
    rw [Nat.cast_one, div_one, le_div_iff₀ hpos]
    exact_mod_cast (Nat.mul_one overflowBound).symm ▸ h

/-! ### Correct rounding -/

/-- From this number on, half-way between the largest double and the next power of two, the nearest
double is an infinity. -/
def overflowThreshold : ℚ := 2 ^ 1024 - 2 ^ 970

/-- There are units in the number one. -/
theorem unitsPerOne_pos : 0 < unitsPerOne := by
  unfold unitsPerOne
  exact Nat.two_pow_pos _

/-- There are units in the number one, counted as a rational number. -/
theorem cast_unitsPerOne_pos : (0 : ℚ) < unitsPerOne := by exact_mod_cast unitsPerOne_pos

/-- There are units in the number one, counted as an integer. -/
theorem intCast_unitsPerOne_pos : (0 : Int) < unitsPerOne := by exact_mod_cast unitsPerOne_pos

private theorem cast_two_pow (n : Nat) : ((2 ^ n : Nat) : ℚ) = 2 ^ n := Nat.cast_pow 2 n

/-- The overflow threshold is the bound that is counted in units. -/
theorem overflowThreshold_mul_unitsPerOne :
    overflowThreshold * unitsPerOne = (overflowBound : ℚ) := by
  have hunits : (unitsPerOne : ℚ) = 2 ^ 1074 := by
    rw [← cast_two_pow]
    unfold unitsPerOne unitPlaces
    rfl
  have hbound : (overflowBound : ℚ) + 2 ^ 2044 = 2 ^ 2098 := by
    rw [← cast_two_pow, ← cast_two_pow, ← Nat.cast_add]
    exact congrArg Nat.cast bounds_two_pow.2.2
  rw [overflowThreshold, hunits, sub_mul, ← pow_add, ← pow_add]
  exact (eq_sub_of_add_eq hbound).symm

namespace Magnitude

/-- The number that a magnitude is. -/
def value (m : Magnitude) : ℚ := m.units / unitsPerOne

/-- No magnitude is nearer to the number, and if another one is as near, the last bit is clear. -/
structure IsNearest (m : Magnitude) (q : ℚ) : Prop where
  le : ∀ other : Magnitude, |m.value - q| ≤ |other.value - q|
  even : ∀ other : Magnitude, other ≠ m → |other.value - q| = |m.value - q| →
    2 * ulp m.units ∣ m.units

/-- Magnitudes are ordered like their numbers of units. -/
theorem value_lt_value {m other : Magnitude} (h : m.units < other.units) :
    m.value < other.value :=
  div_lt_div_of_pos_right (by exact_mod_cast h) cast_unitsPerOne_pos

private theorem abs_value_sub (m : Magnitude) (x : ℚ) :
    |m.value - x / unitsPerOne| = |(m.units : ℚ) - x| / unitsPerOne := by
  rw [value, ← sub_div, abs_div, abs_of_pos cast_unitsPerOne_pos]

/-- The rounded magnitude is nearest to the quotient. -/
theorem isNearest_of_nearest?_eq_some {num den : Nat} (hden : 0 < den) {m : Magnitude}
    (h : nearest? num den = some m) : m.IsNearest (num / den / unitsPerOne) := by
  have hunits := units_of_nearest?_eq_some h
  constructor
  · intro other
    rw [abs_value_sub, abs_value_sub, hunits]
    exact div_le_div_of_nonneg_right (abs_roundUnits_sub_le other.isDouble.2 num hden)
      cast_unitsPerOne_pos.le
  · intro other hne hequal
    rw [abs_value_sub, abs_value_sub, div_left_inj' cast_unitsPerOne_pos.ne', hunits] at hequal
    rw [hunits]
    refine two_mul_ulp_dvd_roundUnits other.isDouble.2 hden (fun heq ↦ hne (ext ?_)) hequal
    rw [heq, hunits]

/-- Above a magnitude that is not the largest there is a next one, one spacing away. -/
theorem exists_units_eq_add_ulp {m other : Magnitude} (h : m.units < other.units) :
    ∃ next : Magnitude, next.units = m.units + ulp m.units ∧ next.units ≤ other.units := by
  have hdvd : ulp m.units ∣ other.units := Nat.dvd_trans (ulp_dvd_ulp h.le) other.isDouble.2
  have hle : m.units + ulp m.units ≤ other.units := by
    by_contra hbetween
    exact absurd (Nat.le_of_lt_add_of_dvd (Nat.lt_of_not_le hbetween) hdvd m.isDouble.2)
      (Nat.not_le_of_lt h)
  obtain ⟨k, hk⟩ := m.isDouble.2
  have hbits : k + 1 ≤ 2 ^ (53 : Nat) := by
    have hlt := div_ulp_lt m.units
    rwa [Nat.div_eq_of_eq_mul_right (ulp_pos _) hk] at hlt
  have hsum : m.units + ulp m.units = (k + 1) * ulp m.units := by
    rw [Nat.add_mul, Nat.one_mul, Nat.mul_comm k, ← hk]
  have hdouble : ulp (m.units + ulp m.units) ∣ m.units + ulp m.units := by
    rw [hsum]
    exact ulp_mul_two_pow_dvd hbits _
  exact ⟨⟨_, Nat.lt_of_le_of_lt hle other.isDouble.1, hdouble⟩, rfl, hle⟩

private theorem abs_sub_lt_of_between {a b c q : ℚ} (hac : a < c) (hcb : c < b)
    (h : |b - q| = |a - q|) : |c - q| < |a - q| := by
  rcases abs_cases (a - q) with ⟨ha, ha'⟩ | ⟨ha, ha'⟩ <;>
    rcases abs_cases (b - q) with ⟨hb, hb'⟩ | ⟨hb, hb'⟩ <;>
    rcases abs_cases (c - q) with ⟨hc, hc'⟩ | ⟨hc, hc'⟩ <;> linarith

/-- Of two nearest magnitudes the smaller one and the next one would both have a clear last bit. -/
private theorem IsNearest.not_units_lt {m other : Magnitude} {q : ℚ} (hm : m.IsNearest q)
    (hother : other.IsNearest q) : ¬ m.units < other.units := by
  intro hlt
  have hne : other ≠ m := fun heq ↦ hlt.ne (congrArg units heq.symm)
  have hequal : |other.value - q| = |m.value - q| := le_antisymm (hother.le m) (hm.le other)
  obtain ⟨next, hnext, hle⟩ := exists_units_eq_add_ulp hlt
  rcases Nat.lt_or_eq_of_le hle with hbetween | heq
  · have hstep : m.units < next.units := hnext ▸ Nat.lt_add_of_pos_right (ulp_pos _)
    have hnearer := abs_sub_lt_of_between (value_lt_value hstep) (value_lt_value hbetween) hequal
    exact absurd (hm.le next) (not_le.mpr hnearer)
  · have hclear := hm.even other hne hequal
    have hclear' : 2 * ulp m.units ∣ m.units + ulp m.units := by
      rw [← hnext, heq]
      exact Nat.dvd_trans (Nat.mul_dvd_mul_left 2 (ulp_dvd_ulp hlt.le))
        (hother.even m hne.symm hequal.symm)
    have := Nat.le_of_dvd (ulp_pos _) ((Nat.dvd_add_right hclear).mp hclear')
    have := ulp_pos m.units
    omega

/-- There is only one nearest magnitude. -/
theorem IsNearest.eq {m other : Magnitude} {q : ℚ} (hm : m.IsNearest q)
    (hother : other.IsNearest q) : m = other := by
  have := hm.not_units_lt hother
  have := hother.not_units_lt hm
  exact ext (by omega)

end Magnitude

namespace Binary64

/-- Correct rounding: the double nearest to a number, with ties to the one whose last bit is clear,
and an infinity from the threshold of overflow on. Zero is read without sign. -/
def IsNearest (q : ℚ) : Binary64 → Prop
  | nan => False
  | infinite negative => negative = decide (q < 0) ∧ overflowThreshold ≤ |q|
  | finite negative magnitude =>
    negative = decide (q < 0) ∧ |q| < overflowThreshold ∧ magnitude.IsNearest |q|

/-- There is only one nearest double. -/
theorem IsNearest.eq {q : ℚ} {x y : Binary64} (hx : x.IsNearest q) (hy : y.IsNearest q) :
    x = y := by
  cases x with
  | nan => exact hx.elim
  | infinite negative =>
    cases y with
    | nan => exact hy.elim
    | infinite negative' => rw [hx.1, hy.1]
    | finite negative' magnitude' => exact absurd hy.2.1 (not_lt.mpr hx.2)
  | finite negative magnitude =>
    cases y with
    | nan => exact hy.elim
    | infinite negative' => exact absurd hx.2.1 (not_lt.mpr hy.2)
    | finite negative' magnitude' => rw [hx.1, hy.1, hx.2.2.eq hy.2.2]

/-- A rounded quotient of units is the nearest double. -/
theorem isNearest_ofQuotient {q : ℚ} {num den : Nat} (hden : 0 < den)
    (h : |q| = num / den / unitsPerOne) : (ofQuotient (decide (q < 0)) num den).IsNearest q := by
  have hoverflow : overflowThreshold ≤ |q| ↔ Magnitude.nearest? num den = none := by
    have hpos : (0 : ℚ) < den := by positivity
    rw [Magnitude.nearest?_eq_none_iff, overflowUnits_le_roundUnits_iff hden, h,
      le_div_iff₀ cast_unitsPerOne_pos, overflowThreshold_mul_unitsPerOne, le_div_iff₀ hpos,
      ← Nat.cast_mul, Nat.cast_le]
  unfold ofQuotient
  cases hnearest : Magnitude.nearest? num den with
  | none => exact ⟨rfl, hoverflow.mpr hnearest⟩
  | some m =>
    refine ⟨rfl, ?_, ?_⟩
    · rw [← not_le, hoverflow, hnearest]
      simp
    · rw [h]
      exact Magnitude.isNearest_of_nearest?_eq_some hden hnearest

/-- The double nearest to a fraction. -/
theorem isNearest_ofFraction {q : ℚ} {num den : Nat} (hden : 0 < den) (h : |q| = num / den) :
    (ofFraction (decide (q < 0)) num den).IsNearest q := by
  refine isNearest_ofQuotient hden ?_
  rw [h, Nat.cast_mul, mul_div_right_comm, mul_div_cancel_right₀ _ cast_unitsPerOne_pos.ne']

/-- The double nearest to a fraction that is not negative. -/
theorem isNearest_ofFraction_false (num : Nat) {den : Nat} (hden : 0 < den) :
    (ofFraction false num den).IsNearest (num / den) := by
  have hnonneg : (0 : ℚ) ≤ num / den := by positivity
  have hnear := isNearest_ofFraction hden (abs_of_nonneg hnonneg)
  rwa [decide_eq_false (not_lt.mpr hnonneg)] at hnear

end Binary64

end PocketCalc
