/-!
# Calculation modes

A mode says how percent signs are read and whether the final result is rounded. Both settings are
bits of one byte. Their masks have no bit in common, so that writing one setting does not touch the
other (`Mode.contains_set`).
-/

namespace PocketCalc

/-- How percent signs are read. -/
inductive PercentPolicy where
  /-- A share of the running total, or a plain fraction before a multiplication or division. -/
  | contextual
  /-- The remainder of a division. -/
  | remainder
deriving DecidableEq, Repr

/-- The settings that are on or off. -/
inductive Flag where
  /-- Percent signs are remainders. -/
  | remainder
  /-- The final result is not rounded. -/
  | raw
deriving DecidableEq, Repr

namespace Flag

/-- The bit of a flag. -/
def mask : Flag → UInt8
  | remainder => 0b0001
  | raw => 0b0010

/-- Every flag has a bit. -/
theorem mask_ne_zero (f : Flag) : f.mask ≠ 0 := by
  cases f <;> decide

/-- Different flags have no bit in common. -/
theorem mask_and_mask {f g : Flag} (h : f ≠ g) : f.mask &&& g.mask = 0 := by
  revert h
  cases f <;> cases g <;> decide

end Flag

/-- The settings of a calculation as the bits that are set (`CalculationMode`); at first percent
signs are contextual and results are rounded. -/
structure Mode where
  bits : UInt8 := 0
deriving DecidableEq, Repr

namespace Mode

/-- Whether a flag is on. -/
def contains (m : Mode) (f : Flag) : Bool := m.bits &&& f.mask == f.mask

/-- The mode with a flag switched on or off. -/
def set (m : Mode) (f : Flag) (on : Bool) : Mode :=
  ⟨if on then m.bits ||| f.mask else m.bits &&& ~~~f.mask⟩

/-- Whether percent signs are remainders (`has_remainder_percent_flag`). -/
def isRemainder (m : Mode) : Bool := m.contains .remainder

/-- The mode in which percent signs are remainders, or are not (`set_remainder_percent_flag`). -/
def setRemainder (m : Mode) (on : Bool) : Mode := m.set .remainder on

/-- Whether the final result is unrounded (`has_raw_output_flag`). -/
def raw (m : Mode) : Bool := m.contains .raw

/-- The mode in which the final result is unrounded, or is not (`set_raw_output_flag`). -/
def setRaw (m : Mode) (on : Bool) : Mode := m.set .raw on

/-- How percent signs are read (`percent_policy`). -/
def policy (m : Mode) : PercentPolicy := if m.isRemainder then .remainder else .contextual

/-- The mode with the given reading of percent signs (`with_percent_policy`). -/
def withPolicy (m : Mode) (policy : PercentPolicy) : Mode := m.setRemainder (policy == .remainder)

/-- The mode in which the final result is unrounded (`with_raw_output`). -/
def withRaw (m : Mode) : Mode := m.setRaw true

/-- A new mode to which both settings were written. -/
def ofSettings (policy : PercentPolicy) (raw : Bool) : Mode :=
  (({} : Mode).withPolicy policy).setRaw raw

private theorem or_and (a b c : UInt8) : (a ||| b) &&& c = a &&& c ||| b &&& c :=
  UInt8.eq_of_toBitVec_eq BitVec.and_or_distrib_right

private theorem or_and_self (bits mask : UInt8) : (bits ||| mask) &&& mask = mask := by
  apply UInt8.eq_of_toBitVec_eq
  apply BitVec.eq_of_getLsbD_eq
  intro i hi
  rw [UInt8.toBitVec_and, UInt8.toBitVec_or, BitVec.getLsbD_and, BitVec.getLsbD_or]
  cases mask.toBitVec.getLsbD i with
  | false => exact Bool.and_false _
  | true => rw [Bool.or_true, Bool.and_true]

private theorem not_and_of_disjoint {mask other : UInt8} (h : mask &&& other = 0) :
    ~~~mask &&& other = other := calc
  ~~~mask &&& other = (mask ||| ~~~mask) &&& other := by rw [or_and, h, UInt8.zero_or]
  _ = other := by rw [UInt8.or_not_self, UInt8.neg_one_and]

/-- A flag is on exactly after it was switched on. -/
theorem contains_set_self (m : Mode) (f : Flag) (on : Bool) : (m.set f on).contains f = on := by
  cases on with
  | true => exact beq_iff_eq.mpr (or_and_self m.bits f.mask)
  | false =>
    have hcleared : m.bits &&& ~~~f.mask &&& f.mask = 0 := by
      rw [UInt8.and_assoc, UInt8.not_and_self, UInt8.and_zero]
    refine beq_eq_false_iff_ne.mpr fun heq ↦ f.mask_ne_zero ?_
    rw [← heq]
    exact hcleared

/-- Switching a flag keeps the other ones. -/
theorem contains_set_of_ne (m : Mode) {f g : Flag} (h : f ≠ g) (on : Bool) :
    (m.set f on).contains g = m.contains g := by
  have hdisjoint := Flag.mask_and_mask h
  have hbits : (m.set f on).bits &&& g.mask = m.bits &&& g.mask := by
    cases on with
    | true =>
      change (m.bits ||| f.mask) &&& g.mask = _
      rw [or_and, hdisjoint, UInt8.or_zero]
    | false =>
      change m.bits &&& ~~~f.mask &&& g.mask = _
      rw [UInt8.and_assoc, not_and_of_disjoint hdisjoint]
  rw [contains, contains, hbits]

/-- A flag that is written has what was written, and the other ones stay. -/
theorem contains_set (m : Mode) (f g : Flag) (on : Bool) :
    (m.set f on).contains g = if f = g then on else m.contains g := by
  split
  case isTrue h =>
    subst h
    exact m.contains_set_self f on
  case isFalse h => exact m.contains_set_of_ne h on

/-- Remainder percent signs are on exactly after switching them on. -/
@[simp] theorem isRemainder_setRemainder (m : Mode) (on : Bool) :
    (m.setRemainder on).isRemainder = on :=
  m.contains_set .remainder .remainder on

/-- Switching the percent reading keeps the rounding. -/
@[simp] theorem raw_setRemainder (m : Mode) (on : Bool) : (m.setRemainder on).raw = m.raw :=
  m.contains_set .remainder .raw on

/-- Rounding is off exactly after switching it off. -/
@[simp] theorem raw_setRaw (m : Mode) (on : Bool) : (m.setRaw on).raw = on :=
  m.contains_set .raw .raw on

/-- Switching the rounding keeps the percent reading. -/
@[simp] theorem isRemainder_setRaw (m : Mode) (on : Bool) :
    (m.setRaw on).isRemainder = m.isRemainder :=
  m.contains_set .raw .remainder on

/-- Switching the rounding keeps the policy. -/
@[simp] theorem policy_setRaw (m : Mode) (on : Bool) : (m.setRaw on).policy = m.policy := by
  rw [policy, policy, isRemainder_setRaw]

/-- A policy that is chosen is the policy. -/
@[simp] theorem policy_withPolicy (m : Mode) (policy : PercentPolicy) :
    (m.withPolicy policy).policy = policy := by
  rw [Mode.policy, withPolicy, isRemainder_setRemainder]
  cases policy <;> rfl

/-- The reading of percent signs is the one written. -/
@[simp] theorem policy_ofSettings (policy : PercentPolicy) (raw : Bool) :
    (ofSettings policy raw).policy = policy := by
  rw [ofSettings, policy_setRaw, policy_withPolicy]

/-- The rounding is the one written. -/
@[simp] theorem raw_ofSettings (policy : PercentPolicy) (raw : Bool) :
    (ofSettings policy raw).raw = raw :=
  raw_setRaw _ raw

end Mode

end PocketCalc
