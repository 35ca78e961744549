import PocketCalc.Binary64.Round

/-!
# Arithmetic on doubles

Each operation takes its finite operands at their exact values, computes an exact quotient and
rounds it once. What remains are the special cases: an operand that is not a number makes the result
not a number, infinities follow the limits, and the sign of a zero result follows the signs of the
operands.
-/

namespace PocketCalc.Binary64

/-- Addition; an exact zero is negative only when both operands are. -/
def add : Binary64 → Binary64 → Binary64
  | nan, _ => nan
  | _, nan => nan
  | infinite s, infinite t => if s = t then infinite s else nan
  | infinite s, finite _ _ => infinite s
  | finite _ _, infinite t => infinite t
  | finite s a, finite t b =>
    let sum := signedInt s a.units + signedInt t b.units
    if sum = 0 then zero (s && t) else ofQuotient (decide (sum < 0)) sum.natAbs 1

/-- Subtraction adds the negated right operand. -/
def sub (x y : Binary64) : Binary64 := add x (neg y)

/-- Multiplication; zero times an infinity is not a number. -/
def mul : Binary64 → Binary64 → Binary64
  | nan, _ => nan
  | _, nan => nan
  | infinite s, infinite t => infinite (s ^^ t)
  | infinite s, finite t b => if b.units = 0 then nan else infinite (s ^^ t)
  | finite s a, infinite t => if a.units = 0 then nan else infinite (s ^^ t)
  | finite s a, finite t b => ofQuotient (s ^^ t) (a.units * b.units) unitsPerOne

/-- Division; a nonzero number over zero is an infinity, and zero over zero is not a number. -/
def div : Binary64 → Binary64 → Binary64
  | nan, _ => nan
  | _, nan => nan
  | infinite _, infinite _ => nan
  | infinite s, finite t _ => infinite (s ^^ t)
  | finite s _, infinite t => zero (s ^^ t)
  | finite s a, finite t b =>
    if b.units = 0 then
      if a.units = 0 then nan else infinite (s ^^ t)
    else ofQuotient (s ^^ t) (a.units * unitsPerOne) b.units

/-- The exact remainder of the division truncated toward zero, with the sign of the left operand. -/
def rem : Binary64 → Binary64 → Binary64
  | nan, _ => nan
  | _, nan => nan
  | infinite _, _ => nan
  | finite s a, infinite _ => finite s a
  | finite s a, finite _ b =>
    if b.units = 0 then nan else ofQuotient s (a.units % b.units) 1

/-- The largest whole number that is not greater; a zero result keeps the sign. -/
def floor : Binary64 → Binary64
  | finite false a => ofNat (a.units / unitsPerOne)
  | finite true a =>
    ofFraction true ((a.units + (unitsPerOne - 1)) / unitsPerOne) 1
  | x => x

/-- Addition of doubles. -/
instance : Add Binary64 where add := add

/-- Subtraction of doubles. -/
instance : Sub Binary64 where sub := sub

/-- Multiplication of doubles. -/
instance : Mul Binary64 where mul := mul

/-- Division of doubles. -/
instance : Div Binary64 where div := div

/-- Truncated remainder of doubles. -/
instance : Mod Binary64 where mod := rem

end PocketCalc.Binary64
