import PocketCalc.Binary64.Arithmetic
import PocketCalc.Operator

/-!
# What operators compute, and rounding for display

`OperatorSymbol.apply` is double arithmetic, the percent sign being the truncated remainder; nothing
fails, a division by zero gives an infinity or not-a-number. `Binary64.roundForDisplay` rounds a
final result to hundredths.
-/

namespace PocketCalc

/-- The value of an operator between two operands (`operate`). -/
def OperatorSymbol.apply (s : OperatorSymbol) (left right : Binary64) : Binary64 :=
  match s with
  | plus => left + right
  | minus => left - right
  | times => left * right
  | divide => left / right
  | percent => left % right

namespace Binary64

/-- One hundred, exactly. -/
def hundred : Binary64 := ofNat 100

/-- One half, exactly. -/
def half : Binary64 := ofFraction false 1 2

/-- The number rounded to hundredths, halves going up (`round_for_display`): the hundredths plus one
half are rounded down and divided again. A number whose hundredths are not finite stays as it is. -/
def roundForDisplay (x : Binary64) : Binary64 :=
  let hundredths := x * hundred
  if hundredths.isFinite then (hundredths + half).floor / hundred else x

/-- Not-a-number stays not-a-number. -/
theorem roundForDisplay_nan : roundForDisplay nan = nan := rfl

end Binary64

end PocketCalc
