import PocketCalc.Decimal.Shortest

/-!
# The plain text of a number

A finite number is written with its shortest digits and never with an exponent: zeros fill up to the
point on either side, there is no point without fraction digits, and a half-way choice between two
digits goes up. The other numbers are `inf`, `-inf` and `NaN`.
-/

namespace PocketCalc

/-- The digits of a natural number in base ten. -/
def digitChars (n : Nat) : List Char := Nat.toDigits 10 n

namespace Decimal

/-- The digits with a point before the last `places` of them, after at least one digit. -/
def pointed (digits : List Char) (places : Nat) : List Char :=
  let padded := List.replicate (places + 1 - digits.length) '0' ++ digits
  let whole := padded.length - places
  padded.take whole ++ '.' :: padded.drop whole

/-- The number without an exponent, and without a point when it has no fraction digits. -/
def plainChars (d : Decimal) : List Char :=
  if 0 ≤ d.exponent then digitChars d.coefficient ++ List.replicate d.exponent.toNat '0'
  else pointed (digitChars d.coefficient) (-d.exponent).toNat

end Decimal

/-- A minus sign for negative numbers. -/
def signChars (negative : Bool) : List Char := if negative then ['-'] else []

namespace Binary64

/-- The characters of the plain text. -/
def plainChars : Binary64 → List Char
  | nan => ['N', 'a', 'N']
  | infinite negative => signChars negative ++ ['i', 'n', 'f']
  | finite negative magnitude => signChars negative ++ (Decimal.shortest .up magnitude).plainChars

/-- The plain text of a number. -/
def plain (x : Binary64) : String := .ofList x.plainChars

/-- The plain text has the characters of the number. -/
theorem toList_plain (x : Binary64) : x.plain.toList = x.plainChars := String.toList_ofList

end Binary64

end PocketCalc
