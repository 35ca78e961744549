import PocketCalc.Decimal.Basic

/-!
# Reading numerals

A numeral is an optional sign, ASCII digits with at most one point and at least one digit, and
optionally an exponent: `e` or `E`, an optional sign and at least one digit. In place of the digits
may stand `inf`, `infinity` or `nan` in any letter case. Its value is the double nearest to the
number written (`Binary64.ofNumeral?`).

A typed literal is more lenient (`Binary64.ofLiteral`): it is cut before its second point, and what
is then no numeral stands for not-a-number.
-/

namespace PocketCalc

/-- A leading sign, true for minus, and what follows it. -/
def splitSign : List Char → Bool × List Char
  | '-' :: rest => (true, rest)
  | '+' :: rest => (false, rest)
  | cs => (false, cs)

/-- The value of digits in base ten. -/
def digitsValue (digits : List Char) : Nat := Nat.ofDigitChars 10 digits 0

namespace Decimal

/-- The exponent part of a numeral; an absent one is zero. -/
def exponentOfNumeral? : List Char → Option Int
  | [] => some 0
  | c :: rest =>
    let (negative, digits) := splitSign rest
    if (c = 'e' ∨ c = 'E') ∧ digits ≠ [] ∧ digits.all Char.isDigit then
      some (signedInt negative (digitsValue digits))
    else none

/-- The fraction digits after a point, and what follows them; without a point there are none. -/
def splitFraction : List Char → List Char × List Char
  | '.' :: rest => (rest.takeWhile Char.isDigit, rest.dropWhile Char.isDigit)
  | cs => ([], cs)

/-- The number that an unsigned numeral writes. -/
def ofNumeral? (cs : List Char) : Option Decimal :=
  let whole := cs.takeWhile Char.isDigit
  let (fraction, rest) := splitFraction (cs.dropWhile Char.isDigit)
  if whole = [] ∧ fraction = [] then none
  else (exponentOfNumeral? rest).map fun exponent ↦
    ⟨digitsValue (whole ++ fraction), exponent - fraction.length⟩

end Decimal

namespace Binary64

/-- The words for the numbers without digits, in lower case. -/
def ofWord? (negative : Bool) (word : List Char) : Option Binary64 :=
  if word = ['i', 'n', 'f'] ∨ word = ['i', 'n', 'f', 'i', 'n', 'i', 't', 'y'] then
    some (infinite negative)
  else if word = ['n', 'a', 'n'] then some nan
  else none

/-- The double that a numeral denotes. -/
def ofNumeral? (cs : List Char) : Option Binary64 :=
  let (negative, rest) := splitSign cs
  match Decimal.ofNumeral? rest with
  | some d => some (d.toBinary64 negative)
  | none => ofWord? negative (rest.map Char.toLower)

/-- The part of a text before its second point. -/
def beforeSecondPoint (cs : List Char) : List Char :=
  let whole := cs.takeWhile (· ≠ '.')
  match cs.dropWhile (· ≠ '.') with
  | [] => whole
  | point :: rest => whole ++ point :: rest.takeWhile (· ≠ '.')

/-- The value of a typed literal (`parse_literal`). -/
def ofLiteral (cs : List Char) : Binary64 := (ofNumeral? (beforeSecondPoint cs)).getD nan

end Binary64

end PocketCalc
