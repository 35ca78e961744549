import PocketCalc.Decimal.Plain

/-!
# JSON values and their compact text

Values of the JSON data format and how they are written: without blanks, members in their order,
strings with no more escapes than needed. A finite number is written with its shortest digits, a
half-way choice between two digits going to the even one; from `10 ^ -5` up to below `10 ^ 16` it is
written in full, with a fraction `.0` if it has none, and outside with one digit before the point
and a signed exponent. JSON has no other numbers, so they are written as `null`.
-/

namespace PocketCalc

namespace Decimal

/-- The digits with a point after the first one, and a signed power of ten. -/
def scientificChars (digits : List Char) (order : Int) : List Char :=
  let mantissa := match digits with
    | first :: second :: rest => first :: '.' :: second :: rest
    | digits => digits
  mantissa ++ 'e' :: (if order < 0 then '-' else '+') :: digitChars order.natAbs

/-- The text of a number in JSON. -/
def jsonChars (d : Decimal) : List Char :=
  let digits := digitChars d.coefficient
  let order := d.exponent + digits.length - 1
  if -5 ≤ order ∧ order ≤ 15 then
    if 0 ≤ d.exponent then digits ++ List.replicate d.exponent.toNat '0' ++ ['.', '0']
    else pointed digits (-d.exponent).toNat
  else scientificChars digits order

end Decimal

namespace Json

/-- A JSON value; the members of an object keep their order. -/
inductive Value where
  | null
  | bool (value : Bool)
  | number (value : Binary64)
  | string (text : String)
  | array (items : List Value)
  | object (members : List (String × Value))
deriving Repr

/-- The characters of `null`. -/
def nullChars : List Char := ['n', 'u', 'l', 'l']

/-- The characters of `true`. -/
def trueChars : List Char := ['t', 'r', 'u', 'e']

/-- The characters of `false`. -/
def falseChars : List Char := ['f', 'a', 'l', 's', 'e']

/-- A number in JSON. -/
def numberChars : Binary64 → List Char
  | .finite negative magnitude =>
    signChars negative ++ (Decimal.shortest .even magnitude).jsonChars
  | _ => nullChars

/-- The lower-case hexadecimal digit of a number below sixteen. -/
def hexDigit (n : Nat) : Char := Nat.digitChar n

/-- A character inside a JSON string. -/
def escape (c : Char) : List Char :=
  if c = '"' then ['\\', '"']
  else if c = '\\' then ['\\', '\\']
  else if c = '\x08' then ['\\', 'b']
  else if c = '\t' then ['\\', 't']
  else if c = '\n' then ['\\', 'n']
  else if c = '\x0c' then ['\\', 'f']
  else if c = '\r' then ['\\', 'r']
  else if c.toNat < 32 then ['\\', 'u', '0', '0', hexDigit (c.toNat / 16), hexDigit (c.toNat % 16)]
  else [c]

/-- A JSON string. -/
def stringChars (cs : List Char) : List Char := '"' :: (cs.flatMap escape ++ ['"'])

namespace Value

mutual

/-- The compact text of a value. -/
def chars : Value → List Char
  | null => nullChars
  | bool true => trueChars
  | bool false => falseChars
  | number value => numberChars value
  | string text => stringChars text.toList
  | array [] => ['[', ']']
  | array (item :: rest) => '[' :: (chars item ++ (moreItems rest ++ [']']))
  | object [] => ['\x7b', '\x7d']
  | object ((name, value) :: rest) =>
    '\x7b' :: (stringChars name.toList ++ ':' :: (chars value ++ (moreMembers rest ++ ['\x7d'])))

/-- The items of an array after the first one, each after a comma. -/
def moreItems : List Value → List Char
  | [] => []
  | item :: rest => ',' :: (chars item ++ moreItems rest)

/-- The members of an object after the first one, each after a comma. -/
def moreMembers : List (String × Value) → List Char
  | [] => []
  | (name, value) :: rest =>
    ',' :: (stringChars name.toList ++ ':' :: (chars value ++ moreMembers rest))

end

/-- The compact text of a value. -/
def text (v : Value) : String := .ofList v.chars

end Value

end Json

end PocketCalc
