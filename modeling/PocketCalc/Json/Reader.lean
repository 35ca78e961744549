import PocketCalc.Decimal.Scaled
import PocketCalc.Json.Value

/-!
# Reading JSON

Readers take what they read off the front of a text and say, when they fail, in which of three ways:
the text is no JSON, it ends too early, or it is JSON of another shape than wanted. A text is read
from left to right and the first failure counts. `Json.readValue` reads any value, down to a bound
on how deep brackets are nested. How the digits of a number become a double is a `Json.Conversion`;
one of them scales the digits (`Numeral.scaled?`), which may miss the nearest double.
-/

namespace PocketCalc.Json

/-- The ways in which reading fails. -/
inductive ReadError where
  | malformed
  | truncated
  | mismatched
deriving DecidableEq, Repr

/-- A reader takes a value off the front of a text and gives what follows it. -/
abbrev Reader (α : Type) := List Char → Except ReadError (α × List Char)

/-- The white space of JSON. -/
def isBlank (c : Char) : Bool := c == ' ' || c == '\n' || c == '\t' || c == '\r'

/-- What follows the white space at the front. -/
def skipBlanks (cs : List Char) : List Char := cs.dropWhile isBlank

/-- What follows the given word at the front. -/
def skipWord : List Char → List Char → Except ReadError (List Char)
  | [], cs => .ok cs
  | _ :: _, [] => .error .truncated
  | w :: ws, c :: cs => if c = w then skipWord ws cs else .error .malformed

/-- A value that is written as one word. -/
def readWord {α : Type} (word : List Char) (value : α) : Reader α := fun cs ↦
  (skipWord word cs).map fun rest ↦ (value, rest)

/-! ## Numbers -/

/-- At least one digit. -/
def readDigits : Reader (List Char) := fun cs ↦
  match cs with
  | [] => .error .truncated
  | c :: _ =>
    if c.isDigit then .ok (cs.takeWhile Char.isDigit, cs.dropWhile Char.isDigit)
    else .error .malformed

/-- The digits before the point; a zero is followed by no other digit. -/
def readWhole : Reader (List Char) := fun cs ↦
  match readDigits cs with
  | .ok ('0' :: _ :: _, _) => .error .malformed
  | r => r

/-- The digits after the point, if there is one. -/
def readFraction : Reader (List Char) := fun cs ↦
  match cs with
  | '.' :: rest => readDigits rest
  | _ => .ok ([], cs)

/-- The exponent, if there is one. -/
def readExponent : Reader Int := fun cs ↦
  match cs with
  | [] => .ok (0, [])
  | c :: rest =>
    if c = 'e' ∨ c = 'E' then
      let (negative, rest) := splitSign rest
      (readDigits rest).map fun (digits, rest) ↦ (signedInt negative (digitsValue digits), rest)
    else .ok (0, cs)

/-- The digits of a number before and after the point, and its exponent. -/
structure Numeral where
  whole : List Char
  fraction : List Char
  exponent : Int
deriving DecidableEq, Repr

/-- How the digits of a number without its sign become a magnitude, or nothing when it overflows. -/
abbrev Conversion := Numeral → Option Magnitude

/-- The conversion that scales the decimal of the digits that fit in 64 bits. -/
def Numeral.scaled? : Conversion := fun n ↦
  (Decimal.ofFittingDigits n.whole n.fraction n.exponent).scaled?

/-- A number without its sign. -/
def readNumeral : Reader Numeral := fun cs ↦
  match readWhole cs with
  | .error e => .error e
  | .ok (whole, rest) =>
    match readFraction rest with
    | .error e => .error e
    | .ok (fraction, rest) =>
      (readExponent rest).map fun (exponent, rest) ↦ (⟨whole, fraction, exponent⟩, rest)

section Conversion

variable (convert : Conversion)

/-- A number of the given sign, after the sign; one that overflows is malformed. -/
def readUnsigned (negative : Bool) : Reader Binary64 := fun cs ↦
  match readNumeral cs with
  | .error e => .error e
  | .ok (numeral, rest) =>
    match convert numeral with
    | some magnitude => .ok (.finite negative magnitude, rest)
    | none => .error .malformed

/-- A number. -/
def readNumber : Reader Binary64 := fun cs ↦
  match cs with
  | '-' :: rest => readUnsigned convert true rest
  | _ => readUnsigned convert false cs

end Conversion

/-! ## Strings -/

/-- The value of a hexadecimal digit of either case. -/
def hexValue? (c : Char) : Option Nat :=
  if '0' ≤ c ∧ c ≤ '9' then some (c.toNat - '0'.toNat)
  else if 'a' ≤ c ∧ c ≤ 'f' then some (c.toNat - 'a'.toNat + 10)
  else if 'A' ≤ c ∧ c ≤ 'F' then some (c.toNat - 'A'.toNat + 10)
  else none

/-- The value of four hexadecimal digits. -/
def hexValue4? (a b c d : Char) : Option Nat :=
  match hexValue? a, hexValue? b, hexValue? c, hexValue? d with
  | some a, some b, some c, some d => some (((a * 16 + b) * 16 + c) * 16 + d)
  | _, _, _, _ => none

/-- The length of a text in UTF-8. -/
def byteLength (cs : List Char) : Nat := cs.foldr (fun c n ↦ c.utf8Size + n) 0

/-- Four hexadecimal digits; a text of less than four bytes ends too early. -/
def readHex : Reader Nat := fun cs ↦
  match cs with
  | a :: b :: c :: d :: rest =>
    match hexValue4? a b c d with
    | some n => .ok (n, rest)
    | none => .error .malformed
  | _ => if byteLength cs < 4 then .error .truncated else .error .malformed

/-- The first half of a surrogate pair. -/
def isHighSurrogate (n : Nat) : Bool := 0xD800 ≤ n && n ≤ 0xDBFF

/-- The second half of a surrogate pair. -/
def isLowSurrogate (n : Nat) : Bool := 0xDC00 ≤ n && n ≤ 0xDFFF

/-- The second half of a surrogate pair, written as another escape. -/
def readLowSurrogate : Reader Nat := fun cs ↦
  match cs with
  | [] => .error .truncated
  | '\\' :: [] => .error .truncated
  | '\\' :: 'u' :: rest =>
    match readHex rest with
    | .error e => .error e
    | .ok (low, rest) => if isLowSurrogate low then .ok (low, rest) else .error .malformed
  | _ => .error .malformed

/-- The character of a hexadecimal escape, which takes a second escape for a surrogate pair. -/
def readUnicode : Reader Char := fun cs ↦
  match readHex cs with
  | .error e => .error e
  | .ok (n, rest) =>
    if isLowSurrogate n then .error .malformed
    else if isHighSurrogate n then
      (readLowSurrogate rest).map fun (low, rest) ↦
        (Char.ofNat (0x10000 + (n - 0xD800) * 0x400 + (low - 0xDC00)), rest)
    else .ok (Char.ofNat n, rest)

/-- The character of an escape, after its backslash. -/
def readEscape : Reader Char := fun cs ↦
  match cs with
  | [] => .error .truncated
  | '"' :: rest => .ok ('"', rest)
  | '\\' :: rest => .ok ('\\', rest)
  | '/' :: rest => .ok ('/', rest)
  | 'b' :: rest => .ok ('\x08', rest)
  | 'f' :: rest => .ok ('\x0c', rest)
  | 'n' :: rest => .ok ('\n', rest)
  | 'r' :: rest => .ok ('\r', rest)
  | 't' :: rest => .ok ('\t', rest)
  | 'u' :: rest => readUnicode rest
  | _ => .error .malformed

/-- The characters of a string up to its closing quote, given that many at most. -/
def readStringWithin : Nat → Reader (List Char)
  | 0, _ => .error .truncated
  | _ + 1, [] => .error .truncated
  | bound + 1, c :: rest =>
    if c = '"' then .ok ([], rest)
    else if c = '\\' then
      match readEscape rest with
      | .error e => .error e
      | .ok (c, rest) => (readStringWithin bound rest).map fun (cs, rest) ↦ (c :: cs, rest)
    else if c.toNat < 32 then .error .malformed
    else (readStringWithin bound rest).map fun (cs, rest) ↦ (c :: cs, rest)

/-- The text of a string, after its opening quote. -/
def readString : Reader String := fun cs ↦
  (readStringWithin cs.length cs).map fun (text, rest) ↦ (String.ofList text, rest)

/-! ## Sequences and values -/

/-- The items after the first one, each after a comma, and the closing bracket, given that many
characters at most. -/
def readMore {α : Type} (close : Char) (item : Reader α) : Nat → Reader (List α)
  | 0, _ => .error .truncated
  | bound + 1, cs =>
    match skipBlanks cs with
    | [] => .error .truncated
    | c :: rest =>
      if c = close then .ok ([], rest)
      else if c = ',' then
        match item rest with
        | .error e => .error e
        | .ok (first, rest) =>
          (readMore close item bound rest).map fun (items, rest) ↦ (first :: items, rest)
      else .error .malformed

/-- Items between commas up to the closing bracket, after the opening one. -/
def readSequence {α : Type} (close : Char) (item : Reader α) : Reader (List α) := fun cs ↦
  match skipBlanks cs with
  | [] => .error .truncated
  | c :: rest =>
    if c = close then .ok ([], rest)
    else
      match item (c :: rest) with
      | .error e => .error e
      | .ok (first, rest) =>
        (readMore close item rest.length rest).map fun (items, rest) ↦ (first :: items, rest)

/-- What follows the colon between a name and its value. -/
def skipColon (cs : List Char) : Except ReadError (List Char) :=
  match skipBlanks cs with
  | [] => .error .truncated
  | ':' :: rest => .ok rest
  | _ => .error .malformed

/-- What follows the opening quote of a name; nothing but a string names a member. -/
def skipQuote (cs : List Char) : Except ReadError (List Char) :=
  match skipBlanks cs with
  | [] => .error .truncated
  | '"' :: rest => .ok rest
  | _ => .error .malformed

/-- A member of an object. -/
def readMember {α : Type} (value : Reader α) : Reader (String × α) := fun cs ↦ do
  let rest ← skipQuote cs
  let (name, rest) ← readString rest
  let rest ← skipColon rest
  let (v, rest) ← value rest
  return ((name, v), rest)

/-- A value whose items and members are read by the given reader; without one no brackets may be
opened. -/
def readWith (convert : Conversion) (inner : Option (Reader Value)) : Reader Value := fun cs ↦
  match skipBlanks cs with
  | [] => .error .truncated
  | 'n' :: rest => readWord ['u', 'l', 'l'] .null rest
  | 't' :: rest => readWord ['r', 'u', 'e'] (.bool true) rest
  | 'f' :: rest => readWord ['a', 'l', 's', 'e'] (.bool false) rest
  | '"' :: rest => (readString rest).map fun (text, rest) ↦ (.string text, rest)
  | '[' :: rest =>
    match inner with
    | none => .error .malformed
    | some item => (readSequence ']' item rest).map fun (items, rest) ↦ (.array items, rest)
  | '\x7b' :: rest =>
    match inner with
    | none => .error .malformed
    | some value =>
      (readSequence '\x7d' (readMember value) rest).map fun (members, rest) ↦ (.object members, rest)
  | c :: rest =>
    if c = '-' ∨ c.isDigit then
      (readNumber convert (c :: rest)).map fun (value, rest) ↦ (.number value, rest)
    else .error .malformed

/-- A value with brackets nested at most to the given depth. -/
def readValue (convert : Conversion) : Nat → Reader Value
  | 0 => readWith convert none
  | depth + 1 => readWith convert (some (readValue convert depth))

/-- How deep brackets may be nested in a text. -/
def maxDepth : Nat := 127

/-- How reading fails when the text continues with a value of another kind than wanted: a value
without brackets is read to its end first. -/
def rejection (convert : Conversion) (cs : List Char) : ReadError :=
  match skipBlanks cs with
  | '[' :: _ => .mismatched
  | '\x7b' :: _ => .mismatched
  | rest =>
    match readWith convert none rest with
    | .error e => e
    | .ok _ => .mismatched

/-- The value read, provided that only white space follows it. -/
def complete {α : Type} : α × List Char → Except ReadError α
  | (value, rest) => if skipBlanks rest = [] then .ok value else .error .malformed

/-- A whole text read as one value. -/
def parseWith (convert : Conversion) (text : String) : Except ReadError Value :=
  readValue convert maxDepth text.toList >>= complete

end PocketCalc.Json
