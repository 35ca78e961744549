import PocketCalc.Json.Reader
import PocketCalc.Token.Basic

/-!
# Tokens in JSON

A number is a JSON number and a symbol a JSON string of its one character; a list of tokens is a
JSON array of them. A symbol may also be read from an object with the symbol as its one name and
`null` as the value. Numbers that are not finite have no JSON form and are written as `null`, which
is read back as no token.
-/

namespace PocketCalc

open Json (ReadError Reader Value)

/-- The operator with the given text. -/
def OperatorSymbol.ofText? (text : String) : Option OperatorSymbol :=
  match text.toList with
  | [c] => ofChar? c
  | _ => none

/-- The parenthesis with the given text. -/
def Parenthesis.ofText? (text : String) : Option Parenthesis :=
  match text.toList with
  | [c] => ofChar? c
  | _ => none

namespace Token

/-- The operator or parenthesis with the given text. -/
def ofText? (text : String) : Option Token :=
  match text.toList with
  | [c] => ofChar? c
  | _ => none

/-- The JSON value of a token. -/
def toJson : Token → Value
  | number value => .number value
  | operator symbol => .string (.singleton symbol.char)
  | parenthesis side => .string (.singleton side.char)

/-- The token that a JSON value stands for. -/
def ofJson? : Value → Option Token
  | .number value => some (number value)
  | .string text => ofText? text
  | .object [(name, .null)] => ofText? name
  | _ => none

/-- The JSON value of a list of tokens. -/
def listToJson (tokens : List Token) : Value := .array (tokens.map toJson)

section Conversion

variable (convert : Json.Conversion)

/-- A token in a text where brackets may be nested to the given depth: one value is read to its end
and must then stand for a token. -/
def readJson (depth : Nat) : Reader Token := fun cs ↦
  match Json.readValue convert depth cs with
  | .error e => .error e
  | .ok (value, rest) =>
    match ofJson? value with
    | some token => .ok (token, rest)
    | none => .error .mismatched

/-- A token as the whole of a JSON text. -/
def parseJsonWith (text : String) : Except ReadError Token :=
  readJson convert Json.maxDepth text.toList >>= Json.complete

/-- A list of tokens as the whole of a JSON text. -/
def parseListJsonWith (text : String) : Except ReadError (List Token) :=
  match Json.skipBlanks text.toList with
  | '[' :: rest =>
    Json.readSequence ']' (readJson convert (Json.maxDepth - 1)) rest >>= Json.complete
  | cs => .error (Json.rejection convert cs)

end Conversion

/-- A token as the whole of a JSON text, a number by scaling. -/
def parseJson (text : String) : Except ReadError Token := parseJsonWith Json.Numeral.scaled? text

/-- A list of tokens as the whole of a JSON text, their numbers by scaling. -/
def parseListJson (text : String) : Except ReadError (List Token) :=
  parseListJsonWith Json.Numeral.scaled? text

end Token

namespace Json

/-- The name of a symbol, as the string after its quote. -/
def readSymbolName {α : Type} (find? : String → Option α) : Reader α := fun cs ↦
  match readString cs with
  | .error e => .error e
  | .ok (name, rest) =>
    match find? name with
    | some symbol => .ok (symbol, rest)
    | none => .error .mismatched

/-- What follows a `null`. -/
def skipNull (cs : List Char) : Except ReadError (List Char) :=
  match skipBlanks cs with
  | 'n' :: rest => skipWord ['u', 'l', 'l'] rest
  | cs => .error (rejection Numeral.scaled? cs)

/-- What follows the closing brace of an object. -/
def skipBrace (cs : List Char) : Except ReadError (List Char) :=
  match skipBlanks cs with
  | [] => .error .truncated
  | '\x7d' :: rest => .ok rest
  | _ => .error .malformed

/-- A symbol, as a string or as an object with one name and the value `null`. -/
def readSymbol {α : Type} (find? : String → Option α) : Reader α := fun cs ↦
  match skipBlanks cs with
  | [] => .error .truncated
  | '"' :: rest => readSymbolName find? rest
  | '\x7b' :: rest => do
    let rest ← skipQuote rest
    let (symbol, rest) ← readSymbolName find? rest
    let rest ← skipColon rest
    let rest ← skipNull rest
    let rest ← skipBrace rest
    return (symbol, rest)
  | _ => .error .malformed

end Json

/-- An operator as the whole of a JSON text. -/
def OperatorSymbol.parseJson (text : String) : Except ReadError OperatorSymbol :=
  Json.readSymbol ofText? text.toList >>= Json.complete

/-- A parenthesis as the whole of a JSON text. -/
def Parenthesis.parseJson (text : String) : Except ReadError Parenthesis :=
  Json.readSymbol ofText? text.toList >>= Json.complete

end PocketCalc
