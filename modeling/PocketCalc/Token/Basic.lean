import PocketCalc.Decimal.Plain
import PocketCalc.Operator

/-!
# Tokens

A token is a number, an operator or a parenthesis. Tokens are shown as the plain text of the number
or as the one character of the symbol, a list of them with single blanks between.
-/

namespace PocketCalc

/-- The two parentheses (`Paren`). -/
inductive Parenthesis where
  | opening
  | closing
deriving DecidableEq, Repr

namespace Parenthesis

/-- The character of a parenthesis (`as_char`). -/
def char : Parenthesis → Char
  | opening => '('
  | closing => ')'

/-- The parenthesis of a character. -/
def ofChar? (c : Char) : Option Parenthesis := [opening, closing].find? fun p ↦ p.char = c

/-- Every parenthesis is found by its own character. -/
theorem ofChar?_char (p : Parenthesis) : ofChar? p.char = some p := by
  cases p <;> rfl

/-- Only the character of a parenthesis finds it. -/
theorem ofChar?_eq_some_iff {c : Char} {p : Parenthesis} : ofChar? c = some p ↔ c = p.char := by
  constructor
  · intro h
    have hp := List.find?_some h
    exact (of_decide_eq_true hp).symm
  · intro h
    rw [h, ofChar?_char]

end Parenthesis

/-- The smallest meaningful piece of an expression. -/
inductive Token where
  | number (value : Binary64)
  | operator (symbol : OperatorSymbol)
  | parenthesis (side : Parenthesis)
deriving DecidableEq, Repr

namespace Token

/-- The operator or parenthesis of a character (`from_symbol_char`). -/
def ofChar? (c : Char) : Option Token :=
  match OperatorSymbol.ofChar? c with
  | some symbol => some (operator symbol)
  | none => (Parenthesis.ofChar? c).map parenthesis

/-- The character of an operator or a parenthesis. -/
def char? : Token → Option Char
  | number _ => none
  | operator symbol => some symbol.char
  | parenthesis side => some side.char

/-- The value of a number (`as_number`). -/
def value? : Token → Option Binary64
  | number value => some value
  | _ => none

/-- Whether the token is a number. -/
def isNumber (token : Token) : Bool := token.value?.isSome

/-- The symbol of an operator (`as_operator`). -/
def symbol? : Token → Option OperatorSymbol
  | operator symbol => some symbol
  | _ => none

/-- Whether the token is multiplication or division (`is_multiplicative`). -/
def isMultiplicative : Token → Bool
  | operator symbol => symbol.isMultiplicative
  | _ => false

/-- The characters that show a token. -/
def chars : Token → List Char
  | number value => value.plainChars
  | operator symbol => [symbol.char]
  | parenthesis side => [side.char]

/-- The text that shows a token. -/
def text (t : Token) : String := .ofList t.chars

/-- The text that shows a list of tokens, with one blank between neighbours. -/
def render (tokens : List Token) : String := .ofList (List.intercalate [' '] (tokens.map chars))

/-- A token with a character is found by it. -/
theorem ofChar?_of_char?_eq_some {t : Token} {c : Char} (h : t.char? = some c) :
    ofChar? c = some t := by
  cases t with
  | number value => simp [char?] at h
  | operator symbol =>
    cases h
    cases symbol <;> rfl
  | parenthesis side =>
    cases h
    cases side <;> rfl

/-- A token is found by its own character and by no other one. -/
theorem ofChar?_eq_some_iff {c : Char} {t : Token} : ofChar? c = some t ↔ t.char? = some c := by
  refine ⟨fun h ↦ ?_, ofChar?_of_char?_eq_some⟩
  rw [ofChar?] at h
  cases hsymbol : OperatorSymbol.ofChar? c with
  | some symbol =>
    rw [hsymbol] at h
    cases h
    rw [char?, OperatorSymbol.ofChar?_eq_some_iff.mp hsymbol]
  | none =>
    rw [hsymbol] at h
    obtain ⟨side, hside, rfl⟩ := Option.map_eq_some_iff.mp h
    rw [char?, Parenthesis.ofChar?_eq_some_iff.mp hside]

end Token

end PocketCalc
