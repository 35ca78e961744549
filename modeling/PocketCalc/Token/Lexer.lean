import PocketCalc.Decimal.Numeral
import PocketCalc.Token.Basic

/-!
# Splitting text into tokens

The lexer reads a text character by character, in pieces of any size. ASCII digits and points join
the literal in progress, which may go on after ignored characters; a symbol ends the literal and is
a token of its own; every other character is ignored. `Lexer.finish` ends the last literal and gives
the tokens in order.
-/

namespace PocketCalc

/-- The characters of a literal: ASCII digits and the point. -/
def isLiteralChar (c : Char) : Bool := c.isDigit || c == '.'

/-- A text read so far (`TokenizerState`): its finished tokens and the literal in progress, both
last first. -/
structure Lexer where
  finished : List Token
  literal : List Char
deriving DecidableEq, Repr

namespace Lexer

/-- Nothing read yet (`new`). -/
def start : Lexer := ⟨[], []⟩

/-- Whether a literal is in progress (`has_pending_literal`). -/
def hasLiteral (l : Lexer) : Bool := !l.literal.isEmpty

/-- The lexer after its literal in progress, if any, has become a number (`flush_literal`). -/
def endLiteral (l : Lexer) : Lexer :=
  if l.literal = [] then l
  else ⟨.number (.ofLiteral l.literal.reverse) :: l.finished, []⟩

/-- The lexer after one more character (`read_char`). -/
def readChar (l : Lexer) (c : Char) : Lexer :=
  if isLiteralChar c then { l with literal := c :: l.literal }
  else match Token.ofChar? c with
    | some t => ⟨t :: l.endLiteral.finished, []⟩
    | none => l

/-- The lexer after more characters. -/
def readChars (l : Lexer) (cs : List Char) : Lexer := cs.foldl readChar l

/-- The lexer after more text (`read_str`). -/
def readText (l : Lexer) (text : String) : Lexer := l.readChars text.toList

/-- The tokens of the text read, in order. -/
def finish (l : Lexer) : List Token := l.endLiteral.finished.reverse

/-- Text may be read in pieces. -/
theorem readChars_append (l : Lexer) (cs ds : List Char) :
    l.readChars (cs ++ ds) = (l.readChars cs).readChars ds :=
  List.foldl_append

/-- Reading no characters changes nothing. -/
theorem readChars_nil (l : Lexer) : l.readChars [] = l := rfl

/-- The first character is read before the others. -/
theorem readChars_cons (l : Lexer) (c : Char) (cs : List Char) :
    l.readChars (c :: cs) = (l.readChar c).readChars cs := rfl

/-- Ending a literal leaves none in progress. -/
theorem literal_endLiteral (l : Lexer) : l.endLiteral.literal = [] := by
  unfold endLiteral
  split
  · next h => exact h
  · rfl

end Lexer

/-- The tokens of a text. -/
def tokenize (text : String) : List Token := (Lexer.start.readText text).finish

end PocketCalc
