/-!
# Expressions from standard input

Without expressions among the arguments, every line of the input that is not blank is one. A line
ends with a line feed, before which one carriage return belongs to the end; the last line may go
without. A line of Unicode white space only is blank. The input is taken as a whole: if it is not
valid UTF-8 there are no lines.
-/

namespace PocketCalc.CommandLine

/-- The characters with the Unicode property of white space. -/
def whiteSpace : List Char :=
  ['\x09', '\x0a', '\x0b', '\x0c', '\x0d', '\x20', '\u0085', '\u00a0', '\u1680', '\u2000', '\u2001',
    '\u2002', '\u2003', '\u2004', '\u2005', '\u2006', '\u2007', '\u2008', '\u2009', '\u200a',
    '\u2028', '\u2029', '\u202f', '\u205f', '\u3000']

/-- Whether a line consists of white space only. -/
def isBlankLine (line : List Char) : Bool := line.all whiteSpace.contains

/-- The text with one more character at its front, and the lines after it. -/
def consLine (c : Char) : List (List Char) → List (List Char)
  | [] => [[c]]
  | line :: rest => (c :: line) :: rest

/-- The lines of a text without their ends. -/
def splitLines : List Char → List (List Char)
  | [] => []
  | '\n' :: rest => [] :: splitLines rest
  | '\r' :: '\n' :: rest => [] :: splitLines rest
  | c :: rest => consLine c (splitLines rest)

/-- The lines of a text that are expressions. -/
def expressionLines (text : String) : List String :=
  ((splitLines text.toList).filter fun line ↦ !isBlankLine line).map String.ofList

/-- The expressions of an input (`read_stdin_expressions`); none if it is not valid UTF-8. -/
def expressionsOfInput? (input : ByteArray) : Option (List String) :=
  (String.fromUTF8? input).map expressionLines

end PocketCalc.CommandLine
