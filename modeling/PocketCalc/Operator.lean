/-!
# Operators

The five operators of the calculator with their characters, precedences and associativities, and the
rule `Operator.yieldsBefore` that decides which of two operators in a row is applied first.

A name in brackets in the description of a definition, here and in the modules that follow, is the
calculator's own name for it where it is another one.
-/

namespace PocketCalc

/-- The operators that an expression may contain. -/
inductive OperatorSymbol where
  | plus
  | minus
  | times
  | divide
  | percent
deriving DecidableEq, Repr

/-- How a chain of operators of one precedence is grouped. -/
inductive Associativity where
  | left
  | right
deriving DecidableEq, Repr

/-- An operator with its place in the order of application; higher precedences bind tighter. -/
structure Operator where
  symbol : OperatorSymbol
  associativity : Associativity
  precedence : Nat
deriving DecidableEq, Repr

namespace OperatorSymbol

/-- All operators. -/
def all : List OperatorSymbol := [plus, minus, times, divide, percent]

/-- The character that is typed and shown for an operator (`as_char`). -/
def char : OperatorSymbol → Char
  | plus => '+'
  | minus => '-'
  | times => '×'
  | divide => '÷'
  | percent => '%'

/-- The operator of a character. -/
def ofChar? (c : Char) : Option OperatorSymbol := all.find? fun s ↦ s.char = c

/-- Multiplication and division (`is_multiplicative`). -/
def isMultiplicative : OperatorSymbol → Bool
  | times | divide => true
  | _ => false

/-- Sums bind least and the percent sign most; only chains of percent signs group to the right. -/
def operator : OperatorSymbol → Operator
  | plus => ⟨plus, .left, 1⟩
  | minus => ⟨minus, .left, 1⟩
  | times => ⟨times, .left, 2⟩
  | divide => ⟨divide, .left, 2⟩
  | percent => ⟨percent, .right, 3⟩

/-- Every operator is listed. -/
theorem mem_all (s : OperatorSymbol) : s ∈ all := by
  cases s <;> decide

/-- Every operator is found by its own character. -/
theorem ofChar?_char (s : OperatorSymbol) : ofChar? s.char = some s := by
  cases s <;> rfl

/-- Only the character of an operator finds it. -/
theorem ofChar?_eq_some_iff {c : Char} {s : OperatorSymbol} :
    ofChar? c = some s ↔ c = s.char := by
  constructor
  · intro h
    have hs := List.find?_some h
    exact (of_decide_eq_true hs).symm
  · intro h
    rw [h, ofChar?_char]

/-- Different operators have different characters. -/
theorem char_inj {s t : OperatorSymbol} : s.char = t.char ↔ s = t := by
  constructor
  · intro h
    have hs := ofChar?_char s
    rw [h, ofChar?_char] at hs
    exact (Option.some.inj hs).symm
  · exact congrArg char

/-- The operator of a symbol carries that symbol. -/
theorem symbol_operator (s : OperatorSymbol) : s.operator.symbol = s := by
  cases s <;> rfl

end OperatorSymbol

namespace Operator

/-- The operator of a character (`get`). -/
def ofChar? (c : Char) : Option Operator := (OperatorSymbol.ofChar? c).map OperatorSymbol.operator

/-- Whether a waiting operator is applied before an incoming one (`yields_before`): it binds
tighter, or equally tight and the incoming one groups to the left. -/
def yieldsBefore (waiting incoming : Operator) : Bool :=
  decide (incoming.precedence < waiting.precedence) ||
    (waiting.precedence == incoming.precedence && incoming.associativity == .left)

/-- The rule of precedence and associativity as a proposition. -/
theorem yieldsBefore_iff {waiting incoming : Operator} :
    waiting.yieldsBefore incoming = true ↔
      incoming.precedence < waiting.precedence ∨
        (waiting.precedence = incoming.precedence ∧ incoming.associativity = .left) := by
  simp [yieldsBefore]

end Operator

end PocketCalc
