import PocketCalc.Stack

/-!
# What is wrong with an expression

The causes for which an expression has no value, and their texts.
-/

namespace PocketCalc

/-- A parenthesis without a partner, by its position among the tokens (`ShuntingYardError`). -/
inductive ParenthesisError where
  | unopened (position : Nat)
  | unclosed (position : Nat)
deriving DecidableEq, Repr

/-- The text that reports a parenthesis without a partner. -/
def ParenthesisError.message : ParenthesisError → String
  | unopened position =>
    s!"Unbalanced parentheses: ')' at token {position} has no matching '('"
  | unclosed position =>
    s!"Unbalanced parentheses: '(' at token {position} is never closed"

/-- The reason why an expression has no value. -/
inductive EvaluationError where
  | unbalanced (cause : ParenthesisError)
  | underflow (cause : Underflow)
  | invalidOperator (text : String)
  | leftover (count : Nat)
deriving DecidableEq, Repr

/-- The text that reports the reason. -/
def EvaluationError.message : EvaluationError → String
  | unbalanced cause => cause.message
  | underflow cause => cause.message
  | invalidOperator text => s!"Invalid operator '{text}'"
  | leftover count => s!"Missing operator: {count} values left over after evaluation"

end PocketCalc
