import PocketCalc.Arithmetic
import PocketCalc.Mode
import PocketCalc.PostfixOrder
import PocketCalc.Token.Lexer

/-!
# Evaluation

Tokens in postfix order are evaluated on a stack of operands. A contextual percent sign replaces the
top: it takes that percentage of the operand below, unless there is none or a multiplication or
division comes next, where it is a hundredth of the operand itself. Exactly one operand must be left
at the end; it is rounded for display unless the mode is raw. `evaluateExpression` evaluates a typed
expression.
-/

namespace PocketCalc

namespace Evaluation

/-- Whether the next token reads a percentage as a plain fraction. -/
def isFractionContext : Option Token → Bool
  | some token => token.isMultiplicative
  | none => false

/-- The operands after a contextual percent sign that is followed by the given token
(`apply_percent`). -/
def applyPercent (operands : Stack Binary64) (next : Option Token) :
    Except Underflow (Stack Binary64) :=
  match operands.pop with
  | .error e => .error e
  | .ok (share, rest) =>
    match rest.peek?, isFractionContext next with
    | some total, false => .ok (rest.push (total * share / .hundred))
    | _, _ => .ok (rest.push (share / .hundred))

/-- The operands after an operator between two of them. -/
def applyBinary (symbol : OperatorSymbol) (operands : Stack Binary64) :
    Except Underflow (Stack Binary64) :=
  match operands.popPair with
  | .error e => .error e
  | .ok ((left, right), rest) => .ok (rest.push (symbol.apply left right))

/-- The operands after an operator that is followed by the given token. -/
def applyOperator (policy : PercentPolicy) (symbol : OperatorSymbol) (operands : Stack Binary64)
    (next : Option Token) : Except Underflow (Stack Binary64) :=
  match policy, symbol with
  | .contextual, .percent => applyPercent operands next
  | _, _ => applyBinary symbol operands

/-- The operands after a token that is followed by another one, if any. -/
def step (policy : PercentPolicy) (operands : Stack Binary64) (next : Option Token) :
    Token → Except EvaluationError (Stack Binary64)
  | .number value => .ok (operands.push value)
  | .operator symbol => (applyOperator policy symbol operands next).mapError .underflow
  | .parenthesis side => .error (.invalidOperator (Token.parenthesis side).text)

/-- The operands after tokens that are followed by another one, if any. -/
def run (policy : PercentPolicy) (operands : Stack Binary64) (following : Option Token) :
    List Token → Except EvaluationError (Stack Binary64)
  | [] => .ok operands
  | token :: rest =>
    match step policy operands (rest.head?.or following) token with
    | .ok operands => run policy operands following rest
    | .error e => .error e

/-- The one operand that is left. -/
def result (operands : Stack Binary64) : Except EvaluationError Binary64 :=
  match operands.toList with
  | [] => .error (.underflow ⟨1, 0⟩)
  | [value] => .ok value
  | _ => .error (.leftover operands.size)

end Evaluation

/-- A final result as the mode shows it. -/
def Mode.present (m : Mode) (value : Binary64) : Binary64 :=
  if m.raw then value else value.roundForDisplay

/-- The value of tokens in postfix order. -/
def evaluate (mode : Mode) (tokens : List Token) : Except EvaluationError Binary64 :=
  match Evaluation.run mode.policy .empty none tokens with
  | .ok operands => (Evaluation.result operands).map mode.present
  | .error e => .error e

/-- The value of an expression that has been brought into postfix order, or could not be. -/
def evaluateReordered (mode : Mode) :
    Except ParenthesisError (List Token) → Except EvaluationError Binary64
  | .ok reordered => evaluate mode reordered
  | .error e => .error (.unbalanced e)

/-- The value of tokens in the order in which they were typed. -/
def evaluateTokens (mode : Mode) (tokens : List Token) : Except EvaluationError Binary64 :=
  evaluateReordered mode (toPostfix tokens)

/-- The value of a typed expression (`evaluate_expression_with`). -/
def evaluateExpression (mode : Mode) (text : String) : Except EvaluationError Binary64 :=
  evaluateTokens mode (tokenize text)

end PocketCalc
