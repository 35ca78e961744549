import PocketCalc.Error
import PocketCalc.Token.Basic

/-!
# Postfix order

`toPostfix` reorders an expression so that every operator follows its operands and parentheses are
gone. The expression is read from left to right. Numbers are put out at once; operators and open
groups wait on a stack, the last one on top. An incoming operator first puts out the waiting ones
that yield to it, a closing parenthesis those of its group, and the end all that are left. The only
errors are parentheses without a partner.
-/

namespace PocketCalc

/-- What waits for the rest of the expression (`StackEntry`): an operator, or a group by the
position of its opening parenthesis. -/
inductive Pending where
  | operator (symbol : OperatorSymbol)
  | group (position : Nat)
deriving DecidableEq, Repr

namespace Pending

/-- The waiting operators that are applied before the incoming one, and what goes on waiting. -/
def yieldTo (incoming : OperatorSymbol) : List Pending → List OperatorSymbol × List Pending
  | operator waiting :: rest =>
    if waiting.operator.yieldsBefore incoming.operator then
      let (yielded, kept) := yieldTo incoming rest
      (waiting :: yielded, kept)
    else ([], operator waiting :: rest)
  | pending => ([], pending)

/-- The operators of the innermost open group and what waits below it, if there is such a group. -/
def closeGroup? : List Pending → Option (List OperatorSymbol × List Pending)
  | [] => none
  | group _ :: rest => some ([], rest)
  | operator waiting :: rest =>
    (closeGroup? rest).map fun (closed, kept) ↦ (waiting :: closed, kept)

/-- All waiting operators; a group that is still open is an error. -/
def drain : List Pending → Except ParenthesisError (List OperatorSymbol)
  | [] => .ok []
  | operator waiting :: rest => (drain rest).map (waiting :: ·)
  | group position :: _ => .error (.unclosed position)

end Pending

namespace PostfixOrder

/-- What the token at a position puts out, and what waits after it. -/
def step (position : Nat) (pending : List Pending) :
    Token → Except ParenthesisError (List Token × List Pending)
  | .number value => .ok ([.number value], pending)
  | .operator symbol =>
    let (yielded, kept) := Pending.yieldTo symbol pending
    .ok (yielded.map .operator, .operator symbol :: kept)
  | .parenthesis .opening => .ok ([], .group position :: pending)
  | .parenthesis .closing =>
    match Pending.closeGroup? pending with
    | some (closed, kept) => .ok (closed.map .operator, kept)
    | none => .error (.unopened position)

/-- What the tokens from a position on and the end put out, given what waits before them. -/
def convert (position : Nat) (pending : List Pending) :
    List Token → Except ParenthesisError (List Token)
  | [] => (Pending.drain pending).map fun drained ↦ drained.map .operator
  | token :: rest =>
    match step position pending token with
    | .ok (put, kept) => (convert (position + 1) kept rest).map (put ++ ·)
    | .error e => .error e

end PostfixOrder

/-- The tokens of an expression in postfix order (`to_postfix`). -/
def toPostfix (tokens : List Token) : Except ParenthesisError (List Token) :=
  PostfixOrder.convert 0 [] tokens

end PocketCalc
