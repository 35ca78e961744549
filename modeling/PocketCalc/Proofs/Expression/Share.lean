import PocketCalc.Proofs.Evaluation.Run
import PocketCalc.Proofs.PostfixOrder.Precedence

/-!
# Percentages in expressions

With contextual percent signs an expression has a value that is composed of the values of its parts,
but the value of a part depends on its surroundings: on the operand directly below it and on the
operator directly after it in postfix order. `Expression.contextualValue` is that value, by
recursion on the expression alone, and `Expression.evaluate_contextualValue` says that the
conversion and the evaluation together compute it.
-/

namespace PocketCalc

namespace Expression

/-- The value of an expression above an operand, if there is one, and before an operator, if one
comes next. A percent sign takes a share of the operand below, multiplied first and then divided;
with nothing below, or before a multiplication or division, it is a plain hundredth. The right
operand of an operator has the left one below it and the operator after it. -/
def contextualValue {level : Level} :
    Expression .share level → Option Binary64 → Option OperatorSymbol → Binary64
  | number value, _, _ => value
  | group inner, below, next => inner.contextualValue below next
  | ofAtom atom, below, next => atom.contextualValue below next
  | share _ operand, below, next =>
    let value := operand.contextualValue below (some .percent)
    match below with
    | none => value / .hundred
    | some total =>
      if next.any OperatorSymbol.isTimesOrDivide then value / .hundred
      else total * value / .hundred
  | remainder h _ _, _, _ => nomatch h
  | ofFactor factor, below, next => factor.contextualValue below next
  | multiplicative symbol _ left right, below, _ =>
    let value := left.contextualValue below none
    symbol.apply value (right.contextualValue (some value) (some symbol))
  | ofProduct product, below, next => product.contextualValue below next
  | additive symbol _ left right, below, _ =>
    let value := left.contextualValue below none
    symbol.apply value (right.contextualValue (some value) (some symbol))

/-- The first operand comes first in postfix order. -/
theorem head?_postorder {role : PercentRole} {level : Level} (e : Expression role level) :
    ∃ value, e.postorder.head? = some (.number value) := by
  induction e with
  | number value => exact ⟨value, rfl⟩
  | group inner ih => exact ih
  | ofAtom atom ih => exact ih
  | ofFactor factor ih => exact ih
  | ofProduct product ih => exact ih
  | share h operand ih | remainder h operand right ih | multiplicative symbol h operand right ih
  | additive symbol h operand right ih =>
    obtain ⟨value, hvalue⟩ := ih
    exact ⟨value, by rw [postorder, List.head?_append, hvalue, Option.some_or]⟩

open Evaluation

/-- Two operands and then an operator between them leave its value. -/
private theorem run_postorder_operator {role : PercentRole} {level : Level}
    {symbol : OperatorSymbol} (hsymbol : symbol ≠ .percent) {first : List Token}
    (right : Expression role level) {base : Stack Binary64} {following : Option Token}
    {x y : Binary64}
    (hleft : ∀ next : Option Token, next.bind Token.symbol? = none →
      run .contextual base next first = .ok (base.push x))
    (hright : run .contextual (base.push x) (some (.operator symbol)) right.postorder =
      .ok ((base.push x).push y)) :
    run .contextual base following (first ++ (right.postorder ++ [.operator symbol])) =
      .ok (base.push (symbol.apply x y)) := by
  -- The left operand is followed by the first number of the right one, not by an operator.
  obtain ⟨value, hvalue⟩ := right.head?_postorder
  refine run_operands_operator (PercentPolicy.isBinary_of_ne_percent _ hsymbol) (hleft _ ?_) hright
  rw [List.head?_append, hvalue]
  rfl

/-- Above any operands and before any token, the postorder of an expression leaves its value. -/
theorem run_postorder {level : Level} (e : Expression .share level) (base : Stack Binary64)
    (following : Option Token) :
    run .contextual base following e.postorder =
      .ok (base.push (e.contextualValue base.peek? (following.bind Token.symbol?))) := by
  induction e generalizing base following with
  | number value => rfl
  | group inner ih => exact ih base following
  | ofAtom atom ih => exact ih base following
  | share h operand ih =>
    rw [postorder, run_append_of_ok (ih base _), run_singleton, step_percent_push,
      ← OperatorSymbol.isTimesOrDivide_eq]
    rfl
  | remainder h left right => cases h
  | ofFactor factor ih => exact ih base following
  | multiplicative symbol h left right ihl ihr =>
    have hsymbol := OperatorSymbol.ne_percent_of_isTimesOrDivide h
    refine run_postorder_operator hsymbol right (fun next hnext ↦ ?_) (ihr _ _)
    rw [ihl, hnext]
  | ofProduct product ih => exact ih base following
  | additive symbol h left right ihl ihr =>
    have hsymbol := OperatorSymbol.ne_percent_of_isAdditive h
    refine run_postorder_operator hsymbol right (fun next hnext ↦ ?_) (ihr _ _)
    rw [ihl, hnext]

/-- Contextual percent signs have a compositional meaning. Every expression over `+ - × ÷`,
parentheses and percent signs after operands is converted, and its value, unrounded or rounded for
display, is its contextual value with nothing below it and nothing after it. -/
theorem evaluate_contextualValue (e : Expression .share .sum) :
    ∃ reordered, toPostfix e.tokens = .ok reordered ∧
      evaluate (.ofSettings .contextual true) reordered = .ok (e.contextualValue none none) ∧
      evaluate (.ofSettings .contextual false) reordered =
        .ok (e.contextualValue none none).roundForDisplay := by
  have hrun := e.run_postorder .empty none
  exact ⟨e.postorder, e.toPostfix_tokens, evaluate_ofSettings_of_run true hrun,
    evaluate_ofSettings_of_run false hrun⟩

end Expression

end PocketCalc
