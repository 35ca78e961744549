import PocketCalc.Evaluation

/-!
# Runs on a stack of operands

How the evaluation of tokens in two parts is composed, and what single steps do to operands that are
known to be there. The first part of a run is followed by the first token of the second part, so
`Evaluation.run` is always considered above any operands and before any token.
-/

namespace PocketCalc

/-- Whether an operator takes two operands: every one but a contextual percent sign. -/
def PercentPolicy.isBinary (policy : PercentPolicy) : OperatorSymbol → Bool
  | .percent => policy == .remainder
  | _ => true

/-- An operator takes two operands exactly when it is no percent sign or percent signs are
remainders. -/
theorem PercentPolicy.isBinary_eq_true_iff {policy : PercentPolicy} {symbol : OperatorSymbol} :
    policy.isBinary symbol = true ↔ symbol ≠ .percent ∨ policy = .remainder := by
  cases symbol with
  | percent => simp [isBinary]
  | plus | minus | times | divide => simp [isBinary]

/-- Exactly a contextual percent sign does not take two operands. -/
theorem PercentPolicy.isBinary_eq_false_iff {policy : PercentPolicy} {symbol : OperatorSymbol} :
    policy.isBinary symbol = false ↔ symbol = .percent ∧ policy = .contextual := by
  cases symbol with
  | percent => cases policy <;> simp [isBinary]
  | plus | minus | times | divide => simp [isBinary]

/-- Under the remainder policy every operator takes two operands. -/
theorem PercentPolicy.isBinary_remainder (symbol : OperatorSymbol) :
    PercentPolicy.remainder.isBinary symbol = true := isBinary_eq_true_iff.mpr (.inr rfl)

/-- Every operator but the percent sign takes two operands. -/
theorem PercentPolicy.isBinary_of_ne_percent (policy : PercentPolicy) {symbol : OperatorSymbol}
    (h : symbol ≠ .percent) : policy.isBinary symbol = true := isBinary_eq_true_iff.mpr (.inl h)

namespace Evaluation

/-- The first part is run before the first token of the second part, which goes on from there. -/
theorem run_append (policy : PercentPolicy) (operands : Stack Binary64) (following : Option Token)
    (first second : List Token) :
    run policy operands following (first ++ second) =
      match run policy operands (second.head?.or following) first with
      | .ok operands => run policy operands following second
      | .error e => .error e := by
  induction first generalizing operands with
  | nil => rfl
  | cons token rest ih =>
    rw [List.cons_append, run, run, List.head?_append, Option.or_assoc]
    cases step policy operands (rest.head?.or (second.head?.or following)) token with
    | error e => rfl
    | ok next => exact ih next

/-- A first part that succeeds hands its operands to the second part. -/
theorem run_append_of_ok {policy : PercentPolicy} {operands between : Stack Binary64}
    {following : Option Token} {first second : List Token}
    (h : run policy operands (second.head?.or following) first = .ok between) :
    run policy operands following (first ++ second) = run policy between following second := by
  rw [run_append, h]

/-- A run of one token is a step. -/
theorem run_singleton (policy : PercentPolicy) (operands : Stack Binary64)
    (following : Option Token) (token : Token) :
    run policy operands following [token] = step policy operands following token := by
  rw [run, List.head?_nil, Option.none_or]
  cases step policy operands following token <;> rfl

/-- A binary operator takes two operands. -/
theorem applyOperator_of_isBinary {policy : PercentPolicy} {symbol : OperatorSymbol}
    (h : policy.isBinary symbol = true) (operands : Stack Binary64) (next : Option Token) :
    applyOperator policy symbol operands next = applyBinary symbol operands := by
  cases policy with
  | remainder => rfl
  | contextual =>
    cases symbol with
    | percent => cases h
    | plus | minus | times | divide => rfl

/-- An operator that is not binary is a contextual percent sign. -/
theorem applyOperator_of_not_isBinary {policy : PercentPolicy} {symbol : OperatorSymbol}
    (h : policy.isBinary symbol = false) (operands : Stack Binary64) (next : Option Token) :
    applyOperator policy symbol operands next = applyPercent operands next := by
  cases symbol with
  | percent =>
    cases policy with
    | contextual => rfl
    | remainder => cases h
  | plus | minus | times | divide => cases h

/-- The two operands on top are replaced by the value of the operator between them. -/
theorem step_operator_push_push {policy : PercentPolicy} {symbol : OperatorSymbol}
    (h : policy.isBinary symbol = true) (base : Stack Binary64) (left right : Binary64)
    (next : Option Token) :
    step policy ((base.push left).push right) next (.operator symbol) =
      .ok (base.push (symbol.apply left right)) := by
  rw [step, applyOperator_of_isBinary h, applyBinary, Stack.popPair_push_push]
  rfl

/-- Only the symbol of the next token makes a percentage a plain fraction. -/
theorem isFractionContext_eq (next : Option Token) :
    isFractionContext next = (next.bind Token.symbol?).any OperatorSymbol.isMultiplicative := by
  cases next with
  | none => rfl
  | some token => cases token <;> rfl

/-- A contextual percent sign replaces the operand on top by its share. -/
theorem step_percent_push (base : Stack Binary64) (value : Binary64) (next : Option Token) :
    step .contextual (base.push value) next (.operator .percent) =
      .ok (base.push (match base.peek? with
        | none => value / .hundred
        | some total =>
          if (next.bind Token.symbol?).any OperatorSymbol.isMultiplicative then value / .hundred
          else total * value / .hundred)) := by
  rw [step, applyOperator, applyPercent, Stack.pop_push, isFractionContext_eq]
  dsimp only
  cases base.peek? with
  | none => rfl
  | some total => cases (next.bind Token.symbol?).any OperatorSymbol.isMultiplicative <;> rfl

/-- Tokens that leave the operands of an operator, one part each, and then the operator leave its
value. -/
theorem run_operands_operator {policy : PercentPolicy} {symbol : OperatorSymbol}
    (h : policy.isBinary symbol = true) {base : Stack Binary64} {left right : Binary64}
    {following : Option Token} {first second : List Token}
    (hleft : run policy base ((second ++ [Token.operator symbol]).head?.or following) first =
      .ok (base.push left))
    (hright : run policy (base.push left) (some (.operator symbol)) second =
      .ok ((base.push left).push right)) :
    run policy base following (first ++ (second ++ [.operator symbol])) =
      .ok (base.push (symbol.apply left right)) := by
  rw [run_append_of_ok hleft, run_append_of_ok hright, run_singleton]
  exact step_operator_push_push h base left right following

/-- Tokens that leave one operand have its presentation as their value. -/
theorem evaluate_of_run {mode : Mode} {tokens : List Token} {value : Binary64}
    (h : run mode.policy .empty none tokens = .ok (Stack.empty.push value)) :
    evaluate mode tokens = .ok (mode.present value) := by
  rw [evaluate, h]
  rfl

/-- Tokens that leave one operand have it as their value, unrounded or rounded for display. -/
theorem evaluate_ofSettings_of_run {policy : PercentPolicy} {tokens : List Token} {value : Binary64}
    (raw : Bool) (h : run policy .empty none tokens = .ok (Stack.empty.push value)) :
    evaluate (.ofSettings policy raw) tokens =
      .ok (if raw then value else value.roundForDisplay) := by
  have hrun : run (Mode.ofSettings policy raw).policy .empty none tokens =
      .ok (Stack.empty.push value) := by
    rw [Mode.policy_ofSettings, h]
  rw [evaluate_of_run hrun, Mode.present, Mode.raw_ofSettings]

end Evaluation

end PocketCalc
