import PocketCalc.Proofs.Evaluation.Depth
import PocketCalc.Proofs.PostfixOrder.Parentheses
import PocketCalc.Proofs.Token.Pieces

/-!
# Errors of typed expressions

The tokens of an expression decide whether it has a value and with which error it fails: first the
balance of its parentheses, then the numbers of its operands and operators, and never the values of
its numbers. `evaluateExpression_errors` collects what can be read off the tokens.
-/

namespace PocketCalc

namespace Token

/-- A conversion keeps the numbers. -/
theorem numberCount_reordered {tokens reordered : List Token}
    (h : toPostfix tokens = .ok reordered) : numberCount reordered = numberCount tokens :=
  countP_reordered h fun _ ↦ rfl

/-- A conversion keeps the operators that take two operands. -/
theorem binaryCount_reordered {tokens reordered : List Token}
    (h : toPostfix tokens = .ok reordered) (policy : PercentPolicy) :
    binaryCount policy reordered = binaryCount policy tokens :=
  countP_reordered h fun _ ↦ rfl

end Token

namespace Evaluation

open Token

/-- Tokens in postfix order that come from a conversion have a value, or a final number of operands
other than one, or fail with an underflow. -/
theorem outcome_cases (policy : PercentPolicy) {tokens : List Token}
    (hparen : ∀ token ∈ tokens, token.isParenthesis = false) :
    (outcome policy tokens = .ok () ∧ numberCount tokens = binaryCount policy tokens + 1) ∨
    (∃ count, outcome policy tokens = .error (.leftover count) ∧ 2 ≤ count ∧
      numberCount tokens = binaryCount policy tokens + count) ∨
    (∃ u, outcome policy tokens = .error (.underflow u) ∧
      (u = ⟨1, 0⟩ ∨ u = ⟨2, 0⟩ ∨ u = ⟨2, 1⟩)) := by
  rw [outcome]
  cases hrun : depthRun policy 0 tokens with
  | error e =>
    right; right
    rcases depthRun_eq_error_cases hrun hparen with rfl | rfl | rfl
    · exact ⟨_, rfl, .inl rfl⟩
    · exact ⟨_, rfl, .inr (.inl rfl)⟩
    · exact ⟨_, rfl, .inr (.inr rfl)⟩
  | ok depth =>
    have hbalance := depthRun_balance hrun
    rcases depth with _ | _ | count
    · exact .inr (.inr ⟨_, rfl, .inl rfl⟩)
    · exact .inl ⟨rfl, by omega⟩
    · exact .inr (.inl ⟨count + 2, rfl, by omega, by omega⟩)

end Evaluation

/-- The outcome of an expression is that of its tokens in postfix order. -/
theorem evaluateReordered_outcome (mode : Mode)
    (conversion : Except ParenthesisError (List Token)) :
    (evaluateReordered mode conversion).map (fun _ ↦ ()) =
      match conversion with
      | .ok reordered => Evaluation.outcome mode.policy reordered
      | .error e => .error (.unbalanced e) := by
  cases conversion with
  | error e => rfl
  | ok reordered => exact Evaluation.evaluate_outcome mode reordered

/-- The outcome of an expression does not depend on the values of its numbers. -/
theorem evaluateTokens_erase (mode : Mode) (tokens : List Token) :
    (evaluateTokens mode (tokens.map .erase)).map (fun _ ↦ ()) =
      (evaluateTokens mode tokens).map (fun _ ↦ ()) := by
  rw [evaluateTokens, evaluateTokens, evaluateReordered_outcome, evaluateReordered_outcome,
    PostfixOrder.toPostfix_erase]
  cases toPostfix tokens with
  | error e => rfl
  | ok reordered => exact Evaluation.outcome_erase mode.policy reordered

open Parentheses Token in
/-- An expression fails for its parentheses, or has a value, or leaves several operands, or lacks
operands; what its tokens count up to says which of these can be. -/
theorem evaluateTokens_cases (mode : Mode) (tokens : List Token) :
    (¬ Balanced tokens ∧ ∃ cause, evaluateTokens mode tokens = .error (.unbalanced cause)) ∨
    (Balanced tokens ∧ (∃ value, evaluateTokens mode tokens = .ok value) ∧
      numberCount tokens = binaryCount mode.policy tokens + 1) ∨
    (Balanced tokens ∧ ∃ count, evaluateTokens mode tokens = .error (.leftover count) ∧
      2 ≤ count ∧ numberCount tokens = binaryCount mode.policy tokens + count) ∨
    (Balanced tokens ∧ ∃ u, evaluateTokens mode tokens = .error (.underflow u) ∧
      (u = ⟨1, 0⟩ ∨ u = ⟨2, 0⟩ ∨ u = ⟨2, 1⟩)) := by
  have houtcome := evaluateReordered_outcome mode (toPostfix tokens)
  cases hconversion : toPostfix tokens with
  | error e =>
    have hnot : ¬ Balanced tokens := by
      rw [← exists_toPostfix_eq_ok_iff, hconversion]
      rintro ⟨_, h⟩
      cases h
    refine .inl ⟨hnot, e, ?_⟩
    rw [evaluateTokens, hconversion]
    rfl
  | ok reordered =>
    have hbalanced := exists_toPostfix_eq_ok_iff.mp ⟨reordered, hconversion⟩
    have hn := numberCount_reordered hconversion
    have hb := binaryCount_reordered hconversion mode.policy
    rw [hconversion] at houtcome
    rw [evaluateTokens, hconversion]
    right
    rcases Evaluation.outcome_cases mode.policy (isParenthesis_reordered hconversion) with
      ⟨hok, hcount⟩ | ⟨count, hleft, hle, hcount⟩ | ⟨u, hunder, hu⟩
    · exact .inl ⟨hbalanced, Evaluation.map_unit_eq_ok_iff.mp (houtcome.trans hok), by omega⟩
    · have herror := Evaluation.map_unit_eq_error_iff.mp (houtcome.trans hleft)
      exact .inr (.inl ⟨hbalanced, count, herror, hle, by omega⟩)
    · have herror := Evaluation.map_unit_eq_error_iff.mp (houtcome.trans hunder)
      exact .inr (.inr ⟨hbalanced, u, herror, hu⟩)

section Cases

open Parentheses Token

variable {mode : Mode} {tokens : List Token}

/-- Exactly unbalanced parentheses are reported as such. -/
theorem evaluateTokens_unbalanced_iff :
    (∃ cause, evaluateTokens mode tokens = .error (.unbalanced cause)) ↔ ¬ Balanced tokens := by
  rcases evaluateTokens_cases mode tokens with
    ⟨hnot, cause, hx⟩ | ⟨hbalanced, ⟨value, hx⟩, -⟩ | ⟨hbalanced, count, hx, -⟩ |
      ⟨hbalanced, u, hx, -⟩
  · simp [hx, hnot]
  · simp [hx, hbalanced]
  · simp [hx, hbalanced]
  · simp [hx, hbalanced]

/-- A conversion hands no parenthesis to the evaluation. -/
theorem evaluateTokens_ne_invalidOperator (symbol : String) :
    evaluateTokens mode tokens ≠ .error (.invalidOperator symbol) := by
  rcases evaluateTokens_cases mode tokens with
    ⟨-, cause, hx⟩ | ⟨-, ⟨value, hx⟩, -⟩ | ⟨-, count, hx, -⟩ | ⟨-, u, hx, -⟩
  all_goals simp [hx]

/-- A value takes one number more than binary operators. -/
theorem numberCount_of_evaluateTokens_eq_ok {value : Binary64}
    (h : evaluateTokens mode tokens = .ok value) :
    numberCount tokens = binaryCount mode.policy tokens + 1 := by
  rcases evaluateTokens_cases mode tokens with
    ⟨-, cause, hx⟩ | ⟨-, -, hcount⟩ | ⟨-, count, hx, -⟩ | ⟨-, u, hx, -⟩
  · rw [hx] at h; cases h
  · exact hcount
  · rw [hx] at h; cases h
  · rw [hx] at h; cases h

/-- Left-over operands are the numbers that the binary operators do not take, and at least two. -/
theorem numberCount_of_leftover {count : Nat}
    (h : evaluateTokens mode tokens = .error (.leftover count)) :
    numberCount tokens = binaryCount mode.policy tokens + count ∧ 2 ≤ count := by
  rcases evaluateTokens_cases mode tokens with
    ⟨-, cause, hx⟩ | ⟨-, ⟨value, hx⟩, -⟩ | ⟨-, n, hx, hle, hcount⟩ | ⟨-, u, hx, -⟩
  · rw [hx] at h; cases h
  · rw [hx] at h; cases h
  · rw [hx] at h
    cases h
    exact ⟨hcount, hle⟩
  · rw [hx] at h; cases h

/-- Nothing, or one operand of two, is there when operands are lacking. -/
theorem underflow_cases {u : Underflow} (h : evaluateTokens mode tokens = .error (.underflow u)) :
    u = ⟨1, 0⟩ ∨ u = ⟨2, 0⟩ ∨ u = ⟨2, 1⟩ := by
  rcases evaluateTokens_cases mode tokens with
    ⟨-, cause, hx⟩ | ⟨-, ⟨value, hx⟩, -⟩ | ⟨-, n, hx, -⟩ | ⟨-, v, hx, hv⟩
  · rw [hx] at h; cases h
  · rw [hx] at h; cases h
  · rw [hx] at h; cases h
  · rw [hx] at h
    cases h
    exact hv

/-- Balanced tokens with no more numbers than binary operators lack operands. -/
theorem exists_underflow (hbalanced : Balanced tokens)
    (h : numberCount tokens ≤ binaryCount mode.policy tokens) :
    ∃ u, evaluateTokens mode tokens = .error (.underflow u) := by
  rcases evaluateTokens_cases mode tokens with
    ⟨hnot, -⟩ | ⟨-, -, hcount⟩ | ⟨-, n, -, hle, hcount⟩ | ⟨-, u, hx, -⟩
  · exact (hnot hbalanced).elim
  · omega
  · omega
  · exact ⟨u, hx⟩

end Cases

/-- Texts of one outline have tokens that differ only in the values of numbers. -/
theorem map_erase_tokenize {text other : String} (h : outline other = outline text) :
    (tokenize other).map Token.erase = (tokenize text).map Token.erase := by
  have herase : ∀ piece : Piece, piece.token.erase =
      (piece.symbol?.getD (.number (.zero false))).erase := by
    intro piece
    cases piece <;> rfl
  have hmap : ∀ text : String, (tokenize text).map Token.erase =
      (outline text).map fun mark ↦ (mark.getD (.number (.zero false))).erase := by
    intro text
    rw [tokenize_eq, outline, List.map_map, List.map_map]
    exact List.map_congr_left fun piece _ ↦ herase piece
  rw [hmap, hmap, h]

/-- Texts of one outline succeed alike or fail with the same error. -/
theorem evaluateExpression_of_outline_eq (mode : Mode) {text other : String}
    (h : outline other = outline text) :
    (evaluateExpression mode other).map (fun _ ↦ ()) =
      (evaluateExpression mode text).map (fun _ ↦ ()) := by
  rw [evaluateExpression, evaluateExpression, ← evaluateTokens_erase,
    ← evaluateTokens_erase mode (tokenize text), map_erase_tokenize h]

open Parentheses Token in
/-- The tokens of a typed expression decide its errors. It is reported as unbalanced exactly when
its parentheses are not balanced; no operator is ever invalid; a value means one number more than
binary operators, and left-over operands count the difference, which is at least two; an underflow
is one of three, and occurs whenever balanced tokens have no more numbers than binary operators.
Texts that differ only in what their literals are succeed alike or fail with the same error. -/
theorem evaluateExpression_errors (mode : Mode) (text : String) :
    ((∃ cause, evaluateExpression mode text = .error (.unbalanced cause)) ↔
      ¬ Balanced (tokenize text)) ∧
    (∀ symbol, evaluateExpression mode text ≠ .error (.invalidOperator symbol)) ∧
    (∀ value, evaluateExpression mode text = .ok value →
      numberCount (tokenize text) = binaryCount mode.policy (tokenize text) + 1) ∧
    (∀ count, evaluateExpression mode text = .error (.leftover count) →
      numberCount (tokenize text) = binaryCount mode.policy (tokenize text) + count ∧ 2 ≤ count) ∧
    (∀ u, evaluateExpression mode text = .error (.underflow u) →
      u = ⟨1, 0⟩ ∨ u = ⟨2, 0⟩ ∨ u = ⟨2, 1⟩) ∧
    (Balanced (tokenize text) →
      numberCount (tokenize text) ≤ binaryCount mode.policy (tokenize text) →
      ∃ u, evaluateExpression mode text = .error (.underflow u)) ∧
    (∀ other, outline other = outline text →
      (evaluateExpression mode other).map (fun _ ↦ ()) =
        (evaluateExpression mode text).map (fun _ ↦ ())) := by
  refine ⟨evaluateTokens_unbalanced_iff, evaluateTokens_ne_invalidOperator, ?_, ?_, ?_,
    exists_underflow, ?_⟩
  · intro value h
    exact numberCount_of_evaluateTokens_eq_ok h
  · intro count h
    exact numberCount_of_leftover h
  · intro u h
    exact underflow_cases h
  · intro other h
    exact evaluateExpression_of_outline_eq mode h

open Parentheses Token in
/-- A missing operand, whatever the other one is, an operand after a percent sign, and a value. -/
theorem evaluateExpression_errors_texts :
    (Balanced (tokenize "5+") ∧
      numberCount (tokenize "5+") ≤ binaryCount .contextual (tokenize "5+") ∧
      ∃ u, evaluateExpression {} "5+" = .error (.underflow u)) ∧
    (outline "7.25+" = outline "5+" ∧
      (evaluateExpression {} "7.25+").map (fun _ ↦ ()) =
        (evaluateExpression {} "5+").map (fun _ ↦ ())) ∧
    (evaluateExpression {} "200%10" = .error (.leftover 2) ∧
      numberCount (tokenize "200%10") = binaryCount .contextual (tokenize "200%10") + 2) ∧
    (∃ value, evaluateExpression {} "(5)" = .ok value ∧
      numberCount (tokenize "(5)") = binaryCount .contextual (tokenize "(5)") + 1) := by
  have hliteral : outline "7.25+" = outline "5+" := rfl
  have hleft : evaluateExpression {} "200%10" = .error (.leftover 2) := rfl
  obtain ⟨-, -, -, -, -, hlacking, hsame⟩ := evaluateExpression_errors {} "5+"
  obtain ⟨-, -, -, hcount, -⟩ := evaluateExpression_errors {} "200%10"
  obtain ⟨-, -, hvalue, -⟩ := evaluateExpression_errors {} "(5)"
  exact ⟨⟨by decide, by decide, hlacking (by decide) (by decide)⟩, ⟨hliteral, hsame _ hliteral⟩,
    ⟨hleft, (hcount 2 hleft).1⟩, ⟨_, rfl, hvalue _ rfl⟩⟩

end PocketCalc
