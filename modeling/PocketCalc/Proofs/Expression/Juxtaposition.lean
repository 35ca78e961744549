import PocketCalc.Proofs.Evaluation.Depth
import PocketCalc.Proofs.Expression.Grammar
import PocketCalc.Proofs.PostfixOrder.Precedence

/-!
# Operands straight after percent signs

An operand may be typed straight after percent signs, although a contextual percent sign does not
join two operands. The conversion puts such percent signs behind that operand, and the evaluation
goes on with one operand too many. `LooseExpression` is the grammar of these expressions,
`LooseExpression.juxtapositions` counts the places, and
`LooseExpression.evaluate_juxtapositions` says that every one of them is reported.
-/

namespace PocketCalc

/-- The derivations of each nonterminal of a grammar in which an atom may have one or more percent
signs after it, the further ones being counted, and after these another factor. Sums, products and
groups are as in `Expression`. -/
inductive LooseExpression : Level → Type where
  | number (value : Binary64) : LooseExpression .atom
  | group (inner : LooseExpression .sum) : LooseExpression .atom
  | ofAtom (atom : LooseExpression .atom) : LooseExpression .factor
  | share (operand : LooseExpression .atom) (further : Nat) : LooseExpression .factor
  | juxtaposed (left : LooseExpression .atom) (further : Nat) (right : LooseExpression .factor) :
    LooseExpression .factor
  | ofFactor (factor : LooseExpression .factor) : LooseExpression .product
  | multiplicative (symbol : OperatorSymbol) (h : symbol.isTimesOrDivide = true)
      (left : LooseExpression .product) (right : LooseExpression .factor) : LooseExpression .product
  | ofProduct (product : LooseExpression .product) : LooseExpression .sum
  | additive (symbol : OperatorSymbol) (h : symbol.isAdditive = true)
      (left : LooseExpression .sum) (right : LooseExpression .product) : LooseExpression .sum

namespace LooseExpression

/-- One percent sign and further ones. -/
def percents (further : Nat) : List Token := List.replicate (further + 1) (.operator .percent)

/-- The tokens of an expression in the order in which they are typed. -/
def tokens {level : Level} : LooseExpression level → List Token
  | number value => [.number value]
  | group inner => .parenthesis .opening :: (inner.tokens ++ [.parenthesis .closing])
  | ofAtom atom => atom.tokens
  | share operand further => operand.tokens ++ percents further
  | juxtaposed left further right => left.tokens ++ (percents further ++ right.tokens)
  | ofFactor factor => factor.tokens
  | multiplicative symbol _ left right => left.tokens ++ .operator symbol :: right.tokens
  | ofProduct product => product.tokens
  | additive symbol _ left right => left.tokens ++ .operator symbol :: right.tokens

/-- The numbers and operators of an expression, every operator after its operands and percent signs
also after an operand that follows them. -/
def postorder {level : Level} : LooseExpression level → List Token
  | number value => [.number value]
  | group inner => inner.postorder
  | ofAtom atom => atom.postorder
  | share operand further => operand.postorder ++ percents further
  | juxtaposed left further right => left.postorder ++ (right.postorder ++ percents further)
  | ofFactor factor => factor.postorder
  | multiplicative symbol _ left right =>
    left.postorder ++ (right.postorder ++ [.operator symbol])
  | ofProduct product => product.postorder
  | additive symbol _ left right => left.postorder ++ (right.postorder ++ [.operator symbol])

/-- How often percent signs are directly followed by an operand. -/
def juxtapositions {level : Level} : LooseExpression level → Nat
  | number _ => 0
  | group inner => inner.juxtapositions
  | ofAtom atom => atom.juxtapositions
  | share operand _ => operand.juxtapositions
  | juxtaposed left _ right => left.juxtapositions + right.juxtapositions + 1
  | ofFactor factor => factor.juxtapositions
  | multiplicative _ _ left right => left.juxtapositions + right.juxtapositions
  | ofProduct product => product.juxtapositions
  | additive _ _ left right => left.juxtapositions + right.juxtapositions

variable {level : Level}

open PostfixOrder in
/-- Every expression reads as its postorder at the precedence of its level. -/
theorem readsAs (e : LooseExpression level) :
    ReadsAs level.precedence e.tokens e.postorder := by
  induction e with
  | number value => exact readsAs_number 4 value
  | group inner ih => exact ih.group 4
  | ofAtom atom ih => exact ih.mono (by decide)
  | share operand further ih => exact (ih.mono (by decide)).shares (further + 1)
  | juxtaposed left further right ihl ihr =>
    exact ihl.atom_append (by decide) (ihr.percents_append (further + 1))
  | ofFactor factor ih => exact ih.mono (by decide)
  | multiplicative symbol h left right ihl ihr =>
    exact ReadsAs.binary (OperatorSymbol.operator_of_isTimesOrDivide h) ihl ihr
  | ofProduct product ih => exact ih.mono (by decide)
  | additive symbol h left right ihl ihr =>
    exact ReadsAs.binary (OperatorSymbol.operator_of_isAdditive h) ihl ihr

open Evaluation

/-- Contextual percent signs keep the number of operands when there is one. -/
theorem depthRun_percents (depth further : Nat) :
    depthRun .contextual (depth + 1) (percents further) = .ok (depth + 1) := by
  rw [percents]
  induction further + 1 with
  | zero => rfl
  | succ count ih => exact ih

/-- An operator other than a percent sign makes one operand of two. -/
theorem depthRun_operator {symbol : OperatorSymbol} (h : symbol ≠ .percent) (depth : Nat) :
    depthRun .contextual (depth + 2) [.operator symbol] = .ok (depth + 1) := by
  have hdepth : ¬ depth + 2 < 2 := by omega
  rw [depthRun, depthStep, if_pos (PercentPolicy.isBinary_of_ne_percent _ h), if_neg hdepth]
  rfl

/-- Two operands that leave some more operands each, and then an operator between them. -/
private theorem depthRun_operands_operator {symbol : OperatorSymbol} (h : symbol ≠ .percent)
    {depth m n : Nat} {first second : List Token}
    (hfirst : ∀ depth, depthRun .contextual depth first = .ok (depth + m + 1))
    (hsecond : ∀ depth, depthRun .contextual depth second = .ok (depth + n + 1)) :
    depthRun .contextual depth (first ++ (second ++ [.operator symbol])) =
      .ok (depth + (m + n) + 1) := by
  rw [depthRun_append_of_ok (hfirst depth), depthRun_append_of_ok (hsecond _)]
  have htwo : depth + m + 1 + n + 1 = depth + (m + n) + 2 := by omega
  rw [htwo, depthRun_operator h]

/-- From any depth, an expression leaves one operand and one more for every operand that follows
percent signs. -/
theorem depthRun_postorder (e : LooseExpression level) (depth : Nat) :
    depthRun .contextual depth e.postorder = .ok (depth + e.juxtapositions + 1) := by
  induction e generalizing depth with
  | number value => rfl
  | group inner ih => exact ih depth
  | ofAtom atom ih => exact ih depth
  | share operand further ih =>
    rw [postorder, depthRun_append_of_ok (ih depth), depthRun_percents, juxtapositions]
  | juxtaposed left further right ihl ihr =>
    -- Nothing takes the operands of the left side: the percent signs come last and keep the depth.
    rw [postorder, depthRun_append_of_ok (ihl depth), depthRun_append_of_ok (ihr _),
      depthRun_percents, juxtapositions]
    congr 1
    omega
  | ofFactor factor ih => exact ih depth
  | multiplicative symbol h left right ihl ihr =>
    have hsymbol := OperatorSymbol.ne_percent_of_isTimesOrDivide h
    exact depthRun_operands_operator hsymbol ihl ihr
  | ofProduct product ih => exact ih depth
  | additive symbol h left right ihl ihr =>
    have hsymbol := OperatorSymbol.ne_percent_of_isAdditive h
    exact depthRun_operands_operator hsymbol ihl ihr

/-- The outcome of an expression with contextual percent signs is decided by how often an operand
follows percent signs. -/
theorem outcome_postorder (e : LooseExpression .sum) :
    outcome .contextual e.postorder = verdict (e.juxtapositions + 1) := by
  rw [outcome, depthRun_postorder, Nat.zero_add]

/-- With contextual percent signs an operand straight after a percent sign is always reported. Every
expression in which operands may follow percent signs is converted. It has a value exactly when none
does; otherwise one operand more than there are such places is left over, and nothing else goes
wrong. -/
theorem evaluate_juxtapositions (e : LooseExpression .sum) (raw : Bool) :
    ∃ reordered, toPostfix e.tokens = .ok reordered ∧
      ((∃ value, evaluate (.ofSettings .contextual raw) reordered = .ok value) ↔
        e.juxtapositions = 0) ∧
      (1 ≤ e.juxtapositions → evaluate (.ofSettings .contextual raw) reordered =
        .error (.leftover (e.juxtapositions + 1))) := by
  have houtcome := evaluate_outcome (.ofSettings .contextual raw) e.postorder
  rw [Mode.policy_ofSettings, outcome_postorder] at houtcome
  refine ⟨e.postorder, e.readsAs.toPostfix_eq, ?_, ?_⟩
  · rw [← map_unit_eq_ok_iff, houtcome]
    cases e.juxtapositions with
    | zero => simp [verdict]
    | succ count => simp [verdict]
  · intro h
    rw [← map_unit_eq_error_iff, houtcome]
    obtain ⟨count, hcount⟩ := Nat.exists_eq_add_of_le' h
    rw [hcount]
    rfl

/-- In `200%%10-(1%2)%3×4%` an operand follows percent signs three times, so that four operands are
left over. -/
theorem evaluate_juxtapositions_three :
    let number (n : Nat) : LooseExpression .atom := .number (.ofNat n)
    let first : LooseExpression .factor := .juxtaposed (number 200) 1 (.ofAtom (number 10))
    let inner : LooseExpression .factor := .juxtaposed (number 1) 0 (.ofAtom (number 2))
    let second : LooseExpression .factor :=
      .juxtaposed (.group (.ofProduct (.ofFactor inner))) 0 (.ofAtom (number 3))
    let e : LooseExpression .sum := .additive .minus rfl (.ofProduct (.ofFactor first))
      (.multiplicative .times rfl (.ofFactor second) (.share (number 4) 0))
    1 ≤ e.juxtapositions ∧ ∃ reordered, toPostfix e.tokens = .ok reordered ∧
      evaluate {} reordered = .error (.leftover 4) := by
  intro number first inner second e
  obtain ⟨reordered, hconversion, -, hleft⟩ := e.evaluate_juxtapositions false
  have hplaces : 1 ≤ e.juxtapositions := by decide
  exact ⟨hplaces, reordered, hconversion, hleft hplaces⟩

end LooseExpression

end PocketCalc
