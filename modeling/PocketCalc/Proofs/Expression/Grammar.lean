import PocketCalc.Token.Basic

/-!
# Well-formed expressions

`Expression` is the grammar of well-formed token lists, each expression being one derivation:

* a sum is a product, or a sum, `+` or `-`, and a product;
* a product is a factor, or a product, `×` or `÷`, and a factor;
* a factor is an atom, or has a percent sign in one of its two roles: `F %` in a grammar of shares,
  `A % F` in a grammar of remainders;
* an atom is a number or a sum in parentheses.

`Expression.tokens` is what is typed, `Expression.postorder` the operands of every operator before
the operator itself.
-/

namespace PocketCalc

/-- Addition and subtraction. -/
def OperatorSymbol.isAdditive : OperatorSymbol → Bool
  | plus | minus => true
  | _ => false

/-- Multiplication and division. -/
def OperatorSymbol.isTimesOrDivide : OperatorSymbol → Bool
  | times | divide => true
  | _ => false

/-- These two are what the evaluation takes for multiplicative. -/
theorem OperatorSymbol.isTimesOrDivide_eq : isTimesOrDivide = isMultiplicative := by
  funext symbol
  cases symbol <;> rfl

/-- Every operator has one of three precedences. -/
theorem OperatorSymbol.precedence_bounds (symbol : OperatorSymbol) :
    1 ≤ symbol.operator.precedence ∧ symbol.operator.precedence ≤ 3 := by
  cases symbol <;> decide

/-- Sums have the lowest precedence. -/
theorem OperatorSymbol.isAdditive_iff {symbol : OperatorSymbol} :
    symbol.isAdditive = true ↔ symbol.operator.precedence = 1 := by
  cases symbol <;> decide

/-- Products have the precedence between. -/
theorem OperatorSymbol.isTimesOrDivide_iff {symbol : OperatorSymbol} :
    symbol.isTimesOrDivide = true ↔ symbol.operator.precedence = 2 := by
  cases symbol <;> decide

/-- The percent sign alone has the highest precedence. -/
theorem OperatorSymbol.eq_percent_iff {symbol : OperatorSymbol} :
    symbol = .percent ↔ symbol.operator.precedence = 3 := by
  cases symbol <;> decide

/-- Addition and subtraction are no percent signs. -/
theorem OperatorSymbol.ne_percent_of_isAdditive {symbol : OperatorSymbol}
    (h : symbol.isAdditive = true) : symbol ≠ percent := by
  rintro rfl
  cases h

/-- Multiplication and division are no percent signs. -/
theorem OperatorSymbol.ne_percent_of_isTimesOrDivide {symbol : OperatorSymbol}
    (h : symbol.isTimesOrDivide = true) : symbol ≠ percent := by
  rintro rfl
  cases h

/-- The nonterminals of the grammar, from the loosest to the tightest. -/
inductive Level where
  | sum
  | product
  | factor
  | atom
deriving DecidableEq, Repr

/-- The least precedence of an operator that is not inside a group. -/
def Level.precedence : Level → Nat
  | sum => 1
  | product => 2
  | factor => 3
  | atom => 4

/-- What a percent sign is in a grammar: not there, a mark after an operand, or an operator between
two operands. -/
inductive PercentRole where
  | absent
  | share
  | remainder
deriving DecidableEq, Repr

/-- The derivations of each nonterminal. -/
inductive Expression (role : PercentRole) : Level → Type where
  | number (value : Binary64) : Expression role .atom
  | group (inner : Expression role .sum) : Expression role .atom
  | ofAtom (atom : Expression role .atom) : Expression role .factor
  | share (h : role = .share) (operand : Expression role .factor) : Expression role .factor
  | remainder (h : role = .remainder) (left : Expression role .atom)
      (right : Expression role .factor) : Expression role .factor
  | ofFactor (factor : Expression role .factor) : Expression role .product
  | multiplicative (symbol : OperatorSymbol) (h : symbol.isTimesOrDivide = true)
      (left : Expression role .product) (right : Expression role .factor) : Expression role .product
  | ofProduct (product : Expression role .product) : Expression role .sum
  | additive (symbol : OperatorSymbol) (h : symbol.isAdditive = true)
      (left : Expression role .sum) (right : Expression role .product) : Expression role .sum

namespace Expression

variable {role : PercentRole}

/-- The tokens of an expression in the order in which they are typed. -/
def tokens {level : Level} : Expression role level → List Token
  | number value => [.number value]
  | group inner => .parenthesis .opening :: (inner.tokens ++ [.parenthesis .closing])
  | ofAtom atom => atom.tokens
  | share _ operand => operand.tokens ++ [.operator .percent]
  | remainder _ left right => left.tokens ++ .operator .percent :: right.tokens
  | ofFactor factor => factor.tokens
  | multiplicative symbol _ left right => left.tokens ++ .operator symbol :: right.tokens
  | ofProduct product => product.tokens
  | additive symbol _ left right => left.tokens ++ .operator symbol :: right.tokens

/-- The numbers and operators of an expression, every operator after its operands. -/
def postorder {level : Level} : Expression role level → List Token
  | number value => [.number value]
  | group inner => inner.postorder
  | ofAtom atom => atom.postorder
  | share _ operand => operand.postorder ++ [.operator .percent]
  | remainder _ left right => left.postorder ++ (right.postorder ++ [.operator .percent])
  | ofFactor factor => factor.postorder
  | multiplicative symbol _ left right =>
    left.postorder ++ (right.postorder ++ [.operator symbol])
  | ofProduct product => product.postorder
  | additive symbol _ left right => left.postorder ++ (right.postorder ++ [.operator symbol])

end Expression

end PocketCalc
