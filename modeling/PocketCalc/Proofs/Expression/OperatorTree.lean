import PocketCalc.Proofs.Evaluation.Run
import PocketCalc.Proofs.PostfixOrder.Precedence

/-!
# Operator trees

With percent signs as remainders, an expression is a tree of binary operators over numbers. The tree
is the grouping that precedence, associativity and parentheses give the tokens. The conversion lists
the tree in postorder and the evaluation computes it from the leaves up:
`Expression.evaluate_operatorTree`.
-/

namespace PocketCalc

/-- Numbers joined by binary operators. -/
inductive OperatorTree where
  | leaf (value : Binary64)
  | node (symbol : OperatorSymbol) (left right : OperatorTree)
deriving DecidableEq, Repr

namespace OperatorTree

/-- Both operands of an operator, the left one first, and then the operator. -/
def postorder : OperatorTree → List Token
  | leaf value => [.number value]
  | node symbol left right => left.postorder ++ (right.postorder ++ [.operator symbol])

/-- The value of an operator between the values of its operands. -/
def value : OperatorTree → Binary64
  | leaf value => value
  | node symbol left right => symbol.apply left.value right.value

open Evaluation in
/-- Above any operands and before any token, the postorder of a tree leaves the value of the tree
when all its operators take two operands. -/
theorem run_postorder {policy : PercentPolicy} (tree : OperatorTree)
    (h : ∀ symbol, .operator symbol ∈ tree.postorder → policy.isBinary symbol = true)
    (base : Stack Binary64) (following : Option Token) :
    run policy base following tree.postorder = .ok (base.push tree.value) := by
  induction tree generalizing base following with
  | leaf value => rfl
  | node symbol left right ihl ihr =>
    have hsymbol : policy.isBinary symbol = true := h symbol (by simp [postorder])
    have hleft := ihl (fun s hs ↦ h s (List.mem_append_left _ hs)) base
    have hright := ihr (fun s hs ↦ h s (List.mem_append_right _ (List.mem_append_left _ hs)))
      (base.push left.value)
    exact run_operands_operator hsymbol (hleft _) (hright _)

end OperatorTree

namespace Expression

/-- The grouping of an expression, in which percent signs are binary operators. -/
def tree {level : Level} : Expression .remainder level → OperatorTree
  | number value => .leaf value
  | group inner => inner.tree
  | ofAtom atom => atom.tree
  | share h _ => nomatch h
  | remainder _ left right => .node .percent left.tree right.tree
  | ofFactor factor => factor.tree
  | multiplicative symbol _ left right => .node symbol left.tree right.tree
  | ofProduct product => product.tree
  | additive symbol _ left right => .node symbol left.tree right.tree

/-- The postorder of an expression is that of its tree. -/
theorem postorder_tree {level : Level} (e : Expression .remainder level) :
    e.tree.postorder = e.postorder := by
  induction e with
  | number value => rfl
  | group inner ih => exact ih
  | ofAtom atom ih => exact ih
  | share h operand ih => cases h
  | remainder h left right ihl ihr => rw [tree, postorder, OperatorTree.postorder, ihl, ihr]
  | ofFactor factor ih => exact ih
  | multiplicative symbol h left right ihl ihr =>
    rw [tree, postorder, OperatorTree.postorder, ihl, ihr]
  | ofProduct product ih => exact ih
  | additive symbol h left right ihl ihr => rw [tree, postorder, OperatorTree.postorder, ihl, ihr]

/-- Every token of the postorder is one of those typed. -/
theorem mem_tokens_of_mem_postorder {role : PercentRole} {level : Level}
    {e : Expression role level} {token : Token} (h : token ∈ e.postorder) : token ∈ e.tokens := by
  induction e with
  | number value => exact h
  | group inner ih => exact List.mem_cons_of_mem _ (List.mem_append_left _ (ih h))
  | ofAtom atom ih => exact ih h
  | share hrole operand ih =>
    simp only [postorder, tokens, List.mem_append] at h ⊢
    exact h.imp_left ih
  | ofFactor factor ih => exact ih h
  | ofProduct product ih => exact ih h
  | remainder hrole left right ihl ihr | multiplicative symbol hrole left right ihl ihr
  | additive symbol hrole left right ihl ihr =>
    simp only [postorder, tokens, List.mem_append, List.mem_cons, List.not_mem_nil, or_false] at h ⊢
    rcases h with h | h | h
    · exact .inl (ihl h)
    · exact .inr (.inr (ihr h))
    · exact .inr (.inl h)

/-- Precedence, associativity and parentheses are respected. An expression over `+ - × ÷` and binary
percent signs is converted to the postorder of its operator tree, and with percent signs as
remainders the unrounded value of that is the value of the tree. Without a percent sign among the
tokens the reading of percent signs does not matter. -/
theorem evaluate_operatorTree (e : Expression .remainder .sum) :
    toPostfix e.tokens = .ok e.tree.postorder ∧
    evaluate (.ofSettings .remainder true) e.tree.postorder = .ok e.tree.value ∧
    (.operator .percent ∉ e.tokens →
      evaluate (.ofSettings .contextual true) e.tree.postorder = .ok e.tree.value) := by
  refine ⟨?_, ?_, ?_⟩
  · rw [postorder_tree]
    exact e.toPostfix_tokens
  · have hbinary := fun symbol (_ : Token.operator symbol ∈ e.tree.postorder) ↦
      PercentPolicy.isBinary_remainder symbol
    exact Evaluation.evaluate_ofSettings_of_run true (e.tree.run_postorder hbinary .empty none)
  · intro hno
    have hbinary : ∀ symbol, Token.operator symbol ∈ e.tree.postorder →
        PercentPolicy.contextual.isBinary symbol = true := by
      intro symbol hs
      rw [postorder_tree] at hs
      refine PercentPolicy.isBinary_of_ne_percent _ fun heq ↦ hno ?_
      rw [← heq]
      exact mem_tokens_of_mem_postorder hs
    exact Evaluation.evaluate_ofSettings_of_run true (e.tree.run_postorder hbinary .empty none)

/-- The expression `7-3×(2-1)` has no percent sign. -/
theorem evaluate_operatorTree_without_percent :
    let number (n : Nat) : Expression .remainder .factor := .ofAtom (.number (.ofNat n))
    let difference : Expression .remainder .sum :=
      .additive .minus rfl (.ofProduct (.ofFactor (number 2))) (.ofFactor (number 1))
    let e : Expression .remainder .sum :=
      .additive .minus rfl (.ofProduct (.ofFactor (number 7)))
        (.multiplicative .times rfl (.ofFactor (number 3)) (.ofAtom (.group difference)))
    .operator .percent ∉ e.tokens ∧
      evaluate (.ofSettings .contextual true) e.tree.postorder = .ok e.tree.value := by
  intro number difference e
  have hno : .operator .percent ∉ e.tokens := by
    simp [e, difference, number, tokens]
  exact ⟨hno, e.evaluate_operatorTree.2.2 hno⟩

end Expression

end PocketCalc
