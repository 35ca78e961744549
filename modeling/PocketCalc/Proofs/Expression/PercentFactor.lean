import PocketCalc.Proofs.Expression.Share

/-!
# Percentages as first factors

A contextual percent sign is a plain hundredth only where the multiplication or division comes next
in postfix order. As the first factor of a product a percentage is followed by the second factor, so
that it is read like any other one: as a hundredth when nothing is below it, and as a share of the
running total when the product is added to that or subtracted from it. The other operands may be any
expressions without percent signs: their values do not depend on where they stand
(`Expression.contextualValue_embed`).
-/

namespace PocketCalc

namespace Expression

variable {role : PercentRole}

/-- An expression without percent signs belongs to every grammar. -/
def embed {level : Level} : Expression .absent level → Expression role level
  | number value => number value
  | group inner => group inner.embed
  | ofAtom atom => ofAtom atom.embed
  | share h _ => nomatch h
  | remainder h _ _ => nomatch h
  | ofFactor factor => ofFactor factor.embed
  | multiplicative symbol h left right => multiplicative symbol h left.embed right.embed
  | ofProduct product => ofProduct product.embed
  | additive symbol h left right => additive symbol h left.embed right.embed

/-- The value of an expression without percent signs. -/
def value {level : Level} : Expression .absent level → Binary64
  | number value => value
  | group inner => inner.value
  | ofAtom atom => atom.value
  | share h _ => nomatch h
  | remainder h _ _ => nomatch h
  | ofFactor factor => factor.value
  | multiplicative symbol _ left right => symbol.apply left.value right.value
  | ofProduct product => product.value
  | additive symbol _ left right => symbol.apply left.value right.value

variable {level : Level}

/-- The same tokens are typed in every grammar. -/
theorem tokens_embed (e : Expression .absent level) :
    (e.embed : Expression role level).tokens = e.tokens := by
  induction e with
  | number value => rfl
  | group inner ih => rw [embed, tokens, tokens, ih]
  | ofAtom atom ih => exact ih
  | share h operand ih => cases h
  | remainder h left right ihl ihr => cases h
  | ofFactor factor ih => exact ih
  | multiplicative symbol h left right ihl ihr => rw [embed, tokens, tokens, ihl, ihr]
  | ofProduct product ih => exact ih
  | additive symbol h left right ihl ihr => rw [embed, tokens, tokens, ihl, ihr]

/-- Without percent signs it does not matter what is below an expression and what comes next. -/
theorem contextualValue_embed (e : Expression .absent level) (below : Option Binary64)
    (next : Option OperatorSymbol) : e.embed.contextualValue below next = e.value := by
  induction e generalizing below next with
  | number value => rfl
  | group inner ih => exact ih below next
  | ofAtom atom ih => exact ih below next
  | share h operand ih => cases h
  | remainder h left right ihl ihr => cases h
  | ofFactor factor ih => exact ih below next
  | multiplicative symbol h left right ihl ihr =>
    simp only [embed, contextualValue, value, ihl, ihr]
  | ofProduct product ih => exact ih below next
  | additive symbol h left right ihl ihr =>
    simp only [embed, contextualValue, value, ihl, ihr]

/-- The unrounded value of typed tokens is their contextual value with nothing below or after. -/
theorem evaluateTokens_tokens (e : Expression .share .sum) :
    evaluateTokens (.ofSettings .contextual true) e.tokens = .ok (e.contextualValue none none) := by
  rw [evaluateTokens, e.toPostfix_tokens]
  exact Evaluation.evaluate_ofSettings_of_run true (e.run_postorder .empty none)

/-- The unrounded value of typed tokens without percent signs. -/
theorem evaluateTokens_value (e : Expression .absent .sum) :
    evaluateTokens (.ofSettings .contextual true) e.tokens = .ok e.value := by
  have htokens : (e.embed : Expression .share .sum).tokens = e.tokens := e.tokens_embed
  rw [← htokens, evaluateTokens_tokens, contextualValue_embed]

/-- The product of a percentage and another operand, both in parentheses. -/
def percentProduct {factor : OperatorSymbol} (h : factor.isTimesOrDivide = true)
    (first second : Expression .absent .sum) : Expression .share .product :=
  .multiplicative factor h (.ofFactor (.share rfl (.ofAtom (.group first.embed))))
    (.ofAtom (.group second.embed))

/-- What is typed for the product of a percentage. -/
theorem tokens_percentProduct {factor : OperatorSymbol} (h : factor.isTimesOrDivide = true)
    (first second : Expression .absent .sum) :
    (percentProduct h first second).tokens =
      (group first).tokens ++ .operator .percent :: .operator factor :: (group second).tokens := by
  simp only [percentProduct, tokens, tokens_embed, List.cons_append, List.append_assoc,
    List.nil_append]

/-- With nothing below, the percentage is a plain hundredth; else it is a share of what is below,
whichever operator comes after the product. -/
theorem contextualValue_percentProduct {factor : OperatorSymbol}
    (h : factor.isTimesOrDivide = true) (first second : Expression .absent .sum)
    (below : Option Binary64) (next : Option OperatorSymbol) :
    (percentProduct h first second).contextualValue below next =
      factor.apply (below.elim (first.value / .hundred) fun total ↦ total * first.value / .hundred)
        second.value := by
  simp only [percentProduct, contextualValue, contextualValue_embed]
  cases below <;> rfl

/-- A percentage as the first factor of a product takes a share of the running total. For any
expressions without percent signs, `(a) + (f)% × (r)` and its kind, with a subtraction or a division
instead, has the unrounded value in which `f` percent of the value of `a` are multiplied by or
divided by that of `r`, although `(f)% × (r)` by itself takes a plain hundredth of `f`. -/
theorem evaluateTokens_percent_product {symbol factor : OperatorSymbol}
    (hsymbol : symbol.isAdditive = true) (hfactor : factor.isTimesOrDivide = true)
    (a f r : Expression .absent .sum) :
    ∃ total percentage second,
      evaluateTokens (.ofSettings .contextual true) a.tokens = .ok total ∧
      evaluateTokens (.ofSettings .contextual true) f.tokens = .ok percentage ∧
      evaluateTokens (.ofSettings .contextual true) r.tokens = .ok second ∧
      evaluateTokens (.ofSettings .contextual true)
          ((group f).tokens ++ .operator .percent :: .operator factor :: (group r).tokens) =
        .ok (factor.apply (percentage / .hundred) second) ∧
      evaluateTokens (.ofSettings .contextual true)
          ((group a).tokens ++ .operator symbol ::
            ((group f).tokens ++ .operator .percent :: .operator factor :: (group r).tokens)) =
        .ok (symbol.apply total
          (factor.apply (total * percentage / .hundred) second)) := by
  refine ⟨a.value, f.value, r.value, a.evaluateTokens_value, f.evaluateTokens_value,
    r.evaluateTokens_value, ?_, ?_⟩
  · have halone := (ofProduct (percentProduct hfactor f r)).evaluateTokens_tokens
    rw [tokens, tokens_percentProduct, contextualValue, contextualValue_percentProduct] at halone
    exact halone
  · have hpending := (additive symbol hsymbol (.ofProduct (.ofFactor (.ofAtom (.group a.embed))))
      (percentProduct hfactor f r)).evaluateTokens_tokens
    simp only [tokens, tokens_embed, tokens_percentProduct, contextualValue, contextualValue_embed,
      contextualValue_percentProduct] at hpending
    exact hpending

/-- Half of two hundred, doubled, and not one half doubled, is added in `(200)+(50)%×(2)`. -/
theorem evaluateTokens_percent_product_two_hundred :
    let number (n : Nat) : Expression .absent .sum :=
      .ofProduct (.ofFactor (.ofAtom (.number (.ofNat n))))
    OperatorSymbol.plus.isAdditive = true ∧ OperatorSymbol.times.isTimesOrDivide = true ∧
      ∃ total percentage second,
        evaluateTokens (.ofSettings .contextual true) (number 200).tokens = .ok total ∧
        evaluateTokens (.ofSettings .contextual true) (number 50).tokens = .ok percentage ∧
        evaluateTokens (.ofSettings .contextual true) (number 2).tokens = .ok second ∧
        evaluateTokens (.ofSettings .contextual true)
            ((group (number 200)).tokens ++ .operator .plus :: ((group (number 50)).tokens ++
              .operator .percent :: .operator .times :: (group (number 2)).tokens)) =
          .ok (total + total * percentage / .hundred * second) := by
  intro number
  have hplus : OperatorSymbol.plus.isAdditive = true := rfl
  have htimes : OperatorSymbol.times.isTimesOrDivide = true := rfl
  obtain ⟨total, percentage, second, htotal, hpercentage, hsecond, -, hvalue⟩ :=
    evaluateTokens_percent_product hplus htimes (number 200) (number 50) (number 2)
  exact ⟨hplus, htimes, total, percentage, second, htotal, hpercentage, hsecond, hvalue⟩

/-- The plain hundredth would give 201 for `(200)+(50)%×(2)`, whose value is 400. -/
theorem evaluateExpression_percent_product_ne_fraction :
    evaluateExpression (.ofSettings .contextual true) "(200)+(50)%×(2)" = .ok (.ofNat 400) ∧
    .ofNat 200 + .ofNat 50 / .hundred * .ofNat 2 = Binary64.ofNat 201 ∧
    evaluateExpression (.ofSettings .contextual true) "(200)+(50)%×(2)" ≠
      .ok (.ofNat 200 + .ofNat 50 / .hundred * .ofNat 2) := by
  have hvalue : evaluateExpression (.ofSettings .contextual true) "(200)+(50)%×(2)" =
      .ok (.ofNat 400) := by
    have hoption : (evaluateExpression (.ofSettings .contextual true) "(200)+(50)%×(2)").toOption =
        some (.ofNat 400) := by decide +kernel
    cases hx : evaluateExpression (.ofSettings .contextual true) "(200)+(50)%×(2)" with
    | error e =>
      rw [hx] at hoption
      cases hoption
    | ok value =>
      rw [hx] at hoption
      exact congrArg _ (Option.some.inj hoption)
  have hfraction : .ofNat 200 + .ofNat 50 / .hundred * .ofNat 2 = Binary64.ofNat 201 := by
    decide +kernel
  have hdifferent : Binary64.ofNat 400 ≠ .ofNat 201 := by decide +kernel
  refine ⟨hvalue, hfraction, ?_⟩
  rw [hvalue, hfraction]
  exact fun h ↦ hdifferent (Except.ok.inj h)

end Expression

end PocketCalc
