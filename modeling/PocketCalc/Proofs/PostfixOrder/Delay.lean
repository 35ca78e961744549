import PocketCalc.Proofs.PostfixOrder.Group

/-!
# Operators are delayed

A conversion puts numbers out at once and lets operators wait, so that it keeps the order of the
numbers and moves operators only to the right. What stands before a number in the output is what the
scan has put out when it reaches the number (`exists_scan_of_toPostfix_number`), and that is part of
what it has read. `toPostfix_conserves` puts this together with what a conversion keeps.
-/

namespace PocketCalc

namespace Token

/-- The values of the numbers among the tokens, in their order. -/
def values (tokens : List Token) : List Binary64 := tokens.filterMap value?

/-- How many of the tokens are operators. -/
def operatorCount (tokens : List Token) : Nat := tokens.countP fun token ↦ token.symbol?.isSome

/-- The values of two lists come one after the other. -/
theorem values_append (first second : List Token) :
    values (first ++ second) = values first ++ values second := List.filterMap_append

/-- Operators have no values. -/
theorem values_operators (symbols : List OperatorSymbol) : values (symbols.map operator) = [] := by
  rw [values, List.filterMap_eq_nil_iff]
  intro token htoken
  obtain ⟨symbol, -, rfl⟩ := List.mem_map.mp htoken
  rfl

end Token

namespace PostfixOrder

open Token Pending

/-- A step puts out the value of a number and no other one. -/
theorem values_of_step {position : Nat} {pending kept : List Pending} {token : Token}
    {put : List Token} (h : step position pending token = .ok (put, kept)) :
    values put = values [token] := by
  rcases step_eq_ok_cases h with
    ⟨value, rfl, rfl, -⟩ | ⟨symbol, yielded, waiting, rfl, rfl, -, -⟩ | ⟨rfl, rfl, -⟩ |
      ⟨rfl, closed, opening, rfl, -⟩
  · rfl
  · exact values_operators yielded
  · rfl
  · exact values_operators closed

/-- A scan puts out the values of the numbers in their order. -/
theorem values_of_scan {position : Nat} {pending kept : List Pending} {tokens put : List Token}
    (h : scan position pending tokens = .ok (put, kept)) : values put = values tokens := by
  induction tokens generalizing position pending put with
  | nil =>
    cases h
    rfl
  | cons token rest ih =>
    obtain ⟨now, waiting, later, hstep, hrest, rfl⟩ := scan_cons_eq_ok_iff.mp h
    rw [values_append, values_of_step hstep, ih hrest, ← values_append, List.singleton_append]

/-- A conversion keeps the numbers in their order. -/
theorem values_of_toPostfix {tokens reordered : List Token} (h : toPostfix tokens = .ok reordered) :
    values reordered = values tokens := by
  obtain ⟨put, kept, hscan, -, rfl⟩ := exists_scan_of_toPostfix_eq_ok h
  rw [values_append, values_operators, List.append_nil, values_of_scan hscan]

/-- Of what is no parenthesis, a scan puts out no more than it reads. -/
theorem countP_le_of_scan {position : Nat} {kept : List Pending} {tokens put : List Token}
    (h : scan position [] tokens = .ok (put, kept)) {p : Token → Bool}
    (hp : ∀ side, p (.parenthesis side) = false) : put.countP p ≤ tokens.countP p := by
  have hcount := (perm_of_scan h).countP_eq p
  rw [List.countP_append, List.countP_append, countP_withoutParentheses hp] at hcount
  have hnone : ((symbols []).map Token.operator).countP p = 0 := rfl
  omega

/-- What a conversion puts out before a number is what the scan has put out when it reaches it. -/
theorem exists_scan_of_toPostfix_number {front back reordered : List Token} {value : Binary64}
    (h : toPostfix (front ++ .number value :: back) = .ok reordered) :
    ∃ put kept rest, scan 0 [] front = .ok (put, kept) ∧
      reordered = put ++ .number value :: rest := by
  obtain ⟨output, last, hscan, -, rfl⟩ := exists_scan_of_toPostfix_eq_ok h
  obtain ⟨put, kept, later, hfront, hback, rfl⟩ := scan_append_eq_ok_iff.mp hscan
  obtain ⟨now, waiting, rest, hnumber, -, rfl⟩ := scan_cons_eq_ok_iff.mp hback
  cases hnumber
  refine ⟨put, kept, rest ++ (symbols last).map Token.operator, hfront, ?_⟩
  simp only [List.append_assoc, List.cons_append, List.nil_append]

/-- Of what is no parenthesis, a conversion puts no more before a number than stood before it. -/
theorem countP_le_of_toPostfix {tokens reordered front back front' back' : List Token}
    {value value' : Binary64} (h : toPostfix tokens = .ok reordered)
    (htokens : tokens = front ++ .number value :: back)
    (hreordered : reordered = front' ++ .number value' :: back')
    (hcount : numberCount front' = numberCount front) {p : Token → Bool}
    (hp : ∀ side, p (.parenthesis side) = false) : front'.countP p ≤ front.countP p := by
  subst htokens
  obtain ⟨put, kept, rest, hscan, hput⟩ := exists_scan_of_toPostfix_number h
  have hnumbers : numberCount put = numberCount front' :=
    (numberCount_of_scan hscan).trans hcount.symm
  -- Both splits of the output have as many numbers in front, so they are the same.
  obtain ⟨rfl, -, -⟩ := append_number_inj (hput.symm.trans hreordered) hnumbers
  exact countP_le_of_scan hscan hp

end PostfixOrder

open Token PostfixOrder in
/-- A conversion loses, doubles and invents nothing, whatever the tokens are. It leaves no
parenthesis, keeps the numbers in their order, and keeps every operator as often as it occurs.
Operators move only to the right: before a number stand no more operators than before the number
with as many numbers in front of it in the expression, nor more of any one operator. -/
theorem toPostfix_conserves {tokens reordered : List Token} (h : toPostfix tokens = .ok reordered) :
    (∀ side, .parenthesis side ∉ reordered) ∧
    values reordered = values tokens ∧
    (∀ symbol, reordered.count (.operator symbol) = tokens.count (.operator symbol)) ∧
    (∀ front back front' back' value value', tokens = front ++ .number value :: back →
      reordered = front' ++ .number value' :: back' → numberCount front' = numberCount front →
      operatorCount front' ≤ operatorCount front ∧
      ∀ symbol, front'.count (.operator symbol) ≤ front.count (.operator symbol)) := by
  have hsymbol : ∀ symbol side, (Token.parenthesis side == Token.operator symbol) = false := by
    intro symbol side
    rfl
  refine ⟨?_, values_of_toPostfix h, ?_, ?_⟩
  · intro side hside
    cases isParenthesis_reordered h _ hside
  · intro symbol
    exact countP_reordered h (hsymbol symbol)
  · intro front back front' back' value value' htokens hreordered hcount
    refine ⟨countP_le_of_toPostfix h htokens hreordered hcount fun _ ↦ rfl, fun symbol ↦ ?_⟩
    exact countP_le_of_toPostfix h htokens hreordered hcount (hsymbol symbol)

open Token PostfixOrder in
/-- In `%(×2+)3` all three operators stand before the second number; the percent sign is moved
behind it. -/
theorem toPostfix_conserves_tokens :
    let two := Binary64.ofNat 2
    let three := Binary64.ofNat 3
    let front : List Token := [.operator .percent, .parenthesis .opening, .operator .times,
      .number two, .operator .plus, .parenthesis .closing]
    let front' : List Token := [.number two, .operator .times, .operator .plus]
    toPostfix (front ++ [.number three]) = .ok (front' ++ [.number three, .operator .percent]) ∧
      values (front' ++ [.number three, .operator .percent]) = values (front ++ [.number three]) ∧
      numberCount front' = numberCount front ∧
      operatorCount front' ≤ operatorCount front := by
  intro two three front front'
  have h : toPostfix (front ++ [.number three]) =
      .ok (front' ++ [.number three, .operator .percent]) := rfl
  have hcount : numberCount front' = numberCount front := rfl
  obtain ⟨-, hvalues, -, hbefore⟩ := toPostfix_conserves h
  exact ⟨h, hvalues, hcount, (hbefore front _ front' _ _ _ rfl rfl hcount).1⟩

end PocketCalc
