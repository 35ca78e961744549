import PocketCalc.Proofs.PostfixOrder.Scan

/-!
# What a conversion keeps

A conversion loses, doubles and invents nothing: its tokens are those of the expression without the
parentheses, in another order. It does not look at the values of numbers either, so that it commutes
with `Token.erase`, which forgets them.
-/

namespace PocketCalc

namespace Token

/-- Whether the token is a parenthesis. -/
def isParenthesis : Token → Bool
  | parenthesis _ => true
  | _ => false

/-- The numbers and operators among the tokens, in their order. -/
def withoutParentheses (tokens : List Token) : List Token :=
  tokens.filter fun token ↦ !token.isParenthesis

/-- Parentheses are left out part by part. -/
theorem withoutParentheses_append (first second : List Token) :
    withoutParentheses (first ++ second) =
      withoutParentheses first ++ withoutParentheses second := List.filter_append first second

/-- What is no parenthesis is counted alike without the parentheses. -/
theorem countP_withoutParentheses {p : Token → Bool} (hp : ∀ side, p (.parenthesis side) = false)
    (tokens : List Token) : (withoutParentheses tokens).countP p = tokens.countP p := by
  rw [withoutParentheses, List.countP_filter]
  refine List.countP_congr fun token _ ↦ ?_
  cases token with
  | number value => simp [isParenthesis]
  | operator symbol => simp [isParenthesis]
  | parenthesis side => simp [hp side]

/-- The token with the value of a number forgotten. -/
def erase : Token → Token
  | number _ => number (.zero false)
  | token => token

/-- Operators have no value to forget. -/
theorem map_erase_operators (symbols : List OperatorSymbol) :
    (symbols.map operator).map erase = symbols.map operator := by
  rw [List.map_map]
  rfl

end Token

namespace PostfixOrder

open Pending

/-- What a step puts out and lets wait is what waited and the token unless it is a parenthesis. -/
theorem perm_of_step {position : Nat} {pending kept : List Pending} {token : Token}
    {put : List Token} (h : step position pending token = .ok (put, kept)) :
    (put ++ (symbols kept).map Token.operator).Perm
      ((symbols pending).map Token.operator ++ Token.withoutParentheses [token]) := by
  rcases step_eq_ok_cases h with
    ⟨value, rfl, rfl, rfl⟩ | ⟨symbol, yielded, waiting, rfl, rfl, rfl, rfl⟩ | ⟨rfl, rfl, rfl⟩ |
      ⟨rfl, closed, opening, rfl, rfl⟩
  · exact List.perm_append_comm
  · rw [symbols_operators_append, List.map_append, List.append_assoc]
    exact (List.perm_append_singleton _ _).symm.append_left _
  · exact .of_eq (List.append_nil _).symm
  · rw [symbols_operators_append, List.map_append]
    exact .of_eq (List.append_nil _).symm

/-- What a scan puts out and lets wait is what waited and the tokens without their parentheses. -/
theorem perm_of_scan {position : Nat} {pending kept : List Pending} {tokens put : List Token}
    (h : scan position pending tokens = .ok (put, kept)) :
    (put ++ (symbols kept).map Token.operator).Perm
      ((symbols pending).map Token.operator ++ Token.withoutParentheses tokens) := by
  induction tokens generalizing position pending put with
  | nil =>
    cases h
    exact .of_eq (List.append_nil _).symm
  | cons token rest ih =>
    obtain ⟨now, waiting, later, hstep, hrest, rfl⟩ := scan_cons_eq_ok_iff.mp h
    have hlater := (ih hrest).append_left now
    have hnow := (perm_of_step hstep).append_right (Token.withoutParentheses rest)
    rw [List.append_assoc, List.append_assoc, ← Token.withoutParentheses_append] at hnow
    rw [List.append_assoc]
    exact hlater.trans hnow

/-- The tokens of a conversion are those of the expression without the parentheses. -/
theorem perm_of_toPostfix {tokens reordered : List Token} (h : toPostfix tokens = .ok reordered) :
    reordered.Perm (Token.withoutParentheses tokens) := by
  obtain ⟨put, kept, hscan, -, rfl⟩ := exists_scan_of_toPostfix_eq_ok h
  exact perm_of_scan hscan

/-- A step does not look at the value of a number. -/
theorem step_erase (position : Nat) (pending : List Pending) (token : Token) :
    step position pending token.erase =
      (step position pending token).map fun (put, kept) ↦ (put.map .erase, kept) := by
  cases token with
  | number value => rfl
  | operator symbol =>
    simp only [step, Token.erase, Except.map]
    rw [Token.map_erase_operators]
  | parenthesis side =>
    cases side with
    | opening => rfl
    | closing =>
      simp only [step, Token.erase]
      cases closeGroup? pending with
      | none => rfl
      | some result =>
        simp only [Except.map]
        rw [Token.map_erase_operators]

/-- A scan does not look at the values of numbers. -/
theorem scan_erase (position : Nat) (pending : List Pending) (tokens : List Token) :
    scan position pending (tokens.map .erase) =
      (scan position pending tokens).map fun (put, kept) ↦ (put.map .erase, kept) := by
  induction tokens generalizing position pending with
  | nil => rfl
  | cons token rest ih =>
    rw [List.map_cons, scan, scan, step_erase]
    cases step position pending token with
    | error e => rfl
    | ok result =>
      obtain ⟨now, waiting⟩ := result
      simp only [Except.map]
      rw [ih]
      cases scan (position + 1) waiting rest <;> simp [Except.map]

/-- A conversion does not look at the values of numbers. -/
theorem toPostfix_erase (tokens : List Token) :
    toPostfix (tokens.map .erase) = (toPostfix tokens).map (List.map .erase) := by
  rw [toPostfix, toPostfix, convert_eq_scan, convert_eq_scan, scan_erase]
  cases scan 0 [] tokens with
  | error e => rfl
  | ok result =>
    simp only [Except.map]
    cases drain result.2 with
    | error e => rfl
    | ok drained =>
      simp only [List.map_append]
      rw [Token.map_erase_operators]

end PostfixOrder

namespace Token

/-- What is counted without parentheses is counted alike before and after a conversion. -/
theorem countP_reordered {tokens reordered : List Token}
    (h : toPostfix tokens = .ok reordered) {p : Token → Bool}
    (hp : ∀ side, p (.parenthesis side) = false) : reordered.countP p = tokens.countP p := by
  rw [(PostfixOrder.perm_of_toPostfix h).countP_eq, countP_withoutParentheses hp]

/-- A conversion leaves no parentheses. -/
theorem isParenthesis_reordered {tokens reordered : List Token}
    (h : toPostfix tokens = .ok reordered) : ∀ token ∈ reordered, token.isParenthesis = false := by
  intro token htoken
  have hmem := (PostfixOrder.perm_of_toPostfix h).mem_iff.mp htoken
  rw [withoutParentheses, List.mem_filter] at hmem
  simpa using hmem.2

end Token

end PocketCalc
