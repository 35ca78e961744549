import PocketCalc.Proofs.Evaluation.Run
import PocketCalc.Proofs.PostfixOrder.Conservation

/-!
# Depths of operands

Whether an evaluation succeeds, and with which error it fails, is decided by how many operands there
are before each token. `Evaluation.depthRun` keeps that number alone, and
`Evaluation.evaluate_outcome` says that the evaluation succeeds and fails as it does. A run that
succeeds gains one operand for every number and loses one for every operator that takes two; a run
that fails does so at its first token that `Evaluation.Fails` at the number of operands before it.
`Evaluation.evaluate_shape` gives the exact conditions for every error and for a value.
-/

namespace PocketCalc

namespace Token

/-- Whether the token is an operator that takes two operands. -/
def isBinary (policy : PercentPolicy) (token : Token) : Bool := token.symbol?.any policy.isBinary

/-- How many of the tokens are numbers. -/
def numberCount (tokens : List Token) : Nat := tokens.countP isNumber

/-- How many of the tokens are operators that take two operands. -/
def binaryCount (policy : PercentPolicy) (tokens : List Token) : Nat :=
  tokens.countP (isBinary policy)

end Token

namespace Evaluation

/-- The number of operands after a token, or what it lacks. -/
def depthStep (policy : PercentPolicy) (depth : Nat) : Token → Except EvaluationError Nat
  | .number _ => .ok (depth + 1)
  | .operator symbol =>
    if policy.isBinary symbol then
      if depth < 2 then .error (.underflow ⟨2, depth⟩) else .ok (depth - 1)
    else if depth < 1 then .error (.underflow ⟨1, depth⟩) else .ok depth
  | .parenthesis side => .error (.invalidOperator (Token.parenthesis side).text)

/-- The number of operands after tokens, or what the first of them that fails lacks. -/
def depthRun (policy : PercentPolicy) (depth : Nat) : List Token → Except EvaluationError Nat
  | [] => .ok depth
  | token :: rest =>
    match depthStep policy depth token with
    | .ok depth => depthRun policy depth rest
    | .error e => .error e

/-- What is wrong with a final number of operands. -/
def verdict : Nat → Except EvaluationError Unit
  | 0 => .error (.underflow ⟨1, 0⟩)
  | 1 => .ok ()
  | count => .error (.leftover count)

/-- Whether tokens in postfix order have a value, and why not. -/
def outcome (policy : PercentPolicy) (tokens : List Token) : Except EvaluationError Unit :=
  match depthRun policy 0 tokens with
  | .ok depth => verdict depth
  | .error e => .error e

/-- How a token fails at a number of operands: a parenthesis always, an operator between two
operands at less than two, and a contextual percent sign at none. -/
inductive Fails (policy : PercentPolicy) (depth : Nat) : Token → EvaluationError → Prop where
  | parenthesis (side : Parenthesis) :
    Fails policy depth (.parenthesis side) (.invalidOperator (.ofList [side.char]))
  | binary {symbol : OperatorSymbol} (hsymbol : symbol ≠ .percent ∨ policy = .remainder)
    (hdepth : depth < 2) : Fails policy depth (.operator symbol) (.underflow ⟨2, depth⟩)
  | percent (hpolicy : policy = .contextual) (hdepth : depth = 0) :
    Fails policy depth (.operator .percent) (.underflow ⟨1, 0⟩)

/-- A binary operator needs two operands and leaves one for them. -/
theorem size_applyBinary (symbol : OperatorSymbol) (operands : Stack Binary64) :
    (applyBinary symbol operands).map Stack.size =
      if operands.size < 2 then .error ⟨2, operands.size⟩ else .ok (operands.size - 1) := by
  obtain ⟨elements⟩ := operands
  match elements with
  | [] => rfl
  | [_] => rfl
  | right :: left :: rest =>
    have hsize : ¬ Stack.size ⟨right :: left :: rest⟩ < 2 := by
      rw [Stack.size, List.length_cons, List.length_cons]
      omega
    rw [if_neg hsize]
    rfl

/-- A percent sign needs one operand and leaves one for it. -/
theorem size_applyPercent (operands : Stack Binary64) (next : Option Token) :
    (applyPercent operands next).map Stack.size =
      if operands.size < 1 then .error ⟨1, operands.size⟩ else .ok operands.size := by
  obtain ⟨elements⟩ := operands
  match elements with
  | [] => rfl
  | value :: rest =>
    have hsize : ¬ Stack.size ⟨value :: rest⟩ < 1 := by
      rw [Stack.size, List.length_cons]
      omega
    rw [if_neg hsize]
    simp only [applyPercent, Stack.pop]
    split <;> rfl

private theorem map_mapError {ε ε' α β : Type} (f : ε → ε') (g : α → β) (x : Except ε α) :
    (x.mapError f).map g = (x.map g).mapError f := by
  cases x <;> rfl

/-- A step changes the number of operands as the depth says. -/
theorem size_step (policy : PercentPolicy) (operands : Stack Binary64) (next : Option Token)
    (token : Token) :
    (step policy operands next token).map Stack.size = depthStep policy operands.size token := by
  cases token with
  | number value => rfl
  | parenthesis side => rfl
  | operator symbol =>
    rw [step, depthStep, map_mapError]
    cases hbinary : policy.isBinary symbol with
    | true =>
      rw [applyOperator_of_isBinary hbinary, size_applyBinary, if_pos rfl]
      split <;> rfl
    | false =>
      rw [applyOperator_of_not_isBinary hbinary, size_applyPercent, if_neg Bool.false_ne_true]
      split <;> rfl

/-- A run changes the number of operands as the depths say. -/
theorem size_run (policy : PercentPolicy) (operands : Stack Binary64) (following : Option Token)
    (tokens : List Token) :
    (run policy operands following tokens).map Stack.size =
      depthRun policy operands.size tokens := by
  induction tokens generalizing operands with
  | nil => rfl
  | cons token rest ih =>
    have hstep := size_step policy operands (rest.head?.or following) token
    rw [run, depthRun, ← hstep]
    cases step policy operands (rest.head?.or following) token with
    | error e => rfl
    | ok next => exact ih next

/-- Only the number of operands decides whether one is left. -/
theorem result_outcome (operands : Stack Binary64) :
    (result operands).map (fun _ ↦ ()) = verdict operands.size := by
  rw [result, ← Stack.length_toList]
  match operands.toList with
  | [] => rfl
  | [_] => rfl
  | _ :: _ :: _ => rfl

/-- The depths alone decide whether an evaluation succeeds and with which error it fails. -/
theorem evaluate_outcome (mode : Mode) (tokens : List Token) :
    (evaluate mode tokens).map (fun _ ↦ ()) = outcome mode.policy tokens := by
  have hsize := size_run mode.policy .empty none tokens
  have hempty : (Stack.empty : Stack Binary64).size = 0 := rfl
  rw [evaluate, outcome, ← hempty, ← hsize]
  cases run mode.policy .empty none tokens with
  | error e => rfl
  | ok operands =>
    have hresult := result_outcome operands
    simp only [Except.map] at hresult ⊢
    rw [← hresult]
    cases result operands <;> rfl

/-- A step that succeeds gains an operand by a number, loses one of at least two by a binary
operator, and keeps at least one at a contextual percent sign. -/
theorem depthStep_eq_ok_cases {policy : PercentPolicy} {depth after : Nat} {token : Token}
    (h : depthStep policy depth token = .ok after) :
    (token.isNumber = true ∧ token.isBinary policy = false ∧ after = depth + 1) ∨
    (token.isNumber = false ∧ token.isBinary policy = true ∧ 2 ≤ depth ∧ after + 1 = depth) ∨
    (token.isNumber = false ∧ token.isBinary policy = false ∧ 1 ≤ depth ∧ after = depth) := by
  cases token with
  | number value =>
    cases h
    exact .inl ⟨rfl, rfl, rfl⟩
  | parenthesis side => cases h
  | operator symbol =>
    rw [depthStep] at h
    cases hbinary : policy.isBinary symbol with
    | true =>
      rw [hbinary, if_pos rfl] at h
      split at h
      · cases h
      · cases h
        exact .inr (.inl ⟨rfl, hbinary, by omega, by omega⟩)
    | false =>
      rw [hbinary, if_neg Bool.false_ne_true] at h
      split at h
      · cases h
      · cases h
        exact .inr (.inr ⟨rfl, hbinary, by omega, rfl⟩)

/-- A step fails exactly as its token does at the number of operands. -/
theorem depthStep_eq_error_iff {policy : PercentPolicy} {depth : Nat} {token : Token}
    {e : EvaluationError} :
    depthStep policy depth token = .error e ↔ Fails policy depth token e := by
  constructor
  · intro h
    cases token with
    | number value => cases h
    | parenthesis side =>
      cases h
      exact .parenthesis side
    | operator symbol =>
      rw [depthStep] at h
      cases hbinary : policy.isBinary symbol with
      | true =>
        rw [hbinary, if_pos rfl] at h
        split at h
        · next hdepth =>
          cases h
          exact .binary (PercentPolicy.isBinary_eq_true_iff.mp hbinary) hdepth
        · cases h
      | false =>
        rw [hbinary, if_neg Bool.false_ne_true] at h
        obtain ⟨rfl, hpolicy⟩ := PercentPolicy.isBinary_eq_false_iff.mp hbinary
        split at h
        · next hdepth =>
          obtain rfl : depth = 0 := by omega
          cases h
          exact .percent hpolicy rfl
        · cases h
  · intro h
    cases h with
    | parenthesis side => rfl
    | binary hsymbol hdepth =>
      rw [depthStep, if_pos (PercentPolicy.isBinary_eq_true_iff.mpr hsymbol), if_pos hdepth]
    | percent hpolicy hdepth =>
      subst hpolicy hdepth
      rfl

/-- The depth after two lists of tokens is that of the second one from where the first one ends. -/
theorem depthRun_append (policy : PercentPolicy) (depth : Nat) (first second : List Token) :
    depthRun policy depth (first ++ second) =
      match depthRun policy depth first with
      | .ok depth => depthRun policy depth second
      | .error e => .error e := by
  induction first generalizing depth with
  | nil => rfl
  | cons token rest ih =>
    rw [List.cons_append, depthRun, depthRun]
    cases depthStep policy depth token with
    | error e => rfl
    | ok next => exact ih next

/-- A first list that succeeds hands its depth to the second one. -/
theorem depthRun_append_of_ok {policy : PercentPolicy} {depth between : Nat}
    {first second : List Token} (h : depthRun policy depth first = .ok between) :
    depthRun policy depth (first ++ second) = depthRun policy between second := by
  rw [depthRun_append, h]

/-- A run fails exactly with the first token that fails at the depth before it. -/
theorem depthRun_eq_error_iff {policy : PercentPolicy} {depth : Nat} {tokens : List Token}
    {e : EvaluationError} :
    depthRun policy depth tokens = .error e ↔
      ∃ front token back reached, tokens = front ++ token :: back ∧
        depthRun policy depth front = .ok reached ∧ Fails policy reached token e := by
  constructor
  · intro h
    induction tokens generalizing depth with
    | nil => cases h
    | cons token rest ih =>
      rw [depthRun] at h
      cases hstep : depthStep policy depth token with
      | error cause =>
        rw [hstep] at h
        cases h
        exact ⟨[], token, rest, depth, rfl, rfl, depthStep_eq_error_iff.mp hstep⟩
      | ok next =>
        rw [hstep] at h
        obtain ⟨front, failing, back, reached, rfl, hfront, hfails⟩ := ih h
        refine ⟨token :: front, failing, back, reached, rfl, ?_, hfails⟩
        rw [depthRun, hstep]
        exact hfront
  · rintro ⟨front, token, back, reached, rfl, hfront, hfails⟩
    rw [depthRun_append_of_ok hfront, depthRun, depthStep_eq_error_iff.mpr hfails]

/-- A run gains an operand by every number and loses one by every binary operator. -/
theorem depthRun_balance {policy : PercentPolicy} {depth after : Nat} {tokens : List Token}
    (h : depthRun policy depth tokens = .ok after) :
    after + Token.binaryCount policy tokens = depth + Token.numberCount tokens := by
  induction tokens generalizing depth with
  | nil =>
    cases h
    rfl
  | cons token rest ih =>
    rw [depthRun] at h
    cases hstep : depthStep policy depth token with
    | error e => rw [hstep] at h; cases h
    | ok next =>
      rw [hstep] at h
      have hrest := ih h
      simp only [Token.binaryCount, Token.numberCount, List.countP_cons] at hrest ⊢
      rcases depthStep_eq_ok_cases hstep with ⟨hn, hb, hd⟩ | ⟨hn, hb, hle, hd⟩ | ⟨hn, hb, hle, hd⟩
      · rw [hn, hb, if_pos rfl, if_neg Bool.false_ne_true]
        omega
      · rw [hn, hb, if_pos rfl, if_neg Bool.false_ne_true]
        omega
      · rw [hn, hb, if_neg Bool.false_ne_true]
        omega

/-- Without parentheses a run fails with one of three underflows. -/
theorem depthRun_eq_error_cases {policy : PercentPolicy} {depth : Nat} {tokens : List Token}
    {e : EvaluationError} (h : depthRun policy depth tokens = .error e)
    (hparen : ∀ token ∈ tokens, token.isParenthesis = false) :
    e = .underflow ⟨1, 0⟩ ∨ e = .underflow ⟨2, 0⟩ ∨ e = .underflow ⟨2, 1⟩ := by
  obtain ⟨front, token, back, reached, rfl, -, hfails⟩ := depthRun_eq_error_iff.mp h
  have htoken := hparen token (List.mem_append_right front List.mem_cons_self)
  cases hfails with
  | parenthesis side => cases htoken
  | binary hsymbol hdepth =>
    obtain rfl | rfl : reached = 0 ∨ reached = 1 := by omega
    · exact .inr (.inl rfl)
    · exact .inr (.inr rfl)
  | percent hpolicy hdepth => exact .inl rfl

/-- Depths do not depend on the values of numbers. -/
theorem depthRun_erase (policy : PercentPolicy) (depth : Nat) (tokens : List Token) :
    depthRun policy depth (tokens.map .erase) = depthRun policy depth tokens := by
  induction tokens generalizing depth with
  | nil => rfl
  | cons token rest ih =>
    have hstep : depthStep policy depth token.erase = depthStep policy depth token := by
      cases token <;> rfl
    rw [List.map_cons, depthRun, depthRun, hstep]
    cases depthStep policy depth token with
    | error e => rfl
    | ok next => exact ih next

/-- The outcome does not depend on the values of numbers. -/
theorem outcome_erase (policy : PercentPolicy) (tokens : List Token) :
    outcome policy (tokens.map .erase) = outcome policy tokens := by
  rw [outcome, outcome, depthRun_erase]

/-- An outcome is an error exactly when that error occurs. -/
theorem map_unit_eq_error_iff {ε α : Type} {x : Except ε α} {e : ε} :
    x.map (fun _ ↦ ()) = .error e ↔ x = .error e := by
  cases x <;> simp [Except.map]

/-- An outcome is a success exactly when there is a value. -/
theorem map_unit_eq_ok_iff {ε α : Type} {x : Except ε α} :
    x.map (fun _ ↦ ()) = .ok () ↔ ∃ value, x = .ok value := by
  cases x <;> simp [Except.map]

/-- An evaluation fails exactly with the first token that fails, or, when none does, with a final
number of operands that is not one. -/
theorem outcome_eq_error_iff {policy : PercentPolicy} {tokens : List Token} {e : EvaluationError} :
    outcome policy tokens = .error e ↔
      depthRun policy 0 tokens = .error e ∨
      (depthRun policy 0 tokens = .ok 0 ∧ e = .underflow ⟨1, 0⟩) ∨
      (∃ depth, depthRun policy 0 tokens = .ok depth ∧ 2 ≤ depth ∧ e = .leftover depth) := by
  rw [outcome]
  cases depthRun policy 0 tokens with
  | error cause => simp
  | ok depth =>
    match depth with
    | 0 => simp [verdict, eq_comm]
    | 1 => simp [verdict]
    | count + 2 => simp [verdict, eq_comm]

/-- An evaluation succeeds exactly when no token fails and one operand is left. -/
theorem outcome_eq_ok_iff {policy : PercentPolicy} {tokens : List Token} :
    outcome policy tokens = .ok () ↔ depthRun policy 0 tokens = .ok 1 := by
  rw [outcome]
  cases depthRun policy 0 tokens with
  | error cause => simp
  | ok depth =>
    match depth with
    | 0 => simp [verdict]
    | 1 => simp [verdict]
    | count + 2 => simp [verdict]

/-- The shape of any tokens decides their evaluation. It fails with an error exactly when the first
token that fails does so with that error, or when no token fails and no operand is left, or several
are, which the error counts; it has a value exactly when no token fails and one operand is left.
Tokens that differ only in the values of their numbers fail with the same error or both have a
value. -/
theorem evaluate_shape (mode : Mode) (tokens : List Token) :
    (∀ e, evaluate mode tokens = .error e ↔
      (∃ front token back depth, tokens = front ++ token :: back ∧
        depthRun mode.policy 0 front = .ok depth ∧ Fails mode.policy depth token e) ∨
      (depthRun mode.policy 0 tokens = .ok 0 ∧ e = .underflow ⟨1, 0⟩) ∨
      (∃ depth, depthRun mode.policy 0 tokens = .ok depth ∧ 2 ≤ depth ∧ e = .leftover depth)) ∧
    ((∃ value, evaluate mode tokens = .ok value) ↔ depthRun mode.policy 0 tokens = .ok 1) ∧
    (∀ other, other.map Token.erase = tokens.map Token.erase →
      (∃ e, evaluate mode tokens = .error e ∧ evaluate mode other = .error e) ∨
      (∃ value value', evaluate mode tokens = .ok value ∧ evaluate mode other = .ok value')) := by
  have houtcome := evaluate_outcome mode tokens
  refine ⟨?_, ?_, ?_⟩
  · intro e
    rw [← map_unit_eq_error_iff, houtcome, outcome_eq_error_iff, depthRun_eq_error_iff]
  · rw [← map_unit_eq_ok_iff, houtcome, outcome_eq_ok_iff]
  · intro other hother
    have hsame : outcome mode.policy other = outcome mode.policy tokens := by
      rw [← outcome_erase, hother, outcome_erase]
    have hothers := evaluate_outcome mode other
    rw [hsame] at hothers
    cases h : outcome mode.policy tokens with
    | error e =>
      rw [h] at houtcome hothers
      exact .inl ⟨e, map_unit_eq_error_iff.mp houtcome, map_unit_eq_error_iff.mp hothers⟩
    | ok success =>
      rw [h] at houtcome hothers
      obtain ⟨value, hvalue⟩ := map_unit_eq_ok_iff.mp houtcome
      obtain ⟨value', hvalue'⟩ := map_unit_eq_ok_iff.mp hothers
      exact .inr ⟨value, value', hvalue, hvalue'⟩

/-- With any two numbers in front, `+ ÷ (` lacks an operand at the division, before the parenthesis
is reached. -/
theorem evaluate_shape_numbers :
    let shape (x y : Nat) : List Token := [.number (.ofNat x), .number (.ofNat y), .operator .plus,
      .operator .divide, .parenthesis .opening]
    (shape 7 0).map Token.erase = (shape 3 2).map Token.erase ∧
      evaluate {} (shape 3 2) = .error (.underflow ⟨2, 1⟩) ∧
      evaluate {} (shape 7 0) = .error (.underflow ⟨2, 1⟩) := by
  intro shape
  obtain ⟨herror, -, hsame⟩ := evaluate_shape {} (shape 3 2)
  have hfails : Fails .contextual 1 (.operator .divide) (.underflow ⟨2, 1⟩) :=
    .binary (.inl (by decide)) (by decide)
  have hlacking : evaluate {} (shape 3 2) = .error (.underflow ⟨2, 1⟩) :=
    (herror _).mpr (.inl ⟨[.number (.ofNat 3), .number (.ofNat 2), .operator .plus],
      .operator .divide, [.parenthesis .opening], 1, rfl, rfl, hfails⟩)
  have hnumbers : (shape 7 0).map Token.erase = (shape 3 2).map Token.erase := by
    simp [shape, Token.erase]
  refine ⟨hnumbers, hlacking, ?_⟩
  rcases hsame _ hnumbers with ⟨e, hleft, hright⟩ | ⟨value, -, hvalue, -⟩
  · rw [hright, ← hleft, hlacking]
  · cases hlacking.symm.trans hvalue

end Evaluation

end PocketCalc
