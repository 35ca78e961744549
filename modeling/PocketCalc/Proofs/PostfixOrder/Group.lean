import PocketCalc.Proofs.Evaluation.Depth
import PocketCalc.Proofs.PostfixOrder.Relocation
import PocketCalc.Proofs.Token.Pieces

/-!
# Groups as operands

A group whose inside can be converted is to the rest of the expression what a number is. Inside a
group nothing below the opening parenthesis is seen or disturbed (`scan_append_group`), so that
reading the group puts out the conversion of its inside and leaves what waited (`isOperand_group`).
What follows is then read as it would be after a number, only further on. `toPostfix_group` says
what this means for a conversion, whether it succeeds or fails.
-/

namespace PocketCalc

namespace Pending

/-- Without an open group nothing but operators waits. -/
theorem eq_operators_of_groups_eq_nil {pending : List Pending} (h : groups pending = []) :
    pending = (symbols pending).map operator := by
  induction pending with
  | nil => rfl
  | cons top rest ih =>
    cases top with
    | group position => cases h
    | operator waiting => exact congrArg (operator waiting :: ·) (ih h)

/-- Nothing below an open group yields. -/
theorem yieldTo_append_group (incoming : OperatorSymbol) (pending : List Pending) (opening : Nat)
    (base : List Pending) :
    yieldTo incoming (pending ++ group opening :: base) =
      ((yieldTo incoming pending).1, (yieldTo incoming pending).2 ++ group opening :: base) := by
  induction pending with
  | nil => rfl
  | cons top rest ih =>
    cases top with
    | group position => rfl
    | operator waiting =>
      rw [List.cons_append, yieldTo, yieldTo]
      split
      · rw [ih]
      · rfl

/-- A group is closed without regard to what waits below it. -/
theorem closeGroup?_append {pending kept : List Pending} {closed : List OperatorSymbol}
    (h : closeGroup? pending = some (closed, kept)) (base : List Pending) :
    closeGroup? (pending ++ base) = some (closed, kept ++ base) := by
  obtain ⟨opening, rfl⟩ := eq_of_closeGroup?_eq_some h
  rw [List.append_assoc, List.cons_append, closeGroup?_operators_group]

end Pending

namespace PostfixOrder

open Pending

/-- Inside a group a step sees and disturbs nothing below the opening parenthesis. -/
theorem step_append_group {position : Nat} {pending kept : List Pending} {token : Token}
    {put : List Token} (h : step position pending token = .ok (put, kept)) (opening : Nat)
    (base : List Pending) :
    step position (pending ++ group opening :: base) token =
      .ok (put, kept ++ group opening :: base) := by
  cases token with
  | number value =>
    cases h
    rfl
  | operator symbol =>
    cases h
    rw [step, yieldTo_append_group]
    rfl
  | parenthesis side =>
    cases side with
    | opening =>
      cases h
      rfl
    | closing =>
      cases hclose : closeGroup? pending with
      | none => simp [step, hclose] at h
      | some result =>
        obtain ⟨closed, below⟩ := result
        simp only [step, hclose] at h
        cases h
        simp only [step, closeGroup?_append hclose]

/-- Inside a group a scan sees and disturbs nothing below the opening parenthesis. -/
theorem scan_append_group {position : Nat} {pending kept : List Pending} {tokens put : List Token}
    (h : scan position pending tokens = .ok (put, kept)) (opening : Nat) (base : List Pending) :
    scan position (pending ++ group opening :: base) tokens =
      .ok (put, kept ++ group opening :: base) := by
  induction tokens generalizing position pending put with
  | nil =>
    cases h
    rfl
  | cons token rest ih =>
    obtain ⟨now, waiting, later, hstep, hrest, rfl⟩ := scan_cons_eq_ok_iff.mp h
    have hnow := step_append_group hstep opening base
    exact scan_cons_eq_ok_iff.mpr ⟨now, _, later, hnow, ih hrest, rfl⟩

/-- Wherever the tokens stand, they put out the reordering and leave what waited. -/
def IsOperand (tokens reordered : List Token) : Prop :=
  ∀ (position : Nat) (pending : List Pending),
    scan position pending tokens = .ok (reordered, pending)

/-- A number is an operand. -/
theorem isOperand_number (value : Binary64) : IsOperand [.number value] [.number value] := by
  intro position pending
  rw [scan_singleton]
  rfl

/-- Tokens in parentheses are an operand when they can be converted. -/
theorem isOperand_group {tokens reordered : List Token} (h : toPostfix tokens = .ok reordered) :
    IsOperand (.parenthesis .opening :: (tokens ++ [.parenthesis .closing])) reordered := by
  intro position pending
  obtain ⟨put, kept, hscan, hgroups, rfl⟩ := exists_scan_of_toPostfix_eq_ok h
  -- Nothing but operators waits at the end of the inside, and moving these changes nothing.
  have hmoved : kept.map (relocate (position + 1 + ·)) = kept := by
    apply map_relocate_of_fixed
    simp [hgroups]
  have hplace := scan_relocate (position + 1 + ·) 0 tokens (by simp) []
  rw [hscan, List.map_nil] at hplace
  simp only [Nat.add_zero, Except.map, Except.mapError, hmoved] at hplace
  have hinside := scan_append_group hplace position pending
  have hclose : step (position + 1 + tokens.length) (kept ++ group position :: pending)
      (.parenthesis .closing) = .ok ((symbols kept).map .operator, pending) := by
    rw [step]
    conv => lhs; rw [eq_operators_of_groups_eq_nil hgroups, closeGroup?_operators_group]
  refine scan_cons_eq_ok_iff.mpr ⟨[], _, _, rfl, ?_, rfl⟩
  exact scan_append_singleton_eq_ok_iff.mpr ⟨put, _, _, hinside, hclose, rfl⟩

/-- The parentheses of a group are two more tokens. -/
theorem length_group (tokens : List Token) :
    (Token.parenthesis .opening :: (tokens ++ [.parenthesis .closing])).length =
      tokens.length + 1 + 1 := by
  simp

/-- An operand puts out its reordering, and the conversion goes on after it. -/
theorem toPostfix_operand {before put tokens reordered : List Token} {kept : List Pending}
    (hbefore : scan 0 [] before = .ok (put, kept)) (h : IsOperand tokens reordered)
    (after : List Token) :
    toPostfix (before ++ (tokens ++ after)) =
      (convert (before.length + tokens.length) kept after).map
        fun later ↦ put ++ (reordered ++ later) := by
  rw [toPostfix, convert_append, hbefore]
  dsimp only
  rw [convert_append, Nat.zero_add, h before.length kept]
  dsimp only
  cases convert (before.length + tokens.length) kept after <;> rfl

/-- A conversion fails where the scan of its first part fails, and reports a token of that part. -/
theorem toPostfix_append_of_scan_error {before : List Token} {e : ParenthesisError}
    (h : scan 0 [] before = .error e) (rest : List Token) :
    toPostfix (before ++ rest) = .error e ∧ e.position < before.length := by
  refine ⟨by rw [toPostfix, convert_append, h], ?_⟩
  obtain ⟨front, token, back, put, kept, rfl, -, hstep⟩ := exists_step_error_of_scan_error h
  obtain ⟨-, -, rfl⟩ := step_eq_error_iff.mp hstep
  simp [ParenthesisError.position]

/-- Groups that are open after a scan have been opened by its tokens. -/
theorem lt_length_of_mem_groups {tokens put : List Token} {kept : List Pending} {p : Nat}
    (h : scan 0 [] tokens = .ok (put, kept)) (hp : p ∈ groups kept) : p < tokens.length :=
  (((Parentheses.openGroups_of_scan h).mem_iff p).mp hp).position_lt

/-- A scan puts out the numbers that it reads. -/
theorem numberCount_of_scan {position : Nat} {kept : List Pending} {tokens put : List Token}
    (h : scan position [] tokens = .ok (put, kept)) :
    Token.numberCount put = Token.numberCount tokens := by
  have hcount := (perm_of_scan h).countP_eq Token.isNumber
  have hwaiting : ((symbols kept).map Token.operator).countP Token.isNumber = 0 := by
    rw [List.countP_eq_zero]
    intro token htoken
    obtain ⟨symbol, -, rfl⟩ := List.mem_map.mp htoken
    exact Bool.false_ne_true
  rw [List.countP_append, hwaiting, List.countP_append,
    Token.countP_withoutParentheses fun _ ↦ rfl] at hcount
  exact hcount.trans (Nat.zero_add _)

/-- The place of a token when some more tokens are put in at a position. -/
def shiftFrom (start extra position : Nat) : Nat :=
  if position < start then position else position + extra

/-- Before the position nothing moves. -/
theorem shiftFrom_of_lt {start extra position : Nat} (h : position < start) :
    shiftFrom start extra position = position := if_pos h

/-- From the position on everything moves by the same distance. -/
theorem shiftFrom_of_le {start extra position : Nat} (h : start ≤ position) :
    shiftFrom start extra position = position + extra := if_neg (Nat.not_lt.mpr h)

/-- Another operand in the place of a number changes nothing but what is put out for it, and the
positions of the tokens after it. -/
theorem toPostfix_replace_operand {tokens reordered : List Token} {extra : Nat}
    (h : IsOperand tokens reordered) (hlength : tokens.length = extra + 1) (value : Binary64)
    (before after : List Token) :
    (∃ front back, Token.numberCount front = Token.numberCount before ∧
      toPostfix (before ++ .number value :: after) = .ok (front ++ .number value :: back) ∧
      toPostfix (before ++ (tokens ++ after)) = .ok (front ++ (reordered ++ back))) ∨
    (∃ e, toPostfix (before ++ .number value :: after) = .error e ∧
      toPostfix (before ++ (tokens ++ after)) =
        .error (e.relocate (shiftFrom before.length extra))) := by
  cases hbefore : scan 0 [] before with
  | error e =>
    obtain ⟨hnumber, hlt⟩ := toPostfix_append_of_scan_error hbefore (.number value :: after)
    obtain ⟨htokens, -⟩ := toPostfix_append_of_scan_error hbefore (tokens ++ after)
    have hfixed : e.relocate (shiftFrom before.length extra) = e :=
      ParenthesisError.relocate_of_fixed (shiftFrom_of_lt hlt)
    exact .inr ⟨e, hnumber, by rw [htokens, hfixed]⟩
  | ok result =>
    obtain ⟨put, kept⟩ := result
    have hnumber := toPostfix_operand hbefore (isOperand_number value) after
    have htokens := toPostfix_operand hbefore h after
    rw [List.singleton_append, List.length_singleton] at hnumber
    rw [hlength, Nat.add_comm extra 1, ← Nat.add_assoc] at htokens
    -- What follows the operand is converted from the place to which it has moved.
    have hkept : kept.map (relocate (shiftFrom before.length extra)) = kept :=
      map_relocate_of_fixed fun p hp ↦ shiftFrom_of_lt (lt_length_of_mem_groups hbefore hp)
    have hmoved := convert_relocate (shiftFrom before.length extra) (before.length + 1) after
      (fun i ↦ by rw [shiftFrom_of_le (by omega), shiftFrom_of_le (by omega)]; omega) kept
    rw [hkept, shiftFrom_of_le (Nat.le_add_right before.length 1)] at hmoved
    rw [hmoved] at htokens
    cases hafter : convert (before.length + 1) kept after with
    | error e =>
      rw [hafter] at hnumber htokens
      exact .inr ⟨e, hnumber, htokens⟩
    | ok later =>
      rw [hafter] at hnumber htokens
      exact .inl ⟨put, later, numberCount_of_scan hbefore, hnumber, htokens⟩

end PostfixOrder

namespace Token

/-- A number counts. -/
theorem numberCount_number_cons (value : Binary64) (rest : List Token) :
    numberCount (.number value :: rest) = numberCount rest + 1 := List.countP_cons_of_pos rfl

/-- A list is split in one way at a number with a given count of numbers before it. -/
theorem append_number_inj {value value' : Binary64} {front front' back back' : List Token}
    (h : front ++ .number value :: back = front' ++ .number value' :: back')
    (hcount : numberCount front = numberCount front') :
    front = front' ∧ value = value' ∧ back = back' := by
  induction front generalizing front' with
  | nil =>
    cases front' with
    | nil =>
      cases h
      exact ⟨rfl, rfl, rfl⟩
    | cons token rest =>
      cases h
      rw [numberCount_number_cons] at hcount
      cases hcount
  | cons token rest ih =>
    cases front' with
    | nil =>
      cases h
      rw [numberCount_number_cons] at hcount
      cases hcount
    | cons token' rest' =>
      obtain ⟨rfl, hrest⟩ := List.cons.inj h
      have hinner : numberCount rest = numberCount rest' := by
        simpa [numberCount, List.countP_cons] using hcount
      obtain ⟨rfl, rfl, rfl⟩ := ih hrest hinner
      exact ⟨rfl, rfl, rfl⟩

end Token

/-- Parentheses around a text are parentheses around its tokens. -/
theorem tokenize_group (text : String) :
    tokenize ("(" ++ text ++ ")") =
      .parenthesis .opening :: (tokenize text ++ [.parenthesis .closing]) := by
  have hopening : Token.ofChar? '(' = some (.parenthesis .opening) := rfl
  have hclosing : Token.ofChar? ')' = some (.parenthesis .closing) := rfl
  have hchars : ("(" ++ text ++ ")").toList = [] ++ '(' :: (text.toList ++ [')']) := by
    simp [String.toList_append]
  rw [tokenize_eq, tokenize_eq, hchars, Piece.ofChars_append_symbol hopening,
    Piece.ofChars_append_symbol hclosing]
  simp [Piece.ofChars, Piece.token]

open PostfixOrder

/-- Parentheses around a whole expression that can be converted do not change the conversion. -/
theorem toPostfix_parenthesized {tokens reordered : List Token}
    (h : toPostfix tokens = .ok reordered) :
    toPostfix (.parenthesis .opening :: (tokens ++ [.parenthesis .closing])) = .ok reordered := by
  rw [toPostfix_of_scan_ok (isOperand_group h 0 []) rfl]
  exact congrArg Except.ok (List.append_nil reordered)

/-- Parentheses around a balanced expression change nothing. -/
theorem evaluateExpression_parenthesized (mode : Mode) {text : String}
    (h : Parentheses.Balanced (tokenize text)) :
    evaluateExpression mode ("(" ++ text ++ ")") = evaluateExpression mode text := by
  obtain ⟨reordered, hreordered⟩ := Parentheses.exists_toPostfix_eq_ok_iff.mpr h
  rw [evaluateExpression, evaluateExpression, evaluateTokens, evaluateTokens, tokenize_group,
    toPostfix_parenthesized hreordered, hreordered]

/-- A number stands in a conversion after as many numbers as in the expression. -/
theorem exists_split_of_toPostfix_eq_ok {before after reordered : List Token} {value : Binary64}
    (h : toPostfix (before ++ .number value :: after) = .ok reordered) :
    ∃ front back, reordered = front ++ .number value :: back ∧
      Token.numberCount front = Token.numberCount before := by
  rcases toPostfix_replace_operand (isOperand_number value) rfl value before after with
    ⟨front, back, hcount, hok, -⟩ | ⟨e, herror, -⟩
  · exact ⟨front, back, Except.ok.inj (h.symm.trans hok), hcount⟩
  · cases h.symm.trans herror

/-- A group in the place of a number that a conversion puts out is put out there. -/
theorem toPostfix_group_of_ok {before inner after reordered front back : List Token}
    {value : Binary64} (hinner : toPostfix inner = .ok reordered)
    (h : toPostfix (before ++ .number value :: after) = .ok (front ++ .number value :: back))
    (hcount : Token.numberCount front = Token.numberCount before) :
    toPostfix (before ++ .parenthesis .opening :: (inner ++ .parenthesis .closing :: after)) =
      .ok (front ++ (reordered ++ back)) := by
  rcases toPostfix_replace_operand (isOperand_group hinner) (length_group inner) value before after
    with ⟨front', back', hcount', hok, hgroup⟩ | ⟨e, herror, -⟩
  · obtain ⟨rfl, -, rfl⟩ := Token.append_number_inj (Except.ok.inj (h.symm.trans hok))
      (hcount.trans hcount'.symm)
    simpa using hgroup
  · cases h.symm.trans herror

/-- With a group in the place of a number a conversion fails in the same way, and parentheses after
the group stand further on. -/
theorem toPostfix_group_of_error {before inner after reordered : List Token} {value : Binary64}
    {e : ParenthesisError} (hinner : toPostfix inner = .ok reordered)
    (h : toPostfix (before ++ .number value :: after) = .error e) :
    toPostfix (before ++ .parenthesis .opening :: (inner ++ .parenthesis .closing :: after)) =
      .error (e.relocate (shiftFrom before.length (inner.length + 1))) := by
  rcases toPostfix_replace_operand (isOperand_group hinner) (length_group inner) value before after
    with ⟨front, back, -, hok, -⟩ | ⟨e', herror, hgroup⟩
  · cases h.symm.trans hok
  · obtain rfl : e = e' := Except.error.inj (h.symm.trans herror)
    simpa using hgroup

/-- An error is not reported at the place of a number. -/
theorem position_ne_of_toPostfix_error {before after : List Token} {value : Binary64}
    {e : ParenthesisError} (h : toPostfix (before ++ .number value :: after) = .error e) :
    e.position ≠ before.length := by
  intro heq
  obtain ⟨side, hside⟩ := exists_parenthesis_of_toPostfix_error h
  rw [heq, List.getElem?_append_right (Nat.le_refl _), Nat.sub_self] at hside
  cases hside

open Token Parentheses in
/-- A group is one opaque operand. When its inside can be converted, putting it in the place of a
number replaces that number in a conversion by the conversion of the inside. An expression that
fails with the number fails in the same way with the group: at the same token if that stands before
the group, and as many tokens later as the group is longer than the number if it stands after it. In
particular parentheses around a balanced text change neither its value nor its error. -/
theorem toPostfix_group (before inner after : List Token) (value : Binary64) :
    let single := toPostfix (before ++ .number value :: after)
    let grouped := toPostfix
      (before ++ .parenthesis .opening :: (inner ++ .parenthesis .closing :: after))
    (∀ reordered, single = .ok reordered → ∃ front back,
      reordered = front ++ .number value :: back ∧ numberCount front = numberCount before) ∧
    (∀ reordered front back, toPostfix inner = .ok reordered →
      single = .ok (front ++ .number value :: back) → numberCount front = numberCount before →
      grouped = .ok (front ++ (reordered ++ back))) ∧
    (∀ reordered e, toPostfix inner = .ok reordered → single = .error e →
      e.position ≠ before.length ∧
      (e.position < before.length → grouped = .error e) ∧
      (before.length < e.position →
        grouped = .error (e.relocate (· + (inner.length + 1))))) ∧
    (∀ mode text, Balanced (tokenize text) →
      evaluateExpression mode ("(" ++ text ++ ")") = evaluateExpression mode text) := by
  intro single grouped
  refine ⟨?_, ?_, ?_, ?_⟩
  · intro reordered hsingle
    exact exists_split_of_toPostfix_eq_ok hsingle
  · intro reordered front back hinner hsingle hcount
    exact toPostfix_group_of_ok hinner hsingle hcount
  · intro reordered e hinner hsingle
    have hgrouped := toPostfix_group_of_error hinner hsingle
    refine ⟨position_ne_of_toPostfix_error hsingle, ?_, ?_⟩
    · intro hlt
      exact hgrouped.trans (congrArg _ (ParenthesisError.relocate_of_fixed (shiftFrom_of_lt hlt)))
    · intro hlt
      exact hgrouped.trans
        (congrArg _ (ParenthesisError.relocate_congr (shiftFrom_of_le (Nat.le_of_lt hlt))))
  · intro mode text hbalanced
    exact evaluateExpression_parenthesized mode hbalanced

open Token Parentheses in
/-- The group `(2+3)` between other tokens, before a parenthesis that nothing opens and after one
that nothing closes, and an expression with an empty group. -/
theorem toPostfix_group_tokens :
    let two := Binary64.ofNat 2
    let three := Binary64.ofNat 3
    let inner : List Token := [.number two, .operator .plus, .number three]
    let times : List Token := [.number three, .operator .times]
    let opening : List Token := [.parenthesis .opening]
    let closing : List Token := [.parenthesis .closing]
    toPostfix inner = .ok [.number two, .number three, .operator .plus] ∧
    (toPostfix (times ++ .number two :: []) =
        .ok ([.number three] ++ .number two :: [.operator .times]) ∧
      toPostfix (times ++ .parenthesis .opening :: (inner ++ .parenthesis .closing :: [])) =
        .ok ([.number three] ++
          ([.number two, .number three, .operator .plus] ++ [.operator .times]))) ∧
    (toPostfix (times ++ .number two :: closing) = .error (.unopened 3) ∧
      toPostfix (times ++ .parenthesis .opening :: (inner ++ .parenthesis .closing :: closing)) =
        .error (.unopened 7)) ∧
    (toPostfix (opening ++ .number two :: []) = .error (.unclosed 0) ∧
      toPostfix (opening ++ .parenthesis .opening :: (inner ++ .parenthesis .closing :: [])) =
        .error (.unclosed 0)) ∧
    (Balanced (tokenize "2+()") ∧
      evaluateExpression {} ("(" ++ "2+()" ++ ")") = evaluateExpression {} "2+()") := by
  intro two three inner times opening closing
  have hinner : toPostfix inner = .ok [.number two, .number three, .operator .plus] := rfl
  have hsingle : toPostfix (times ++ .number two :: []) =
      .ok ([.number three] ++ .number two :: [.operator .times]) := rfl
  have hunopened : toPostfix (times ++ .number two :: closing) = .error (.unopened 3) := rfl
  have hunclosed : toPostfix (opening ++ .number two :: []) = .error (.unclosed 0) := rfl
  obtain ⟨-, hok, -, htext⟩ := toPostfix_group times inner [] two
  obtain ⟨-, -, hafter, -⟩ := toPostfix_group times inner closing two
  obtain ⟨-, -, hbefore, -⟩ := toPostfix_group opening inner [] two
  exact ⟨hinner, ⟨hsingle, hok _ _ _ hinner hsingle rfl⟩,
    ⟨hunopened, (hafter _ _ hinner hunopened).2.2 (by decide)⟩,
    ⟨hunclosed, (hbefore _ _ hinner hunclosed).2.1 (by decide)⟩,
    ⟨by decide, htext {} _ (by decide)⟩⟩

end PocketCalc
