import Mathlib.Data.List.Induction
import PocketCalc.Proofs.Evaluation.Run
import PocketCalc.Proofs.PostfixOrder.Conservation
import PocketCalc.Proofs.Token.Pieces

/-!
# What the settings of a mode change

The two settings of a mode do not interfere. After any changes of a new mode each setting is what
was last written to it (`Mode.isRemainder_after`, `Mode.raw_after`), whatever was written to the
other one. The rounding is applied to the value of an evaluation and to nothing before it
(`evaluateTokens_eq_map_present`), and the reading of percent signs matters only where one is
evaluated (`Evaluation.run_eq_of_no_percent`). `evaluateExpression_settings` puts this together for
typed expressions.
-/

namespace PocketCalc

namespace Mode

/-- A change of one of the two settings. -/
inductive Change where
  | setRemainder (on : Bool)
  | setRaw (on : Bool)
  | withPolicy (policy : PercentPolicy)
  | withRaw
deriving DecidableEq, Repr

namespace Change

/-- The mode after a change. -/
def apply (m : Mode) : Change → Mode
  | setRemainder on => m.setRemainder on
  | setRaw on => m.setRaw on
  | withPolicy policy => m.withPolicy policy
  | withRaw => m.withRaw

/-- What a change writes to the reading of percent signs: whether they are remainders. -/
def remainder? : Change → Option Bool
  | setRemainder on => some on
  | withPolicy policy => some (policy == .remainder)
  | _ => none

/-- What a change writes to the rounding: whether the final result is left unrounded. -/
def raw? : Change → Option Bool
  | setRaw on => some on
  | withRaw => some true
  | _ => none

/-- A change that does not write the reading of percent signs keeps it. -/
theorem isRemainder_apply (m : Mode) (c : Change) :
    (c.apply m).isRemainder = c.remainder?.getD m.isRemainder := by
  cases c with
  | setRemainder on => exact m.isRemainder_setRemainder on
  | setRaw on => exact m.isRemainder_setRaw on
  | withPolicy policy => exact m.isRemainder_setRemainder (policy == .remainder)
  | withRaw => exact m.isRemainder_setRaw true

/-- A change that does not write the rounding keeps it. -/
theorem raw_apply (m : Mode) (c : Change) : (c.apply m).raw = c.raw?.getD m.raw := by
  cases c with
  | setRemainder on => exact m.raw_setRemainder on
  | setRaw on => exact m.raw_setRaw on
  | withPolicy policy => exact m.raw_setRemainder (policy == .remainder)
  | withRaw => exact m.raw_setRaw true

end Change

/-- A new mode after changes, one after the other. -/
def after (changes : List Change) : Mode := changes.foldl Change.apply {}

/-- Whether percent signs were last made remainders; at first they are not. -/
def lastRemainder (changes : List Change) : Bool :=
  (changes.filterMap Change.remainder?).getLast?.getD false

/-- Whether the final result was last left unrounded; at first it is not. -/
def lastRaw (changes : List Change) : Bool := (changes.filterMap Change.raw?).getLast?.getD false

/-- One more change is applied last. -/
theorem after_append_singleton (changes : List Change) (c : Change) :
    after (changes ++ [c]) = c.apply (after changes) := List.foldl_append

private theorem getD_getLast?_filterMap_append {f : Change → Option Bool} (changes : List Change)
    (c : Change) :
    ((changes ++ [c]).filterMap f).getLast?.getD false =
      (f c).getD ((changes.filterMap f).getLast?.getD false) := by
  rw [List.filterMap_append, List.getLast?_append]
  cases h : f c <;> simp [h]

/-- After any changes percent signs are remainders if they were last made so. -/
theorem isRemainder_after (changes : List Change) :
    (after changes).isRemainder = lastRemainder changes := by
  induction changes using List.reverseRecOn with
  | nil => rfl
  | append_singleton changes c ih =>
    rw [after_append_singleton, Change.isRemainder_apply, ih]
    exact (getD_getLast?_filterMap_append changes c).symm

/-- After any changes the final result is unrounded if it was last left so. -/
theorem raw_after (changes : List Change) : (after changes).raw = lastRaw changes := by
  induction changes using List.reverseRecOn with
  | nil => rfl
  | append_singleton changes c ih =>
    rw [after_append_singleton, Change.raw_apply, ih]
    exact (getD_getLast?_filterMap_append changes c).symm

/-- The policy after any changes. -/
theorem policy_after (changes : List Change) :
    (after changes).policy = if lastRemainder changes then .remainder else .contextual := by
  rw [policy, isRemainder_after]

/-- Only the rounding decides how a value is presented. -/
theorem present_eq_of_raw_eq {m n : Mode} (h : m.raw = n.raw) : m.present = n.present := by
  funext value
  rw [present, present, h]

end Mode

/-- The value of an expression is the presentation of its unrounded value. -/
theorem evaluateTokens_eq_map_present (mode : Mode) (tokens : List Token) :
    evaluateTokens mode tokens =
      (evaluateTokens (.ofSettings mode.policy true) tokens).map mode.present := by
  rw [evaluateTokens, evaluateTokens]
  cases toPostfix tokens with
  | error e => rfl
  | ok reordered =>
    simp only [evaluateReordered, evaluate, Mode.policy_ofSettings]
    cases Evaluation.run mode.policy .empty none reordered with
    | error e => rfl
    | ok operands =>
      dsimp only
      cases Evaluation.result operands with
      | error e => rfl
      | ok value =>
        have hunrounded : (Mode.ofSettings mode.policy true).present value = value := by
          rw [Mode.present, Mode.raw_ofSettings, if_pos rfl]
        rw [Except.map, Except.map, hunrounded]
        rfl

/-- Modes with the same settings have the same outcome. -/
theorem evaluateTokens_eq_of_settings {m n : Mode} (hpolicy : m.policy = n.policy)
    (hraw : m.raw = n.raw) (tokens : List Token) :
    evaluateTokens m tokens = evaluateTokens n tokens := by
  rw [evaluateTokens_eq_map_present m, evaluateTokens_eq_map_present n, hpolicy,
    Mode.present_eq_of_raw_eq hraw]

namespace Evaluation

/-- Where no percent sign is evaluated its reading does not matter. -/
theorem run_eq_of_no_percent {tokens : List Token} (h : .operator .percent ∉ tokens)
    (policy other : PercentPolicy) (operands : Stack Binary64) (following : Option Token) :
    run policy operands following tokens = run other operands following tokens := by
  induction tokens generalizing operands with
  | nil => rfl
  | cons token rest ih =>
    rw [List.mem_cons, not_or] at h
    obtain ⟨htoken, hrest⟩ := h
    have hstep : step policy operands (rest.head?.or following) token =
        step other operands (rest.head?.or following) token := by
      cases token with
      | number value => rfl
      | parenthesis side => rfl
      | operator symbol =>
        have hsymbol : symbol ≠ .percent := fun heq ↦ htoken (by rw [heq])
        rw [step, step, applyOperator_of_isBinary (policy.isBinary_of_ne_percent hsymbol),
          applyOperator_of_isBinary (other.isBinary_of_ne_percent hsymbol)]
    rw [run, run, hstep]
    cases step other operands (rest.head?.or following) token with
    | error e => rfl
    | ok next => exact ih hrest next

end Evaluation

/-- Without a percent sign among the tokens its reading does not matter. -/
theorem evaluateTokens_eq_of_no_percent {tokens : List Token} (h : .operator .percent ∉ tokens)
    {m n : Mode} (hraw : m.raw = n.raw) : evaluateTokens m tokens = evaluateTokens n tokens := by
  rw [evaluateTokens, evaluateTokens]
  cases hconversion : toPostfix tokens with
  | error e => rfl
  | ok reordered =>
    have hreordered : .operator .percent ∉ reordered := by
      intro hmem
      have hkept := (PostfixOrder.perm_of_toPostfix hconversion).mem_iff.mp hmem
      exact h (List.mem_filter.mp hkept).1
    simp only [evaluateReordered, evaluate]
    rw [Evaluation.run_eq_of_no_percent hreordered m.policy n.policy,
      Mode.present_eq_of_raw_eq hraw]

/-- The settings of a mode matter only where they should. After any changes of a new mode each
setting is what was last written to it, and the outcome of an expression depends on nothing else.
Modes that differ in the rounding alone have the same error, or an unrounded value and that very
value rounded. Without the character of the percent sign in the text both readings of it have the
same outcome. -/
theorem evaluateExpression_settings (text : String) :
    (∀ changes : List Mode.Change,
      (Mode.after changes).policy =
        (if Mode.lastRemainder changes then .remainder else .contextual) ∧
      (Mode.after changes).isRemainder = Mode.lastRemainder changes ∧
      (Mode.after changes).raw = Mode.lastRaw changes) ∧
    (∀ changes others : List Mode.Change,
      Mode.lastRemainder changes = Mode.lastRemainder others →
      Mode.lastRaw changes = Mode.lastRaw others →
      evaluateExpression (.after changes) text = evaluateExpression (.after others) text) ∧
    (∀ changes others : List Mode.Change,
      Mode.lastRemainder changes = Mode.lastRemainder others →
      Mode.lastRaw changes = true → Mode.lastRaw others = false →
      (∃ e, evaluateExpression (.after changes) text = .error e ∧
        evaluateExpression (.after others) text = .error e) ∨
      (∃ value, evaluateExpression (.after changes) text = .ok value ∧
        evaluateExpression (.after others) text = .ok value.roundForDisplay)) ∧
    ('%' ∉ text.toList → ∀ changes others : List Mode.Change,
      Mode.lastRaw changes = Mode.lastRaw others →
      evaluateExpression (.after changes) text = evaluateExpression (.after others) text) := by
  have hpolicy {changes others : List Mode.Change}
      (h : Mode.lastRemainder changes = Mode.lastRemainder others) :
      (Mode.after changes).policy = (Mode.after others).policy := by
    rw [Mode.policy_after, Mode.policy_after, h]
  have hraw {changes others : List Mode.Change} (h : Mode.lastRaw changes = Mode.lastRaw others) :
      (Mode.after changes).raw = (Mode.after others).raw := by
    rw [Mode.raw_after, Mode.raw_after, h]
  refine ⟨fun changes ↦ ⟨Mode.policy_after changes, Mode.isRemainder_after changes,
    Mode.raw_after changes⟩, ?_, ?_, ?_⟩
  · intro changes others hremainder hsame
    exact evaluateTokens_eq_of_settings (hpolicy hremainder) (hraw hsame) (tokenize text)
  · intro changes others hremainder hon hoff
    have hunrounded := evaluateTokens_eq_map_present (.after changes) (tokenize text)
    have hrounded := evaluateTokens_eq_map_present (.after others) (tokenize text)
    rw [evaluateExpression, evaluateExpression, hunrounded, hrounded, hpolicy hremainder]
    cases evaluateTokens (.ofSettings (Mode.after others).policy true) (tokenize text) with
    | error e => exact .inl ⟨e, rfl, rfl⟩
    | ok value =>
      refine .inr ⟨value, ?_, ?_⟩
      · rw [Except.map, Mode.present, Mode.raw_after, hon, if_pos rfl]
      · rw [Except.map, Mode.present, Mode.raw_after, hoff]
        rfl
  · intro htext changes others hsame
    have hno : .operator .percent ∉ tokenize text := by
      intro hmem
      exact htext (char_mem_of_mem_tokenize hmem rfl)
    exact evaluateTokens_eq_of_no_percent hno (hraw hsame)

/-- Settings written more than once and in another order, with and without the rounding; and a text
without a percent sign under both readings of it. -/
theorem evaluateExpression_settings_changes :
    let changes : List Mode.Change := [.setRaw true, .withPolicy .remainder, .setRaw false]
    let others : List Mode.Change := [.withRaw, .setRemainder true]
    (Mode.lastRemainder changes = Mode.lastRemainder [.setRemainder true] ∧
      Mode.lastRaw changes = Mode.lastRaw [.setRemainder true] ∧
      evaluateExpression (.after changes) "17%5" =
        evaluateExpression (.after [.setRemainder true]) "17%5") ∧
    (Mode.lastRemainder others = Mode.lastRemainder changes ∧ Mode.lastRaw others = true ∧
      Mode.lastRaw changes = false ∧
      ((∃ e, evaluateExpression (.after others) "17%5" = .error e ∧
        evaluateExpression (.after changes) "17%5" = .error e) ∨
      (∃ value, evaluateExpression (.after others) "17%5" = .ok value ∧
        evaluateExpression (.after changes) "17%5" = .ok value.roundForDisplay))) ∧
    ('%' ∉ "2÷3".toList ∧ Mode.lastRaw changes = Mode.lastRaw [] ∧
      evaluateExpression (.after changes) "2÷3" = evaluateExpression (.after []) "2÷3") := by
  intro changes others
  obtain ⟨-, hsame, hrounding, -⟩ := evaluateExpression_settings "17%5"
  obtain ⟨-, -, -, htext⟩ := evaluateExpression_settings "2÷3"
  exact ⟨⟨rfl, rfl, hsame changes _ rfl rfl⟩, ⟨rfl, rfl, rfl, hrounding others changes rfl rfl rfl⟩,
    ⟨by decide, rfl, htext (by decide) changes [] rfl⟩⟩

end PocketCalc
