import PocketCalc.Proofs.Evaluation.Depth

/-!
# Runs above other operands

Tokens that can be evaluated with no operands below them can be evaluated above any operands, which
they leave as they are. Only a contextual percent sign looks at what is below its operand, and it
sees no more than the one operand directly below. `Evaluation.exists_run_above` follows runs that
differ in what is below them: what they leave above it depends on the top of it alone.
`Evaluation.run_frame` says so of all tokens that succeed with nothing below them.
-/

namespace PocketCalc

namespace Stack

variable {α : Type}

/-- A stack with other elements on top of it, listed from the top down. -/
def above (base : Stack α) (elements : List α) : Stack α := ⟨elements ++ base.topDown⟩

/-- The elements on top are listed last. -/
theorem toList_above (base : Stack α) (elements : List α) :
    (base.above elements).toList = base.toList ++ elements.reverse := List.reverse_append

/-- The top is that of the elements above, or else what was the top below. -/
theorem peek?_above (base : Stack α) (elements : List α) :
    (base.above elements).peek? = elements.head?.or base.peek? := List.head?_append

/-- A stack with other elements on top is made from both lists. -/
theorem above_eq_ofList (base : Stack α) (elements : List α) :
    base.above elements = ofList (base.toList ++ elements.reverse) := by
  rw [← toList_above, ofList_toList]

end Stack

namespace Evaluation

/-- A contextual percent sign reads the operand directly below its own and no other one. -/
theorem exists_step_percent (below : Option Binary64) (value : Binary64) (next : Option Token) :
    ∃ share, ∀ base : Stack Binary64, base.peek? = below →
      step .contextual (base.push value) next (.operator .percent) = .ok (base.push share) :=
  ⟨_, fun base hbase ↦ by rw [step_percent_push, hbase]⟩

/-- Above any operands with the same one on top, a token that can be evaluated without them leaves
the same operands. Only with contextual percent signs does that top matter. -/
theorem exists_step_above {policy : PercentPolicy} (operands : List Binary64) {after : Nat}
    {token : Token} (h : depthStep policy operands.length token = .ok after)
    (below : Option Binary64) (next : Option Token) :
    ∃ left : List Binary64, left.length = after ∧
      ∀ base : Stack Binary64, (policy = .contextual → base.peek? = below) →
        step policy (base.above operands) next token = .ok (base.above left) := by
  cases token with
  | number value =>
    cases h
    exact ⟨value :: operands, rfl, fun base _ ↦ rfl⟩
  | parenthesis side => cases h
  | operator symbol =>
    rw [depthStep] at h
    cases hbinary : policy.isBinary symbol with
    | true =>
      rw [if_pos hbinary] at h
      obtain _ | ⟨right, _ | ⟨left, rest⟩⟩ := operands
      · simp at h
      · simp at h
      · have henough : ¬ (right :: left :: rest).length < 2 := by
          rw [List.length_cons, List.length_cons]
          omega
        rw [if_neg henough] at h
        cases h
        refine ⟨symbol.apply left right :: rest, rfl, fun base _ ↦ ?_⟩
        exact step_operator_push_push hbinary (base.above rest) left right next
    | false =>
      obtain ⟨rfl, rfl⟩ := PercentPolicy.isBinary_eq_false_iff.mp hbinary
      obtain _ | ⟨value, rest⟩ := operands
      · simp [hbinary] at h
      · have henough : ¬ (value :: rest).length < 1 := by
          rw [List.length_cons]
          omega
        rw [hbinary, if_neg Bool.false_ne_true, if_neg henough] at h
        cases h
        -- The percent sign sees the next operand, or what is below when there is none.
        obtain ⟨share, hshare⟩ := exists_step_percent (rest.head?.or below) value next
        refine ⟨share :: rest, rfl, fun base hbase ↦ hshare (base.above rest) ?_⟩
        rw [Stack.peek?_above, hbase rfl]

/-- Above any operands with the same one on top, tokens that can be evaluated without them leave the
same operands. Only with contextual percent signs does that top matter. -/
theorem exists_run_above {policy : PercentPolicy} (operands : List Binary64) {after : Nat}
    {tokens : List Token} (h : depthRun policy operands.length tokens = .ok after)
    (below : Option Binary64) (following : Option Token) :
    ∃ left : List Binary64, left.length = after ∧
      ∀ base : Stack Binary64, (policy = .contextual → base.peek? = below) →
        run policy (base.above operands) following tokens = .ok (base.above left) := by
  induction tokens generalizing operands with
  | nil =>
    cases h
    exact ⟨operands, rfl, fun base _ ↦ rfl⟩
  | cons token rest ih =>
    rw [depthRun] at h
    cases hdepth : depthStep policy operands.length token with
    | error e => rw [hdepth] at h; cases h
    | ok between =>
      rw [hdepth] at h
      obtain ⟨middle, rfl, hstep⟩ :=
        exists_step_above operands hdepth below (rest.head?.or following)
      obtain ⟨left, hlength, hrest⟩ := ih middle h
      refine ⟨left, hlength, fun base hbase ↦ ?_⟩
      rw [run, hstep base hbase]
      exact hrest base hbase

/-- With percent signs as remainders nothing depends on the following token. -/
theorem run_remainder_following (operands : Stack Binary64) (tokens : List Token)
    (following other : Option Token) :
    run .remainder operands following tokens = run .remainder operands other tokens := by
  induction tokens generalizing operands with
  | nil => rfl
  | cons token rest ih =>
    have hstep : step .remainder operands (rest.head?.or following) token =
        step .remainder operands (rest.head?.or other) token := by
      cases token <;> rfl
    rw [run, run, hstep]
    cases step .remainder operands (rest.head?.or other) token with
    | error e => rfl
    | ok next => exact ih next

/-- Tokens that can be evaluated with nothing below them leave any operands below them untouched.
Above any operands and before any token they succeed and leave as many values as they do alone. With
percent signs as remainders these are the very same values; with contextual percent signs they
depend on what is below only through the top of it. -/
theorem run_frame {policy : PercentPolicy} {segment : List Token} {following : Option Token}
    {alone : Stack Binary64} (h : run policy .empty following segment = .ok alone) :
    (∀ (base : Stack Binary64) (next : Option Token), ∃ values : List Binary64,
      run policy base next segment = .ok (.ofList (base.toList ++ values)) ∧
      values.length = alone.size) ∧
    (policy = .remainder → ∀ (base : Stack Binary64) (next : Option Token),
      run policy base next segment = .ok (.ofList (base.toList ++ alone.toList))) ∧
    (policy = .contextual → ∀ (below : Option Binary64) (next : Option Token),
      ∃ values : List Binary64, ∀ base : Stack Binary64, base.peek? = below →
        run policy base next segment = .ok (.ofList (base.toList ++ values))) := by
  have hdepth : depthRun policy 0 segment = .ok alone.size := by
    have hempty : (Stack.empty : Stack Binary64).size = 0 := rfl
    rw [← hempty, ← size_run policy .empty following segment, h]
    rfl
  refine ⟨?_, ?_, ?_⟩
  · intro base next
    obtain ⟨left, hlength, hrun⟩ := exists_run_above [] hdepth base.peek? next
    refine ⟨left.reverse, ?_, by rw [List.length_reverse, hlength]⟩
    rw [← Stack.above_eq_ofList]
    exact hrun base fun _ ↦ rfl
  · rintro rfl base next
    obtain ⟨left, -, hrun⟩ := exists_run_above [] hdepth none next
    have halone : alone = Stack.empty.above left := by
      have hempty := hrun .empty nofun
      rw [run_remainder_following _ segment next following] at hempty
      exact Except.ok.inj (h.symm.trans hempty)
    rw [halone, Stack.toList_above, Stack.toList_empty, List.nil_append, ← Stack.above_eq_ofList]
    exact hrun base nofun
  · rintro - below next
    obtain ⟨left, -, hrun⟩ := exists_run_above [] hdepth below next
    refine ⟨left.reverse, fun base hbase ↦ ?_⟩
    rw [← Stack.above_eq_ofList]
    exact hrun base fun _ ↦ hbase

/-- `10%` before a sum reads the same share of two bases with 200 on top, and as a remainder `7 3 %`
leaves above 200 what it leaves alone. -/
theorem run_frame_two_hundred :
    let share : List Token := [.number (.ofNat 10), .operator .percent]
    let remainder : List Token := [.number (.ofNat 7), .number (.ofNat 3), .operator .percent]
    let low : Stack Binary64 := .ofList [.ofNat 200]
    let high : Stack Binary64 := .ofList [.ofNat 1, .ofNat 200]
    (run .contextual .empty none share = .ok (.ofList [.ofNat 10 / .hundred]) ∧
      low.peek? = some (.ofNat 200) ∧ high.peek? = some (.ofNat 200) ∧
      ∃ values : List Binary64,
        run .contextual low (some (.operator .plus)) share = .ok (.ofList (low.toList ++ values)) ∧
        run .contextual high (some (.operator .plus)) share =
          .ok (.ofList (high.toList ++ values))) ∧
    (run .remainder .empty none remainder = .ok (.ofList [.ofNat 7 % .ofNat 3]) ∧
      run .remainder low (some (.operator .times)) remainder =
        .ok (.ofList (low.toList ++ [.ofNat 7 % .ofNat 3]))) := by
  intro share remainder low high
  have hshare : run .contextual .empty none share = .ok (.ofList [.ofNat 10 / .hundred]) := rfl
  have hremainder : run .remainder .empty none remainder = .ok (.ofList [.ofNat 7 % .ofNat 3]) :=
    rfl
  obtain ⟨-, -, htop⟩ := run_frame hshare
  obtain ⟨-, hsame, -⟩ := run_frame hremainder
  obtain ⟨values, hvalues⟩ := htop rfl (some (.ofNat 200)) (some (.operator .plus))
  exact ⟨⟨hshare, rfl, rfl, values, hvalues low rfl, hvalues high rfl⟩,
    ⟨hremainder, hsame rfl low (some (.operator .times))⟩⟩

end Evaluation

end PocketCalc
