import PocketCalc.Proofs.PostfixOrder.Parentheses

/-!
# Positions in a conversion

A scan carries the positions of tokens to the open groups and to the errors and never looks at them.
From other positions on the same tokens put out the same, and fail in the same way at other
positions (`scan_relocate`, `convert_relocate`).
-/

namespace PocketCalc

namespace ParenthesisError

/-- The position of the reported parenthesis. -/
def position : ParenthesisError → Nat
  | unopened position => position
  | unclosed position => position

/-- The same kind of error at another position. -/
def relocate (f : Nat → Nat) : ParenthesisError → ParenthesisError
  | unopened position => unopened (f position)
  | unclosed position => unclosed (f position)

/-- Only where the reported position goes matters. -/
theorem relocate_congr {f g : Nat → Nat} {e : ParenthesisError} (h : f e.position = g e.position) :
    e.relocate f = e.relocate g := by
  cases e with
  | unopened position => exact congrArg unopened h
  | unclosed position => exact congrArg unclosed h

/-- An error at a position that does not move stays as it is. -/
theorem relocate_of_fixed {f : Nat → Nat} {e : ParenthesisError} (h : f e.position = e.position) :
    e.relocate f = e := by
  rw [relocate_congr (g := id) h]
  cases e <;> rfl

end ParenthesisError

namespace Pending

/-- What waits, with the open groups at other positions. -/
def relocate (f : Nat → Nat) : Pending → Pending
  | operator symbol => operator symbol
  | group position => group (f position)

/-- Groups at positions that do not move stay as they are. -/
theorem map_relocate_of_fixed {f : Nat → Nat} {pending : List Pending}
    (h : ∀ p ∈ groups pending, f p = p) : pending.map (relocate f) = pending := by
  induction pending with
  | nil => rfl
  | cons top rest ih =>
    cases top with
    | operator waiting => exact congrArg (operator waiting :: ·) (ih h)
    | group position =>
      obtain ⟨hposition, hrest⟩ := List.forall_mem_cons.mp h
      rw [List.map_cons, ih hrest, relocate, hposition]

/-- Which operators yield does not depend on positions. -/
theorem yieldTo_relocate (f : Nat → Nat) (incoming : OperatorSymbol) (pending : List Pending) :
    yieldTo incoming (pending.map (relocate f)) =
      ((yieldTo incoming pending).1, (yieldTo incoming pending).2.map (relocate f)) := by
  induction pending with
  | nil => rfl
  | cons top rest ih =>
    cases top with
    | group position => rfl
    | operator waiting =>
      rw [List.map_cons, relocate, yieldTo, yieldTo]
      split
      · rw [ih]
      · rfl

/-- Which operators a group holds does not depend on positions. -/
theorem closeGroup?_relocate (f : Nat → Nat) (pending : List Pending) :
    closeGroup? (pending.map (relocate f)) =
      (closeGroup? pending).map fun (closed, kept) ↦ (closed, kept.map (relocate f)) := by
  induction pending with
  | nil => rfl
  | cons top rest ih =>
    cases top with
    | group position => rfl
    | operator waiting =>
      rw [List.map_cons, relocate, closeGroup?, closeGroup?, ih, Option.map_map, Option.map_map]
      rfl

/-- Draining reports an open group where it is. -/
theorem drain_relocate (f : Nat → Nat) (pending : List Pending) :
    drain (pending.map (relocate f)) = (drain pending).mapError (.relocate f) := by
  induction pending with
  | nil => rfl
  | cons top rest ih =>
    cases top with
    | group position => rfl
    | operator waiting =>
      rw [List.map_cons, relocate, drain, drain, ih]
      cases drain rest <;> rfl

end Pending

namespace PostfixOrder

open Pending

/-- A conversion reports a parenthesis. -/
theorem exists_parenthesis_of_toPostfix_error {tokens : List Token} {e : ParenthesisError}
    (h : toPostfix tokens = .error e) : ∃ side, tokens[e.position]? = some (.parenthesis side) := by
  rcases Parentheses.toPostfix_cases tokens with
    ⟨position, hfirst, herror⟩ | ⟨-, -, position, hlast, herror⟩ | ⟨-, reordered, hok⟩
  · rw [herror] at h
    cases h
    exact ⟨.closing, hfirst.closing⟩
  · rw [herror] at h
    cases h
    exact ⟨.opening, hlast.isUnclosed.opening⟩
  · rw [hok] at h
    cases h

/-- A step carries positions and does not look at them. -/
theorem step_relocate (f : Nat → Nat) (position : Nat) (pending : List Pending) (token : Token) :
    step (f position) (pending.map (relocate f)) token =
      ((step position pending token).map fun (put, kept) ↦
        (put, kept.map (relocate f))).mapError (.relocate f) := by
  cases token with
  | number value => rfl
  | operator symbol =>
    rw [step, yieldTo_relocate]
    rfl
  | parenthesis side =>
    cases side with
    | opening => rfl
    | closing =>
      rw [step, step, closeGroup?_relocate]
      cases closeGroup? pending <;> rfl

/-- A scan carries positions and does not look at them. -/
theorem scan_relocate (f : Nat → Nat) (position : Nat) (tokens : List Token)
    (hf : ∀ i, f (position + i) = f position + i) (pending : List Pending) :
    scan (f position) (pending.map (relocate f)) tokens =
      ((scan position pending tokens).map fun (put, kept) ↦
        (put, kept.map (relocate f))).mapError (.relocate f) := by
  induction tokens generalizing position pending with
  | nil => rfl
  | cons token rest ih =>
    have hnext : ∀ i, f (position + 1 + i) = f (position + 1) + i := by
      intro i
      rw [Nat.add_assoc, hf, hf, Nat.add_assoc]
    rw [scan, scan, step_relocate]
    cases step position pending token with
    | error e => rfl
    | ok result =>
      obtain ⟨now, waiting⟩ := result
      have hrest := ih (position + 1) hnext waiting
      rw [hf 1] at hrest
      simp only [Except.map, Except.mapError]
      rw [hrest]
      cases scan (position + 1) waiting rest <;> rfl

/-- A conversion from other positions on fails at other positions. -/
theorem convert_relocate (f : Nat → Nat) (position : Nat) (tokens : List Token)
    (hf : ∀ i, f (position + i) = f position + i) (pending : List Pending) :
    convert (f position) (pending.map (relocate f)) tokens =
      (convert position pending tokens).mapError (.relocate f) := by
  rw [convert_eq_scan, convert_eq_scan, scan_relocate f position tokens hf]
  cases scan position pending tokens with
  | error e => rfl
  | ok result =>
    simp only [Except.map, Except.mapError]
    rw [drain_relocate]
    cases drain result.2 <;> rfl

end PostfixOrder

end PocketCalc
