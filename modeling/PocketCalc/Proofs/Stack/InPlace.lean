import PocketCalc.Stack

/-!
# Stacks that are changed in place

`Stack.InPlace` is what uses a stack and changes it on the way: it answers or fails, and in both
cases a stack is there afterwards, with all changes made until then. Two elements are popped in
place by asking for two and popping one after the other. Because it asks first, this fails only
before the first change, and so it is `Stack.popPair` (`InPlace.run_popPair`). Operations of any
kind and number, failing ones among them, answer as they do on a plain list whose last element is
the top (`Stack.trace_eq_listTrace`). `Stack.inPlace_refines_list` also says when they fail, and
what a failure reports and leaves.
-/

namespace PocketCalc

namespace Stack

variable {α β : Type}

/-- A stack is empty or has an element pushed on another one. -/
theorem eq_empty_or_push (s : Stack α) : s = empty ∨ ∃ rest top, s = push rest top := by
  obtain ⟨elements⟩ := s
  cases elements with
  | nil => exact .inl rfl
  | cons top rest => exact .inr ⟨⟨rest⟩, top, rfl⟩

/-- The elements of a stack from which two can be taken. -/
theorem exists_push_push {s : Stack α} (h : 2 ≤ s.size) :
    ∃ rest below top, s = (push rest below).push top := by
  obtain rfl | ⟨middle, top, rfl⟩ := s.eq_empty_or_push
  · cases h
  obtain rfl | ⟨rest, below, rfl⟩ := middle.eq_empty_or_push
  · exact absurd h (by decide : ¬ 2 ≤ 1)
  exact ⟨rest, below, top, rfl⟩

/-- A size that is not there is reported with the one that is. -/
theorem require_of_lt {s : Stack α} {expected : Nat} (h : s.size < expected) :
    s.require expected = .error ⟨expected, s.size⟩ := if_pos h

/-- What uses a stack and changes it in place: an answer or an underflow, and the stack after it. -/
abbrev InPlace (α β : Type) := EStateM Underflow (Stack α) β

namespace InPlace

/-- In place, what answers with another stack or fails without one. -/
def attempt (f : Stack α → Except Underflow (β × Stack α)) : InPlace α β := do
  match f (← get) with
  | .ok (answer, after) =>
    set after
    return answer
  | .error u => throw u

/-- An element is pushed. -/
def push (a : α) : InPlace α Unit := modify fun s ↦ Stack.push s a

/-- The top is popped. -/
def pop : InPlace α α := attempt Stack.pop

/-- Succeeds when the stack has at least the given size. -/
def require (expected : Nat) : InPlace α Unit :=
  attempt fun s ↦ (Stack.require s expected).map fun _ ↦ ((), s)

/-- The top, if there is one. -/
def peek? : InPlace α (Option α) := return Stack.peek? (← get)

/-- The top two elements are popped, one after the other, once there are two. -/
def popPair : InPlace α (α × α) := do
  require 2
  let top ← pop
  let below ← pop
  return (below, top)

/-- An attempt that fails leaves the stack. -/
theorem run_attempt (f : Stack α → Except Underflow (β × Stack α)) (s : Stack α) :
    (attempt f).run s =
      match f s with
      | .ok (answer, after) => .ok answer after
      | .error u => .error u s := by
  rw [attempt, EStateM.run_bind, EStateM.run_get]
  dsimp only
  cases f s <;> rfl

/-- Popping takes what was pushed last. -/
theorem run_pop_push (s : Stack α) (a : α) : pop.run (s.push a) = .ok a s := rfl

/-- Asking for a size that is there changes nothing. -/
theorem run_require_of_le {s : Stack α} {expected : Nat} (h : expected ≤ s.size) :
    (require expected).run s = .ok () s := by
  rw [require, run_attempt, require_ok_iff.mpr h]
  rfl

/-- Asking for a size that is not there changes nothing and fails. -/
theorem run_require_of_lt {s : Stack α} {expected : Nat} (h : s.size < expected) :
    (require expected).run s = .error ⟨expected, s.size⟩ s := by
  rw [require, run_attempt, require_of_lt h]
  rfl

/-- Popping a pair takes the last two pushed elements in their order. -/
theorem run_popPair_push_push (s : Stack α) (below top : α) :
    popPair.run ((s.push below).push top) = .ok (below, top) s := by
  have henough : 2 ≤ ((s.push below).push top).size := by
    rw [size_push, size_push]
    omega
  rw [popPair, EStateM.run_bind, run_require_of_le henough]
  rfl

/-- A pair is not popped from less than two elements, and these stay. -/
theorem run_popPair_of_lt {s : Stack α} (h : s.size < 2) :
    popPair.run s = .error ⟨2, s.size⟩ s := by
  rw [popPair, EStateM.run_bind, run_require_of_lt h]

/-- Popping two elements one after the other in place is popping a pair at once. -/
theorem run_popPair (s : Stack α) : popPair.run s = (attempt Stack.popPair).run s := by
  rw [run_attempt]
  by_cases h : s.size < 2
  · rw [run_popPair_of_lt h, popPair_error_iff.mpr ⟨h, rfl⟩]
  · obtain ⟨rest, below, top, rfl⟩ := exists_push_push (Nat.le_of_not_lt h)
    rw [run_popPair_push_push, popPair_push_push]

end InPlace

/-- What can be done to a stack. -/
inductive Operation (α : Type) where
  | push (a : α)
  | pop
  | popPair
  | require (expected : Nat)
  | peek
deriving DecidableEq, Repr

/-- What an operation that succeeds answers. -/
inductive Answer (α : Type) where
  | done
  | element (a : α)
  | pair (below top : α)
  | top (a? : Option α)
deriving DecidableEq, Repr

namespace Operation

/-- An operation on a stack in place. -/
def perform : Operation α → InPlace α (Answer α)
  | push a => do
    InPlace.push a
    return .done
  | pop => return .element (← InPlace.pop)
  | popPair => do
    let (below, top) ← InPlace.popPair
    return .pair below top
  | require expected => do
    InPlace.require expected
    return .done
  | peek => return .top (← InPlace.peek?)

/-- The number of elements that an operation asks for. -/
def requested : Operation α → Nat
  | push _ => 0
  | pop => 1
  | popPair => 2
  | require expected => expected
  | peek => 0

/-- What an operation answers on a list whose last element is the top, and the list after it. -/
def onList (items : List α) : Operation α → Except Underflow (Answer α) × List α
  | push a => (.ok .done, items ++ [a])
  | pop =>
    match items.getLast? with
    | some top => (.ok (.element top), items.dropLast)
    | none => (.error ⟨1, 0⟩, items)
  | popPair =>
    match items.dropLast.getLast?, items.getLast? with
    | some below, some top => (.ok (.pair below top), items.dropLast.dropLast)
    | _, _ => (.error ⟨2, items.length⟩, items)
  | require expected =>
    if expected ≤ items.length then (.ok .done, items)
    else (.error ⟨expected, items.length⟩, items)
  | peek => (.ok (.top items.getLast?), items)

end Operation

/-- What is seen of something done in place: what it answers and the elements after it. -/
def InPlace.seen : EStateM.Result Underflow (Stack α) β → Except Underflow β × List α
  | .ok answer after => (.ok answer, after.toList)
  | .error u after => (.error u, after.toList)

/-- What operations answer one after the other, each with the elements after it. One that fails does
not stop the others. -/
def trace (s : Stack α) : List (Operation α) → List (Except Underflow (Answer α) × List α)
  | [] => []
  | operation :: rest =>
    match operation.perform.run s with
    | .ok answer after => (.ok answer, after.toList) :: trace after rest
    | .error u after => (.error u, after.toList) :: trace after rest

/-- What operations answer on a list whose last element is the top, each with the list after it. -/
def listTrace (items : List α) : List (Operation α) → List (Except Underflow (Answer α) × List α)
  | [] => []
  | operation :: rest =>
    operation.onList items :: listTrace (operation.onList items).2 rest

/-- An operation does to a stack what it does to the list of its elements. -/
theorem seen_perform (operation : Operation α) (s : Stack α) :
    InPlace.seen (operation.perform.run s) = operation.onList s.toList := by
  cases operation with
  | push a => exact congrArg (Prod.mk _) (toList_push s a)
  | pop =>
    obtain rfl | ⟨rest, top, rfl⟩ := s.eq_empty_or_push
    · rfl
    · rw [Operation.onList, toList_push, List.getLast?_concat, List.dropLast_concat]
      rfl
  | popPair =>
    obtain rfl | ⟨middle, top, rfl⟩ := s.eq_empty_or_push
    · rfl
    obtain rfl | ⟨rest, below, rfl⟩ := middle.eq_empty_or_push
    · rfl
    rw [Operation.perform, EStateM.run_bind, InPlace.run_popPair_push_push, Operation.onList,
      toList_push, toList_push, List.dropLast_concat, List.getLast?_concat, List.getLast?_concat,
      List.dropLast_concat]
    rfl
  | require expected =>
    rw [Operation.perform, EStateM.run_bind, Operation.onList, length_toList]
    by_cases h : expected ≤ s.size
    · rw [InPlace.run_require_of_le h, if_pos h]
      rfl
    · rw [InPlace.run_require_of_lt (Nat.lt_of_not_le h), if_neg h]
      rfl
  | peek =>
    rw [Operation.onList, ← peek?_eq_getLast?]
    rfl

/-- Operations do to a stack what they do to the list of its elements, one after the other. -/
theorem trace_eq_listTrace (s : Stack α) (operations : List (Operation α)) :
    s.trace operations = listTrace s.toList operations := by
  induction operations generalizing s with
  | nil => rfl
  | cons operation rest ih =>
    rw [trace, listTrace, ← seen_perform operation s]
    cases operation.perform.run s with
    | ok answer after => exact congrArg (List.cons _) (ih after)
    | error u after => exact congrArg (List.cons _) (ih after)

/-- An operation that asks for more elements than there are reports both numbers and changes
nothing. -/
theorem run_perform_of_lt {operation : Operation α} {s : Stack α}
    (h : s.size < operation.requested) :
    operation.perform.run s = .error ⟨operation.requested, s.size⟩ s := by
  cases operation with
  | push a | peek => cases h
  | pop =>
    obtain rfl | ⟨rest, top, rfl⟩ := s.eq_empty_or_push
    · rfl
    · rw [size_push] at h
      exact absurd (Nat.lt_of_succ_lt_succ h) (Nat.not_lt_zero _)
  | popPair =>
    rw [Operation.perform, EStateM.run_bind, InPlace.run_popPair_of_lt h]
    rfl
  | require expected =>
    change s.size < expected at h
    rw [Operation.perform, EStateM.run_bind, InPlace.run_require_of_lt h]
    rfl

/-- An operation succeeds when there are as many elements as it asks for. -/
theorem exists_run_perform_of_le {operation : Operation α} {s : Stack α}
    (h : operation.requested ≤ s.size) :
    ∃ answer after, operation.perform.run s = .ok answer after := by
  cases operation with
  | push a | peek => exact ⟨_, _, rfl⟩
  | pop =>
    obtain rfl | ⟨rest, top, rfl⟩ := s.eq_empty_or_push
    · cases h
    · exact ⟨_, _, rfl⟩
  | popPair =>
    obtain ⟨rest, below, top, rfl⟩ := exists_push_push h
    refine ⟨.pair below top, rest, ?_⟩
    rw [Operation.perform, EStateM.run_bind, InPlace.run_popPair_push_push]
    rfl
  | require expected =>
    change expected ≤ s.size at h
    refine ⟨.done, s, ?_⟩
    rw [Operation.perform, EStateM.run_bind, InPlace.run_require_of_le h]
    rfl

/-- An operation fails exactly when it asks for more elements than there are; it reports both
numbers and changes nothing. -/
theorem run_perform_eq_error_iff {operation : Operation α} {s after : Stack α} {u : Underflow} :
    operation.perform.run s = .error u after ↔
      s.size < operation.requested ∧ u = ⟨operation.requested, s.size⟩ ∧ after = s := by
  constructor
  · intro h
    by_cases hlt : s.size < operation.requested
    · rw [run_perform_of_lt hlt] at h
      cases h
      exact ⟨hlt, rfl, rfl⟩
    · obtain ⟨answer, left, hok⟩ := exists_run_perform_of_le (Nat.le_of_not_lt hlt)
      cases hok.symm.trans h
  · rintro ⟨hlt, rfl, rfl⟩
    exact run_perform_of_lt hlt

/-- A pair is popped exactly from two elements or more. -/
theorem InPlace.exists_run_popPair_iff {s : Stack α} :
    (∃ pair after, popPair.run s = .ok pair after) ↔ 2 ≤ s.size := by
  constructor
  · rintro ⟨pair, after, hok⟩
    refine Nat.le_of_not_lt fun hlt ↦ ?_
    cases (run_popPair_of_lt hlt).symm.trans hok
  · intro h
    obtain ⟨rest, below, top, rfl⟩ := exists_push_push h
    exact ⟨_, _, run_popPair_push_push rest below top⟩

/-- A stack that is changed in place is a list whose last element is the top, and what fails changes
nothing. Any operations from any elements answer and leave at every step what they do on the list.
Popping a pair is what `Stack.popPair` says; it succeeds exactly on two elements or more, and is
then two pops with their answers swapped. An operation that fails has asked for more elements than
there are, reports both numbers, and leaves the elements, their number and what the stack is equal
to. Two elements that are pushed come back as a pair, and the stack before them. -/
theorem inPlace_refines_list (α : Type) [BEq α] :
    (∀ (items : List α) (operations : List (Operation α)),
      (ofList items).trace operations = listTrace items operations) ∧
    (∀ s : Stack α, InPlace.popPair.run s = (InPlace.attempt Stack.popPair).run s ∧
      ((∃ pair after, InPlace.popPair.run s = .ok pair after) ↔ 2 ≤ s.size) ∧
      (2 ≤ s.size → ∃ top middle below after, InPlace.pop.run s = .ok top middle ∧
        InPlace.pop.run middle = .ok below after ∧
        InPlace.popPair.run s = .ok (below, top) after)) ∧
    (∀ (operation : Operation α) (s after : Stack α) (u : Underflow),
      operation.perform.run s = .error u after →
      s.size < operation.requested ∧ u = ⟨operation.requested, s.size⟩ ∧
      after.toList = s.toList ∧ after.size = s.size ∧
      ∀ other : Stack α, (after.toList == other.toList) = (s.toList == other.toList)) ∧
    (∀ (s : Stack α) (below top : α),
      (do
        InPlace.push below
        InPlace.push top
        InPlace.popPair : InPlace α (α × α)).run s = .ok (below, top) s) := by
  refine ⟨?_, ?_, ?_, ?_⟩
  · intro items operations
    rw [trace_eq_listTrace, toList_ofList]
  · intro s
    refine ⟨InPlace.run_popPair s, InPlace.exists_run_popPair_iff, fun h ↦ ?_⟩
    obtain ⟨rest, below, top, rfl⟩ := exists_push_push h
    exact ⟨top, rest.push below, below, rest, InPlace.run_pop_push _ top,
      InPlace.run_pop_push rest below, InPlace.run_popPair_push_push rest below top⟩
  · intro operation s after u h
    obtain ⟨hlt, rfl, rfl⟩ := run_perform_eq_error_iff.mp h
    exact ⟨hlt, rfl, rfl, rfl, fun _ ↦ rfl⟩
  · intro s below top
    exact InPlace.run_popPair_push_push s below top

/-- A pair of three numbers, a pair of one, and a check for four of three. -/
theorem inPlace_refines_list_numbers :
    (2 ≤ (ofList [10, 20, 30]).size ∧
      ∃ top middle below after, InPlace.pop.run (ofList [10, 20, 30]) = .ok top middle ∧
        InPlace.pop.run middle = .ok below after ∧
        InPlace.popPair.run (ofList [10, 20, 30]) = .ok (below, top) after) ∧
    (Operation.popPair.perform.run (ofList [10]) = .error ⟨2, 1⟩ (ofList [10]) ∧
      (ofList [10]).size < (Operation.popPair : Operation Nat).requested) ∧
    ((Operation.require 4).perform.run (ofList [10, 20, 30]) =
        .error ⟨4, 3⟩ (ofList [10, 20, 30]) ∧
      (ofList [10, 20, 30]).size < (Operation.require 4 : Operation Nat).requested) := by
  obtain ⟨-, hpair, hfailure, -⟩ := inPlace_refines_list Nat
  have hone : Operation.popPair.perform.run (ofList [10]) = .error ⟨2, 1⟩ (ofList [10]) := rfl
  have hfour : (Operation.require 4).perform.run (ofList [10, 20, 30]) =
      .error ⟨4, 3⟩ (ofList [10, 20, 30]) := rfl
  have htwo : 2 ≤ (ofList [10, 20, 30]).size := by decide
  exact ⟨⟨htwo, (hpair _).2.2 htwo⟩, ⟨hone, (hfailure _ _ _ _ hone).1⟩,
    ⟨hfour, (hfailure _ _ _ _ hfour).1⟩⟩

end Stack

end PocketCalc
