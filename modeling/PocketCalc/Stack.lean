/-!
# Stacks

A stack of elements whose operations are total: taking more than there is fails with the size that
was needed and the size that was found, and leaves the stack as it was. `Stack.toList` lists the
elements from the bottom up, so that the last one is the top.
-/

namespace PocketCalc

/-- Too few elements (`StackError`): how many were needed and how many there were. -/
structure Underflow where
  expected : Nat
  actual : Nat
deriving DecidableEq, Repr

namespace Underflow

/-- The text of an underflow. -/
def message (u : Underflow) : String :=
  s!"Stack underflow: expected at least {u.expected} operands but found {u.actual}"

end Underflow

/-- A stack, its elements listed from the top down. -/
structure Stack (α : Type) where
  topDown : List α
deriving DecidableEq, Repr

namespace Stack

variable {α : Type}

/-- The stack without elements. -/
def empty : Stack α := ⟨[]⟩

/-- The stack of a list whose last element is the top. -/
def ofList (items : List α) : Stack α := ⟨items.reverse⟩

/-- The elements from the bottom up. -/
def toList (s : Stack α) : List α := s.topDown.reverse

/-- The number of elements (`len`). -/
def size (s : Stack α) : Nat := s.topDown.length

/-- Whether there are no elements (`is_empty`). -/
def isEmpty (s : Stack α) : Bool := s.topDown.isEmpty

/-- The top element, if there is one (`peek`). -/
def peek? (s : Stack α) : Option α := s.topDown.head?

/-- The stack with one more element on top. -/
def push (s : Stack α) (a : α) : Stack α := ⟨a :: s.topDown⟩

/-- Succeeds when the stack has at least the given size (`check_stack_size`). -/
def require (s : Stack α) (expected : Nat) : Except Underflow Unit :=
  if s.size < expected then .error ⟨expected, s.size⟩ else .ok ()

/-- The top element and the stack without it. -/
def pop (s : Stack α) : Except Underflow (α × Stack α) :=
  match s.topDown with
  | top :: rest => .ok (top, ⟨rest⟩)
  | [] => .error ⟨1, 0⟩

/-- The element below the top, the top, and the stack without both (`pop_pair`). -/
def popPair (s : Stack α) : Except Underflow ((α × α) × Stack α) :=
  match s.topDown with
  | top :: below :: rest => .ok ((below, top), ⟨rest⟩)
  | _ => .error ⟨2, s.size⟩

/-- Stacks are equal when their elements are. -/
theorem ext {s t : Stack α} (h : s.toList = t.toList) : s = t := by
  cases s
  cases t
  exact congrArg mk (List.reverse_inj.mp h)

/-- Listing the elements is injective. -/
theorem toList_inj {s t : Stack α} : s.toList = t.toList ↔ s = t :=
  ⟨ext, fun h ↦ congrArg toList h⟩

/-- The elements of a stack made from a list are those of the list. -/
theorem toList_ofList (items : List α) : (ofList items).toList = items := List.reverse_reverse items

/-- A stack is made from its elements. -/
theorem ofList_toList (s : Stack α) : ofList s.toList = s := by
  apply ext
  rw [toList_ofList]

/-- The empty stack lists nothing. -/
theorem toList_empty : (empty : Stack α).toList = [] := rfl

/-- A pushed element comes last. -/
theorem toList_push (s : Stack α) (a : α) : (s.push a).toList = s.toList ++ [a] :=
  List.reverse_cons

/-- The size is the number of listed elements. -/
theorem length_toList (s : Stack α) : s.toList.length = s.size := List.length_reverse

/-- A pushed element adds one to the size. -/
theorem size_push (s : Stack α) (a : α) : (s.push a).size = s.size + 1 := rfl

/-- Popping gives back what was pushed and the stack before. -/
theorem pop_push (s : Stack α) (a : α) : (s.push a).pop = .ok (a, s) := rfl

/-- Popping a pair gives back the last two pushed elements in their order and the stack before. -/
theorem popPair_push_push (s : Stack α) (a b : α) :
    ((s.push a).push b).popPair = .ok ((a, b), s) := rfl

/-- Popping fails exactly on the empty stack. -/
theorem pop_error_iff {s : Stack α} {u : Underflow} :
    s.pop = .error u ↔ s = empty ∧ u = ⟨1, 0⟩ := by
  obtain ⟨elements⟩ := s
  cases elements <;> simp [pop, empty, eq_comm]

/-- Popping a pair fails exactly on stacks of less than two elements. -/
theorem popPair_error_iff {s : Stack α} {u : Underflow} :
    s.popPair = .error u ↔ s.size < 2 ∧ u = ⟨2, s.size⟩ := by
  obtain ⟨elements⟩ := s
  match elements with
  | [] => simp [popPair, size, eq_comm]
  | [_] => simp [popPair, size, eq_comm]
  | _ :: _ :: rest =>
    have h : ¬ rest.length + 1 + 1 < 2 := by omega
    simp [popPair, size, h]

/-- A size is there exactly when the stack is at least as large. -/
theorem require_ok_iff {s : Stack α} {expected : Nat} :
    s.require expected = .ok () ↔ expected ≤ s.size := by
  unfold require
  split
  · next h => simp [Nat.not_le.mpr h]
  · next h => simp [Nat.le_of_not_lt h]

/-- The top is the last listed element. -/
theorem peek?_eq_getLast? (s : Stack α) : s.peek? = s.toList.getLast? := by
  simp [peek?, toList]

end Stack

end PocketCalc
