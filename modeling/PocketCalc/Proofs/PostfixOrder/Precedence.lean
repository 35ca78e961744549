import PocketCalc.Proofs.Expression.Grammar
import PocketCalc.Proofs.PostfixOrder.Scan

/-!
# Precedence and associativity in a conversion

A list of tokens reads as its reordering at a precedence when a scan that starts above operators
that do not yield to that precedence puts out the reordering, except for a last run of operators
that bind at least as tightly and still wait. This is kept by every production of the grammar, so
that an expression is converted to its postorder: `Expression.toPostfix_tokens`.
-/

namespace PocketCalc

namespace Pending

/-- Nothing that waits yields to an operator of at least the precedence. -/
def Withstands (precedence : Nat) (pending : List Pending) : Prop :=
  ∀ symbol : OperatorSymbol, precedence ≤ symbol.operator.precedence →
    yieldTo symbol pending = ([], pending)

/-- What does not yield to loose operators does not yield to tight ones. -/
theorem Withstands.mono {p q : Nat} {pending : List Pending} (h : Withstands p pending)
    (hpq : p ≤ q) : Withstands q pending := by
  intro symbol hs
  exact h symbol (Nat.le_trans hpq hs)

/-- Nothing yields when nothing waits. -/
theorem withstands_nil (p : Nat) : Withstands p [] := fun _ _ ↦ rfl

/-- Nothing yields out of an open group. -/
theorem withstands_group (p position : Nat) (pending : List Pending) :
    Withstands p (group position :: pending) := fun _ _ ↦ rfl

/-- An operator does not yield to tighter ones. -/
theorem withstands_operator {p : Nat} {waiting : OperatorSymbol}
    (h : waiting.operator.precedence < p) (pending : List Pending) :
    Withstands p (operator waiting :: pending) := by
  intro symbol hs
  have hno : ¬ waiting.operator.yieldsBefore symbol.operator = true := by
    rw [Operator.yieldsBefore_iff]
    omega
  rw [yieldTo, if_neg hno]

/-- A percent sign does not yield to another one. -/
theorem withstands_percent (pending : List Pending) :
    Withstands 3 (operator .percent :: pending) := by
  intro symbol hs
  cases symbol <;> first | rfl | exact absurd hs (by decide)

/-- Operators that yield are put out, and then those below them that yield. -/
theorem yieldTo_operators_append {incoming : OperatorSymbol} {waiting : List OperatorSymbol}
    (h : ∀ symbol ∈ waiting, symbol.operator.yieldsBefore incoming.operator = true)
    (pending : List Pending) :
    yieldTo incoming (waiting.map operator ++ pending) =
      (waiting ++ (yieldTo incoming pending).1, (yieldTo incoming pending).2) := by
  induction waiting with
  | nil => rfl
  | cons symbol rest ih =>
    obtain ⟨hsymbol, hrest⟩ := List.forall_mem_cons.mp h
    rw [List.map_cons, List.cons_append, yieldTo, if_pos hsymbol, ih hrest]
    rfl

end Pending

namespace PostfixOrder

open Pending

/-- Above operators that withstand the precedence, the tokens put out the reordering but for some
operators at its end, which bind at least as tightly and wait. -/
def ReadsAs (precedence : Nat) (tokens reordered : List Token) : Prop :=
  ∀ (position : Nat) (pending : List Pending), Withstands precedence pending →
    ∃ (put : List Token) (waiting : List OperatorSymbol),
      scan position pending tokens = .ok (put, waiting.map .operator ++ pending) ∧
      (∀ symbol ∈ waiting, precedence ≤ symbol.operator.precedence) ∧
      reordered = put ++ waiting.map .operator

/-- What reads as a tight unit also reads as a looser one. -/
theorem ReadsAs.mono {p q : Nat} {tokens reordered : List Token} (h : ReadsAs q tokens reordered)
    (hpq : p ≤ q) : ReadsAs p tokens reordered := by
  intro position pending hpending
  obtain ⟨put, waiting, hscan, hwaiting, hreordered⟩ := h position pending (hpending.mono hpq)
  exact ⟨put, waiting, hscan, fun s hs ↦ Nat.le_trans hpq (hwaiting s hs), hreordered⟩

/-- A number is put out at once. -/
theorem readsAs_number (p : Nat) (value : Binary64) :
    ReadsAs p [.number value] [.number value] := by
  intro position pending _
  refine ⟨[.number value], [], scan_singleton position pending _, ?_, rfl⟩
  intro symbol hs
  cases hs

/-- A group reads as what is inside, with nothing left waiting. -/
theorem ReadsAs.group {tokens reordered : List Token} (h : ReadsAs 1 tokens reordered) (p : Nat) :
    ReadsAs p (.parenthesis .opening :: (tokens ++ [.parenthesis .closing])) reordered := by
  intro position pending _
  obtain ⟨put, waiting, hscan, -, rfl⟩ := h (position + 1) (.group position :: pending)
    (withstands_group 1 position pending)
  have hclose : scan (position + 1 + tokens.length)
      (waiting.map .operator ++ .group position :: pending) [.parenthesis .closing] =
        .ok (waiting.map .operator, pending) := by
    rw [scan_singleton, step, closeGroup?_operators_group]
  refine ⟨put ++ waiting.map .operator, [], ?_, fun s hs ↦ (List.not_mem_nil hs).elim, ?_⟩
  · refine scan_cons_eq_ok_iff.mpr ⟨[], _, _, rfl, ?_, rfl⟩
    exact scan_append_eq_ok_iff.mpr ⟨put, _, _, hscan, hclose, rfl⟩
  · rw [List.map_nil, List.append_nil]

/-- A left-associative operator has a left operand of its own level and a tighter right one. It puts
out what the left one leaves waiting, and waits itself while the right one is read. -/
theorem ReadsAs.binary {symbol : OperatorSymbol} {p : Nat} {left right first second : List Token}
    (hop : symbol.operator = ⟨symbol, .left, p⟩) (hleft : ReadsAs p left first)
    (hright : ReadsAs (p + 1) right second) :
    ReadsAs p (left ++ .operator symbol :: right) (first ++ (second ++ [.operator symbol])) := by
  have hprec : symbol.operator.precedence = p := by rw [hop]
  have hassoc : symbol.operator.associativity = .left := by rw [hop]
  have hyield : ∀ s : OperatorSymbol, p ≤ s.operator.precedence →
      s.operator.yieldsBefore symbol.operator = true := by
    intro s hs
    rw [Operator.yieldsBefore_iff, hprec]
    by_cases heq : s.operator.precedence = p
    · exact .inr ⟨heq, hassoc⟩
    · exact .inl (by omega)
  intro position pending hpending
  obtain ⟨put, waiting, hscan, hwaiting, rfl⟩ := hleft position pending hpending
  obtain ⟨later, last, htail, hlast, rfl⟩ := hright (position + left.length + 1)
    (.operator symbol :: pending) (withstands_operator (by omega) pending)
  have hstep : step (position + left.length) (waiting.map .operator ++ pending)
      (.operator symbol) = .ok (waiting.map .operator, .operator symbol :: pending) := by
    rw [step, yieldTo_operators_append (fun s hs ↦ hyield s (hwaiting s hs)),
      hpending symbol (Nat.le_of_eq hprec.symm)]
    simp only [List.append_nil]
  refine ⟨put ++ (waiting.map .operator ++ later), last ++ [symbol], ?_, ?_, ?_⟩
  · apply scan_append_eq_ok_iff.mpr
    refine ⟨put, _, _, hscan, ?_, rfl⟩
    rw [List.map_append, List.map_singleton, List.append_assoc, List.singleton_append]
    exact scan_cons_eq_ok_iff.mpr ⟨_, _, _, hstep, htail, rfl⟩
  · intro s hs
    rcases List.mem_append.mp hs with hs | hs
    · exact Nat.le_of_succ_le (hlast s hs)
    · rw [List.mem_singleton.mp hs]
      exact Nat.le_of_eq hprec.symm
  · simp only [List.map_append, List.map_singleton, List.append_assoc]

private theorem eq_percent_of_le_precedence {symbol : OperatorSymbol}
    (h : 3 ≤ symbol.operator.precedence) : symbol = .percent := by
  have hbounds := symbol.precedence_bounds
  exact OperatorSymbol.eq_percent_iff.mpr (by omega)

private theorem percent_cons_eq_append {waiting : List OperatorSymbol}
    (h : ∀ symbol ∈ waiting, 3 ≤ symbol.operator.precedence) :
    .percent :: waiting = waiting ++ [.percent] := by
  have hall : waiting = List.replicate waiting.length .percent :=
    List.eq_replicate_of_mem fun symbol hs ↦ eq_percent_of_le_precedence (h symbol hs)
  rw [hall, ← List.replicate_succ, List.replicate_succ']

/-- A percent sign after a factor waits above those of the factor. -/
theorem ReadsAs.share {operand reordered : List Token} (h : ReadsAs 3 operand reordered) :
    ReadsAs 3 (operand ++ [.operator .percent]) (reordered ++ [.operator .percent]) := by
  intro position pending hpending
  obtain ⟨put, waiting, hscan, hwaiting, rfl⟩ := h position pending hpending
  have hwithstands : Withstands 3 (waiting.map .operator ++ pending) := by
    cases waiting with
    | nil => exact hpending
    | cons symbol rest =>
      rw [eq_percent_of_le_precedence (hwaiting symbol List.mem_cons_self)]
      exact withstands_percent _
  have hstep : step (position + operand.length) (waiting.map .operator ++ pending)
      (.operator .percent) =
        .ok ([], .operator .percent :: (waiting.map .operator ++ pending)) := by
    rw [step, hwithstands .percent (by decide)]
    rfl
  -- The new percent sign is on top but belongs at the end; a run of equal signs reads both ways.
  refine ⟨put, .percent :: waiting, ?_, ?_, ?_⟩
  · exact scan_append_singleton_eq_ok_iff.mpr ⟨put, _, [], hscan, hstep, (List.append_nil put).symm⟩
  · exact List.forall_mem_cons.mpr ⟨by decide, hwaiting⟩
  · rw [percent_cons_eq_append hwaiting, List.map_append, List.map_singleton, List.append_assoc]

/-- A percent sign before a factor waits below those of the factor. -/
theorem ReadsAs.percent_cons {operand reordered : List Token} (h : ReadsAs 3 operand reordered) :
    ReadsAs 3 (.operator .percent :: operand) (reordered ++ [.operator .percent]) := by
  intro position pending hpending
  obtain ⟨put, waiting, hscan, hwaiting, rfl⟩ := h (position + 1) (.operator .percent :: pending)
    (withstands_percent pending)
  have hstep : step position pending (.operator .percent) =
      .ok ([], .operator .percent :: pending) := by
    rw [step, hpending .percent (by decide)]
    rfl
  refine ⟨put, waiting ++ [.percent], ?_, ?_, ?_⟩
  · rw [List.map_append, List.map_singleton, List.append_assoc, List.singleton_append]
    exact scan_cons_eq_ok_iff.mpr ⟨[], _, put, hstep, hscan, rfl⟩
  · intro symbol hs
    rcases List.mem_append.mp hs with hs | hs
    · exact hwaiting symbol hs
    · rw [List.mem_singleton.mp hs]
      decide
  · rw [List.map_append, List.map_singleton, List.append_assoc]

/-- Percent signs, one or more or none, after a factor. -/
theorem ReadsAs.shares {operand reordered : List Token} (h : ReadsAs 3 operand reordered)
    (count : Nat) :
    ReadsAs 3 (operand ++ List.replicate count (.operator .percent))
      (reordered ++ List.replicate count (.operator .percent)) := by
  induction count with
  | zero => simpa using h
  | succ count ih =>
    rw [List.replicate_succ', ← List.append_assoc, ← List.append_assoc]
    exact ih.share

/-- Percent signs, one or more or none, before a factor. -/
theorem ReadsAs.percents_append {operand reordered : List Token} (h : ReadsAs 3 operand reordered)
    (count : Nat) :
    ReadsAs 3 (List.replicate count (.operator .percent) ++ operand)
      (reordered ++ List.replicate count (.operator .percent)) := by
  induction count with
  | zero => simpa using h
  | succ count ih =>
    rw [List.replicate_succ, List.cons_append, ← List.replicate_succ, List.replicate_succ',
      ← List.append_assoc]
    exact ih.percent_cons

/-- An atom leaves nothing waiting, so that what follows is read as if it came first. -/
theorem ReadsAs.atom_append {p : Nat} {left right first second : List Token} (hp : p ≤ 4)
    (hleft : ReadsAs 4 left first) (hright : ReadsAs p right second) :
    ReadsAs p (left ++ right) (first ++ second) := by
  intro position pending hpending
  obtain ⟨put, waiting, hscan, hwaiting, rfl⟩ := hleft position pending (hpending.mono hp)
  obtain ⟨later, last, htail, hlast, rfl⟩ := hright (position + left.length) pending hpending
  obtain rfl : waiting = [] := by
    -- No operator binds as tightly as an atom does.
    rw [List.eq_nil_iff_forall_not_mem]
    intro symbol hs
    have htight := hwaiting symbol hs
    have hbounds := symbol.precedence_bounds
    omega
  refine ⟨put ++ later, last, ?_, hlast, ?_⟩
  · exact scan_append_eq_ok_iff.mpr ⟨put, _, later, hscan, htail, rfl⟩
  · simp only [List.map_nil, List.append_nil, List.append_assoc]

/-- A percent sign between an atom and a factor waits below those of the factor. -/
theorem ReadsAs.remainder {left right first second : List Token} (hleft : ReadsAs 4 left first)
    (hright : ReadsAs 3 right second) :
    ReadsAs 3 (left ++ .operator .percent :: right) (first ++ (second ++ [.operator .percent])) :=
  hleft.atom_append (by decide) hright.percent_cons

/-- What reads as a sum is converted to its reordering. -/
theorem ReadsAs.toPostfix_eq {tokens reordered : List Token} (h : ReadsAs 1 tokens reordered) :
    toPostfix tokens = .ok reordered := by
  obtain ⟨put, waiting, hscan, -, rfl⟩ := h 0 [] (withstands_nil 1)
  have hgroups := groups_operators_append waiting []
  have hsymbols := symbols_operators_append waiting []
  rw [toPostfix_of_scan_ok hscan hgroups, hsymbols, symbols, List.append_nil]

end PostfixOrder

namespace OperatorSymbol

/-- Sums group to the left and bind least. -/
theorem operator_of_isAdditive {symbol : OperatorSymbol} (h : symbol.isAdditive = true) :
    symbol.operator = ⟨symbol, .left, 1⟩ := by
  cases symbol <;> first | rfl | cases h

/-- Products group to the left and bind tighter than sums. -/
theorem operator_of_isTimesOrDivide {symbol : OperatorSymbol}
    (h : symbol.isTimesOrDivide = true) : symbol.operator = ⟨symbol, .left, 2⟩ := by
  cases symbol <;> first | rfl | cases h

end OperatorSymbol

namespace Expression

open PostfixOrder

variable {role : PercentRole} {level : Level}

/-- Every expression reads as its postorder at the precedence of its level. -/
theorem readsAs (e : Expression role level) : ReadsAs level.precedence e.tokens e.postorder := by
  induction e with
  | number value => exact readsAs_number 4 value
  | group inner ih => exact ih.group 4
  | ofAtom atom ih => exact ih.mono (by decide)
  | share h operand ih => exact ih.share
  | remainder h left right ihl ihr => exact ihl.remainder ihr
  | ofFactor factor ih => exact ih.mono (by decide)
  | multiplicative symbol h left right ihl ihr =>
    exact ReadsAs.binary (OperatorSymbol.operator_of_isTimesOrDivide h) ihl ihr
  | ofProduct product ih => exact ih.mono (by decide)
  | additive symbol h left right ihl ihr =>
    exact ReadsAs.binary (OperatorSymbol.operator_of_isAdditive h) ihl ihr

/-- A sum is converted to its postorder. -/
theorem toPostfix_tokens (e : Expression role .sum) : toPostfix e.tokens = .ok e.postorder :=
  e.readsAs.toPostfix_eq

end Expression

end PocketCalc
