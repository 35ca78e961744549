import Mathlib.Data.List.Chain
import PocketCalc.Proofs.Expression.Grammar
import PocketCalc.Proofs.PostfixOrder.Parentheses

/-!
# Layers of waiting operators

An operator waits only on operators that bind less, because it puts out all others that are on top
when it comes in; percent signs, which group to the right, also wait on each other.
`Pending.RestsOn` says so of two neighbours. It is kept by every step of a scan, so that between two
open groups there is never more than one sum, one product above it, and then percent signs.
`toPostfix_pending` states this of every state that a conversion passes through.
-/

namespace PocketCalc

namespace OperatorSymbol

/-- Whether an operator may wait directly above another one: it binds tighter, or both are percent
signs. -/
def RestsOn (upper lower : OperatorSymbol) : Prop :=
  lower.operator.precedence < upper.operator.precedence ∨ (upper = percent ∧ lower = percent)

/-- Which operator may wait on which is decided by the precedences. -/
instance (upper lower : OperatorSymbol) : Decidable (upper.RestsOn lower) :=
  inferInstanceAs (Decidable (_ ∨ _))

/-- An operator waits on exactly those that do not yield to it. -/
theorem restsOn_iff {upper lower : OperatorSymbol} :
    upper.RestsOn lower ↔ ¬ lower.operator.yieldsBefore upper.operator = true := by
  cases upper <;> cases lower <;> decide

/-- Sums wait on no operator. -/
theorem RestsOn.isAdditive_eq_false {upper lower : OperatorSymbol} (h : upper.RestsOn lower) :
    upper.isAdditive = false := by
  rcases h with h | ⟨rfl, -⟩
  · rw [Bool.eq_false_iff, ne_eq, isAdditive_iff]
    have hlower := lower.precedence_bounds
    omega
  · rfl

/-- Only percent signs wait on products and percent signs. -/
theorem RestsOn.eq_percent {upper lower : OperatorSymbol} (h : upper.RestsOn lower)
    (hlower : lower.isAdditive = false) : upper = percent := by
  rcases h with h | ⟨hupper, -⟩
  · rw [Bool.eq_false_iff, ne_eq, isAdditive_iff] at hlower
    have hbounds := lower.precedence_bounds
    have hbounds' := upper.precedence_bounds
    exact eq_percent_iff.mpr (by omega)
  · exact hupper

/-- Operators from the bottom up: at most one sum, then at most one product, then percent signs. -/
def Layered (run : List OperatorSymbol) : Prop :=
  ∃ (additive multiplicative : Option OperatorSymbol) (percents : Nat),
    run = additive.toList ++ (multiplicative.toList ++ List.replicate percents percent) ∧
    (∀ symbol ∈ additive, symbol.isAdditive = true) ∧
    (∀ symbol ∈ multiplicative, symbol.isTimesOrDivide = true)

/-- On a product or a percent sign there are only percent signs. -/
theorem eq_replicate_percent_of_isChain {lowest : OperatorSymbol} {run : List OperatorSymbol}
    (h : (lowest :: run).IsChain fun lower upper ↦ upper.RestsOn lower)
    (hlowest : lowest.isAdditive = false) : run = List.replicate run.length percent := by
  induction run generalizing lowest with
  | nil => rfl
  | cons symbol rest ih =>
    obtain ⟨hsymbol, hrest⟩ := List.isChain_cons_cons.mp h
    obtain rfl := hsymbol.eq_percent hlowest
    rw [List.length_cons, List.replicate_succ, ← ih hrest rfl]

/-- What rests on a sum, or on nothing, is at most one product and then percent signs. -/
theorem exists_eq_products {run : List OperatorSymbol}
    (h : run.IsChain fun lower upper ↦ upper.RestsOn lower)
    (hlowest : ∀ symbol ∈ run.head?, symbol.isAdditive = false) :
    ∃ (multiplicative : Option OperatorSymbol) (percents : Nat),
      run = multiplicative.toList ++ List.replicate percents percent ∧
      ∀ symbol ∈ multiplicative, symbol.isTimesOrDivide = true := by
  cases run with
  | nil => exact ⟨none, 0, rfl, by simp⟩
  | cons symbol rest =>
    have hsymbol := hlowest symbol rfl
    have hrest := eq_replicate_percent_of_isChain h hsymbol
    cases hproduct : symbol.isTimesOrDivide with
    | true =>
      refine ⟨some symbol, rest.length, ?_, by simpa using hproduct⟩
      rw [Option.toList_some, List.singleton_append, ← hrest]
    | false =>
      rw [Bool.eq_false_iff, ne_eq, isAdditive_iff] at hsymbol
      rw [Bool.eq_false_iff, ne_eq, isTimesOrDivide_iff] at hproduct
      have hbounds := symbol.precedence_bounds
      obtain rfl := eq_percent_iff.mpr (show symbol.operator.precedence = 3 by omega)
      refine ⟨none, rest.length + 1, ?_, by simp⟩
      rw [Option.toList_none, List.nil_append, List.replicate_succ, ← hrest]

/-- Operators that rest on each other are in layers. -/
theorem layered_of_isChain {run : List OperatorSymbol}
    (h : run.IsChain fun lower upper ↦ upper.RestsOn lower) : Layered run := by
  cases run with
  | nil => exact ⟨none, none, 0, rfl, by simp, by simp⟩
  | cons symbol rest =>
    obtain ⟨habove, hrest⟩ := List.isChain_cons.mp h
    cases hsum : symbol.isAdditive with
    | true =>
      obtain ⟨multiplicative, percents, heq, hproduct⟩ :=
        exists_eq_products hrest fun upper hupper ↦ (habove upper hupper).isAdditive_eq_false
      exact ⟨some symbol, multiplicative, percents, by rw [heq]; rfl, by simpa using hsum, hproduct⟩
    | false =>
      obtain ⟨multiplicative, percents, heq, hproduct⟩ :=
        exists_eq_products h (by simpa using hsum)
      exact ⟨none, multiplicative, percents, heq, by simp, hproduct⟩

end OperatorSymbol

namespace Pending

/-- Whether an entry may wait directly above another one. Groups may be anywhere, and anything may
wait on a group. -/
def RestsOn : Pending → Pending → Prop
  | operator upper, operator lower => upper.RestsOn lower
  | _, _ => True

/-- What goes on waiting after others yielded does not yield. -/
theorem restsOn_of_mem_head?_yieldTo {incoming : OperatorSymbol} {pending : List Pending}
    {entry : Pending} (h : entry ∈ (yieldTo incoming pending).2.head?) :
    (operator incoming).RestsOn entry := by
  induction pending with
  | nil => cases h
  | cons top rest ih =>
    cases top with
    | group position =>
      cases h
      trivial
    | operator waiting =>
      rw [yieldTo] at h
      split at h
      · exact ih h
      · next hno =>
        cases h
        exact OperatorSymbol.restsOn_iff.mpr hno

/-- Operators without a group between them rest on each other when all neighbours do. -/
theorem isChain_symbols {pending : List Pending} {run : List OperatorSymbol}
    (h : pending.IsChain RestsOn) (hrun : run.map operator <:+: pending.reverse) :
    run.IsChain fun lower upper ↦ upper.RestsOn lower := by
  have hreverse : pending.reverse.IsChain fun lower upper ↦ upper.RestsOn lower :=
    List.isChain_reverse.mpr h
  have hneighbours := List.IsChain.infix hreverse hrun
  exact (List.isChain_map operator).mp hneighbours

open Parentheses OperatorSymbol in
/-- How everything waits that tokens leave waiting. From the bottom up, the positions of the open
groups increase, and they are those of the opening parentheses that no token closes yet; of
operators without a group between them each binds tighter than the one below it, unless both are
percent signs, so that these are at most one sum, then at most one product, then percent signs. -/
structure WellOrdered (tokens : List Token) (pending : List Pending) : Prop where
  increasing : (groups pending).reverse.Pairwise (· < ·)
  mem_groups_iff : ∀ position, position ∈ groups pending ↔ IsUnclosed tokens position
  tightening : ∀ run : List OperatorSymbol, run.map operator <:+: pending.reverse →
    run.IsChain fun lower upper ↦ upper.RestsOn lower
  layered : ∀ run : List OperatorSymbol, run.map operator <:+: pending.reverse → Layered run

end Pending

namespace PostfixOrder

open Pending

/-- Reading a token keeps neighbours in order: what an operator comes to wait on did not yield to
it, and closing a group uncovers what waited below it. -/
theorem isChain_of_step {position : Nat} {pending kept : List Pending} {token : Token}
    {put : List Token} (h : pending.IsChain RestsOn)
    (hstep : step position pending token = .ok (put, kept)) : kept.IsChain RestsOn := by
  cases token with
  | number value =>
    cases hstep
    exact h
  | operator symbol =>
    cases hstep
    rw [eq_yieldTo symbol pending] at h
    exact List.isChain_cons.mpr ⟨fun entry ↦ restsOn_of_mem_head?_yieldTo, h.right_of_append⟩
  | parenthesis side =>
    rcases step_eq_ok_cases hstep with
      ⟨value, htoken, -⟩ | ⟨symbol, yielded, waiting, htoken, -⟩ | ⟨-, -, rfl⟩ |
        ⟨-, closed, opening, -, rfl⟩
    · cases htoken
    · cases htoken
    · exact List.isChain_cons.mpr ⟨fun entry _ ↦ by cases entry <;> trivial, h⟩
    · exact (List.isChain_cons.mp h.right_of_append).2

/-- A scan keeps neighbours in order. -/
theorem isChain_of_scan {position : Nat} {pending kept : List Pending} {tokens put : List Token}
    (h : pending.IsChain RestsOn) (hscan : scan position pending tokens = .ok (put, kept)) :
    kept.IsChain RestsOn := by
  induction tokens generalizing position pending put with
  | nil =>
    cases hscan
    exact h
  | cons token rest ih =>
    obtain ⟨now, waiting, later, hstep, hrest, -⟩ := scan_cons_eq_ok_iff.mp hscan
    exact ih (isChain_of_step h hstep) hrest

/-- What a scan from nothing leaves waiting is well ordered. -/
theorem wellOrdered_of_scan {tokens put : List Token} {kept : List Pending}
    (h : scan 0 [] tokens = .ok (put, kept)) : WellOrdered tokens kept := by
  have hopen := Parentheses.openGroups_of_scan h
  have hchain := isChain_of_scan .nil h
  exact {
    increasing := List.pairwise_reverse.mpr hopen.decreasing
    mem_groups_iff := hopen.mem_iff
    tightening := fun run hrun ↦ isChain_symbols hchain hrun
    layered := fun run hrun ↦
      OperatorSymbol.layered_of_isChain (isChain_symbols hchain hrun) }

end PostfixOrder

open PostfixOrder in
/-- What waits is well ordered in every state of a conversion. After any tokens the conversion of
whatever follows them either goes on from one state, in which everything waits in order, or has
failed at a parenthesis among the tokens that closes too much. -/
theorem toPostfix_pending (tokens : List Token) :
    (∃ put pending, scan 0 [] tokens = .ok (put, pending) ∧
      (∀ rest, toPostfix (tokens ++ rest) =
        (convert tokens.length pending rest).map (put ++ ·)) ∧
      Pending.WellOrdered tokens pending) ∨
    (∃ position, Parentheses.IsFirstOverclosed tokens position ∧
      ∀ rest, toPostfix (tokens ++ rest) = .error (.unopened position)) := by
  cases hscan : scan 0 [] tokens with
  | ok result =>
    obtain ⟨put, pending⟩ := result
    refine .inl ⟨put, pending, rfl, ?_, wellOrdered_of_scan hscan⟩
    intro rest
    rw [toPostfix, convert_append, hscan]
    dsimp only
    rw [Nat.zero_add]
  | error e =>
    obtain ⟨position, hfirst, rfl⟩ := Parentheses.isFirstOverclosed_of_scan_error hscan
    refine .inr ⟨position, hfirst, fun rest ↦ ?_⟩
    rw [toPostfix, convert_append, hscan]

/-- The state after `1+2×3%%(4-(5÷`. -/
example : (PostfixOrder.scan 0 [] (tokenize "1+2×3%%(4-(5÷")).map Prod.snd =
    .ok [.operator .divide, .group 10, .operator .minus, .group 7, .operator .percent,
      .operator .percent, .operator .times, .operator .plus] := by decide

end PocketCalc
