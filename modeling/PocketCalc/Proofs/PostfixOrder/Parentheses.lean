import Mathlib.Data.List.Induction
import PocketCalc.Proofs.PostfixOrder.Scan
import PocketCalc.Token.Lexer

/-!
# Which parenthesis a conversion reports

Only the parentheses decide whether a conversion succeeds. A closing parenthesis has no partner when
the tokens up to it hold more closing parentheses than opening ones, and an opening parenthesis has
none when from it on no later part closes it. `OpenGroups` relates the open groups that wait in a
scan to the tokens read so far; it is kept by every step, and at the end it says which parenthesis
is reported: `toPostfix_parentheses`.
-/

namespace PocketCalc

namespace Parentheses

/-- The number of opening parentheses. -/
def opened (tokens : List Token) : Nat := tokens.count (.parenthesis .opening)

/-- The number of closing parentheses. -/
def closed (tokens : List Token) : Nat := tokens.count (.parenthesis .closing)

/-- No beginning of the tokens holds more closing parentheses than opening ones. -/
def NeverOverclosed (tokens : List Token) : Prop :=
  ∀ k, closed (tokens.take k) ≤ opened (tokens.take k)

/-- Every parenthesis has its partner. -/
def Balanced (tokens : List Token) : Prop :=
  NeverOverclosed tokens ∧ opened tokens = closed tokens

/-- Only the beginnings up to the whole list have to be looked at. -/
theorem neverOverclosed_iff {tokens : List Token} :
    NeverOverclosed tokens ↔
      ∀ k < tokens.length + 1, closed (tokens.take k) ≤ opened (tokens.take k) := by
  refine ⟨fun h k _ ↦ h k, fun h k ↦ ?_⟩
  rw [List.take_eq_take_min]
  exact h _ (Nat.lt_succ_of_le (Nat.min_le_right k tokens.length))

/-- Whether closing parentheses ever outnumber opening ones is decided by counting. -/
instance (tokens : List Token) : Decidable (NeverOverclosed tokens) :=
  decidable_of_iff _ neverOverclosed_iff.symm

/-- Whether every parenthesis has its partner is decided by counting. -/
instance (tokens : List Token) : Decidable (Balanced tokens) :=
  inferInstanceAs (Decidable (_ ∧ _))

/-- The first token at which more parentheses have been closed than opened. -/
structure IsFirstOverclosed (tokens : List Token) (position : Nat) : Prop where
  position_lt : position < tokens.length
  overclosed : opened (tokens.take (position + 1)) < closed (tokens.take (position + 1))
  minimal : ∀ k ≤ position, closed (tokens.take k) ≤ opened (tokens.take k)

/-- An opening parenthesis that no later token closes: from it on, every part of the tokens holds
fewer closing parentheses than opening ones. -/
structure IsUnclosed (tokens : List Token) (position : Nat) : Prop where
  opening : tokens[position]? = some (.parenthesis .opening)
  unclosed : ∀ k, position < k → k ≤ tokens.length →
    closed ((tokens.take k).drop position) < opened ((tokens.take k).drop position)

/-- The last opening parenthesis that no later token closes. -/
structure IsLastUnclosed (tokens : List Token) (position : Nat) : Prop where
  isUnclosed : IsUnclosed tokens position
  last : ∀ p, IsUnclosed tokens p → p ≤ position

/-- An added opening parenthesis counts. -/
theorem opened_append_opening (tokens : List Token) :
    opened (tokens ++ [.parenthesis .opening]) = opened tokens + 1 := by
  rw [opened, List.count_append, List.count_singleton_self]
  rfl

/-- An added closing parenthesis counts. -/
theorem closed_append_closing (tokens : List Token) :
    closed (tokens ++ [.parenthesis .closing]) = closed tokens + 1 := by
  rw [closed, List.count_append, List.count_singleton_self]
  rfl

/-- Any other added token opens nothing. -/
theorem opened_append_of_ne (tokens : List Token) {token : Token}
    (h : token ≠ .parenthesis .opening) : opened (tokens ++ [token]) = opened tokens := by
  rw [opened, List.count_append, List.count_singleton, if_neg (by simpa using h), Nat.add_zero]
  rfl

/-- Any other added token closes nothing. -/
theorem closed_append_of_ne (tokens : List Token) {token : Token}
    (h : token ≠ .parenthesis .closing) : closed (tokens ++ [token]) = closed tokens := by
  rw [closed, List.count_append, List.count_singleton, if_neg (by simpa using h), Nat.add_zero]
  rfl

/-- A beginning that reaches past the old tokens is all of them and the added one. -/
private theorem take_append_singleton {tokens : List Token} {k : Nat} (h : ¬ k ≤ tokens.length)
    (token : Token) : (tokens ++ [token]).take k = tokens ++ [token] := by
  apply List.take_of_length_le
  rw [List.length_append, List.length_singleton]
  omega

/-- An unclosed parenthesis is one of the tokens. -/
theorem IsUnclosed.position_lt {tokens : List Token} {p : Nat} (h : IsUnclosed tokens p) :
    p < tokens.length := by
  obtain ⟨hlt, -⟩ := List.getElem?_eq_some_iff.mp h.opening
  exact hlt

/-- From an unclosed parenthesis on, the tokens open more groups than they close. -/
theorem IsUnclosed.closed_drop_lt {tokens : List Token} {p : Nat} (h : IsUnclosed tokens p) :
    closed (tokens.drop p) < opened (tokens.drop p) := by
  have hend := h.unclosed tokens.length h.position_lt (Nat.le_refl _)
  rwa [List.take_length] at hend

/-- A token that is added keeps a beginning in balance or not as it stands then. -/
theorem neverOverclosed_append_singleton_iff {tokens : List Token} {token : Token} :
    NeverOverclosed (tokens ++ [token]) ↔
      NeverOverclosed tokens ∧ closed (tokens ++ [token]) ≤ opened (tokens ++ [token]) := by
  constructor
  · intro h
    refine ⟨?_, ?_⟩
    · intro k
      have hk := h (min k tokens.length)
      rw [List.take_append_of_le_length (Nat.min_le_right _ _)] at hk
      rwa [List.take_eq_take_min]
    · have hk := h (tokens ++ [token]).length
      rwa [List.take_length] at hk
  · rintro ⟨hbefore, hall⟩ k
    by_cases hk : k ≤ tokens.length
    · rw [List.take_append_of_le_length hk]
      exact hbefore k
    · rw [take_append_singleton hk]
      exact hall

/-- What an added token leaves unclosed: what was unclosed and still is when the token counts, and
the token itself when it opens a group. -/
theorem isUnclosed_append_singleton_iff {tokens : List Token} {token : Token} {p : Nat} :
    IsUnclosed (tokens ++ [token]) p ↔
      (IsUnclosed tokens p ∧
        closed (tokens.drop p ++ [token]) < opened (tokens.drop p ++ [token])) ∨
      (p = tokens.length ∧ token = .parenthesis .opening) := by
  constructor
  · intro h
    have hp := h.position_lt
    rw [List.length_append, List.length_singleton] at hp
    by_cases heq : p = tokens.length
    · right
      refine ⟨heq, ?_⟩
      have ho := h.opening
      rw [heq, List.getElem?_concat_length] at ho
      exact Option.some.inj ho
    · left
      have hlt : p < tokens.length := by omega
      refine ⟨⟨?_, ?_⟩, ?_⟩
      · have ho := h.opening
        rwa [List.getElem?_append_left hlt] at ho
      · intro k hpk hk
        have hu := h.unclosed k hpk (by rw [List.length_append]; omega)
        rwa [List.take_append_of_le_length hk] at hu
      · have hu := h.closed_drop_lt
        rwa [List.drop_append_of_le_length (Nat.le_of_lt hlt)] at hu
  · rintro (⟨hbefore, hcount⟩ | ⟨rfl, rfl⟩)
    · have hlt := hbefore.position_lt
      refine ⟨?_, ?_⟩
      · rw [List.getElem?_append_left hlt]
        exact hbefore.opening
      · intro k hpk _
        by_cases hle : k ≤ tokens.length
        · rw [List.take_append_of_le_length hle]
          exact hbefore.unclosed k hpk hle
        · rw [take_append_singleton hle, List.drop_append_of_le_length (Nat.le_of_lt hlt)]
          exact hcount
    · refine ⟨List.getElem?_concat_length, ?_⟩
      intro k hpk _
      rw [take_append_singleton (Nat.not_le_of_lt hpk), List.drop_left]
      decide

/-- The open groups that wait, the innermost one first, are those of the tokens read so far. -/
structure OpenGroups (tokens : List Token) (groups : List Nat) : Prop where
  mem_iff : ∀ p, p ∈ groups ↔ IsUnclosed tokens p
  decreasing : groups.Pairwise (· > ·)
  -- From a group on, the tokens open it and the groups inside it, and close none of these.
  height : ∀ (i p : Nat), groups[i]? = some p →
    opened (tokens.drop p) = closed (tokens.drop p) + (i + 1)
  balance : opened tokens = closed tokens + groups.length
  neverOverclosed : NeverOverclosed tokens

/-- Before the first token nothing is open. -/
theorem openGroups_nil : OpenGroups [] [] where
  mem_iff p := by
    refine ⟨fun h ↦ (List.not_mem_nil h).elim, fun h ↦ ?_⟩
    exact (Nat.not_lt_zero p h.position_lt).elim
  decreasing := .nil
  height i p h := by cases h
  balance := rfl
  neverOverclosed k := by rw [List.take_nil]; exact Nat.le_refl _

/-- A number or an operator opens and closes nothing. -/
theorem OpenGroups.append_other {tokens : List Token} {groups : List Nat} {token : Token}
    (h : OpenGroups tokens groups) (ho : token ≠ .parenthesis .opening)
    (hc : token ≠ .parenthesis .closing) : OpenGroups (tokens ++ [token]) groups where
  mem_iff p := by
    rw [h.mem_iff, isUnclosed_append_singleton_iff, opened_append_of_ne _ ho,
      closed_append_of_ne _ hc]
    constructor
    · intro hp
      exact .inl ⟨hp, hp.closed_drop_lt⟩
    · rintro (⟨hp, -⟩ | ⟨-, htoken⟩)
      · exact hp
      · exact (ho htoken).elim
  decreasing := h.decreasing
  height i p hp := by
    have hlt := ((h.mem_iff p).mp (List.mem_of_getElem? hp)).position_lt
    rw [List.drop_append_of_le_length (Nat.le_of_lt hlt), opened_append_of_ne _ ho,
      closed_append_of_ne _ hc]
    exact h.height i p hp
  balance := by
    rw [opened_append_of_ne _ ho, closed_append_of_ne _ hc]
    exact h.balance
  neverOverclosed := by
    have hbalance := h.balance
    apply neverOverclosed_append_singleton_iff.mpr
    refine ⟨h.neverOverclosed, ?_⟩
    rw [opened_append_of_ne _ ho, closed_append_of_ne _ hc]
    omega

/-- An opening parenthesis becomes the innermost open group. -/
theorem OpenGroups.append_opening {tokens : List Token} {groups : List Nat}
    (h : OpenGroups tokens groups) :
    OpenGroups (tokens ++ [.parenthesis .opening]) (tokens.length :: groups) where
  mem_iff p := by
    rw [List.mem_cons, h.mem_iff, isUnclosed_append_singleton_iff, opened_append_opening,
      closed_append_of_ne _ (by simp)]
    constructor
    · rintro (hp | hp)
      · exact .inr ⟨hp, rfl⟩
      · exact .inl ⟨hp, Nat.lt_succ_of_lt hp.closed_drop_lt⟩
    · rintro (⟨hp, -⟩ | ⟨hp, -⟩)
      · exact .inr hp
      · exact .inl hp
  decreasing := by
    apply List.pairwise_cons.mpr
    refine ⟨?_, h.decreasing⟩
    intro p hp
    exact ((h.mem_iff p).mp hp).position_lt
  height i p hp := by
    cases i with
    | zero =>
      cases hp
      rw [List.drop_left]
      rfl
    | succ i =>
      rw [List.getElem?_cons_succ] at hp
      have hlt := ((h.mem_iff p).mp (List.mem_of_getElem? hp)).position_lt
      have hheight := h.height i p hp
      rw [List.drop_append_of_le_length (Nat.le_of_lt hlt), opened_append_opening,
        closed_append_of_ne _ (by simp)]
      omega
  balance := by
    have hbalance := h.balance
    rw [opened_append_opening, closed_append_of_ne _ (by simp), List.length_cons]
    omega
  neverOverclosed := by
    have hbalance := h.balance
    apply neverOverclosed_append_singleton_iff.mpr
    refine ⟨h.neverOverclosed, ?_⟩
    rw [opened_append_opening, closed_append_of_ne _ (by simp)]
    omega

/-- A closing parenthesis closes the innermost open group and leaves the others open. -/
theorem OpenGroups.append_closing {tokens : List Token} {innermost : Nat} {outer : List Nat}
    (h : OpenGroups tokens (innermost :: outer)) :
    OpenGroups (tokens ++ [.parenthesis .closing]) outer where
  mem_iff p := by
    rw [isUnclosed_append_singleton_iff, ← h.mem_iff, List.mem_cons, closed_append_closing,
      opened_append_of_ne _ (by simp)]
    constructor
    · intro hp
      -- A group that is not the innermost one still has an open group when that one is closed.
      obtain ⟨i, hi⟩ := List.mem_iff_getElem?.mp hp
      have hheight := h.height (i + 1) p hi
      exact .inl ⟨.inr hp, by omega⟩
    · rintro (⟨rfl | hp, hcount⟩ | ⟨-, htoken⟩)
      · have hheight := h.height 0 p rfl
        omega
      · exact hp
      · cases htoken
  decreasing := (List.pairwise_cons.mp h.decreasing).2
  height i p hp := by
    have hmem := List.mem_cons_of_mem innermost (List.mem_of_getElem? hp)
    have hlt := ((h.mem_iff p).mp hmem).position_lt
    have hheight := h.height (i + 1) p hp
    rw [List.drop_append_of_le_length (Nat.le_of_lt hlt), closed_append_closing,
      opened_append_of_ne _ (by simp)]
    omega
  balance := by
    have hbalance := h.balance
    rw [List.length_cons] at hbalance
    rw [closed_append_closing, opened_append_of_ne _ (by simp)]
    omega
  neverOverclosed := by
    have hbalance := h.balance
    rw [List.length_cons] at hbalance
    apply neverOverclosed_append_singleton_iff.mpr
    refine ⟨h.neverOverclosed, ?_⟩
    rw [closed_append_closing, opened_append_of_ne _ (by simp)]
    omega

/-- Reading a token keeps the open groups those of the tokens read. -/
theorem OpenGroups.of_step {tokens : List Token} {pending kept : List Pending} {token : Token}
    {put : List Token} (h : OpenGroups tokens (Pending.groups pending))
    (hstep : PostfixOrder.step tokens.length pending token = .ok (put, kept)) :
    OpenGroups (tokens ++ [token]) (Pending.groups kept) := by
  rcases PostfixOrder.step_eq_ok_cases hstep with
    ⟨value, rfl, -, rfl⟩ | ⟨symbol, yielded, waiting, rfl, -, rfl, rfl⟩ | ⟨rfl, -, rfl⟩ |
      ⟨rfl, closed, opening, -, rfl⟩
  · exact h.append_other (by simp) (by simp)
  · rw [Pending.groups_operators_append] at h
    exact h.append_other (by simp) (by simp)
  · exact h.append_opening
  · rw [Pending.groups_operators_append] at h
    exact h.append_closing

/-- In every state that a scan reaches, the open groups are those of the tokens read. -/
theorem openGroups_of_scan {tokens put : List Token} {kept : List Pending}
    (h : PostfixOrder.scan 0 [] tokens = .ok (put, kept)) :
    OpenGroups tokens (Pending.groups kept) := by
  -- The invariant goes from the tokens before the last one to all of them; the last is taken off.
  induction tokens using List.reverseRecOn generalizing put kept with
  | nil =>
    cases h
    exact openGroups_nil
  | append_singleton tokens token ih =>
    obtain ⟨now, waiting, later, hscan, hstep, -⟩ :=
      PostfixOrder.scan_append_singleton_eq_ok_iff.mp h
    rw [Nat.zero_add] at hstep
    exact (ih hscan).of_step hstep

/-- The token at which a scan fails is the first one that closes too much. -/
theorem isFirstOverclosed_of_scan_error {tokens : List Token} {e : ParenthesisError}
    (h : PostfixOrder.scan 0 [] tokens = .error e) :
    ∃ position, IsFirstOverclosed tokens position ∧ e = .unopened position := by
  obtain ⟨front, token, back, put, kept, rfl, hfront, hstep⟩ :=
    PostfixOrder.exists_step_error_of_scan_error h
  obtain ⟨rfl, hgroups, rfl⟩ := PostfixOrder.step_eq_error_iff.mp hstep
  have hopen := openGroups_of_scan hfront
  have hbalance := hopen.balance
  rw [hgroups, List.length_nil, Nat.add_zero] at hbalance
  refine ⟨front.length, ⟨?_, ?_, ?_⟩, by rw [Nat.zero_add]⟩
  · rw [List.length_append, List.length_cons]
    omega
  · have htake : (front ++ .parenthesis .closing :: back).take (front.length + 1) =
        front ++ [.parenthesis .closing] := by
      rw [List.take_length_add_append]
      rfl
    rw [htake, closed_append_closing, opened_append_of_ne _ (by simp), hbalance]
    exact Nat.lt_succ_self _
  · intro k hk
    rw [List.take_append_of_le_length hk]
    exact hopen.neverOverclosed k

/-- The innermost group that is open at the end is the last parenthesis that is not closed. -/
theorem OpenGroups.isLastUnclosed {tokens : List Token} {innermost : Nat} {outer : List Nat}
    (h : OpenGroups tokens (innermost :: outer)) : IsLastUnclosed tokens innermost where
  isUnclosed := (h.mem_iff innermost).mp List.mem_cons_self
  last p hp := by
    rcases List.mem_cons.mp ((h.mem_iff p).mpr hp) with rfl | hmem
    · exact Nat.le_refl p
    · exact Nat.le_of_lt ((List.pairwise_cons.mp h.decreasing).1 p hmem)

/-- A conversion fails at the first parenthesis that closes too much, or at the last one that is not
closed, or else it succeeds and every parenthesis has its partner. -/
theorem toPostfix_cases (tokens : List Token) :
    (∃ position, IsFirstOverclosed tokens position ∧
      toPostfix tokens = .error (.unopened position)) ∨
    (NeverOverclosed tokens ∧ closed tokens < opened tokens ∧
      ∃ position, IsLastUnclosed tokens position ∧
        toPostfix tokens = .error (.unclosed position)) ∨
    (Balanced tokens ∧ ∃ reordered, toPostfix tokens = .ok reordered) := by
  cases hscan : PostfixOrder.scan 0 [] tokens with
  | error e =>
    obtain ⟨position, hfirst, rfl⟩ := isFirstOverclosed_of_scan_error hscan
    exact .inl ⟨position, hfirst, toPostfix_of_scan_error hscan⟩
  | ok result =>
    obtain ⟨put, kept⟩ := result
    have hopen := openGroups_of_scan hscan
    have hbalance := hopen.balance
    right
    cases hgroups : Pending.groups kept with
    | nil =>
      rw [hgroups, List.length_nil, Nat.add_zero] at hbalance
      exact .inr ⟨⟨hopen.neverOverclosed, hbalance⟩, _, toPostfix_of_scan_ok hscan hgroups⟩
    | cons innermost outer =>
      rw [hgroups] at hopen
      rw [hgroups, List.length_cons] at hbalance
      exact .inl ⟨hopen.neverOverclosed, by omega, innermost, hopen.isLastUnclosed,
        toPostfix_of_open_group hscan hgroups⟩

/-- Where more has been closed than opened, some beginning is overclosed. -/
theorem IsFirstOverclosed.not_neverOverclosed {tokens : List Token} {position : Nat}
    (h : IsFirstOverclosed tokens position) : ¬ NeverOverclosed tokens := by
  intro hnever
  exact Nat.not_lt.mpr (hnever (position + 1)) h.overclosed

/-- The first token that closes too much is a closing parenthesis. -/
theorem IsFirstOverclosed.closing {tokens : List Token} {position : Nat}
    (h : IsFirstOverclosed tokens position) :
    tokens[position]? = some (.parenthesis .closing) := by
  have hlt := h.position_lt
  have hover := h.overclosed
  have hmin := h.minimal position (Nat.le_refl position)
  rw [List.getElem?_eq_getElem hlt]
  rw [← List.take_append_getElem hlt] at hover
  by_cases hc : tokens[position] = .parenthesis .closing
  · rw [hc]
  · -- Any other token closes nothing, so that the tokens before it would close too much.
    rw [closed_append_of_ne _ hc] at hover
    have hle := List.Sublist.count_le (.parenthesis .opening)
      (List.sublist_append_left (tokens.take position) [tokens[position]])
    rw [← opened, ← opened] at hle
    omega

/-- Exactly the tokens whose parentheses all have partners can be reordered. -/
theorem exists_toPostfix_eq_ok_iff {tokens : List Token} :
    (∃ reordered, toPostfix tokens = .ok reordered) ↔ Balanced tokens := by
  rcases toPostfix_cases tokens with
    ⟨position, hfirst, herror⟩ | ⟨-, hcount, position, -, herror⟩ | ⟨hbalanced, hok⟩
  · have hnot : ¬ Balanced tokens := fun hb ↦ hfirst.not_neverOverclosed hb.1
    simp [herror, hnot]
  · have hnot : ¬ Balanced tokens := fun hb ↦ by have := hb.2; omega
    simp [herror, hnot]
  · exact ⟨fun _ ↦ hbalanced, fun _ ↦ hok⟩

end Parentheses

open Parentheses in
/-- The parentheses alone decide the outcome of a conversion. When some beginning of the tokens
holds more closing parentheses than opening ones, the first token at which that happens is reported
as unopened; otherwise, when more parentheses are opened than closed, the last one that is never
closed is reported as unclosed; otherwise the conversion succeeds. -/
theorem toPostfix_parentheses (tokens : List Token) :
    (¬ NeverOverclosed tokens → ∃ position, IsFirstOverclosed tokens position ∧
      toPostfix tokens = .error (.unopened position)) ∧
    (NeverOverclosed tokens → closed tokens < opened tokens →
      ∃ position, IsLastUnclosed tokens position ∧
        toPostfix tokens = .error (.unclosed position)) ∧
    (NeverOverclosed tokens → opened tokens ≤ closed tokens →
      ∃ reordered, toPostfix tokens = .ok reordered) := by
  rcases toPostfix_cases tokens with
    ⟨position, hfirst, herror⟩ | ⟨hnever, hcount, hlast⟩ | ⟨⟨hnever, hcount⟩, hok⟩
  · have hover := hfirst.not_neverOverclosed
    exact ⟨fun _ ↦ ⟨position, hfirst, herror⟩, fun h ↦ (hover h).elim, fun h ↦ (hover h).elim⟩
  · refine ⟨fun h ↦ (h hnever).elim, fun _ _ ↦ hlast, fun _ h ↦ ?_⟩
    omega
  · refine ⟨fun h ↦ (h hnever).elim, fun _ h ↦ ?_, fun _ _ ↦ hok⟩
    omega

open Parentheses in
/-- A group that is closed twice, one of several groups that are not closed, and closed groups. -/
theorem toPostfix_parentheses_texts :
    (¬ NeverOverclosed (tokenize "(1))+(2)") ∧
      ∃ position, IsFirstOverclosed (tokenize "(1))+(2)") position ∧
        toPostfix (tokenize "(1))+(2)") = .error (.unopened position)) ∧
    (NeverOverclosed (tokenize "(1+((2)") ∧
      closed (tokenize "(1+((2)") < opened (tokenize "(1+((2)") ∧
      ∃ position, IsLastUnclosed (tokenize "(1+((2)") position ∧
        toPostfix (tokenize "(1+((2)") = .error (.unclosed position)) ∧
    (NeverOverclosed (tokenize "()×(1)") ∧ opened (tokenize "()×(1)") ≤ closed (tokenize "()×(1)") ∧
      ∃ reordered, toPostfix (tokenize "()×(1)") = .ok reordered) := by
  refine ⟨⟨by decide, ?_⟩, ⟨by decide, by decide, ?_⟩, ⟨by decide, by decide, ?_⟩⟩
  · exact (toPostfix_parentheses (tokenize "(1))+(2)")).1 (by decide)
  · exact (toPostfix_parentheses (tokenize "(1+((2)")).2.1 (by decide) (by decide)
  · exact (toPostfix_parentheses (tokenize "()×(1)")).2.2 (by decide) (by decide)

end PocketCalc
