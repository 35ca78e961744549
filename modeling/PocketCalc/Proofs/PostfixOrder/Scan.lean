import PocketCalc.PostfixOrder

/-!
# Scanning an expression

`PostfixOrder.scan` is the reading of tokens without the end of the expression: what has been put
out and what still waits. The conversion is a scan from nothing followed by draining what waits.
Tokens in two parts are scanned one after the other, so a fact about a whole scan follows from one
about a step by induction on the tokens.
-/

namespace PocketCalc

namespace Pending

/-- The positions of the open groups, the innermost one first. -/
def groups : List Pending → List Nat
  | [] => []
  | operator _ :: rest => groups rest
  | group position :: rest => position :: groups rest

/-- The operators that wait, the last one first. -/
def symbols : List Pending → List OperatorSymbol
  | [] => []
  | operator symbol :: rest => symbol :: symbols rest
  | group _ :: rest => symbols rest

/-- Yielding takes operators from the top and leaves the others in place. -/
theorem eq_yieldTo (incoming : OperatorSymbol) (pending : List Pending) :
    pending = (yieldTo incoming pending).1.map .operator ++ (yieldTo incoming pending).2 := by
  induction pending with
  | nil => rfl
  | cons top rest ih =>
    cases top with
    | group position => rfl
    | operator waiting =>
      rw [yieldTo]
      split
      · exact congrArg (operator waiting :: ·) ih
      · rfl

/-- Closing takes the operators above the innermost group and the group itself. -/
theorem eq_of_closeGroup?_eq_some {pending kept : List Pending} {closed : List OperatorSymbol}
    (h : closeGroup? pending = some (closed, kept)) :
    ∃ position, pending = closed.map .operator ++ group position :: kept := by
  induction pending generalizing closed with
  | nil => cases h
  | cons top rest ih =>
    cases top with
    | group position =>
      cases h
      exact ⟨position, rfl⟩
    | operator waiting =>
      rw [closeGroup?, Option.map_eq_some_iff] at h
      obtain ⟨⟨inner, below⟩, hrest, heq⟩ := h
      cases heq
      obtain ⟨position, hp⟩ := ih hrest
      exact ⟨position, congrArg (operator waiting :: ·) hp⟩

/-- There is nothing to close exactly when no group is open. -/
theorem closeGroup?_eq_none_iff {pending : List Pending} :
    closeGroup? pending = none ↔ groups pending = [] := by
  induction pending with
  | nil => simp [closeGroup?, groups]
  | cons top rest ih =>
    cases top with
    | group position => simp [closeGroup?, groups]
    | operator waiting => rw [closeGroup?, groups, Option.map_eq_none_iff, ih]

/-- Operators do not hide the group below them. -/
theorem closeGroup?_operators_group (closed : List OperatorSymbol) (position : Nat)
    (kept : List Pending) :
    closeGroup? (closed.map .operator ++ group position :: kept) = some (closed, kept) := by
  induction closed with
  | nil => rfl
  | cons symbol rest ih =>
    rw [List.map_cons, List.cons_append, closeGroup?, ih]
    rfl

/-- Operators in front do not count as groups. -/
theorem groups_operators_append (waiting : List OperatorSymbol) (pending : List Pending) :
    groups (waiting.map .operator ++ pending) = groups pending := by
  induction waiting with
  | nil => rfl
  | cons symbol rest ih => exact ih

/-- Operators in front come first among the waiting ones. -/
theorem symbols_operators_append (waiting : List OperatorSymbol) (pending : List Pending) :
    symbols (waiting.map .operator ++ pending) = waiting ++ symbols pending := by
  induction waiting with
  | nil => rfl
  | cons symbol rest ih => exact congrArg (symbol :: ·) ih

/-- Without an open group everything that waits is drained. -/
theorem drain_of_groups_eq_nil {pending : List Pending} (h : groups pending = []) :
    drain pending = .ok (symbols pending) := by
  induction pending with
  | nil => rfl
  | cons top rest ih =>
    cases top with
    | group position => cases h
    | operator waiting =>
      rw [drain, ih h]
      rfl

/-- Draining stops at the innermost open group. -/
theorem drain_of_groups_eq_cons {pending : List Pending} {position : Nat} {outer : List Nat}
    (h : groups pending = position :: outer) : drain pending = .error (.unclosed position) := by
  induction pending with
  | nil => cases h
  | cons top rest ih =>
    cases top with
    | group innermost =>
      cases h
      rfl
    | operator waiting =>
      rw [drain, ih h]
      rfl

end Pending

namespace PostfixOrder

/-- Everything that reading a token can do: a number is put out, an operator waits after those that
yield to it, an opening parenthesis waits as a group, and a closing one puts out the operators of
the innermost group. -/
theorem step_eq_ok_cases {position : Nat} {pending kept : List Pending} {token : Token}
    {put : List Token} (h : step position pending token = .ok (put, kept)) :
    (∃ value, token = .number value ∧ put = [.number value] ∧ kept = pending) ∨
    (∃ (symbol : OperatorSymbol) (yielded : List OperatorSymbol) (waiting : List Pending),
      token = .operator symbol ∧ put = yielded.map .operator ∧
      kept = .operator symbol :: waiting ∧ pending = yielded.map .operator ++ waiting) ∨
    (token = .parenthesis .opening ∧ put = [] ∧ kept = .group position :: pending) ∨
    (token = .parenthesis .closing ∧ ∃ (closed : List OperatorSymbol) (opening : Nat),
      put = closed.map .operator ∧ pending = closed.map .operator ++ .group opening :: kept) := by
  cases token with
  | number value =>
    cases h
    exact .inl ⟨value, rfl, rfl, rfl⟩
  | operator symbol =>
    cases h
    exact .inr (.inl ⟨symbol, _, _, rfl, rfl, rfl, Pending.eq_yieldTo symbol pending⟩)
  | parenthesis side =>
    cases side with
    | opening =>
      cases h
      exact .inr (.inr (.inl ⟨rfl, rfl, rfl⟩))
    | closing =>
      cases hclose : Pending.closeGroup? pending with
      | none => simp [step, hclose] at h
      | some result =>
        simp only [step, hclose] at h
        cases h
        obtain ⟨opening, hpending⟩ := Pending.eq_of_closeGroup?_eq_some hclose
        exact .inr (.inr (.inr ⟨rfl, result.1, opening, rfl, hpending⟩))

/-- Reading fails exactly at a closing parenthesis while no group is open, and reports it. -/
theorem step_eq_error_iff {position : Nat} {pending : List Pending} {token : Token}
    {e : ParenthesisError} :
    step position pending token = .error e ↔
      token = .parenthesis .closing ∧ Pending.groups pending = [] ∧ e = .unopened position := by
  rw [← Pending.closeGroup?_eq_none_iff]
  cases token with
  | number value => simp [step]
  | operator symbol => simp [step]
  | parenthesis side =>
    cases side with
    | opening => simp [step]
    | closing => cases hclose : Pending.closeGroup? pending <;> simp [step, hclose, eq_comm]

/-- What the tokens from a position on put out, and what waits after them. -/
def scan (position : Nat) (pending : List Pending) :
    List Token → Except ParenthesisError (List Token × List Pending)
  | [] => .ok ([], pending)
  | token :: rest =>
    match step position pending token with
    | .ok (put, kept) =>
      (scan (position + 1) kept rest).map fun (later, waiting) ↦ (put ++ later, waiting)
    | .error e => .error e

/-- A token that is read goes before what the others put out. -/
theorem scan_cons_of_ok {position : Nat} {pending kept : List Pending} {token : Token}
    {put : List Token} (h : step position pending token = .ok (put, kept)) (rest : List Token) :
    scan position pending (token :: rest) =
      (scan (position + 1) kept rest).map fun (later, waiting) ↦ (put ++ later, waiting) := by
  rw [scan, h]

/-- The first token that fails decides. -/
theorem scan_cons_of_error {position : Nat} {pending : List Pending} {token : Token}
    {e : ParenthesisError} (h : step position pending token = .error e) (rest : List Token) :
    scan position pending (token :: rest) = .error e := by
  rw [scan, h]

/-- A list of tokens is read when its first token is and then the others are. -/
theorem scan_cons_eq_ok_iff {position : Nat} {pending kept : List Pending} {token : Token}
    {rest put : List Token} :
    scan position pending (token :: rest) = .ok (put, kept) ↔
      ∃ now waiting later, step position pending token = .ok (now, waiting) ∧
        scan (position + 1) waiting rest = .ok (later, kept) ∧ put = now ++ later := by
  constructor
  · intro h
    cases hstep : step position pending token with
    | error e => rw [scan_cons_of_error hstep] at h; cases h
    | ok result =>
      rw [scan_cons_of_ok hstep] at h
      cases hrest : scan (position + 1) result.2 rest with
      | error e => rw [hrest] at h; cases h
      | ok tail =>
        rw [hrest] at h
        cases h
        exact ⟨result.1, result.2, tail.1, rfl, hrest, rfl⟩
  · rintro ⟨now, waiting, later, hstep, hrest, rfl⟩
    rw [scan_cons_of_ok hstep, hrest]
    rfl

/-- A list of tokens fails at its first token or after it. -/
theorem scan_cons_eq_error_iff {position : Nat} {pending : List Pending} {token : Token}
    {rest : List Token} {e : ParenthesisError} :
    scan position pending (token :: rest) = .error e ↔
      step position pending token = .error e ∨
        ∃ now waiting, step position pending token = .ok (now, waiting) ∧
          scan (position + 1) waiting rest = .error e := by
  constructor
  · intro h
    cases hstep : step position pending token with
    | error cause =>
      rw [scan_cons_of_error hstep] at h
      exact .inl h
    | ok result =>
      rw [scan_cons_of_ok hstep] at h
      cases hrest : scan (position + 1) result.2 rest with
      | ok tail => rw [hrest] at h; cases h
      | error cause =>
        rw [hrest] at h
        cases h
        exact .inr ⟨result.1, result.2, rfl, hrest⟩
  · rintro (hstep | ⟨now, waiting, hstep, hrest⟩)
    · exact scan_cons_of_error hstep rest
    · rw [scan_cons_of_ok hstep, hrest]
      rfl

/-- A scan of one token is a step. -/
theorem scan_singleton (position : Nat) (pending : List Pending) (token : Token) :
    scan position pending [token] = step position pending token := by
  cases hstep : step position pending token with
  | error e => exact scan_cons_of_error hstep []
  | ok result =>
    obtain ⟨put, kept⟩ := result
    exact scan_cons_eq_ok_iff.mpr ⟨put, kept, [], hstep, rfl, (List.append_nil put).symm⟩

/-- Tokens are read in two parts, the second one from where the first one stopped. -/
theorem scan_append_eq_ok_iff {position : Nat} {pending kept : List Pending}
    {first second put : List Token} :
    scan position pending (first ++ second) = .ok (put, kept) ↔
      ∃ now waiting later, scan position pending first = .ok (now, waiting) ∧
        scan (position + first.length) waiting second = .ok (later, kept) ∧
        put = now ++ later := by
  induction first generalizing position pending put with
  | nil =>
    constructor
    · intro h
      exact ⟨[], pending, put, rfl, h, rfl⟩
    · rintro ⟨now, waiting, later, hfirst, hsecond, rfl⟩
      cases hfirst
      exact hsecond
  | cons token rest ih =>
    have hlen : position + 1 + rest.length = position + (token :: rest).length := by
      rw [List.length_cons]; omega
    rw [List.cons_append, scan_cons_eq_ok_iff]
    constructor
    · rintro ⟨now, waiting, later, hstep, hrest, rfl⟩
      obtain ⟨middle, between, last, hmiddle, hlast, rfl⟩ := ih.mp hrest
      rw [hlen] at hlast
      refine ⟨now ++ middle, between, last, ?_, hlast, (List.append_assoc now middle last).symm⟩
      exact scan_cons_eq_ok_iff.mpr ⟨now, waiting, middle, hstep, hmiddle, rfl⟩
    · rintro ⟨front, between, last, hfront, hlast, rfl⟩
      obtain ⟨now, waiting, middle, hstep, hmiddle, rfl⟩ := scan_cons_eq_ok_iff.mp hfront
      rw [← hlen] at hlast
      refine ⟨now, waiting, middle ++ last, hstep, ?_, List.append_assoc now middle last⟩
      exact ih.mpr ⟨middle, between, last, hmiddle, hlast, rfl⟩

/-- One more token is read by one more step. -/
theorem scan_append_singleton_eq_ok_iff {position : Nat} {pending kept : List Pending}
    {tokens put : List Token} {token : Token} :
    scan position pending (tokens ++ [token]) = .ok (put, kept) ↔
      ∃ now waiting later, scan position pending tokens = .ok (now, waiting) ∧
        step (position + tokens.length) waiting token = .ok (later, kept) ∧
        put = now ++ later := by
  simp only [scan_append_eq_ok_iff, scan_singleton]

/-- A scan fails at one token, after everything before it has been read. -/
theorem exists_step_error_of_scan_error {position : Nat} {pending : List Pending}
    {tokens : List Token} {e : ParenthesisError} (h : scan position pending tokens = .error e) :
    ∃ front token back put kept, tokens = front ++ token :: back ∧
      scan position pending front = .ok (put, kept) ∧
      step (position + front.length) kept token = .error e := by
  induction tokens generalizing position pending with
  | nil => cases h
  | cons token rest ih =>
    rcases scan_cons_eq_error_iff.mp h with hstep | ⟨now, waiting, hstep, hrest⟩
    · exact ⟨[], token, rest, [], pending, rfl, rfl, hstep⟩
    · obtain ⟨front, failing, back, put, kept, rfl, hfront, hfail⟩ := ih hrest
      refine ⟨token :: front, failing, back, now ++ put, kept, rfl, ?_, ?_⟩
      · exact scan_cons_eq_ok_iff.mpr ⟨now, waiting, put, hstep, hfront, rfl⟩
      · rw [List.length_cons, Nat.add_comm front.length 1, ← Nat.add_assoc]
        exact hfail

/-- A conversion scans a first part and goes on where that stopped. -/
theorem convert_append (position : Nat) (pending : List Pending) (first second : List Token) :
    convert position pending (first ++ second) =
      match scan position pending first with
      | .ok (put, kept) => (convert (position + first.length) kept second).map (put ++ ·)
      | .error e => .error e := by
  induction first generalizing position pending with
  | nil =>
    simp only [List.nil_append, scan, List.length_nil, Nat.add_zero]
    cases convert position pending second <;> rfl
  | cons token rest ih =>
    rw [List.cons_append, convert, scan]
    cases step position pending token with
    | error e => rfl
    | ok result =>
      obtain ⟨now, waiting⟩ := result
      dsimp only
      rw [ih, List.length_cons, Nat.add_comm rest.length 1, ← Nat.add_assoc]
      cases scan (position + 1) waiting rest with
      | error e => rfl
      | ok tail =>
        obtain ⟨later, kept⟩ := tail
        simp only [Except.map]
        cases convert (position + 1 + rest.length) kept second <;> simp

/-- The conversion is the scan, and then what waits is drained. -/
theorem convert_eq_scan (position : Nat) (pending : List Pending) (tokens : List Token) :
    convert position pending tokens =
      match scan position pending tokens with
      | .ok (put, kept) => (Pending.drain kept).map fun drained ↦ put ++ drained.map .operator
      | .error e => .error e := by
  have happend := convert_append position pending tokens []
  rw [List.append_nil] at happend
  rw [happend]
  cases scan position pending tokens with
  | error e => rfl
  | ok result =>
    obtain ⟨put, kept⟩ := result
    dsimp only
    rw [convert]
    cases Pending.drain kept <;> rfl

end PostfixOrder

open PostfixOrder

/-- A conversion fails where its scan fails. -/
theorem toPostfix_of_scan_error {tokens : List Token} {e : ParenthesisError}
    (h : scan 0 [] tokens = .error e) : toPostfix tokens = .error e := by
  rw [toPostfix, convert_eq_scan, h]

/-- Without an open group a conversion ends with the waiting operators. -/
theorem toPostfix_of_scan_ok {tokens put : List Token} {kept : List Pending}
    (h : scan 0 [] tokens = .ok (put, kept)) (hgroups : Pending.groups kept = []) :
    toPostfix tokens = .ok (put ++ (Pending.symbols kept).map .operator) := by
  rw [toPostfix, convert_eq_scan, h]
  dsimp only
  rw [Pending.drain_of_groups_eq_nil hgroups]
  rfl

/-- A conversion reports the innermost group that is open at the end. -/
theorem toPostfix_of_open_group {tokens put : List Token} {kept : List Pending} {position : Nat}
    {outer : List Nat} (h : scan 0 [] tokens = .ok (put, kept))
    (hgroups : Pending.groups kept = position :: outer) :
    toPostfix tokens = .error (.unclosed position) := by
  rw [toPostfix, convert_eq_scan, h]
  dsimp only
  rw [Pending.drain_of_groups_eq_cons hgroups]
  rfl

/-- A conversion that succeeds is a scan that leaves no group open, and then what waits. -/
theorem exists_scan_of_toPostfix_eq_ok {tokens reordered : List Token}
    (h : toPostfix tokens = .ok reordered) :
    ∃ put kept, scan 0 [] tokens = .ok (put, kept) ∧ Pending.groups kept = [] ∧
      reordered = put ++ (Pending.symbols kept).map .operator := by
  cases hscan : scan 0 [] tokens with
  | error e => rw [toPostfix_of_scan_error hscan] at h; cases h
  | ok result =>
    obtain ⟨put, kept⟩ := result
    cases hgroups : Pending.groups kept with
    | nil =>
      rw [toPostfix_of_scan_ok hscan hgroups] at h
      cases h
      exact ⟨put, kept, rfl, hgroups, rfl⟩
    | cons innermost outer => rw [toPostfix_of_open_group hscan hgroups] at h; cases h

end PocketCalc
