import PocketCalc.CommandLine.Input

/-!
# Lines of a text

A line feed ends a line whatever follows, so that the lines of a text are those up to a line feed
and then those after it (`splitLines_append`). Characters that end no line stay together
(`splitLines_append_of_notMem`), so a line without a line feed that does not end in a carriage
return is read back from its text (`splitLines_line`).
-/

namespace PocketCalc.CommandLine

/-- A character that neither ends a line nor begins the end of one belongs to the first line. -/
theorem splitLines_cons {c : Char} {rest : List Char} (hfeed : c ≠ '\n')
    (hreturn : ∀ after, c = '\r' → rest ≠ '\n' :: after) :
    splitLines (c :: rest) = consLine c (splitLines rest) :=
  splitLines.eq_4 c rest hfeed hreturn

/-- A character in front of lines that are there goes to the first of them. -/
theorem consLine_append (c : Char) {lines : List (List Char)} (h : lines ≠ [])
    (more : List (List Char)) : consLine c (lines ++ more) = consLine c lines ++ more := by
  cases lines with
  | nil => exact (h rfl).elim
  | cons line rest => rfl

/-- A text with characters has lines. -/
theorem splitLines_ne_nil {cs : List Char} (h : cs ≠ []) : splitLines cs ≠ [] := by
  fun_cases splitLines cs with
  | case1 => exact (h rfl).elim
  | case2 rest => exact List.cons_ne_nil _ _
  | case3 rest => exact List.cons_ne_nil _ _
  | case4 c rest hfeed hreturn =>
    cases splitLines rest with
    | nil => exact List.cons_ne_nil _ _
    | cons line lines => exact List.cons_ne_nil _ _

/-- After a line feed the lines begin anew. -/
theorem splitLines_append (cs after : List Char) :
    splitLines (cs ++ '\n' :: after) = splitLines (cs ++ ['\n']) ++ splitLines after := by
  fun_induction splitLines cs with
  | case1 => rfl
  | case2 rest ih => exact congrArg ([] :: ·) ih
  | case3 rest ih => exact congrArg ([] :: ·) ih
  | case4 c rest hfeed hreturn ih =>
    by_cases hlast : c = '\r' ∧ rest = []
    · obtain ⟨rfl, rfl⟩ := hlast
      rfl
    · -- What stands behind the character is not changed by what stands behind the line feed.
      have hinner : ∀ tail more, c = '\r' → rest ++ '\n' :: tail ≠ '\n' :: more := by
        rintro tail more rfl heq
        cases rest with
        | nil => exact hlast ⟨rfl, rfl⟩
        | cons d rest =>
          obtain ⟨rfl, -⟩ := List.cons.inj heq
          exact hreturn rest rfl rfl
      rw [List.cons_append, List.cons_append, splitLines_cons hfeed (hinner after),
        splitLines_cons hfeed (hinner []), ih, consLine_append c (splitLines_ne_nil (by simp))]

/-- Characters in front of lines that are there go to the first of them. -/
theorem foldr_consLine_cons (cs line : List Char) (lines : List (List Char)) :
    cs.foldr consLine (line :: lines) = (cs ++ line) :: lines := by
  induction cs with
  | nil => rfl
  | cons c rest ih => rw [List.foldr_cons, ih, consLine, List.cons_append]

/-- Characters that end no line go to the first line of what follows. A carriage return at their end
must not be followed by a line feed. -/
theorem splitLines_append_of_notMem {cs after : List Char} (hfeed : '\n' ∉ cs)
    (hreturn : cs.getLast? = some '\r' → after.head? ≠ some '\n') :
    splitLines (cs ++ after) = cs.foldr consLine (splitLines after) := by
  induction cs with
  | nil => rfl
  | cons c rest ih =>
    rw [List.mem_cons, not_or] at hfeed
    have hinner : ∀ more, c = '\r' → rest ++ after ≠ '\n' :: more := by
      rintro more rfl heq
      cases rest with
      | nil => exact hreturn rfl (congrArg List.head? heq)
      | cons d rest =>
        obtain ⟨rfl, -⟩ := List.cons.inj heq
        exact hfeed.2 List.mem_cons_self
    have hrest : rest.getLast? = some '\r' → after.head? ≠ some '\n' := by
      intro h
      cases rest with
      | nil => cases h
      | cons d rest => exact hreturn (by rwa [List.getLast?_cons_cons])
    rw [List.cons_append, splitLines_cons (Ne.symm hfeed.1) hinner, ih hfeed.2 hrest,
      List.foldr_cons]

/-- A line is read back from its text. -/
theorem splitLines_line {line : List Char} (hfeed : '\n' ∉ line)
    (hreturn : line.getLast? ≠ some '\r') : splitLines (line ++ ['\n']) = [line] := by
  have hempty : splitLines ['\n'] = [[]] := rfl
  rw [splitLines_append_of_notMem hfeed fun h ↦ absurd h hreturn, hempty, foldr_consLine_cons,
    List.append_nil]

end PocketCalc.CommandLine
