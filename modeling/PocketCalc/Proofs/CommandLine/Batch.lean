import PocketCalc.CommandLine.Run
import PocketCalc.Proofs.CommandLine.Report

/-!
# Runs over several expressions

A run tells of each expression what the library says of it, on its own path and in one of two
formats (`tells_evaluateAll`). The reports of a run do not know of each other: the output is put
together from the outputs of runs over one expression each, and only the exit code and the last line
of the stream of failures count over all of them. The count is kept in 32 bits with a sign, so that
it is right as long as fewer than `2 ^ 31` expressions fail. `evaluateAll_expressions` states all of
this; `evaluateAll_failures_wrap` is what happens when one more fails.
-/

namespace PocketCalc.CommandLine

/-- How many of the expressions have no value. -/
def failureCount (mode : Mode) (expressions : List String) : Nat :=
  expressions.countP fun text ↦ !(evaluateExpression mode text).isOk

/-- A text of whole lines: it is empty or ends in a line feed. -/
def IsLines (text : String) : Prop := text = "" ∨ ∃ lines, text = lines ++ "\n"

/-- The last line of a text is the given one. -/
def EndsWithLine (text line : String) : Prop :=
  '\n' ∉ line.toList ∧ ∃ before, IsLines before ∧ text = before ++ (line ++ "\n")

/-- The line that counts failures. -/
def summaryLine (failures total : Nat) : String :=
  s!"Error: {failures} of {total} expressions failed to evaluate"

/-- What a run over one expression with the given outcome leaves behind: a line of JSON that
describes the expression, or the lines that show it, what is wrong being told apart from them. -/
structure Tells (o : Options) (text : String) (outcome : Except EvaluationError Binary64)
    (run : Outcome) : Prop where
  object : o.json = true → ∃ line v, run.output = line ++ "\n" ∧
    Json.parseWith Json.Numeral.nearest? line = .ok v ∧ Describes o text outcome v
  lines : o.json = false → run.output = shownLines o text outcome
  error : o.json = false → ∀ e, outcome = .error e →
    (errorLine text e).toList <:+: run.errors.toList
  silent : ∀ x, outcome = .ok x → run.errors = ""

section Counter

/-- A counter that is written as a natural number is that number modulo `2 ^ 32`, with a sign. -/
theorem toInt_ofNat_eq_bmod (n : Nat) : (Int32.ofNat n).toInt = (n : Int).bmod (2 ^ 32) :=
  Int32.toInt_ofNat'

/-- The counter is positive when its value is. -/
theorem zero_lt_ofNat_iff (n : Nat) : 0 < Int32.ofNat n ↔ 0 < (n : Int).bmod (2 ^ 32) := by
  rw [Int32.lt_iff_toInt_lt, toInt_ofNat_eq_bmod]
  rfl

/-- Small numbers are counted as they are. -/
theorem bmod_of_lt {n : Nat} (h : n < 2 ^ 31) : (n : Int).bmod (2 ^ 32) = n := by
  rw [← toInt_ofNat_eq_bmod, Int32.toInt_ofNat_of_lt h]

/-- Small numbers are shown as they are. -/
theorem toString_ofNat_of_lt {n : Nat} (h : n < 2 ^ 31) :
    toString (Int32.ofNat n) = toString n := by
  change toString (Int32.ofNat n).toInt = _
  rw [Int32.toInt_ofNat_of_lt h]
  rfl

private theorem foldl_isFailure (reports : List Report) (failures : Int32) :
    reports.foldl (fun failures r ↦ if r.isFailure then failures + 1 else failures) failures =
      failures + Int32.ofNat (reports.countP Report.isFailure) := by
  induction reports generalizing failures with
  | nil => exact (Int32.add_zero failures).symm
  | cons r rest ih =>
    rw [List.foldl_cons, ih, List.countP_cons]
    cases r.isFailure with
    | false => rfl
    | true =>
      rw [if_pos rfl, if_pos rfl, Int32.ofNat_add, Int32.add_assoc, Int32.add_comm 1]
      rfl

/-- The counter counts the reports of the expressions without a value. -/
theorem countFailures_ofExpression (mode : Mode) (expressions : List String) :
    countFailures (expressions.map (Report.ofExpression mode)) =
      Int32.ofNat (failureCount mode expressions) := by
  have hcount : (expressions.map (Report.ofExpression mode)).countP Report.isFailure =
      failureCount mode expressions := by
    rw [List.countP_map]
    exact List.countP_congr fun text _ ↦ by simp [Report.isFailure_ofExpression]
  rw [countFailures, foldl_isFailure, hcount, Int32.zero_add]

end Counter

section Run

variable (o : Options) (expressions : List String)

/-- The output of a run is put together from the outputs of its reports. -/
theorem output_evaluateAll :
    (evaluateAll o expressions).output =
      String.join (expressions.map fun text ↦ (Report.ofExpression o.mode text).output o) := by
  rw [evaluateAll, List.map_map]
  rfl

/-- A run over one expression writes its report. -/
theorem output_evaluateAll_singleton (text : String) :
    (evaluateAll o [text]).output = (Report.ofExpression o.mode text).output o := by
  simp [output_evaluateAll]

/-- The failures of a run are told in order, and after them their count. -/
theorem errors_evaluateAll :
    (evaluateAll o expressions).errors =
      String.join (expressions.map fun text ↦ (Report.ofExpression o.mode text).errors o) ++
        failureSummary (Int32.ofNat (failureCount o.mode expressions)) expressions.length := by
  simp only [evaluateAll, countFailures_ofExpression, List.map_map]
  rfl

/-- A run fails when the counter of the expressions without a value is positive. -/
theorem exitCode_evaluateAll :
    (evaluateAll o expressions).exitCode =
      if 0 < (failureCount o.mode expressions : Int).bmod (2 ^ 32) then 1 else 0 := by
  simp only [evaluateAll, countFailures_ofExpression, zero_lt_ofNat_iff]

/-- Fewer than `2 ^ 31` failures are counted as they are. -/
theorem exitCode_evaluateAll_of_lt (h : failureCount o.mode expressions < 2 ^ 31) :
    (evaluateAll o expressions).exitCode =
      if 1 ≤ failureCount o.mode expressions then 1 else 0 := by
  rw [exitCode_evaluateAll, bmod_of_lt h]
  exact if_congr Int.natCast_pos rfl rfl

/-- The digits of a number hold no line feed. -/
theorem newline_not_mem_toDigits (n : Nat) : '\n' ∉ Nat.toDigits 10 n := by
  intro h
  have hdigit := Nat.isDigit_of_mem_toDigits (by decide) (by decide) h
  cases hdigit

/-- The line that counts failures holds no line feed. -/
theorem newline_not_mem_summaryLine (failures total : Nat) :
    '\n' ∉ (summaryLine failures total).toList := by
  have hchars : (summaryLine failures total).toList =
      "Error: ".toList ++ (Nat.toDigits 10 failures ++ (" of ".toList ++ (Nat.toDigits 10 total ++
        " expressions failed to evaluate".toList))) := by
    simp [summaryLine, ToString.toString]
  rw [hchars]
  simp [newline_not_mem_toDigits]

/-- The line that counts failures, as long as there are fewer than `2 ^ 31`. -/
theorem failureSummary_ofNat {failures : Nat} (hpos : 1 ≤ failures) (h : failures < 2 ^ 31)
    (total : Nat) :
    failureSummary (Int32.ofNat failures) total = summaryLine failures total ++ "\n" := by
  have hcounter : 0 < Int32.ofNat failures := by
    rw [zero_lt_ofNat_iff, bmod_of_lt h]
    exact Int.natCast_pos.mpr hpos
  rw [failureSummary, if_pos hcounter, toString_ofNat_of_lt h, Report.line, summaryLine]

/-- Lines after each other are lines. -/
theorem isLines_join {texts : List String} (h : ∀ text ∈ texts, IsLines text) :
    IsLines (String.join texts) := by
  induction texts with
  | nil => exact .inl rfl
  | cons text rest ih =>
    rw [String.join_cons]
    rcases ih fun text hmem ↦ h text (List.mem_cons_of_mem _ hmem) with hrest | ⟨lines, hrest⟩
    · rw [hrest, String.append_empty]
      exact h text List.mem_cons_self
    · refine .inr ⟨text ++ lines, ?_⟩
      rw [hrest, String.append_assoc]

/-- A report writes nothing or one text that ends its line on the stream of failures. -/
theorem isLines_errors (r : Report) : IsLines (r.errors o) := by
  rw [Report.errors, Report.errorLines]
  split
  · exact .inl rfl
  · split
    · exact .inl rfl
    · exact .inr ⟨_, rfl⟩

/-- The count of the failures, if there are any, is the last line on the stream of failures. -/
theorem endsWithLine_errors (hpos : 1 ≤ failureCount o.mode expressions)
    (h : failureCount o.mode expressions < 2 ^ 31) :
    EndsWithLine (evaluateAll o expressions).errors
      (summaryLine (failureCount o.mode expressions) expressions.length) := by
  have herrors := errors_evaluateAll o expressions
  rw [failureSummary_ofNat hpos h] at herrors
  refine ⟨newline_not_mem_summaryLine _ _, _, ?_, herrors⟩
  refine isLines_join fun written hmem ↦ ?_
  obtain ⟨text, -, rfl⟩ := List.mem_map.mp hmem
  exact isLines_errors o _

/-- What is wrong with an expression is told on the stream of failures, whatever else is. -/
theorem errorLine_isInfix {text : String} (hmem : text ∈ expressions) (hjson : o.json = false)
    {e : EvaluationError} (h : evaluateExpression o.mode text = .error e) :
    (errorLine text e).toList <:+: (evaluateAll o expressions).errors.toList := by
  have hresult : (Report.ofExpression o.mode text).result = .error e := h
  have hline : (Report.ofExpression o.mode text).errors o = errorLine text e := by
    rw [Report.errors, hjson, Report.errorLines, hresult]
    rfl
  obtain ⟨before, after, rfl⟩ := List.append_of_mem hmem
  rw [errors_evaluateAll, List.map_append, List.map_cons, String.join_append, String.join_cons,
    hline]
  simp only [String.toList_append, List.append_assoc]
  exact List.infix_append' _ _ _

/-- A run over one expression tells what the library says of it under the mode of the options. -/
theorem tells_evaluateAll (text : String) :
    Tells o text (evaluateExpression o.mode text) (evaluateAll o [text]) where
  object hjson := by
    obtain ⟨v, hread, hdescribes⟩ := Report.exists_parseWith_toJson o o.mode text
    refine ⟨_, v, ?_, hread, hdescribes⟩
    rw [output_evaluateAll_singleton, Report.output, if_pos hjson, Report.line]
  lines hjson := by
    rw [output_evaluateAll_singleton, Report.output, hjson, ← Report.outputLines_ofExpression]
    rfl
  error hjson e he := errorLine_isInfix o [text] List.mem_cons_self hjson he
  silent x hx := by
    have hresult : (Report.ofExpression o.mode text).result = .ok x := hx
    have hnone : failureCount o.mode [text] = 0 := by
      rw [failureCount, List.countP_singleton, hx]
      rfl
    rw [errors_evaluateAll, hnone, List.map_singleton, String.join_cons, String.join_nil,
      Report.errors, Report.errorLines, hresult]
    cases o.json <;> rfl

end Run

/-- A run is the library applied to each expression, in order and independently. Whatever the
options are, a run over one expression tells its tokens, its postfix order and its outcome as the
library has them under any mode with the settings of the options. The switches that show more and
the choice of JSON change neither what is told of the outcome nor the exit code. The output of a run
is put together from the outputs of runs over one expression each, and what is wrong with any of the
expressions is told. The exit code is one exactly when the counter of the expressions without a
value is positive. With fewer than `2 ^ 31` of these it is one exactly when there is one, and then
the last line counts them. -/
theorem evaluateAll_expressions {o : Options} {mode : Mode} (h : o.Selects mode)
    (expressions : List String) :
    let failures := failureCount mode expressions
    (∀ showTokens showPostfix json,
      let other := { o with showTokens, showPostfix, json }
      (evaluateAll other expressions).exitCode = (evaluateAll o expressions).exitCode ∧
      ∀ text, Tells other text (evaluateExpression mode text) (evaluateAll other [text])) ∧
    (evaluateAll o expressions).output =
      String.join (expressions.map fun text ↦ (evaluateAll o [text]).output) ∧
    (o.json = false → ∀ text ∈ expressions, ∀ e, evaluateExpression mode text = .error e →
      (errorLine text e).toList <:+: (evaluateAll o expressions).errors.toList) ∧
    (evaluateAll o expressions).exitCode =
      (if 0 < (failures : Int).bmod (2 ^ 32) then 1 else 0) ∧
    (failures < 2 ^ 31 →
      (evaluateAll o expressions).exitCode = (if 1 ≤ failures then 1 else 0) ∧
      (1 ≤ failures →
        EndsWithLine (evaluateAll o expressions).errors
          (summaryLine failures expressions.length))) := by
  intro failures
  have houtcome := h.evaluateExpression_eq
  have hfailures : failureCount o.mode expressions = failures :=
    List.countP_congr fun text _ ↦ by rw [houtcome]
  refine ⟨fun showTokens showPostfix json ↦ ?_, ?_, ?_, ?_, ?_⟩
  · intro other
    refine ⟨?_, fun text ↦ ?_⟩
    · rw [exitCode_evaluateAll, exitCode_evaluateAll]
      rfl
    · rw [← houtcome]
      exact tells_evaluateAll other text
  · rw [output_evaluateAll]
    simp only [output_evaluateAll_singleton]
  · intro hjson text hmem e he
    rw [← houtcome] at he
    exact errorLine_isInfix o expressions hmem hjson he
  · rw [exitCode_evaluateAll, hfailures]
  · intro hlt
    rw [← hfailures] at hlt ⊢
    exact ⟨exitCode_evaluateAll_of_lt o expressions hlt,
      fun hpos ↦ endsWithLine_errors o expressions hpos hlt⟩

/-- Three expressions, the second of which fails. -/
theorem evaluateAll_expressions_failure :
    let expressions := ["1+1", "(3+4", "2×3"]
    Options.Selects {} {} ∧ failureCount {} expressions < 2 ^ 31 ∧
      1 ≤ failureCount {} expressions ∧ (evaluateAll {} expressions).exitCode = 1 ∧
      EndsWithLine (evaluateAll {} expressions).errors
        "Error: 1 of 3 expressions failed to evaluate" := by
  intro expressions
  have hselects : Options.Selects {} {} := ⟨rfl, rfl⟩
  have hcount : failureCount {} expressions = 1 := by decide
  have hline : "Error: 1 of 3 expressions failed to evaluate" = summaryLine 1 3 := by decide
  obtain ⟨-, -, -, -, hcounted⟩ := evaluateAll_expressions hselects expressions
  rw [hcount] at hcounted ⊢
  rw [hline]
  obtain ⟨hcode, hlast⟩ := hcounted (by decide)
  exact ⟨hselects, by decide, Nat.le_refl 1, hcode, hlast (Nat.le_refl 1)⟩

/-- As many failures as make the counter negative are not reported: the exit code is that of a run
without failures, and no line counts them. -/
theorem evaluateAll_failures_wrap :
    let expressions := List.replicate (2 ^ 31) ")"
    Options.Selects {} {} ∧ failureCount {} expressions = 2 ^ 31 ∧
      ¬ ((evaluateAll {} expressions).exitCode = 1 ↔ 1 ≤ failureCount {} expressions) := by
  intro expressions
  have hselects : Options.Selects {} {} := ⟨rfl, rfl⟩
  have hcount : failureCount {} expressions = 2 ^ 31 := by
    rw [failureCount, List.countP_replicate]
    rfl
  have hcode : (evaluateAll {} expressions).exitCode = 0 := by
    have hmode : ({} : Options).mode = {} := rfl
    rw [exitCode_evaluateAll, hmode, hcount]
    rfl
  refine ⟨hselects, hcount, fun hiff ↦ ?_⟩
  rw [hcode, hcount] at hiff
  exact absurd (hiff.mpr (by decide)) (by decide)

end PocketCalc.CommandLine
