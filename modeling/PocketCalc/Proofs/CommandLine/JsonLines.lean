import PocketCalc.Proofs.CommandLine.Batch
import PocketCalc.Proofs.CommandLine.Lines

/-!
# Reports in JSON

With the switch for JSON the output of a run is one line for each expression, whatever characters
the expressions have (`evaluateAll_jsonLines`). A line has no control characters, so that it is not
broken anywhere, and it is read as an object that describes its expression (`Describes`). The value
in it is a text that is a numeral of the very double.
-/

namespace PocketCalc.CommandLine

/-- Lines without control characters are the lines of their text. -/
theorem splitLines_join_line {lines : List String}
    (h : ∀ line ∈ lines, ∀ c ∈ line.toList, 32 ≤ c.toNat) :
    splitLines (String.join (lines.map Report.line)).toList = lines.map String.toList := by
  induction lines with
  | nil => rfl
  | cons line rest ih =>
    have hline := h line List.mem_cons_self
    have hfeed : '\n' ∉ line.toList := fun hmem ↦ absurd (hline _ hmem) (by decide)
    have hreturn : line.toList.getLast? ≠ some '\r' := fun hlast ↦
      absurd (hline _ (List.mem_of_getLast? hlast)) (by decide)
    have hnewline : "\n".toList = ['\n'] := rfl
    rw [List.map_cons, String.join_cons, String.toList_append, Report.line, String.toList_append,
      hnewline, List.append_assoc, List.singleton_append, splitLines_append,
      splitLines_line hfeed hreturn, ih fun line hline ↦ h line (List.mem_cons_of_mem _ hline)]
    rfl

/-- The line of JSON for an expression. -/
def jsonLine (o : Options) (text : String) : String :=
  ((Report.ofExpression o.mode text).toJson o).text

/-- A line of JSON has no control characters. -/
theorem le_toNat_of_mem_jsonLine (o : Options) (text : String) :
    ∀ c ∈ (jsonLine o text).toList, 32 ≤ c.toNat := by
  rw [jsonLine, Json.Value.text, String.toList_ofList]
  exact Json.Value.le_toNat_of_mem_chars _

/-- With the switch for JSON a run writes the lines of its expressions. -/
theorem output_evaluateAll_json {o : Options} (h : o.json = true) (expressions : List String) :
    (evaluateAll o expressions).output =
      String.join ((expressions.map (jsonLine o)).map Report.line) := by
  have hreport (text : String) :
      (Report.ofExpression o.mode text).output o = Report.line (jsonLine o text) := by
    rw [Report.output, if_pos h, jsonLine]
  rw [output_evaluateAll, List.map_map]
  exact congrArg String.join (List.map_congr_left fun text _ ↦ hreport text)

/-- With the switch for JSON the output of a run is one line for each expression, in order. No line
has a control character, and read as JSON, with the nearest double for every number, it is an object
that describes the expression and its outcome under any mode with the settings of the options. -/
theorem evaluateAll_jsonLines {o : Options} {mode : Mode} (h : o.json = true)
    (hmode : o.Selects mode) (expressions : List String) :
    ∃ lines : List String,
      (evaluateAll o expressions).output = String.join (lines.map fun line ↦ line ++ "\n") ∧
      splitLines (evaluateAll o expressions).output.toList = lines.map String.toList ∧
      (∀ line ∈ lines, ∀ c ∈ line.toList, 32 ≤ c.toNat) ∧
      List.Forall₂ (fun text line ↦ ∃ v, Json.parseWith Json.Numeral.nearest? line = .ok v ∧
        Describes o text (evaluateExpression mode text) v) expressions lines := by
  have houtput := output_evaluateAll_json h expressions
  have hlines : ∀ line ∈ expressions.map (jsonLine o), ∀ c ∈ line.toList, 32 ≤ c.toNat := by
    intro line hmem
    obtain ⟨text, -, rfl⟩ := List.mem_map.mp hmem
    exact le_toNat_of_mem_jsonLine o text
  refine ⟨expressions.map (jsonLine o), houtput, ?_, hlines, ?_⟩
  · rw [houtput, splitLines_join_line hlines]
  · rw [List.forall₂_map_right_iff, List.forall₂_same]
    intro text _
    rw [← hmode.evaluateExpression_eq]
    exact Report.exists_parseWith_toJson o o.mode text

/-- An expression with a quote, a backslash, a line feed and a null character, and one that
fails. -/
theorem evaluateAll_jsonLines_controls :
    let o : Options := { showTokens := true, json := true }
    let quoted := "1\"\\\n\x00+1"
    o.json = true ∧ o.Selects {} ∧ ∃ first second : String,
      (evaluateAll o [quoted, "(3"]).output = String.join [first ++ "\n", second ++ "\n"] ∧
      (∃ v, Json.parseWith Json.Numeral.nearest? first = .ok v ∧
        v.member? "expression" = some (.string quoted) ∧ v.member? "error" = none ∧
        ∃ s, v.member? "value" = some (.string s) ∧
          Binary64.ofNumeral? s.toList = some (.ofNat 2)) ∧
      ∃ v, Json.parseWith Json.Numeral.nearest? second = .ok v ∧ v.member? "value" = none ∧
        v.member? "error" =
          some (.string "Unbalanced parentheses: '(' at token 0 is never closed") := by
  intro o quoted
  have hselects : o.Selects {} := ⟨rfl, rfl⟩
  have hsum : evaluateExpression {} quoted = .ok (.ofNat 2) := by decide +kernel
  have hopen : evaluateExpression {} "(3" = .error (.unbalanced (.unclosed 0)) := by
    decide +kernel
  obtain ⟨lines, houtput, -, -, hlines⟩ := evaluateAll_jsonLines rfl hselects [quoted, "(3"]
  cases hlines with
  | @cons _ first _ _ hfirst hrest =>
    cases hrest with
    | @cons _ second _ _ hsecond hnone =>
      cases hnone
      obtain ⟨v, hread, htells⟩ := hfirst
      obtain ⟨w, hread', htells'⟩ := hsecond
      obtain ⟨hvalue, hnumeral, herror⟩ := htells.value _ hsum
      obtain ⟨hvalue', herror'⟩ := htells'.error _ hopen
      exact ⟨rfl, hselects, first, second, houtput,
        ⟨v, hread, htells.expression, herror, _, hvalue, hnumeral⟩,
        w, hread', hvalue', herror'⟩

end PocketCalc.CommandLine
