import PocketCalc.CommandLine.Input
import PocketCalc.CommandLine.Report

/-!
# Running the calculator

A run reports every expression in order and independently of the others, and ends with a count of
those that failed, if any did.
-/

namespace PocketCalc.CommandLine

/-- What a run leaves behind: the exit code and the texts of the two streams. -/
structure Outcome where
  exitCode : Nat
  output : String
  errors : String
deriving DecidableEq, Repr

/-- The number of reports that are failures, in a counter of 32 bits with a sign, which wraps
around. -/
def countFailures (reports : List Report) : Int32 :=
  reports.foldl (fun failures r ↦ if r.isFailure then failures + 1 else failures) 0

/-- The line that counts the failures, if the counter says that there are any. -/
def failureSummary (failures : Int32) (total : Nat) : String :=
  if 0 < failures then
    Report.line s!"Error: {failures} of {total} expressions failed to evaluate"
  else ""

/-- The outcome of evaluating expressions (`run`). -/
def evaluateAll (o : Options) (expressions : List String) : Outcome :=
  let reports := expressions.map (Report.ofExpression o.mode)
  let failures := countFailures reports
  { exitCode := if 0 < failures then 1 else 0
    output := String.join (reports.map (Report.output o))
    errors := String.join (reports.map (Report.errors o)) ++
      failureSummary failures expressions.length }

/-- The outcome for an input that is not valid UTF-8. -/
def unreadableInput : Outcome :=
  { exitCode := 1
    output := ""
    errors := "Error: failed to read expression from stdin\n\nCaused by:\n    stream did not contain valid UTF-8\n" }

/-- Whether the input has to be read. -/
def Command.needsInput : Command → Bool
  | evaluate o => o.expressions.isEmpty
  | _ => false

/-- The name and version of the program. -/
def versionText : String := "infix-calc 0.1.0\n"

/-- The outcome of a command, given the input. -/
def Command.execute (input : ByteArray) : Command → Outcome
  | version => ⟨0, versionText, ""⟩
  | evaluate o =>
    if o.expressions.isEmpty then
      match expressionsOfInput? input with
      | some expressions => evaluateAll o expressions
      | none => unreadableInput
    else evaluateAll o o.expressions

end PocketCalc.CommandLine
