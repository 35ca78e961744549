import PocketCalc.CommandLine.Options
import PocketCalc.Evaluation
import PocketCalc.Token.Json

/-!
# Reports

The report of an expression holds its tokens, their postfix order and its value, each as far as it
exists. It is shown either as lines of text, failures going to a stream of their own, or as one line
of JSON.
-/

namespace PocketCalc.CommandLine

/-- What is known of an expression. -/
structure Report where
  expression : String
  tokens : List Token
  reordered : Except ParenthesisError (List Token)
  result : Except EvaluationError Binary64

namespace Report

/-- The report of an expression (`report`). -/
def ofExpression (mode : Mode) (expression : String) : Report :=
  let tokens := tokenize expression
  let reordered := toPostfix tokens
  ⟨expression, tokens, reordered, evaluateReordered mode reordered⟩

/-- Whether the expression has no value. -/
def isFailure (r : Report) : Bool :=
  match r.result with
  | .ok _ => false
  | .error _ => true

/-- The tokens, if they are asked for. -/
def shownTokens? (o : Options) (r : Report) : Option (List Token) :=
  if o.showTokens then some r.tokens else none

/-- The tokens in postfix order, if they are asked for and there are such. -/
def shownPostfix? (o : Options) (r : Report) : Option (List Token) :=
  if o.showPostfix then r.reordered.toOption else none

/-- A line of text. -/
def line (text : String) : String := text ++ "\n"

/-- The lines of tokens under a heading, if they are shown. -/
def tokenLines (heading : String) : Option (List Token) → String
  | some tokens => line (heading ++ Token.render tokens)
  | none => ""

/-- The lines on the output (`print_report`). -/
def outputLines (o : Options) (r : Report) : String :=
  tokenLines "tokens:  " (r.shownTokens? o) ++ tokenLines "postfix: " (r.shownPostfix? o) ++
    match r.result with
    | .ok value => line value.plain
    | .error _ => ""

/-- The lines on the stream of failures (`print_report`). -/
def errorLines (r : Report) : String :=
  match r.result with
  | .ok _ => ""
  | .error e => line ("error: " ++ r.expression ++ ": " ++ e.message)

/-- A member of a JSON object with tokens, if they are shown. -/
def tokenMembers (name : String) : Option (List Token) → List (String × Json.Value)
  | some tokens => [(name, Token.listToJson tokens)]
  | none => []

/-- The member of a JSON object with the outcome: the plain text of the value, or what is wrong. -/
def resultMember (r : Report) : String × Json.Value :=
  match r.result with
  | .ok value => ("value", .string value.plain)
  | .error e => ("error", .string e.message)

/-- The report as a JSON object. -/
def toJson (o : Options) (r : Report) : Json.Value :=
  .object (("expression", .string r.expression) ::
    (tokenMembers "tokens" (r.shownTokens? o) ++
      (tokenMembers "postfix" (r.shownPostfix? o) ++ [r.resultMember])))

/-- What the report writes on the output. -/
def output (o : Options) (r : Report) : String :=
  if o.json then line (r.toJson o).text else r.outputLines o

/-- What the report writes on the stream of failures. -/
def errors (o : Options) (r : Report) : String :=
  if o.json then "" else r.errorLines

end Report

end PocketCalc.CommandLine
