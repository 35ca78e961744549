import PocketCalc.Mode

/-!
# Command-line arguments

Arguments are read from left to right; the first one that is wrong rejects them all, and a request
for the version or for help answers at once. Long flags start with two dashes, short ones with one
and may be joined (`-vv`). Whatever is no flag is an expression, as are a dash alone and all
arguments after two dashes alone. How much is logged (`-v`) has no part in what is computed.
-/

namespace PocketCalc.CommandLine

/-- What the arguments ask for (`Cli`); the switches are off and the percent reading is open at
first. -/
structure Options where
  percent : Option PercentPolicy := none
  raw : Bool := false
  showTokens : Bool := false
  showPostfix : Bool := false
  json : Bool := false
  expressions : List String := []
deriving DecidableEq, Repr

namespace Options

/-- The mode of the calculation (`calculation_mode`). -/
def mode (o : Options) : Mode := .ofSettings (o.percent.getD .contextual) o.raw

/-- The options with more expressions after those there are. -/
def addExpressions (o : Options) (expressions : List String) : Options :=
  { o with expressions := o.expressions ++ expressions }

end Options

/-- What a command line asks for. -/
inductive Command where
  | version
  | evaluate (options : Options)
deriving DecidableEq, Repr

/-- Why nothing is executed: help is asked for, or an argument is wrong. -/
inductive UsageError where
  | helpRequested
  | unknownFlag (flag : String)
  | repeatedFlag (flag : String)
  | unexpectedValue (flag : String)
  | missingValue (flag : String)
  | invalidValue (value : String)
deriving DecidableEq, Repr

/-- The exit code when nothing is executed. -/
def UsageError.exitCode : UsageError → Nat
  | helpRequested => 0
  | _ => 2

/-- The state after one argument: more arguments may follow, or the answer is known. -/
inductive Progress where
  | going (options : Options)
  | done (command : Command)
deriving DecidableEq, Repr

/-- The switches that may be given once. -/
inductive Switch where
  | raw
  | showTokens
  | showPostfix
  | json
deriving DecidableEq, Repr

namespace Switch

/-- The long flag of a switch. -/
def flag : Switch → String
  | raw => "--raw"
  | showTokens => "--show-tokens"
  | showPostfix => "--show-postfix"
  | json => "--json"

/-- The switch of a long flag. -/
def ofFlag? (text : String) : Option Switch :=
  [raw, showTokens, showPostfix, json].find? fun s ↦ s.flag = text

/-- Whether a switch is on. -/
def isOn (s : Switch) (o : Options) : Bool :=
  match s with
  | raw => o.raw
  | showTokens => o.showTokens
  | showPostfix => o.showPostfix
  | json => o.json

/-- The options with a switch on. -/
def turnOn (s : Switch) (o : Options) : Options :=
  match s with
  | raw => { o with raw := true }
  | showTokens => { o with showTokens := true }
  | showPostfix => { o with showPostfix := true }
  | json => { o with json := true }

/-- A switch that was turned on is on. -/
theorem isOn_turnOn (s : Switch) (o : Options) : s.isOn (s.turnOn o) = true := by
  cases s <;> rfl

/-- Every switch is found by its own flag. -/
theorem ofFlag?_flag (s : Switch) : ofFlag? s.flag = some s := by
  cases s <;> decide

end Switch

namespace Options

/-- The options after a switch, which may be given once. -/
def applySwitch (o : Options) (s : Switch) : Except UsageError Options :=
  if s.isOn o then .error (.repeatedFlag s.flag) else .ok (s.turnOn o)

/-- The percent policy of a word. -/
def policyOfWord? (word : String) : Option PercentPolicy :=
  if word = "contextual" then some .contextual
  else if word = "remainder" then some .remainder
  else none

/-- The options after a percent flag with its value, which may be given once. -/
def applyPercent (o : Options) (value : String) : Except UsageError Options :=
  match policyOfWord? value, o.percent with
  | none, _ => .error (.invalidValue value)
  | some _, some _ => .error (.repeatedFlag "--percent")
  | some policy, none => .ok { o with percent := some policy }

/-- The options after a long flag other than `--percent`. -/
def applyLong (o : Options) (flag : String) : Except UsageError Progress :=
  if flag = "--version" then .ok (.done .version)
  else if flag = "--help" then .error .helpRequested
  else if flag = "--verbose" then .ok (.going o)
  else match Switch.ofFlag? flag with
    | some s => (o.applySwitch s).map .going
    | none => .error (.unknownFlag flag)

/-- The options after joined short flags. -/
def applyShort (o : Options) : List Char → Except UsageError Progress
  | [] => .ok (.going o)
  | 'v' :: rest => o.applyShort rest
  | 'V' :: _ => .ok (.done .version)
  | 'h' :: _ => .error .helpRequested
  | c :: _ => .error (.unknownFlag (.ofList ['-', c]))

/-- A long flag and its value after an equals sign, if there is one. -/
def splitValue (cs : List Char) : String × Option String :=
  match cs.dropWhile (· ≠ '=') with
  | [] => (.ofList cs, none)
  | _ :: value => (.ofList (cs.takeWhile (· ≠ '=')), some (.ofList value))

/-- Whether an argument is a flag: it starts with a dash and is more than the dash. -/
def isFlag (arg : String) : Bool :=
  match arg.toList with
  | '-' :: _ :: _ => true
  | _ => false

/-- The options after an argument other than two dashes alone, `--percent` and its value. -/
def applyArgument (o : Options) (arg : String) : Except UsageError Progress :=
  match arg.toList with
  | '-' :: '-' :: _ =>
    match splitValue arg.toList with
    | (flag, none) => o.applyLong flag
    | (flag, some value) =>
      if flag = "--percent" then (o.applyPercent value).map .going
      else match o.applyLong flag with
        | .ok _ | .error .helpRequested => .error (.unexpectedValue flag)
        | .error e => .error e
  | '-' :: c :: cs => o.applyShort (c :: cs)
  | _ => .ok (.going (o.addExpressions [arg]))

/-- What the arguments ask for, given the options before them. -/
def parseFrom (o : Options) : List String → Except UsageError Command
  | [] => .ok (.evaluate o)
  | arg :: rest =>
    if arg = "--" then .ok (.evaluate (o.addExpressions rest))
    else if arg = "--percent" then
      match rest with
      | [] => .error (.missingValue arg)
      | value :: rest =>
        if isFlag value then .error (.missingValue arg)
        else match o.applyPercent value with
          | .ok o => o.parseFrom rest
          | .error e => .error e
    else match o.applyArgument arg with
      | .ok (.going o) => o.parseFrom rest
      | .ok (.done command) => .ok command
      | .error e => .error e

end Options

/-- What the arguments ask for. -/
def Command.parse (args : List String) : Except UsageError Command := ({} : Options).parseFrom args

end PocketCalc.CommandLine
