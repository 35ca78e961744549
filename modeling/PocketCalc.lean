import PocketCalc.Arithmetic
import PocketCalc.Binary64.Arithmetic
import PocketCalc.Binary64.Basic
import PocketCalc.Binary64.Round
import PocketCalc.CommandLine.Input
import PocketCalc.CommandLine.Options
import PocketCalc.CommandLine.Report
import PocketCalc.CommandLine.Run
import PocketCalc.Decimal.Basic
import PocketCalc.Decimal.Numeral
import PocketCalc.Decimal.Plain
import PocketCalc.Decimal.Scaled
import PocketCalc.Decimal.Shortest
import PocketCalc.Error
import PocketCalc.Evaluation
import PocketCalc.Json.Reader
import PocketCalc.Json.Value
import PocketCalc.Main
import PocketCalc.Mode
import PocketCalc.Operator
import PocketCalc.PostfixOrder
import PocketCalc.Stack
import PocketCalc.Token.Basic
import PocketCalc.Token.Json
import PocketCalc.Token.Lexer
import PocketCalc.Proofs.PostfixOrder.Parentheses
import PocketCalc.Proofs.Expression.Grammar
import PocketCalc.Proofs.PostfixOrder.Precedence
import PocketCalc.Proofs.Evaluation.Run
import PocketCalc.Proofs.Expression.OperatorTree
import PocketCalc.Proofs.Expression.Share
import PocketCalc.Proofs.PostfixOrder.Conservation
import PocketCalc.Proofs.Evaluation.Depth
import PocketCalc.Proofs.Evaluation.ErrorSurface
import PocketCalc.Proofs.PostfixOrder.Group
import PocketCalc.Proofs.Evaluation.Settings
import PocketCalc.Proofs.CommandLine.Batch
import PocketCalc.Proofs.Decimal.PlainNumeral
import PocketCalc.Proofs.Token.Render
import PocketCalc.Proofs.Expression.Juxtaposition
import PocketCalc.Proofs.PostfixOrder.Delay
import PocketCalc.Proofs.Expression.PercentFactor
import PocketCalc.Proofs.Binary64.Nearest
import PocketCalc.Proofs.Binary64.Order
import PocketCalc.Proofs.Binary64.Display
import PocketCalc.Proofs.Binary64.Hundredths
import PocketCalc.Proofs.Decimal.Literal
import PocketCalc.Proofs.Token.Feeding
import PocketCalc.Proofs.Binary64.Remainder
import PocketCalc.Proofs.CommandLine.StandardInput
import PocketCalc.Proofs.Json.Escape
import PocketCalc.Proofs.Json.Numeral
import PocketCalc.Proofs.Json.Value
import PocketCalc.Proofs.Token.Json
import PocketCalc.Proofs.CommandLine.JsonLines
import PocketCalc.Proofs.Json.Scaled
import PocketCalc.Proofs.Evaluation.Frame
import PocketCalc.Proofs.PostfixOrder.Layers
import PocketCalc.Proofs.Stack.InPlace
