import DeskCalculator.AngleMode
import DeskCalculator.Binary64
import DeskCalculator.Canonical
import DeskCalculator.Canonical.Literal
import DeskCalculator.Canonical.Named
import DeskCalculator.Canonical.TrigCall
import DeskCalculator.Character.Alphabetic
import DeskCalculator.Character.Alphanumeric
import DeskCalculator.Character.CodeRanges
import DeskCalculator.Character.DecimalDigit
import DeskCalculator.Character.HexDigit
import DeskCalculator.Character.WhiteSpace
import DeskCalculator.Character.Word
import DeskCalculator.Decimal
import DeskCalculator.Decimal.Rounding
import DeskCalculator.Decimal.Shortest
import DeskCalculator.Display
import DeskCalculator.Evaluation
import DeskCalculator.Expr
import DeskCalculator.Expr.OfPostfixOrder
import DeskCalculator.Factorial
import DeskCalculator.Fault
import DeskCalculator.Log.Filter
import DeskCalculator.Log.Line
import DeskCalculator.Log.Pattern
import DeskCalculator.Log.Pattern.Escape
import DeskCalculator.Log.Pattern.Set
import DeskCalculator.Main
import DeskCalculator.Numeral
import DeskCalculator.Operation
import DeskCalculator.PostfixOrder
import DeskCalculator.Proofs.Answer
import DeskCalculator.Proofs.Binary64.Arithmetic
import DeskCalculator.Proofs.Binary64.Bits
import DeskCalculator.Proofs.Binary64.Nearest
import DeskCalculator.Proofs.Binary64.NotANumber
import DeskCalculator.Proofs.Binary64.Order
import DeskCalculator.Proofs.Binary64.Rounding
import DeskCalculator.Proofs.Call
import DeskCalculator.Proofs.Canonical.AngleModes
import DeskCalculator.Proofs.Canonical.Calls
import DeskCalculator.Proofs.Canonical.Expansion
import DeskCalculator.Proofs.Canonical.FunctionCall
import DeskCalculator.Proofs.Canonical.Leaves
import DeskCalculator.Proofs.Canonical.Literal
import DeskCalculator.Proofs.Canonical.LiteralSigns
import DeskCalculator.Proofs.Canonical.Percent
import DeskCalculator.Proofs.Canonical.Powers
import DeskCalculator.Proofs.Canonical.Separators
import DeskCalculator.Proofs.Canonical.Tally
import DeskCalculator.Proofs.Canonical.Text
import DeskCalculator.Proofs.Canonical.TrigCall
import DeskCalculator.Proofs.Canonical.Unmatched
import DeskCalculator.Proofs.Canonical.Words
import DeskCalculator.Proofs.Checked.Evaluation
import DeskCalculator.Proofs.Checked.Lexer
import DeskCalculator.Proofs.Checked.Matching
import DeskCalculator.Proofs.Checked.Nesting
import DeskCalculator.Proofs.Checked.Range
import DeskCalculator.Proofs.Checked.TrigCall
import DeskCalculator.Proofs.Composition
import DeskCalculator.Proofs.Decimal.Layout
import DeskCalculator.Proofs.Decimal.Rounding
import DeskCalculator.Proofs.Decimal.Shortest
import DeskCalculator.Proofs.Decimal.Significant
import DeskCalculator.Proofs.Decimal.Value
import DeskCalculator.Proofs.Display
import DeskCalculator.Proofs.Display.Layout
import DeskCalculator.Proofs.Evaluation
import DeskCalculator.Proofs.Except
import DeskCalculator.Proofs.Expr.Calls
import DeskCalculator.Proofs.Expr.Height
import DeskCalculator.Proofs.Expr.Leaves
import DeskCalculator.Proofs.Expr.Listing
import DeskCalculator.Proofs.Expr.NegatedExponents
import DeskCalculator.Proofs.Expr.Normal
import DeskCalculator.Proofs.Expr.OfParseTree
import DeskCalculator.Proofs.Expr.Value
import DeskCalculator.Proofs.Formula
import DeskCalculator.Proofs.Grammar
import DeskCalculator.Proofs.ModeAgreement
import DeskCalculator.Proofs.NumberText
import DeskCalculator.Proofs.Numeral
import DeskCalculator.Proofs.Outcome
import DeskCalculator.Proofs.PercentCall
import DeskCalculator.Proofs.PostfixOrder.Pending
import DeskCalculator.Proofs.PostfixOrder.Places
import DeskCalculator.Proofs.PostfixOrder.Progress
import DeskCalculator.Proofs.PostfixOrder.Reading
import DeskCalculator.Proofs.Settings
import DeskCalculator.Proofs.StackMachine
import DeskCalculator.Proofs.Token.Lexer
import DeskCalculator.Proofs.Token.LongestMatch
import DeskCalculator.Proofs.Token.Text
import DeskCalculator.Proofs.Window
import DeskCalculator.Proofs.Window.Display
import DeskCalculator.Proofs.Window.History
import DeskCalculator.Proofs.Window.HistoryLimit
import DeskCalculator.Proofs.Window.Recall
import DeskCalculator.Proofs.Window.Run
import DeskCalculator.Proofs.Window.WholeAnswer
import DeskCalculator.Rule
import DeskCalculator.Session
import DeskCalculator.Settings
import DeskCalculator.Settings.File
import DeskCalculator.Settings.OfToml
import DeskCalculator.Startup
import DeskCalculator.Token
import DeskCalculator.Token.Lexer
import DeskCalculator.Toml.Document
import DeskCalculator.Toml.Item
import DeskCalculator.Toml.Lexical
import DeskCalculator.Toml.Scalar
import DeskCalculator.Vocabulary
import DeskCalculator.Window
import DeskCalculator.Proofs.Factorial
