import Lox.Clock
import Lox.CommandLine
import Lox.Decimal.Shortest
import Lox.Directory
import Lox.Evaluation
import Lox.Highlight
import Lox.Interpreter
import Lox.Listing
import Lox.Main
import Lox.Number
import Lox.Operator
import Lox.Parser.Error
import Lox.Parser.Expression
import Lox.Parser.State
import Lox.Parser.Statement
import Lox.Piece
import Lox.Program
import Lox.Prompt.Command
import Lox.Prompt.Entry
import Lox.Prompt.Loop
import Lox.Proofs.CallLimit
import Lox.Proofs.Evaluation.Alike
import Lox.Proofs.Evaluation.Fixed
import Lox.Proofs.Evaluation.Later
import Lox.Proofs.Evaluation.Moment
import Lox.Proofs.Evaluation.Renaming
import Lox.Proofs.Evaluation.Simulation
import Lox.Proofs.Evaluation.WellFormed
import Lox.Proofs.ForLoop
import Lox.Proofs.ForLoop.Rounds
import Lox.Proofs.Grammar
import Lox.Proofs.Grammar.Lookahead
import Lox.Proofs.Grammar.Nesting
import Lox.Proofs.Grammar.Parts
import Lox.Proofs.Parts
import Lox.Proofs.Evaluation.Invariant
import Lox.Proofs.Evaluation.Names
import Lox.Proofs.Evaluation.Reached
import Lox.Proofs.Layout
import Lox.Proofs.Parser.Acceptance
import Lox.Proofs.Parser.Alike
import Lox.Proofs.Parser.Completeness.Expression
import Lox.Proofs.Parser.Completeness.Statement
import Lox.Proofs.Parser.Progress
import Lox.Proofs.Parser.Reading
import Lox.Proofs.Parser.Soundness.Expression
import Lox.Proofs.Parser.Soundness.Statement
import Lox.Proofs.Step
import Lox.RuntimeError
import Lox.Scan
import Lox.Settings
import Lox.Store
import Lox.Syntax
import Lox.Syntax.Outline
import Lox.Syntax.Printer
import Lox.Text.Blank
import Lox.Text.Digit
import Lox.Text.Lines
import Lox.Text.Printable
import Lox.Text.Quoted
import Lox.Token
import Lox.Value
import Lox.Proofs.Scan
import Lox.Proofs.Tokens
import Lox.Proofs.Grammar.Tokens
import Lox.Proofs.Session
import Lox.Proofs.Session.Work
import Lox.Proofs.Diagnostics
import Lox.Proofs.Number.Rounding
import Lox.Proofs.Number.Double
import Lox.Proofs.Lexical
import Lox.Proofs.Lexical.Longest
import Lox.Proofs.Lexical.Division
import Lox.Proofs.LoneExpression
import Lox.Proofs.Grammar.Brackets
import Lox.Proofs.Lexical.Cut
import Lox.Proofs.Entry
import Lox.Proofs.Session.Code
import Lox.Proofs.Supported
import Lox.Proofs.Evaluation.Reachable
import Lox.Proofs.Locality
import Lox.Proofs.Evaluation.Unwinding
import Lox.Proofs.Return
import Lox.Proofs.Parser.Consumption
import Lox.Proofs.Parser.Placement
import Lox.Proofs.Parser.Span
import Lox.Proofs.Parser.Tally
import Lox.Proofs.Blame
import Lox.Proofs.Recovery
import Lox.Proofs.CallDepth
import Lox.Proofs.Resolution
import Lox.Proofs.Termination.Settling
import Lox.Proofs.Termination
import Lox.Proofs.Lexical.Lines
import Lox.Proofs.Lexical.Respacing
import Lox.Proofs.Highlight
import Lox.Proofs.Highlight.Placement
import Lox.Proofs.Prompt
import Lox.Proofs.Indentation
import Lox.Proofs.Outline
import Lox.Proofs.Settings
import Lox.Proofs.Number.Shortest
import Lox.Proofs.Number.Text
import Lox.Proofs.Printing.Marks
import Lox.Proofs.Printing.Forms
import Lox.Proofs.Printing.Spelling
import Lox.Proofs.Printing
import Lox.Proofs.Parser.Look
import Lox.Proofs.Parser.Loop
import Lox.Proofs.Parser.Termination
import Lox.Proofs.Evaluation.Grounded
import Lox.Proofs.Evaluation.Occurrence
import Lox.Proofs.Scopes
