import InfixArithmetic.Arithmetic.Factorial
import InfixArithmetic.Arithmetic.Fibonacci
import InfixArithmetic.Binary64
import InfixArithmetic.CommandLine
import InfixArithmetic.Decimal.Numeral
import InfixArithmetic.Decimal.Positional
import InfixArithmetic.Decimal.Shortest
import InfixArithmetic.Dialogue
import InfixArithmetic.Evaluation
import InfixArithmetic.Expression.Basic
import InfixArithmetic.Expression.Outline
import InfixArithmetic.Expression.Postfix
import InfixArithmetic.Failure
import InfixArithmetic.Grammar
import InfixArithmetic.Main
import InfixArithmetic.Mode
import InfixArithmetic.Operation
import InfixArithmetic.Operator
import InfixArithmetic.Parsing.Climbing
import InfixArithmetic.Parsing.Cursor
import InfixArithmetic.Parsing.Progress
import InfixArithmetic.Parsing.Yard
import InfixArithmetic.Program
import InfixArithmetic.Report
import InfixArithmetic.Text.Blank
import InfixArithmetic.Text.Invisible
import InfixArithmetic.Text.Pieces
import InfixArithmetic.Text.Quoted
import InfixArithmetic.Text.Spacing
import InfixArithmetic.Text.Words
import InfixArithmetic.Token
import InfixArithmetic.Proofs.Precedence
import InfixArithmetic.Proofs.TieNecessity
import InfixArithmetic.Proofs.Acceptance
import InfixArithmetic.Proofs.Emission
import InfixArithmetic.Proofs.Nesting
import InfixArithmetic.Proofs.SquareWords
import InfixArithmetic.Proofs.Squares
import InfixArithmetic.Proofs.SquareReading
import InfixArithmetic.Proofs.Height
import InfixArithmetic.Proofs.Balance
import InfixArithmetic.Proofs.Transcripts
import InfixArithmetic.Proofs.Reporting
import InfixArithmetic.Proofs.UniqueReading
import InfixArithmetic.Proofs.Legibility
import InfixArithmetic.Proofs.ReportLines
import InfixArithmetic.Proofs.GluedSquares
import InfixArithmetic.Proofs.Enclosure
import InfixArithmetic.Proofs.Groups
import InfixArithmetic.Proofs.Replacement
import InfixArithmetic.Proofs.FirstFault
import InfixArithmetic.Proofs.StackMachine
import InfixArithmetic.Proofs.NormalForm
import InfixArithmetic.Proofs.Reuse
import InfixArithmetic.Proofs.PrintedNumbers
import InfixArithmetic.Proofs.Drawing
import InfixArithmetic.Proofs.MissingOperators
import InfixArithmetic.Proofs.Registration
import InfixArithmetic.Proofs.FloorsInForce
import InfixArithmetic.Proofs.DoubleValues
import InfixArithmetic.Proofs.Factorials
