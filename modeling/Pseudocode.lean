import Pseudocode.Span
import Pseudocode.Text.Align
import Pseudocode.Text.Blank
import Pseudocode.Text.Bytes
import Pseudocode.Text.Invisible
import Pseudocode.Text.Position
import Pseudocode.Text.Quoted
import Pseudocode.Text.Word
import Pseudocode.Number.Binary
import Pseudocode.Number.Decimal
import Pseudocode.Token
import Pseudocode.Value
import Pseudocode.Error
import Pseudocode.Token.Lexer
import Pseudocode.Token.Stream
import Pseudocode.Program
import Pseudocode.Program.Parser
import Pseudocode.Program.Outline
import Pseudocode.Builtin
import Pseudocode.Scope
import Pseudocode.Evaluation.Machine
import Pseudocode.Evaluation.Operator
import Pseudocode.Evaluation
import Pseudocode.Interpreter
import Pseudocode.Diagnostic
import Pseudocode.Diagnostic.Json
import Pseudocode.Diagnostic.Render
import Pseudocode.Suggestion.Distance
import Pseudocode.Suggestion
import Pseudocode.CommandLine.Choice
import Pseudocode.CommandLine.Resemblance
import Pseudocode.CommandLine.Arguments
import Pseudocode.CommandLine.Reply
import Pseudocode.Main
import Pseudocode.Proofs.Stream
import Pseudocode.Proofs.Reading
import Pseudocode.Proofs.Grammar
import Pseudocode.Proofs.ParserSoundness
import Pseudocode.Proofs.ParserCompleteness
import Pseudocode.Proofs.Scopes
import Pseudocode.Proofs.Framing
import Pseudocode.Proofs.Simulation
import Pseudocode.Proofs.Session
import Pseudocode.Proofs.InPlace
import Pseudocode.Proofs.Isolation
import Pseudocode.Proofs.Failure
import Pseudocode.Proofs.Termination
import Pseudocode.Proofs.Lexing
import Pseudocode.Proofs.Provenance
import Pseudocode.Proofs.Spans
import Pseudocode.Proofs.Phases
import Pseudocode.Proofs.Coverage
import Pseudocode.Proofs.Layout
import Pseudocode.Proofs.LongestMatch
import Pseudocode.Proofs.Printing
import Pseudocode.Proofs.Lockstep
import Pseudocode.Proofs.Counterpart
import Pseudocode.Proofs.Rereading
import Pseudocode.Proofs.Respelling
import Pseudocode.Proofs.Leakage
import Pseudocode.Proofs.Moved
import Pseudocode.Proofs.Seam
import Pseudocode.Proofs.Doubles
import Pseudocode.Proofs.Rounding
import Pseudocode.Proofs.Shortest
import Pseudocode.Proofs.ReadBack
import Pseudocode.Proofs.Parentheses
import Pseudocode.Proofs.Activity
import Pseudocode.Proofs.CallDepth
import Pseudocode.Proofs.Scanner
import Pseudocode.Proofs.TokensAtWork
import Pseudocode.Proofs.Safety
import Pseudocode.Proofs.Pinpoint
import Pseudocode.Proofs.WriteSet
import Pseudocode.Proofs.DeadCode
import Pseudocode.Proofs.StuckLoop
import Pseudocode.Proofs.Excerpt
import Pseudocode.Proofs.SpanSlices
import Pseudocode.Proofs.EditScripts
import Pseudocode.Proofs.Positions
import Pseudocode.Proofs.DrawnLines
import Pseudocode.Proofs.CaretRows
import Pseudocode.Proofs.Colours
import Pseudocode.Proofs.Offsets
import Pseudocode.Proofs.Comparing
import Pseudocode.Proofs.Ranking
import Pseudocode.Proofs.Cursor
import Pseudocode.Proofs.Descent
import Pseudocode.Proofs.NestingDepth
