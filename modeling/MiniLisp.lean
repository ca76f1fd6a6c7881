import MiniLisp.CallStack
import MiniLisp.CommandLine
import MiniLisp.CommandLine.Arguments
import MiniLisp.CommandLine.Flag
import MiniLisp.CommandLine.Number
import MiniLisp.Env
import MiniLisp.Eval
import MiniLisp.Eval.Operation
import MiniLisp.Eval.Outcome
import MiniLisp.Failure
import MiniLisp.Interning
import MiniLisp.Interpreter
import MiniLisp.Main
import MiniLisp.Proofs.Arithmetic
import MiniLisp.Proofs.Balance
import MiniLisp.Proofs.CaseFolding
import MiniLisp.Proofs.CaselessReading
import MiniLisp.Proofs.CaselessTokens
import MiniLisp.Proofs.ClosureCall
import MiniLisp.Proofs.Completable
import MiniLisp.Proofs.CompletionWalk
import MiniLisp.Proofs.CrashFreedom
import MiniLisp.Proofs.DepthLimit
import MiniLisp.Proofs.Encoding
import MiniLisp.Proofs.Environments
import MiniLisp.Proofs.Evaluation
import MiniLisp.Proofs.FollowingText
import MiniLisp.Proofs.Formatting
import MiniLisp.Proofs.GrammarRules
import MiniLisp.Proofs.GrammarWalk
import MiniLisp.Proofs.Incomplete
import MiniLisp.Proofs.IncompleteAgreement
import MiniLisp.Proofs.Inheritance
import MiniLisp.Proofs.Instances
import MiniLisp.Proofs.Isolation
import MiniLisp.Proofs.LaterLine
import MiniLisp.Proofs.Lexing
import MiniLisp.Proofs.Lines
import MiniLisp.Proofs.ListViews
import MiniLisp.Proofs.LiteralPattern
import MiniLisp.Proofs.Literals
import MiniLisp.Proofs.LocatedFaults
import MiniLisp.Proofs.Locations
import MiniLisp.Proofs.NestingLimit
import MiniLisp.Proofs.Noninterference
import MiniLisp.Proofs.OpenText
import MiniLisp.Proofs.PlainText
import MiniLisp.Proofs.RaisedStack
import MiniLisp.Proofs.ReadBack
import MiniLisp.Proofs.ReadValues
import MiniLisp.Proofs.ReaderAgreement
import MiniLisp.Proofs.ReaderSimulation
import MiniLisp.Proofs.Record
import MiniLisp.Proofs.Relaxation
import MiniLisp.Proofs.RoundTrip
import MiniLisp.Proofs.Safety
import MiniLisp.Proofs.SessionBuffer
import MiniLisp.Proofs.SessionRun
import MiniLisp.Proofs.Spelling
import MiniLisp.Proofs.StackBound
import MiniLisp.Proofs.Suggestions
import MiniLisp.Proofs.SurplusArguments
import MiniLisp.Proofs.TokenGrammar
import MiniLisp.Proofs.TokenLayout
import MiniLisp.Proofs.UpperCase
import MiniLisp.Proofs.WalkFrame
import MiniLisp.Reader
import MiniLisp.Reader.Completion
import MiniLisp.Reader.Fault
import MiniLisp.Reader.Grammar
import MiniLisp.Reader.Nesting
import MiniLisp.Reader.Scannerless
import MiniLisp.Reader.Tokens
import MiniLisp.Session
import MiniLisp.Sink
import MiniLisp.Source.Location
import MiniLisp.Suggestion
import MiniLisp.Symbol
import MiniLisp.Terminal
import MiniLisp.Text.Blank
import MiniLisp.Text.Bytes
import MiniLisp.Text.Diagnostic
import MiniLisp.Text.Glyph
import MiniLisp.Text.LetterCase
import MiniLisp.Text.Literal
import MiniLisp.Text.Printable
import MiniLisp.Token
import MiniLisp.Token.Lexer
import MiniLisp.Token.Scanner
import MiniLisp.Value
import MiniLisp.Value.Printer
import MiniLisp.Value.Spine
