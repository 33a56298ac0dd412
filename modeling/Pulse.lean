import Pulse.Code.BackendError
import Pulse.Code.Instr
import Pulse.Code.Listing
import Pulse.Code.Lowering
import Pulse.Code.Symbols
import Pulse.Command.Compile
import Pulse.Command.FileTree
import Pulse.Command.Host
import Pulse.Command.Options
import Pulse.Command.Path
import Pulse.Compilation
import Pulse.Grammar.Expr
import Pulse.Grammar.Power
import Pulse.Grammar.Reader
import Pulse.Grammar.Stmt
import Pulse.Grammar.Table
import Pulse.Grammar.Tape
import Pulse.Log.Event
import Pulse.Main
import Pulse.Number.Binary64
import Pulse.Number.Digits
import Pulse.Number.Integer
import Pulse.Number.Layout
import Pulse.Number.Rounding
import Pulse.Number.Shortest
import Pulse.Proofs.CheckerSteps
import Pulse.Proofs.CheckerTree
import Pulse.Proofs.CheckerTyping
import Pulse.Proofs.CodeTyping
import Pulse.Proofs.FunctionSymbols
import Pulse.Proofs.LoweredCode
import Pulse.Proofs.LoweringSteps
import Pulse.Proofs.LoweringSupply
import Pulse.Proofs.Machine
import Pulse.Proofs.Preservation
import Pulse.Proofs.ProgramMeaning
import Pulse.Proofs.Resolved
import Pulse.Proofs.Simulation
import Pulse.Proofs.SourceMeaning
import Pulse.Proofs.TypedTree
import Pulse.Proofs.TypingRules
import Pulse.Source.Cursor
import Pulse.Source.Excerpt
import Pulse.Source.Position
import Pulse.Source.SyntaxError
import Pulse.Syntax.Expr
import Pulse.Syntax.Operator
import Pulse.Syntax.Stmt
import Pulse.Text.Bytes
import Pulse.Text.Hidden
import Pulse.Text.Lines
import Pulse.Text.Quoted
import Pulse.Text.WhiteSpace
import Pulse.Token.Basic
import Pulse.Token.Pattern
import Pulse.Token.Scan
import Pulse.Typing.Checker
import Pulse.Typing.Expr
import Pulse.Typing.Fault
import Pulse.Typing.Scope
import Pulse.Typing.Tree
import Pulse.Typing.Ty
import Pulse.Proofs.ScopeStorage
import Pulse.Proofs.RegisterUse
import Pulse.Proofs.ValueTyping
import Pulse.Proofs.MachineSafety
import Pulse.Proofs.Printing
import Pulse.Proofs.WordReading
import Pulse.Proofs.ExprReading
import Pulse.Proofs.ProgramReading
import Pulse.Proofs.LanguageRules
import Pulse.Proofs.Verdicts
import Pulse.Proofs.PhraseVerdicts
import Pulse.Proofs.ProgramVerdicts
import Pulse.Proofs.PhraseReading
import Pulse.Proofs.AcceptedLanguage
import Pulse.Proofs.Cuts
import Pulse.Proofs.Layouts
import Pulse.Proofs.Tiling
import Pulse.Proofs.ControlFlow
import Pulse.Proofs.CallOrder
import Pulse.Proofs.CommandRuns
import Pulse.Proofs.ConstantStores
import Pulse.Proofs.RootFaults
import Pulse.Proofs.Callability
import Pulse.Proofs.LayeredGrammar
import Pulse.Proofs.LayeredReading
import Pulse.Proofs.ErrorTokens
import Pulse.Proofs.LiteralTokens
import Pulse.Proofs.LongestMatch
import Pulse.Proofs.JoinedLines
import Pulse.Proofs.LexicalErrors
import Pulse.Proofs.ScanRounds
import Pulse.Proofs.Termination
import Pulse.Proofs.ErrorExcerpts
import Pulse.Proofs.ListingTexts
import Pulse.Proofs.LosslessListings
import Pulse.Proofs.ByteOffsets
import Pulse.Proofs.OutputPaths
import Pulse.Proofs.ScopeMaps
import Pulse.Proofs.TypeNames
