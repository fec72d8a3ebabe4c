import PocketCompiler.Main
import PocketCompiler.Proofs.Ends
import PocketCompiler.Proofs.Lower.Expr
import PocketCompiler.Proofs.Lower.Stmt
import PocketCompiler.Proofs.Lower.Total
import PocketCompiler.Proofs.Grammar.State
import PocketCompiler.Proofs.Grammar.Expr
import PocketCompiler.Proofs.Grammar.Declarator
import PocketCompiler.Proofs.Grammar.Stmt
import PocketCompiler.Proofs.Compile
import PocketCompiler.Proofs.Machine
import PocketCompiler.Proofs.Evaluation
import PocketCompiler.Proofs.Lower.Correct
import PocketCompiler.Proofs.Jump
import PocketCompiler.Proofs.Lower.Labels
import PocketCompiler.Proofs.Structured
import PocketCompiler.Proofs.Lower.ControlFlow
import PocketCompiler.Proofs.ControlFlow
import PocketCompiler.Proofs.Lower.Balance
import PocketCompiler.Proofs.StackDiscipline
import PocketCompiler.Proofs.Lower.Typed
import PocketCompiler.Proofs.Grammar.Run
import PocketCompiler.Proofs.Grammar.Rule
import PocketCompiler.Proofs.Grammar.Derivation
import PocketCompiler.Proofs.Grammar.Progress
import PocketCompiler.Proofs.Grammar.Readers
import PocketCompiler.Proofs.Grammar.Scaling
import PocketCompiler.Proofs.Token.Spelling
import PocketCompiler.Proofs.Printing
import PocketCompiler.Proofs.Grammar.RoundTrip
import PocketCompiler.Proofs.Grammar.Resolver
import PocketCompiler.Proofs.Grammar.Scoping
import PocketCompiler.Proofs.Grammar.Resolution
import PocketCompiler.Proofs.Grammar.Checks
import PocketCompiler.Proofs.Grammar.Undefined
import PocketCompiler.Proofs.LexicalScoping
import PocketCompiler.Proofs.Grammar.Language
import PocketCompiler.Proofs.Grammar.Lookahead
import PocketCompiler.Proofs.Grammar.Productions
import PocketCompiler.Proofs.Grammar.Leaves
import PocketCompiler.Proofs.Grammar.Operands
import PocketCompiler.Proofs.Grammar.AcceptsExpr
import PocketCompiler.Proofs.Grammar.Settled
import PocketCompiler.Proofs.Grammar.Accepts
import PocketCompiler.Proofs.Token.Decomposition
import PocketCompiler.Proofs.SyntaxErrors
import PocketCompiler.Proofs.Grammar.Naming
import PocketCompiler.Proofs.Symbols
import PocketCompiler.Proofs.ConstantFolding
import PocketCompiler.Proofs.Moved
import PocketCompiler.Proofs.Grammar.Rewording
import PocketCompiler.Proofs.Grammar.Lockstep
import PocketCompiler.Proofs.Layout
import PocketCompiler.Proofs.Appending
import PocketCompiler.Proofs.Grammar.Mentions
import PocketCompiler.Proofs.Renaming
import PocketCompiler.Proofs.FrameLayout
import PocketCompiler.Proofs.Grammar.Inversion
import PocketCompiler.Proofs.Encoding
import PocketCompiler.Proofs.Grammar.Declared
import PocketCompiler.Proofs.Machine.Flat
import PocketCompiler.Proofs.Parameters
import PocketCompiler.Proofs.Grammar.Literals
import PocketCompiler.Proofs.Grammar.Globals
import PocketCompiler.Proofs.DataImage
import PocketCompiler.Proofs.EarlyTyping
import PocketCompiler.Proofs.Token.LiteralEncoding
import PocketCompiler.Proofs.StringLiterals
import PocketCompiler.Proofs.ArrayIndexing
import PocketCompiler.Proofs.SyntacticSugar
import PocketCompiler.Proofs.Reports
import PocketCompiler.Proofs.AssignedValue
import PocketCompiler.Proofs.Grammar.Likeness
import PocketCompiler.Proofs.EndOfInput
import PocketCompiler.Proofs.Grammar.Settling
import PocketCompiler.Proofs.Grammar.Looping
import PocketCompiler.Proofs.LoopBodies
import PocketCompiler.Proofs.FinalNewline
import PocketCompiler.Proofs.CommandLine
