import StackToolchain.Alu
import StackToolchain.Assembly.Image
import StackToolchain.Assembly.Labels
import StackToolchain.Assembly.Layout
import StackToolchain.Assembly.Listing
import StackToolchain.Assembly.Program
import StackToolchain.Assembly.Report
import StackToolchain.Command.Assemble
import StackToolchain.Command.Compile
import StackToolchain.Command.Dispatch
import StackToolchain.Command.Emulate
import StackToolchain.Command.Options
import StackToolchain.Command.Script
import StackToolchain.Compiler.Compile
import StackToolchain.Compiler.Error
import StackToolchain.Compiler.Expression
import StackToolchain.Compiler.Frame
import StackToolchain.Compiler.Generate
import StackToolchain.Compiler.Scope
import StackToolchain.Compiler.Stages
import StackToolchain.Compiler.Statement
import StackToolchain.Compiler.SymbolMap
import StackToolchain.Diagnostic
import StackToolchain.Instruction.Basic
import StackToolchain.Instruction.Printer
import StackToolchain.Machine.Basic
import StackToolchain.Machine.Memory
import StackToolchain.Machine.Setup
import StackToolchain.Machine.Watch
import StackToolchain.Machine.WatchFile
import StackToolchain.Main
import StackToolchain.Opcode
import StackToolchain.Register
import StackToolchain.Source.Comment
import StackToolchain.Source.Grammar
import StackToolchain.Source.Lexer
import StackToolchain.Source.Location
import StackToolchain.Source.Outline
import StackToolchain.Source.Parser
import StackToolchain.Source.Token
import StackToolchain.Source.Tree
import StackToolchain.Table
import StackToolchain.Text.Basic
import StackToolchain.Text.Hidden
import StackToolchain.Text.Numeral
import StackToolchain.Text.Quoted
import StackToolchain.Text.Style
import StackToolchain.Word
import StackToolchain.Yaml.Characters
import StackToolchain.Yaml.Lexer
import StackToolchain.Yaml.Node
import StackToolchain.Yaml.Property
import StackToolchain.Yaml.Reader
import StackToolchain.Yaml.Scalar
import StackToolchain.Yaml.Token
import StackToolchain.Proofs.Assembly.Encoding
import StackToolchain.Proofs.Assembly.Placement
import StackToolchain.Proofs.Compiler.Inversion
import StackToolchain.Proofs.Compiler.Assembling
import StackToolchain.Proofs.Machine.Linked
import StackToolchain.Proofs.Machine.Leads
import StackToolchain.Proofs.Machine.Rules
import StackToolchain.Proofs.Source.Evaluation
import StackToolchain.Proofs.Compiler.Declarations
import StackToolchain.Proofs.Compiler.Frames
import StackToolchain.Proofs.Compiler.ExpressionRuns
import StackToolchain.Proofs.Compiler.StatementRuns
import StackToolchain.Proofs.Compiler.Safety
import StackToolchain.Proofs.Compiler.CallBalance
import StackToolchain.Proofs.Compiler.Correctness
import StackToolchain.Proofs.Source.Lexing
import StackToolchain.Proofs.Source.Dispatch
import StackToolchain.Proofs.Source.ParsedTokens
import StackToolchain.Proofs.Source.Reparsing
import StackToolchain.Proofs.Source.Recognizer
import StackToolchain.Proofs.Source.SyntaxErrors
import StackToolchain.Proofs.Assembly.Listings
import StackToolchain.Proofs.Compiler.Artifacts
import StackToolchain.Proofs.Assembly.CanonicalListings
import StackToolchain.Proofs.Assembly.Disassembly
import StackToolchain.Proofs.Source.Marks
import StackToolchain.Proofs.Source.Visibility
import StackToolchain.Proofs.Compiler.Resolution
import StackToolchain.Proofs.Compiler.Scoping
import StackToolchain.Proofs.Assembly.Relabelling
import StackToolchain.Proofs.Source.Rewording
import StackToolchain.Proofs.Compiler.RewordedCode
import StackToolchain.Proofs.Compiler.Renaming
import StackToolchain.Proofs.Source.MatchingTokens
import StackToolchain.Proofs.Compiler.Spacing
import StackToolchain.Proofs.Source.Comments
import StackToolchain.Proofs.Source.Spelling
import StackToolchain.Proofs.Source.Tiling
import StackToolchain.Proofs.Compiler.Locations
import StackToolchain.Proofs.Source.RuleOrder
import StackToolchain.Proofs.Source.Respelling
import StackToolchain.Proofs.Machine.HeldCode
import StackToolchain.Proofs.Compiler.ExpressionContext
import StackToolchain.Proofs.Compiler.FrameLayout
import StackToolchain.Proofs.Assembly.Exactness
import StackToolchain.Proofs.Machine.Faults
import StackToolchain.Proofs.Source.Blanking
import StackToolchain.Proofs.Source.Progress
import StackToolchain.Proofs.Source.Termination
import StackToolchain.Proofs.Source.CommentGrammar
import StackToolchain.Proofs.Source.Constants
import StackToolchain.Proofs.Source.Locating
import StackToolchain.Proofs.Machine.Watching
import StackToolchain.Proofs.Source.OutlinedTrees
import StackToolchain.Proofs.Assembly.LayoutRows
import StackToolchain.Proofs.Machine.Division
