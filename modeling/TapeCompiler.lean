import TapeCompiler.Artifact
import TapeCompiler.CommandLine.Arguments
import TapeCompiler.CommandLine.Run
import TapeCompiler.Compilation
import TapeCompiler.Diagnostic.Basic
import TapeCompiler.Diagnostic.Order
import TapeCompiler.Files.Path
import TapeCompiler.Files.Tree
import TapeCompiler.Lowering
import TapeCompiler.Main
import TapeCompiler.Number.Basic
import TapeCompiler.Number.Rounding
import TapeCompiler.Number.Shortest
import TapeCompiler.Number.Text
import TapeCompiler.Parsing.Basic
import TapeCompiler.Parsing.Program
import TapeCompiler.Parsing.Statement
import TapeCompiler.Qbe.Basic
import TapeCompiler.Qbe.Builder
import TapeCompiler.Qbe.Printer
import TapeCompiler.Source.Cursor
import TapeCompiler.Source.Position
import TapeCompiler.Tape
import TapeCompiler.Text.Collation
import TapeCompiler.Text.LineEnding
import TapeCompiler.Text.Quoted
import TapeCompiler.Text.Utf8
import TapeCompiler.Text.Width
import TapeCompiler.Token.Basic
import TapeCompiler.Token.Lexer
import TapeCompiler.Tree.Basic
import TapeCompiler.Tree.Outline
import TapeCompiler.Proofs.Interpreter
import TapeCompiler.Proofs.Execution
import TapeCompiler.Proofs.Memory
import TapeCompiler.Proofs.Labels
import TapeCompiler.Proofs.Layout
import TapeCompiler.Proofs.Representation
import TapeCompiler.Proofs.LoweringSoundness
import TapeCompiler.Proofs.Grammar
import TapeCompiler.Proofs.Positions
import TapeCompiler.Proofs.Tiling
import TapeCompiler.Proofs.ParseErrors
import TapeCompiler.Proofs.Spelling
import TapeCompiler.Proofs.CharacterMachine
import TapeCompiler.Proofs.FrontEndSoundness
import TapeCompiler.Proofs.ControlFlow
import TapeCompiler.Proofs.Temporaries
import TapeCompiler.Proofs.PositionSoundness
import TapeCompiler.Proofs.StrideAgreement
import TapeCompiler.Proofs.CompilationOutcome
import TapeCompiler.Proofs.DecimalText
import TapeCompiler.Proofs.PrintedLines
import TapeCompiler.Proofs.PrintedSizes
import TapeCompiler.Proofs.Notes
import TapeCompiler.Proofs.Reading
import TapeCompiler.Proofs.SameLexemes
import TapeCompiler.Proofs.FileIndependence
import TapeCompiler.Proofs.InertCommentary
import TapeCompiler.Proofs.TreeSource
import TapeCompiler.Proofs.ExitContract
import TapeCompiler.Proofs.ReportComparison
import TapeCompiler.Proofs.ReportOrder
import TapeCompiler.Proofs.ArgumentGrammar
import TapeCompiler.Proofs.ReadBack
import TapeCompiler.Proofs.NumericFlags
import TapeCompiler.Proofs.Vocabulary
import TapeCompiler.Proofs.PrintedModules
import TapeCompiler.Proofs.FaithfulLowering
import TapeCompiler.Proofs.GuardCounts
import TapeCompiler.Proofs.OutlinedTrees
import TapeCompiler.Proofs.LineEndings
import TapeCompiler.Proofs.DecodedCommands
import TapeCompiler.Proofs.CodeUnits
import TapeCompiler.Proofs.NestedSpans
import TapeCompiler.Proofs.BuilderHistory
import TapeCompiler.Proofs.LocalParsing
import TapeCompiler.Proofs.Emission
import TapeCompiler.Proofs.Relocation
import TapeCompiler.Proofs.NestedAlternatives
