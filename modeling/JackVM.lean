import JackVM.Main
import JackVM.Compile.Basic
import JackVM.Proofs.Syntax.Code
import JackVM.Proofs.Syntax.Validity
import JackVM.Proofs.Syntax.Unambiguous
import JackVM.Proofs.Grammar.CompileLaws
import JackVM.Proofs.Grammar.ExpressionSound
import JackVM.Proofs.Grammar.StatementSound
import JackVM.Proofs.Grammar.DeclarationLaws
import JackVM.Proofs.Grammar.ClassSound
import JackVM.Proofs.Grammar.ExpressionComplete
import JackVM.Proofs.Grammar.StatementComplete
import JackVM.Proofs.Grammar.ClassComplete
import JackVM.Proofs.Grammar.Acceptance
import JackVM.Proofs.Machine.Basic
import JackVM.Proofs.Machine.Evaluation
import JackVM.Proofs.Machine.ExpressionCode
import JackVM.Proofs.Machine.ElementAssignment
import JackVM.Proofs.Code.Instructions
import JackVM.Proofs.Code.Blocks
import JackVM.Proofs.Code.Slots
import JackVM.Proofs.Code.Labels
import JackVM.Proofs.Code.Depth
import JackVM.Proofs.Code.Operands
import JackVM.Proofs.Code.Places
import JackVM.Proofs.Code.StackDepth
import JackVM.Proofs.Machine.Flow
import JackVM.Proofs.Machine.Interpreter
import JackVM.Proofs.Machine.StatementCode
import JackVM.Proofs.Grammar.MemberLaws
import JackVM.Proofs.Runs.Coupling
import JackVM.Proofs.Runs.Lockstep
import JackVM.Proofs.Runs.Relabelling
import JackVM.Proofs.Runs.CutOff
import JackVM.Proofs.Runs.Separate
import JackVM.Proofs.Prediction.Table
import JackVM.Proofs.Prediction.Sentences
import JackVM.Proofs.Prediction.Trees
import JackVM.Proofs.Prediction.Steps
import JackVM.Proofs.Prediction.Reading
import JackVM.Proofs.Prediction.Constructs
import JackVM.Proofs.Prediction.SyntaxErrors
import JackVM.Proofs.Runs.Relocation
import JackVM.Proofs.Layout.Parts
import JackVM.Proofs.Layout.Lexemes
import JackVM.Proofs.Layout.Writing
import JackVM.Proofs.Layout.Laid
import JackVM.Proofs.Layout.Scanning
import JackVM.Proofs.Layout.Printing
import JackVM.Proofs.Layout.Strings
import JackVM.Proofs.Syntax.Renaming
import JackVM.Proofs.Syntax.Respelling
import JackVM.Proofs.Syntax.RenamedClass
import JackVM.Proofs.Layout.Replacing
import JackVM.Proofs.Runs.Renamed
import JackVM.Proofs.Batch.Overwriting
import JackVM.Proofs.Batch.Stopping
import JackVM.Proofs.Batch.ExitCode
import JackVM.Proofs.Batch.Discovery
import JackVM.Proofs.Variables.History
import JackVM.Proofs.Layout.Comments
import JackVM.Proofs.Layout.Regions
import JackVM.Proofs.Layout.Lookahead
import JackVM.Proofs.Batch.Printing
import JackVM.Proofs.Runs.Rendering
import JackVM.Proofs.Runs.LimitedSink
import JackVM.Proofs.Code.Decoding
import JackVM.Proofs.Code.Naming
import JackVM.Proofs.Code.Words
import JackVM.Proofs.Layout.Positions
import JackVM.Proofs.Layout.ReadingOrder
import JackVM.Proofs.Runs.ErrorPlaces
import JackVM.Proofs.Runs.Consuming
import JackVM.Proofs.Runs.Bounds
import JackVM.Proofs.Runs.Constructs
import JackVM.Proofs.Runs.Descent
import JackVM.Proofs.Runs.Nesting
import JackVM.Proofs.Runs.Causality
