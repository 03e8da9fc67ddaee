import Blackboard.Main
import Blackboard.Proofs.WellFormed.Program
import Blackboard.Proofs.Printing.Value
import Blackboard.Proofs.Comments.Invariance
import Blackboard.Proofs.Scope.Stack
import Blackboard.Proofs.Conversion.CommonLanguage
import Blackboard.Proofs.Reporting.Status
import Blackboard.Proofs.Conversion.NumericProgram
import Blackboard.Proofs.Conversion.Classification
import Blackboard.Proofs.Reporting.Comments
import Blackboard.Proofs.Conversion.Reordering
import Blackboard.Proofs.Lowering.Nesting
import Blackboard.Proofs.Lowering.Rounds
import Blackboard.Proofs.Lowering.LoopCounter
import Blackboard.Proofs.Lowering.ArrayLiteral
import Blackboard.Proofs.Lowering.Choice
import Blackboard.Proofs.Lowering.Output
import Blackboard.Proofs.Lowering.Shadowing
import Blackboard.Proofs.Scan.Partition
import Blackboard.Proofs.Conversion.TypeShape
import Blackboard.Proofs.Meaning.Folding
import Blackboard.Proofs.Reading.Template
import Blackboard.Proofs.Scan.Places
import Blackboard.Proofs.Printing.Annotation
import Blackboard.Proofs.Printing.Kept
import Blackboard.Proofs.Scan.Lexemes
import Blackboard.Proofs.Printing.Spacing
