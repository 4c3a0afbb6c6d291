import MicroC.Compilation
import MicroC.Samples
import MicroC.Symbol
import MicroC.Proofs.Lowering.WellTyped
import MicroC.Proofs.Syntax.Construction
import MicroC.Proofs.Ir.Growth
import MicroC.Proofs.Lowering.Bodies
import MicroC.Proofs.Lowering.Functions
import MicroC.Proofs.Lowering.Contents
import MicroC.Proofs.Ir.Sketch
import MicroC.Proofs.Ir.Flow
import MicroC.Proofs.Ir.Paths
import MicroC.Proofs.Lowering.Setting
import MicroC.Proofs.Lowering.Construction
import MicroC.Proofs.Lowering.Blocks
import MicroC.Proofs.Lowering.ControlFlow
import MicroC.Proofs.Lowering.Linkage
import MicroC.Proofs.Lowering.Preservation
import MicroC.Proofs.Typing.Decision
import MicroC.Proofs.Typing.Expansion
import MicroC.Proofs.Typing.Completeness
import MicroC.Proofs.Lowering.Emission
import MicroC.Proofs.Scope.Confinement
import MicroC.Proofs.Meaning.Steps
import MicroC.Proofs.Ir.Continuation
import MicroC.Proofs.Meaning.Pieces
import MicroC.Proofs.Lowering.Continuation
import MicroC.Proofs.Lowering.Folding
import MicroC.Proofs.Scope.Reordering
import MicroC.Proofs.Typing.Reordering
import MicroC.Proofs.Lowering.Mirroring
import MicroC.Proofs.Lowering.Reordering
import MicroC.Proofs.Ir.Names
import MicroC.Proofs.Ir.Calls
import MicroC.Proofs.Ir.Assembly
import MicroC.Proofs.Pair
import MicroC.Proofs.Syntax.Parentheses
import MicroC.Proofs.Scope.Parentheses
import MicroC.Proofs.Typing.Recall
import MicroC.Proofs.Typing.Parentheses
import MicroC.Proofs.Lowering.Parentheses
import MicroC.Proofs.Ir.Naming
import MicroC.Proofs.Scope.Parameters
import MicroC.Proofs.Lowering.Naming
import MicroC.Proofs.Constant.Exactness
import MicroC.Proofs.Typing.Entries
import MicroC.Proofs.Constant.Typing
import MicroC.Proofs.Lowering.Returns
import MicroC.Proofs.Scope.Repetition
import MicroC.Proofs.Typing.Repetition
import MicroC.Proofs.Lowering.Repetition
import MicroC.Proofs.Scope.Merging
import MicroC.Proofs.Lowering.Redeclaration
import MicroC.Proofs.Scope.Shadowing
import MicroC.Proofs.Scope.Nesting
import MicroC.Proofs.Scope.Owners
import MicroC.Proofs.Ir.Grants
import MicroC.Proofs.Typing.Aliases
import MicroC.Proofs.Lowering.Misuse
import MicroC.Proofs.Ir.Slots
import MicroC.Proofs.Lowering.Allotment
import MicroC.Proofs.Lowering.Slots
import MicroC.Proofs.Scope.EditDistance
import MicroC.Proofs.Scope.Suggestions
import MicroC.Proofs.Ir.TypeText
import MicroC.Proofs.Typing.TypeText
import MicroC.Proofs.Lowering.OperandTypes
