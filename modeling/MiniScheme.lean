import MiniScheme.Analysis.Escape
import MiniScheme.Analysis.TailCall
import MiniScheme.Code.Assembler
import MiniScheme.Code.Generate
import MiniScheme.Code.Inst
import MiniScheme.Code.Program
import MiniScheme.Compile
import MiniScheme.Datum
import MiniScheme.Emit
import MiniScheme.Error
import MiniScheme.Eval
import MiniScheme.Expr.Basic
import MiniScheme.Expr.Free
import MiniScheme.Expr.Keyword
import MiniScheme.Expr.Let
import MiniScheme.Expr.Letrec
import MiniScheme.Expr.Printer
import MiniScheme.Expr.Read
import MiniScheme.Expr.Rename
import MiniScheme.Expr.Tag
import MiniScheme.Label
import MiniScheme.Layout
import MiniScheme.Literal
import MiniScheme.Log
import MiniScheme.Machine.Log
import MiniScheme.Machine.Run
import MiniScheme.Machine.Stack
import MiniScheme.Machine.Step
import MiniScheme.Machine.Value
import MiniScheme.Primitive.Apply
import MiniScheme.Primitive.Basic
import MiniScheme.Proofs.Acceptance
import MiniScheme.Proofs.Activations
import MiniScheme.Proofs.BindingStructure
import MiniScheme.Proofs.CallVisits
import MiniScheme.Proofs.Climbing
import MiniScheme.Proofs.CodeFaults
import MiniScheme.Proofs.Compilation
import MiniScheme.Proofs.ControlFlow
import MiniScheme.Proofs.Depth
import MiniScheme.Proofs.EscapeAnalysis
import MiniScheme.Proofs.Evaluation
import MiniScheme.Proofs.EvenPasses
import MiniScheme.Proofs.EvenTrees
import MiniScheme.Proofs.Execution
import MiniScheme.Proofs.Failures
import MiniScheme.Proofs.Footers
import MiniScheme.Proofs.Frames
import MiniScheme.Proofs.FreeNames
import MiniScheme.Proofs.Generation
import MiniScheme.Proofs.Halting
import MiniScheme.Proofs.HighWater
import MiniScheme.Proofs.Hygiene
import MiniScheme.Proofs.Inference
import MiniScheme.Proofs.Layouts
import MiniScheme.Proofs.LetOption
import MiniScheme.Proofs.LetRecovery
import MiniScheme.Proofs.LetrecFixing
import MiniScheme.Proofs.Linking
import MiniScheme.Proofs.NameChange
import MiniScheme.Proofs.Naming
import MiniScheme.Proofs.Numbering
import MiniScheme.Proofs.Occurrences
import MiniScheme.Proofs.OpenEvaluation
import MiniScheme.Proofs.Parsing
import MiniScheme.Proofs.Placement
import MiniScheme.Proofs.Poised
import MiniScheme.Proofs.PrincipalTyping
import MiniScheme.Proofs.Printing
import MiniScheme.Proofs.ProperTypes
import MiniScheme.Proofs.RaggedEvaluation
import MiniScheme.Proofs.Reading
import MiniScheme.Proofs.RecoveredEvaluation
import MiniScheme.Proofs.RecoveredTyping
import MiniScheme.Proofs.Refinement
import MiniScheme.Proofs.Reflection
import MiniScheme.Proofs.RenamedEvaluation
import MiniScheme.Proofs.RenamedTyping
import MiniScheme.Proofs.Representation
import MiniScheme.Proofs.Resolution
import MiniScheme.Proofs.Results
import MiniScheme.Proofs.Scanning
import MiniScheme.Proofs.Security
import MiniScheme.Proofs.SideTables
import MiniScheme.Proofs.Simulation
import MiniScheme.Proofs.StackBound
import MiniScheme.Proofs.StackDiscipline
import MiniScheme.Proofs.StackShapes
import MiniScheme.Proofs.StaticForm
import MiniScheme.Proofs.StepLimit
import MiniScheme.Proofs.Subtrees
import MiniScheme.Proofs.Tagging
import MiniScheme.Proofs.TailCallTable
import MiniScheme.Proofs.TailPosition
import MiniScheme.Proofs.Trees
import MiniScheme.Proofs.Triangular
import MiniScheme.Proofs.TypeNotation
import MiniScheme.Proofs.TypeSafety
import MiniScheme.Proofs.TypedCode
import MiniScheme.Proofs.TypedEvaluation
import MiniScheme.Proofs.Typing
import MiniScheme.Proofs.UnboundNames
import MiniScheme.Proofs.Unification
import MiniScheme.Proofs.UnificationCalls
import MiniScheme.Proofs.UniqueBinders
import MiniScheme.Proofs.WordNumbering
import MiniScheme.Proofs.WrittenTokens
import MiniScheme.Ragged.Basic
import MiniScheme.Ragged.Eval
import MiniScheme.Ragged.Infer
import MiniScheme.Ragged.Passes
import MiniScheme.Ragged.Tag
import MiniScheme.Table
import MiniScheme.Text.Blank
import MiniScheme.Text.Emoji
import MiniScheme.Text.Mark
import MiniScheme.Text.Quoted
import MiniScheme.Text.Unprinted
import MiniScheme.Text.Width
import MiniScheme.Token
import MiniScheme.Trap
import MiniScheme.Ty.Basic
import MiniScheme.Ty.Infer
import MiniScheme.Ty.Unify
