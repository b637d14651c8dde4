import MiniScheme.Primitive.Basic

/-!
# Traps

What can go wrong while a program runs. An offending value is kept as the text it is shown by,
since the machine and the evaluator have values of different types.
-/

namespace MiniScheme

/-- A stack operation that found too few cells. -/
inductive StackOp where
  | pop
  | close
  | peek
  | shift
  deriving DecidableEq

/-- Name of a stack operation in messages. -/
def StackOp.text : StackOp → String
  | .pop => "pop"
  | .close => "close"
  | .peek => "peek"
  | .shift => "shift"

/-- Why a run stopped. -/
inductive Trap where
  | stackUnderflow (op : StackOp)
  | noLocal (index frame : Nat)
  | noTemporary (slot frame : Nat)
  | noGlobal (index : Nat)
  | noCaptured (index : Nat)
  | outOfBounds (pc : Nat)
  | stepLimit (limit : Nat)
  | notReturnAddress (shown : String)
  | notFramePointer (shown : String)
  | notClosure (shown : String)
  | notProcedure (shown : String)
  | notLiteral (primitive : Primitive) (shown : String)
  | primitiveArity (primitive : Primitive) (given : Nat)
  | badOperands (primitive : Primitive) (operands : List Literal)
  | procedureArity (expected given : Nat)
  | callDepth (limit : Nat)
  deriving DecidableEq

def Trap.message : Trap → String
  | .stackUnderflow op => "stack underflow (" ++ op.text ++ ")"
  | .noLocal i fp => "no local " ++ toString i ++ " below frame " ++ toString fp
  | .noTemporary i fp => "no temporary " ++ toString i ++ " above frame " ++ toString fp
  | .noGlobal i => "no global " ++ toString i
  | .noCaptured i => "no captured value " ++ toString i
  | .outOfBounds pc => "pc " ++ toString pc ++ " out of bounds"
  | .stepLimit n => "step limit of " ++ toString n ++ " exceeded"
  | .notReturnAddress v => "expected return address, got " ++ v
  | .notFramePointer v => "expected frame pointer, got " ++ v
  | .notClosure v => "expected closure, got " ++ v
  | .notProcedure v => v ++ " is not a procedure"
  | .notLiteral p v => "`" ++ p.name ++ "` applied to " ++ v
  | .primitiveArity p n =>
    "`" ++ p.name ++ "` expects " ++ toString p.arity ++ " arguments, got " ++ toString n
  | .badOperands p ls => "bad operands for `" ++ p.name ++ "`: " ++ Literal.listText ls
  | .procedureArity n k => "procedure expects " ++ toString n ++ " arguments, got " ++ toString k
  | .callDepth n => "calls nested deeper than " ++ toString n

end MiniScheme
