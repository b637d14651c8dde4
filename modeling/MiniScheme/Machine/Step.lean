import MiniScheme.Code.Program
import MiniScheme.Machine.Stack
import MiniScheme.Primitive.Apply

/-!
# The machine

The machine trusts its program and reports a violated assumption as a trap when it meets one. A
trap keeps what the instruction did before it: the program counter has moved on, and cells
popped are gone. Addresses are natural numbers and are added exactly, so a branch beyond the largest
machine word leads out of the code and does not come back to its start.
-/

namespace MiniScheme

/-- State of the machine. -/
structure State where
  /-- The value computed last. -/
  acc : Value
  /-- Address of the next instruction. -/
  pc : Nat
  /-- Frame pointer: the height of the stack when the running procedure was entered. -/
  fp : Nat
  /-- Body of the running closure. -/
  body : Nat
  /-- Captured values of the running closure. -/
  captured : List Value
  /-- The stack. -/
  stack : Stack
  /-- Number of instructions executed. -/
  steps : Nat
  /-- Whether the machine has stopped at the end of its program. -/
  halted : Bool
  deriving DecidableEq

/-- A state and the trap that led to it, if any. -/
abbrev Outcome := State × Option Trap

namespace State

/-- The state before the first instruction. -/
def initial : State :=
  ⟨.lit (.int 0), 0, 0, 0, [], .empty, 0, false⟩

/-- Loads a value or reports the trap. -/
def load (s : State) : Except Trap Value → Outcome
  | .ok v => ({ s with acc := v }, none)
  | .error t => (s, some t)

/-- Replaces the stack or reports the trap. -/
def setStack (s : State) : Except Trap Stack → Outcome
  | .ok stack => ({ s with stack }, none)
  | .error t => (s, some t)

/-! ### Returning -/

/-- Pops the closure to go on with. -/
def restoreClosure (s : State) : Outcome :=
  match s.stack.pop with
  | .error t => (s, some t)
  | .ok (.closure body captured, stack) => ({ s with stack, body, captured }, none)
  | .ok (v, stack) => ({ s with stack }, some (.notClosure v.text))

/-- Pops the frame pointer to go on with, and what is saved below it. -/
def restoreFrame (s : State) : Outcome :=
  match s.stack.pop with
  | .error t => (s, some t)
  | .ok (.stackAddr fp, stack) => restoreClosure { s with stack, fp }
  | .ok (v, stack) => ({ s with stack }, some (.notFramePointer v.text))

/-- Pops the address to go on at, and what is saved below it. -/
def returnToCaller (s : State) : Outcome :=
  match s.stack.pop with
  | .error t => (s, some t)
  | .ok (.codeAddr pc, stack) => restoreFrame { s with stack, pc }
  | .ok (v, stack) => ({ s with stack }, some (.notReturnAddress v.text))

/-! ### Calling -/

/-- The topmost cells as operands of a primitive, from a distance from the top on. -/
def operands (s : State) (p : Primitive) : (count : Nat) → (distance : Nat) →
    Except Trap (List Literal)
  | 0, _ => .ok []
  | n + 1, i => do
    let v ← s.stack.peek i
    match v.literal? with
    | some l => return l :: (← s.operands p n (i + 1))
    | none => throw (.notLiteral p v.text)

/-- Calls a primitive, which returns at once. -/
def applyPrimitive (s : State) (p : Primitive) : Outcome :=
  match s.operands p p.arity 0 >>= fun args => p.apply args s.steps with
  | .error t => (s, some t)
  | .ok l =>
    match s.stack.popMany p.arity with
    | .error t => ({ s with acc := .lit l }, some t)
    | .ok stack => returnToCaller { s with acc := .lit l, stack }

/-- Calls the procedure in the accumulator. -/
def applyAcc (s : State) : Outcome :=
  match s.acc with
  | .closure body captured =>
    ({ s with pc := body, fp := s.stack.height, body, captured }, none)
  | .prim p => s.applyPrimitive p
  | v => (s, some (.notProcedure v.text))

/-! ### Instructions -/

/-- Executes an instruction whose address is `pc`, the program counter being past it already. The
offset of a branch is added to `pc` exactly. -/
def exec (s : State) (pc : Nat) : Inst Nat → Outcome
  | .halt => ({ s with pc, halted := true }, none)
  | .const v => ({ s with acc := .lit v }, none)
  | .refGlobal i =>
    match Primitive.ofIndex? i with
    | some p => ({ s with acc := .prim p }, none)
    | none => (s, some (.noGlobal i))
  | .refLocal i => s.load (s.stack.getLocal s.fp i)
  | .refTemp i => s.load (s.stack.getTemp s.fp i)
  | .refFree i =>
    match s.captured[i]? with
    | some v => ({ s with acc := v }, none)
    | none => (s, some (.noCaptured i))
  | .refRec body => ({ s with acc := .closure body s.captured }, none)
  | .close n body =>
    match s.stack.takeTop n with
    | .ok (captured, stack) => ({ s with acc := .closure body captured, stack }, none)
    | .error t => (s, some t)
  | .test n => (if s.acc.isFalse then { s with pc := pc + n } else s, none)
  | .jump n => ({ s with pc := pc + n }, none)
  | .frame n =>
    let stack := ((s.stack.push (.closure s.body s.captured)).push (.stackAddr s.fp)).push
      (.codeAddr (pc + n))
    ({ s with stack }, none)
  | .push => ({ s with stack := s.stack.push s.acc }, none)
  | .apply => s.applyAcc
  | .shift n m => s.setStack (s.stack.shift n m)
  | .pop n => s.setStack (s.stack.popMany n)
  | .ret n =>
    match s.stack.popMany n with
    | .error t => (s, some t)
    | .ok stack => returnToCaller { s with stack }

/-- The instruction that is executed next: none if the machine has halted, a trap if the limit
on the number of instructions is reached or there is no instruction at the program counter. -/
def next (p : Program) (limit : Option Nat) (s : State) : Except Trap (Option (Inst Nat)) :=
  if s.halted then .ok none
  else
    match limit.filter (· ≤ s.steps) with
    | some n => .error (.stepLimit n)
    | none =>
      match p.code[s.pc]? with
      | some i => .ok (some i)
      | none => .error (.outOfBounds s.pc)

/-- Executes one instruction. Tells whether the machine goes on; an instruction that traps is
not counted. -/
def step (p : Program) (limit : Option Nat) (s : State) : State × Except Trap Bool :=
  match s.next p limit with
  | .error t => (s, .error t)
  | .ok none => (s, .ok false)
  | .ok (some i) =>
    match exec { s with pc := s.pc + 1 } s.pc i with
    | (s, some t) => (s, .error t)
    | (s, none) => ({ s with steps := s.steps + 1 }, .ok !s.halted)

end State

end MiniScheme
