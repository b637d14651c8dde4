import MiniScheme.Log
import MiniScheme.Machine.Run

/-!
# What the machine reports

Every instruction is reported before it is executed, and a run that halts is summed up.
-/

namespace MiniScheme

namespace State

/-- Report of an instruction about to be executed. -/
def instMessage (s : State) (i : Inst Nat) : LogMessage :=
  .machineTrace (paddedText s.pc ++ " fp=" ++ toString s.fp ++ " sp=" ++
    toString s.stack.height ++ " " ++ i.linkedText)

/-- Report of one step. -/
def stepLog (p : Program) (limit : Option Nat) (s : State) : List LogMessage :=
  match s.next p limit with
  | .ok (some i) => [s.instMessage i]
  | _ => []

/-- Report of a run that has halted. -/
def haltMessage (s : State) : LogMessage :=
  .machineDebug ("halted after " ++ toString s.steps ++ " steps, stack high water " ++
    toString s.stack.highWater)

end State

namespace Program

/-- Reports of a run of up to `fuel` instructions. -/
def runLog (p : Program) (limit : Option Nat) (fuel : Nat) : List LogMessage :=
  let steps := (State.initial.executed p limit fuel).map fun (s, i) => s.instMessage i
  match p.runFor limit fuel with
  | some ⟨s, .ok _⟩ => steps ++ [s.haltMessage]
  | _ => steps

end Program

end MiniScheme
