import MiniScheme.Machine.Step

/-!
# Running the machine

A run executes instructions until the machine halts or traps. Runs are given a number of steps
they may take; a run that needs more has no end.
-/

namespace MiniScheme

/-- How a run ended: with a result or a trap, and the state then. -/
structure RunEnd where
  state : State
  result : Except Trap Value

namespace State

/-- Executes up to `fuel` instructions and gives the end of the run, if it was reached. -/
def runFor (p : Program) (limit : Option Nat) : (fuel : Nat) → State → Option RunEnd
  | 0, _ => none
  | fuel + 1, s =>
    match s.step p limit with
    | (s, .error t) => some ⟨s, .error t⟩
    | (s, .ok false) => some ⟨s, .ok s.acc⟩
    | (s, .ok true) => runFor p limit fuel s

/-- The states from which instructions are executed in a run of up to `fuel` instructions, each
with its instruction. -/
def executed (p : Program) (limit : Option Nat) : (fuel : Nat) → State → List (State × Inst Nat)
  | 0, _ => []
  | fuel + 1, s =>
    match s.next p limit with
    | .ok (some i) =>
      match s.step p limit with
      | (s', .ok true) => (s, i) :: executed p limit fuel s'
      | _ => [(s, i)]
    | _ => []

end State

namespace Program

/-- Runs a program from its first instruction for up to `fuel` instructions. -/
def runFor (p : Program) (limit : Option Nat) (fuel : Nat) : Option RunEnd :=
  State.initial.runFor p limit fuel

end Program

end MiniScheme
