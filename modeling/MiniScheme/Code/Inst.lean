import MiniScheme.Label
import MiniScheme.Primitive.Basic

/-!
# Instructions

The machine computes in an accumulator and pushes values on a stack. Instructions that name a
procedure body do so by an address of type `ρ`: a label before the code is linked and a number
afterwards. Branches are relative to the branching instruction.
-/

namespace MiniScheme

inductive Inst (ρ : Type) where
  /-- Stop; the accumulator is the result. -/
  | halt
  /-- Load a literal. -/
  | const (value : Literal)
  /-- Load a primitive by its global index. -/
  | refGlobal (index : Nat)
  /-- Load a parameter, counted downwards from the frame pointer. -/
  | refLocal (index : Nat)
  /-- Load a temporary, counted upwards from the frame pointer. -/
  | refTemp (slot : Nat)
  /-- Load a captured value of the running closure. -/
  | refFree (index : Nat)
  /-- Load a closure of another body with the captured values of the running closure. -/
  | refRec (body : ρ)
  /-- Pop values and load a closure that captures them in the order they were pushed. -/
  | close (captured : Nat) (body : ρ)
  /-- Branch if the accumulator is false. -/
  | test (offset : Nat)
  /-- Branch. -/
  | jump (offset : Nat)
  /-- Push the running closure, the frame pointer and the address to return to. -/
  | frame (offset : Nat)
  /-- Push the accumulator as an argument; the instruction is shown as `arg`. -/
  | push
  /-- Call the procedure in the accumulator. -/
  | apply
  /-- Move the top cells down over the cells below them. -/
  | shift (kept dropped : Nat)
  /-- Drop cells. -/
  | pop (count : Nat)
  /-- Drop cells and return to the caller. -/
  | ret (count : Nat)
  deriving DecidableEq

namespace Inst

variable {ρ σ ε : Type}

/-- The address an instruction names, if it names one. -/
def address? : Inst ρ → Option ρ
  | refRec a => some a
  | close _ a => some a
  | _ => none

/-- The distance of a branch, if the instruction is one. -/
def branchOffset? : Inst ρ → Option Nat
  | test n => some n
  | jump n => some n
  | frame n => some n
  | _ => none

/-- Replaces the address of an instruction, if it names one. -/
def mapAddress (f : ρ → Except ε σ) : Inst ρ → Except ε (Inst σ)
  | refRec a => (f a).map refRec
  | close n a => (f a).map (close n)
  | halt => .ok halt
  | const v => .ok (const v)
  | refGlobal n => .ok (refGlobal n)
  | refLocal n => .ok (refLocal n)
  | refTemp n => .ok (refTemp n)
  | refFree n => .ok (refFree n)
  | test n => .ok (test n)
  | jump n => .ok (jump n)
  | frame n => .ok (frame n)
  | push => .ok push
  | apply => .ok apply
  | shift n m => .ok (shift n m)
  | pop n => .ok (pop n)
  | ret n => .ok (ret n)

/-- Sets the distance of a branch and leaves other instructions as they are. -/
def withOffset (n : Nat) : Inst ρ → Inst ρ
  | test _ => test n
  | jump _ => jump n
  | frame _ => frame n
  | i => i

/-- How a global index is written: by the name of its primitive, if there is one. -/
def globalText (i : Nat) : String :=
  match Primitive.ofIndex? i with
  | some p => p.name
  | none => "#" ++ toString i

/-- How an instruction is written, `addressText` writing its address. -/
def textWith (addressText : ρ → String) : Inst ρ → String
  | halt => "halt"
  | const v => "const " ++ v.text
  | refGlobal n => "gref " ++ globalText n
  | refLocal n => "lref " ++ toString n
  | refTemp n => "tref " ++ toString n
  | refFree n => "fref " ++ toString n
  | refRec a => "rec " ++ addressText a
  | close n a => "close " ++ toString n ++ " " ++ addressText a
  | test n => "test +" ++ toString n
  | jump n => "jmp +" ++ toString n
  | frame n => "frame +" ++ toString n
  | push => "arg"
  | apply => "apply"
  | shift n m => "shift " ++ toString n ++ " " ++ toString m
  | pop n => "pop " ++ toString n
  | ret n => "ret " ++ toString n

end Inst

/-- Code with labels. -/
abbrev Code := List (Inst Label)

/-- How an instruction with a label is written. -/
def Inst.labelledText (i : Inst Label) : String :=
  i.textWith Label.text

def Inst.linkedText (i : Inst Nat) : String :=
  i.textWith (fun a : Nat => toString a)

end MiniScheme
