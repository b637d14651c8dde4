import MiniScheme.Error
import MiniScheme.Ragged.Basic

/-!
# Numbering from a machine word

The counter that numbers are drawn from is a machine word and may start anywhere. What happens
when it runs over depends on the build: with overflow checks the program panics, without them the
counter goes on at zero.
-/

namespace MiniScheme

/-- What happens when a machine word runs over. -/
inductive Overflow where
  | wraps
  | panics
  deriving DecidableEq

/-- Computations that draw numbers from a counter. -/
abbrev Tagger := StateT UInt64 (Except Fault)

namespace Tagger

/-- The next number. The counter moves on before the number is used, so the largest word is never
handed out by a build with overflow checks. -/
def next (overflow : Overflow) : Tagger Nat := fun n =>
  if overflow = .panics ∧ n + 1 = 0 then .error .panic else .ok (n.toNat, n + 1)

/-- As many numbers as there are names. -/
def nextFor (overflow : Overflow) : List Name → Tagger (List Nat)
  | [] => return []
  | _ :: xs => do return (← next overflow) :: (← nextFor overflow xs)

end Tagger

namespace Ragged

open Tagger

variable {α : Type}

mutual
/-- Numbers the nodes of a tree, a node after all that is below it. A group draws a number for each
of its names before anything below it is numbered. -/
def number (overflow : Overflow) : Ragged α → Tagger (Ragged Nat)
  | lit v _ => do return lit v (← next overflow)
  | var x _ => do return var x (← next overflow)
  | cond test yes no _ => do
    let test ← number overflow test
    let yes ← number overflow yes
    let no ← number overflow no
    return cond test yes no (← next overflow)
  | lambda params body _ => do
    let body ← number overflow body
    return lambda params body (← next overflow)
  | assign x value _ => do
    let value ← number overflow value
    return assign x value (← next overflow)
  | app func args _ => do
    let func ← number overflow func
    let args ← numberList overflow args
    return app func args (← next overflow)
  | letIn names inits body _ => do
    let inits ← numberList overflow inits
    let body ← number overflow body
    return letIn names inits body (← next overflow)
  | letrec names inits body _ => do
    let inits ← numberList overflow inits
    let body ← number overflow body
    return letrec names inits body (← next overflow)
  | fix names _ procs body _ => do
    let ts ← nextFor overflow names
    let procs ← numberProcs overflow procs
    let body ← number overflow body
    return fix names ts procs body (← next overflow)
  | seq items _ => do
    let items ← numberList overflow items
    return seq items (← next overflow)
termination_by structural e => e

def numberList (overflow : Overflow) : List (Ragged α) → Tagger (List (Ragged Nat))
  | [] => return []
  | e :: es => do return (← number overflow e) :: (← numberList overflow es)
termination_by structural es => es

def numberProcs (overflow : Overflow) :
    List (Procedure (Ragged α)) → Tagger (List (Procedure (Ragged Nat)))
  | [] => return []
  | ⟨params, body⟩ :: ps => do
    return ⟨params, ← number overflow body⟩ :: (← numberProcs overflow ps)
termination_by structural ps => ps
end

/-- Numbers the nodes of a tree from a word on and gives the word that the counter ends at. -/
def tagWith (overflow : Overflow) (e : Ragged α) (start : UInt64) :
    Except Fault (Ragged Nat × UInt64) :=
  (e.number overflow).run start

end Ragged

end MiniScheme
