import MiniScheme.Literal
import MiniScheme.Ty.Basic

/-!
# Primitive procedures

The fixed table of global procedures. The place of a primitive in the table is its global index,
and every primitive has a name, an arity and a type scheme.
-/

namespace MiniScheme

/-- A primitive procedure. `time` reports the number of instructions executed so far. -/
inductive Primitive where
  | add
  | sub
  | mul
  | eq
  | time
  deriving DecidableEq

namespace Primitive

/-- All primitives in the order of their global indices. -/
def all : List Primitive :=
  [add, sub, mul, eq, time]

/-- The name that refers to a primitive in a program. -/
def name : Primitive → Name
  | add => "+"
  | sub => "-"
  | mul => "*"
  | eq => "="
  | time => "time"

/-- Number of arguments a primitive takes. -/
def arity : Primitive → Nat
  | time => 0
  | _ => 2

/-- Place of a primitive in the global table. -/
def index : Primitive → Nat
  | add => 0
  | sub => 1
  | mul => 2
  | eq => 3
  | time => 4

/-- The primitive at a place of the global table. -/
def ofIndex? (i : Nat) : Option Primitive :=
  all[i]?

/-- The primitive with a given name. -/
def ofName? (x : Name) : Option Primitive :=
  all.find? fun p => p.name = x

def names : List Name :=
  all.map name

/-- Type scheme of a primitive. Arithmetic works on integers, equality compares two values of
one type, and `time` takes no argument. -/
def scheme : Primitive → Scheme
  | add => .mono (.arrow [.int, .int, .int])
  | sub => .mono (.arrow [.int, .int, .int])
  | mul => .mono (.arrow [.int, .int, .int])
  | eq => ⟨[0], .arrow [.var 0, .var 0, .bool]⟩
  | time => .mono (.arrow [.int])

theorem ofIndex?_index (p : Primitive) : ofIndex? p.index = some p := by
  cases p <;> rfl

theorem ofName?_name (p : Primitive) : ofName? p.name = some p := by
  cases p <;> decide

theorem name_of_ofName? {x : Name} {p : Primitive} (h : ofName? x = some p) : p.name = x := by
  have hfound := List.find?_some h
  simpa using hfound

end Primitive

end MiniScheme
