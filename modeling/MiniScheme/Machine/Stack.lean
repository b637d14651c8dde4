import MiniScheme.Machine.Value
import MiniScheme.Trap

/-!
# The stack

A call pushes the running closure, the frame pointer and the return address, then its arguments
from last to first, and sets the frame pointer to the height reached. Parameters are found below
the frame pointer and temporaries above it. The stack also records the largest height it ever
had.

Heights and distances are natural numbers with exact sums. Only code written by hand can name a
distance so large that a machine word would run over; the sum is then larger than every stack, and
the operation traps.
-/

namespace MiniScheme

/-- A stack of values, the top first, with its height and its largest height so far. -/
structure Stack where
  cells : List Value
  height : Nat
  highWater : Nat
  height_eq : height = cells.length
  deriving DecidableEq

namespace Stack

/-- A stack without cells. -/
def empty : Stack :=
  ⟨[], 0, 0, rfl⟩

/-- The cell at a height, the lowest cell being at height zero. -/
def cellAt? (s : Stack) (i : Nat) : Option Value :=
  if i < s.height then s.cells[s.height - 1 - i]? else none

/-- The stack without its top cells. -/
def drop (s : Stack) (n : Nat) : Stack :=
  ⟨s.cells.drop n, s.height - n, s.highWater, by rw [List.length_drop, s.height_eq]⟩

/-- Puts a value on top. -/
def push (s : Stack) (v : Value) : Stack :=
  ⟨v :: s.cells, s.height + 1, max s.highWater (s.height + 1),
    by rw [List.length_cons, s.height_eq]⟩

/-- Takes the top value off. -/
def pop (s : Stack) : Except Trap (Value × Stack) :=
  match s.cells with
  | [] => .error (.stackUnderflow .pop)
  | v :: _ => .ok (v, s.drop 1)

def popMany (s : Stack) (n : Nat) : Except Trap Stack :=
  if n ≤ s.height then .ok (s.drop n) else .error (.stackUnderflow .pop)

/-- Takes values off the top and gives them in the order they were pushed. -/
def takeTop (s : Stack) (n : Nat) : Except Trap (List Value × Stack) :=
  if n ≤ s.height then .ok ((s.cells.take n).reverse, s.drop n)
  else .error (.stackUnderflow .close)

/-- The value at a distance from the top. -/
def peek (s : Stack) (i : Nat) : Except Trap Value :=
  match s.cells[i]? with
  | some v => .ok v
  | none => .error (.stackUnderflow .peek)

/-- A parameter of the frame at `fp`, counted downwards by exact numbers. -/
def getLocal (s : Stack) (fp i : Nat) : Except Trap Value :=
  match if i < fp then s.cellAt? (fp - 1 - i) else none with
  | some v => .ok v
  | none => .error (.noLocal i fp)

/-- A temporary of the frame at `fp`, counted upwards by exact numbers. -/
def getTemp (s : Stack) (fp slot : Nat) : Except Trap Value :=
  match s.cellAt? (fp + slot) with
  | some v => .ok v
  | none => .error (.noTemporary slot fp)

/-- Keeps the top cells and drops as many as asked for below them. The two numbers are added
exactly. -/
def shift (s : Stack) (kept dropped : Nat) : Except Trap Stack :=
  if h : kept + dropped ≤ s.height then
    .ok ⟨s.cells.take kept ++ s.cells.drop (kept + dropped), s.height - dropped, s.highWater, by
      have hlen := s.height_eq
      rw [List.length_append, List.length_take, List.length_drop]
      omega⟩
  else .error (.stackUnderflow .shift)

/-! ### Views of the operations -/

@[simp] theorem height_empty : empty.height = 0 := rfl

@[simp] theorem cells_push (s : Stack) (v : Value) : (s.push v).cells = v :: s.cells := rfl

@[simp] theorem height_push (s : Stack) (v : Value) : (s.push v).height = s.height + 1 := rfl

@[simp] theorem cells_drop (s : Stack) (n : Nat) : (s.drop n).cells = s.cells.drop n := rfl

@[simp] theorem height_drop (s : Stack) (n : Nat) : (s.drop n).height = s.height - n := rfl

theorem height_pop {s s' : Stack} {v : Value} (h : s.pop = .ok (v, s')) :
    s.height = s'.height + 1 := by
  have hlen := s.height_eq
  unfold pop at h
  split at h
  · simp at h
  · rename_i w ws hcells
    simp only [Except.ok.injEq, Prod.mk.injEq] at h
    obtain ⟨_, rfl⟩ := h
    rw [hcells, List.length_cons] at hlen
    simp only [height_drop]
    omega

end Stack

end MiniScheme
