import MiniScheme.Code.Inst

/-!
# Assembling one block

A block is written instruction by instruction. A branch to a place not yet reached is emitted
first and bound to its target later.
-/

namespace MiniScheme

/-- The instructions of a block written so far. -/
structure Assembler where
  code : Code

/-- Place of a branch that waits for its target. -/
structure Patch where
  index : Nat
  deriving DecidableEq

namespace Assembler

/-- A block without instructions. -/
def empty : Assembler :=
  ⟨[]⟩

/-- Place of the next instruction in the block. -/
def here (a : Assembler) : Nat :=
  a.code.length

def emit (a : Assembler) (i : Inst Label) : Assembler :=
  ⟨a.code ++ [i]⟩

/-- Adds an instruction that drops cells, unless there are none to drop. -/
def emitPop (a : Assembler) (n : Nat) : Assembler :=
  if n = 0 then a else a.emit (.pop n)

/-- Adds a branch whose target is not known yet. -/
def emitBranch (a : Assembler) (i : Inst Label) : Assembler × Patch :=
  (a.emit (i.withOffset 0), ⟨a.here⟩)

/-- Makes a waiting branch lead to the next instruction. -/
def bind (a : Assembler) (p : Patch) : Assembler :=
  ⟨a.code.modify p.index (Inst.withOffset (a.here - p.index))⟩

end Assembler

end MiniScheme
