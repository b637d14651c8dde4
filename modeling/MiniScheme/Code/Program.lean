import MiniScheme.Code.Inst
import MiniScheme.Error
import MiniScheme.Table

/-!
# Linking

Generated code consists of a main block and one block for each procedure body. Linking places
the main block first and the other blocks after it in their order, and replaces labels by
addresses.
-/

namespace MiniScheme

/-- Code before linking: the main block, and the blocks of procedure bodies. -/
structure Assembly where
  main : Code
  blocks : Table Label Code

/-- Linked code, started at its first instruction, with the addresses of the procedure
bodies. -/
structure Program where
  code : Array (Inst Nat)
  entries : Table Label Nat

/-- Addresses of blocks placed one after another. -/
def placeBlocks (start : Nat) : Table Label Code → Table Label Nat
  | [] => []
  | (l, code) :: blocks => (l, start) :: placeBlocks (start + code.length) blocks

/-- The address of a label. -/
def addressOf (entries : Table Label Nat) (l : Label) : Except Error Nat :=
  match entries.lookup l with
  | some a => .ok a
  | none => .error (.unresolvedLabel l)

/-- Instructions with their labels replaced by addresses, or the first label without one. -/
def linkCode (entries : Table Label Nat) : Code → Except Error (List (Inst Nat))
  | [] => .ok []
  | i :: is => do
    let i ← i.mapAddress (addressOf entries)
    let is ← linkCode entries is
    return i :: is

namespace Assembly

/-- Instructions of all blocks in the order of their addresses. -/
def flatten (a : Assembly) : Code :=
  a.main ++ a.blocks.flatMap (·.2)

/-- Addresses of the procedure bodies. -/
def entries (a : Assembly) : Table Label Nat :=
  placeBlocks a.main.length a.blocks

/-- Places all blocks and resolves all labels. -/
def link (a : Assembly) : Except Error Program := do
  let code ← linkCode a.entries a.flatten
  return ⟨code.toArray, a.entries⟩

end Assembly

/-! ### Listings -/

/-- A number with zeros in front up to four digits. -/
def paddedText (n : Nat) : String :=
  let digits := Nat.toDigits 10 n
  String.ofList (List.replicate (4 - digits.length) '0' ++ digits)

namespace Program

/-- The label whose block starts at an address; of several the last. -/
def labelAt? (p : Program) (address : Nat) : Option Label :=
  (p.entries.reverse.find? (·.2 = address)).map (·.1)

/-- What a listing adds to an instruction: the label of the body it names, or the target of a
branch. -/
def remark (p : Program) (pc : Nat) (i : Inst Nat) : String :=
  match i.address? with
  | some a =>
    match p.labelAt? a with
    | some l => " (" ++ l.text ++ ")"
    | none => ""
  | none =>
    match i.branchOffset? with
    | some n => " (=>" ++ toString (pc + n) ++ ")"
    | none => ""

/-- The lines of a listing that belong to one instruction. -/
def instListing (p : Program) (pc : Nat) (i : Inst Nat) : String :=
  (match p.labelAt? pc with
  | some l => l.text ++ ":\n"
  | none => "") ++
    paddedText pc ++ ": " ++ i.linkedText ++ p.remark pc i ++ "\n"

/-- All instructions with their addresses and labels. -/
def listing (p : Program) : String :=
  String.join (p.code.toList.zipIdx.map fun (i, pc) => p.instListing pc i)

end Program

end MiniScheme
