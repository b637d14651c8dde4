import MiniScheme.Token

/-!
# Data

The list structure of program text: a datum is an atom or a list of data. Each datum carries the
offset of its first token. Lists may nest up to a limit.
-/

namespace MiniScheme

/-- An atom or a list, with the offset of its first token. -/
inductive Datum where
  | atom (atom : Atom) (offset : Nat)
  | list (items : List Datum) (offset : Nat)

namespace Datum

/-- Offset of the first token of a datum. -/
def offset : Datum → Nat
  | atom _ o => o
  | list _ o => o

/-- The deepest nesting of lists that is read. -/
def maxNesting : Nat := 64

/-- A list whose closing bracket has not been met: the offset of its opening bracket and its
items so far, the last one first. -/
structure OpenList where
  offset : Nat
  items : List Datum

/-- An open list with one more item. -/
def OpenList.add (l : OpenList) (d : Datum) : OpenList :=
  ⟨l.offset, d :: l.items⟩

/-- The list that a closing bracket makes of an open list. -/
def OpenList.close (l : OpenList) : Datum :=
  list l.items.reverse l.offset

/-- Takes one datum off the front of a list of tokens and gives the tokens after it. `depth` counts
the brackets that are open and is given back as well. `opened` holds the lists that are open, the
innermost first, and `fileEnd` is the offset of the end of the text. -/
def parse (fileEnd : Nat) : (depth : Nat) → (opened : List OpenList) → List Located →
    Except Error (Datum × List Located × Nat)
  | _, [], [] => .error (.read fileEnd .unexpectedEnd)
  | _, l :: _, [] => .error (.read l.offset .unclosed)
  | depth, [], ⟨.atom a, o⟩ :: ts => .ok (atom a o, ts, depth)
  | depth, l :: ls, ⟨.atom a, o⟩ :: ts => parse fileEnd depth (l.add (atom a o) :: ls) ts
  | _, [], ⟨.closing, o⟩ :: _ => .error (.read o .unexpectedClose)
  | depth, [l], ⟨.closing, _⟩ :: ts => .ok (l.close, ts, depth - 1)
  | depth, l :: l' :: ls, ⟨.closing, _⟩ :: ts => parse fileEnd (depth - 1) (l'.add l.close :: ls) ts
  | depth, ls, ⟨.opening, o⟩ :: ts =>
    if depth = maxNesting then .error (.read o .nestingTooDeep)
    else parse fileEnd (depth + 1) (⟨o, []⟩ :: ls) ts

/-- The single datum of a program text. -/
def ofText (source : String) : Except Error Datum := do
  let tokens ← Token.ofText source
  let (d, rest, _) ← parse source.utf8ByteSize 0 [] tokens
  match rest with
  | [] => return d
  | t :: _ => throw (.read t.offset .trailingInput)

end Datum

end MiniScheme
