import MiniScheme.Error
import MiniScheme.Text.Blank

/-!
# Tokens

Program text is split into tokens: opening and closing brackets, and words between them. A word
is a literal or a name. Blank characters and comments, which run from `;` to the end of the
line, only separate tokens. Each token carries the offset of its first character in bytes of
UTF-8.
-/

namespace MiniScheme

/-- A word of program text. -/
inductive Atom where
  | lit (value : Literal)
  | name (name : Name)
  deriving DecidableEq

/-- A token. Round and square brackets are the same. -/
inductive Token where
  | opening
  | closing
  | atom (atom : Atom)
  deriving DecidableEq

/-- A token with the offset of its first character. -/
structure Located where
  token : Token
  offset : Nat
  deriving DecidableEq

/-- Number of bytes of characters in UTF-8. -/
def byteLength (cs : List Char) : Nat :=
  cs.foldl (fun n c => n + c.utf8Size) 0

/-! ### Words -/

/-- Value of a list of decimal digits. -/
def decimalValue (cs : List Char) : Nat :=
  cs.foldl (fun n c => 10 * n + (c.toNat - '0'.toNat)) 0

/-- The integer written by a word, whatever its size: digits, with at most one minus in
front. -/
def integer? : List Char → Option Int
  | '-' :: c :: cs => if (c :: cs).all Char.isDigit then some (-(decimalValue (c :: cs))) else none
  | c :: cs => if (c :: cs).all Char.isDigit then some (decimalValue (c :: cs)) else none
  | [] => none

/-- Whether an integer is a 64-bit integer. -/
def inWordRange (n : Int) : Bool :=
  Int64.minValue.toInt ≤ n && n ≤ Int64.maxValue.toInt

/-- The meaning of a word. A word that starts with `#` is a boolean, one that looks like an
integer is one, and every other word is a name. -/
def Atom.ofWord (cs : List Char) : Except ReadFault Atom :=
  if cs = ['#', 't'] ∨ cs = ['#', 't', 'r', 'u', 'e'] then .ok (.lit (.bool true))
  else if cs = ['#', 'f'] ∨ cs = ['#', 'f', 'a', 'l', 's', 'e'] then .ok (.lit (.bool false))
  else if cs.head? = some '#' then .error (.unknownLiteral (String.ofList cs))
  else
    match integer? cs with
    | some n =>
      if inWordRange n then .ok (.lit (.int (.ofInt n)))
      else .error (.integerRange (String.ofList cs))
    | none => .ok (.name (String.ofList cs))

/-! ### Scanning -/

/-- Whether a character ends a word. -/
def isDelimiter (c : Char) : Bool :=
  Text.isBlank c || c = '(' || c = ')' || c = ';' || c = '[' || c = ']'

/-- The length of what follows a run of characters. -/
theorem length_dropWhile_le (p : Char → Bool) (cs : List Char) :
    (cs.dropWhile p).length ≤ cs.length := by
  induction cs with
  | nil => simp
  | cons c cs ih =>
    rw [List.dropWhile_cons]
    split
    · exact Nat.le_succ_of_le ih
    · exact Nat.le_refl _

/-- The tokens of a text whose first character has a given offset, or the first word without a
meaning. -/
def Token.scan (offset : Nat) : List Char → Except Error (List Located)
  | [] => .ok []
  | c :: cs =>
    if Text.isBlank c then scan (offset + c.utf8Size) cs
    else if c = ';' then
      scan (offset + byteLength (c :: cs.takeWhile (· ≠ '\n'))) (cs.dropWhile (· ≠ '\n'))
    else if c = '(' ∨ c = '[' then
      (scan (offset + c.utf8Size) cs).map (⟨.opening, offset⟩ :: ·)
    else if c = ')' ∨ c = ']' then
      (scan (offset + c.utf8Size) cs).map (⟨.closing, offset⟩ :: ·)
    else
      let word := c :: cs.takeWhile (!isDelimiter ·)
      match Atom.ofWord word with
      | .error fault => .error (.read offset fault)
      | .ok a =>
        (scan (offset + byteLength word) (cs.dropWhile (!isDelimiter ·))).map
          (⟨.atom a, offset⟩ :: ·)
termination_by cs => cs.length
decreasing_by
  all_goals simp only [List.length_cons]
  all_goals first
    | exact Nat.lt_succ_self _
    | exact Nat.lt_succ_of_le (length_dropWhile_le _ _)

/-- The tokens of a program text. -/
def Token.ofText (source : String) : Except Error (List Located) :=
  scan 0 source.toList

end MiniScheme
