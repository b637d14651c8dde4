/-!
# Blank characters

The characters with the Unicode property `White_Space`. They separate tokens and have no other
meaning.
-/

namespace MiniScheme.Text

/-- First and last code point of each run of blank characters, in increasing order. -/
def blankRanges : List (Nat × Nat) :=
  [(0x0009, 0x000D), (0x0020, 0x0020), (0x0085, 0x0085), (0x00A0, 0x00A0), (0x1680, 0x1680),
    (0x2000, 0x200A), (0x2028, 0x2029), (0x202F, 0x202F), (0x205F, 0x205F), (0x3000, 0x3000)]

/-- Whether a code point lies in one of the given ranges, which have to be in increasing order. -/
def inRanges : (ranges : List (Nat × Nat)) → (n : Nat) → Bool
  | [], _ => false
  | (first, last) :: rest, n => first ≤ n && (n ≤ last || inRanges rest n)

/-- A character that separates tokens and is otherwise ignored. -/
def isBlank (c : Char) : Bool :=
  inRanges blankRanges c.toNat

/-- Every character that the core library calls white space is blank. -/
theorem isBlank_of_isWhitespace (c : Char) (h : c.isWhitespace = true) : isBlank c = true := by
  simp only [Char.isWhitespace, Bool.or_eq_true, decide_eq_true_eq] at h
  rcases h with ((h | h) | h) | h <;> subst h <;> decide

end MiniScheme.Text
