/-!
# Names and literals

The two atoms of the language: names, which are arbitrary texts, and literals, which are 64-bit
integers with wrapping arithmetic and booleans.
-/

namespace MiniScheme

/-- Spelling of a variable. -/
abbrev Name := String

/-- A constant of the language. -/
inductive Literal where
  | int (value : Int64)
  | bool (value : Bool)
  deriving DecidableEq

namespace Literal

/-- How a literal is written in a program. -/
def text : Literal → String
  | int n => toString n.toInt
  | bool true => "#t"
  | bool false => "#f"

/-- How a literal is written inside a list of operands, with its kind in front. -/
def kindText : Literal → String
  | int n => "Int(" ++ toString n.toInt ++ ")"
  | bool true => "Bool(true)"
  | bool false => "Bool(false)"

/-- The only literal that makes a conditional take its second branch. -/
def isFalse : Literal → Bool
  | bool b => !b
  | int _ => false

end Literal

/-- A list of literals in brackets, each with its kind. -/
def Literal.listText (ls : List Literal) : String :=
  "[" ++ ", ".intercalate (ls.map Literal.kindText) ++ "]"

end MiniScheme
