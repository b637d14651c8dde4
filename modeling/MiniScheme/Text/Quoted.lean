import MiniScheme.Text.Mark
import MiniScheme.Text.Unprinted

/-!
# Quoted text

Names in messages stand between double quotes. A quote and a backslash get a backslash in front,
line breaks and tabs are written with a letter, and marks and other characters without a printed
form of their own are written by their code point.
-/

namespace MiniScheme.Text

/-- One character inside quotes. -/
def quotedChar (c : Char) : List Char :=
  if c = '"' then ['\\', '"']
  else if c = '\\' then ['\\', '\\']
  else if c = '\n' then ['\\', 'n']
  else if c = '\r' then ['\\', 'r']
  else if c = '\t' then ['\\', 't']
  else if c = '\x00' then ['\\', '0']
  else if isMark c || isUnprinted c then
    ['\\', 'u', '\x7b'] ++ Nat.toDigits 16 c.toNat ++ ['\x7d']
  else [c]

/-- A text between double quotes. -/
def quoted (s : String) : String :=
  String.ofList ('"' :: s.toList.flatMap quotedChar ++ ['"'])

/-- A list of quoted texts in brackets. -/
def quotedList (ss : List String) : String :=
  "[" ++ ", ".intercalate (ss.map quoted) ++ "]"

end MiniScheme.Text
