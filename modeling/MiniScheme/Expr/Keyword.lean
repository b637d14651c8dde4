import MiniScheme.Literal

/-!
# Keywords

The names that make a list a special form instead of an application.
-/

namespace MiniScheme

inductive Keyword where
  | lambda
  | letIn
  | letrec
  | fix
  | cond
  | sequence
  | assign
  deriving DecidableEq

namespace Keyword

def all : List Keyword :=
  [lambda, letIn, letrec, fix, cond, sequence, assign]

def text : Keyword → Name
  | lambda => "lambda"
  | letIn => "let"
  | letrec => "letrec"
  | fix => "fix"
  | cond => "if"
  | sequence => "begin"
  | assign => "set!"

/-- The keyword with a given spelling. -/
def ofName? (x : Name) : Option Keyword :=
  all.find? fun k => k.text = x

theorem ofName?_text (k : Keyword) : ofName? k.text = some k := by
  cases k <;> decide

end Keyword

end MiniScheme
