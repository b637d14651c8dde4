import MiniScheme.Label
import MiniScheme.Trap
import MiniScheme.Ty.Unify

/-!
# Errors

Every stage succeeds as a whole or ends in one of these errors. Each error is a cause; its
wording is given by `Error.message` alone.
-/

namespace MiniScheme

/-- Why program text cannot be read. -/
inductive ReadFault where
  | unknownLiteral (text : String)
  | integerRange (text : String)
  | unexpectedEnd
  | unexpectedClose
  | unclosed
  | nestingTooDeep
  | trailingInput
  | expectedName
  | expectedList
  | emptyApplication
  | emptyBody
  | emptyBegin
  | conditionalOperands
  | malformedForm (keyword : Name)
  | malformedBinding
  | malformedFixBinding
  deriving DecidableEq

def ReadFault.message : ReadFault → String
  | unknownLiteral s => "unknown literal `" ++ s ++ "`"
  | integerRange s => "integer `" ++ s ++ "` out of range"
  | unexpectedEnd => "unexpected end of input"
  | unexpectedClose => "unexpected `)`"
  | unclosed => "unclosed `(`"
  | nestingTooDeep => "nesting too deep"
  | trailingInput => "unexpected trailing input"
  | expectedName => "expected an identifier"
  | expectedList => "expected a list"
  | emptyApplication => "empty application"
  | emptyBody => "empty body"
  | emptyBegin => "empty `begin`"
  | conditionalOperands => "`if` takes exactly three operands"
  | malformedForm k => "malformed `" ++ k ++ "`"
  | malformedBinding => "malformed binding"
  | malformedFixBinding => "malformed fix binding"

/-- A form that is read but neither typed, compiled nor evaluated. -/
inductive RejectedForm where
  | assign
  | letrec
  deriving DecidableEq

/-- Keyword of a rejected form. -/
def RejectedForm.text : RejectedForm → String
  | assign => "set!"
  | letrec => "letrec"

/-- Why a program was not read, compiled or run to its end. The offset of a read error counts
bytes of UTF-8. -/
inductive Error where
  | read (offset : Nat) (fault : ReadFault)
  | notLambda (name : Name)
  | rejected (form : RejectedForm)
  | emptySequence
  | tooDeep (limit : Nat)
  | unbound (name : Name)
  | illTyped (cause : TypeError)
  | unresolvedLabel (label : Label)
  | trap (cause : Trap)
  deriving DecidableEq

def Error.message : Error → String
  | read offset fault => "read error at " ++ toString offset ++ ": " ++ fault.message
  | notLambda x => "letrec binding `" ++ x ++ "` is not a lambda"
  | rejected form => "unsupported construct: " ++ form.text
  | emptySequence => "empty sequence"
  | tooDeep n => "expression nested deeper than " ++ toString n ++ " levels"
  | unbound x => "unbound variable `" ++ x ++ "`"
  | illTyped cause => "type error: " ++ cause.message
  | unresolvedLabel l => "unresolved label " ++ l.text
  | trap cause => "vm trap: " ++ cause.message

/-- Why a computation gives no result: an error that it reports, or a panic, which ends the whole
program. -/
inductive Fault where
  | error (cause : Error)
  | panic
  deriving DecidableEq

end MiniScheme
