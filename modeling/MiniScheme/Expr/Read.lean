import MiniScheme.Datum
import MiniScheme.Expr.Basic
import MiniScheme.Expr.Keyword

/-!
# Reading expressions

A datum becomes an expression. A list that starts with a keyword is a special form, every other
list is an application. A body of several expressions becomes a sequence.
-/

namespace MiniScheme

namespace Datum

/-- The name a datum consists of. -/
def toName : Datum → Except Error Name
  | atom (.name x) _ => .ok x
  | atom (.lit _) o => .error (.read o .expectedName)
  | list _ o => .error (.read o .expectedName)

/-- The names that the items of a datum consist of. -/
def toNames : Datum → Except Error (List Name)
  | atom _ o => .error (.read o .expectedList)
  | list items _ => items.mapM toName

/-- The keyword a datum consists of. -/
def keyword? : Datum → Option Keyword
  | atom (.name x) _ => Keyword.ofName? x
  | atom (.lit _) _ => none
  | list _ _ => none

end Datum

namespace Expr

mutual
/-- The expression that a datum stands for. -/
def ofDatum : Datum → Except Error (Expr Unit)
  | .atom (.lit v) _ => .ok (lit v ())
  | .atom (.name x) _ => .ok (var x ())
  | .list [] o => .error (.read o .emptyApplication)
  | .list (head :: rest) o =>
    match head.keyword?, rest with
    | some .lambda, params :: items => do
      return lambda (← params.toNames) (← ofBody o items) ()
    | some .letIn, bindings :: items => do
      return letIn (← ofBindingList bindings) (← ofBody o items) ()
    | some .letrec, bindings :: items => do
      return letrec (← ofBindingList bindings) (← ofBody o items) ()
    | some .fix, members :: items => do
      return fix (← ofMemberList members) (← ofBody o items) ()
    | some .cond, [test, yes, no] => do
      return cond (← ofDatum test) (← ofDatum yes) (← ofDatum no) ()
    | some .cond, _ => .error (.read o .conditionalOperands)
    | some .sequence, [] => .error (.read o .emptyBegin)
    | some .sequence, item :: items => do
      return seq ((← ofDatum item) :: (← ofData items)) ()
    | some .assign, [x, value] => do
      return assign (← x.toName) (← ofDatum value) ()
    | some k, _ => .error (.read o (.malformedForm k.text))
    | none, args => do
      return app (← ofDatum head) (← ofData args) ()
termination_by structural d => d

def ofData : List Datum → Except Error (List (Expr Unit))
  | [] => .ok []
  | d :: ds => do return (← ofDatum d) :: (← ofData ds)
termination_by structural ds => ds

/-- The body of the form at an offset. -/
def ofBody (offset : Nat) : List Datum → Except Error (Expr Unit)
  | [] => .error (.read offset .emptyBody)
  | [d] => ofDatum d
  | d :: d' :: ds => do
    return seq ((← ofDatum d) :: (← ofDatum d') :: (← ofData ds)) ()
termination_by structural ds => ds

/-- The bindings of a `let` or `letrec`. -/
def ofBindingList : Datum → Except Error (List (Name × Expr Unit))
  | .atom _ o => .error (.read o .expectedList)
  | .list items _ => ofBindings items
termination_by structural d => d

/-- Bindings, each a list of a name and an expression. -/
def ofBindings : List Datum → Except Error (List (Name × Expr Unit))
  | [] => .ok []
  | .atom _ o :: _ => .error (.read o .expectedList)
  | .list [x, init] _ :: ds => do
    return (← x.toName, ← ofDatum init) :: (← ofBindings ds)
  | .list _ o :: _ => .error (.read o .malformedBinding)
termination_by structural ds => ds

/-- The members of a `fix`. -/
def ofMemberList : Datum → Except Error (List (Member Unit (Expr Unit)))
  | .atom _ o => .error (.read o .expectedList)
  | .list items _ => ofMembers items
termination_by structural d => d

/-- Members of a recursive group, each a list of a name, a list of parameters and a body. -/
def ofMembers : List Datum → Except Error (List (Member Unit (Expr Unit)))
  | [] => .ok []
  | .atom _ o :: _ => .error (.read o .expectedList)
  | .list (x :: params :: items) o :: ds => do
    return ⟨← x.toName, (), ← params.toNames, ← ofBody o items⟩ :: (← ofMembers ds)
  | .list _ o :: _ => .error (.read o .malformedFixBinding)
termination_by structural ds => ds
end

/-- Reads the single expression of a program text. -/
def read (source : String) : Except Error (Expr Unit) :=
  Datum.ofText source >>= ofDatum

end Expr

end MiniScheme
