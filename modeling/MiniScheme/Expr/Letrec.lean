import MiniScheme.Emit
import MiniScheme.Error
import MiniScheme.Expr.Basic

/-!
# Fixing `letrec`

A `letrec` that binds lambdas only is a group of mutually recursive procedures and becomes a `fix`.
One that binds anything else would need mutable cells and is refused.
-/

namespace MiniScheme.Expr

variable {α : Type}

mutual
/-- Turns every `letrec` into a `fix` and emits the names of each group. Members keep the
annotations of their lambdas. -/
def fixLetrec : Expr α → Emit (List Name) Error (Expr α)
  | lit v t => return lit v t
  | var x t => return var x t
  | cond test yes no t => do
    return cond (← fixLetrec test) (← fixLetrec yes) (← fixLetrec no) t
  | lambda params body t => do return lambda params (← fixLetrec body) t
  | assign x value t => do return assign x (← fixLetrec value) t
  | app func args t => do return app (← fixLetrec func) (← fixLetrecList args) t
  | letIn bindings body t => do
    return letIn (← fixLetrecBindings bindings) (← fixLetrec body) t
  | letrec bindings body t => do
    let members ← membersOfBindings bindings
    Emit.emit (bindings.map (·.1))
    return fix members (← fixLetrec body) t
  | fix members body t => do
    return fix (← fixLetrecMembers members) (← fixLetrec body) t
  | seq items t => do return seq (← fixLetrecList items) t
termination_by structural e => e

def fixLetrecList : List (Expr α) → Emit (List Name) Error (List (Expr α))
  | [] => return []
  | e :: es => do return (← fixLetrec e) :: (← fixLetrecList es)
termination_by structural es => es

def fixLetrecBindings : List (Name × Expr α) → Emit (List Name) Error (List (Name × Expr α))
  | [] => return []
  | (x, e) :: bs => do return (x, ← fixLetrec e) :: (← fixLetrecBindings bs)
termination_by structural bs => bs

def fixLetrecMembers :
    List (Member α (Expr α)) → Emit (List Name) Error (List (Member α (Expr α)))
  | [] => return []
  | ⟨x, t, params, body⟩ :: ms => do
    return ⟨x, t, params, ← fixLetrec body⟩ :: (← fixLetrecMembers ms)
termination_by structural ms => ms

/-- The group that the bindings of a `letrec` make, if all of them are lambdas. -/
def membersOfBindings :
    List (Name × Expr α) → Emit (List Name) Error (List (Member α (Expr α)))
  | [] => return []
  | (x, lambda params body t) :: bs => do
    return ⟨x, t, params, ← fixLetrec body⟩ :: (← membersOfBindings bs)
  | (x, _) :: _ => Emit.fail (.notLambda x)
termination_by structural bs => bs
end

end MiniScheme.Expr
