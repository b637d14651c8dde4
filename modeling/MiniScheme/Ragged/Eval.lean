import MiniScheme.Eval
import MiniScheme.Ragged.Basic

/-!
# Direct evaluation of ragged trees

All values of a binding form are evaluated, and its names are bound to them from first to last.
Values without a name are dropped. A name without a value is in scope all the same: it hides what
is bound outside, and the program panics where it is looked up.
-/

namespace MiniScheme.Ragged

mutual
inductive Value (α : Type) where
  | lit (value : Literal)
  | closure (params : List Name) (body : Ragged α) (env : Env α)
  | prim (primitive : Primitive)

/-- The names in scope, the innermost first. The procedures of a recursive group are closures over
the environment that starts with the group. -/
inductive Env (α : Type) where
  | empty
  | bind (name : Name) (value : Value α) (rest : Env α)
  | vacant (name : Name) (rest : Env α)
  | group (names : List Name) (procs : List (Procedure (Ragged α))) (rest : Env α)
end

variable {α : Type}

namespace Value

/-- The literal a value is, if it is one. -/
def literal? : Value α → Option Literal
  | lit v => some v
  | _ => none

/-- Whether a value makes a condition fail. -/
def isFalse : Value α → Bool
  | lit v => v.isFalse
  | _ => false

def text : Value α → String
  | lit v => v.text
  | closure params _ _ => "#<procedure (" ++ " ".intercalate params ++ ")>"
  | prim p => "#<primitive " ++ p.name ++ ">"

end Value

/-- The place of a name among the names of a group, if it is one of them, and the procedure at this
place, if there is one. Of equal names the last one counts. -/
def findProc? : List Name → List (Procedure (Ragged α)) → Name →
    Option (Option (Procedure (Ragged α)))
  | [], _, _ => none
  | y :: ys, ps, x =>
    match findProc? ys ps.tail x with
    | some p => some p
    | none => if y = x then some ps.head? else none

namespace Env

/-- Binds names to values from first to last. Names for which no value is left are vacant. -/
def bindAll : Env α → List Name → List (Value α) → Env α
  | env, x :: xs, v :: vs => bindAll (bind x v env) xs vs
  | env, x :: xs, [] => bindAll (vacant x env) xs []
  | env, [], _ => env

/-- The value of a name: in scope, else a primitive. -/
def lookup : Env α → Name → Except Fault (Value α)
  | empty, x =>
    match Primitive.ofName? x with
    | some p => .ok (.prim p)
    | none => .error (.error (.unbound x))
  | bind y v rest, x => if y = x then .ok v else rest.lookup x
  | vacant y rest, x => if y = x then .error .panic else rest.lookup x
  | group names procs rest, x =>
    match findProc? names procs x with
    | some (some p) => .ok (.closure p.params p.body (group names procs rest))
    | some none => .error .panic
    | none => rest.lookup x

end Env

/-- What a call does: the result of a procedure on arguments. -/
abbrev Caller (α : Type) := Value α → List (Value α) → Except Fault (Value α)

mutual
/-- Value of an expression in an environment, `call` doing the calls. -/
def evalWith (call : Caller α) (env : Env α) : Ragged α → Except Fault (Value α)
  | lit v _ => .ok (.lit v)
  | var x _ => env.lookup x
  | cond test yes no _ => do
    let v ← evalWith call env test
    if v.isFalse then evalWith call env no else evalWith call env yes
  | lambda params body _ => .ok (.closure params body env)
  | assign _ _ _ => .error (.error (.rejected .assign))
  | app func args _ => do
    let f ← evalWith call env func
    let vs ← evalListWith call env args
    call f vs
  | letIn names inits body _ => do
    let vs ← evalListWith call env inits
    evalWith call (env.bindAll names vs) body
  | letrec _ _ _ _ => .error (.error (.rejected .letrec))
  | fix names _ procs body _ => evalWith call (.group names procs env) body
  | seq items _ => evalSeqWith call env items
termination_by structural e => e

/-- Values of expressions from first to last. -/
def evalListWith (call : Caller α) (env : Env α) :
    List (Ragged α) → Except Fault (List (Value α))
  | [] => .ok []
  | e :: es => do
    let v ← evalWith call env e
    let vs ← evalListWith call env es
    return v :: vs
termination_by structural es => es

/-- Value of the last item of a sequence, after all others have been evaluated. -/
def evalSeqWith (call : Caller α) (env : Env α) : List (Ragged α) → Except Fault (Value α)
  | [] => .error (.error .emptySequence)
  | [e] => evalWith call env e
  | e :: e' :: es => do
    let _ ← evalWith call env e
    evalSeqWith call env (e' :: es)
termination_by structural es => es
end

/-! ### Calls -/

/-- The arguments of a primitive, which have to be literals. -/
def operands (p : Primitive) : List (Value α) → Except Fault (List Literal)
  | [] => .ok []
  | v :: vs =>
    match v.literal? with
    | some l => (operands p vs).map (l :: ·)
    | none => .error (.error (.trap (.notLiteral p v.text)))

def applyPrimitive (p : Primitive) (args : List (Value α)) : Except Fault (Value α) := do
  let ls ← operands p args
  match p.apply ls 0 with
  | .ok l => return .lit l
  | .error t => throw (.error (.trap t))

/-- Calls a procedure when `remaining` more calls may be nested in each other. The nesting of
calls is checked before the number of arguments. -/
def call : (remaining : Nat) → Caller α
  | _, .lit v, _ => .error (.error (.trap (.notProcedure v.text)))
  | _, .prim p, args => applyPrimitive p args
  | 0, .closure _ _ _, _ => .error (.error (.trap (.callDepth Eval.maxCallDepth)))
  | remaining + 1, .closure params body env, args =>
    if params.length = args.length then
      evalWith (call remaining) (env.bindAll params args) body
    else .error (.error (.trap (.procedureArity params.length args.length)))

/-- Value of an expression in an environment when `depth` calls are in progress. -/
def evalIn (depth : Nat) (env : Env α) (e : Ragged α) : Except Fault (Value α) :=
  evalWith (call (Eval.maxCallDepth - depth)) env e

/-- Value of a program. -/
def eval (e : Ragged α) : Except Fault (Value α) :=
  evalIn 0 .empty e

end MiniScheme.Ragged
