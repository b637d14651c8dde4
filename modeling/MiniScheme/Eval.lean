import MiniScheme.Error
import MiniScheme.Expr.Basic
import MiniScheme.Primitive.Apply

/-!
# Direct evaluation

The reference semantics that compiled code is compared with. Trees are evaluated directly in
lexical environments. Calls may nest up to a limit, so evaluation always ends. The clock stands
still: `time` reports zero.
-/

namespace MiniScheme.Eval

mutual
inductive Value (α : Type) where
  | lit (value : Literal)
  | closure (params : List Name) (body : Expr α) (env : Env α)
  | prim (primitive : Primitive)

/-- The names in scope, the innermost first. The members of a recursive group are closures over
the environment that starts with the group. -/
inductive Env (α : Type) where
  | empty
  | bind (name : Name) (value : Value α) (rest : Env α)
  | group (members : List (Member α (Expr α))) (rest : Env α)
end

variable {α : Type}

namespace Value

/-- The literal a value is, if it is one. -/
def literal? : Value α → Option Literal
  | lit v => some v
  | _ => none

/-- Whether a value makes a condition fail. -/
def isFalse : Value α → Bool
  | lit v => v.isFalse
  | _ => false

def text : Value α → String
  | lit v => v.text
  | closure params _ _ => "#<procedure (" ++ " ".intercalate params ++ ")>"
  | prim p => "#<primitive " ++ p.name ++ ">"

end Value

namespace Env

/-- The value of a name in scope. Of equal names in a group the last one counts. -/
def find? : Env α → Name → Option (Value α)
  | empty, _ => none
  | bind y v rest, x => if y = x then some v else rest.find? x
  | group ms rest, x =>
    match ms.reverse.find? (·.name = x) with
    | some m => some (.closure m.params m.body (group ms rest))
    | none => rest.find? x

/-- Binds names to values from first to last, so that of equal names the last one counts. -/
def bindAll : Env α → List Name → List (Value α) → Env α
  | env, x :: xs, v :: vs => bindAll (bind x v env) xs vs
  | env, _, _ => env

/-- The value of a name: in scope, else a primitive. -/
def lookup (env : Env α) (x : Name) : Except Error (Value α) :=
  match env.find? x with
  | some v => .ok v
  | none =>
    match Primitive.ofName? x with
    | some p => .ok (.prim p)
    | none => .error (.unbound x)

end Env

/-- What a call does: the result of a procedure on arguments. -/
abbrev Caller (α : Type) := Value α → List (Value α) → Except Error (Value α)

mutual
/-- Value of an expression in an environment, `call` doing the calls. -/
def evalWith (call : Caller α) (env : Env α) : Expr α → Except Error (Value α)
  | .lit v _ => .ok (.lit v)
  | .var x _ => env.lookup x
  | .cond test yes no _ => do
    let v ← evalWith call env test
    if v.isFalse then evalWith call env no else evalWith call env yes
  | .lambda params body _ => .ok (.closure params body env)
  | .assign _ _ _ => .error (.rejected .assign)
  | .app func args _ => do
    let f ← evalWith call env func
    let vs ← evalListWith call env args
    call f vs
  | .letIn bindings body _ => do
    let vs ← evalBindingsWith call env bindings
    evalWith call (env.bindAll (bindings.map (·.1)) vs) body
  | .letrec _ _ _ => .error (.rejected .letrec)
  | .fix members body _ => evalWith call (.group members env) body
  | .seq items _ => evalSeqWith call env items
termination_by structural e => e

/-- Values of expressions from first to last. -/
def evalListWith (call : Caller α) (env : Env α) :
    List (Expr α) → Except Error (List (Value α))
  | [] => .ok []
  | e :: es => do
    let v ← evalWith call env e
    let vs ← evalListWith call env es
    return v :: vs
termination_by structural es => es

def evalBindingsWith (call : Caller α) (env : Env α) :
    List (Name × Expr α) → Except Error (List (Value α))
  | [] => .ok []
  | (_, e) :: bs => do
    let v ← evalWith call env e
    let vs ← evalBindingsWith call env bs
    return v :: vs
termination_by structural bs => bs

/-- Value of the last item of a sequence, after all others have been evaluated. -/
def evalSeqWith (call : Caller α) (env : Env α) : List (Expr α) → Except Error (Value α)
  | [] => .error .emptySequence
  | [e] => evalWith call env e
  | e :: e' :: es => do
    let _ ← evalWith call env e
    evalSeqWith call env (e' :: es)
termination_by structural es => es
end

/-! ### Calls -/

/-- The deepest nesting of calls. -/
def maxCallDepth : Nat := 128

/-- The arguments of a primitive, which have to be literals. -/
def operands (p : Primitive) : List (Value α) → Except Error (List Literal)
  | [] => .ok []
  | v :: vs =>
    match v.literal? with
    | some l => (operands p vs).map (l :: ·)
    | none => .error (.trap (.notLiteral p v.text))

def applyPrimitive (p : Primitive) (args : List (Value α)) : Except Error (Value α) := do
  let ls ← operands p args
  match p.apply ls 0 with
  | .ok l => return .lit l
  | .error t => throw (.trap t)

/-- Calls a procedure when `remaining` more calls may be nested in each other. The nesting of
calls is checked before the number of arguments. -/
def call : (remaining : Nat) → Caller α
  | _, .lit v, _ => .error (.trap (.notProcedure v.text))
  | _, .prim p, args => applyPrimitive p args
  | 0, .closure _ _ _, _ => .error (.trap (.callDepth maxCallDepth))
  | remaining + 1, .closure params body env, args =>
    if params.length = args.length then
      evalWith (call remaining) (env.bindAll params args) body
    else .error (.trap (.procedureArity params.length args.length))

/-- Value of an expression in an environment when `depth` calls are in progress. -/
def evalIn (depth : Nat) (env : Env α) (e : Expr α) : Except Error (Value α) :=
  evalWith (call (maxCallDepth - depth)) env e

end MiniScheme.Eval

/-- Value of a program. -/
def MiniScheme.Expr.eval {α : Type} (e : MiniScheme.Expr α) :
    Except MiniScheme.Error (MiniScheme.Eval.Value α) :=
  MiniScheme.Eval.evalIn 0 .empty e
