import MiniScheme.Error
import MiniScheme.Expr.Basic

/-!
# Type inference

A walk over a tagged tree gives every node a type, drawing new variables where the type is not
yet known, and collects what has to be equal. Solving the constraints then gives the type of
every node. All binders are monomorphic; only primitives are used at many types.
-/

namespace MiniScheme

/-- Types by number of node or group member. -/
abbrev TypeTable := List (Nat × Ty)

/-- The next unused type variable, and the types given to names that are neither bound nor
primitive. Type variables are not bounded by a machine word. -/
structure InferState where
  next : Nat
  unknown : List (Name × Ty)

/-- Computations that draw type variables and may refuse a tree. -/
abbrev InferM := StateT InferState (Except Error)

/-- Types of the names in scope, the innermost first. -/
abbrev TypeScope := List (Name × Ty)

/-- What the walk finds out about a tree: its type, the types of its nodes and the constraints
between them. -/
structure Judgement where
  ty : Ty
  types : TypeTable
  constraints : List Constraint

/-- What the walk finds out about several trees. -/
structure Judgements where
  tys : List Ty
  types : TypeTable
  constraints : List Constraint

namespace InferM

def fresh : InferM Ty :=
  modifyGet fun s => (.var s.next, { s with next := s.next + 1 })

/-- As many new type variables as there are names. -/
def freshFor : List Name → InferM (List Ty)
  | [] => return []
  | _ :: xs => do return (← fresh) :: (← freshFor xs)

/-- Type of a reference: of the innermost binder, else of a new use of a primitive, else the one
type of an unknown name. -/
def typeOfName (scope : TypeScope) (x : Name) : InferM Ty :=
  match scope.lookup x with
  | some ty => return ty
  | none =>
    match Primitive.ofName? x with
    | some p =>
      modifyGet fun s =>
        let (ty, next) := p.scheme.instantiate s.next
        (ty, { s with next })
    | none => do
      match (← get).unknown.lookup x with
      | some ty => return ty
      | none =>
        let ty ← fresh
        modify fun s => { s with unknown := (x, ty) :: s.unknown }
        return ty

end InferM

namespace TypeScope

/-- Brings names with their types into scope; of two equal names the later one counts. -/
def enter (scope : TypeScope) (names : List Name) (tys : List Ty) : TypeScope :=
  (names.zip tys).reverse ++ scope

end TypeScope

namespace Literal

def ty : Literal → Ty
  | int _ => .int
  | bool _ => .bool

end Literal

namespace Expr

open InferM

mutual
/-- Gives every node of a tree a type and collects the constraints. -/
def annotate (scope : TypeScope) : Expr Nat → InferM Judgement
  | lit v t => return ⟨v.ty, [(t, v.ty)], []⟩
  | var x t => do
    let ty ← typeOfName scope x
    return ⟨ty, [(t, ty)], []⟩
  | cond test yes no t => do
    let test ← annotate scope test
    let yes ← annotate scope yes
    let no ← annotate scope no
    let ty ← fresh
    return ⟨ty, test.types ++ yes.types ++ no.types ++ [(t, ty)],
      test.constraints ++ yes.constraints ++ no.constraints ++
        [(test.ty, .bool), (yes.ty, no.ty), (yes.ty, ty)]⟩
  | lambda params body t => do
    let tys ← freshFor params
    let body ← annotate (scope.enter params tys) body
    let ty := .arrow (tys ++ [body.ty])
    return ⟨ty, body.types ++ [(t, ty)], body.constraints⟩
  | assign _ _ _ => throw (.rejected .assign)
  | app func args t => do
    let func ← annotate scope func
    let args ← annotateList scope args
    let ty ← fresh
    return ⟨ty, func.types ++ args.types ++ [(t, ty)],
      func.constraints ++ args.constraints ++ [(func.ty, .arrow (args.tys ++ [ty]))]⟩
  | letIn bindings body t => do
    let inits ← annotateBindings scope bindings
    let body ← annotate (scope.enter (bindings.map (·.1)) inits.tys) body
    let ty ← fresh
    return ⟨ty, inits.types ++ body.types ++ [(t, ty)],
      inits.constraints ++ body.constraints ++ [(ty, body.ty)]⟩
  | letrec _ _ _ => throw (.rejected .letrec)
  | fix members body t => do
    let tys ← freshFor (members.map (·.name))
    let scope := scope.enter (members.map (·.name)) tys
    let procs ← annotateMembers scope members
    let body ← annotate scope body
    let ty ← fresh
    return ⟨ty, (members.map (·.tag)).zip tys ++ procs.types ++ body.types ++ [(t, ty)],
      tys.zip procs.tys ++ procs.constraints ++ body.constraints ++ [(ty, body.ty)]⟩
  | seq items t => do
    let items ← annotateList scope items
    match items.tys.getLast? with
    | some ty => return ⟨ty, items.types ++ [(t, ty)], items.constraints⟩
    | none => throw .emptySequence
termination_by structural e => e

def annotateList (scope : TypeScope) : List (Expr Nat) → InferM Judgements
  | [] => return ⟨[], [], []⟩
  | e :: es => do
    let first ← annotate scope e
    let rest ← annotateList scope es
    return ⟨first.ty :: rest.tys, first.types ++ rest.types,
      first.constraints ++ rest.constraints⟩
termination_by structural es => es

def annotateBindings (scope : TypeScope) : List (Name × Expr Nat) → InferM Judgements
  | [] => return ⟨[], [], []⟩
  | (_, e) :: bs => do
    let first ← annotate scope e
    let rest ← annotateBindings scope bs
    return ⟨first.ty :: rest.tys, first.types ++ rest.types,
      first.constraints ++ rest.constraints⟩
termination_by structural bs => bs

/-- `annotate` on the procedures of a group; the types are their arrows. -/
def annotateMembers (scope : TypeScope) : List (Member Nat (Expr Nat)) → InferM Judgements
  | [] => return ⟨[], [], []⟩
  | ⟨_, _, params, body⟩ :: ms => do
    let tys ← freshFor params
    let body ← annotate (scope.enter params tys) body
    let rest ← annotateMembers scope ms
    return ⟨.arrow (tys ++ [body.ty]) :: rest.tys, body.types ++ rest.types,
      body.constraints ++ rest.constraints⟩
termination_by structural ms => ms
end

end Expr

/-! ### Solving -/

/-- The type of a tree and of all its nodes and group members. -/
structure Typing where
  root : Ty
  types : TypeTable

/-- What has to be solved to type a tree, and the number of type variables drawn for it. -/
structure TypingProblem where
  judgement : Judgement
  drawn : Nat

namespace TypingProblem

/-- The problem that a tagged tree poses. -/
def ofExpr (e : Expr Nat) : Except Error TypingProblem := do
  let (judgement, s) ← (e.annotate []).run ⟨0, []⟩
  return ⟨judgement, s.next⟩

/-- Solves the constraints and puts the solution into all types. -/
def solve (p : TypingProblem) : Except Error Typing :=
  match unify p.judgement.constraints with
  | .error cause => .error (.illTyped cause)
  | .ok s => .ok ⟨s.apply p.judgement.ty, p.judgement.types.map fun (t, ty) => (t, s.apply ty)⟩

end TypingProblem

/-- Types a tagged tree. -/
def Expr.infer (e : Expr Nat) : Except Error Typing :=
  TypingProblem.ofExpr e >>= TypingProblem.solve

end MiniScheme
