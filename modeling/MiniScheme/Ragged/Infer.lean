import MiniScheme.Ragged.Basic
import MiniScheme.Table
import MiniScheme.Ty.Infer

/-!
# Inference with side tables

One walk gives the nodes of a tagged tree their types and writes them into tables, by the numbers
of the nodes. A second walk looks the types up again and collects what has to be equal. The first
walk goes along names and values together and misses what is surplus; the second one visits every
value, and where it needs a type that was never written down the program panics.
-/

namespace MiniScheme

/-- Types of nodes and members, and the arrows of the procedures of groups by the numbers of their
members. -/
structure SideTables where
  types : Table Nat Ty
  arrows : Table Nat Ty

/-- Computations that draw type variables and write into the tables. -/
abbrev AnnotateM := StateT SideTables InferM

namespace AnnotateM

/-- Writes the type of a node down. -/
def record (t : Nat) (ty : Ty) : AnnotateM Ty := do
  modify fun s => { s with types := s.types.insert t ty }
  return ty

/-- Writes the arrow of a procedure down. -/
def recordArrow (t : Nat) (ty : Ty) : AnnotateM Unit :=
  modify fun s => { s with arrows := s.arrows.insert t ty }

/-- New type variables for the members of a group that have a name and a number. -/
def recordMembers : List Name → List Nat → AnnotateM (List Ty)
  | _ :: xs, t :: ts => do
    let ty ← InferM.fresh
    let ty ← record t ty
    return ty :: (← recordMembers xs ts)
  | _, _ => return []

end AnnotateM

namespace Ragged

open AnnotateM InferM

mutual
/-- Gives the nodes of a tree their types. -/
def annotate (scope : TypeScope) : Ragged Nat → AnnotateM Ty
  | lit v t => record t v.ty
  | var x t => do
    let ty ← typeOfName scope x
    record t ty
  | cond test yes no t => do
    let _ ← annotate scope test
    let _ ← annotate scope yes
    let _ ← annotate scope no
    let ty ← fresh
    record t ty
  | lambda params body t => do
    let tys ← freshFor params
    let body ← annotate (scope.enter params tys) body
    record t (.arrow (tys ++ [body]))
  | assign _ _ _ => throw (.rejected .assign)
  | app func args t => do
    let _ ← annotate scope func
    let _ ← annotateList scope args
    let ty ← fresh
    record t ty
  | letIn names inits body t => do
    let tys ← annotateInits scope names inits
    let _ ← annotate (scope.enter names tys) body
    let ty ← fresh
    record t ty
  | letrec _ _ _ _ => throw (.rejected .letrec)
  | fix names ts procs body t => do
    let tys ← recordMembers names ts
    annotateProcs (scope.enter names tys) ts procs
    let _ ← annotate (scope.enter names tys) body
    let ty ← fresh
    record t ty
  | seq items t => do
    let tys ← annotateList scope items
    match tys.getLast? with
    | some ty => record t ty
    | none => throw .emptySequence
termination_by structural e => e

def annotateList (scope : TypeScope) : List (Ragged Nat) → AnnotateM (List Ty)
  | [] => return []
  | e :: es => do
    let first ← annotate scope e
    return first :: (← annotateList scope es)
termination_by structural es => es

/-- `annotate` on the values that have a name. -/
def annotateInits (scope : TypeScope) : List Name → List (Ragged Nat) → AnnotateM (List Ty)
  | _ :: xs, e :: es => do
    let first ← annotate scope e
    return first :: (← annotateInits scope xs es)
  | _, _ => return []
termination_by structural _ es => es

/-- `annotate` on the procedures that have a number. -/
def annotateProcs (scope : TypeScope) :
    List Nat → List (Procedure (Ragged Nat)) → AnnotateM Unit
  | t :: ts, ⟨params, body⟩ :: ps => do
    let tys ← freshFor params
    let body ← annotate (scope.enter params tys) body
    recordArrow t (.arrow (tys ++ [body]))
    annotateProcs scope ts ps
  | _, _ => return ()
termination_by structural _ ps => ps
end

mutual
/-- The constraints between the types of the nodes of a tree, if all that are needed are in the
tables. -/
def collect (tables : SideTables) : Ragged Nat → Option (List Constraint)
  | lit _ _ => some []
  | var _ _ => some []
  | cond test yes no t => do
    let cs ← collect tables test
    let cs' ← collect tables yes
    let cs'' ← collect tables no
    let test ← tables.types.lookup test.tag
    let yes ← tables.types.lookup yes.tag
    let no ← tables.types.lookup no.tag
    let ty ← tables.types.lookup t
    return cs ++ cs' ++ cs'' ++ [(test, .bool), (yes, no), (yes, ty)]
  | lambda _ body _ => collect tables body
  | assign _ _ _ => some []
  | app func args t => do
    let cs ← collect tables func
    let cs' ← collectList tables args
    let func ← tables.types.lookup func.tag
    let args ← args.mapM fun arg => tables.types.lookup arg.tag
    let ty ← tables.types.lookup t
    return cs ++ cs' ++ [(func, .arrow (args ++ [ty]))]
  | letIn _ inits body t => do
    let cs ← collectList tables inits
    let cs' ← collect tables body
    let ty ← tables.types.lookup t
    let body ← tables.types.lookup body.tag
    return cs ++ cs' ++ [(ty, body)]
  | letrec _ _ _ _ => some []
  | fix _ ts procs body t => do
    let members ← ts.mapM fun t => do
      return (← tables.types.lookup t, ← tables.arrows.lookup t)
    let cs ← collectProcs tables procs
    let cs' ← collect tables body
    let ty ← tables.types.lookup t
    let body ← tables.types.lookup body.tag
    return members ++ cs ++ cs' ++ [(ty, body)]
  | seq items _ => collectList tables items
termination_by structural e => e

def collectList (tables : SideTables) : List (Ragged Nat) → Option (List Constraint)
  | [] => some []
  | e :: es => do return (← collect tables e) ++ (← collectList tables es)
termination_by structural es => es

def collectProcs (tables : SideTables) :
    List (Procedure (Ragged Nat)) → Option (List Constraint)
  | [] => some []
  | ⟨_, body⟩ :: ps => do return (← collect tables body) ++ (← collectProcs tables ps)
termination_by structural ps => ps
end

/-- The problem that a tagged tree poses. -/
def typingProblem (e : Ragged Nat) : Except Fault TypingProblem :=
  match ((e.annotate []).run ⟨[], []⟩).run ⟨0, []⟩ with
  | .error err => .error (.error err)
  | .ok ((ty, tables), s) =>
    match e.collect tables with
    | some constraints => .ok ⟨⟨ty, tables.types, constraints⟩, s.next⟩
    | none => .error .panic

/-- Types a tagged tree. -/
def infer (e : Ragged Nat) : Except Fault Typing := do
  let problem ← e.typingProblem
  problem.solve.mapError .error

end Ragged

end MiniScheme
