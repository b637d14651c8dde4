import MiniScheme.Emit
import MiniScheme.Error
import MiniScheme.Expr.Rename
import MiniScheme.Ragged.Basic

/-!
# Passes over ragged trees

Free names, alphatization, recovering `let` and fixing `letrec`. All but the last go along names
and along values by themselves, so a name without a value is a binder like any other and a value
without a name is walked over like any other. A `letrec` becomes a group of the values that have
names; the group keeps all names.
-/

namespace MiniScheme.Ragged

variable {α : Type}

/-! ### Free names -/

mutual
/-- All occurrences of names that are neither in `bound` nor bound inside the tree, from left to
right. -/
def freeOccurrences (bound : List Name) : Ragged α → List Name
  | lit _ _ => []
  | var x _ => if x ∈ bound then [] else [x]
  | cond test yes no _ =>
    freeOccurrences bound test ++ freeOccurrences bound yes ++ freeOccurrences bound no
  | lambda params body _ => freeOccurrences (params ++ bound) body
  | assign x value _ => (if x ∈ bound then [] else [x]) ++ freeOccurrences bound value
  | app func args _ => freeOccurrences bound func ++ freeOccurrencesList bound args
  | letIn names inits body _ =>
    freeOccurrencesList bound inits ++ freeOccurrences (names ++ bound) body
  | letrec names inits body _ =>
    freeOccurrencesList (names ++ bound) inits ++ freeOccurrences (names ++ bound) body
  | fix names _ procs body _ =>
    freeOccurrencesProcs (names ++ bound) procs ++ freeOccurrences (names ++ bound) body
  | seq items _ => freeOccurrencesList bound items
termination_by structural e => e

def freeOccurrencesList (bound : List Name) : List (Ragged α) → List Name
  | [] => []
  | e :: es => freeOccurrences bound e ++ freeOccurrencesList bound es
termination_by structural es => es

def freeOccurrencesProcs (bound : List Name) : List (Procedure (Ragged α)) → List Name
  | [] => []
  | ⟨params, body⟩ :: ps =>
    freeOccurrences (params ++ bound) body ++ freeOccurrencesProcs bound ps
termination_by structural ps => ps
end

/-- The names a tree refers to that are neither in `bound` nor bound inside the tree, in the
order of their first occurrence. -/
def free (bound : List Name) (e : Ragged α) : List Name :=
  (freeOccurrences bound e).eraseDups

/-! ### Alphatization -/

mutual
/-- Renames all binders of a tree and the references to them. Takes the counter and gives its
value afterwards. -/
def renameIn (r : Renaming) : Ragged α → Nat → Ragged α × Nat
  | lit v t, n => (lit v t, n)
  | var x t, n => (var (r.find x) t, n)
  | cond test yes no t, n =>
    let test := renameIn r test n
    let yes := renameIn r yes test.2
    let no := renameIn r no yes.2
    (cond test.1 yes.1 no.1 t, no.2)
  | lambda params body t, n =>
    let body := renameIn (r.enter params n) body (n + params.length)
    (lambda (freshNames params n) body.1 t, body.2)
  | assign x value t, n =>
    let value := renameIn r value n
    (assign (r.find x) value.1 t, value.2)
  | app func args t, n =>
    let func := renameIn r func n
    let args := renameListIn r args func.2
    (app func.1 args.1 t, args.2)
  | letIn names inits body t, n =>
    let inits := renameListIn r inits n
    let body := renameIn (r.enter names inits.2) body (inits.2 + names.length)
    (letIn (freshNames names inits.2) inits.1 body.1 t, body.2)
  | letrec names inits body t, n =>
    let inits := renameListIn (r.enter names n) inits (n + names.length)
    let body := renameIn (r.enter names n) body inits.2
    (letrec (freshNames names n) inits.1 body.1 t, body.2)
  | fix names ts procs body t, n =>
    let procs := renameProcsIn (r.enter names n) procs (n + names.length)
    let body := renameIn (r.enter names n) body procs.2
    (fix (freshNames names n) ts procs.1 body.1 t, body.2)
  | seq items t, n =>
    let items := renameListIn r items n
    (seq items.1 t, items.2)
termination_by structural e => e

def renameListIn (r : Renaming) : List (Ragged α) → Nat → List (Ragged α) × Nat
  | [], n => ([], n)
  | e :: es, n =>
    let first := renameIn r e n
    let rest := renameListIn r es first.2
    (first.1 :: rest.1, rest.2)
termination_by structural es => es

def renameProcsIn (r : Renaming) :
    List (Procedure (Ragged α)) → Nat → List (Procedure (Ragged α)) × Nat
  | [], n => ([], n)
  | ⟨params, body⟩ :: ps, n =>
    let body := renameIn (r.enter params n) body (n + params.length)
    let rest := renameProcsIn r ps body.2
    (⟨freshNames params n, body.1⟩ :: rest.1, rest.2)
termination_by structural ps => ps
end

/-- Gives every binder of a tree a name of its own. -/
def rename (e : Ragged α) : Ragged α :=
  (renameIn [] e 0).1

/-! ### Recovering `let` -/

mutual
/-- Turns every direct application of a lambda to the right number of arguments into a `let`. -/
def recoverLet : Ragged α → Ragged α
  | lit v t => lit v t
  | var x t => var x t
  | cond test yes no t => cond (recoverLet test) (recoverLet yes) (recoverLet no) t
  | lambda params body t => lambda params (recoverLet body) t
  | assign x value t => assign x (recoverLet value) t
  | app (lambda params body t') args t =>
    if params.length = args.length then
      letIn params (recoverLetList args) (recoverLet body) t
    else app (lambda params (recoverLet body) t') (recoverLetList args) t
  | app func args t => app (recoverLet func) (recoverLetList args) t
  | letIn names inits body t => letIn names (recoverLetList inits) (recoverLet body) t
  | letrec names inits body t => letrec names (recoverLetList inits) (recoverLet body) t
  | fix names ts procs body t => fix names ts (recoverLetProcs procs) (recoverLet body) t
  | seq items t => seq (recoverLetList items) t
termination_by structural e => e

def recoverLetList : List (Ragged α) → List (Ragged α)
  | [] => []
  | e :: es => recoverLet e :: recoverLetList es
termination_by structural es => es

def recoverLetProcs : List (Procedure (Ragged α)) → List (Procedure (Ragged α))
  | [] => []
  | ⟨params, body⟩ :: ps => ⟨params, recoverLet body⟩ :: recoverLetProcs ps
termination_by structural ps => ps
end

/-! ### Fixing `letrec` -/

mutual
/-- Turns every `letrec` into a `fix` and emits the names of each group. Members keep the
annotations of their lambdas. -/
def fixLetrec : Ragged α → Emit (List Name) Error (Ragged α)
  | lit v t => return lit v t
  | var x t => return var x t
  | cond test yes no t => do
    return cond (← fixLetrec test) (← fixLetrec yes) (← fixLetrec no) t
  | lambda params body t => do return lambda params (← fixLetrec body) t
  | assign x value t => do return assign x (← fixLetrec value) t
  | app func args t => do return app (← fixLetrec func) (← fixLetrecList args) t
  | letIn names inits body t => do
    return letIn names (← fixLetrecList inits) (← fixLetrec body) t
  | letrec names inits body t => do
    let members ← fixLetrecInits names inits
    Emit.emit names
    return fix names (members.map (·.1)) (members.map (·.2)) (← fixLetrec body) t
  | fix names ts procs body t => do
    return fix names ts (← fixLetrecProcs procs) (← fixLetrec body) t
  | seq items t => do return seq (← fixLetrecList items) t
termination_by structural e => e

def fixLetrecList : List (Ragged α) → Emit (List Name) Error (List (Ragged α))
  | [] => return []
  | e :: es => do return (← fixLetrec e) :: (← fixLetrecList es)
termination_by structural es => es

def fixLetrecProcs :
    List (Procedure (Ragged α)) → Emit (List Name) Error (List (Procedure (Ragged α)))
  | [] => return []
  | ⟨params, body⟩ :: ps => do return ⟨params, ← fixLetrec body⟩ :: (← fixLetrecProcs ps)
termination_by structural ps => ps

/-- The annotations and procedures of the values that have names, if all of them are lambdas. -/
def fixLetrecInits :
    List Name → List (Ragged α) → Emit (List Name) Error (List (α × Procedure (Ragged α)))
  | _ :: xs, lambda params body t :: es => do
    return (t, ⟨params, ← fixLetrec body⟩) :: (← fixLetrecInits xs es)
  | x :: _, _ :: _ => Emit.fail (.notLambda x)
  | _, _ => return []
termination_by structural _ es => es
end

end MiniScheme.Ragged
