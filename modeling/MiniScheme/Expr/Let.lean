import MiniScheme.Expr.Basic

/-!
# Recovering `let`

A lambda applied directly to as many arguments as it has parameters is a `let`.
-/

namespace MiniScheme.Expr

variable {α : Type}

mutual
/-- Turns every direct application of a lambda to the right number of arguments into a `let`,
which keeps the annotation of the application. -/
def recoverLet : Expr α → Expr α
  | lit v t => lit v t
  | var x t => var x t
  | cond test yes no t => cond (recoverLet test) (recoverLet yes) (recoverLet no) t
  | lambda params body t => lambda params (recoverLet body) t
  | assign x value t => assign x (recoverLet value) t
  | app (lambda params body t') args t =>
    if params.length = args.length then
      letIn (params.zip (recoverLetList args)) (recoverLet body) t
    else app (lambda params (recoverLet body) t') (recoverLetList args) t
  | app func args t => app (recoverLet func) (recoverLetList args) t
  | letIn bindings body t => letIn (recoverLetBindings bindings) (recoverLet body) t
  | letrec bindings body t => letrec (recoverLetBindings bindings) (recoverLet body) t
  | fix members body t => fix (recoverLetMembers members) (recoverLet body) t
  | seq items t => seq (recoverLetList items) t
termination_by structural e => e

def recoverLetList : List (Expr α) → List (Expr α)
  | [] => []
  | e :: es => recoverLet e :: recoverLetList es
termination_by structural es => es

def recoverLetBindings : List (Name × Expr α) → List (Name × Expr α)
  | [] => []
  | (x, e) :: bs => (x, recoverLet e) :: recoverLetBindings bs
termination_by structural bs => bs

def recoverLetMembers : List (Member α (Expr α)) → List (Member α (Expr α))
  | [] => []
  | ⟨x, t, params, body⟩ :: ms => ⟨x, t, params, recoverLet body⟩ :: recoverLetMembers ms
termination_by structural ms => ms
end

theorem recoverLetList_eq_map (es : List (Expr α)) : recoverLetList es = es.map recoverLet := by
  induction es with
  | nil => rfl
  | cons e es ih => simp [recoverLetList, ih]

end MiniScheme.Expr
