import MiniScheme.Ty.Infer

/-!
# Escaping closure analysis

A node whose type is an arrow has a closure for its value, which may be stored, passed on or
returned. Literals and variables create no closures and are left out. The members of a recursive
group count under their own numbers.
-/

namespace MiniScheme

namespace TypeTable

/-- The number itself, if its type is an arrow. -/
def flagged (types : TypeTable) (t : Nat) : List Nat :=
  match types.lookup t with
  | some ty => if ty.isArrow then [t] else []
  | none => []

end TypeTable

namespace Expr

mutual
/-- Numbers of the nodes and members of a tree that have closures for values, a node before all
that is below it. -/
def escapingIn (types : TypeTable) : Expr Nat → List Nat
  | lit _ _ => []
  | var _ _ => []
  | cond test yes no t =>
    types.flagged t ++ escapingIn types test ++ escapingIn types yes ++ escapingIn types no
  | lambda _ body t => types.flagged t ++ escapingIn types body
  | assign _ value t => types.flagged t ++ escapingIn types value
  | app func args t => types.flagged t ++ escapingIn types func ++ escapingList types args
  | letIn bindings body t =>
    types.flagged t ++ escapingBindings types bindings ++ escapingIn types body
  | letrec bindings body t =>
    types.flagged t ++ escapingBindings types bindings ++ escapingIn types body
  | fix members body t =>
    types.flagged t ++ escapingMembers types members ++ escapingIn types body
  | seq items t => types.flagged t ++ escapingList types items
termination_by structural e => e

def escapingList (types : TypeTable) : List (Expr Nat) → List Nat
  | [] => []
  | e :: es => escapingIn types e ++ escapingList types es
termination_by structural es => es

def escapingBindings (types : TypeTable) : List (Name × Expr Nat) → List Nat
  | [] => []
  | (_, e) :: bs => escapingIn types e ++ escapingBindings types bs
termination_by structural bs => bs

/-- `escapingIn` on the members of a group and their bodies. -/
def escapingMembers (types : TypeTable) : List (Member Nat (Expr Nat)) → List Nat
  | [] => []
  | ⟨_, t, _, body⟩ :: ms =>
    types.flagged t ++ escapingIn types body ++ escapingMembers types ms
termination_by structural ms => ms
end

/-- Numbers of all nodes and members that have closures for values, each once. -/
def escaping (types : TypeTable) (e : Expr Nat) : List Nat :=
  (escapingIn types e).eraseDups

end Expr

end MiniScheme
