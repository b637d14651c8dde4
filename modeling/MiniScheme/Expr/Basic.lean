import MiniScheme.Literal

/-!
# Expression trees

A program is a tree. Every node and every member of a recursive group carries an annotation:
none (`Unit`) after reading, a number once the tree is tagged. Names are paired with what they
are bound to, so a binding form never has more names than values.

A function on trees is defined together with its companions on lists of trees, on bindings and
on the members of a group, which carry its name with `List`, `Bindings` or `Members` in it.
-/

namespace MiniScheme

/-- One procedure of a recursive group: its name, its annotation, its parameters and its
body. -/
structure Member (α β : Type) where
  name : Name
  tag : α
  params : List Name
  body : β

/-- An expression whose nodes carry annotations of type `α`.

* `assign` is read but never compiled or evaluated.
* `letrec` binds any expressions; it has to become `fix`, which binds procedures only, before the
  tree is typed, compiled or evaluated. -/
inductive Expr (α : Type) where
  | lit (value : Literal) (tag : α)
  | var (name : Name) (tag : α)
  | cond (test yes no : Expr α) (tag : α)
  | lambda (params : List Name) (body : Expr α) (tag : α)
  | assign (name : Name) (value : Expr α) (tag : α)
  | app (func : Expr α) (args : List (Expr α)) (tag : α)
  | letIn (bindings : List (Name × Expr α)) (body : Expr α) (tag : α)
  | letrec (bindings : List (Name × Expr α)) (body : Expr α) (tag : α)
  | fix (members : List (Member α (Expr α))) (body : Expr α) (tag : α)
  | seq (items : List (Expr α)) (tag : α)

namespace Expr

variable {α β : Type}

/-- Annotation of the root node. -/
def tag : Expr α → α
  | lit _ t => t
  | var _ t => t
  | cond _ _ _ t => t
  | lambda _ _ t => t
  | assign _ _ t => t
  | app _ _ t => t
  | letIn _ _ t => t
  | letrec _ _ t => t
  | fix _ _ t => t
  | seq _ t => t

/-- Whether the root node is a lambda. -/
def isLambda : Expr α → Bool
  | lambda _ _ _ => true
  | _ => false

/-- Whether the root node is neither a literal nor a variable. -/
def isCompound : Expr α → Bool
  | lit _ _ => false
  | var _ _ => false
  | _ => true

/-- The expressions directly below the root node, from left to right. -/
def children : Expr α → List (Expr α)
  | lit _ _ => []
  | var _ _ => []
  | cond test yes no _ => [test, yes, no]
  | lambda _ body _ => [body]
  | assign _ value _ => [value]
  | app func args _ => func :: args
  | letIn bindings body _ => bindings.map (·.2) ++ [body]
  | letrec bindings body _ => bindings.map (·.2) ++ [body]
  | fix members body _ => members.map (·.body) ++ [body]
  | seq items _ => items

/-! ### Depth -/

/-- The deepest tree, in compound nodes, that is compiled. -/
def maxDepth : Nat := 128

/-- Whether more than `limit` compound nodes are nested in each other. -/
def deeperThan : (limit : Nat) → Expr α → Bool
  | 0, e => e.isCompound
  | limit + 1, e => e.children.any (deeperThan limit)

/-! ### Annotations -/

mutual
/-- Changes every annotation and nothing else. -/
def mapTag (f : α → β) : Expr α → Expr β
  | lit v t => lit v (f t)
  | var x t => var x (f t)
  | cond test yes no t => cond (mapTag f test) (mapTag f yes) (mapTag f no) (f t)
  | lambda params body t => lambda params (mapTag f body) (f t)
  | assign x value t => assign x (mapTag f value) (f t)
  | app func args t => app (mapTag f func) (mapTagList f args) (f t)
  | letIn bindings body t => letIn (mapTagBindings f bindings) (mapTag f body) (f t)
  | letrec bindings body t => letrec (mapTagBindings f bindings) (mapTag f body) (f t)
  | fix members body t => fix (mapTagMembers f members) (mapTag f body) (f t)
  | seq items t => seq (mapTagList f items) (f t)
termination_by structural e => e

def mapTagList (f : α → β) : List (Expr α) → List (Expr β)
  | [] => []
  | e :: es => mapTag f e :: mapTagList f es
termination_by structural es => es

def mapTagBindings (f : α → β) : List (Name × Expr α) → List (Name × Expr β)
  | [] => []
  | (x, e) :: bs => (x, mapTag f e) :: mapTagBindings f bs
termination_by structural bs => bs

def mapTagMembers (f : α → β) : List (Member α (Expr α)) → List (Member β (Expr β))
  | [] => []
  | ⟨x, t, params, body⟩ :: ms => ⟨x, f t, params, mapTag f body⟩ :: mapTagMembers f ms
termination_by structural ms => ms
end

/-- Forgets all annotations. -/
def untag (e : Expr α) : Expr Unit :=
  e.mapTag fun _ => ()

end Expr

end MiniScheme
