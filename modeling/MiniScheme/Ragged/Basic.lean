import MiniScheme.Expr.Printer

/-!
# Ragged trees

A tree as it may be put together by hand. A binding form has a list of names and a list of what
they are bound to, and nothing makes the two equally long; a recursive group has a list of the
annotations of its members besides. Whether the surplus of a longer list is seen depends on the
walk: some go along the lists together, others along each by itself.

A tree without surplus is even, and the even trees are the trees of `Expr`.
-/

namespace MiniScheme

/-- A procedure of a recursive group, without its name. -/
structure Procedure (β : Type) where
  params : List Name
  body : β

/-- An expression whose binding forms may have more names than values or more values than
names. -/
inductive Ragged (α : Type) where
  | lit (value : Literal) (tag : α)
  | var (name : Name) (tag : α)
  | cond (test yes no : Ragged α) (tag : α)
  | lambda (params : List Name) (body : Ragged α) (tag : α)
  | assign (name : Name) (value : Ragged α) (tag : α)
  | app (func : Ragged α) (args : List (Ragged α)) (tag : α)
  | letIn (names : List Name) (inits : List (Ragged α)) (body : Ragged α) (tag : α)
  | letrec (names : List Name) (inits : List (Ragged α)) (body : Ragged α) (tag : α)
  | fix (names : List Name) (tags : List α) (procs : List (Procedure (Ragged α)))
    (body : Ragged α) (tag : α)
  | seq (items : List (Ragged α)) (tag : α)

namespace Ragged

variable {α β : Type}

/-- Annotation of the root node. -/
def tag : Ragged α → α
  | lit _ t => t
  | var _ t => t
  | cond _ _ _ t => t
  | lambda _ _ t => t
  | assign _ _ t => t
  | app _ _ t => t
  | letIn _ _ _ t => t
  | letrec _ _ _ t => t
  | fix _ _ _ _ t => t
  | seq _ t => t

/-- Whether the root node is a lambda. -/
def isLambda : Ragged α → Bool
  | lambda _ _ _ => true
  | _ => false

/-- Whether the root node is neither a literal nor a variable. -/
def isCompound : Ragged α → Bool
  | lit _ _ => false
  | var _ _ => false
  | _ => true

/-- The expressions directly below the root node, those without a name included. -/
def children : Ragged α → List (Ragged α)
  | lit _ _ => []
  | var _ _ => []
  | cond test yes no _ => [test, yes, no]
  | lambda _ body _ => [body]
  | assign _ value _ => [value]
  | app func args _ => func :: args
  | letIn _ inits body _ => inits ++ [body]
  | letrec _ inits body _ => inits ++ [body]
  | fix _ _ procs body _ => procs.map (·.body) ++ [body]
  | seq items _ => items

/-- Whether more than `limit` compound nodes are nested in each other. -/
def deeperThan : (limit : Nat) → Ragged α → Bool
  | 0, e => e.isCompound
  | limit + 1, e => e.children.any (deeperThan limit)

/-! ### Annotations -/

mutual
/-- The annotations of all nodes and members of a tree. -/
def tags : Ragged α → List α
  | lit _ t => [t]
  | var _ t => [t]
  | cond test yes no t => tags test ++ tags yes ++ tags no ++ [t]
  | lambda _ body t => tags body ++ [t]
  | assign _ value t => tags value ++ [t]
  | app func args t => tags func ++ tagsList args ++ [t]
  | letIn _ inits body t => tagsList inits ++ tags body ++ [t]
  | letrec _ inits body t => tagsList inits ++ tags body ++ [t]
  | fix _ ts procs body t => ts ++ tagsProcs procs ++ tags body ++ [t]
  | seq items t => tagsList items ++ [t]
termination_by structural e => e

def tagsList : List (Ragged α) → List α
  | [] => []
  | e :: es => tags e ++ tagsList es
termination_by structural es => es

def tagsProcs : List (Procedure (Ragged α)) → List α
  | [] => []
  | ⟨_, body⟩ :: ps => tags body ++ tagsProcs ps
termination_by structural ps => ps
end

mutual
/-- Forgets all annotations. A group is left with as many as it has names. -/
def untag : Ragged α → Ragged Unit
  | lit v _ => lit v ()
  | var x _ => var x ()
  | cond test yes no _ => cond (untag test) (untag yes) (untag no) ()
  | lambda params body _ => lambda params (untag body) ()
  | assign x value _ => assign x (untag value) ()
  | app func args _ => app (untag func) (untagList args) ()
  | letIn names inits body _ => letIn names (untagList inits) (untag body) ()
  | letrec names inits body _ => letrec names (untagList inits) (untag body) ()
  | fix names _ procs body _ =>
    fix names (names.map fun _ => ()) (untagProcs procs) (untag body) ()
  | seq items _ => seq (untagList items) ()
termination_by structural e => e

def untagList : List (Ragged α) → List (Ragged Unit)
  | [] => []
  | e :: es => untag e :: untagList es
termination_by structural es => es

def untagProcs : List (Procedure (Ragged α)) → List (Procedure (Ragged Unit))
  | [] => []
  | ⟨params, body⟩ :: ps => ⟨params, untag body⟩ :: untagProcs ps
termination_by structural ps => ps
end

/-! ### Surplus -/

mutual
/-- Whether a test succeeds at every node. -/
def all (p : Ragged α → Bool) : Ragged α → Bool
  | lit v t => p (lit v t)
  | var x t => p (var x t)
  | cond test yes no t => p (cond test yes no t) && all p test && all p yes && all p no
  | lambda params body t => p (lambda params body t) && all p body
  | assign x value t => p (assign x value t) && all p value
  | app func args t => p (app func args t) && all p func && allList p args
  | letIn names inits body t => p (letIn names inits body t) && allList p inits && all p body
  | letrec names inits body t => p (letrec names inits body t) && allList p inits && all p body
  | fix names ts procs body t => p (fix names ts procs body t) && allProcs p procs && all p body
  | seq items t => p (seq items t) && allList p items
termination_by structural e => e

def allList (p : Ragged α → Bool) : List (Ragged α) → Bool
  | [] => true
  | e :: es => all p e && allList p es
termination_by structural es => es

def allProcs (p : Ragged α → Bool) : List (Procedure (Ragged α)) → Bool
  | [] => true
  | ⟨_, body⟩ :: ps => all p body && allProcs p ps
termination_by structural ps => ps
end

/-- Whether the lists of the root node are equally long. -/
def isMatched : Ragged α → Bool
  | letIn names inits _ _ => names.length == inits.length
  | letrec names inits _ _ => names.length == inits.length
  | fix names ts procs _ _ => names.length == ts.length && names.length == procs.length
  | _ => true

/-- Whether no list of a tree has a surplus. -/
def isEven (e : Ragged α) : Bool :=
  e.all isMatched

/-- The members of a group that have a name and a procedure. One without an annotation takes
`t`. -/
def pairMembers (t : α) : List Name → List α → List (Procedure β) → List (Member α β)
  | x :: xs, t' :: ts, p :: ps => ⟨x, t', p.params, p.body⟩ :: pairMembers t xs ts ps
  | x :: xs, [], p :: ps => ⟨x, t, p.params, p.body⟩ :: pairMembers t xs [] ps
  | [], _, _ => []
  | _, _, [] => []

mutual
/-- What is left of a tree without the surplus of its lists. -/
def paired : Ragged α → Expr α
  | lit v t => .lit v t
  | var x t => .var x t
  | cond test yes no t => .cond (paired test) (paired yes) (paired no) t
  | lambda params body t => .lambda params (paired body) t
  | assign x value t => .assign x (paired value) t
  | app func args t => .app (paired func) (pairedList args) t
  | letIn names inits body t => .letIn (names.zip (pairedList inits)) (paired body) t
  | letrec names inits body t => .letrec (names.zip (pairedList inits)) (paired body) t
  | fix names ts procs body t =>
    .fix (pairMembers t names ts (pairedProcs procs)) (paired body) t
  | seq items t => .seq (pairedList items) t
termination_by structural e => e

def pairedList : List (Ragged α) → List (Expr α)
  | [] => []
  | e :: es => paired e :: pairedList es
termination_by structural es => es

def pairedProcs : List (Procedure (Ragged α)) → List (Procedure (Expr α))
  | [] => []
  | ⟨params, body⟩ :: ps => ⟨params, paired body⟩ :: pairedProcs ps
termination_by structural ps => ps
end

/-- A tree as program text, which does not show any surplus. -/
def text [ShownTag α] (e : Ragged α) : String :=
  e.paired.text

/-- A tree as program text with terminal colours. -/
def colouredText [ShownTag α] (e : Ragged α) : String :=
  e.paired.colouredText

end Ragged

namespace Expr

variable {α : Type}

mutual
/-- A tree with its names and their values in lists of their own. -/
def ragged : Expr α → Ragged α
  | lit v t => .lit v t
  | var x t => .var x t
  | cond test yes no t => .cond (ragged test) (ragged yes) (ragged no) t
  | lambda params body t => .lambda params (ragged body) t
  | assign x value t => .assign x (ragged value) t
  | app func args t => .app (ragged func) (raggedList args) t
  | letIn bindings body t =>
    .letIn (bindings.map (·.1)) (raggedBindings bindings) (ragged body) t
  | letrec bindings body t =>
    .letrec (bindings.map (·.1)) (raggedBindings bindings) (ragged body) t
  | fix members body t =>
    .fix (members.map (·.name)) (members.map (·.tag)) (raggedMembers members) (ragged body) t
  | seq items t => .seq (raggedList items) t
termination_by structural e => e

def raggedList : List (Expr α) → List (Ragged α)
  | [] => []
  | e :: es => ragged e :: raggedList es
termination_by structural es => es

def raggedBindings : List (Name × Expr α) → List (Ragged α)
  | [] => []
  | (_, e) :: bs => ragged e :: raggedBindings bs
termination_by structural bs => bs

def raggedMembers : List (Member α (Expr α)) → List (Procedure (Ragged α))
  | [] => []
  | ⟨_, _, params, body⟩ :: ms => ⟨params, ragged body⟩ :: raggedMembers ms
termination_by structural ms => ms
end

end Expr

end MiniScheme
