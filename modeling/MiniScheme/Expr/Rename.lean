import MiniScheme.Expr.Basic

/-!
# Alphatization

Alphatizing a tree gives every binder a name of its own: its spelling, a dot and a number from a
counter that the whole tree shares. Names that are bound nowhere refer to globals and stay as they
are.
-/

namespace MiniScheme

/-- The name that a binder gets from a counter value. -/
def freshName (x : Name) (n : Nat) : Name :=
  x ++ "." ++ toString n

/-- New names for a list of binders, from a counter value on. -/
def freshNames : List Name → Nat → List Name
  | [], _ => []
  | x :: xs, n => freshName x n :: freshNames xs (n + 1)

/-- Bound names with their new names, the innermost and latest first. -/
abbrev Renaming := List (Name × Name)

namespace Renaming

/-- The new name of a reference. -/
def find (r : Renaming) (x : Name) : Name :=
  (r.lookup x).getD x

/-- Adds binders that get their names from a counter value on. Of two equal names in one list
the later one counts. -/
def enter : Renaming → List Name → Nat → Renaming
  | r, [], _ => r
  | r, x :: xs, n => enter ((x, freshName x n) :: r) xs (n + 1)

end Renaming

namespace Expr

variable {α : Type}

/-- Puts new names, from a counter value on, in front of bound values. -/
def freshBindings {β : Type} : List (Name × β) → Nat → List (Name × β)
  | [], _ => []
  | (x, e) :: bs, n => (freshName x n, e) :: freshBindings bs (n + 1)

/-- Gives the members of a group new names, from a counter value on. -/
def freshMembers {β : Type} : List (Member α β) → Nat → List (Member α β)
  | [], _ => []
  | m :: ms, n => ⟨freshName m.name n, m.tag, m.params, m.body⟩ :: freshMembers ms (n + 1)

mutual
/-- Renames all binders of a tree and the references to them. Takes the counter and gives its
value afterwards. -/
def renameIn (r : Renaming) : Expr α → Nat → Expr α × Nat
  | lit v t, n => (lit v t, n)
  | var x t, n => (var (r.find x) t, n)
  | cond test yes no t, n =>
    let test := renameIn r test n
    let yes := renameIn r yes test.2
    let no := renameIn r no yes.2
    (cond test.1 yes.1 no.1 t, no.2)
  | lambda params body t, n =>
    let body := renameIn (r.enter params n) body (n + params.length)
    (lambda (freshNames params n) body.1 t, body.2)
  | assign x value t, n =>
    let value := renameIn r value n
    (assign (r.find x) value.1 t, value.2)
  | app func args t, n =>
    let func := renameIn r func n
    let args := renameListIn r args func.2
    (app func.1 args.1 t, args.2)
  | letIn bindings body t, n =>
    let inits := renameBindingsIn r bindings n
    let names := bindings.map (·.1)
    let body := renameIn (r.enter names inits.2) body (inits.2 + names.length)
    (letIn (freshBindings inits.1 inits.2) body.1 t, body.2)
  | letrec bindings body t, n =>
    let names := bindings.map (·.1)
    let inits := renameBindingsIn (r.enter names n) bindings (n + names.length)
    let body := renameIn (r.enter names n) body inits.2
    (letrec (freshBindings inits.1 n) body.1 t, body.2)
  | fix members body t, n =>
    let names := members.map (·.name)
    let renamed := renameMembersIn (r.enter names n) members (n + names.length)
    let body := renameIn (r.enter names n) body renamed.2
    (fix (freshMembers renamed.1 n) body.1 t, body.2)
  | seq items t, n =>
    let items := renameListIn r items n
    (seq items.1 t, items.2)
termination_by structural e => e

def renameListIn (r : Renaming) : List (Expr α) → Nat → List (Expr α) × Nat
  | [], n => ([], n)
  | e :: es, n =>
    let first := renameIn r e n
    let rest := renameListIn r es first.2
    (first.1 :: rest.1, rest.2)
termination_by structural es => es

/-- `renameIn` on the values of bindings; the names stay. -/
def renameBindingsIn (r : Renaming) : List (Name × Expr α) → Nat → List (Name × Expr α) × Nat
  | [], n => ([], n)
  | (x, e) :: bs, n =>
    let first := renameIn r e n
    let rest := renameBindingsIn r bs first.2
    ((x, first.1) :: rest.1, rest.2)
termination_by structural bs => bs

/-- `renameIn` on the procedures of a group; the names of the members stay. -/
def renameMembersIn (r : Renaming) :
    List (Member α (Expr α)) → Nat → List (Member α (Expr α)) × Nat
  | [], n => ([], n)
  | ⟨x, t, params, body⟩ :: ms, n =>
    let body := renameIn (r.enter params n) body (n + params.length)
    let rest := renameMembersIn r ms body.2
    (⟨x, t, freshNames params n, body.1⟩ :: rest.1, rest.2)
termination_by structural ms => ms
end

/-- Gives every binder of a tree a name of its own. -/
def rename (e : Expr α) : Expr α :=
  (renameIn [] e 0).1

end Expr

/-! ### Lengths -/

theorem length_freshNames (xs : List Name) (n : Nat) : (freshNames xs n).length = xs.length := by
  induction xs generalizing n with
  | nil => rfl
  | cons x xs ih => simp [freshNames, ih]

theorem Expr.map_fst_freshBindings {β : Type} (bs : List (Name × β)) (n : Nat) :
    (freshBindings bs n).map (·.1) = freshNames (bs.map (·.1)) n := by
  induction bs generalizing n with
  | nil => rfl
  | cons b bs ih => simp [freshBindings, freshNames, ih]

end MiniScheme
