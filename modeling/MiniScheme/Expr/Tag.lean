import MiniScheme.Expr.Basic

/-!
# Tagging

Every node of a tree and every member of a recursive group gets a number of its own. The numbers
are consecutive; a node is numbered after all that is below it, and a group reserves the numbers
of its members before anything below it is numbered.
-/

namespace MiniScheme.Expr

variable {α : Type}

mutual
/-- Numbers the nodes of a tree from a counter value on and gives the next unused number. -/
def tagFrom : Expr α → Nat → Expr Nat × Nat
  | lit v _, n => (lit v n, n + 1)
  | var x _, n => (var x n, n + 1)
  | cond test yes no _, n =>
    let test := tagFrom test n
    let yes := tagFrom yes test.2
    let no := tagFrom no yes.2
    (cond test.1 yes.1 no.1 no.2, no.2 + 1)
  | lambda params body _, n =>
    let body := tagFrom body n
    (lambda params body.1 body.2, body.2 + 1)
  | assign x value _, n =>
    let value := tagFrom value n
    (assign x value.1 value.2, value.2 + 1)
  | app func args _, n =>
    let func := tagFrom func n
    let args := tagListFrom args func.2
    (app func.1 args.1 args.2, args.2 + 1)
  | letIn bindings body _, n =>
    let bindings := tagBindingsFrom bindings n
    let body := tagFrom body bindings.2
    (letIn bindings.1 body.1 body.2, body.2 + 1)
  | letrec bindings body _, n =>
    let bindings := tagBindingsFrom bindings n
    let body := tagFrom body bindings.2
    (letrec bindings.1 body.1 body.2, body.2 + 1)
  | fix members body _, n =>
    let members := tagMembersFrom n members (n + members.length)
    let body := tagFrom body members.2
    (fix members.1 body.1 body.2, body.2 + 1)
  | seq items _, n =>
    let items := tagListFrom items n
    (seq items.1 items.2, items.2 + 1)
termination_by structural e => e

def tagListFrom : List (Expr α) → Nat → List (Expr Nat) × Nat
  | [], n => ([], n)
  | e :: es, n =>
    let first := tagFrom e n
    let rest := tagListFrom es first.2
    (first.1 :: rest.1, rest.2)
termination_by structural es => es

def tagBindingsFrom : List (Name × Expr α) → Nat → List (Name × Expr Nat) × Nat
  | [], n => ([], n)
  | (x, e) :: bs, n =>
    let first := tagFrom e n
    let rest := tagBindingsFrom bs first.2
    ((x, first.1) :: rest.1, rest.2)
termination_by structural bs => bs

/-- `tagFrom` on the procedures of a group, whose members take their own numbers from `reserved`
on. -/
def tagMembersFrom (reserved : Nat) :
    List (Member α (Expr α)) → Nat → List (Member Nat (Expr Nat)) × Nat
  | [], n => ([], n)
  | ⟨x, _, params, body⟩ :: ms, n =>
    let body := tagFrom body n
    let rest := tagMembersFrom (reserved + 1) ms body.2
    (⟨x, reserved, params, body.1⟩ :: rest.1, rest.2)
termination_by structural ms => ms
end

/-- Numbers the nodes of a tree from zero. -/
def tagged (e : Expr α) : Expr Nat :=
  (tagFrom e 0).1

end MiniScheme.Expr
