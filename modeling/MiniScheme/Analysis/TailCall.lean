import MiniScheme.Expr.Basic

/-!
# Tail call detection

A call in tail position may reuse the frame of the procedure around it. The walk carries that
procedure together with the number of stack cells its frame has at this point; tests, operators,
operands, bound values and all but the last item of a sequence are not in tail position.
-/

namespace MiniScheme

/-- A call in tail position. -/
structure TailCall where
  /-- Number of the application. -/
  app : Nat
  /-- Number of the lambda or group member whose frame is reused. -/
  proc : Nat
  /-- Cells of that frame: its parameters and its live temporaries. -/
  cells : Nat
  deriving DecidableEq

/-- The procedure whose frame a tail call would reuse, and the cells of that frame. -/
structure TailTarget where
  proc : Nat
  cells : Nat
  deriving DecidableEq

/-- A target whose frame has more cells. -/
def TailTarget.deeper (target : TailTarget) (more : Nat) : TailTarget :=
  ⟨target.proc, target.cells + more⟩

namespace Expr

mutual
/-- The tail calls of a tree that stands in tail position of `target`, if there is one. -/
def tailCallsIn (target : Option TailTarget) : Expr Nat → List TailCall
  | lit _ _ => []
  | var _ _ => []
  | cond test yes no _ =>
    tailCallsIn none test ++ tailCallsIn target yes ++ tailCallsIn target no
  | lambda params body t => tailCallsIn (some ⟨t, params.length⟩) body
  | assign _ value _ => tailCallsIn none value
  | app func args t =>
    tailCallsIn none func ++ tailCallsList args ++
      (target.map fun f => ⟨t, f.proc, f.cells⟩).toList
  | letIn bindings body _ =>
    tailCallsBindings bindings ++ tailCallsIn (target.map (·.deeper bindings.length)) body
  | letrec bindings body _ =>
    tailCallsBindings bindings ++ tailCallsIn (target.map (·.deeper bindings.length)) body
  | fix members body _ =>
    tailCallsMembers members ++ tailCallsIn (target.map (·.deeper members.length)) body
  | seq items _ => tailCallsSeq target items
termination_by structural e => e

/-- The tail calls of trees that are not in tail position. -/
def tailCallsList : List (Expr Nat) → List TailCall
  | [] => []
  | e :: es => tailCallsIn none e ++ tailCallsList es
termination_by structural es => es

/-- The tail calls of the items of a sequence, of which the last is in tail position. -/
def tailCallsSeq (target : Option TailTarget) : List (Expr Nat) → List TailCall
  | [] => []
  | [e] => tailCallsIn target e
  | e :: e' :: es => tailCallsIn none e ++ tailCallsSeq target (e' :: es)
termination_by structural es => es

def tailCallsBindings : List (Name × Expr Nat) → List TailCall
  | [] => []
  | (_, e) :: bs => tailCallsIn none e ++ tailCallsBindings bs
termination_by structural bs => bs

def tailCallsMembers : List (Member Nat (Expr Nat)) → List TailCall
  | [] => []
  | ⟨_, t, params, body⟩ :: ms =>
    tailCallsIn (some ⟨t, params.length⟩) body ++ tailCallsMembers ms
termination_by structural ms => ms
end

/-- The tail calls of a program. -/
def tailCalls (e : Expr Nat) : List TailCall :=
  tailCallsIn none e

end Expr

end MiniScheme
