import MiniScheme.Expr.Basic

/-!
# Free names

The free names of a tree are listed without repetition in the order of their first occurrence
from left to right. Closures capture their free names in this order.
-/

namespace MiniScheme.Expr

variable {α : Type}

mutual
/-- All occurrences of names that are neither in `bound` nor bound inside the tree, from left to
right. The target of an assignment counts as an occurrence before its value. -/
def freeOccurrences (bound : List Name) : Expr α → List Name
  | lit _ _ => []
  | var x _ => if x ∈ bound then [] else [x]
  | cond test yes no _ =>
    freeOccurrences bound test ++ freeOccurrences bound yes ++ freeOccurrences bound no
  | lambda params body _ => freeOccurrences (params ++ bound) body
  | assign x value _ => (if x ∈ bound then [] else [x]) ++ freeOccurrences bound value
  | app func args _ => freeOccurrences bound func ++ freeOccurrencesList bound args
  | letIn bindings body _ =>
    freeOccurrencesBindings bound bindings ++
      freeOccurrences (bindings.map (·.1) ++ bound) body
  | letrec bindings body _ =>
    freeOccurrencesBindings (bindings.map (·.1) ++ bound) bindings ++
      freeOccurrences (bindings.map (·.1) ++ bound) body
  | fix members body _ =>
    freeOccurrencesMembers (members.map (·.name) ++ bound) members ++
      freeOccurrences (members.map (·.name) ++ bound) body
  | seq items _ => freeOccurrencesList bound items
termination_by structural e => e

def freeOccurrencesList (bound : List Name) : List (Expr α) → List Name
  | [] => []
  | e :: es => freeOccurrences bound e ++ freeOccurrencesList bound es
termination_by structural es => es

def freeOccurrencesBindings (bound : List Name) : List (Name × Expr α) → List Name
  | [] => []
  | (_, e) :: bs => freeOccurrences bound e ++ freeOccurrencesBindings bound bs
termination_by structural bs => bs

def freeOccurrencesMembers (bound : List Name) : List (Member α (Expr α)) → List Name
  | [] => []
  | ⟨_, _, params, body⟩ :: ms =>
    freeOccurrences (params ++ bound) body ++ freeOccurrencesMembers bound ms
termination_by structural ms => ms
end

/-- The names a tree refers to that are neither in `bound` nor bound inside the tree, in the
order of their first occurrence. -/
def free (bound : List Name) (e : Expr α) : List Name :=
  (freeOccurrences bound e).eraseDups

/-- The names that the procedures of a group refer to and that are neither in `bound` nor bound
inside them. -/
def freeMembers (bound : List Name) (ms : List (Member α (Expr α))) : List Name :=
  (freeOccurrencesMembers bound ms).eraseDups

/-! ### Membership -/

theorem mem_free {bound : List Name} {e : Expr α} {x : Name} :
    x ∈ free bound e ↔ x ∈ freeOccurrences bound e := by
  simp [free, List.mem_eraseDups]

end MiniScheme.Expr
