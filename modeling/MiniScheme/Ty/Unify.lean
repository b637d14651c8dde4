import MiniScheme.Ty.Basic

/-!
# Unification

Constraints are solved from first to last. Each binding found is put into the constraints that
remain, so the number of their variables drops with every binding; between bindings their total
size drops. A substitution lists its bindings with the latest in front.
-/

namespace MiniScheme

/-- Why constraints have no solution. -/
inductive TypeError where
  | mismatch (left right : Ty)
  | infinite (index : Nat) (ty : Ty)
  deriving DecidableEq

def TypeError.message : TypeError → String
  | .mismatch a b => "cannot unify " ++ a.text ++ " with " ++ b.text
  | .infinite x t => "infinite type: " ++ Ty.varText x ++ " occurs in " ++ t.text

/-- Two types that have to become equal. -/
abbrev Constraint := Ty × Ty

/-- Bindings of type variables. No bound variable occurs in a binding in front of its own. -/
abbrev Subst := List (Nat × Ty)

namespace Subst

/-- Replaces bound variables, from the last binding of the list to the first. -/
def apply (s : Subst) (t : Ty) : Ty :=
  s.foldr (fun p t => t.subst p.1 p.2) t

@[simp] theorem apply_nil (t : Ty) : apply [] t = t := rfl

@[simp] theorem apply_cons (x : Nat) (r : Ty) (s : Subst) (t : Ty) :
    apply ((x, r) :: s) t = (apply s t).subst x r := rfl

theorem apply_append (s r : Subst) (t : Ty) : apply (s ++ r) t = apply s (apply r t) := by
  simp [apply, List.foldr_append]

end Subst

namespace Constraint

/-- Replaces one variable in both sides of every constraint. -/
def substAll (x : Nat) (r : Ty) (cs : List Constraint) : List Constraint :=
  cs.map fun c => (c.1.subst x r, c.2.subst x r)

/-- Variables of a list of constraints, with repetitions. -/
def vars (cs : List Constraint) : List Nat :=
  cs.flatMap fun c => c.1.vars ++ c.2.vars

end Constraint

/-! ### Sizes -/

namespace Ty

mutual
/-- Number of constructors of a type. -/
def size : Ty → Nat
  | var _ => 1
  | int => 1
  | bool => 1
  | arrow ts => 1 + sizeList ts
termination_by structural t => t

def sizeList : List Ty → Nat
  | [] => 0
  | t :: ts => size t + sizeList ts
termination_by structural ts => ts
end

theorem size_pos (t : Ty) : 0 < t.size := by
  cases t <;> simp only [size] <;> omega

end Ty

namespace Constraint

def size : List Constraint → Nat
  | [] => 0
  | c :: cs => c.1.size + c.2.size + size cs

theorem size_append (cs ds : List Constraint) : size (cs ++ ds) = size cs + size ds := by
  induction cs with
  | nil => simp [size]
  | cons c cs ih => simp only [List.cons_append, size, ih]; omega

theorem size_zip (xs ys : List Ty) (h : xs.length = ys.length) :
    size (xs.zip ys) = Ty.sizeList xs + Ty.sizeList ys := by
  induction xs generalizing ys with
  | nil =>
    cases ys with
    | nil => rfl
    | cons y ys => simp at h
  | cons x xs ih =>
    cases ys with
    | nil => simp at h
    | cons y ys =>
      have hlen : xs.length = ys.length := by simpa using h
      simp only [List.zip_cons_cons, size, Ty.sizeList, ih ys hlen]
      omega

end Constraint

/-! ### Distinct variables -/

namespace Ty

mutual
theorem mem_vars_replace {σ : Nat → Ty} {y : Nat} :
    (t : Ty) → y ∈ (t.replace σ).vars → ∃ x ∈ t.vars, y ∈ (σ x).vars
  | var x, h => ⟨x, by simp [vars], h⟩
  | int, h => by simp [replace, vars] at h
  | bool, h => by simp [replace, vars] at h
  | arrow ts, h => mem_varsList_replaceList ts h
termination_by structural t => t

theorem mem_varsList_replaceList {σ : Nat → Ty} {y : Nat} :
    (ts : List Ty) → y ∈ varsList (replaceList σ ts) → ∃ x ∈ varsList ts, y ∈ (σ x).vars
  | [], h => by simp [replaceList, varsList] at h
  | t :: ts, h => by
    simp only [replaceList, varsList, List.mem_append] at h
    rcases h with h | h
    · obtain ⟨x, hx, hy⟩ := mem_vars_replace t h
      exact ⟨x, by simp [varsList, hx], hy⟩
    · obtain ⟨x, hx, hy⟩ := mem_varsList_replaceList ts h
      exact ⟨x, by simp [varsList, hx], hy⟩
termination_by structural ts => ts
end

/-- A variable left after a replacement was there before and is not the replaced one, or comes
from the replacement. -/
theorem mem_vars_subst {t r : Ty} {x y : Nat} (h : y ∈ (t.subst x r).vars) :
    (y ∈ t.vars ∧ y ≠ x) ∨ y ∈ r.vars := by
  obtain ⟨z, hz, hy⟩ := mem_vars_replace t h
  by_cases hzx : z = x
  · simp only [hzx, if_true] at hy
    exact Or.inr hy
  · simp only [if_neg hzx, vars, List.mem_singleton] at hy
    subst hy
    exact Or.inl ⟨hz, hzx⟩

end Ty

namespace Constraint

/-- Number of different variables in a list of constraints. -/
def varCount (cs : List Constraint) : Nat :=
  (vars cs).eraseDups.length

theorem nodup_eraseDups (l : List Nat) : l.eraseDups.Nodup := by
  match l with
  | [] => simp
  | a :: as =>
    rw [List.eraseDups_cons]
    refine List.nodup_cons.2 ⟨?_, nodup_eraseDups _⟩
    simp [List.mem_eraseDups]
termination_by l.length
decreasing_by
  simp only [List.length_cons]
  exact Nat.lt_succ_of_le (List.length_filter_le _ _)

theorem varCount_le {cs ds : List Constraint} (h : ∀ y ∈ vars cs, y ∈ vars ds) :
    varCount cs ≤ varCount ds := by
  refine (nodup_eraseDups (vars cs)).length_le_of_subset ?_
  intro y hy
  exact List.mem_eraseDups.2 (h y (List.mem_eraseDups.1 hy))

theorem varCount_lt {cs ds : List Constraint} {x : Nat} (hx : x ∈ vars ds)
    (h : ∀ y ∈ vars cs, y ∈ vars ds ∧ y ≠ x) : varCount cs < varCount ds := by
  have hnodup : (x :: (vars cs).eraseDups).Nodup := by
    refine List.nodup_cons.2 ⟨fun hmem => ?_, nodup_eraseDups _⟩
    exact (h x (List.mem_eraseDups.1 hmem)).2 rfl
  have hsub : x :: (vars cs).eraseDups ⊆ (vars ds).eraseDups := by
    intro y hy
    rcases List.mem_cons.1 hy with rfl | hy
    · exact List.mem_eraseDups.2 hx
    · exact List.mem_eraseDups.2 (h y (List.mem_eraseDups.1 hy)).1
  have hle := hnodup.length_le_of_subset hsub
  rw [List.length_cons] at hle
  exact hle

theorem mem_vars_substAll {cs : List Constraint} {x y : Nat} {r : Ty}
    (h : y ∈ vars (substAll x r cs)) : (y ∈ vars cs ∧ y ≠ x) ∨ y ∈ r.vars := by
  simp only [vars, substAll, List.mem_flatMap, List.mem_map, List.mem_append] at h ⊢
  obtain ⟨_, ⟨c, hc, rfl⟩, hy⟩ := h
  rcases hy with hy | hy
  · rcases Ty.mem_vars_subst hy with ⟨h1, h2⟩ | h1
    · exact Or.inl ⟨⟨c, hc, Or.inl h1⟩, h2⟩
    · exact Or.inr h1
  · rcases Ty.mem_vars_subst hy with ⟨h1, h2⟩ | h1
    · exact Or.inl ⟨⟨c, hc, Or.inr h1⟩, h2⟩
    · exact Or.inr h1

theorem varCount_substAll_lt (c : Constraint) (cs : List Constraint) {x : Nat} {r : Ty}
    (hr : r.occurs x = false) (hx : x ∈ c.1.vars ++ c.2.vars)
    (hsub : ∀ y ∈ r.vars, y ∈ c.1.vars ++ c.2.vars) :
    varCount (substAll x r cs) < varCount (c :: cs) := by
  refine varCount_lt (x := x) ?_ ?_
  · simp only [vars, List.flatMap_cons, List.mem_append]
    exact Or.inl (List.mem_append.1 hx)
  · intro y hy
    simp only [vars, List.flatMap_cons, List.mem_append]
    rcases mem_vars_substAll hy with ⟨h1, h2⟩ | h1
    · exact ⟨Or.inr h1, h2⟩
    · refine ⟨Or.inl (List.mem_append.1 (hsub y h1)), ?_⟩
      intro e
      subst e
      simp [Ty.occurs, h1] at hr

theorem varCount_tail_le (c : Constraint) (cs : List Constraint) :
    varCount cs ≤ varCount (c :: cs) :=
  varCount_le fun y hy => by
    simp only [vars, List.flatMap_cons, List.mem_append] at hy ⊢
    exact Or.inr hy

theorem mem_vars_zip {xs ys : List Ty} {y : Nat} (h : y ∈ vars (xs.zip ys)) :
    y ∈ Ty.varsList xs ++ Ty.varsList ys := by
  simp only [vars, List.mem_flatMap, List.mem_append] at h
  obtain ⟨⟨a, b⟩, hab, hy⟩ := h
  have hmem := List.of_mem_zip hab
  simp only [Ty.varsList_eq_flatMap, List.mem_append, List.mem_flatMap]
  rcases hy with hy | hy
  · exact Or.inl ⟨a, hmem.1, hy⟩
  · exact Or.inr ⟨b, hmem.2, hy⟩

theorem varCount_zip_le (xs ys : List Ty) (cs : List Constraint) :
    varCount (xs.zip ys ++ cs) ≤ varCount ((.arrow xs, .arrow ys) :: cs) :=
  varCount_le fun y hy => by
    have hsplit : y ∈ vars (xs.zip ys) ∨ y ∈ vars cs := by
      simpa [vars, List.flatMap_append] using hy
    simp only [vars, List.flatMap_cons, List.mem_append, Ty.vars]
    rcases hsplit with h | h
    · exact Or.inl (List.mem_append.1 (mem_vars_zip h))
    · exact Or.inr h

/-- The order in which solving gets simpler: fewer variables, or no more variables and a smaller
size. -/
theorem lex_of_le_of_lt {a a' b b' : Nat} (ha : a' ≤ a) (hb : b' < b) :
    Prod.Lex (· < ·) (· < ·) (a', b') (a, b) := by
  rcases Nat.lt_or_eq_of_le ha with h | h
  · exact Prod.Lex.left _ _ h
  · subst h
    exact Prod.Lex.right _ hb

end Constraint

/-! ### Solving -/

open Constraint in
/-- The bindings that solve a list of constraints, or the first pair of types that cannot be
made equal. The types of an error have the bindings found before it put in. -/
def unify : List Constraint → Except TypeError Subst
  | [] => .ok []
  | (.var x, b) :: cs =>
    if b = .var x then unify cs
    else if b.occurs x then .error (.infinite x b)
    else (unify (Constraint.substAll x b cs)).map (· ++ [(x, b)])
  | (a, .var x) :: cs =>
    if a.occurs x then .error (.infinite x a)
    else (unify (Constraint.substAll x a cs)).map (· ++ [(x, a)])
  | (.int, .int) :: cs => unify cs
  | (.bool, .bool) :: cs => unify cs
  | (.arrow xs, .arrow ys) :: cs =>
    if xs.length = ys.length then unify (xs.zip ys ++ cs)
    else .error (.mismatch (.arrow xs) (.arrow ys))
  | (a, b) :: _ => .error (.mismatch a b)
termination_by cs => (varCount cs, size cs)
decreasing_by
  · refine lex_of_le_of_lt (varCount_tail_le _ _) ?_
    have h := Ty.size_pos (.var x)
    simp only [size]
    omega
  · rename_i h
    refine Prod.Lex.left _ _ (varCount_substAll_lt _ cs (by simpa using h) ?_ ?_)
    · simp [Ty.vars]
    · intro y hy
      simp [hy]
  · rename_i h
    refine Prod.Lex.left _ _ (varCount_substAll_lt _ cs (by simpa using h) ?_ ?_)
    · simp [Ty.vars]
    · intro y hy
      simp [hy]
  · refine lex_of_le_of_lt (varCount_tail_le _ _) ?_
    simp only [size, Ty.size]
    omega
  · refine lex_of_le_of_lt (varCount_tail_le _ _) ?_
    simp only [size, Ty.size]
    omega
  · rename_i h
    refine lex_of_le_of_lt (varCount_zip_le _ _ _) ?_
    rw [size_append, size_zip _ _ h]
    simp only [size, Ty.size]
    omega

/-- The bindings that make two types equal. -/
def unifyOne (a b : Ty) : Except TypeError Subst :=
  unify [(a, b)]

end MiniScheme
