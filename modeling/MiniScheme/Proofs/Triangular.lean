import MiniScheme.Proofs.Unification

/-!
# Substitutions found by unification are triangular

A binding is put into all constraints that remain, so the bindings found after it, which stand in
front of it, no longer mention its variable. Replacing variables one at a time from the last
binding to the first therefore leaves no bound variable behind, and a second round changes
nothing.
-/

namespace MiniScheme

namespace Ty

theorem occurs_eq_false_iff {t : Ty} {x : Nat} : t.occurs x = false ↔ x ∉ t.vars := by
  simp [occurs]

theorem notMem_vars_subst {r : Ty} {x : Nat} (h : x ∉ r.vars) (t : Ty) :
    x ∉ (t.subst x r).vars := by
  intro hmem
  rcases mem_vars_subst hmem with ⟨_, hne⟩ | hr
  · exact hne rfl
  · exact h hr

end Ty

namespace Subst

/-- The variables that are bound. -/
def domain (s : Subst) : List Nat :=
  s.map (·.1)

/-- The variables that are bound or mentioned. -/
def vars (s : Subst) : List Nat :=
  s.flatMap fun p => p.1 :: p.2.vars

/-- No bound variable occurs in its own binding or in a binding in front of it. -/
structure Triangular (s : Subst) : Prop where
  own : ∀ p ∈ s, p.1 ∉ p.2.vars
  front : s.Pairwise fun p q => q.1 ≠ p.1 ∧ q.1 ∉ p.2.vars

theorem mem_vars {s : Subst} {y : Nat} : y ∈ s.vars ↔ ∃ p ∈ s, y = p.1 ∨ y ∈ p.2.vars := by
  simp only [vars, List.mem_flatMap, List.mem_cons]

namespace Triangular

theorem nil : Triangular [] :=
  ⟨fun _ hp => absurd hp List.not_mem_nil, .nil⟩

theorem snoc {s : Subst} {x : Nat} {r : Ty} (h : Triangular s) (hs : x ∉ s.vars)
    (hr : x ∉ r.vars) : Triangular (s ++ [(x, r)]) := by
  constructor
  · intro p hp
    rcases List.mem_append.1 hp with hp | hp
    · exact h.own p hp
    · have heq : p = (x, r) := List.mem_singleton.1 hp
      rw [heq]
      exact hr
  · refine List.pairwise_append.2 ⟨h.front, List.pairwise_singleton _ _, fun p hp q hq => ?_⟩
    have heq : q = (x, r) := List.mem_singleton.1 hq
    rw [heq]
    exact ⟨fun hx => hs (mem_vars.2 ⟨p, hp, .inl hx⟩), fun hx => hs (mem_vars.2 ⟨p, hp, .inr hx⟩)⟩

theorem tail {p : Nat × Ty} {s : Subst} (h : Triangular (p :: s)) : Triangular s :=
  ⟨fun q hq => h.own q (List.mem_cons_of_mem p hq), (List.pairwise_cons.1 h.front).2⟩

theorem nodup_domain {s : Subst} (h : Triangular s) : s.domain.Nodup :=
  List.pairwise_map.2 (h.front.imp fun hpq => hpq.1.symm)

theorem not_occurs_of_split {s front back : Subst} {x : Nat} {t : Ty} (h : Triangular s)
    (hs : s = front ++ (x, t) :: back) : x ∉ t.vars ∧ ∀ p ∈ front, x ≠ p.1 ∧ x ∉ p.2.vars := by
  subst hs
  have hmem : (x, t) ∈ front ++ (x, t) :: back :=
    List.mem_append_right front (List.mem_cons_self ..)
  refine ⟨h.own (x, t) hmem, fun p hp => ?_⟩
  exact (List.pairwise_append.1 h.front).2.2 p hp (x, t) (List.mem_cons_self ..)

theorem notMem_vars_apply {s : Subst} (h : Triangular s) (t : Ty) :
    ∀ x ∈ s.domain, x ∉ (s.apply t).vars := by
  induction s with
  | nil => exact fun x hx => absurd hx List.not_mem_nil
  | cons p s ih =>
    obtain ⟨y, r⟩ := p
    intro x hx
    rw [apply_cons]
    rcases List.mem_cons.1 hx with hxy | hx
    · rw [hxy]
      exact Ty.notMem_vars_subst (h.own (y, r) (List.mem_cons_self ..)) _
    · obtain ⟨q, hq, hqx⟩ := List.mem_map.1 hx
      have hr : x ∉ r.vars := by
        have hfront := (List.pairwise_cons.1 h.front).1 q hq
        exact hqx ▸ hfront.2
      -- `x` is gone once the bindings behind are put in, and the one in front does not bring it
      -- back
      intro hmem
      rcases Ty.mem_vars_subst hmem with ⟨hleft, _⟩ | hleft
      · exact ih h.tail x hx hleft
      · exact hr hleft

end Triangular

theorem apply_of_not_bound {s : Subst} {t : Ty} (h : ∀ x ∈ s.domain, x ∉ t.vars) :
    s.apply t = t := by
  induction s with
  | nil => rfl
  | cons p s ih =>
    obtain ⟨y, r⟩ := p
    have hy : y ∉ t.vars := h y (List.mem_cons_self ..)
    have hrest : apply s t = t := ih fun x hx => h x (List.mem_cons_of_mem y hx)
    rw [apply_cons, hrest, Ty.subst_of_not_occurs r (Ty.occurs_eq_false_iff.2 hy)]

theorem Triangular.apply_apply {s : Subst} (h : Triangular s) (t : Ty) :
    s.apply (s.apply t) = s.apply t :=
  apply_of_not_bound (h.notMem_vars_apply t)

end Subst

/-! ### What solving keeps -/

/-- The bindings are triangular, and all their variables are among `xs`. -/
structure Subst.TriangularOver (xs : List Nat) (s : Subst) : Prop extends Triangular s where
  known : ∀ x ∈ s.vars, x ∈ xs

theorem Subst.TriangularOver.mono {xs ys : List Nat} {s : Subst} (h : s.TriangularOver xs)
    (hsub : ∀ x ∈ xs, x ∈ ys) : s.TriangularOver ys :=
  ⟨h.toTriangular, fun x hx => hsub x (h.known x hx)⟩

namespace Constraint

theorem mem_vars_cons {c : Constraint} {cs : List Constraint} {x : Nat} :
    x ∈ vars (c :: cs) ↔ (x ∈ c.1.vars ∨ x ∈ c.2.vars) ∨ x ∈ vars cs := by
  simp only [vars, List.flatMap_cons, List.mem_append]

theorem notMem_vars_substAll {x : Nat} {r : Ty} (h : x ∉ r.vars) (cs : List Constraint) :
    x ∉ vars (substAll x r cs) := by
  intro hmem
  rcases mem_vars_substAll hmem with ⟨_, hne⟩ | hr
  · exact hne rfl
  · exact h hr

theorem mem_vars_of_zip {xs ys : List Ty} {cs : List Constraint} {x : Nat}
    (h : x ∈ vars (xs.zip ys ++ cs)) : x ∈ vars ((.arrow xs, .arrow ys) :: cs) := by
  rw [vars, List.flatMap_append, List.mem_append] at h
  rw [mem_vars_cons]
  exact h.imp (fun hx => List.mem_append.1 (mem_vars_zip hx)) id

/-- One step: a constraint on a variable is solved by a binding behind those that solve the rest
with the binding put in. -/
theorem triangularOver_snoc {c : Constraint} {cs : List Constraint} {s : Subst} {x : Nat} {r : Ty}
    (h : s.TriangularOver (vars (substAll x r cs))) (hr : r.occurs x = false)
    (hx : x ∈ c.1.vars ∨ x ∈ c.2.vars) (hvars : ∀ y ∈ r.vars, y ∈ c.1.vars ∨ y ∈ c.2.vars) :
    Subst.TriangularOver (vars (c :: cs)) (s ++ [(x, r)]) := by
  have hnot : x ∉ r.vars := Ty.occurs_eq_false_iff.1 hr
  have hs : x ∉ s.vars := fun hmem => notMem_vars_substAll hnot cs (h.known x hmem)
  refine ⟨h.snoc hs hnot, fun y hy => ?_⟩
  rw [Subst.vars, List.flatMap_append, List.mem_append] at hy
  rw [mem_vars_cons]
  rcases hy with hy | hy
  · rcases mem_vars_substAll (h.known y hy) with ⟨hcs, _⟩ | hry
    · exact .inr hcs
    · exact .inl (hvars y hry)
  · simp only [List.flatMap_cons, List.flatMap_nil, List.append_nil, List.mem_cons] at hy
    rcases hy with hyx | hry
    · exact .inl (hyx ▸ hx)
    · exact .inl (hvars y hry)

end Constraint

open Constraint in
theorem triangularOver_unify {cs : List Constraint} {s : Subst} (h : unify cs = .ok s) :
    s.TriangularOver (vars cs) := by
  have htail {c : Constraint} {cs : List Constraint} {s : Subst} (hs : s.TriangularOver (vars cs)) :
      s.TriangularOver (vars (c :: cs)) := hs.mono fun x hx => mem_vars_cons.2 (.inr hx)
  fun_induction unify cs generalizing s with
  | case1 =>
    injection h with h
    subst h
    exact ⟨.nil, fun x hx => absurd hx List.not_mem_nil⟩
  | case2 x cs ih => exact htail (ih h)
  | case3 => simp at h
  | case4 x b cs hne hocc ih =>
    obtain ⟨s', hs', rfl⟩ := Results.map_eq_ok_iff.1 h
    exact triangularOver_snoc (ih hs') (by simpa using hocc) (.inl (by simp [Ty.vars]))
      fun y hy => .inr hy
  | case5 => simp at h
  | case6 a x cs hvar hocc ih =>
    obtain ⟨s', hs', rfl⟩ := Results.map_eq_ok_iff.1 h
    exact triangularOver_snoc (ih hs') (by simpa using hocc) (.inr (by simp [Ty.vars]))
      fun y hy => .inl hy
  | case7 cs ih => exact htail (ih h)
  | case8 cs ih => exact htail (ih h)
  | case9 xs ys cs hlen ih => exact (ih h).mono fun x hx => mem_vars_of_zip hx
  | case10 => simp at h
  | case11 => simp at h

/-- The substitution that solves constraints binds no variable twice, binds and mentions variables
of the constraints only, and no variable it binds occurs in its own type or in a binding in front
of it; so putting it in leaves no bound variable, and putting it in again changes nothing. -/
theorem unify_triangular_idempotent (cs : List Constraint) (s : Subst) (h : unify cs = .ok s) :
    s.domain.Nodup ∧
    (∀ front x t back, s = front ++ (x, t) :: back →
      x ∉ t.vars ∧ ∀ p ∈ front, x ≠ p.1 ∧ x ∉ p.2.vars) ∧
    (∀ p ∈ s, ∀ x, x = p.1 ∨ x ∈ p.2.vars → ∃ c ∈ cs, x ∈ c.1.vars ∨ x ∈ c.2.vars) ∧
    (∀ t, ∀ x ∈ s.domain, x ∉ (s.apply t).vars) ∧
    ∀ t, s.apply (s.apply t) = s.apply t := by
  have htri := triangularOver_unify h
  refine ⟨htri.nodup_domain, fun front x t back hs => htri.not_occurs_of_split hs,
    fun p hp x hx => ?_, htri.notMem_vars_apply, htri.apply_apply⟩
  have hmem := htri.known x (Subst.mem_vars.2 ⟨p, hp, hx⟩)
  simpa only [Constraint.vars, List.mem_flatMap, List.mem_append] using hmem

/-- A chain of variables that ends in an arrow, some of it inside arrows. -/
def chained : List Constraint :=
  [(.var 0, .arrow [.var 1, .var 2]), (.arrow [.var 2, .var 3], .arrow [.var 1, .var 2]),
    (.arrow [.int, .bool], .var 1)]

theorem unify_chained : unify chained =
      .ok [(1, .arrow [.int, .bool]), (3, .var 1), (2, .var 1), (0, .arrow [.var 1, .var 2])] ∧
    ∀ s, unify chained = .ok s → ∀ t, s.apply (s.apply t) = s.apply t := by
  have hrun : unify chained =
      .ok [(1, .arrow [.int, .bool]), (3, .var 1), (2, .var 1), (0, .arrow [.var 1, .var 2])] := by
    simp [chained, unify, Constraint.substAll, Ty.subst, Ty.replace, Ty.replaceList, Ty.occurs,
      Ty.vars, Ty.varsList, Except.map]
  refine ⟨hrun, fun s hs => ?_⟩
  exact (unify_triangular_idempotent chained s hs).2.2.2.2

end MiniScheme
