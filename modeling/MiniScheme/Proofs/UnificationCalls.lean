import MiniScheme.Proofs.Unification

/-!
# Unification by recursion

Two types are made equal by comparing their heads; for two arrows, the constraints between their
elements are solved. Constraints are solved one after another, each with the bindings found before
put in. The two recursions call each other, and putting bindings in may make types larger than they
were; but they find what `unify` finds, for which every binding removes a variable for good, and so
they end after a finite number of calls.
-/

namespace MiniScheme

/-! ### The recursion and its calls -/

/-- What comparing the heads of two types comes to: a result, or constraints between elements of
arrows. -/
inductive Comparison where
  | settled (result : Except TypeError Subst)
  | elements (cs : List Constraint)

namespace Ty

/-- Binds a variable to a type, unless it occurs there. -/
def bind (x : Nat) (t : Ty) : Except TypeError Subst :=
  if t.occurs x then .error (.infinite x t) else .ok [(x, t)]

def compare : Ty → Ty → Comparison
  | var x, b => .settled (if b = var x then .ok [] else bind x b)
  | a, var x => .settled (bind x a)
  | int, int => .settled (.ok [])
  | bool, bool => .settled (.ok [])
  | arrow xs, arrow ys =>
    if xs.length = ys.length then .elements (xs.zip ys)
    else .settled (.error (.mismatch (arrow xs) (arrow ys)))
  | a, b => .settled (.error (.mismatch a b))

end Ty

mutual
/-- Making two types equal takes this many calls, its own one counted, and has this result. -/
inductive UnifiesIn : Ty → Ty → Nat → Except TypeError Subst → Prop
  | settled {a b : Ty} {r : Except TypeError Subst} (h : a.compare b = .settled r) :
      UnifiesIn a b 1 r
  | elements {a b : Ty} {cs : List Constraint} {n : Nat} {r : Except TypeError Subst}
      (h : a.compare b = .elements cs) (hcs : SolvesIn [] cs n r) : UnifiesIn a b (n + 1) r

/-- Solving constraints from first to last, with the bindings found before them, takes this many
calls, its own one counted, and has this result. -/
inductive SolvesIn : Subst → List Constraint → Nat → Except TypeError Subst → Prop
  | done (s : Subst) : SolvesIn s [] 1 (.ok s)
  | refused {s : Subst} {c : Constraint} {cs : List Constraint} {n : Nat} {cause : TypeError}
      (h : UnifiesIn (s.apply c.1) (s.apply c.2) n (.error cause)) :
      SolvesIn s (c :: cs) (n + 1) (.error cause)
  | next {s s' : Subst} {c : Constraint} {cs : List Constraint} {n m : Nat}
      {r : Except TypeError Subst} (h : UnifiesIn (s.apply c.1) (s.apply c.2) n (.ok s'))
      (hcs : SolvesIn (s' ++ s) cs m r) : SolvesIn s (c :: cs) (n + m) r
end

mutual
theorem UnifiesIn.unique {a b : Ty} {n m : Nat} {r q : Except TypeError Subst} :
    UnifiesIn a b n r → UnifiesIn a b m q → m = n ∧ q = r
  | .settled h, .settled h' => by
    rw [h] at h'
    cases h'
    exact ⟨rfl, rfl⟩
  | .settled h, .elements h' _ => by
    rw [h] at h'
    cases h'
  | .elements h _, .settled h' => by
    rw [h] at h'
    cases h'
  | .elements h hcs, .elements h' hcs' => by
    rw [h] at h'
    cases h'
    obtain ⟨rfl, rfl⟩ := hcs.unique hcs'
    exact ⟨rfl, rfl⟩

theorem SolvesIn.unique {s : Subst} {cs : List Constraint} {n m : Nat}
    {r q : Except TypeError Subst} : SolvesIn s cs n r → SolvesIn s cs m q → m = n ∧ q = r
  | .done _, .done _ => ⟨rfl, rfl⟩
  | .refused h, .refused h' => by
    obtain ⟨rfl, heq⟩ := h.unique h'
    cases heq
    exact ⟨rfl, rfl⟩
  | .refused h, .next h' _ => by cases (h.unique h').2
  | .next h _, .refused h' => by cases (h.unique h').2
  | .next h hcs, .next h' hcs' => by
    obtain ⟨rfl, heq⟩ := h.unique h'
    cases heq
    obtain ⟨rfl, rfl⟩ := hcs.unique hcs'
    exact ⟨rfl, rfl⟩
end

/-! ### Putting bindings in at once or on the way -/

namespace Subst

/-- Puts the bindings into both sides of every constraint. -/
def resolve (s : Subst) (cs : List Constraint) : List Constraint :=
  cs.map fun c => (s.apply c.1, s.apply c.2)

end Subst

namespace SolvesIn

variable {s s' : Subst} {a b : Ty} {cs ds : List Constraint} {n : Nat} {r : Except TypeError Subst}

/-- Bindings may be put into the constraints beforehand or into each of them when its turn comes. -/
theorem of_resolve (h : SolvesIn s' (s.resolve cs) n r) :
    SolvesIn (s' ++ s) cs n (r.map (· ++ s)) := by
  induction cs generalizing s' n with
  | nil =>
    cases h
    exact .done _
  | cons c cs ih =>
    have happly (t : Ty) : (s' ++ s).apply t = s'.apply (s.apply t) := Subst.apply_append s' s t
    cases h with
    | refused h =>
      refine .refused ?_
      rw [happly, happly]
      exact h
    | @next _ s'' _ _ n m _ h hcs =>
      have hrest := ih hcs
      rw [List.append_assoc] at hrest
      have hfirst : UnifiesIn ((s' ++ s).apply c.1) ((s' ++ s).apply c.2) n (.ok s'') := by
        rw [happly, happly]
        exact h
      exact .next hfirst hrest

/-- The first constraints of a list are solved first, and the others with what was found for
them. -/
theorem split (h : SolvesIn s (cs ++ ds) n r) :
    (∃ m cause, SolvesIn s cs m (.error cause) ∧ r = .error cause) ∨
      ∃ m k s', SolvesIn s cs m (.ok s') ∧ SolvesIn s' ds k r := by
  induction cs generalizing s n with
  | nil => exact .inr ⟨1, n, s, .done s, h⟩
  | cons c cs ih =>
    cases h with
    | refused h => exact .inl ⟨_, _, .refused h, rfl⟩
    | next h hcs =>
      rcases ih hcs with ⟨m, cause, hfirst, rfl⟩ | ⟨m, k, s', hfirst, hrest⟩
      · exact .inl ⟨_, cause, .next h hfirst, rfl⟩
      · exact .inr ⟨_, k, s', .next h hfirst, hrest⟩

theorem cons_equal (hcs : SolvesIn [] cs n r) (h : a.compare b = .settled (.ok [])) :
    SolvesIn [] ((a, b) :: cs) (1 + n) r :=
  .next (.settled h) hcs

theorem cons_bound {x : Nat} {t : Ty} (hcs : SolvesIn [] (Constraint.substAll x t cs) n r)
    (h : a.compare b = .settled (.ok [(x, t)])) :
    SolvesIn [] ((a, b) :: cs) (1 + n) (r.map (· ++ [(x, t)])) := by
  have hresolved : SolvesIn [] (Subst.resolve [(x, t)] cs) n r := hcs
  exact .next (.settled h) hresolved.of_resolve

theorem cons_refused {cause : TypeError} (h : a.compare b = .settled (.error cause)) :
    SolvesIn [] ((a, b) :: cs) 2 (.error cause) :=
  .refused (.settled h)

/-- A constraint between arrows is solved where its elements would be solved in its place. -/
theorem cons_elements (hcs : SolvesIn [] (ds ++ cs) n r) (h : a.compare b = .elements ds) :
    ∃ m, SolvesIn [] ((a, b) :: cs) m r := by
  rcases hcs.split with ⟨m, cause, hfirst, rfl⟩ | ⟨m, k, s', hfirst, hrest⟩
  · exact ⟨_, .refused (.elements h hfirst)⟩
  · rw [← List.append_nil s'] at hrest
    exact ⟨_, .next (.elements h hfirst) hrest⟩

end SolvesIn

/-! ### The recursion ends -/

theorem exists_solvesIn (cs : List Constraint) : ∃ n, SolvesIn [] cs n (unify cs) := by
  fun_induction unify cs with
  | case1 => exact ⟨1, .done []⟩
  | case2 x cs ih =>
    obtain ⟨n, hcs⟩ := ih
    exact ⟨1 + n, hcs.cons_equal (by simp [Ty.compare])⟩
  | case3 x b cs hne hocc =>
    exact ⟨2, .cons_refused (by simp [Ty.compare, Ty.bind, hne, hocc])⟩
  | case4 x b cs hne hocc ih =>
    obtain ⟨n, hcs⟩ := ih
    exact ⟨1 + n, hcs.cons_bound (by simp [Ty.compare, Ty.bind, hne, hocc])⟩
  | case5 a x cs hvar hocc => exact ⟨2, .cons_refused (by simp [Ty.compare, Ty.bind, hocc])⟩
  | case6 a x cs hvar hocc ih =>
    obtain ⟨n, hcs⟩ := ih
    exact ⟨1 + n, hcs.cons_bound (by simp [Ty.compare, Ty.bind, hocc])⟩
  | case7 cs ih =>
    obtain ⟨n, hcs⟩ := ih
    exact ⟨1 + n, hcs.cons_equal rfl⟩
  | case8 cs ih =>
    obtain ⟨n, hcs⟩ := ih
    exact ⟨1 + n, hcs.cons_equal rfl⟩
  | case9 xs ys cs hlen ih =>
    obtain ⟨n, hcs⟩ := ih
    exact hcs.cons_elements (if_pos hlen)
  | case10 xs ys cs hlen => exact ⟨2, .cons_refused (if_neg hlen)⟩
  | case11 a b cs hvar hvar' hint hbool harrow =>
    refine ⟨2, .cons_refused ?_⟩
    -- the heads differ, and neither side is a variable
    cases a <;> cases b <;> simp_all [Ty.compare]

theorem exists_unifiesIn (a b : Ty) : ∃ n, UnifiesIn a b n (unifyOne a b) := by
  obtain ⟨n, h⟩ := exists_solvesIn [(a, b)]
  unfold unifyOne
  generalize unify [(a, b)] = r at h ⊢
  cases h with
  | refused h => exact ⟨_, h⟩
  | next h hrest =>
    cases hrest
    rw [List.append_nil]
    exact ⟨_, h⟩

/-- Unification ends. On every two types and on every list of constraints the recursion makes a
certain number of calls and then has a result, which is the one of `unify`. -/
theorem unification_ends :
    (∀ a b, ∃ n, UnifiesIn a b n (unifyOne a b) ∧
      ∀ m r, UnifiesIn a b m r → m = n ∧ r = unifyOne a b) ∧
    ∀ cs, ∃ n, SolvesIn [] cs n (unify cs) ∧
      ∀ m r, SolvesIn [] cs m r → m = n ∧ r = unify cs := by
  constructor
  · intro a b
    obtain ⟨n, h⟩ := exists_unifiesIn a b
    exact ⟨n, h, fun m r h' => h.unique h'⟩
  · intro cs
    obtain ⟨n, h⟩ := exists_solvesIn cs
    exact ⟨n, h, fun m r h' => h.unique h'⟩

/-- Constraints that would make a type part of itself, once the first is put into the second. -/
def cyclic : List Constraint :=
  [(.var 0, .arrow [.var 1, .int]), (.var 1, .var 0)]

theorem unification_ends_cyclic :
    SolvesIn [] cyclic 3 (.error (.infinite 1 (.arrow [.var 1, .int]))) ∧
    unify cyclic = .error (.infinite 1 (.arrow [.var 1, .int])) := by
  have hsecond : SolvesIn [(0, .arrow [.var 1, .int])] [(.var 1, .var 0)] (1 + 1)
      (.error (.infinite 1 (.arrow [.var 1, .int]))) := .refused (.settled rfl)
  have hcalls : SolvesIn [] cyclic (1 + 2) (.error (.infinite 1 (.arrow [.var 1, .int]))) :=
    .next (.settled rfl) hsecond
  obtain ⟨n, _, honly⟩ := unification_ends.2 cyclic
  exact ⟨hcalls, (honly 3 _ hcalls).2.symm⟩

end MiniScheme
