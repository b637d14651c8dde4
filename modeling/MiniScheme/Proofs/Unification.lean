import MiniScheme.Proofs.Results
import MiniScheme.Ty.Unify

/-!
# Unification finds most general solutions

An assignment of types to variables solves constraints when it makes both sides of each of them
equal. A binding found by `unify` changes neither which assignments solve the constraints nor
what they make of a type, as long as they respect the binding; what `unify` refuses has no
solution.
-/

namespace MiniScheme

namespace Ty

/-! ### Replacing -/

mutual
theorem replace_replace (σ θ : Nat → Ty) :
    (t : Ty) → (t.replace σ).replace θ = t.replace fun x => (σ x).replace θ
  | var _ => rfl
  | int => rfl
  | bool => rfl
  | arrow ts => congrArg arrow (replaceList_replaceList σ θ ts)
termination_by structural t => t

theorem replaceList_replaceList (σ θ : Nat → Ty) :
    (ts : List Ty) →
      replaceList θ (replaceList σ ts) = replaceList (fun x => (σ x).replace θ) ts
  | [] => rfl
  | t :: ts => by
    simp only [replaceList, replace_replace σ θ t, replaceList_replaceList σ θ ts]
termination_by structural ts => ts
end

mutual
theorem replace_congr {σ θ : Nat → Ty} :
    (t : Ty) → (∀ x ∈ t.vars, σ x = θ x) → t.replace σ = t.replace θ
  | var x, h => h x (by simp [vars])
  | int, _ => rfl
  | bool, _ => rfl
  | arrow ts, h => congrArg arrow (replaceList_congr ts h)
termination_by structural t => t

theorem replaceList_congr {σ θ : Nat → Ty} :
    (ts : List Ty) → (∀ x ∈ varsList ts, σ x = θ x) → replaceList σ ts = replaceList θ ts
  | [], _ => rfl
  | t :: ts, h => by
    have hfirst := replace_congr t fun x hx => h x (by simp [varsList, hx])
    have hrest := replaceList_congr ts fun x hx => h x (by simp [varsList, hx])
    simp only [replaceList, hfirst, hrest]
termination_by structural ts => ts
end

mutual
theorem replace_var : (t : Ty) → t.replace var = t
  | var _ => rfl
  | int => rfl
  | bool => rfl
  | arrow ts => congrArg arrow (replaceList_var ts)
termination_by structural t => t

theorem replaceList_var : (ts : List Ty) → replaceList var ts = ts
  | [] => rfl
  | t :: ts => by simp only [replaceList, replace_var t, replaceList_var ts]
termination_by structural ts => ts
end

theorem subst_of_not_occurs {t : Ty} {x : Nat} (r : Ty) (h : t.occurs x = false) :
    t.subst x r = t := by
  have hfix : t.subst x r = t.replace var := by
    refine replace_congr t fun y hy => if_neg fun hyx => ?_
    subst hyx
    simp [occurs, hy] at h
  rw [hfix, replace_var]

/-- An assignment that respects a binding does not see whether the binding was put in. -/
theorem replace_subst {θ : Nat → Ty} {x : Nat} {r : Ty} (h : θ x = r.replace θ) (t : Ty) :
    (t.subst x r).replace θ = t.replace θ := by
  unfold subst
  rw [replace_replace]
  refine replace_congr t fun y _ => ?_
  by_cases hyx : y = x
  · simp only [hyx, if_true, h]
  · simp only [if_neg hyx, replace]

/-! ### Occurrences -/

mutual
theorem size_le_size_replace {θ : Nat → Ty} {x : Nat} :
    (t : Ty) → x ∈ t.vars → (θ x).size ≤ (t.replace θ).size
  | var y, h => by
    have hxy : x = y := by simpa [vars] using h
    subst hxy
    exact Nat.le_refl _
  | int, h => by simp [vars] at h
  | bool, h => by simp [vars] at h
  | arrow ts, h => by
    have hle := size_le_sizeList_replaceList (θ := θ) ts h
    simp only [replace, size]
    omega
termination_by structural t => t

theorem size_le_sizeList_replaceList {θ : Nat → Ty} {x : Nat} :
    (ts : List Ty) → x ∈ varsList ts → (θ x).size ≤ sizeList (replaceList θ ts)
  | [], h => by simp [varsList] at h
  | t :: ts, h => by
    simp only [varsList, List.mem_append] at h
    simp only [replaceList, sizeList]
    rcases h with h | h
    · have hle := size_le_size_replace (θ := θ) t h
      omega
    · have hle := size_le_sizeList_replaceList (θ := θ) ts h
      omega
termination_by structural ts => ts
end

/-- A variable is never equal to a larger type it occurs in, whatever is put for it. -/
theorem replace_ne_of_occurs {t : Ty} {x : Nat} (θ : Nat → Ty) (hne : t ≠ var x)
    (h : t.occurs x = true) : θ x ≠ t.replace θ := by
  have hmem : x ∈ t.vars := by simpa [occurs] using h
  intro heq
  cases t with
  | var y =>
    have hxy : x = y := by simpa [vars] using hmem
    exact hne (hxy ▸ rfl)
  | int => simp [vars] at hmem
  | bool => simp [vars] at hmem
  | arrow ts =>
    have hle := size_le_sizeList_replaceList (θ := θ) ts hmem
    have hsize := congrArg size heq
    simp only [replace, size] at hsize
    omega

end Ty

/-! ### Solutions -/

/-- The assignment makes both sides of every constraint equal. -/
def Solves (θ : Nat → Ty) (cs : List Constraint) : Prop :=
  ∀ c ∈ cs, c.1.replace θ = c.2.replace θ

instance (θ : Nat → Ty) (cs : List Constraint) : Decidable (Solves θ cs) :=
  inferInstanceAs (Decidable (∀ c ∈ cs, c.1.replace θ = c.2.replace θ))

namespace Solves

theorem cons_iff {θ : Nat → Ty} {c : Constraint} {cs : List Constraint} :
    Solves θ (c :: cs) ↔ c.1.replace θ = c.2.replace θ ∧ Solves θ cs := by
  simp only [Solves, List.forall_mem_cons]

theorem append_iff {θ : Nat → Ty} {cs ds : List Constraint} :
    Solves θ (cs ++ ds) ↔ Solves θ cs ∧ Solves θ ds := by
  simp only [Solves, List.forall_mem_append]

theorem substAll_iff {θ : Nat → Ty} {x : Nat} {r : Ty} (h : θ x = r.replace θ)
    (cs : List Constraint) : Solves θ (Constraint.substAll x r cs) ↔ Solves θ cs := by
  simp only [Solves, Constraint.substAll, List.forall_mem_map, Ty.replace_subst h]

theorem zip_iff {θ : Nat → Ty} (xs ys : List Ty) (h : xs.length = ys.length) :
    Solves θ (xs.zip ys) ↔ Ty.replaceList θ xs = Ty.replaceList θ ys := by
  induction xs generalizing ys with
  | nil =>
    cases ys with
    | nil => simp [Solves]
    | cons y ys => simp at h
  | cons x xs ih =>
    cases ys with
    | nil => simp at h
    | cons y ys =>
      have hlen : xs.length = ys.length := by simpa using h
      simp only [List.zip_cons_cons, cons_iff, ih ys hlen, Ty.replaceList, List.cons.injEq]

end Solves

/-! ### What a substitution does -/

namespace Subst

/-- A substitution as an assignment. -/
def assignment (s : Subst) : Nat → Ty :=
  fun x => s.apply (.var x)

theorem apply_eq_replace (s : Subst) (t : Ty) : s.apply t = t.replace s.assignment := by
  induction s with
  | nil => exact (Ty.replace_var t).symm
  | cons p s ih =>
    rw [apply_cons, ih, Ty.subst, Ty.replace_replace]
    rfl

theorem apply_snoc (s : Subst) (x : Nat) (r t : Ty) :
    apply (s ++ [(x, r)]) t = apply s (t.subst x r) := by
  rw [apply_append, apply_cons, apply_nil]

/-- A substitution found after a binding, with the binding added, respects the binding. -/
theorem assignment_snoc_self {x : Nat} {r : Ty} (s : Subst) (h : r.occurs x = false) :
    assignment (s ++ [(x, r)]) x = r.replace (assignment (s ++ [(x, r)])) := by
  rw [← apply_eq_replace, assignment, apply_snoc, apply_snoc, Ty.subst_of_not_occurs r h]
  congr 1
  simp [Ty.subst, Ty.replace]

theorem solves_snoc {x : Nat} {r : Ty} {s : Subst} {cs : List Constraint}
    (h : Solves s.assignment (Constraint.substAll x r cs)) :
    Solves (assignment (s ++ [(x, r)])) cs := by
  intro c hc
  have hmem : (c.1.subst x r, c.2.subst x r) ∈ Constraint.substAll x r cs :=
    List.mem_map_of_mem hc
  have heq := h _ hmem
  rw [← apply_eq_replace, ← apply_eq_replace] at heq ⊢
  rw [apply_snoc, apply_snoc]
  exact heq

end Subst

/-! ### Solving -/

theorem solves_unify {cs : List Constraint} {s : Subst} (h : unify cs = .ok s) :
    Solves s.assignment cs := by
  fun_induction unify cs generalizing s with
  | case1 => simp [Solves]
  | case2 x cs ih => exact Solves.cons_iff.2 ⟨rfl, ih h⟩
  | case3 => simp at h
  | case4 x b cs hne hocc ih =>
    obtain ⟨s', hs', rfl⟩ := Results.map_eq_ok_iff.1 h
    have hself := Subst.assignment_snoc_self s' (by simpa using hocc)
    exact Solves.cons_iff.2 ⟨hself, Subst.solves_snoc (ih hs')⟩
  | case5 => simp at h
  | case6 a x cs hvar hocc ih =>
    obtain ⟨s', hs', rfl⟩ := Results.map_eq_ok_iff.1 h
    have hself := Subst.assignment_snoc_self s' (by simpa using hocc)
    exact Solves.cons_iff.2 ⟨hself.symm, Subst.solves_snoc (ih hs')⟩
  | case7 cs ih => exact Solves.cons_iff.2 ⟨rfl, ih h⟩
  | case8 cs ih => exact Solves.cons_iff.2 ⟨rfl, ih h⟩
  | case9 xs ys cs hlen ih =>
    obtain ⟨hzip, hrest⟩ := Solves.append_iff.1 (ih h)
    have hlist := (Solves.zip_iff xs ys hlen).1 hzip
    exact Solves.cons_iff.2 ⟨congrArg Ty.arrow hlist, hrest⟩
  | case10 => simp at h
  | case11 => simp at h

theorem replace_apply_of_solves {cs : List Constraint} {s : Subst} {θ : Nat → Ty}
    (h : unify cs = .ok s) (hθ : Solves θ cs) (t : Ty) :
    (s.apply t).replace θ = t.replace θ := by
  fun_induction unify cs generalizing s t with
  | case1 =>
    injection h with h
    rw [← h, Subst.apply_nil]
  | case2 x cs ih => exact ih h (Solves.cons_iff.1 hθ).2 t
  | case3 => simp at h
  | case4 x b cs hne hocc ih =>
    obtain ⟨s', hs', rfl⟩ := Results.map_eq_ok_iff.1 h
    obtain ⟨hx, hcs⟩ := Solves.cons_iff.1 hθ
    have hrest := (Solves.substAll_iff hx cs).2 hcs
    rw [Subst.apply_snoc, ih hs' hrest, Ty.replace_subst hx]
  | case5 => simp at h
  | case6 a x cs hvar hocc ih =>
    obtain ⟨s', hs', rfl⟩ := Results.map_eq_ok_iff.1 h
    obtain ⟨hx, hcs⟩ := Solves.cons_iff.1 hθ
    have hrest := (Solves.substAll_iff hx.symm cs).2 hcs
    rw [Subst.apply_snoc, ih hs' hrest, Ty.replace_subst hx.symm]
  | case7 cs ih => exact ih h (Solves.cons_iff.1 hθ).2 t
  | case8 cs ih => exact ih h (Solves.cons_iff.1 hθ).2 t
  | case9 xs ys cs hlen ih =>
    obtain ⟨harrow, hcs⟩ := Solves.cons_iff.1 hθ
    have hzip := (Solves.zip_iff xs ys hlen).2 (Ty.arrow.inj harrow)
    exact ih h (Solves.append_iff.2 ⟨hzip, hcs⟩) t
  | case10 => simp at h
  | case11 => simp at h

theorem not_solves_of_unify_error {cs : List Constraint} {cause : TypeError} {θ : Nat → Ty}
    (h : unify cs = .error cause) : ¬ Solves θ cs := by
  intro hθ
  fun_induction unify cs with
  | case1 => simp at h
  | case2 x cs ih => exact ih h (Solves.cons_iff.1 hθ).2
  | case3 x b cs hne hocc =>
    exact Ty.replace_ne_of_occurs θ hne hocc (Solves.cons_iff.1 hθ).1
  | case4 x b cs hne hocc ih =>
    obtain ⟨hx, hcs⟩ := Solves.cons_iff.1 hθ
    exact ih (Results.map_eq_error_iff.1 h) ((Solves.substAll_iff hx cs).2 hcs)
  | case5 a x cs hvar hocc =>
    exact Ty.replace_ne_of_occurs θ (hvar x) hocc (Solves.cons_iff.1 hθ).1.symm
  | case6 a x cs hvar hocc ih =>
    obtain ⟨hx, hcs⟩ := Solves.cons_iff.1 hθ
    exact ih (Results.map_eq_error_iff.1 h) ((Solves.substAll_iff hx.symm cs).2 hcs)
  | case7 cs ih => exact ih h (Solves.cons_iff.1 hθ).2
  | case8 cs ih => exact ih h (Solves.cons_iff.1 hθ).2
  | case9 xs ys cs hlen ih =>
    obtain ⟨harrow, hcs⟩ := Solves.cons_iff.1 hθ
    have hzip := (Solves.zip_iff xs ys hlen).2 (Ty.arrow.inj harrow)
    exact ih h (Solves.append_iff.2 ⟨hzip, hcs⟩)
  | case10 xs ys cs hlen =>
    have hlist := Ty.arrow.inj (Solves.cons_iff.1 hθ).1
    have hlength := congrArg List.length hlist
    simp only [Ty.replaceList_eq_map, List.length_map] at hlength
    exact hlen hlength
  | case11 a b cs hvar hvar' hint hbool harrow =>
    have heq := (Solves.cons_iff.1 hθ).1
    -- with variables and equal heads excluded the two heads differ, and replacing keeps heads
    cases a <;> cases b <;> simp_all [Ty.replace]

/-- Unification finds a most general solution, or there is none. -/
theorem unify_sound_general_complete (cs : List Constraint) :
    (∀ s, unify cs = .ok s →
      (∀ c ∈ cs, s.apply c.1 = s.apply c.2) ∧
      ∀ θ : Nat → Ty, (∀ c ∈ cs, c.1.replace θ = c.2.replace θ) →
        ∀ t, (s.apply t).replace θ = t.replace θ) ∧
    (∀ cause, unify cs = .error cause →
      ¬ ∃ θ : Nat → Ty, ∀ c ∈ cs, c.1.replace θ = c.2.replace θ) := by
  refine ⟨fun s hs => ⟨fun c hc => ?_, fun θ hθ t => ?_⟩, fun cause herr => ?_⟩
  · have hsolved := solves_unify hs c hc
    rw [Subst.apply_eq_replace, Subst.apply_eq_replace, hsolved]
  · exact replace_apply_of_solves hs hθ t
  · rintro ⟨θ, hθ⟩
    exact not_solves_of_unify_error herr hθ

end MiniScheme
