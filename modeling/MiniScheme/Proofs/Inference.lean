import MiniScheme.Proofs.FreeNames
import MiniScheme.Proofs.Typing
import MiniScheme.Proofs.Unification

/-!
# Inference is sound

If every free name of a tree is in scope or primitive, each assignment that solves the constraints
collected from the tree types it, and so does the solution that inference puts into its answer.
-/

namespace MiniScheme

namespace InferM

variable {α β : Type} {s s' : InferState}

theorem run_pure_eq_ok_iff {a b : α} :
    (pure a : InferM α).run s = .ok (b, s') ↔ b = a ∧ s' = s := by
  constructor
  · intro h
    cases h
    exact ⟨rfl, rfl⟩
  · rintro ⟨rfl, rfl⟩
    rfl

theorem run_bind_eq_ok_iff {x : InferM α} {f : α → InferM β} {b : β} :
    (x >>= f).run s = .ok (b, s') ↔
      ∃ a s₁, x.run s = .ok (a, s₁) ∧ (f a).run s₁ = .ok (b, s') := by
  rw [StateT.run_bind, Results.bind_eq_ok_iff]
  simp only [Prod.exists]

/-- Type variables from a number on. -/
def varsFrom (n k : Nat) : List Ty :=
  (List.range' n k).map Ty.var

@[simp]
theorem length_varsFrom (n k : Nat) : (varsFrom n k).length = k := by
  simp [varsFrom]

theorem run_fresh (s : InferState) :
    fresh.run s = .ok (.var s.next, { s with next := s.next + 1 }) :=
  rfl

theorem run_freshFor (xs : List Name) (s : InferState) : (freshFor xs).run s =
    .ok (varsFrom s.next xs.length, { s with next := s.next + xs.length }) := by
  induction xs generalizing s with
  | nil => rfl
  | cons x xs ih =>
    have hrest := ih { s with next := s.next + 1 }
    rw [freshFor, run_bind_eq_ok_iff]
    refine ⟨_, _, run_fresh s, run_bind_eq_ok_iff.2 ⟨_, _, hrest, run_pure_eq_ok_iff.2 ⟨?_, ?_⟩⟩⟩
    · rfl
    · simp [Nat.add_comm, Nat.add_left_comm]

theorem length_freshFor {xs : List Name} {tys : List Ty}
    (h : (freshFor xs).run s = .ok (tys, s')) : tys.length = xs.length := by
  rw [run_freshFor] at h
  cases h
  exact length_varsFrom ..

end InferM

/-! ### Scopes under an assignment -/

namespace TypeScope

/-- Puts types for the variables of all types in scope. -/
def replace (θ : Nat → Ty) (scope : TypeScope) : TypeScope :=
  scope.map fun b => (b.1, b.2.replace θ)

variable {θ : Nat → Ty} {scope : TypeScope}

theorem lookup_replace (x : Name) :
    (scope.replace θ).lookup x = (scope.lookup x).map (Ty.replace θ) := by
  induction scope with
  | nil => rfl
  | cons b scope ih =>
    obtain ⟨y, ty⟩ := b
    by_cases hx : x = y
    · simp [replace, hx]
    · simpa [replace, List.lookup_cons, beq_false_of_ne hx] using ih

theorem replace_enter (xs : List Name) (tys : List Ty) :
    (scope.enter xs tys).replace θ = (scope.replace θ).enter xs (tys.map (Ty.replace θ)) := by
  simp [replace, enter, List.zip_map_right, Prod.map]

theorem names_enter {xs : List Name} {tys : List Ty} (hlen : tys.length = xs.length) :
    (scope.enter xs tys).map (·.1) = xs.reverse ++ scope.map (·.1) := by
  rw [enter, List.map_append, List.map_reverse, List.map_fst_zip (Nat.le_of_eq hlen.symm)]

/-- The name is bound in the scope or primitive. -/
def Knows (scope : TypeScope) (x : Name) : Prop :=
  x ∈ scope.map (·.1) ∨ x ∈ Primitive.names

theorem knows_replace {x : Name} : (scope.replace θ).Knows x ↔ scope.Knows x := by
  unfold Knows replace
  rw [List.map_map]
  rfl

theorem knows_enter {xs : List Name} {tys : List Ty} (hlen : tys.length = xs.length) {x : Name}
    (h : x ∉ xs → scope.Knows x) : (scope.enter xs tys).Knows x := by
  unfold Knows
  rw [names_enter hlen, List.mem_append, List.mem_reverse, or_assoc]
  by_cases hmem : x ∈ xs
  · exact .inl hmem
  · exact .inr (h hmem)

end TypeScope

theorem Ty.replace_arrow (θ : Nat → Ty) (tys : List Ty) (ty : Ty) :
    (Ty.arrow (tys ++ [ty])).replace θ = Signature.ty ⟨tys.map (Ty.replace θ), ty.replace θ⟩ := by
  simp [Signature.ty, Ty.replace, Ty.replaceList_eq_map]

/-- The types drawn for unknown names become types that these names may have. -/
def InferState.Grants (s : InferState) (θ : Nat → Ty) (unknown : Name → Ty → Prop) : Prop :=
  ∀ x ty, s.unknown.lookup x = some ty → unknown x (ty.replace θ)

/-! ### What the walk finds out -/

namespace Expr

open InferM

section

variable {node : Nat → Ty → Prop} {unknown : Name → Ty → Prop} {θ : Nat → Ty}
  {scope : TypeScope} {s s' : InferState} {js : Judgements}

variable (node unknown θ) in
/-- An assignment that solves the constraints of a tree types it and all its nodes. As the walk
only adds unknown names, what is granted after it was granted before. -/
def SolutionTypes (e : Expr Nat) : Prop :=
  ∀ {scope : TypeScope} {s s' : InferState} {j : Judgement},
    (e.annotate scope).run s = .ok (j, s') → (∀ b ∈ j.types, node b.1 (b.2.replace θ)) →
    s'.Grants θ unknown → Solves θ j.constraints →
    TypedBy node unknown (scope.replace θ) e (j.ty.replace θ) ∧ s.Grants θ unknown

theorem solutionTypes_var (x : Name) (t : Nat) : SolutionTypes node unknown θ (.var x t) := by
  intro scope s s' j h hnode hgrants _
  obtain ⟨ty, s₁, hty, h⟩ := run_bind_eq_ok_iff.1 h
  obtain ⟨rfl, rfl⟩ := run_pure_eq_ok_iff.1 h
  have ht : node t (ty.replace θ) := hnode _ (List.mem_singleton_self _)
  have hscope : (scope.replace θ).lookup x = (scope.lookup x).map (Ty.replace θ) :=
    TypeScope.lookup_replace x
  cases hlookup : scope.lookup x with
  | some ty' =>
    simp only [typeOfName, hlookup] at hty
    obtain ⟨rfl, rfl⟩ := run_pure_eq_ok_iff.1 hty
    rw [hlookup] at hscope
    exact ⟨.bound hscope ht, hgrants⟩
  | none =>
    rw [hlookup] at hscope
    cases hprim : Primitive.ofName? x with
    | some p =>
      simp only [typeOfName, hlookup, hprim] at hty
      obtain ⟨σ, hσ⟩ : ∃ σ, ty = p.scheme.ty.replace σ := by
        cases hty
        exact ⟨_, rfl⟩
      have hgrants' : s.Grants θ unknown := by
        cases hty
        exact hgrants
      refine ⟨.primitive hscope hprim ⟨fun y => (σ y).replace θ, ?_⟩ ht, hgrants'⟩
      rw [hσ, Ty.replace_replace]
    | none =>
      simp only [typeOfName, hlookup, hprim] at hty
      obtain ⟨state, s₂, hget, hty⟩ := run_bind_eq_ok_iff.1 hty
      cases hget
      cases hseen : s.unknown.lookup x with
      | some ty' =>
        rw [hseen] at hty
        obtain ⟨rfl, rfl⟩ := run_pure_eq_ok_iff.1 hty
        exact ⟨.unknown hscope hprim (hgrants x _ hseen) ht, hgrants⟩
      | none =>
        rw [hseen] at hty
        cases hty
        have hx : unknown x ((Ty.var s.next).replace θ) := hgrants x _ (by simp)
        refine ⟨.unknown hscope hprim hx ht, fun y ty' hy => hgrants y ty' ?_⟩
        -- an unknown name seen before is not the one that was new here
        have hyx : y ≠ x := by
          rintro rfl
          rw [hseen] at hy
          exact nomatch hy
        simpa [List.lookup_cons, beq_false_of_ne hyx] using hy

theorem solutionTypes_list {es : List (Expr Nat)} (hes : ∀ e ∈ es, SolutionTypes node unknown θ e)
    (h : (annotateList scope es).run s = .ok (js, s'))
    (hnode : ∀ b ∈ js.types, node b.1 (b.2.replace θ)) (hgrants : s'.Grants θ unknown)
    (hθ : Solves θ js.constraints) :
    List.Forall₂ (TypedBy node unknown (scope.replace θ)) es (js.tys.map (Ty.replace θ)) ∧
      s.Grants θ unknown := by
  induction es generalizing s js with
  | nil =>
    obtain ⟨rfl, rfl⟩ := run_pure_eq_ok_iff.1 h
    exact ⟨.nil, hgrants⟩
  | cons e es ih =>
    obtain ⟨first, s₁, hfirst, h⟩ := run_bind_eq_ok_iff.1 h
    obtain ⟨rest, s₂, hrest, h⟩ := run_bind_eq_ok_iff.1 h
    obtain ⟨rfl, rfl⟩ := run_pure_eq_ok_iff.1 h
    obtain ⟨he, hes⟩ := List.forall_mem_cons.1 hes
    obtain ⟨hnode, hnodes⟩ := List.forall_mem_append.1 hnode
    obtain ⟨hθ, hθs⟩ := Solves.append_iff.1 hθ
    have hrest' := ih hes hrest hnodes hθs
    have hfirst' := he hfirst hnode hrest'.2 hθ
    exact ⟨.cons hfirst'.1 hrest'.1, hfirst'.2⟩

theorem annotateBindings_eq (scope : TypeScope) (bs : List (Name × Expr Nat)) :
    annotateBindings scope bs = annotateList scope (bs.map (·.2)) := by
  induction bs with
  | nil => rfl
  | cons b bs ih => rw [annotateBindings, List.map_cons, annotateList, ih]

theorem length_annotateList {es : List (Expr Nat)}
    (h : (annotateList scope es).run s = .ok (js, s')) : js.tys.length = es.length := by
  induction es generalizing s js with
  | nil =>
    obtain ⟨rfl, _⟩ := run_pure_eq_ok_iff.1 h
    rfl
  | cons e es ih =>
    simp only [annotateList, run_bind_eq_ok_iff, run_pure_eq_ok_iff] at h
    obtain ⟨first, s₁, _, rest, s₂, hrest, rfl, rfl⟩ := h
    exact congrArg (· + 1) (ih hrest)

/-- The procedures of a group, each with a signature for the type that the walk gave it. -/
theorem solutionTypes_members {ms : List (Member Nat (Expr Nat))}
    (hms : ∀ m ∈ ms, SolutionTypes node unknown θ m.body)
    (h : (annotateMembers scope ms).run s = .ok (js, s'))
    (hnode : ∀ b ∈ js.types, node b.1 (b.2.replace θ)) (hgrants : s'.Grants θ unknown)
    (hθ : Solves θ js.constraints) :
    ∃ sigs : List Signature, js.tys.map (Ty.replace θ) = sigs.map Signature.ty ∧
      List.Forall₂ (fun m sig => sig.params.length = m.params.length ∧
        TypedBy node unknown ((scope.replace θ).enter m.params sig.params) m.body sig.result)
          ms sigs ∧ s.Grants θ unknown := by
  induction ms generalizing s js with
  | nil =>
    obtain ⟨rfl, rfl⟩ := run_pure_eq_ok_iff.1 h
    exact ⟨[], rfl, .nil, hgrants⟩
  | cons m ms ih =>
    obtain ⟨tys, s₁, htys, h⟩ := run_bind_eq_ok_iff.1 h
    obtain ⟨body, s₂, hbody, h⟩ := run_bind_eq_ok_iff.1 h
    obtain ⟨rest, s₃, hrest, h⟩ := run_bind_eq_ok_iff.1 h
    obtain ⟨rfl, rfl⟩ := run_pure_eq_ok_iff.1 h
    rw [run_freshFor] at htys
    cases htys
    obtain ⟨hm, hms⟩ := List.forall_mem_cons.1 hms
    obtain ⟨hnode, hnodes⟩ := List.forall_mem_append.1 hnode
    obtain ⟨hθ, hθs⟩ := Solves.append_iff.1 hθ
    obtain ⟨sigs, hsigs, hrest', hgrants'⟩ := ih hms hrest hnodes hθs
    obtain ⟨htyped, hgrants''⟩ := hm hbody hnode hgrants' hθ
    rw [TypeScope.replace_enter] at htyped
    refine ⟨⟨(varsFrom s.next m.params.length).map (Ty.replace θ), body.ty.replace θ⟩ :: sigs, ?_,
      .cons ⟨?_, htyped⟩ hrest', hgrants''⟩
    · rw [List.map_cons, Ty.replace_arrow, hsigs, List.map_cons]
    · simp

theorem solutionTypes_fix {members : List (Member Nat (Expr Nat))} {body : Expr Nat}
    (hmembers : ∀ m ∈ members, SolutionTypes node unknown θ m.body)
    (hbody : SolutionTypes node unknown θ body) (t : Nat) :
    SolutionTypes node unknown θ (.fix members body t) := by
  intro scope s s' j h hnode hgrants hθ
  obtain ⟨tys, s₁, htys, h⟩ := run_bind_eq_ok_iff.1 h
  obtain ⟨jm, s₂, h₂, h⟩ := run_bind_eq_ok_iff.1 h
  obtain ⟨jb, s₃, h₃, h⟩ := run_bind_eq_ok_iff.1 h
  obtain ⟨ty, s₄, hty, h⟩ := run_bind_eq_ok_iff.1 h
  obtain ⟨rfl, rfl⟩ := run_pure_eq_ok_iff.1 h
  have hlen := length_freshFor htys
  rw [run_freshFor] at htys
  cases htys
  cases hty
  simp only [List.forall_mem_append, List.forall_mem_singleton] at hnode
  simp only [Solves.append_iff, Solves.cons_iff] at hθ
  obtain ⟨⟨⟨hntags, hnm⟩, hnb⟩, hroot⟩ := hnode
  obtain ⟨⟨⟨hθs, hθm⟩, hθb⟩, hresult, _⟩ := hθ
  obtain ⟨hb, hgrants'⟩ := hbody h₃ hnb hgrants hθb
  obtain ⟨sigs, hsigs, hm, hgrants''⟩ := solutionTypes_members hmembers h₂ hnm hgrants' hθm
  -- the types drawn for the members are those of the signatures found for them
  have hcount : (varsFrom s.next (members.map (·.name)).length).length = jm.tys.length := by
    have hcounts := congrArg List.length hsigs
    rw [List.length_map, List.length_map] at hcounts
    rw [hlen, List.length_map, hm.length_eq, hcounts]
  have htys := (Solves.zip_iff _ jm.tys hcount).1 hθs
  rw [Ty.replaceList_eq_map, Ty.replaceList_eq_map, hsigs] at htys
  rw [TypeScope.replace_enter, htys] at hm hb
  rw [← hresult] at hb
  obtain ⟨hlen', hzip⟩ := List.forall₂_iff_zip.1 hm
  have htags : ∀ m sig, (m, sig) ∈ members.zip sigs → node m.tag sig.ty := by
    intro m sig hmem
    have hnodes : ∀ b ∈ (members.map (·.tag)).zip (sigs.map Signature.ty), node b.1 b.2 := by
      rw [← htys, List.zip_map_right, List.forall_mem_map]
      exact hntags
    rw [List.zip_map, List.forall_mem_map] at hnodes
    exact hnodes (m, sig) hmem
  exact ⟨.fix hlen' (fun m sig h => (hzip h).1) (fun m sig h => (hzip h).2) htags hb hroot,
    hgrants''⟩

variable (node unknown θ) in
theorem solutionTypes (e : Expr Nat) : SolutionTypes node unknown θ e := by
  induction e with
  | lit v t =>
    intro scope s s' j h hnode hgrants _
    obtain ⟨rfl, rfl⟩ := run_pure_eq_ok_iff.1 h
    have hty : v.ty.replace θ = v.ty := by cases v <;> rfl
    have ht := hnode _ (List.mem_singleton_self _)
    rw [hty] at ht ⊢
    exact ⟨.lit ht, hgrants⟩
  | var x t => exact solutionTypes_var x t
  | cond test yes no t htest hyes hno =>
    intro scope s s' j h hnode hgrants hθ
    obtain ⟨jt, s₁, h₁, h⟩ := run_bind_eq_ok_iff.1 h
    obtain ⟨jy, s₂, h₂, h⟩ := run_bind_eq_ok_iff.1 h
    obtain ⟨jn, s₃, h₃, h⟩ := run_bind_eq_ok_iff.1 h
    obtain ⟨ty, s₄, hty, h⟩ := run_bind_eq_ok_iff.1 h
    obtain ⟨rfl, rfl⟩ := run_pure_eq_ok_iff.1 h
    cases hty
    simp only [List.forall_mem_append, List.forall_mem_singleton] at hnode
    simp only [Solves.append_iff, Solves.cons_iff] at hθ
    obtain ⟨⟨⟨hnt, hny⟩, hnn⟩, hroot⟩ := hnode
    obtain ⟨⟨⟨hθt, hθy⟩, hθn⟩, hbool, hno', hyes', _⟩ := hθ
    obtain ⟨hn, hgrants₂⟩ := hno h₃ hnn hgrants hθn
    obtain ⟨hy, hgrants₁⟩ := hyes h₂ hny hgrants₂ hθy
    obtain ⟨ht, hgrants₀⟩ := htest h₁ hnt hgrants₁ hθt
    rw [hbool] at ht
    rw [hyes'] at hy
    rw [← hno', hyes'] at hn
    exact ⟨.cond ht hy hn hroot, hgrants₀⟩
  | lambda params body t hbody =>
    intro scope s s' j h hnode hgrants hθ
    obtain ⟨tys, s₁, htys, h⟩ := run_bind_eq_ok_iff.1 h
    obtain ⟨jb, s₂, h₂, h⟩ := run_bind_eq_ok_iff.1 h
    obtain ⟨rfl, rfl⟩ := run_pure_eq_ok_iff.1 h
    have hlen := length_freshFor htys
    rw [run_freshFor] at htys
    cases htys
    simp only [List.forall_mem_append, List.forall_mem_singleton] at hnode
    obtain ⟨hb, hgrants'⟩ := hbody h₂ hnode.1 hgrants hθ
    have hroot := hnode.2
    rw [TypeScope.replace_enter] at hb
    rw [Ty.replace_arrow] at hroot ⊢
    exact ⟨.lambda (by rw [List.length_map, hlen]) hb hroot, hgrants'⟩
  | assign x value t _ => exact fun h => nomatch h
  | app func args t hfunc hargs =>
    intro scope s s' j h hnode hgrants hθ
    obtain ⟨jf, s₁, h₁, h⟩ := run_bind_eq_ok_iff.1 h
    obtain ⟨ja, s₂, h₂, h⟩ := run_bind_eq_ok_iff.1 h
    obtain ⟨ty, s₃, hty, h⟩ := run_bind_eq_ok_iff.1 h
    obtain ⟨rfl, rfl⟩ := run_pure_eq_ok_iff.1 h
    cases hty
    simp only [List.forall_mem_append, List.forall_mem_singleton] at hnode
    simp only [Solves.append_iff, Solves.cons_iff] at hθ
    obtain ⟨⟨hnf, hna⟩, hroot⟩ := hnode
    obtain ⟨⟨hθf, hθa⟩, harrow, _⟩ := hθ
    obtain ⟨ha, hgrants'⟩ := solutionTypes_list hargs h₂ hna hgrants hθa
    obtain ⟨hf, hgrants''⟩ := hfunc h₁ hnf hgrants' hθf
    rw [harrow, Ty.replace_arrow] at hf
    obtain ⟨hlen, hzip⟩ := List.forall₂_iff_zip.1 ha
    exact ⟨.app hf hlen (fun e ty => hzip) hroot, hgrants''⟩
  | letIn bindings body t hbindings hbody =>
    intro scope s s' j h hnode hgrants hθ
    obtain ⟨ji, s₁, h₁, h⟩ := run_bind_eq_ok_iff.1 h
    obtain ⟨jb, s₂, h₂, h⟩ := run_bind_eq_ok_iff.1 h
    obtain ⟨ty, s₃, hty, h⟩ := run_bind_eq_ok_iff.1 h
    obtain ⟨rfl, rfl⟩ := run_pure_eq_ok_iff.1 h
    cases hty
    simp only [List.forall_mem_append, List.forall_mem_singleton] at hnode
    simp only [Solves.append_iff, Solves.cons_iff] at hθ
    obtain ⟨⟨hni, hnb⟩, hroot⟩ := hnode
    obtain ⟨⟨hθi, hθb⟩, hresult, _⟩ := hθ
    obtain ⟨hb, hgrants'⟩ := hbody h₂ hnb hgrants hθb
    rw [annotateBindings_eq] at h₁
    obtain ⟨hi, hgrants''⟩ :=
      solutionTypes_list (List.forall_mem_map.2 hbindings) h₁ hni hgrants' hθi
    obtain ⟨hlen, hzip⟩ := List.forall₂_iff_zip.1 (List.forall₂_map_left_iff.1 hi)
    rw [TypeScope.replace_enter, ← hresult] at hb
    exact ⟨.letIn hlen (fun b ty => hzip) hb hroot, hgrants''⟩
  | letrec bindings body t _ _ => exact fun h => nomatch h
  | fix members body t hmembers hbody => exact solutionTypes_fix hmembers hbody t
  | seq items t hitems =>
    intro scope s s' j h hnode hgrants hθ
    obtain ⟨ji, s₁, h₁, h⟩ := run_bind_eq_ok_iff.1 h
    cases hlast : ji.tys.getLast? with
    | none =>
      rw [hlast] at h
      exact nomatch h
    | some ty =>
      rw [hlast] at h
      obtain ⟨rfl, rfl⟩ := run_pure_eq_ok_iff.1 h
      simp only [List.forall_mem_append, List.forall_mem_singleton] at hnode
      obtain ⟨hi, hgrants'⟩ := solutionTypes_list hitems h₁ hnode.1 hgrants hθ
      obtain ⟨hlen, hzip⟩ := List.forall₂_iff_zip.1 hi
      have hlast' : (ji.tys.map (Ty.replace θ)).getLast? = some (ty.replace θ) := by
        rw [List.getLast?_map, hlast]
        rfl
      exact ⟨.seq hlen (fun e ty => hzip) hlast' hnode.2, hgrants'⟩

end

/-! ### Trees without unknown names -/

theorem typed_seq {scope : TypeScope} {items : List (Expr Nat)} {tys : List Ty} {ty : Ty}
    (h : List.Forall₂ (Typed scope) items tys) (hlast : tys.getLast? = some ty) (t : Nat) :
    Typed scope (.seq items t) ty := by
  induction h with
  | nil => simp at hlast
  | cons he hes ih =>
    cases hes with
    | nil =>
      cases hlast
      exact .last he
    | cons he' hes' =>
      rw [List.getLast?_cons_cons] at hlast
      exact .before he (ih hlast)

/-- Without unknown names the types of the nodes may be forgotten. -/
theorem typed_of_typedBy {node : Nat → Ty → Prop} {unknown : Name → Ty → Prop}
    {scope : TypeScope} {e : Expr Nat} {ty : Ty} (h : TypedBy node unknown scope e ty)
    (hclosed : ∀ x, e.FreeIn x → scope.Knows x) : Typed scope e ty := by
  induction h with
  | lit _ => exact .lit
  | bound h _ => exact .bound h
  | primitive hscope hx hty _ => exact .primitive hscope hx hty
  | @unknown scope x t ty hscope hx _ _ =>
    rcases hclosed x (freeIn_var.2 rfl) with hmem | hmem
    · exact absurd hmem (notMem_of_lookup_eq_none hscope)
    · exact absurd hmem (notMem_names_of_ofName? hx)
  | cond _ _ _ _ htest hyes hno =>
    exact .cond (htest fun x hx => hclosed x (freeIn_cond.2 (.inl hx)))
      (hyes fun x hx => hclosed x (freeIn_cond.2 (.inr (.inl hx))))
      (hno fun x hx => hclosed x (freeIn_cond.2 (.inr (.inr hx))))
  | lambda hlen _ _ hbody =>
    refine .lambda hlen (hbody fun x hx => TypeScope.knows_enter hlen fun hnot => ?_)
    exact hclosed x (freeIn_lambda.2 ⟨hx, hnot⟩)
  | app _ hlen _ _ hfunc hargs =>
    refine .app (hfunc fun x hx => hclosed x (freeIn_app.2 (.inl hx))) hlen fun e ty hmem => ?_
    exact hargs e ty hmem fun x hx =>
      hclosed x (freeIn_app.2 (.inr ⟨e, (List.of_mem_zip hmem).1, hx⟩))
  | letIn hlen _ _ _ hbindings hbody =>
    refine .letIn hlen (fun b ty hmem => ?_) (hbody fun x hx => ?_)
    · exact hbindings b ty hmem fun x hx =>
        hclosed x (freeIn_letIn.2 (.inl ⟨b, (List.of_mem_zip hmem).1, hx⟩))
    · exact TypeScope.knows_enter (by simpa using hlen.symm) fun hnot =>
        hclosed x (freeIn_letIn.2 (.inr ⟨hx, hnot⟩))
  | fix hlen hparams _ _ _ _ hmembers hbody =>
    refine .fix hlen hparams (fun m sig hmem => ?_) (hbody fun x hx => ?_)
    · refine hmembers m sig hmem fun x hx => ?_
      refine TypeScope.knows_enter (hparams m sig hmem) fun hnot => ?_
      exact TypeScope.knows_enter (by simpa using hlen.symm) fun hnot' =>
        hclosed x (freeIn_fix.2 ⟨.inl ⟨m, (List.of_mem_zip hmem).1, hx, hnot⟩, hnot'⟩)
    · exact TypeScope.knows_enter (by simpa using hlen.symm) fun hnot =>
        hclosed x (freeIn_fix.2 ⟨.inr hx, hnot⟩)
  | seq hlen _ hlast _ hitems =>
    refine typed_seq (List.forall₂_iff_zip.2 ⟨hlen, fun {e ty} hmem => ?_⟩) hlast _
    exact hitems e ty hmem fun x hx =>
      hclosed x (freeIn_seq.2 ⟨e, (List.of_mem_zip hmem).1, hx⟩)

/-- Every solution of the constraints of a tree types it. -/
def Inferred (e : Expr Nat) : Prop :=
  ∀ {scope : TypeScope} {s s' : InferState} {j : Judgement} {θ : Nat → Ty},
    (e.annotate scope).run s = .ok (j, s') → (∀ x, e.FreeIn x → scope.Knows x) →
    Solves θ j.constraints →
    Typed (scope.replace θ) e (j.ty.replace θ)

theorem inferred (e : Expr Nat) : Inferred e := by
  intro scope s s' j θ h hclosed hθ
  have htyped := (solutionTypes (fun _ _ => True) (fun _ _ => True) θ e h (fun _ _ => trivial)
    (fun _ _ _ => trivial) hθ).1
  exact typed_of_typedBy htyped fun x hx => TypeScope.knows_replace.2 (hclosed x hx)

theorem infer_eq_ok_iff {e : Expr Nat} {typing : Typing} : e.infer = .ok typing ↔
    ∃ j s σ, (e.annotate []).run ⟨0, []⟩ = .ok (j, s) ∧ unify j.constraints = .ok σ ∧
      typing = ⟨σ.apply j.ty, j.types.map fun b => (b.1, σ.apply b.2)⟩ := by
  constructor
  · intro h
    obtain ⟨problem, hproblem, hsolve⟩ := Results.bind_eq_ok_iff.1 h
    obtain ⟨⟨j, s⟩, hrun, hj⟩ := Results.bind_eq_ok_iff.1 hproblem
    cases hj
    unfold TypingProblem.solve at hsolve
    cases hunify : unify j.constraints with
    | error cause =>
      rw [hunify] at hsolve
      exact nomatch hsolve
    | ok σ =>
      rw [hunify] at hsolve
      cases hsolve
      exact ⟨j, s, σ, hrun, hunify, rfl⟩
  · rintro ⟨j, s, σ, hrun, hunify, rfl⟩
    have hproblem : TypingProblem.ofExpr e = .ok ⟨j, s.next⟩ :=
      Results.bind_eq_ok_iff.2 ⟨(j, s), hrun, rfl⟩
    refine Results.bind_eq_ok_iff.2 ⟨_, hproblem, ?_⟩
    unfold TypingProblem.solve
    rw [hunify]

/-- A tree whose free names are all primitive has the type that inference finds. -/
theorem typed_of_infer {e : Expr Nat} {typing : Typing} (h : e.infer = .ok typing)
    (hclosed : ∀ x, e.FreeIn x → x ∈ Primitive.names) : Typed [] e typing.root := by
  obtain ⟨j, s, σ, hrun, hunify, rfl⟩ := infer_eq_ok_iff.1 h
  have htyped := inferred e hrun (fun x hx => .inr (hclosed x hx)) (solves_unify hunify)
  rw [← Subst.apply_eq_replace] at htyped
  exact htyped

/-- Inference does not refuse a tree whose constraints have a solution. -/
theorem infer_of_solves {e : Expr Nat} {problem : TypingProblem} {θ : Nat → Ty}
    (h : TypingProblem.ofExpr e = .ok problem) (hθ : Solves θ problem.judgement.constraints) :
    ∃ typing, e.infer = .ok typing := by
  have hsolve : ∃ typing, problem.solve = .ok typing := by
    unfold TypingProblem.solve
    cases hunify : unify problem.judgement.constraints with
    | error cause => exact absurd hθ (not_solves_of_unify_error hunify)
    | ok s => exact ⟨_, rfl⟩
  obtain ⟨typing, hsolve⟩ := hsolve
  exact ⟨typing, Results.bind_eq_ok_iff.2 ⟨problem, h, hsolve⟩⟩

end Expr

end MiniScheme
