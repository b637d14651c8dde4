import Mathlib.Logic.Function.Basic
import MiniScheme.Proofs.Inference
import MiniScheme.Proofs.Tagging
import MiniScheme.Table

/-!
# Inference finds the most general typing

A typing of a tree gives a type to every node, to every member of a group and to every name that is
neither bound nor primitive. What inference answers is a typing, and every other typing is obtained
from it by putting types for its variables.

For the second part the walk over the tree is followed with a given typing in hand. Each variable
that the walk draws stands for a type of the typing, and all types written down so far can be read
as the types they stand for.
-/

namespace MiniScheme

/-! ### Reading types with variables -/

/-- The variables drawn so far and the types they stand for. -/
structure Reading where
  drawn : Nat
  types : Nat → Ty

namespace Reading

variable {r r' r'' : Reading} {τ ty : Ty}

/-- A type whose variables have been drawn stands for a type. -/
def Reads (r : Reading) (τ ty : Ty) : Prop :=
  (∀ x ∈ τ.vars, x < r.drawn) ∧ τ.replace r.types = ty

/-- Variables have been added, and the old ones stand for what they stood for. -/
structure Grows (r r' : Reading) : Prop where
  le : r.drawn ≤ r'.drawn
  eq : ∀ x < r.drawn, r.types x = r'.types x

theorem Grows.refl (r : Reading) : r.Grows r :=
  ⟨Nat.le_refl _, fun _ _ => rfl⟩

theorem Grows.trans (h : r.Grows r') (h' : r'.Grows r'') : r.Grows r'' := by
  refine ⟨Nat.le_trans h.le h'.le, fun x hx => ?_⟩
  have hx' : x < r'.drawn := Nat.lt_of_lt_of_le hx h.le
  rw [h.eq x hx, h'.eq x hx']

theorem Reads.grow (h : r.Reads τ ty) (hgrows : r.Grows r') : r'.Reads τ ty := by
  refine ⟨fun x hx => Nat.lt_of_lt_of_le (h.1 x hx) hgrows.le, ?_⟩
  rw [← h.2]
  exact (Ty.replace_congr τ fun x hx => hgrows.eq x (h.1 x hx)).symm

theorem reads_grow_list {τs tys : List Ty} (h : List.Forall₂ r.Reads τs tys)
    (hgrows : r.Grows r') : List.Forall₂ r'.Reads τs tys :=
  h.imp fun _ _ hreads => hreads.grow hgrows

theorem reads_literal (r : Reading) (v : Literal) : r.Reads v.ty v.ty := by
  cases v <;> exact ⟨nofun, rfl⟩

theorem reads_bool (r : Reading) : r.Reads .bool .bool :=
  ⟨nofun, rfl⟩

theorem reads_arrow {τs tys : List Ty} (h : List.Forall₂ r.Reads τs tys) :
    r.Reads (.arrow τs) (.arrow tys) := by
  induction h with
  | nil => exact ⟨nofun, rfl⟩
  | cons hτ _ ih =>
    refine ⟨fun x hx => ?_, ?_⟩
    · rw [Ty.vars, Ty.varsList, List.mem_append] at hx
      rcases hx with hx | hx
      · exact hτ.1 x hx
      · exact ih.1 x hx
    · have hrest := Ty.arrow.inj ih.2
      rw [Ty.replace, Ty.replaceList, hτ.2, hrest]

theorem reads_signature {τs : List Ty} {sig : Signature} (h : List.Forall₂ r.Reads τs sig.params)
    (hτ : r.Reads τ sig.result) : r.Reads (.arrow (τs ++ [τ])) sig.ty :=
  reads_arrow (List.rel_append h (.cons hτ .nil))

/-! ### Scopes and judgements -/

/-- Each type in scope stands for the type in the other scope. -/
def ReadsScope (r : Reading) (scope scope' : TypeScope) : Prop :=
  List.Forall₂ (fun b b' => b.1 = b'.1 ∧ r.Reads b.2 b'.2) scope scope'

variable {scope scope' : TypeScope}

theorem ReadsScope.grow (h : r.ReadsScope scope scope') (hgrows : r.Grows r') :
    r'.ReadsScope scope scope' :=
  h.imp fun _ _ hb => ⟨hb.1, hb.2.grow hgrows⟩

theorem ReadsScope.enter (h : r.ReadsScope scope scope') (xs : List Name) {τs tys : List Ty}
    (hτs : List.Forall₂ r.Reads τs tys) :
    r.ReadsScope (scope.enter xs τs) (scope'.enter xs tys) := by
  have hzip : List.Forall₂ (fun b b' => b.1 = b'.1 ∧ r.Reads b.2 b'.2) (xs.zip τs)
      (xs.zip tys) := by
    induction xs generalizing τs tys with
    | nil => exact .nil
    | cons x xs ih =>
      cases hτs with
      | nil => exact .nil
      | cons hτ hτs => exact .cons ⟨rfl, hτ⟩ (ih hτs)
  exact List.rel_append (List.rel_reverse hzip) h

theorem ReadsScope.lookup (h : r.ReadsScope scope scope') (x : Name) :
    (∃ τ ty, scope.lookup x = some τ ∧ scope'.lookup x = some ty ∧ r.Reads τ ty) ∨
      scope.lookup x = none ∧ scope'.lookup x = none := by
  induction h with
  | nil => exact .inr ⟨rfl, rfl⟩
  | @cons b b' scope scope' hb _ ih =>
    obtain ⟨y, τ⟩ := b
    obtain ⟨y', ty⟩ := b'
    obtain ⟨rfl, hτ⟩ := hb
    by_cases hx : x = y
    · exact .inl ⟨τ, ty, by simp [hx], by simp [hx], hτ⟩
    · simpa only [List.lookup_cons, beq_false_of_ne hx] using ih

/-- The types written down stand for those that the typing gives the nodes, and the two sides of
each constraint stand for the same type. -/
structure Explains (r : Reading) (node : Nat → Ty → Prop) (types : TypeTable)
    (constraints : List Constraint) : Prop where
  types : ∀ b ∈ types, ∃ ty, r.Reads b.2 ty ∧ node b.1 ty
  constraints : ∀ c ∈ constraints, ∃ ty, r.Reads c.1 ty ∧ r.Reads c.2 ty

variable {node : Nat → Ty → Prop} {types types' : TypeTable} {cs cs' : List Constraint}

theorem Explains.grow (h : r.Explains node types cs) (hgrows : r.Grows r') :
    r'.Explains node types cs := by
  refine ⟨fun b hb => ?_, fun c hc => ?_⟩
  · obtain ⟨ty, hty, hnode⟩ := h.types b hb
    exact ⟨ty, hty.grow hgrows, hnode⟩
  · obtain ⟨ty, hleft, hright⟩ := h.constraints c hc
    exact ⟨ty, hleft.grow hgrows, hright.grow hgrows⟩

theorem Explains.append (h : r.Explains node types cs) (h' : r.Explains node types' cs') :
    r.Explains node (types ++ types') (cs ++ cs') :=
  ⟨List.forall_mem_append.2 ⟨h.types, h'.types⟩,
    List.forall_mem_append.2 ⟨h.constraints, h'.constraints⟩⟩

theorem explains_nil : r.Explains node [] [] :=
  ⟨nofun, nofun⟩

theorem explains_node {t : Nat} (hτ : r.Reads τ ty) (ht : node t ty) :
    r.Explains node [(t, τ)] [] :=
  ⟨List.forall_mem_singleton.2 ⟨ty, hτ, ht⟩, nofun⟩

theorem Explains.constrain {τ' : Ty} (h : r.Explains node types cs) (hτ : r.Reads τ ty)
    (hτ' : r.Reads τ' ty) : r.Explains node types ((τ, τ') :: cs) :=
  ⟨h.types, List.forall_mem_cons.2 ⟨⟨ty, hτ, hτ'⟩, h.constraints⟩⟩

theorem Explains.solves (h : r.Explains node types cs) : Solves r.types cs := by
  intro c hc
  obtain ⟨ty, hleft, hright⟩ := h.constraints c hc
  rw [hleft.2, hright.2]

/-- The types drawn for the members of a group, and those of its procedures. -/
theorem explains_group {ms : List (Member Nat (Expr Nat))} {sigs : List Signature}
    {τs τs' : List Ty} (hlen : ms.length = sigs.length)
    (htags : ∀ m sig, (m, sig) ∈ ms.zip sigs → node m.tag sig.ty)
    (hτs : List.Forall₂ r.Reads τs (sigs.map Signature.ty))
    (hτs' : List.Forall₂ r.Reads τs' (sigs.map Signature.ty)) :
    r.Explains node ((ms.map (·.tag)).zip τs) (τs.zip τs') := by
  induction sigs generalizing ms τs τs' with
  | nil =>
    cases hτs
    cases hτs'
    rw [List.zip_nil_right]
    exact explains_nil
  | cons sig sigs ih =>
    cases ms with
    | nil => simp at hlen
    | cons m ms =>
      cases hτs with
      | cons hτ hτs =>
        cases hτs' with
        | cons hτ' hτs' =>
          have htags' : ∀ m sig, (m, sig) ∈ ms.zip sigs → node m.tag sig.ty :=
            fun m sig hmem => htags m sig (List.mem_cons_of_mem _ hmem)
          have hrest := ih (by simpa using hlen) htags' hτs hτs'
          have hfirst := explains_node hτ (htags m sig (List.mem_cons_self ..))
          exact (hfirst.append hrest).constrain hτ hτ'

theorem reads_getLast? {τs tys : List Ty} (h : List.Forall₂ r.Reads τs tys)
    (hlast : tys.getLast? = some ty) : ∃ τ, τs.getLast? = some τ ∧ r.Reads τ ty := by
  induction h with
  | nil => simp at hlast
  | @cons τ ty' τs tys hτ hτs ih =>
    cases hτs with
    | nil =>
      cases hlast
      exact ⟨τ, rfl, hτ⟩
    | cons _ _ =>
      rw [List.getLast?_cons_cons] at hlast ⊢
      exact ih hlast

/-! ### Drawing variables -/

/-- The next variable stands for a type. -/
def draw (r : Reading) (ty : Ty) : Reading :=
  ⟨r.drawn + 1, Function.update r.types r.drawn ty⟩

theorem grows_draw (r : Reading) (ty : Ty) : r.Grows (r.draw ty) := by
  refine ⟨Nat.le_succ _, fun x hx => ?_⟩
  have hne : x ≠ r.drawn := by omega
  exact (Function.update_of_ne hne ty r.types).symm

theorem reads_draw (r : Reading) (ty : Ty) : (r.draw ty).Reads (.var r.drawn) ty := by
  refine ⟨fun x hx => ?_, ?_⟩
  · obtain rfl := List.mem_singleton.1 hx
    exact Nat.lt_succ_self _
  · show Function.update r.types r.drawn ty r.drawn = ty
    exact Function.update_self r.drawn ty r.types

end Reading

/-- The state has drawn the variables that are read, and unknown names have their types. -/
structure InferState.Matches (s : InferState) (r : Reading) (unknown : Name → Ty) : Prop where
  next : s.next = r.drawn
  unknown : ∀ x τ, s.unknown.lookup x = some τ → r.Reads τ (unknown x)

theorem InferState.Matches.grow {s : InferState} {r r' : Reading} {unknown : Name → Ty}
    (h : s.Matches r unknown) (hgrows : r.Grows r') :
    InferState.Matches { s with next := r'.drawn } r' unknown :=
  ⟨rfl, fun x τ hx => (h.unknown x τ hx).grow hgrows⟩

namespace InferM

variable {β γ : Type} {s : InferState} {r : Reading} {unknown : Name → Ty}

/-- The computation succeeds, and the variables it draws can be read so that `P` holds. -/
def Draws (unknown : Name → Ty) (x : InferM β) (s : InferState) (r : Reading)
    (P : β → Reading → Prop) : Prop :=
  ∃ b s' r', x.run s = .ok (b, s') ∧ s'.Matches r' unknown ∧ r.Grows r' ∧ P b r'

theorem draws_pure {b : β} {P : β → Reading → Prop} (hs : s.Matches r unknown) (h : P b r) :
    Draws unknown (pure b) s r P :=
  ⟨b, s, r, rfl, hs, .refl r, h⟩

theorem Draws.bind {x : InferM β} {f : β → InferM γ} {P : β → Reading → Prop}
    {Q : γ → Reading → Prop} (h : Draws unknown x s r P)
    (hf : ∀ b s' r', s'.Matches r' unknown → r.Grows r' → P b r' → Draws unknown (f b) s' r' Q) :
    Draws unknown (x >>= f) s r Q := by
  obtain ⟨b, s', r', hrun, hs', hgrows, hb⟩ := h
  obtain ⟨c, s'', r'', hrun', hs'', hgrows', hc⟩ := hf b s' r' hs' hgrows hb
  exact ⟨c, s'', r'', run_bind_eq_ok_iff.2 ⟨b, s', hrun, hrun'⟩, hs'', hgrows.trans hgrows', hc⟩

theorem draws_fresh (hs : s.Matches r unknown) (ty : Ty) :
    Draws unknown fresh s r fun τ r' => r'.Reads τ ty := by
  have hgrows := r.grows_draw ty
  refine ⟨.var r.drawn, { s with next := (r.draw ty).drawn }, r.draw ty, ?_, hs.grow hgrows, hgrows,
    r.reads_draw ty⟩
  rw [run_fresh, hs.next]
  rfl

theorem draws_freshFor (hs : s.Matches r unknown) (xs : List Name) {tys : List Ty}
    (hlen : tys.length = xs.length) :
    Draws unknown (freshFor xs) s r fun τs r' => List.Forall₂ r'.Reads τs tys := by
  induction xs generalizing s r tys with
  | nil =>
    obtain rfl := List.eq_nil_of_length_eq_zero hlen
    exact draws_pure hs .nil
  | cons x xs ih =>
    cases tys with
    | nil => simp at hlen
    | cons ty tys =>
      have hlen' : tys.length = xs.length := by simpa using hlen
      refine (draws_fresh hs ty).bind fun τ s₁ r₁ hs₁ _ hτ => ?_
      refine (ih hs₁ hlen').bind fun τs s₂ r₂ hs₂ hgrows hτs => ?_
      exact draws_pure hs₂ (.cons (hτ.grow hgrows) hτs)

/-- One use of a primitive at a type that it has. -/
theorem draws_instance (hs : s.Matches r unknown) {p : Primitive} {ty : Ty} (h : p.HasTy ty) :
    Draws unknown (modifyGet fun s => ((p.scheme.instantiate s.next).1,
      { s with next := (p.scheme.instantiate s.next).2 })) s r fun τ r' => r'.Reads τ ty := by
  obtain ⟨σ, rfl⟩ := h
  cases p with
  | eq =>
    have hgrows := r.grows_draw (σ 0)
    have hvar := r.reads_draw (σ 0)
    refine ⟨.arrow [.var r.drawn, .var r.drawn, .bool], { s with next := (r.draw (σ 0)).drawn },
      r.draw (σ 0), ?_, hs.grow hgrows, hgrows, ?_⟩
    · show Except.ok (Ty.arrow [.var s.next, .var s.next, .bool], { s with next := s.next + 1 }) = _
      rw [hs.next]
      rfl
    · exact Reading.reads_arrow (.cons hvar (.cons hvar (.cons (Reading.reads_bool _) .nil)))
  | _ => exact ⟨_, s, r, rfl, hs, .refl r, nofun, rfl⟩

/-- A reference that the typing gives a type. -/
theorem draws_typeOfName {node : Nat → Ty → Prop} {scope scope' : TypeScope} {x : Name} {t : Nat}
    {ty : Ty} (hs : s.Matches r unknown) (hscope : r.ReadsScope scope scope')
    (h : TypedBy node (fun x ty => unknown x = ty) scope' (.var x t) ty) :
    Draws unknown (typeOfName scope x) s r fun τ r' => r'.Reads τ ty := by
  unfold typeOfName
  cases h with
  | bound hlookup _ =>
    rcases hscope.lookup x with ⟨τ, ty', hτ, hty', hreads⟩ | ⟨_, hnone⟩
    · rw [hlookup] at hty'
      cases hty'
      rw [hτ]
      exact draws_pure hs hreads
    · rw [hlookup] at hnone
      exact nomatch hnone
  | @primitive _ _ _ _ p hnone hprim hty _ =>
    rcases hscope.lookup x with ⟨τ, ty', hτ, hty', hreads⟩ | ⟨hlookup, _⟩
    · rw [hnone] at hty'
      exact nomatch hty'
    · rw [hlookup, hprim]
      exact draws_instance hs hty
  | unknown hnone hprim hty _ =>
    rcases hscope.lookup x with ⟨τ, ty', hτ, hty', hreads⟩ | ⟨hlookup, _⟩
    · rw [hnone] at hty'
      exact nomatch hty'
    · subst hty
      rw [hlookup, hprim]
      cases hseen : s.unknown.lookup x with
      | some τ =>
        refine ⟨τ, s, r, ?_, hs, .refl r, hs.unknown x τ hseen⟩
        rw [run_bind_eq_ok_iff]
        refine ⟨s, s, rfl, ?_⟩
        rw [hseen]
        rfl
      | none =>
        have hgrows := r.grows_draw (unknown x)
        have hvar := r.reads_draw (unknown x)
        refine ⟨.var r.drawn, ⟨(r.draw (unknown x)).drawn, (x, .var r.drawn) :: s.unknown⟩,
          r.draw (unknown x), ?_, ⟨rfl, fun y τ hy => ?_⟩, hgrows, hvar⟩
        · rw [run_bind_eq_ok_iff]
          refine ⟨s, s, rfl, ?_⟩
          rw [hseen]
          show Except.ok (Ty.var s.next,
            InferState.mk (s.next + 1) ((x, .var s.next) :: s.unknown)) = _
          rw [hs.next]
          rfl
        · by_cases hyx : y = x
          · subst hyx
            have hτ : Ty.var r.drawn = τ := by simpa [List.lookup_cons] using hy
            exact hτ ▸ hvar
          · have hy' : s.unknown.lookup y = some τ := by
              simpa [List.lookup_cons, beq_false_of_ne hyx] using hy
            exact (hs.unknown y τ hy').grow hgrows

end InferM

/-! ### Following the walk -/

namespace Expr

open InferM

variable {node : Nat → Ty → Prop} {unknown : Name → Ty} {s : InferState} {r : Reading}
  {scope scope' : TypeScope}

variable (node unknown) in
/-- If a typing of the tree is given, the walk succeeds, and what it writes down stands for that
typing. -/
def Followed (e : Expr Nat) : Prop :=
  ∀ {s : InferState} {r : Reading} {scope scope' : TypeScope} {ty : Ty},
    s.Matches r unknown → r.ReadsScope scope scope' →
    TypedBy node (fun x ty => unknown x = ty) scope' e ty →
    Draws unknown (e.annotate scope) s r fun j r' =>
      r'.Reads j.ty ty ∧ r'.Explains node j.types j.constraints

theorem followed_list {es : List (Expr Nat)} (hes : ∀ e ∈ es, Followed node unknown e)
    (hs : s.Matches r unknown) (hscope : r.ReadsScope scope scope') {tys : List Ty}
    (h : List.Forall₂ (TypedBy node (fun x ty => unknown x = ty) scope') es tys) :
    Draws unknown (annotateList scope es) s r fun js r' =>
      List.Forall₂ r'.Reads js.tys tys ∧ r'.Explains node js.types js.constraints := by
  induction h generalizing s r with
  | nil => exact draws_pure hs ⟨.nil, Reading.explains_nil⟩
  | cons he _ ih =>
    obtain ⟨hfirst, hrest⟩ := List.forall_mem_cons.1 hes
    refine (hfirst hs hscope he).bind fun j s₁ r₁ hs₁ hgrows₁ hj => ?_
    refine (ih hrest hs₁ (hscope.grow hgrows₁)).bind fun js s₂ r₂ hs₂ hgrows₂ hjs => ?_
    exact draws_pure hs₂ ⟨.cons (hj.1.grow hgrows₂) hjs.1, (hj.2.grow hgrows₂).append hjs.2⟩

theorem followed_members {ms : List (Member Nat (Expr Nat))}
    (hms : ∀ m ∈ ms, Followed node unknown m.body) (hs : s.Matches r unknown)
    (hscope : r.ReadsScope scope scope') {sigs : List Signature}
    (h : List.Forall₂ (fun m sig => sig.params.length = m.params.length ∧
      TypedBy node (fun x ty => unknown x = ty) (scope'.enter m.params sig.params) m.body
        sig.result) ms sigs) :
    Draws unknown (annotateMembers scope ms) s r fun js r' =>
      List.Forall₂ r'.Reads js.tys (sigs.map Signature.ty) ∧
        r'.Explains node js.types js.constraints := by
  induction h generalizing s r with
  | nil => exact draws_pure hs ⟨.nil, Reading.explains_nil⟩
  | @cons m sig ms sigs hm _ ih =>
    obtain ⟨hfirst, hrest⟩ := List.forall_mem_cons.1 hms
    refine (draws_freshFor hs m.params hm.1).bind fun τs s₁ r₁ hs₁ hgrows₁ hτs => ?_
    have hscope₁ := (hscope.grow hgrows₁).enter m.params hτs
    refine (hfirst hs₁ hscope₁ hm.2).bind fun j s₂ r₂ hs₂ hgrows₂ hj => ?_
    have hscope₂ := hscope.grow (hgrows₁.trans hgrows₂)
    refine (ih hrest hs₂ hscope₂).bind fun js s₃ r₃ hs₃ hgrows₃ hjs => ?_
    have hsig := Reading.reads_signature (Reading.reads_grow_list hτs hgrows₂) hj.1
    exact draws_pure hs₃
      ⟨.cons (hsig.grow hgrows₃) hjs.1, (hj.2.grow hgrows₃).append hjs.2⟩

theorem followed_fix {members : List (Member Nat (Expr Nat))} {body : Expr Nat}
    (hmembers : ∀ m ∈ members, Followed node unknown m.body) (hbody : Followed node unknown body)
    (t : Nat) : Followed node unknown (.fix members body t) := by
  intro s r scope scope' ty hs hscope h
  cases h with
  | @fix _ _ _ _ sigs _ hlen hparams hms htags hb ht =>
    have hnames : (sigs.map Signature.ty).length = (members.map (·.name)).length := by
      rw [List.length_map, List.length_map, hlen]
    refine (draws_freshFor hs _ hnames).bind fun τs s₁ r₁ hs₁ hgrows₁ hτs => ?_
    have hscope₁ := (hscope.grow hgrows₁).enter (members.map (·.name)) hτs
    have hprocs := List.forall₂_iff_zip.2
      ⟨hlen, fun {m sig} hmem => And.intro (hparams m sig hmem) (hms m sig hmem)⟩
    refine (followed_members hmembers hs₁ hscope₁ hprocs).bind fun js s₂ r₂ hs₂ hgrows₂ hjs => ?_
    refine (hbody hs₂ (hscope₁.grow hgrows₂) hb).bind fun j s₃ r₃ hs₃ hgrows₃ hj => ?_
    refine (draws_fresh hs₃ ty).bind fun τ s₄ r₄ hs₄ hgrows₄ hτ => ?_
    have hgrows := hgrows₃.trans hgrows₄
    have hgroup := Reading.explains_group hlen htags
      (Reading.reads_grow_list hτs (hgrows₂.trans hgrows)) (Reading.reads_grow_list hjs.1 hgrows)
    have hroot := (Reading.explains_node hτ ht).constrain hτ (hj.1.grow hgrows₄)
    exact draws_pure hs₄ ⟨hτ,
      ((hgroup.append (hjs.2.grow hgrows)).append (hj.2.grow hgrows₄)).append hroot⟩

theorem followed (e : Expr Nat) : Followed node unknown e := by
  induction e with
  | lit v t =>
    intro s r scope scope' ty hs _ h
    cases h with
    | lit ht =>
      have hv := r.reads_literal v
      exact draws_pure hs ⟨hv, Reading.explains_node hv ht⟩
  | var x t =>
    intro s r scope scope' ty hs hscope h
    have ht : node t ty := by cases h <;> assumption
    refine (draws_typeOfName hs hscope h).bind fun τ s₁ r₁ hs₁ _ hτ => ?_
    exact draws_pure hs₁ ⟨hτ, Reading.explains_node hτ ht⟩
  | cond test yes no t htest hyes hno =>
    intro s r scope scope' ty hs hscope h
    cases h with
    | cond h₁ h₂ h₃ ht =>
      refine (htest hs hscope h₁).bind fun j₁ s₁ r₁ hs₁ hgrows₁ hj₁ => ?_
      have hscope₁ := hscope.grow hgrows₁
      refine (hyes hs₁ hscope₁ h₂).bind fun j₂ s₂ r₂ hs₂ hgrows₂ hj₂ => ?_
      have hscope₂ := hscope₁.grow hgrows₂
      refine (hno hs₂ hscope₂ h₃).bind fun j₃ s₃ r₃ hs₃ hgrows₃ hj₃ => ?_
      refine (draws_fresh hs₃ ty).bind fun τ s₄ r₄ hs₄ hgrows₄ hτ => ?_
      have hafter₂ := hgrows₃.trans hgrows₄
      have hafter₁ := hgrows₂.trans hafter₂
      have hyes' := hj₂.1.grow hafter₂
      have hroot := (((Reading.explains_node hτ ht).constrain hyes' hτ).constrain hyes'
        (hj₃.1.grow hgrows₄)).constrain (hj₁.1.grow hafter₁) (Reading.reads_bool r₄)
      exact draws_pure hs₄ ⟨hτ, (((hj₁.2.grow hafter₁).append (hj₂.2.grow hafter₂)).append
        (hj₃.2.grow hgrows₄)).append hroot⟩
  | lambda params body t hbody =>
    intro s r scope scope' ty hs hscope h
    cases h with
    | lambda hlen hb ht =>
      refine (draws_freshFor hs params hlen).bind fun τs s₁ r₁ hs₁ hgrows₁ hτs => ?_
      have hscope₁ := (hscope.grow hgrows₁).enter params hτs
      refine (hbody hs₁ hscope₁ hb).bind fun j s₂ r₂ hs₂ hgrows₂ hj => ?_
      have hsig := Reading.reads_signature (Reading.reads_grow_list hτs hgrows₂) hj.1
      have hall := hj.2.append (Reading.explains_node hsig ht)
      rw [List.append_nil] at hall
      exact draws_pure hs₂ ⟨hsig, hall⟩
  | assign x value t _ => exact fun _ _ h => nomatch h
  | app func args t hfunc hargs =>
    intro s r scope scope' ty hs hscope h
    cases h with
    | @app _ _ _ _ sig hf hlen ha ht =>
      refine (hfunc hs hscope hf).bind fun j s₁ r₁ hs₁ hgrows₁ hj => ?_
      have ha' := List.forall₂_iff_zip.2 ⟨hlen, fun {e ty} => ha e ty⟩
      refine (followed_list hargs hs₁ (hscope.grow hgrows₁) ha').bind
        fun js s₂ r₂ hs₂ hgrows₂ hjs => ?_
      refine (draws_fresh hs₂ sig.result).bind fun τ s₃ r₃ hs₃ hgrows₃ hτ => ?_
      have hafter := hgrows₂.trans hgrows₃
      have hsig := Reading.reads_signature (Reading.reads_grow_list hjs.1 hgrows₃) hτ
      have hroot := (Reading.explains_node hτ ht).constrain (hj.1.grow hafter) hsig
      exact draws_pure hs₃
        ⟨hτ, ((hj.2.grow hafter).append (hjs.2.grow hgrows₃)).append hroot⟩
  | letIn bindings body t hbindings hbody =>
    intro s r scope scope' ty hs hscope h
    cases h with
    | @letIn _ _ _ _ tys _ hlen hbs hb ht =>
      have hinits : List.Forall₂ (TypedBy node (fun x ty => unknown x = ty) scope')
          (bindings.map (·.2)) tys :=
        List.forall₂_map_left_iff.2 (List.forall₂_iff_zip.2 ⟨hlen, fun {b ty} => hbs b ty⟩)
      have hwalk := followed_list (List.forall_mem_map.2 hbindings) hs hscope hinits
      rw [← annotateBindings_eq] at hwalk
      refine hwalk.bind fun js s₁ r₁ hs₁ hgrows₁ hjs => ?_
      have hscope₁ := (hscope.grow hgrows₁).enter (bindings.map (·.1)) hjs.1
      refine (hbody hs₁ hscope₁ hb).bind fun j s₂ r₂ hs₂ hgrows₂ hj => ?_
      refine (draws_fresh hs₂ ty).bind fun τ s₃ r₃ hs₃ hgrows₃ hτ => ?_
      have hroot := (Reading.explains_node hτ ht).constrain hτ (hj.1.grow hgrows₃)
      exact draws_pure hs₃ ⟨hτ, ((hjs.2.grow (hgrows₂.trans hgrows₃)).append
        (hj.2.grow hgrows₃)).append hroot⟩
  | letrec bindings body t _ _ => exact fun _ _ h => nomatch h
  | fix members body t hmembers hbody => exact followed_fix hmembers hbody t
  | seq items t hitems =>
    intro s r scope scope' ty hs hscope h
    cases h with
    | @seq _ _ _ tys _ hlen hes hlast ht =>
      have hes' := List.forall₂_iff_zip.2 ⟨hlen, fun {e ty} => hes e ty⟩
      refine (followed_list hitems hs hscope hes').bind fun js s₁ r₁ hs₁ _ hjs => ?_
      obtain ⟨τ, hτlast, hτ⟩ := Reading.reads_getLast? hjs.1 hlast
      have hall := hjs.2.append (Reading.explains_node hτ ht)
      rw [List.append_nil] at hall
      rw [hτlast]
      exact draws_pure hs₁ ⟨hτ, hall⟩

/-! ### The table -/

theorem tagsBindings_eq (bs : List (Name × Expr Nat)) :
    tagsBindings bs = tagsList (bs.map (·.2)) := by
  induction bs with
  | nil => rfl
  | cons b bs ih => rw [tagsBindings, List.map_cons, tagsList, ih]

/-- The table has one entry for each node and member, in their order. -/
def Tabulated (e : Expr Nat) : Prop :=
  ∀ {scope : TypeScope} {s s' : InferState} {j : Judgement},
    (e.annotate scope).run s = .ok (j, s') → j.types.map (·.1) = e.tags

theorem tabulated_list {es : List (Expr Nat)} (hes : ∀ e ∈ es, Tabulated e) {s s' : InferState}
    {js : Judgements} (h : (annotateList scope es).run s = .ok (js, s')) :
    js.types.map (·.1) = tagsList es := by
  induction es generalizing s js with
  | nil =>
    obtain ⟨rfl, _⟩ := run_pure_eq_ok_iff.1 h
    rfl
  | cons e es ih =>
    obtain ⟨first, s₁, hfirst, h⟩ := run_bind_eq_ok_iff.1 h
    obtain ⟨rest, s₂, hrest, h⟩ := run_bind_eq_ok_iff.1 h
    obtain ⟨rfl, rfl⟩ := run_pure_eq_ok_iff.1 h
    obtain ⟨he, hes⟩ := List.forall_mem_cons.1 hes
    rw [List.map_append, he hfirst, ih hes hrest, tagsList]

theorem tabulated_members {ms : List (Member Nat (Expr Nat))} (hms : ∀ m ∈ ms, Tabulated m.body)
    {s s' : InferState} {js : Judgements} (h : (annotateMembers scope ms).run s = .ok (js, s')) :
    js.types.map (·.1) = tagsMembers ms := by
  induction ms generalizing s js with
  | nil =>
    obtain ⟨rfl, _⟩ := run_pure_eq_ok_iff.1 h
    rfl
  | cons m ms ih =>
    obtain ⟨tys, s₁, _, h⟩ := run_bind_eq_ok_iff.1 h
    obtain ⟨body, s₂, hbody, h⟩ := run_bind_eq_ok_iff.1 h
    obtain ⟨rest, s₃, hrest, h⟩ := run_bind_eq_ok_iff.1 h
    obtain ⟨rfl, rfl⟩ := run_pure_eq_ok_iff.1 h
    obtain ⟨hm, hms⟩ := List.forall_mem_cons.1 hms
    rw [List.map_append, hm hbody, ih hms hrest, tagsMembers]

theorem tabulated (e : Expr Nat) : Tabulated e := by
  induction e with
  | lit v t =>
    intro scope s s' j h
    obtain ⟨rfl, _⟩ := run_pure_eq_ok_iff.1 h
    rfl
  | var x t =>
    intro scope s s' j h
    obtain ⟨ty, s₁, _, h⟩ := run_bind_eq_ok_iff.1 h
    obtain ⟨rfl, _⟩ := run_pure_eq_ok_iff.1 h
    rfl
  | cond test yes no t htest hyes hno =>
    intro scope s s' j h
    obtain ⟨jt, s₁, h₁, h⟩ := run_bind_eq_ok_iff.1 h
    obtain ⟨jy, s₂, h₂, h⟩ := run_bind_eq_ok_iff.1 h
    obtain ⟨jn, s₃, h₃, h⟩ := run_bind_eq_ok_iff.1 h
    obtain ⟨ty, s₄, _, h⟩ := run_bind_eq_ok_iff.1 h
    obtain ⟨rfl, _⟩ := run_pure_eq_ok_iff.1 h
    simp only [List.map_append, htest h₁, hyes h₂, hno h₃, tags, List.map_cons, List.map_nil]
  | lambda params body t hbody =>
    intro scope s s' j h
    obtain ⟨tys, s₁, _, h⟩ := run_bind_eq_ok_iff.1 h
    obtain ⟨jb, s₂, h₂, h⟩ := run_bind_eq_ok_iff.1 h
    obtain ⟨rfl, _⟩ := run_pure_eq_ok_iff.1 h
    simp only [List.map_append, hbody h₂, tags, List.map_cons, List.map_nil]
  | assign x value t _ =>
    intro scope s s' j h
    cases h
  | app func args t hfunc hargs =>
    intro scope s s' j h
    obtain ⟨jf, s₁, h₁, h⟩ := run_bind_eq_ok_iff.1 h
    obtain ⟨ja, s₂, h₂, h⟩ := run_bind_eq_ok_iff.1 h
    obtain ⟨ty, s₃, _, h⟩ := run_bind_eq_ok_iff.1 h
    obtain ⟨rfl, _⟩ := run_pure_eq_ok_iff.1 h
    simp only [List.map_append, hfunc h₁, tabulated_list hargs h₂, tags, List.map_cons,
      List.map_nil]
  | letIn bindings body t hbindings hbody =>
    intro scope s s' j h
    obtain ⟨ji, s₁, h₁, h⟩ := run_bind_eq_ok_iff.1 h
    obtain ⟨jb, s₂, h₂, h⟩ := run_bind_eq_ok_iff.1 h
    obtain ⟨ty, s₃, _, h⟩ := run_bind_eq_ok_iff.1 h
    obtain ⟨rfl, _⟩ := run_pure_eq_ok_iff.1 h
    rw [annotateBindings_eq] at h₁
    simp only [List.map_append, tabulated_list (List.forall_mem_map.2 hbindings) h₁, hbody h₂, tags,
      tagsBindings_eq, List.map_cons, List.map_nil]
  | letrec bindings body t _ _ =>
    intro scope s s' j h
    cases h
  | fix members body t hmembers hbody =>
    intro scope s s' j h
    obtain ⟨tys, s₁, htys, h⟩ := run_bind_eq_ok_iff.1 h
    obtain ⟨jm, s₂, h₂, h⟩ := run_bind_eq_ok_iff.1 h
    obtain ⟨jb, s₃, h₃, h⟩ := run_bind_eq_ok_iff.1 h
    obtain ⟨ty, s₄, _, h⟩ := run_bind_eq_ok_iff.1 h
    obtain ⟨rfl, _⟩ := run_pure_eq_ok_iff.1 h
    have hlen : (members.map (·.tag)).length ≤ tys.length := by
      have hcount := length_freshFor htys
      rw [List.length_map] at hcount ⊢
      omega
    simp only [List.map_append, List.map_fst_zip hlen, tabulated_members hmembers h₂, hbody h₃,
      tags, List.map_cons, List.map_nil]
  | seq items t hitems =>
    intro scope s s' j h
    obtain ⟨ji, s₁, h₁, h⟩ := run_bind_eq_ok_iff.1 h
    cases hlast : ji.tys.getLast? with
    | none =>
      rw [hlast] at h
      cases h
    | some ty =>
      rw [hlast] at h
      obtain ⟨rfl, _⟩ := run_pure_eq_ok_iff.1 h
      simp only [List.map_append, tabulated_list hitems h₁, tags, List.map_cons, List.map_nil]

/-! ### The most general typing -/

/-- A typing of a whole tree: each node and member has the type in the table by the rules, the tree
has the type `root`, and each name that is neither bound nor primitive has one type. -/
def ValidTyping (e : Expr Nat) (types : Nat → Option Ty) (root : Ty) : Prop :=
  ∃ unknown : Name → Ty,
    TypedBy (fun t ty => types t = some ty) (fun x ty => unknown x = ty) [] e root

theorem lookup_types_of_mem {e : Expr Nat} (htags : e.tags.Nodup) {s s' : InferState}
    {j : Judgement} (hrun : (e.annotate []).run s = .ok (j, s')) (σ : Subst) {t : Nat} {τ : Ty}
    (h : (t, τ) ∈ j.types) :
    (j.types.map fun b => (b.1, σ.apply b.2)).lookup t = some (σ.apply τ) := by
  refine Table.lookup_of_mem ?_ (List.mem_map.2 ⟨(t, τ), h, rfl⟩)
  rw [List.map_map]
  show (j.types.map (·.1)).Nodup
  rw [tabulated e hrun]
  exact htags

theorem validTyping_of_infer {e : Expr Nat} (htags : e.tags.Nodup) {typing : Typing}
    (h : e.infer = .ok typing) : e.ValidTyping (fun t => typing.types.lookup t) typing.root := by
  obtain ⟨j, s, σ, hrun, hunify, rfl⟩ := infer_eq_ok_iff.1 h
  let node : Nat → Ty → Prop := fun t ty =>
    (j.types.map fun b => (b.1, σ.apply b.2)).lookup t = some ty
  have hnode : ∀ b ∈ j.types, node b.1 (b.2.replace σ.assignment) := by
    intro b hb
    rw [← Subst.apply_eq_replace]
    exact lookup_types_of_mem htags hrun σ hb
  -- unknown names have the types that were drawn for them
  let unknown : Name → Ty := fun x => ((s.unknown.lookup x).getD .int).replace σ.assignment
  have hgrants : s.Grants σ.assignment fun x ty => unknown x = ty := by
    intro x ty hx
    simp only [unknown, hx, Option.getD_some]
  have htyped := (solutionTypes node _ _ e hrun hnode hgrants (solves_unify hunify)).1
  rw [← Subst.apply_eq_replace] at htyped
  exact ⟨unknown, htyped⟩

/-- A tree with a typing is not refused, and the typing is an instance of the answer. -/
theorem infer_of_typedBy {node : Nat → Ty → Prop} {unknown : Name → Ty} {e : Expr Nat} {root : Ty}
    (h : TypedBy node (fun x ty => unknown x = ty) [] e root) :
    ∃ j s σ θ, (e.annotate []).run ⟨0, []⟩ = .ok (j, s) ∧ unify j.constraints = .ok σ ∧
      root = (σ.apply j.ty).replace θ ∧ ∀ b ∈ j.types, node b.1 ((σ.apply b.2).replace θ) := by
  have hstart : InferState.Matches ⟨0, []⟩ ⟨0, fun _ => .int⟩ unknown := ⟨rfl, nofun⟩
  obtain ⟨j, s, r, hrun, _, _, hroot, hexplains⟩ := followed e hstart .nil h
  have hsolves := hexplains.solves
  cases hunify : unify j.constraints with
  | error cause => exact absurd hsolves (not_solves_of_unify_error hunify)
  | ok σ =>
    have hgeneral := replace_apply_of_solves hunify hsolves
    refine ⟨j, s, σ, r.types, hrun, hunify, by rw [hgeneral, hroot.2], fun b hb => ?_⟩
    obtain ⟨ty, hτ, hty⟩ := hexplains.types b hb
    rw [hgeneral, hτ.2]
    exact hty

end Expr

end MiniScheme
