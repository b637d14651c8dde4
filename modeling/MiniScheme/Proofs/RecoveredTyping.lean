import Mathlib.Logic.Equiv.Basic
import MiniScheme.Proofs.LetRecovery
import MiniScheme.Proofs.PrincipalTyping

/-!
# Typing and the form of a program

A tree has the same types whatever the annotations of its nodes and whether or not applied lambdas
are written as `let`. Trees with the same types have the same most general type, up to the names of
its variables.
-/

namespace MiniScheme

/-! ### Rules read backwards -/

section

variable {scope : TypeScope} {ty : Ty} {t : Nat}

theorem typed_lit_iff {v : Literal} : Typed scope (.lit v t) ty ↔ ty = v.ty := by
  constructor
  · intro h
    cases h
    rfl
  · rintro rfl
    exact .lit

theorem typed_var_iff {x : Name} : Typed scope (.var x t) ty ↔ scope.lookup x = some ty ∨
    scope.lookup x = none ∧ ∃ p, Primitive.ofName? x = some p ∧ p.HasTy ty := by
  constructor
  · intro h
    cases h with
    | bound h => exact .inl h
    | primitive hscope hx hty => exact .inr ⟨hscope, _, hx, hty⟩
  · rintro (h | ⟨hscope, p, hx, hty⟩)
    · exact .bound h
    · exact .primitive hscope hx hty

theorem typed_cond_iff {test yes no : Expr Nat} : Typed scope (.cond test yes no t) ty ↔
    Typed scope test .bool ∧ Typed scope yes ty ∧ Typed scope no ty := by
  constructor
  · intro h
    cases h with
    | cond htest hyes hno => exact ⟨htest, hyes, hno⟩
  · rintro ⟨htest, hyes, hno⟩
    exact .cond htest hyes hno

theorem typed_lambda_iff {params : List Name} {body : Expr Nat} :
    Typed scope (.lambda params body t) ty ↔ ∃ sig : Signature, sig.params.length = params.length ∧
      Typed (scope.enter params sig.params) body sig.result ∧ ty = sig.ty := by
  constructor
  · intro h
    cases h with
    | lambda hlen hbody => exact ⟨_, hlen, hbody, rfl⟩
  · rintro ⟨sig, hlen, hbody, rfl⟩
    exact .lambda hlen hbody

theorem typed_app_iff {func : Expr Nat} {args : List (Expr Nat)} :
    Typed scope (.app func args t) ty ↔ ∃ sig : Signature, Typed scope func sig.ty ∧
      List.Forall₂ (Typed scope) args sig.params ∧ ty = sig.result := by
  constructor
  · intro h
    cases h with
    | app hfunc hlen hargs =>
      exact ⟨_, hfunc, List.forall₂_iff_zip.2 ⟨hlen, fun h => hargs _ _ h⟩, rfl⟩
  · rintro ⟨sig, hfunc, hargs, rfl⟩
    exact .app hfunc hargs.length_eq fun e ty h => (List.forall₂_iff_zip.1 hargs).2 h

theorem typed_letIn_iff {bindings : List (Name × Expr Nat)} {body : Expr Nat} :
    Typed scope (.letIn bindings body t) ty ↔
      ∃ tys, List.Forall₂ (fun b ty => Typed scope b.2 ty) bindings tys ∧
        Typed (scope.enter (bindings.map (·.1)) tys) body ty := by
  constructor
  · intro h
    cases h with
    | letIn hlen hbindings hbody =>
      exact ⟨_, List.forall₂_iff_zip.2 ⟨hlen, fun h => hbindings _ _ h⟩, hbody⟩
  · rintro ⟨tys, hbindings, hbody⟩
    exact .letIn hbindings.length_eq (fun b ty h => (List.forall₂_iff_zip.1 hbindings).2 h) hbody

theorem typed_fix_iff {members : List (Member Nat (Expr Nat))} {body : Expr Nat} :
    Typed scope (.fix members body t) ty ↔ ∃ sigs : List Signature,
      List.Forall₂ (fun m sig => sig.params.length = m.params.length ∧
        Typed ((scope.enter (members.map (·.name)) (sigs.map Signature.ty)).enter m.params
          sig.params) m.body sig.result) members sigs ∧
      Typed (scope.enter (members.map (·.name)) (sigs.map Signature.ty)) body ty := by
  constructor
  · intro h
    cases h with
    | fix hlen hparams hmembers hbody =>
      exact ⟨_, List.forall₂_iff_zip.2 ⟨hlen, fun h => ⟨hparams _ _ h, hmembers _ _ h⟩⟩, hbody⟩
  · rintro ⟨sigs, hmembers, hbody⟩
    obtain ⟨hlen, hzip⟩ := List.forall₂_iff_zip.1 hmembers
    exact .fix hlen (fun m sig h => (hzip h).1) (fun m sig h => (hzip h).2) hbody

theorem typed_seq_one_iff {e : Expr Nat} : Typed scope (.seq [e] t) ty ↔ Typed scope e ty := by
  constructor
  · intro h
    cases h with
    | last he => exact he
  · exact .last

theorem typed_seq_cons_iff {e e' : Expr Nat} {es : List (Expr Nat)} :
    Typed scope (.seq (e :: e' :: es) t) ty ↔
      (∃ ty', Typed scope e ty') ∧ Typed scope (.seq (e' :: es) t) ty := by
  constructor
  · intro h
    cases h with
    | before he hes => exact ⟨⟨_, he⟩, hes⟩
  · rintro ⟨⟨ty', he⟩, hes⟩
    exact .before he hes

end

/-! ### Forms with the same types -/

/-- Two trees have the same types in all scopes. -/
def SameTypes (e e' : Expr Nat) : Prop :=
  ∀ scope ty, Typed scope e ty ↔ Typed scope e' ty

namespace SameTypes

variable {t t' : Nat}

theorem cond {test yes no test' yes' no' : Expr Nat} (htest : SameTypes test test')
    (hyes : SameTypes yes yes') (hno : SameTypes no no') :
    SameTypes (.cond test yes no t) (.cond test' yes' no' t') := by
  intro scope ty
  rw [typed_cond_iff, typed_cond_iff, htest, hyes, hno]

theorem lambda {body body' : Expr Nat} (params : List Name) (hbody : SameTypes body body') :
    SameTypes (.lambda params body t) (.lambda params body' t') := by
  intro scope ty
  simp only [typed_lambda_iff, hbody _ _]

theorem list {es es' : List (Expr Nat)} (h : List.Forall₂ SameTypes es es') (scope : TypeScope)
    (tys : List Ty) :
    List.Forall₂ (Typed scope) es tys ↔ List.Forall₂ (Typed scope) es' tys := by
  induction h generalizing tys with
  | nil => rfl
  | cons he _ ih => simp only [List.forall₂_cons_left_iff, he _ _, ih]

theorem app {func func' : Expr Nat} {args args' : List (Expr Nat)} (hfunc : SameTypes func func')
    (hargs : List.Forall₂ SameTypes args args') :
    SameTypes (.app func args t) (.app func' args' t') := by
  intro scope ty
  simp only [typed_app_iff, hfunc _ _, list hargs]

theorem letIn {bs bs' : List (Name × Expr Nat)} {body body' : Expr Nat}
    (hnames : bs.map (·.1) = bs'.map (·.1))
    (hbs : List.Forall₂ SameTypes (bs.map (·.2)) (bs'.map (·.2))) (hbody : SameTypes body body') :
    SameTypes (.letIn bs body t) (.letIn bs' body' t') := by
  intro scope ty
  have hinits (tys : List Ty) := list hbs scope tys
  simp only [List.forall₂_map_left_iff] at hinits
  simp only [typed_letIn_iff, hinits, hnames, hbody _ _]

theorem members {ms ms' : List (Member Nat (Expr Nat))}
    (hms : List.Forall₂ (fun m m' => m.params = m'.params ∧ SameTypes m.body m'.body) ms ms')
    (scope : TypeScope) (sigs : List Signature) :
    List.Forall₂ (fun m sig => sig.params.length = m.params.length ∧
        Typed (scope.enter m.params sig.params) m.body sig.result) ms sigs ↔
      List.Forall₂ (fun m sig => sig.params.length = m.params.length ∧
        Typed (scope.enter m.params sig.params) m.body sig.result) ms' sigs := by
  induction hms generalizing sigs with
  | nil => rfl
  | cons hm _ ih => simp only [List.forall₂_cons_left_iff, hm.1, hm.2 _ _, ih]

theorem fix {ms ms' : List (Member Nat (Expr Nat))} {body body' : Expr Nat}
    (hms : List.Forall₂ (fun m m' => m.name = m'.name ∧ m.params = m'.params ∧
      SameTypes m.body m'.body) ms ms') (hbody : SameTypes body body') :
    SameTypes (.fix ms body t) (.fix ms' body' t') := by
  intro scope ty
  have hnames : ms.map (·.name) = ms'.map (·.name) :=
    Expr.map_eq_map_of_forall₂ (hms.imp fun _ _ h => h.1)
  simp only [typed_fix_iff, members (hms.imp fun _ _ h => h.2), hnames, hbody _ _]

theorem seq {es es' : List (Expr Nat)} (h : List.Forall₂ SameTypes es es') :
    SameTypes (.seq es t) (.seq es' t') := by
  induction h with
  | nil =>
    intro scope ty
    constructor <;> exact nofun
  | cons he hes ih =>
    intro scope ty
    cases hes with
    | nil => rw [typed_seq_one_iff, typed_seq_one_iff, he]
    | cons he' hes =>
      rw [typed_seq_cons_iff, typed_seq_cons_iff, ih]
      simp only [he _ _]

end SameTypes

theorem sameTypes_mapTag (f : Nat → Nat) (e : Expr Nat) : SameTypes (e.mapTag f) e := by
  induction e with
  | lit v t => exact fun _ _ => typed_lit_iff.trans typed_lit_iff.symm
  | var x t => exact fun _ _ => typed_var_iff.trans typed_var_iff.symm
  | cond test yes no t htest hyes hno => exact .cond htest hyes hno
  | lambda params body t hbody => exact .lambda params hbody
  | assign x value t _ =>
    intro scope ty
    constructor <;> (intro h; cases h)
  | app func args t hfunc hargs =>
    rw [Expr.mapTag, Expr.mapTagList_eq_map]
    exact .app hfunc (List.forall₂_map_left_iff.2 (List.forall₂_same.2 hargs))
  | letIn bindings body t hbindings hbody =>
    rw [Expr.mapTag]
    refine .letIn (Expr.map_fst_mapTagBindings f bindings) ?_ hbody
    rw [Expr.mapTagBindings_eq_map, List.map_map, List.forall₂_map_left_iff,
      List.forall₂_map_right_iff]
    exact List.forall₂_same.2 hbindings
  | letrec bindings body t _ _ =>
    intro scope ty
    constructor <;> (intro h; cases h)
  | fix members body t hmembers hbody =>
    rw [Expr.mapTag, Expr.mapTagMembers_eq_map]
    refine .fix (List.forall₂_map_left_iff.2 (List.forall₂_same.2 fun m hm => ?_)) hbody
    exact ⟨rfl, rfl, hmembers m hm⟩
  | seq items t hitems =>
    rw [Expr.mapTag, Expr.mapTagList_eq_map]
    exact .seq (List.forall₂_map_left_iff.2 (List.forall₂_same.2 hitems))

/-- Annotations have no influence on types. -/
theorem sameTypes_of_untag_eq {e e' : Expr Nat} (h : e.untag = e'.untag) : SameTypes e e' := by
  intro scope ty
  rw [← sameTypes_mapTag (fun _ => 0) e, Expr.mapTag_const_eq 0 h,
    sameTypes_mapTag (fun _ => 0) e']

/-- A lambda that is applied directly is typed like the `let` it stands for. -/
theorem sameTypes_applied {params : List Name} {args : List (Expr Nat)}
    (hlen : params.length = args.length) (body : Expr Nat) (t' t : Nat) :
    SameTypes (.letIn (params.zip args) body t) (.app (.lambda params body t') args t) := by
  intro scope ty
  have hfst : (params.zip args).map (·.1) = params := List.map_fst_zip (by omega)
  have hsnd (tys : List Ty) : List.Forall₂ (fun b ty => Typed scope b.2 ty) (params.zip args) tys ↔
      List.Forall₂ (Typed scope) args tys := by
    have hargs : (params.zip args).map (·.2) = args := List.map_snd_zip (by omega)
    conv_rhs => rw [← hargs]
    rw [List.forall₂_map_left_iff]
  simp only [typed_letIn_iff, typed_app_iff, typed_lambda_iff, hfst, hsnd]
  constructor
  · rintro ⟨tys, hargs, hbody⟩
    refine ⟨⟨tys, ty⟩, ⟨⟨tys, ty⟩, ?_, hbody, rfl⟩, hargs, rfl⟩
    rw [hlen, hargs.length_eq]
  · rintro ⟨sig, ⟨sig', hlen', hbody, hsig⟩, hargs, rfl⟩
    obtain rfl := Signature.eq_of_ty_eq hsig
    exact ⟨sig.params, hargs, hbody⟩

theorem sameTypes_recoverLet (e : Expr Nat) : SameTypes e.recoverLet e := by
  induction e using Expr.induct_let with
  | lit v t => exact fun _ _ => Iff.rfl
  | var x t => exact fun _ _ => Iff.rfl
  | cond test yes no t htest hyes hno => exact .cond htest hyes hno
  | lambda params body t hbody => exact .lambda params hbody
  | assign x value t _ =>
    intro scope ty
    constructor <;> (intro h; cases h)
  | applied params body t' args t hlen hbody hargs =>
    rw [Expr.recoverLet_app_lambda body t' t hlen, Expr.recoverLetList_eq_map]
    intro scope ty
    rw [sameTypes_applied (by rw [List.length_map, hlen]) body.recoverLet t' t]
    have hargs' := List.forall₂_map_left_iff.2 (List.forall₂_same.2 hargs)
    exact SameTypes.app (.lambda params hbody) hargs' scope ty
  | app func args t hnot hfunc hargs =>
    rw [Expr.recoverLet_app_of_not hnot, Expr.recoverLetList_eq_map]
    exact .app hfunc (List.forall₂_map_left_iff.2 (List.forall₂_same.2 hargs))
  | letIn bindings body t hbindings hbody =>
    rw [Expr.recoverLet]
    refine .letIn (Expr.map_fst_recoverLetBindings bindings) ?_ hbody
    rw [Expr.recoverLetBindings_eq_map, List.map_map, List.forall₂_map_left_iff,
      List.forall₂_map_right_iff]
    exact List.forall₂_same.2 hbindings
  | letrec bindings body t _ _ =>
    intro scope ty
    constructor <;> (intro h; cases h)
  | fix members body t hmembers hbody =>
    rw [Expr.recoverLet, Expr.recoverLetMembers_eq_map]
    refine .fix (List.forall₂_map_left_iff.2 (List.forall₂_same.2 fun m hm => ?_)) hbody
    exact ⟨rfl, rfl, hmembers m hm⟩
  | seq items t hitems =>
    rw [Expr.recoverLet, Expr.recoverLetList_eq_map]
    exact .seq (List.forall₂_map_left_iff.2 (List.forall₂_same.2 hitems))

/-! ### Most general types -/

namespace Expr

/-- A tree with a type is not refused, and its type is an instance of the answer. -/
theorem infer_of_typed {e : Expr Nat} {ty : Ty} (h : Typed [] e ty) :
    ∃ typing θ, e.infer = .ok typing ∧ ty = typing.root.replace θ := by
  have htyped := typedBy_of_typed h fun _ ty => .int = ty
  obtain ⟨j, s, σ, θ, hrun, hunify, hroot, _⟩ := infer_of_typedBy htyped
  exact ⟨_, θ, infer_eq_ok_iff.2 ⟨j, s, σ, hrun, hunify, rfl⟩, hroot⟩

end Expr

/-- Pairs that repeat no value on either side belong to a permutation. -/
theorem exists_perm_of_pairs {α : Type} [DecidableEq α] {ps : List (α × α)}
    (hfst : (ps.map (·.1)).Nodup) (hsnd : (ps.map (·.2)).Nodup) :
    ∃ π : Equiv.Perm α, ∀ p ∈ ps, π p.1 = p.2 := by
  induction ps with
  | nil => exact ⟨Equiv.refl α, by simp⟩
  | cons p ps ih =>
    rw [List.map_cons, List.nodup_cons] at hfst hsnd
    obtain ⟨π, hπ⟩ := ih hfst.2 hsnd.2
    -- exchanging two values corrects the first and leaves the others alone
    refine ⟨π.trans (Equiv.swap (π p.1) p.2), List.forall_mem_cons.2 ⟨?_, fun q hq => ?_⟩⟩
    · rw [Equiv.trans_apply, Equiv.swap_apply_left]
    · have hne : π q.1 ≠ π p.1 := by
        rw [π.injective.ne_iff]
        intro heq
        exact hfst.1 (heq ▸ List.mem_map_of_mem hq)
      have hne' : q.2 ≠ p.2 := by
        intro heq
        exact hsnd.1 (heq ▸ List.mem_map_of_mem hq)
      rw [Equiv.trans_apply]
      rw [hπ q hq] at hne ⊢
      exact Equiv.swap_apply_of_ne_of_ne hne hne'

/-- A function that is injective on a list is a permutation there. -/
theorem exists_perm_of_injective {l : List Nat} {f : Nat → Nat}
    (hf : ∀ x ∈ l, ∀ y ∈ l, f x = f y → x = y) : ∃ π : Equiv.Perm Nat, ∀ x ∈ l, π x = f x := by
  have hfst : ((l.eraseDups.map fun x => (x, f x)).map (·.1)).Nodup := by
    simpa [Function.comp_def] using Constraint.nodup_eraseDups l
  have hsnd : ((l.eraseDups.map fun x => (x, f x)).map (·.2)).Nodup := by
    rw [List.map_map]
    refine (Constraint.nodup_eraseDups l).map_on fun x hx y hy => ?_
    exact hf x (List.mem_eraseDups.1 hx) y (List.mem_eraseDups.1 hy)
  obtain ⟨π, hπ⟩ := exists_perm_of_pairs hfst hsnd
  exact ⟨π, fun x hx => hπ (x, f x) (List.mem_map_of_mem (List.mem_eraseDups.2 hx))⟩

mutual
/-- Two replacements that do the same to a type do the same to its variables. -/
theorem Ty.eq_of_replace_eq {σ θ : Nat → Ty} :
    (τ : Ty) → τ.replace σ = τ.replace θ → ∀ x ∈ τ.vars, σ x = θ x
  | .var y, h, x, hx => by
    obtain rfl := List.mem_singleton.1 hx
    exact h
  | .int, _, _, hx => nomatch hx
  | .bool, _, _, hx => nomatch hx
  | .arrow τs, h, x, hx => Ty.eq_of_replaceList_eq τs (Ty.arrow.inj h) x hx
termination_by structural τ => τ

theorem Ty.eq_of_replaceList_eq {σ θ : Nat → Ty} :
    (τs : List Ty) → replaceList σ τs = replaceList θ τs → ∀ x ∈ varsList τs, σ x = θ x
  | [], _, _, hx => nomatch hx
  | τ :: τs, h, x, hx => by
    obtain ⟨hfirst, hrest⟩ := List.cons.inj h
    rcases List.mem_append.1 hx with hx | hx
    · exact Ty.eq_of_replace_eq τ hfirst x hx
    · exact Ty.eq_of_replaceList_eq τs hrest x hx
termination_by structural τs => τs
end

/-- Types that are instances of each other differ in the names of their variables only. -/
theorem Ty.exists_perm_of_instances {τ τ' : Ty} {θ σ : Nat → Ty} (h : τ' = τ.replace θ)
    (h' : τ = τ'.replace σ) : ∃ π : Equiv.Perm Nat, τ' = τ.replace fun x => .var (π x) := by
  have hback : ∀ x ∈ τ.vars, (θ x).replace σ = .var x := by
    refine eq_of_replace_eq τ ?_
    rw [← replace_replace, ← h, ← h', replace_var]
  have hvars : ∀ x ∈ τ.vars, ∃ y, θ x = .var y ∧ σ y = .var x := by
    intro x hx
    have hvar := hback x hx
    cases hθ : θ x with
    | var y =>
      rw [hθ] at hvar
      exact ⟨y, rfl, hvar⟩
    | int => simp [hθ, replace] at hvar
    | bool => simp [hθ, replace] at hvar
    | arrow ts => simp [hθ, replace] at hvar
  choose! f hf hσ using hvars
  have hinj : ∀ x ∈ τ.vars, ∀ y ∈ τ.vars, f x = f y → x = y := by
    intro x hx y hy heq
    have hxy : Ty.var x = .var y := by rw [← hσ x hx, ← hσ y hy, heq]
    exact var.inj hxy
  obtain ⟨π, hπ⟩ := exists_perm_of_injective hinj
  refine ⟨π, h.trans (replace_congr τ fun x hx => ?_)⟩
  rw [hf x hx, hπ x hx]

/-- Trees with the same types are accepted or refused together, and what is inferred for them
differs in the names of type variables only. -/
theorem Expr.infer_of_sameTypes {e e' : Expr Nat} (h : SameTypes e e')
    (hclosed : ∀ x, e.FreeIn x → x ∈ Primitive.names)
    (hclosed' : ∀ x, e'.FreeIn x → x ∈ Primitive.names) {typing : Typing}
    (hinfer : e.infer = .ok typing) :
    ∃ typing' π, e'.infer = .ok typing' ∧
      typing'.root = typing.root.replace fun x => .var ((π : Equiv.Perm Nat) x) := by
  have htyped := (h [] _).1 (typed_of_infer hinfer hclosed)
  obtain ⟨typing', θ, hinfer', hroot⟩ := infer_of_typed htyped
  have htyped' := (h [] _).2 (typed_of_infer hinfer' hclosed')
  obtain ⟨typing'', σ, hinfer'', hroot'⟩ := infer_of_typed htyped'
  obtain rfl : typing = typing'' := Except.ok.inj (hinfer.symm.trans hinfer'')
  obtain ⟨π, hπ⟩ := Ty.exists_perm_of_instances hroot' hroot
  exact ⟨typing', π, hinfer', hπ⟩

end MiniScheme
