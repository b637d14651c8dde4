import Mathlib.Data.List.Forall2
import MiniScheme.Primitive.Apply
import MiniScheme.Proofs.Subtrees
import MiniScheme.Ty.Infer

/-!
# Well-typed trees

The rules by which a tree has a type. All binders are monomorphic and a primitive may be used at
every instance of its scheme; a name that is neither bound nor primitive has no type. Variables in
types are types that no value has.
-/

namespace MiniScheme

/-- Types of the parameters and of the result of a procedure. -/
structure Signature where
  params : List Ty
  result : Ty

namespace Signature

/-- The type of the procedures with a signature. -/
def ty (sig : Signature) : Ty :=
  .arrow (sig.params ++ [sig.result])

theorem eq_of_ty_eq {sig sig' : Signature} (h : sig.ty = sig'.ty) : sig = sig' := by
  obtain ⟨params, result⟩ := sig
  obtain ⟨params', result'⟩ := sig'
  have happend : params ++ [result] = params' ++ [result'] := Ty.arrow.inj h
  obtain ⟨rfl, hresult⟩ := List.append_inj' happend rfl
  cases hresult
  rfl

end Signature

namespace Primitive

/-- A type at which a primitive may be used. -/
def HasTy (p : Primitive) (ty : Ty) : Prop :=
  ∃ θ : Nat → Ty, ty = p.scheme.ty.replace θ

variable {p : Primitive} {sig : Signature}

/-- The signature of a primitive at a use. -/
theorem HasTy.signature (h : p.HasTy sig.ty) :
    p = .eq ∧ (∃ ty, sig = ⟨[ty, ty], .bool⟩) ∨ p = .time ∧ sig = ⟨[], .int⟩ ∨
      p ≠ .eq ∧ p ≠ .time ∧ sig = ⟨[.int, .int], .int⟩ := by
  obtain ⟨θ, hθ⟩ := h
  cases p with
  | eq => exact .inl ⟨rfl, θ 0, Signature.eq_of_ty_eq hθ⟩
  | time => exact .inr (.inl ⟨rfl, Signature.eq_of_ty_eq hθ⟩)
  | _ => exact .inr (.inr ⟨nofun, nofun, Signature.eq_of_ty_eq hθ⟩)

theorem HasTy.arrow {ty : Ty} (h : p.HasTy ty) : ∃ tys, ty = .arrow tys := by
  obtain ⟨θ, rfl⟩ := h
  cases p <;> exact ⟨_, rfl⟩

theorem HasTy.length_params (h : p.HasTy sig.ty) : sig.params.length = p.arity := by
  rcases h.signature with ⟨rfl, ty, rfl⟩ | ⟨rfl, rfl⟩ | ⟨_, htime, rfl⟩
  · rfl
  · rfl
  · cases p <;> first | rfl | exact absurd rfl htime

/-- Only equality takes arguments that need not be integers. -/
theorem HasTy.params_int (h : p.HasTy sig.ty) (hp : p ≠ .eq) : ∀ ty ∈ sig.params, ty = .int := by
  rcases h.signature with ⟨rfl, _⟩ | ⟨_, rfl⟩ | ⟨_, _, rfl⟩
  · exact absurd rfl hp
  · simp
  · simp

/-- On literals of the types of its parameters a primitive has a result of its result type. -/
theorem HasTy.apply_ok (h : p.HasTy sig.ty) {ls : List Literal}
    (hls : ls.map Literal.ty = sig.params) (steps : Nat) :
    ∃ v, p.apply ls steps = .ok v ∧ v.ty = sig.result := by
  rcases h.signature with ⟨rfl, ty, rfl⟩ | ⟨rfl, rfl⟩ | ⟨heq, htime, rfl⟩
  · match ls, hls with
    | [.int a, .int b], _ => exact ⟨.bool (a == b), rfl, rfl⟩
    | [.bool a, .bool b], _ => exact ⟨.bool (a == b), rfl, rfl⟩
    | [.int _, .bool _], hls => exact nomatch (hls : [Ty.int, Ty.bool] = [ty, ty])
    | [.bool _, .int _], hls => exact nomatch (hls : [Ty.bool, Ty.int] = [ty, ty])
  · match ls, hls with
    | [], _ => exact ⟨_, rfl, rfl⟩
  · match ls, hls with
    | [.int a, .int b], _ =>
      cases p with
      | eq => exact absurd rfl heq
      | time => exact absurd rfl htime
      | _ => exact ⟨_, rfl, rfl⟩

end Primitive

/-- What a scope knows of a name after names have been brought into it. -/
theorem TypeScope.lookup_enter_cases {scope : TypeScope} {xs : List Name} {tys : List Ty}
    {x : Name} {ty : Ty} (h : (scope.enter xs tys).lookup x = some ty) :
    scope.lookup x = some ty ∨ ∃ k : Nat, xs[k]? = some x ∧ tys[k]? = some ty := by
  rw [enter, List.lookup_append, Option.or_eq_some_iff] at h
  rcases h with h | ⟨_, h⟩
  · obtain ⟨before, after, hsplit, _⟩ := List.lookup_eq_some_iff.1 h
    have hmem : (x, ty) ∈ xs.zip tys := by
      rw [← List.mem_reverse, hsplit]
      simp
    obtain ⟨k, hk⟩ := List.getElem?_of_mem hmem
    exact .inr ⟨k, List.getElem?_zip_eq_some.1 hk⟩
  · exact .inl h

/-- What the scope of a group knows of a name. -/
theorem TypeScope.lookup_enter_members {scope : TypeScope} {ms : List (Member Nat (Expr Nat))}
    {sigs : List Signature} {x : Name} {ty : Ty}
    (h : (scope.enter (ms.map (·.name)) (sigs.map Signature.ty)).lookup x = some ty) :
    scope.lookup x = some ty ∨ ∃ (k : Nat) (m : Member Nat (Expr Nat)) (sig : Signature),
      ms[k]? = some m ∧ m.name = x ∧ (m, sig) ∈ ms.zip sigs ∧ ty = sig.ty := by
  rcases lookup_enter_cases h with h | ⟨k, hx, hk⟩
  · exact .inl h
  · rw [List.getElem?_map, Option.map_eq_some_iff] at hx hk
    obtain ⟨m, hm, rfl⟩ := hx
    obtain ⟨sig, hsig, rfl⟩ := hk
    have hzip : (ms.zip sigs)[k]? = some (m, sig) := List.getElem?_zip_eq_some.2 ⟨hm, hsig⟩
    exact .inr ⟨k, m, sig, hm, rfl, List.mem_of_getElem? hzip, rfl⟩

/-- A tree has a type in a scope. -/
inductive Typed : TypeScope → Expr Nat → Ty → Prop where
  | lit {scope : TypeScope} {v : Literal} {t : Nat} : Typed scope (.lit v t) v.ty
  | bound {scope : TypeScope} {x : Name} {t : Nat} {ty : Ty} (h : scope.lookup x = some ty) :
      Typed scope (.var x t) ty
  | primitive {scope : TypeScope} {x : Name} {t : Nat} {ty : Ty} {p : Primitive}
      (hscope : scope.lookup x = none) (hx : Primitive.ofName? x = some p) (hty : p.HasTy ty) :
      Typed scope (.var x t) ty
  | cond {scope : TypeScope} {test yes no : Expr Nat} {t : Nat} {ty : Ty}
      (htest : Typed scope test .bool) (hyes : Typed scope yes ty) (hno : Typed scope no ty) :
      Typed scope (.cond test yes no t) ty
  | lambda {scope : TypeScope} {params : List Name} {body : Expr Nat} {t : Nat} {sig : Signature}
      (hlen : sig.params.length = params.length)
      (hbody : Typed (scope.enter params sig.params) body sig.result) :
      Typed scope (.lambda params body t) sig.ty
  | app {scope : TypeScope} {func : Expr Nat} {args : List (Expr Nat)} {t : Nat} {sig : Signature}
      (hfunc : Typed scope func sig.ty) (hlen : args.length = sig.params.length)
      (hargs : ∀ e ty, (e, ty) ∈ args.zip sig.params → Typed scope e ty) :
      Typed scope (.app func args t) sig.result
  | letIn {scope : TypeScope} {bindings : List (Name × Expr Nat)} {body : Expr Nat} {t : Nat}
      {tys : List Ty} {ty : Ty} (hlen : bindings.length = tys.length)
      (hbindings : ∀ b ty, (b, ty) ∈ bindings.zip tys → Typed scope b.2 ty)
      (hbody : Typed (scope.enter (bindings.map (·.1)) tys) body ty) :
      Typed scope (.letIn bindings body t) ty
  | fix {scope : TypeScope} {members : List (Member Nat (Expr Nat))} {body : Expr Nat} {t : Nat}
      {sigs : List Signature} {ty : Ty} (hlen : members.length = sigs.length)
      (hparams : ∀ m sig, (m, sig) ∈ members.zip sigs → sig.params.length = m.params.length)
      (hmembers : ∀ m sig, (m, sig) ∈ members.zip sigs →
        Typed ((scope.enter (members.map (·.name)) (sigs.map Signature.ty)).enter m.params
          sig.params) m.body sig.result)
      (hbody : Typed (scope.enter (members.map (·.name)) (sigs.map Signature.ty)) body ty) :
      Typed scope (.fix members body t) ty
  | last {scope : TypeScope} {e : Expr Nat} {t : Nat} {ty : Ty} (he : Typed scope e ty) :
      Typed scope (.seq [e] t) ty
  | before {scope : TypeScope} {e e' : Expr Nat} {es : List (Expr Nat)} {t : Nat} {ty ty' : Ty}
      (he : Typed scope e ty') (hes : Typed scope (.seq (e' :: es) t) ty) :
      Typed scope (.seq (e :: e' :: es) t) ty

/-- A tree has a type in a scope, its nodes and the members of its groups have the types that
`node` gives their numbers, and names that are neither bound nor primitive have the types that
`unknown` gives them. -/
inductive TypedBy (node : Nat → Ty → Prop) (unknown : Name → Ty → Prop) :
    TypeScope → Expr Nat → Ty → Prop where
  | lit {scope : TypeScope} {v : Literal} {t : Nat} (ht : node t v.ty) :
      TypedBy node unknown scope (.lit v t) v.ty
  | bound {scope : TypeScope} {x : Name} {t : Nat} {ty : Ty} (h : scope.lookup x = some ty)
      (ht : node t ty) : TypedBy node unknown scope (.var x t) ty
  | primitive {scope : TypeScope} {x : Name} {t : Nat} {ty : Ty} {p : Primitive}
      (hscope : scope.lookup x = none) (hx : Primitive.ofName? x = some p) (hty : p.HasTy ty)
      (ht : node t ty) : TypedBy node unknown scope (.var x t) ty
  | unknown {scope : TypeScope} {x : Name} {t : Nat} {ty : Ty} (hscope : scope.lookup x = none)
      (hx : Primitive.ofName? x = none) (hty : unknown x ty) (ht : node t ty) :
      TypedBy node unknown scope (.var x t) ty
  | cond {scope : TypeScope} {test yes no : Expr Nat} {t : Nat} {ty : Ty}
      (htest : TypedBy node unknown scope test .bool) (hyes : TypedBy node unknown scope yes ty)
      (hno : TypedBy node unknown scope no ty) (ht : node t ty) :
      TypedBy node unknown scope (.cond test yes no t) ty
  | lambda {scope : TypeScope} {params : List Name} {body : Expr Nat} {t : Nat} {sig : Signature}
      (hlen : sig.params.length = params.length)
      (hbody : TypedBy node unknown (scope.enter params sig.params) body sig.result)
      (ht : node t sig.ty) : TypedBy node unknown scope (.lambda params body t) sig.ty
  | app {scope : TypeScope} {func : Expr Nat} {args : List (Expr Nat)} {t : Nat} {sig : Signature}
      (hfunc : TypedBy node unknown scope func sig.ty) (hlen : args.length = sig.params.length)
      (hargs : ∀ e ty, (e, ty) ∈ args.zip sig.params → TypedBy node unknown scope e ty)
      (ht : node t sig.result) : TypedBy node unknown scope (.app func args t) sig.result
  | letIn {scope : TypeScope} {bindings : List (Name × Expr Nat)} {body : Expr Nat} {t : Nat}
      {tys : List Ty} {ty : Ty} (hlen : bindings.length = tys.length)
      (hbindings : ∀ b ty, (b, ty) ∈ bindings.zip tys → TypedBy node unknown scope b.2 ty)
      (hbody : TypedBy node unknown (scope.enter (bindings.map (·.1)) tys) body ty)
      (ht : node t ty) : TypedBy node unknown scope (.letIn bindings body t) ty
  | fix {scope : TypeScope} {members : List (Member Nat (Expr Nat))} {body : Expr Nat} {t : Nat}
      {sigs : List Signature} {ty : Ty} (hlen : members.length = sigs.length)
      (hparams : ∀ m sig, (m, sig) ∈ members.zip sigs → sig.params.length = m.params.length)
      (hmembers : ∀ m sig, (m, sig) ∈ members.zip sigs →
        TypedBy node unknown ((scope.enter (members.map (·.name)) (sigs.map Signature.ty)).enter
          m.params sig.params) m.body sig.result)
      (htags : ∀ m sig, (m, sig) ∈ members.zip sigs → node m.tag sig.ty)
      (hbody : TypedBy node unknown (scope.enter (members.map (·.name)) (sigs.map Signature.ty))
        body ty)
      (ht : node t ty) : TypedBy node unknown scope (.fix members body t) ty
  | seq {scope : TypeScope} {items : List (Expr Nat)} {t : Nat} {tys : List Ty} {ty : Ty}
      (hlen : items.length = tys.length)
      (hitems : ∀ e ty, (e, ty) ∈ items.zip tys → TypedBy node unknown scope e ty)
      (hlast : tys.getLast? = some ty) (ht : node t ty) :
      TypedBy node unknown scope (.seq items t) ty

/-! ### Parts of typed trees -/

theorem exists_of_mem_zip {α β : Type} {as : List α} {bs : List β} (hlen : as.length = bs.length)
    {a : α} (ha : a ∈ as) : ∃ b, (a, b) ∈ as.zip bs := by
  rw [← List.map_fst_zip (Nat.le_of_eq hlen)] at ha
  obtain ⟨⟨a, b⟩, hmem, rfl⟩ := List.mem_map.1 ha
  exact ⟨b, hmem⟩

namespace TypedBy

variable {node : Nat → Ty → Prop} {unknown : Name → Ty → Prop} {scope : TypeScope}
  {e d : Expr Nat} {ty : Ty}

/-- Everything directly below a node is typed by the same table. -/
theorem child (h : TypedBy node unknown scope e ty) (hd : d ∈ e.children) :
    ∃ scope' ty', TypedBy node unknown scope' d ty' := by
  cases h with
  | lit _ => cases hd
  | bound _ _ => cases hd
  | primitive _ _ _ _ => cases hd
  | unknown _ _ _ _ => cases hd
  | cond htest hyes hno _ =>
    simp only [Expr.children, List.mem_cons, List.not_mem_nil, or_false] at hd
    rcases hd with rfl | rfl | rfl
    · exact ⟨_, _, htest⟩
    · exact ⟨_, _, hyes⟩
    · exact ⟨_, _, hno⟩
  | lambda _ hbody _ =>
    obtain rfl := List.mem_singleton.1 hd
    exact ⟨_, _, hbody⟩
  | app hfunc hlen hargs _ =>
    rcases List.mem_cons.1 hd with rfl | hd
    · exact ⟨_, _, hfunc⟩
    · obtain ⟨ty, hty⟩ := exists_of_mem_zip hlen hd
      exact ⟨_, _, hargs d ty hty⟩
  | letIn hlen hbindings hbody _ =>
    rcases List.mem_append.1 hd with hd | hd
    · obtain ⟨b, hb, rfl⟩ := List.mem_map.1 hd
      obtain ⟨ty, hty⟩ := exists_of_mem_zip hlen hb
      exact ⟨_, _, hbindings b ty hty⟩
    · obtain rfl := List.mem_singleton.1 hd
      exact ⟨_, _, hbody⟩
  | fix hlen _ hmembers _ hbody _ =>
    rcases List.mem_append.1 hd with hd | hd
    · obtain ⟨m, hm, rfl⟩ := List.mem_map.1 hd
      obtain ⟨sig, hsig⟩ := exists_of_mem_zip hlen hm
      exact ⟨_, _, hmembers m sig hsig⟩
    · obtain rfl := List.mem_singleton.1 hd
      exact ⟨_, _, hbody⟩
  | seq hlen hitems _ _ =>
    obtain ⟨ty, hty⟩ := exists_of_mem_zip hlen hd
    exact ⟨_, _, hitems d ty hty⟩

theorem everywhere (h : TypedBy node unknown scope e ty) :
    e.Everywhere fun d => ∃ scope ty, TypedBy node unknown scope d ty := by
  intro d hd
  induction hd generalizing scope ty with
  | self => exact ⟨scope, ty, h⟩
  | inside hc _ ih =>
    obtain ⟨scope', ty', hchild⟩ := h.child hc
    exact ih hchild

end TypedBy

theorem typedBy_of_typed {scope : TypeScope} {e : Expr Nat} {ty : Ty} (h : Typed scope e ty)
    (unknown : Name → Ty → Prop) : TypedBy (fun _ _ => True) unknown scope e ty := by
  induction h with
  | lit => exact .lit trivial
  | bound h => exact .bound h trivial
  | primitive hscope hx hty => exact .primitive hscope hx hty trivial
  | cond _ _ _ htest hyes hno => exact .cond htest hyes hno trivial
  | lambda hlen _ hbody => exact .lambda hlen hbody trivial
  | app _ hlen _ hfunc hargs => exact .app hfunc hlen hargs trivial
  | letIn hlen _ _ hbindings hbody => exact .letIn hlen hbindings hbody trivial
  | fix hlen hparams _ _ hmembers hbody =>
    exact .fix hlen hparams hmembers (fun _ _ _ => trivial) hbody trivial
  | @last scope e t ty _ he =>
    have hlen : [e].length = [ty].length := rfl
    refine .seq hlen (fun e' ty' hmem => ?_) rfl trivial
    obtain ⟨rfl, rfl⟩ := Prod.mk.inj (List.mem_singleton.1 hmem)
    exact he
  | @before scope e e' es t ty ty' _ _ he hes =>
    cases hes with
    | @seq _ _ _ tys _ hlen hitems hlast _ =>
      have hlen' : (e :: e' :: es).length = (ty' :: tys).length := congrArg (· + 1) hlen
      refine .seq hlen' (fun d ty hmem => ?_) ?_ trivial
      · rcases List.mem_cons.1 hmem with hmem | hmem
        · obtain ⟨rfl, rfl⟩ := Prod.mk.inj hmem
          exact he
        · exact hitems d ty hmem
      · cases tys with
        | nil => cases hlen
        | cons ty'' tys => exact hlast

end MiniScheme
