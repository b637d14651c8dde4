import MiniScheme.Proofs.Evaluation
import MiniScheme.Proofs.Typing

/-!
# Well-typed trees do not go wrong

Evaluating a well-typed tree meets no unbound name, no refused form, no call of something else
than a procedure and no call with a wrong number of arguments, and values have the types of the
trees they come from.
-/

namespace MiniScheme.Eval

section

variable (J : TypeScope → Expr Nat → Ty → Prop)

mutual
/-- A value has a type, where `J` gives bodies of procedures their types. -/
inductive HasTyBy : Value Nat → Ty → Prop where
  | lit (v : Literal) : HasTyBy (.lit v) v.ty
  | prim {p : Primitive} {ty : Ty} (h : p.HasTy ty) : HasTyBy (.prim p) ty
  | closure {params : List Name} {body : Expr Nat} {env : Env Nat} {scope : TypeScope}
      {sig : Signature} (henv : FillsBy env scope) (hlen : sig.params.length = params.length)
      (hbody : J (scope.enter params sig.params) body sig.result) :
      HasTyBy (.closure params body env) sig.ty

/-- An environment has a value of the right type for every name in a scope. -/
inductive FillsBy : Env Nat → TypeScope → Prop where
  | empty : FillsBy .empty []
  | bind {x : Name} {v : Value Nat} {ty : Ty} {env : Env Nat} {scope : TypeScope}
      (hv : HasTyBy v ty) (henv : FillsBy env scope) : FillsBy (.bind x v env) ((x, ty) :: scope)
  | group {members : List (Member Nat (Expr Nat))} {sigs : List Signature} {env : Env Nat}
      {scope : TypeScope} (henv : FillsBy env scope) (hlen : members.length = sigs.length)
      (hparams : ∀ m sig, (m, sig) ∈ members.zip sigs → sig.params.length = m.params.length)
      (hmembers : ∀ m sig, (m, sig) ∈ members.zip sigs →
        J ((scope.enter (members.map (·.name)) (sigs.map Signature.ty)).enter m.params
          sig.params) m.body sig.result) :
      FillsBy (.group members env) (scope.enter (members.map (·.name)) (sigs.map Signature.ty))
end

end

/-- A value has a type. -/
abbrev HasTy : Value Nat → Ty → Prop :=
  HasTyBy Typed

/-- The values of an environment have the types of a scope. -/
abbrev Fills : Env Nat → TypeScope → Prop :=
  FillsBy Typed

section

variable {J : TypeScope → Expr Nat → Ty → Prop}

/-- What a value of a procedure type is. -/
theorem HasTyBy.procedure {v : Value Nat} {sig : Signature} (h : HasTyBy J v sig.ty) :
    (∃ p : Primitive, v = .prim p ∧ p.HasTy sig.ty) ∨
      ∃ params body env scope, v = .closure params body env ∧ FillsBy J env scope ∧
        sig.params.length = params.length ∧ J (scope.enter params sig.params) body sig.result := by
  generalize hty : sig.ty = ty at h
  cases h with
  | lit v => cases v <;> exact nomatch hty
  | prim h => exact .inl ⟨_, rfl, h⟩
  | closure henv hlen hbody =>
    obtain rfl := Signature.eq_of_ty_eq hty
    exact .inr ⟨_, _, _, _, rfl, henv, hlen, hbody⟩

/-! ### Looking names up -/

/-- The last member of a name, and the type at its place. -/
theorem lookup_zip_reverse {x : Name} (ms : List (Member Nat (Expr Nat))) (sigs : List Signature)
    (hlen : ms.length = sigs.length) :
    (∃ m sig, (m, sig) ∈ ms.zip sigs ∧ ms.reverse.find? (·.name = x) = some m ∧
      (((ms.map (·.name)).zip (sigs.map Signature.ty)).reverse).lookup x = some sig.ty) ∨
    ms.reverse.find? (·.name = x) = none ∧
      (((ms.map (·.name)).zip (sigs.map Signature.ty)).reverse).lookup x = none := by
  induction ms generalizing sigs with
  | nil => exact .inr ⟨rfl, rfl⟩
  | cons m ms ih =>
    cases sigs with
    | nil => simp at hlen
    | cons sig sigs =>
      have hlen' : ms.length = sigs.length := by simpa using hlen
      simp only [List.map_cons, List.zip_cons_cons, List.reverse_cons, List.find?_append,
        List.lookup_append]
      rcases ih sigs hlen' with ⟨m', sig', hmem, hfind, hlookup⟩ | ⟨hfind, hlookup⟩
      · exact .inl ⟨m', sig', List.mem_cons_of_mem _ hmem, by rw [hfind]; rfl,
          by rw [hlookup]; rfl⟩
      · rw [hfind, hlookup]
        by_cases hx : m.name = x
        · exact .inl ⟨m, sig, List.mem_cons_self .., by simp [hx], by simp [hx]⟩
        · exact .inr ⟨by simp [hx], by simp [List.lookup_cons, beq_false_of_ne (Ne.symm hx)]⟩

/-- An environment and a scope agree about a name: it is a value of its type, or unbound. -/
def FillsAt (J : TypeScope → Expr Nat → Ty → Prop) (env : Env Nat) (scope : TypeScope) (x : Name) :
    Prop :=
  (∃ v ty, env.find? x = some v ∧ scope.lookup x = some ty ∧ HasTyBy J v ty) ∨
    env.find? x = none ∧ scope.lookup x = none

theorem FillsAt.bind {x y : Name} {v : Value Nat} {ty : Ty} {env : Env Nat} {scope : TypeScope}
    (hv : HasTyBy J v ty) (h : FillsAt J env scope x) :
    FillsAt J (.bind y v env) ((y, ty) :: scope) x := by
  by_cases hyx : y = x
  · exact .inl ⟨v, ty, by simp [Env.find?, hyx], by simp [hyx], hv⟩
  · simpa [FillsAt, Env.find?, hyx, List.lookup_cons, beq_false_of_ne (Ne.symm hyx)] using h

theorem FillsAt.group {x : Name} {ms : List (Member Nat (Expr Nat))} {sigs : List Signature}
    {env : Env Nat} {scope : TypeScope} (henv : FillsBy J env scope)
    (hlen : ms.length = sigs.length)
    (hparams : ∀ m sig, (m, sig) ∈ ms.zip sigs → sig.params.length = m.params.length)
    (hmembers : ∀ m sig, (m, sig) ∈ ms.zip sigs →
      J ((scope.enter (ms.map (·.name)) (sigs.map Signature.ty)).enter m.params sig.params)
        m.body sig.result) (h : FillsAt J env scope x) :
    FillsAt J (.group ms env) (scope.enter (ms.map (·.name)) (sigs.map Signature.ty)) x := by
  unfold FillsAt TypeScope.enter
  rw [List.lookup_append]
  rcases lookup_zip_reverse (x := x) ms sigs hlen with
    ⟨m, sig, hmem, hfind, hlookup⟩ | ⟨hfind, hlookup⟩
  · refine .inl ⟨.closure m.params m.body (.group ms env), sig.ty,
      by simp only [Env.find?, hfind], by rw [hlookup]; rfl, ?_⟩
    exact .closure (.group henv hlen hparams hmembers) (hparams m sig hmem) (hmembers m sig hmem)
  · rw [hlookup]
    simpa only [FillsAt, Env.find?, hfind, Option.none_or] using h

theorem FillsBy.find? {x : Name} : {env : Env Nat} → {scope : TypeScope} → FillsBy J env scope →
    FillsAt J env scope x
  | _, _, .empty => .inr ⟨rfl, rfl⟩
  | _, _, .bind hv henv => .bind hv henv.find?
  | _, _, .group henv hlen hparams hmembers => .group henv hlen hparams hmembers henv.find?

theorem FillsBy.bindAll {env : Env Nat} {scope : TypeScope} (henv : FillsBy J env scope)
    (xs : List Name) {vs : List (Value Nat)} {tys : List Ty}
    (hvs : List.Forall₂ (HasTyBy J) vs tys) :
    FillsBy J (env.bindAll xs vs) (scope.enter xs tys) := by
  induction xs generalizing env scope vs tys with
  | nil => cases hvs <;> exact henv
  | cons x xs ih =>
    cases hvs with
    | nil => exact henv
    | @cons v ty vs tys hv hvs =>
      have hfills := ih (.bind (x := x) hv henv) hvs
      rw [Env.bindAll]
      simpa [TypeScope.enter] using hfills

end

/-! ### Evaluating -/

/-- In environments of the right types, evaluation of a well-typed tree does not go wrong, and
its value has the type of the tree. -/
def Sound (n : Nat) (e : Expr Nat) : Prop :=
  ∀ {scope : TypeScope} {ty : Ty} {env : Env Nat}, Typed scope e ty → Fills env scope →
    Safe (call n) (Ready n) env e ∧ ∀ v, evalWith (call n) env e = .ok v → HasTy v ty

/-- Calls with arguments of the right types do not go wrong. -/
def CallsSound (n : Nat) : Prop :=
  ∀ {v : Value Nat} {args : List (Value Nat)} {sig : Signature}, HasTy v sig.ty →
    List.Forall₂ HasTy args sig.params →
    Ready n v args ∧ ∀ w, call n v args = .ok w → HasTy w sig.result

variable {n : Nat} {scope : TypeScope} {env : Env Nat}

theorem sound_list {es : List (Expr Nat)} (hes : ∀ e ∈ es, Sound n e) {tys : List Ty}
    (h : List.Forall₂ (Typed scope) es tys) (henv : Fills env scope) :
    SafeList (call n) (Ready n) env es ∧
      ∀ vs, evalListWith (call n) env es = .ok vs → List.Forall₂ HasTy vs tys := by
  induction h with
  | nil =>
    refine ⟨trivial, fun vs hvs => ?_⟩
    cases hvs
    exact .nil
  | cons he _ ih =>
    obtain ⟨hfirst, hes⟩ := List.forall_mem_cons.1 hes
    obtain ⟨hsafe, hty⟩ := hfirst he henv
    obtain ⟨hsafes, htys⟩ := ih hes
    refine ⟨⟨hsafe, hsafes⟩, fun vs hvs => ?_⟩
    obtain ⟨v, hv, hvs⟩ := Results.bind_eq_ok_iff.1 hvs
    obtain ⟨vs', hvs', hvs⟩ := Results.bind_eq_ok_iff.1 hvs
    cases hvs
    exact .cons (hty v hv) (htys vs' hvs')

theorem sound_bindings {bs : List (Name × Expr Nat)} (hbs : ∀ b ∈ bs, Sound n b.2)
    {tys : List Ty} (h : List.Forall₂ (fun b ty => Typed scope b.2 ty) bs tys)
    (henv : Fills env scope) :
    SafeBindings (call n) (Ready n) env bs ∧
      ∀ vs, evalBindingsWith (call n) env bs = .ok vs → List.Forall₂ HasTy vs tys := by
  obtain ⟨hsafe, htys⟩ :=
    sound_list (List.forall_mem_map.2 hbs) (List.forall₂_map_left_iff.2 h) henv
  rw [evalBindingsWith_eq]
  exact ⟨safeBindings_iff.2 (List.forall_mem_map.1 (safeList_iff.1 hsafe)), htys⟩

theorem sound_var (x : Name) (t : Nat) : Sound n (.var x t) := by
  intro scope ty env htyped henv
  have hlookup : ∃ v, env.lookup x = .ok v ∧ HasTy v ty := by
    unfold Env.lookup
    rcases henv.find? (x := x) with ⟨v, ty', hfind, hscope, hv⟩ | ⟨hfind, hscope⟩
    · rw [hfind]
      cases htyped with
      | bound h =>
        rw [hscope] at h
        cases h
        exact ⟨v, rfl, hv⟩
      | primitive h _ _ =>
        rw [hscope] at h
        exact absurd h (by simp)
    · rw [hfind]
      cases htyped with
      | bound h =>
        rw [hscope] at h
        exact absurd h (by simp)
      | primitive _ hx hty =>
        rw [hx]
        exact ⟨_, rfl, .prim hty⟩
  obtain ⟨v, hv, hty⟩ := hlookup
  refine ⟨⟨v, hv⟩, fun w hw => ?_⟩
  obtain rfl : v = w := Except.ok.inj (hv.symm.trans hw)
  exact hty

theorem sound_of_calls (hcalls : CallsSound n) (e : Expr Nat) : Sound n e := by
  induction e with
  | lit v t =>
    intro scope ty env htyped _
    cases htyped
    refine ⟨trivial, fun w hw => ?_⟩
    cases hw
    exact .lit v
  | var x t => exact sound_var x t
  | cond test yes no t htest hyes hno =>
    intro scope ty env htyped henv
    cases htyped with
    | cond h₁ h₂ h₃ =>
    obtain ⟨hsafe, _⟩ := htest h₁ henv
    obtain ⟨hsafeYes, htyYes⟩ := hyes h₂ henv
    obtain ⟨hsafeNo, htyNo⟩ := hno h₃ henv
    refine ⟨⟨hsafe, fun v _ => ?_⟩, fun w hw => ?_⟩
    · cases v.isFalse with
      | true => exact hsafeNo
      | false => exact hsafeYes
    · obtain ⟨v, _, hw⟩ := Results.bind_eq_ok_iff.1 hw
      cases hfalse : v.isFalse with
      | true =>
        rw [hfalse] at hw
        exact htyNo w hw
      | false =>
        rw [hfalse] at hw
        exact htyYes w hw
  | lambda params body t _ =>
    intro scope ty env htyped henv
    cases htyped with
    | lambda hlen hbody =>
    refine ⟨trivial, fun w hw => ?_⟩
    cases hw
    exact .closure henv hlen hbody
  | assign x value t _ => exact fun htyped => nomatch htyped
  | app func args t hfunc hargs =>
    intro scope ty env htyped henv
    cases htyped with
    | app h₁ hlen h₂ =>
    obtain ⟨hsafe, hty⟩ := hfunc h₁ henv
    obtain ⟨hsafes, htys⟩ :=
      sound_list hargs (List.forall₂_iff_zip.2 ⟨hlen, fun h => h₂ _ _ h⟩) henv
    refine ⟨⟨hsafe, hsafes, fun v vs hv hvs => ?_⟩, fun w hw => ?_⟩
    · exact (hcalls (hty v hv) (htys vs hvs)).1
    · obtain ⟨v, hv, hw⟩ := Results.bind_eq_ok_iff.1 hw
      obtain ⟨vs, hvs, hw⟩ := Results.bind_eq_ok_iff.1 hw
      exact (hcalls (hty v hv) (htys vs hvs)).2 w hw
  | letIn bindings body t hbindings hbody =>
    intro scope ty env htyped henv
    cases htyped with
    | letIn hlen h₁ h₂ =>
    obtain ⟨hsafe, htys⟩ :=
      sound_bindings hbindings (List.forall₂_iff_zip.2 ⟨hlen, fun h => h₁ _ _ h⟩) henv
    refine ⟨⟨hsafe, fun vs hvs => ?_⟩, fun w hw => ?_⟩
    · exact (hbody h₂ (henv.bindAll _ (htys vs hvs))).1
    · obtain ⟨vs, hvs, hw⟩ := Results.bind_eq_ok_iff.1 hw
      exact (hbody h₂ (henv.bindAll _ (htys vs hvs))).2 w hw
  | letrec bindings body t _ _ => exact fun htyped => nomatch htyped
  | fix members body t _ hbody =>
    intro scope ty env htyped henv
    cases htyped with
    | fix hlen hparams hmembers h =>
    exact hbody h (.group henv hlen hparams hmembers)
  | seq items t hitems =>
    induction items with
    | nil => exact fun htyped => nomatch htyped
    | cons e es ih =>
      obtain ⟨he, hes⟩ := List.forall_mem_cons.1 hitems
      intro scope ty env htyped henv
      cases htyped with
      | last h => exact he h henv
      | before h h' =>
        obtain ⟨hsafe, _⟩ := he h henv
        obtain ⟨hsafes, hty⟩ := ih hes h' henv
        refine ⟨⟨hsafe, hsafes⟩, fun w hw => ?_⟩
        obtain ⟨_, _, hw⟩ := Results.bind_eq_ok_iff.1 hw
        exact hty w hw

/-! ### Calling -/

theorem types_of_operands {J : TypeScope → Expr Nat → Ty → Prop} {p : Primitive}
    {args : List (Value Nat)} {tys : List Ty} {ls : List Literal}
    (hargs : List.Forall₂ (HasTyBy J) args tys) (h : operands p args = .ok ls) :
    ls.map Literal.ty = tys := by
  induction hargs generalizing ls with
  | nil =>
    cases h
    rfl
  | @cons v ty args tys hv _ ih =>
    cases hv with
    | lit l =>
      obtain ⟨ls', hls', rfl⟩ := Results.map_eq_ok_iff.1 h
      rw [List.map_cons, ih hls']
    | prim _ => exact nomatch h
    | closure _ _ _ => exact nomatch h

theorem sound_applyPrimitive {J : TypeScope → Expr Nat → Ty → Prop} {p : Primitive}
    {sig : Signature} (hp : p.HasTy sig.ty) {args : List (Value Nat)}
    (hargs : List.Forall₂ (HasTyBy J) args sig.params) {w : Value Nat}
    (h : applyPrimitive p args = .ok w) : HasTyBy J w sig.result := by
  obtain ⟨ls, hls, h⟩ := Results.bind_eq_ok_iff.1 h
  obtain ⟨l, hl, hty⟩ := hp.apply_ok (types_of_operands hargs hls) 0
  rw [hl] at h
  cases h
  rw [← hty]
  exact .lit l

theorem callsSound (n : Nat) : CallsSound n := by
  induction n with
  | zero =>
    intro v args sig hv hargs
    rcases hv.procedure with ⟨p, rfl, hp⟩ | ⟨params, body, env, scope, rfl, _⟩
    · exact ⟨hargs.length_eq.trans hp.length_params, fun w => sound_applyPrimitive hp hargs⟩
    · exact ⟨trivial, fun w hw => nomatch hw⟩
  | succ n ih =>
    intro v args sig hv hargs
    rcases hv.procedure with ⟨p, rfl, hp⟩ | ⟨params, body, env, scope, rfl, henv, hlen, hbody⟩
    · exact ⟨hargs.length_eq.trans hp.length_params, fun w => sound_applyPrimitive hp hargs⟩
    · have hcount : params.length = args.length := hlen.symm.trans hargs.length_eq.symm
      obtain ⟨hsafe, hty⟩ := sound_of_calls ih body hbody (henv.bindAll params hargs)
      refine ⟨⟨hcount, hsafe⟩, fun w hw => hty w ?_⟩
      rwa [call, if_pos hcount] at hw

/-- A closed well-typed tree is evaluated without going wrong, however deep calls may nest. -/
theorem safe_of_typed {e : Expr Nat} {ty : Ty} (h : Typed [] e ty) (n : Nat) :
    Safe (call n) (Ready n) .empty e :=
  (sound_of_calls (callsSound n) e h .empty).1

end MiniScheme.Eval
