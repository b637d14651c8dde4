import MiniScheme.Proofs.Inference
import MiniScheme.Proofs.TypedEvaluation

/-!
# Evaluating what inference accepts

Inference lets a tree refer to names that are bound nowhere and gives each of them a type. A value
of such a tree is of the kind that its type names, and evaluation fails only at a name that is bound
nowhere, where procedures are compared, or where calls are nested too deep. Trees are taken as they
are: names may be shadowed and repeated.
-/

namespace MiniScheme

open Results (EndsIn FailsIn)

/-! ### Names that are bound nowhere -/

theorem TypeScope.notMem_enter {scope : TypeScope} {xs : List Name} {tys : List Ty} {x : Name}
    (hlen : tys.length = xs.length) :
    x ∉ (scope.enter xs tys).map (·.1) ↔ x ∉ xs ∧ x ∉ scope.map (·.1) := by
  rw [names_enter hlen, List.mem_append, List.mem_reverse, not_or]

/-- Only names that are free in the tree and not in scope are looked up among the unknown ones. -/
theorem TypedBy.of_freeIn {node : Nat → Ty → Prop} {unknown unknown' : Name → Ty → Prop}
    {scope : TypeScope} {e : Expr Nat} {ty : Ty} (h : TypedBy node unknown scope e ty)
    (hfree : ∀ x ty, e.FreeIn x → x ∉ scope.map (·.1) → unknown x ty → unknown' x ty) :
    TypedBy node unknown' scope e ty := by
  induction h with
  | lit ht => exact .lit ht
  | bound h ht => exact .bound h ht
  | primitive hscope hx hty ht => exact .primitive hscope hx hty ht
  | @unknown scope x t ty hscope hx hty ht =>
    exact .unknown hscope hx
      (hfree x ty (Expr.freeIn_var.2 rfl) (Expr.notMem_of_lookup_eq_none hscope) hty) ht
  | cond _ _ _ ht htest hyes hno =>
    exact .cond (htest fun x ty hx => hfree x ty (Expr.freeIn_cond.2 (.inl hx)))
      (hyes fun x ty hx => hfree x ty (Expr.freeIn_cond.2 (.inr (.inl hx))))
      (hno fun x ty hx => hfree x ty (Expr.freeIn_cond.2 (.inr (.inr hx)))) ht
  | lambda hlen _ ht hbody =>
    refine .lambda hlen (hbody fun x ty hx hout => ?_) ht
    obtain ⟨hparams, hscope⟩ := (TypeScope.notMem_enter hlen).1 hout
    exact hfree x ty (Expr.freeIn_lambda.2 ⟨hx, hparams⟩) hscope
  | app _ hlen _ ht hfunc hargs =>
    refine .app (hfunc fun x ty hx => hfree x ty (Expr.freeIn_app.2 (.inl hx))) hlen
      (fun e ty hmem => hargs e ty hmem fun x ty hx => ?_) ht
    exact hfree x ty (Expr.freeIn_app.2 (.inr ⟨e, (List.of_mem_zip hmem).1, hx⟩))
  | letIn hlen _ _ ht hbindings hbody =>
    refine .letIn hlen (fun b ty hmem => hbindings b ty hmem fun x ty hx => ?_)
      (hbody fun x ty hx hout => ?_) ht
    · exact hfree x ty (Expr.freeIn_letIn.2 (.inl ⟨b, (List.of_mem_zip hmem).1, hx⟩))
    · obtain ⟨hnames, hscope⟩ := (TypeScope.notMem_enter (by simpa using hlen.symm)).1 hout
      exact hfree x ty (Expr.freeIn_letIn.2 (.inr ⟨hx, hnames⟩)) hscope
  | fix hlen hparams _ htags _ ht hmembers hbody =>
    refine .fix hlen hparams (fun m sig hmem => hmembers m sig hmem fun x ty hx hout => ?_) htags
      (hbody fun x ty hx hout => ?_) ht
    · obtain ⟨hout, hgroup⟩ := (TypeScope.notMem_enter (hparams m sig hmem)).1 hout
      obtain ⟨hnames, hscope⟩ := (TypeScope.notMem_enter (by simpa using hlen.symm)).1 hgroup
      exact hfree x ty
        (Expr.freeIn_fix.2 ⟨.inl ⟨m, (List.of_mem_zip hmem).1, hx, hout⟩, hnames⟩) hscope
    · obtain ⟨hnames, hscope⟩ := (TypeScope.notMem_enter (by simpa using hlen.symm)).1 hout
      exact hfree x ty (Expr.freeIn_fix.2 ⟨.inr hx, hnames⟩) hscope
  | seq hlen _ hlast ht hitems =>
    refine .seq hlen (fun e ty hmem => hitems e ty hmem fun x ty hx => ?_) hlast ht
    exact hfree x ty (Expr.freeIn_seq.2 ⟨e, (List.of_mem_zip hmem).1, hx⟩)

/-- A tree has a type in a scope, where some names may be used at any type. -/
abbrev TypedAmid (unknown : Name → Prop) : TypeScope → Expr Nat → Ty → Prop :=
  TypedBy (fun _ _ => True) fun x _ => unknown x

/-- A tree that inference accepts has the type it finds, amid the free names of the tree. -/
theorem Expr.typedAmid_of_infer {e : Expr Nat} {typing : Typing} (h : e.infer = .ok typing) :
    TypedAmid e.FreeIn [] e typing.root := by
  obtain ⟨j, s, σ, hrun, hunify, rfl⟩ := infer_eq_ok_iff.1 h
  have htyped := (solutionTypes (fun _ _ => True) (fun _ _ => True) _ e hrun (fun _ _ => trivial)
    (fun _ _ _ => trivial) (solves_unify hunify)).1
  rw [← Subst.apply_eq_replace] at htyped
  exact htyped.of_freeIn fun x _ hx _ _ => hx

namespace Eval

/-! ### Values and failures -/

/-- A value is of the kind that a type names: what is not a literal is a procedure. No value has a
type that is left open. -/
def Value.HasKind {α : Type} (v : Value α) : Ty → Prop
  | .int => ∃ i, v = .lit (.int i)
  | .bool => ∃ b, v = .lit (.bool b)
  | .arrow _ => v.literal? = none
  | .var _ => False

theorem HasTyBy.suits {J : TypeScope → Expr Nat → Ty → Prop} {v : Value Nat} {ty : Ty}
    (h : HasTyBy J v ty) :
    (∃ l, v = .lit l ∧ ty = l.ty) ∨ v.literal? = none ∧ ∃ tys, ty = .arrow tys := by
  cases h with
  | lit l => exact .inl ⟨l, rfl, rfl⟩
  | prim hp => exact .inr ⟨rfl, hp.arrow⟩
  | closure _ _ _ => exact .inr ⟨rfl, _, rfl⟩

theorem HasTyBy.hasKind {J : TypeScope → Expr Nat → Ty → Prop} {v : Value Nat} {ty : Ty}
    (h : HasTyBy J v ty) : v.HasKind ty := by
  rcases h.suits with ⟨l, rfl, rfl⟩ | ⟨hproc, tys, rfl⟩
  · cases l with
    | int i => exact ⟨i, rfl⟩
    | bool b => exact ⟨b, rfl⟩
  · exact hproc

/-- The errors that types do not rule out. -/
inductive Excusable (unknown : Name → Prop) : Error → Prop where
  | unbound {x : Name} (hx : unknown x) (hprim : Primitive.ofName? x = none) :
      Excusable unknown (.unbound x)
  | comparison {v : Value Nat} (hv : v.literal? = none) :
      Excusable unknown (.trap (.notLiteral .eq v.text))
  | callDepth : Excusable unknown tooDeep

variable {unknown : Name → Prop} {scope : TypeScope} {env : Env Nat} {f : Caller Nat}

/-! ### Evaluating -/

variable (unknown) in
/-- In environments of the right types the tree has a value of its type or fails in a way that
types do not rule out. -/
def Behaves (f : Caller Nat) (e : Expr Nat) : Prop :=
  ∀ {scope : TypeScope} {ty : Ty} {env : Env Nat}, TypedAmid unknown scope e ty →
    FillsBy (TypedAmid unknown) env scope →
    EndsIn (Excusable unknown) (HasTyBy (TypedAmid unknown) · ty) (evalWith f env e)

variable (unknown) in
/-- So do calls with arguments of the right types. -/
def CallsBehave (f : Caller Nat) : Prop :=
  ∀ {v : Value Nat} {args : List (Value Nat)} {sig : Signature},
    HasTyBy (TypedAmid unknown) v sig.ty →
    List.Forall₂ (HasTyBy (TypedAmid unknown)) args sig.params →
    EndsIn (Excusable unknown) (HasTyBy (TypedAmid unknown) · sig.result) (f v args)

theorem endsIn_lookup {x : Name} {t : Nat} {ty : Ty}
    (htyped : TypedAmid unknown scope (.var x t) ty)
    (henv : FillsBy (TypedAmid unknown) env scope) :
    EndsIn (Excusable unknown) (HasTyBy (TypedAmid unknown) · ty) (env.lookup x) := by
  unfold Env.lookup
  rcases henv.find? (x := x) with ⟨v, ty', hfind, hscope, hv⟩ | ⟨hfind, hscope⟩
  · rw [hfind]
    cases htyped with
    | bound h _ =>
      rw [hscope] at h
      cases h
      exact .ok hv
    | primitive h _ _ _ =>
      rw [hscope] at h
      cases h
    | unknown h _ _ _ =>
      rw [hscope] at h
      cases h
  · rw [hfind]
    cases htyped with
    | bound h _ =>
      rw [hscope] at h
      cases h
    | primitive _ hx hty _ =>
      rw [hx]
      exact .ok (.prim hty)
    | unknown _ hx hunknown _ =>
      rw [hx]
      exact .error (.unbound hunknown hx)

theorem endsIn_list {es : List (Expr Nat)} (hes : ∀ e ∈ es, Behaves unknown f e) {tys : List Ty}
    (h : List.Forall₂ (TypedAmid unknown scope) es tys)
    (henv : FillsBy (TypedAmid unknown) env scope) :
    EndsIn (Excusable unknown) (List.Forall₂ (HasTyBy (TypedAmid unknown)) · tys)
      (evalListWith f env es) := by
  induction h with
  | nil => exact .ok .nil
  | cons he _ ih =>
    obtain ⟨hfirst, hes⟩ := List.forall_mem_cons.1 hes
    refine (hfirst he henv).bind fun v hv => ?_
    exact (ih hes).bind fun vs hvs => .ok (.cons hv hvs)

theorem endsIn_seq {es : List (Expr Nat)} (hes : ∀ e ∈ es, Behaves unknown f e) {tys : List Ty}
    {ty : Ty} (h : List.Forall₂ (TypedAmid unknown scope) es tys)
    (hlast : tys.getLast? = some ty) (henv : FillsBy (TypedAmid unknown) env scope) :
    EndsIn (Excusable unknown) (HasTyBy (TypedAmid unknown) · ty) (evalSeqWith f env es) := by
  induction h with
  | nil => cases hlast
  | cons he hrest ih =>
    obtain ⟨hfirst, hes⟩ := List.forall_mem_cons.1 hes
    cases hrest with
    | nil =>
      cases hlast
      exact hfirst he henv
    | cons _ _ =>
      rw [List.getLast?_cons_cons] at hlast
      exact (hfirst he henv).bind fun _ _ => ih hes hlast

theorem behaves (hcalls : CallsBehave unknown f) (e : Expr Nat) : Behaves unknown f e := by
  induction e with
  | lit v t =>
    intro scope ty env htyped _
    cases htyped
    exact .ok (.lit v)
  | var x t => exact endsIn_lookup
  | cond test yes no t htest hyes hno =>
    intro scope ty env htyped henv
    cases htyped with
    | cond h₁ h₂ h₃ _ =>
    refine (htest h₁ henv).bind fun v _ => ?_
    cases v.isFalse with
    | true => exact hno h₃ henv
    | false => exact hyes h₂ henv
  | lambda params body t _ =>
    intro scope ty env htyped henv
    cases htyped with
    | lambda hlen hbody _ => exact .ok (.closure henv hlen hbody)
  | assign x value t _ =>
    intro scope ty env htyped _
    cases htyped
  | app func args t hfunc hargs =>
    intro scope ty env htyped henv
    cases htyped with
    | app h₁ hlen h₂ _ =>
    have htypes := List.forall₂_iff_zip.2 ⟨hlen, fun h => h₂ _ _ h⟩
    refine (hfunc h₁ henv).bind fun v hv => ?_
    exact (endsIn_list hargs htypes henv).bind fun vs hvs => hcalls hv hvs
  | letIn bindings body t hbindings hbody =>
    intro scope ty env htyped henv
    cases htyped with
    | letIn hlen h₁ h₂ _ =>
    have htypes := List.forall₂_map_left_iff.2 (List.forall₂_iff_zip.2 ⟨hlen, fun h => h₁ _ _ h⟩)
    rw [evalWith_letIn]
    refine (endsIn_list (List.forall_mem_map.2 hbindings) htypes henv).bind fun vs hvs => ?_
    exact hbody h₂ (henv.bindAll _ hvs)
  | letrec bindings body t _ _ =>
    intro scope ty env htyped _
    cases htyped
  | fix members body t _ hbody =>
    intro scope ty env htyped henv
    cases htyped with
    | fix hlen hparams hmembers _ h _ => exact hbody h (.group henv hlen hparams hmembers)
  | seq items t hitems =>
    intro scope ty env htyped henv
    cases htyped with
    | seq hlen h hlast _ =>
    exact endsIn_seq hitems (List.forall₂_iff_zip.2 ⟨hlen, fun hmem => h _ _ hmem⟩) hlast henv

/-! ### Calling -/

/-- Only equality may find that an operand is not a literal. -/
theorem failsIn_operands {J : TypeScope → Expr Nat → Ty → Prop} {p : Primitive}
    {args : List (Value Nat)} {tys : List Ty} (hargs : List.Forall₂ (HasTyBy J) args tys)
    (hint : p ≠ .eq → ∀ ty ∈ tys, ty = .int) :
    FailsIn (Excusable unknown) (operands p args) := by
  induction hargs with
  | nil => exact .ok []
  | @cons v ty args tys hv _ ih =>
    rcases hv.suits with ⟨l, rfl, rfl⟩ | ⟨hproc, tys', rfl⟩
    · exact (ih fun hp ty hty => hint hp ty (List.mem_cons_of_mem _ hty)).map
    · by_cases hp : p = .eq
      · subst hp
        simp only [operands, hproc]
        exact .error (.comparison hproc)
      · cases hint hp _ (List.mem_cons_self ..)

theorem endsIn_applyPrimitive {J : TypeScope → Expr Nat → Ty → Prop} {p : Primitive}
    {sig : Signature} (hp : p.HasTy sig.ty) {args : List (Value Nat)}
    (hargs : List.Forall₂ (HasTyBy J) args sig.params) :
    EndsIn (Excusable unknown) (HasTyBy J · sig.result) (applyPrimitive p args) := by
  refine ⟨?_, fun w => sound_applyPrimitive hp hargs⟩
  refine (failsIn_operands hargs hp.params_int).bind fun ls hls => ?_
  obtain ⟨l, hl, _⟩ := hp.apply_ok (types_of_operands hargs hls) 0
  rw [hl]
  exact .ok _

theorem callsBehave (n : Nat) : CallsBehave unknown (call n) := by
  -- on how deep calls may be nested: the body of a closure makes its calls one level further down
  induction n with
  | zero =>
    intro v args sig hv hargs
    rcases hv.procedure with ⟨p, rfl, hp⟩ | ⟨params, body, env, scope, rfl, _⟩
    · exact endsIn_applyPrimitive hp hargs
    · exact .error .callDepth
  | succ n ih =>
    intro v args sig hv hargs
    rcases hv.procedure with ⟨p, rfl, hp⟩ | ⟨params, body, env, scope, rfl, henv, hlen, hbody⟩
    · exact endsIn_applyPrimitive hp hargs
    · have hcount : params.length = args.length := hlen.symm.trans hargs.length_eq.symm
      rw [call, if_pos hcount]
      exact behaves ih body hbody (henv.bindAll params hargs)

end Eval

namespace Expr

/-- A tree that inference accepts has a value of the kind that its type names, or it refers to a
name that is bound nowhere and not primitive, compares a procedure, or nests calls too deep. No
other failure is possible, and a tree whose type is left open has no value. -/
theorem eval_of_infer (e : Expr Nat) {typing : Typing} (h : e.infer = .ok typing) :
    (∃ d, e.eval = .ok d ∧ d.HasKind typing.root) ∨
      (∃ x ∈ e.free [], x ∉ Primitive.names ∧ e.eval = .error (.unbound x)) ∨
      (∃ v : Eval.Value Nat, v.literal? = none ∧
        e.eval = .error (.trap (.notLiteral .eq v.text))) ∨
      e.eval = .error (.trap (.callDepth Eval.maxCallDepth)) := by
  have hends : EndsIn (Eval.Excusable e.FreeIn)
      (Eval.HasTyBy (TypedAmid e.FreeIn) · typing.root) e.eval :=
    Eval.behaves (Eval.callsBehave Eval.maxCallDepth) e (typedAmid_of_infer h) .empty
  cases heval : e.eval with
  | ok d => exact .inl ⟨d, rfl, (hends.2 d heval).hasKind⟩
  | error cause =>
    cases hends.1 cause heval with
    | @unbound x hx hprim =>
      exact .inr (.inl ⟨x, mem_free.2 hx, notMem_names_of_ofName? hprim, rfl⟩)
    | @comparison v hv => exact .inr (.inr (.inl ⟨v, hv, rfl⟩))
    | callDepth => exact .inr (.inr (.inr rfl))

/-- Goes one of four ways by the number that `x` is bound to: returns it, refers to `u`, which is
bound nowhere, compares a procedure with itself, or calls without end. -/
def fourWays (k : Int64) : Expr Unit :=
  .fix [⟨"loop", (), ["x"], .app (.var "loop" ()) [.var "x" ()] ()⟩]
    (.letIn [("x", .lit (.bool true) ()), ("x", .lit (.int k) ())]
      (.cond (.app (.var "=" ()) [.var "x" (), .lit (.int 0) ()] ()) (.var "x" ())
        (.cond (.app (.var "=" ()) [.var "x" (), .lit (.int 1) ()] ()) (.var "u" ())
          (.letIn [("x", .app (.var "=" ()) [.var "x" (), .lit (.int 2) ()] ())]
            (.cond (.var "x" ())
              (.cond (.app (.var "=" ()) [.var "loop" (), .var "loop" ()] ()) (.lit (.int 3) ())
                (.lit (.int 4) ()) ())
              (.app (.var "loop" ()) [.lit (.int 5) ()] ()) ()) ()) ()) ()) ()) ()

/-- Types for the variables that are drawn for `fourWays`. -/
def fourWaysTypes : Nat → Ty
  | 0 | 10 => .arrow [.int, .int]
  | 4 | 6 | 9 | 11 => .bool
  | _ => .int

theorem eval_fourWays : (∀ k, ∃ typing, (fourWays k).tagged.infer = .ok typing) ∧
    (∃ typing d, (fourWays 0).tagged.infer = .ok typing ∧ (fourWays 0).tagged.eval = .ok d ∧
      d.HasKind typing.root) ∧
    (∃ x ∈ (fourWays 1).tagged.free [], x ∉ Primitive.names ∧
      (fourWays 1).tagged.eval = .error (.unbound x)) ∧
    (∃ v : Eval.Value Nat, v.literal? = none ∧
      (fourWays 2).tagged.eval = .error (.trap (.notLiteral .eq v.text))) ∧
    (fourWays 3).tagged.eval = .error (.trap (.callDepth Eval.maxCallDepth)) := by
  have hinfer (k : Int64) : ∃ typing, (fourWays k).tagged.infer = .ok typing := by
    -- which number the tree has in it makes no difference to its types
    have hsame : TypingProblem.ofExpr (fourWays k).tagged =
      TypingProblem.ofExpr (fourWays 0).tagged := by rfl
    have hsolved : (TypingProblem.ofExpr (fourWays 0).tagged).map (fun p =>
        decide (Solves fourWaysTypes p.judgement.constraints)) = .ok true := by decide +kernel
    rw [← hsame] at hsolved
    obtain ⟨problem, hproblem, hsolves⟩ := Results.map_eq_ok_iff.1 hsolved
    exact infer_of_solves hproblem (of_decide_eq_true hsolves)
  choose typing htyping using hinfer
  have hways (k : Int64) := eval_of_infer (fourWays k).tagged (htyping k)
  have h₀ : (fourWays 0).tagged.eval = .ok (.lit (.int 0)) := by rfl
  have h₁ : (fourWays 1).tagged.eval = .error (.unbound "u") := by rfl
  have h₂ : (fourWays 2).tagged.eval =
    .error (.trap (.notLiteral .eq "#<procedure (x)>")) := by rfl
  have h₃ : (fourWays 3).tagged.eval.map (fun _ => ()) =
    .error (.trap (.callDepth Eval.maxCallDepth)) := by decide +kernel
  refine ⟨fun k => ⟨typing k, htyping k⟩, ⟨typing 0, _, htyping 0, h₀, ?_⟩, ?_, ?_,
    Results.map_eq_error_iff.1 h₃⟩
  · simpa [h₀] using hways 0
  · simpa [h₁] using hways 1
  · simpa [h₂] using hways 2

end Expr

end MiniScheme
