import MiniScheme.Proofs.FreeNames
import MiniScheme.Proofs.LetRecovery

/-!
# Which trees can be fixed

Turning `letrec` into `fix` succeeds exactly on the trees in which every `letrec` binds lambdas
only. The result has no `letrec`, so fixing it again changes nothing; it refers to the same free
names; and it does not matter whether `let` is recovered before or after.
-/

namespace MiniScheme

namespace Emit

variable {ω ε α β : Type}

/-- The computation has a result. -/
def Succeeds (x : Emit ω ε α) : Prop :=
  ∃ a, x.result = .ok a

theorem succeeds_pure (a : α) : (pure a : Emit ω ε α).Succeeds :=
  ⟨a, rfl⟩

theorem succeeds_emit (w : ω) : (emit w : Emit ω ε Unit).Succeeds :=
  ⟨(), rfl⟩

/-- A sequence of two computations, where the result of the first does not decide whether the second
succeeds. -/
theorem succeeds_bind_iff {x : Emit ω ε α} {f : α → Emit ω ε β} {P : Prop}
    (h : ∀ a, (f a).Succeeds ↔ P) : (x >>= f).Succeeds ↔ x.Succeeds ∧ P := by
  unfold Succeeds at h ⊢
  simp only [result_bind_eq_ok_iff]
  constructor
  · rintro ⟨b, a, ha, hb⟩
    exact ⟨⟨a, ha⟩, (h a).1 ⟨b, hb⟩⟩
  · rintro ⟨⟨a, ha⟩, hP⟩
    obtain ⟨b, hb⟩ := (h a).2 hP
    exact ⟨b, a, ha, hb⟩

theorem succeeds_bind_pure {x : Emit ω ε α} {f : α → β} :
    (x >>= fun a => pure (f a)).Succeeds ↔ x.Succeeds := by
  rw [succeeds_bind_iff fun a => iff_true_intro (succeeds_pure (f a)), and_true]

end Emit

namespace Expr

open Emit

variable {α : Type}

/-! ### When fixing succeeds -/

theorem succeeds_fixLetrecList {es : List (Expr α)} :
    (fixLetrecList es).Succeeds ↔ ∀ e ∈ es, e.fixLetrec.Succeeds := by
  induction es with
  | nil => exact iff_of_true (succeeds_pure []) (fun _ he => absurd he List.not_mem_nil)
  | cons e es ih =>
    rw [List.forall_mem_cons, ← ih, fixLetrecList]
    exact succeeds_bind_iff fun _ => succeeds_bind_pure

theorem succeeds_fixLetrecBindings {bs : List (Name × Expr α)} :
    (fixLetrecBindings bs).Succeeds ↔ ∀ b ∈ bs, b.2.fixLetrec.Succeeds := by
  induction bs with
  | nil => exact iff_of_true (succeeds_pure []) (fun _ hb => absurd hb List.not_mem_nil)
  | cons b bs ih =>
    rw [List.forall_mem_cons, ← ih, fixLetrecBindings]
    exact succeeds_bind_iff fun _ => succeeds_bind_pure

theorem succeeds_fixLetrecMembers {ms : List (Member α (Expr α))} :
    (fixLetrecMembers ms).Succeeds ↔ ∀ m ∈ ms, m.body.fixLetrec.Succeeds := by
  induction ms with
  | nil => exact iff_of_true (succeeds_pure []) (fun _ hm => absurd hm List.not_mem_nil)
  | cons m ms ih =>
    rw [List.forall_mem_cons, ← ih, fixLetrecMembers]
    exact succeeds_bind_iff fun _ => succeeds_bind_pure

/-- Bindings make a group if they are lambdas that can be fixed. -/
theorem succeeds_membersOfBindings {bs : List (Name × Expr α)} :
    (membersOfBindings bs).Succeeds ↔
      ∀ b ∈ bs, b.2.isLambda = true ∧ b.2.fixLetrec.Succeeds := by
  induction bs with
  | nil => exact iff_of_true (succeeds_pure []) (fun _ hb => absurd hb List.not_mem_nil)
  | cons b bs ih =>
    obtain ⟨x, e⟩ := b
    rw [List.forall_mem_cons, ← ih]
    cases e with
    | lambda params body t =>
      have hlambda : (lambda params body t).fixLetrec.Succeeds ↔ body.fixLetrec.Succeeds :=
        succeeds_bind_pure
      rw [hlambda, membersOfBindings, succeeds_bind_iff fun _ => succeeds_bind_pure]
      simp only [isLambda, true_and]
    | _ => simp [membersOfBindings, Succeeds, Emit.fail, isLambda]

/-- If the root is a `letrec`, it binds lambdas only. -/
def BindsLambdas : Expr α → Prop
  | letrec bindings _ _ => ∀ b ∈ bindings, b.2.isLambda = true
  | _ => True

theorem succeeds_fixLetrec_iff (e : Expr α) :
    e.fixLetrec.Succeeds ↔ e.BindsLambdas ∧ ∀ d ∈ e.children, d.fixLetrec.Succeeds := by
  cases e with
  | lit v t => exact iff_of_true (succeeds_pure _) ⟨trivial, fun _ hd => absurd hd List.not_mem_nil⟩
  | var x t => exact iff_of_true (succeeds_pure _) ⟨trivial, fun _ hd => absurd hd List.not_mem_nil⟩
  | cond test yes no t =>
    rw [fixLetrec, succeeds_bind_iff fun _ => succeeds_bind_iff fun _ => succeeds_bind_pure]
    simp [BindsLambdas, children]
  | lambda params body t =>
    rw [fixLetrec, succeeds_bind_pure]
    simp [BindsLambdas, children]
  | assign x value t =>
    rw [fixLetrec, succeeds_bind_pure]
    simp [BindsLambdas, children]
  | app func args t =>
    rw [fixLetrec, succeeds_bind_iff fun _ => succeeds_bind_pure, succeeds_fixLetrecList]
    simp [BindsLambdas, children]
  | letIn bindings body t =>
    rw [fixLetrec, succeeds_bind_iff fun _ => succeeds_bind_pure, succeeds_fixLetrecBindings,
      children, List.forall_mem_append, List.forall_mem_map, List.forall_mem_singleton]
    simp only [BindsLambdas, true_and]
  | letrec bindings body t =>
    rw [fixLetrec, succeeds_bind_iff fun _ => succeeds_bind_iff fun _ => succeeds_bind_pure,
      succeeds_membersOfBindings, children, List.forall_mem_append, List.forall_mem_map,
      List.forall_mem_singleton]
    simp only [BindsLambdas, succeeds_emit, true_and, forall_and, and_assoc]
  | fix members body t =>
    rw [fixLetrec, succeeds_bind_iff fun _ => succeeds_bind_pure, succeeds_fixLetrecMembers,
      children, List.forall_mem_append, List.forall_mem_map, List.forall_mem_singleton]
    simp only [BindsLambdas, true_and]
  | seq items t =>
    rw [fixLetrec, succeeds_bind_pure, succeeds_fixLetrecList]
    simp only [BindsLambdas, true_and, children]

theorem succeeds_fixLetrec (e : Expr α) :
    e.fixLetrec.Succeeds ↔ Everywhere BindsLambdas e := by
  induction e using induct_children with
  | node e ih =>
    rw [succeeds_fixLetrec_iff, everywhere_iff]
    exact and_congr_right fun _ => forall_congr' fun d => imp_congr_right fun hd => ih d hd

theorem everywhere_bindsLambdas {e : Expr α} : Everywhere BindsLambdas e ↔
    ∀ bs body t, Occurs (letrec bs body t) e → ∀ b ∈ bs, b.2.isLambda = true := by
  constructor
  · exact fun h bs body t hocc => h (letrec bs body t) hocc
  · intro h d hocc
    cases d with
    | letrec bs body t => exact h bs body t hocc
    | _ => trivial

/-! ### Fixed trees -/

/-- The root is no `letrec`. -/
def NoLetrec (e : Expr α) : Prop :=
  ∀ bs body t, e ≠ letrec bs body t

theorem noLetrec_fixLetrec {e e' : Expr α} (hok : e.fixLetrec.result = .ok e') :
    Everywhere NoLetrec e' :=
  everywhere_fixLetrec (P := fun _ => True) (fun _ _ h _ => ne_letrec_of_fixLetrec h) hok
    fun _ _ => trivial

theorem fixLetrecList_self {es : List (Expr α)} (h : ∀ e ∈ es, e.fixLetrec.result = .ok e) :
    (fixLetrecList es).result = .ok es := by
  induction es with
  | nil => rfl
  | cons e es ih =>
    obtain ⟨he, hes⟩ := List.forall_mem_cons.1 h
    simp only [fixLetrecList, result_bind_eq_ok_iff]
    exact ⟨e, he, es, ih hes, rfl⟩

theorem fixLetrecBindings_self {bs : List (Name × Expr α)}
    (h : ∀ b ∈ bs, b.2.fixLetrec.result = .ok b.2) : (fixLetrecBindings bs).result = .ok bs := by
  induction bs with
  | nil => rfl
  | cons b bs ih =>
    obtain ⟨hb, hbs⟩ := List.forall_mem_cons.1 h
    simp only [fixLetrecBindings, result_bind_eq_ok_iff]
    exact ⟨b.2, hb, bs, ih hbs, rfl⟩

theorem fixLetrecMembers_self {ms : List (Member α (Expr α))}
    (h : ∀ m ∈ ms, m.body.fixLetrec.result = .ok m.body) :
    (fixLetrecMembers ms).result = .ok ms := by
  induction ms with
  | nil => rfl
  | cons m ms ih =>
    obtain ⟨hm, hms⟩ := List.forall_mem_cons.1 h
    simp only [fixLetrecMembers, result_bind_eq_ok_iff]
    exact ⟨m.body, hm, ms, ih hms, rfl⟩

/-- Where there is no `letrec`, there is nothing to fix. -/
theorem fixLetrec_self {e : Expr α} (h : Everywhere NoLetrec e) : e.fixLetrec.result = .ok e := by
  induction e with
  | lit v t => rfl
  | var x t => rfl
  | cond test yes no t htest hyes hno =>
    obtain ⟨_, h₁, h₂, h₃⟩ := everywhere_cond.1 h
    simp only [fixLetrec, result_bind_eq_ok_iff]
    exact ⟨test, htest h₁, yes, hyes h₂, no, hno h₃, rfl⟩
  | lambda params body t hbody => exact fixLetrec_lambda t (hbody (everywhere_lambda.1 h).2)
  | assign x value t hvalue =>
    simp only [fixLetrec, result_bind_eq_ok_iff]
    exact ⟨value, hvalue (everywhere_assign.1 h).2, rfl⟩
  | app func args t hfunc hargs =>
    obtain ⟨_, h₁, h₂⟩ := everywhere_app.1 h
    simp only [fixLetrec, result_bind_eq_ok_iff]
    exact ⟨func, hfunc h₁, args, fixLetrecList_self fun e he => hargs e he (h₂ e he), rfl⟩
  | letIn bindings body t hbindings hbody =>
    obtain ⟨_, h₁, h₂⟩ := everywhere_letIn.1 h
    simp only [fixLetrec, result_bind_eq_ok_iff]
    exact ⟨bindings, fixLetrecBindings_self fun b hb => hbindings b hb (h₁ b hb), body, hbody h₂,
      rfl⟩
  | letrec bindings body t hbindings hbody => exact absurd rfl (h.root bindings body t)
  | fix members body t hmembers hbody =>
    obtain ⟨_, h₁, h₂⟩ := everywhere_fix.1 h
    simp only [fixLetrec, result_bind_eq_ok_iff]
    exact ⟨members, fixLetrecMembers_self fun m hm => hmembers m hm (h₁ m hm), body, hbody h₂, rfl⟩
  | seq items t hitems =>
    obtain ⟨_, h₁⟩ := everywhere_seq.1 h
    simp only [fixLetrec, result_bind_eq_ok_iff]
    exact ⟨items, fixLetrecList_self fun e he => hitems e he (h₁ e he), rfl⟩

/-! ### Both passes -/

/-- Fixing `letrec` succeeds exactly if every `letrec` binds lambdas only, whether `let` is
recovered before or not, and the two passes may be exchanged. What comes out has no `letrec` left
and the free names of the tree in their order, and is not changed by fixing it again. -/
theorem fixLetrec_recoverLet_independent (e : Expr α) :
    ((∃ e', e.fixLetrec.result = .ok e') ↔
      ∀ bs body t, Occurs (letrec bs body t) e → ∀ b ∈ bs, b.2.isLambda = true) ∧
    ((∃ d, e.recoverLet.fixLetrec.result = .ok d) ↔ ∃ e', e.fixLetrec.result = .ok e') ∧
    ∀ e', e.fixLetrec.result = .ok e' →
      e.recoverLet.fixLetrec.result = .ok e'.recoverLet ∧
      (∀ bs body t, ¬Occurs (letrec bs body t) e') ∧
      (∀ bound, e'.free bound = e.free bound) ∧
      e'.fixLetrec.result = .ok e' := by
  refine ⟨(succeeds_fixLetrec e).trans everywhere_bindsLambdas, ?_, fun e' hok => ?_⟩
  · constructor
    · rintro ⟨d, hd⟩
      obtain ⟨e', hok, _⟩ := (fixesRecovered e d).1 hd
      exact ⟨e', hok⟩
    · rintro ⟨e', hok⟩
      exact ⟨e'.recoverLet, (fixesRecovered e _).2 ⟨e', hok, rfl⟩⟩
  · have hnone := noLetrec_fixLetrec hok
    refine ⟨(fixesRecovered e _).2 ⟨e', hok, rfl⟩, fun bs body t hocc => ?_, fun bound => ?_,
      fixLetrec_self hnone⟩
    · exact hnone _ hocc bs body t rfl
    · rw [free, free, fixKeepsFree e e' hok]

end Expr

end MiniScheme
