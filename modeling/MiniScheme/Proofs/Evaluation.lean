import Mathlib.Order.Filter.AtTopBot.Basic
import MiniScheme.Eval
import MiniScheme.Proofs.Results
import MiniScheme.Proofs.Trees

/-!
# Evaluation

What environments hold, what the limit on nested calls changes, and what it means that evaluation
does not go wrong. The limit only cuts evaluations off: a result that was reached without
reaching the limit stays the result under every higher limit.
-/

namespace MiniScheme.Eval

open Results

variable {α : Type}

/-! ### Environments -/

namespace Env

variable {env : Env α} {x : Name} {d : Value α}

/-- A value found after binding names was bound with them or found before. -/
theorem find?_bindAll_cases {xs : List Name} {vs : List (Value α)}
    (h : (env.bindAll xs vs).find? x = some d) :
    env.find? x = some d ∨ ∃ k : Nat, xs[k]? = some x ∧ vs[k]? = some d := by
  induction xs generalizing env vs with
  | nil =>
    cases vs <;> exact .inl h
  | cons y ys ih =>
    cases vs with
    | nil => exact .inl h
    | cons v vs =>
      rcases ih h with h | ⟨k, hx, hd⟩
      · by_cases hyx : y = x
        · rw [find?, if_pos hyx] at h
          exact .inr ⟨0, by simp [hyx], by simpa using h⟩
        · rw [find?, if_neg hyx] at h
          exact .inl h
      · exact .inr ⟨k + 1, hx, hd⟩

theorem find?_group_cases {ms : List (Member α (Expr α))}
    (h : (group ms env).find? x = some d) :
    (∃ m ∈ ms, m.name = x ∧ d = .closure m.params m.body (group ms env)) ∨
      x ∉ ms.map (·.name) ∧ env.find? x = some d := by
  rw [find?] at h
  cases hfind : ms.reverse.find? (·.name = x) with
  | some m =>
    rw [hfind] at h
    have hname := List.find?_some hfind
    have hmem := List.mem_of_find?_eq_some hfind
    exact .inl ⟨m, List.mem_reverse.1 hmem, by simpa using hname, (Option.some.inj h).symm⟩
  | none =>
    rw [hfind] at h
    refine .inr ⟨fun hmem => ?_, h⟩
    obtain ⟨m, hm, hname⟩ := List.mem_map.1 hmem
    have hnot := List.find?_eq_none.1 hfind m (List.mem_reverse.2 hm)
    simp [hname] at hnot

theorem find?_group_of_notMem {ms : List (Member α (Expr α))} (h : x ∉ ms.map (·.name)) :
    (group ms env).find? x = env.find? x := by
  have hnone : ms.reverse.find? (·.name = x) = none := by
    rw [List.find?_eq_none]
    intro m hm hname
    refine h (List.mem_map.2 ⟨m, List.mem_reverse.1 hm, ?_⟩)
    simpa using hname
  rw [find?, hnone]

theorem find?_group_of_mem {ms : List (Member α (Expr α))} {m : Member α (Expr α)}
    (hnodup : (ms.map (·.name)).Nodup) (h : m ∈ ms) :
    (group ms env).find? m.name = some (.closure m.params m.body (group ms env)) := by
  have hsome : ms.reverse.find? (·.name = m.name) = some m := by
    rw [List.find?_eq_some_iff_append]
    obtain ⟨before, after, hsplit⟩ := List.append_of_mem h
    refine ⟨by simp, after.reverse, before.reverse, by simp [hsplit], fun m' hm' => ?_⟩
    rw [hsplit, List.map_append, List.map_cons, List.nodup_append, List.nodup_cons] at hnodup
    have hne : m'.name ≠ m.name := by
      intro heq
      exact hnodup.2.1.1 (List.mem_map.2 ⟨m', List.mem_reverse.1 hm', heq⟩)
    simpa using hne
  rw [find?, hsome]

end Env

theorem evalBindingsWith_eq (call : Caller α) (env : Env α) (bs : List (Name × Expr α)) :
    evalBindingsWith call env bs = evalListWith call env (bs.map (·.2)) := by
  induction bs with
  | nil => rfl
  | cons b bs ih => rw [evalBindingsWith, List.map_cons, evalListWith, ih]

theorem evalWith_letIn (call : Caller α) (env : Env α) (bs : List (Name × Expr α)) (body : Expr α)
    (t : α) : evalWith call env (.letIn bs body t) = (do
      let vs ← evalListWith call env (bs.map (·.2))
      evalWith call (env.bindAll (bs.map (·.1)) vs) body) := by
  rw [evalWith, evalBindingsWith_eq]

theorem length_of_evalListWith {call : Caller α} {env : Env α} {es : List (Expr α)}
    {vs : List (Value α)} (h : evalListWith call env es = .ok vs) : vs.length = es.length := by
  induction es generalizing vs with
  | nil =>
    simp only [evalListWith, Except.ok.injEq] at h
    subst h
    rfl
  | cons e es ih =>
    simp only [evalListWith, Results.bind_eq_ok_iff, pure, Except.pure, Except.ok.injEq] at h
    obtain ⟨v, _, vs', hvs, rfl⟩ := h
    simp only [List.length_cons, ih hvs]

theorem length_of_evalBindingsWith {call : Caller α} {env : Env α} {bs : List (Name × Expr α)}
    {vs : List (Value α)} (h : evalBindingsWith call env bs = .ok vs) :
    vs.length = bs.length := by
  rw [evalBindingsWith_eq] at h
  rw [length_of_evalListWith h, List.length_map]

/-! ### The limit on nested calls -/

/-- The error of a call nested too deep. -/
def tooDeep : Error :=
  .trap (.callDepth maxCallDepth)

section

variable {f f' : Caller α}

theorem cutOff_list {es : List (Expr α)}
    (hes : ∀ e ∈ es, ∀ env, CutOff tooDeep (evalWith f env e) (evalWith f' env e)) (env : Env α) :
    CutOff tooDeep (evalListWith f env es) (evalListWith f' env es) := by
  induction es with
  | nil => exact .refl _
  | cons e es ih =>
    obtain ⟨he, hes⟩ := List.forall_mem_cons.1 hes
    exact (he env).bind fun v => (ih hes).bind fun vs => .refl _

theorem cutOff_seq {es : List (Expr α)}
    (hes : ∀ e ∈ es, ∀ env, CutOff tooDeep (evalWith f env e) (evalWith f' env e)) (env : Env α) :
    CutOff tooDeep (evalSeqWith f env es) (evalSeqWith f' env es) := by
  induction es with
  | nil => exact .refl _
  | cons e es ih =>
    obtain ⟨he, hes⟩ := List.forall_mem_cons.1 hes
    cases es with
    | nil => exact he env
    | cons e' es => exact (he env).bind fun _ => ih hes

theorem cutOff_evalWith (h : ∀ v args, CutOff tooDeep (f v args) (f' v args)) (e : Expr α)
    (env : Env α) : CutOff tooDeep (evalWith f env e) (evalWith f' env e) := by
  induction e generalizing env with
  | lit v t => exact .refl _
  | var x t => exact .refl _
  | cond test yes no t htest hyes hno =>
    refine (htest env).bind fun v => ?_
    cases v.isFalse with
    | true => exact hno env
    | false => exact hyes env
  | lambda params body t _ => exact .refl _
  | assign x value t _ => exact .refl _
  | app func args t hfunc hargs =>
    exact (hfunc env).bind fun d => (cutOff_list hargs env).bind fun ds => h d ds
  | letIn bindings body t hbindings hbody =>
    have hinits := cutOff_list (List.forall_mem_map.2 hbindings) env
    rw [← evalBindingsWith_eq, ← evalBindingsWith_eq] at hinits
    exact hinits.bind fun ds => hbody _
  | letrec bindings body t _ _ => exact .refl _
  | fix members body t _ hbody => exact hbody _
  | seq items t hitems => exact cutOff_seq hitems env

end

theorem cutOff_call (n : Nat) (v : Value α) (args : List (Value α)) :
    CutOff tooDeep (call n v args) (call (n + 1) v args) := by
  induction n generalizing v args with
  | zero =>
    cases v with
    | lit l => exact .refl _
    | prim p => exact .refl _
    | closure params body env => exact .inl rfl
  | succ n ih =>
    cases v with
    | lit l => exact .refl _
    | prim p => exact .refl _
    | closure params body env =>
      by_cases hlen : params.length = args.length
      · simp only [call, if_pos hlen]
        exact cutOff_evalWith ih body _
      · simp only [call, if_neg hlen]
        exact .refl _

theorem evalWith_stable {n : Nat} {env : Env α} {e : Expr α} {r : Except Error (Value α)}
    (h : evalWith (call n) env e = r) (hr : r ≠ .error tooDeep) (k : Nat) :
    evalWith (call (n + k)) env e = r := by
  induction k with
  | zero => exact h
  | succ k ih =>
    rcases cutOff_evalWith (cutOff_call (n + k)) e env with hdeep | heq
    · exact absurd (ih.symm.trans hdeep) hr
    · exact heq.trans ih

/-- Evaluation gives a value as soon as calls may be nested deep enough. -/
def Converges (env : Env α) (e : Expr α) (d : Value α) : Prop :=
  ∀ᶠ n in Filter.atTop, evalWith (call n) env e = .ok d

theorem converges_of_ok {n : Nat} {env : Env α} {e : Expr α} {d : Value α}
    (h : evalWith (call n) env e = .ok d) : Converges env e d := by
  refine Filter.eventually_atTop.2 ⟨n, fun m hm => ?_⟩
  obtain ⟨k, rfl⟩ := Nat.exists_eq_add_of_le hm
  exact evalWith_stable h nofun k

theorem Converges.exists {env : Env α} {e : Expr α} {d : Value α} (h : Converges env e d) :
    ∃ n, evalWith (call n) env e = .ok d :=
  Filter.Eventually.exists h

/-! ### Evaluation that does not go wrong -/

mutual
/-- Evaluation meets no name without a value, no refused form and no call that is not `ready`,
also where the operands of a call are evaluated in another order. -/
def Safe (f : Caller α) (ready : Value α → List (Value α) → Prop) (env : Env α) : Expr α → Prop
  | .lit _ _ => True
  | .var x _ => ∃ v, env.lookup x = .ok v
  | .cond test yes no _ =>
    Safe f ready env test ∧ ∀ v, evalWith f env test = .ok v →
      if v.isFalse then Safe f ready env no else Safe f ready env yes
  | .lambda _ _ _ => True
  | .assign _ _ _ => False
  | .app func args _ =>
    Safe f ready env func ∧ SafeList f ready env args ∧
      ∀ v vs, evalWith f env func = .ok v → evalListWith f env args = .ok vs → ready v vs
  | .letIn bindings body _ =>
    SafeBindings f ready env bindings ∧
      ∀ vs, evalBindingsWith f env bindings = .ok vs →
        Safe f ready (env.bindAll (bindings.map (·.1)) vs) body
  | .letrec _ _ _ => False
  | .fix members body _ => Safe f ready (.group members env) body
  | .seq items _ => SafeSeq f ready env items
termination_by structural e => e

def SafeList (f : Caller α) (ready : Value α → List (Value α) → Prop) (env : Env α) :
    List (Expr α) → Prop
  | [] => True
  | e :: es => Safe f ready env e ∧ SafeList f ready env es
termination_by structural es => es

def SafeBindings (f : Caller α) (ready : Value α → List (Value α) → Prop) (env : Env α) :
    List (Name × Expr α) → Prop
  | [] => True
  | (_, e) :: bs => Safe f ready env e ∧ SafeBindings f ready env bs
termination_by structural bs => bs

def SafeSeq (f : Caller α) (ready : Value α → List (Value α) → Prop) (env : Env α) :
    List (Expr α) → Prop
  | [] => False
  | [e] => Safe f ready env e
  | e :: e' :: es => Safe f ready env e ∧ SafeSeq f ready env (e' :: es)
termination_by structural es => es
end

theorem safeList_iff {f : Caller α} {ready : Value α → List (Value α) → Prop} {env : Env α}
    {es : List (Expr α)} : SafeList f ready env es ↔ ∀ e ∈ es, Safe f ready env e := by
  induction es with
  | nil => simp [SafeList]
  | cons e es ih => simp only [SafeList, ih, List.forall_mem_cons]

theorem safeBindings_iff {f : Caller α} {ready : Value α → List (Value α) → Prop} {env : Env α}
    {bs : List (Name × Expr α)} : SafeBindings f ready env bs ↔ ∀ b ∈ bs, Safe f ready env b.2 := by
  induction bs with
  | nil => simp [SafeBindings]
  | cons b bs ih => simp only [SafeBindings, ih, List.forall_mem_cons]

/-- A call passes as many arguments as the procedure takes, and so do all calls inside it. -/
def Ready : Nat → Value α → List (Value α) → Prop
  | _, .lit _, _ => True
  | _, .prim p, args => args.length = p.arity
  | 0, .closure _ _ _, _ => True
  | n + 1, .closure params body env, args =>
    params.length = args.length ∧ Safe (call n) (Ready n) (env.bindAll params args) body

end MiniScheme.Eval
