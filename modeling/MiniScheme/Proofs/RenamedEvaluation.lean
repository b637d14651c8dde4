import MiniScheme.Proofs.Evaluation
import MiniScheme.Proofs.FreeNames
import MiniScheme.Proofs.Subtrees

/-!
# Renaming keeps meaning

A tree that refers to nothing but its own binders and primitives evaluates to the same result
before and after renaming. Results may contain closures, and closures contain trees and names, so
results are compared through the renamings they have been through: values along one relation,
environments along another, each at the renaming that was in force when they were made.
-/

namespace MiniScheme

/-- Errors of one variant. The only difference is how an operand that is not a literal is shown:
the text of a procedure lists its parameters. -/
inductive Error.Alike : Error → Error → Prop where
  | same (e : Error) : Alike e e
  | notLiteral (p : Primitive) (shown shown' : String) :
      Alike (.trap (.notLiteral p shown)) (.trap (.notLiteral p shown'))

/-! ### Renamings -/

namespace Renaming

variable {r : Renaming} {n : Nat}

/-- All new names come from counter values before this one. -/
def OlderThan (r : Renaming) (n : Nat) : Prop :=
  ∀ b ∈ r, Older n b.2

/-- The tree refers only to names that are bound here or primitive. -/
def Closes {α : Type} (r : Renaming) (e : Expr α) : Prop :=
  ∀ x, e.FreeIn x → x ∈ r.map (·.1) ∨ x ∈ Primitive.names

theorem OlderThan.mono {m : Nat} (h : r.OlderThan n) (hnm : n ≤ m) : r.OlderThan m :=
  fun b hb => (h b hb).mono hnm

theorem OlderThan.cons (h : r.OlderThan n) (x : Name) :
    OlderThan ((x, freshName x n) :: r) (n + 1) := by
  intro b hb
  rcases List.mem_cons.1 hb with rfl | hb
  · intro y m hm heq
    have hnm := eq_of_freshName_eq heq
    omega
  · exact (h b hb).mono (Nat.le_succ n)

theorem OlderThan.enter (h : r.OlderThan n) (xs : List Name) :
    (r.enter xs n).OlderThan (n + xs.length) := by
  induction xs generalizing r n with
  | nil => exact h
  | cons x xs ih =>
    have hrest := ih (h.cons x)
    have hlen : n + 1 + xs.length = n + (x :: xs).length := by
      simp only [List.length_cons]
      omega
    exact hlen ▸ hrest

/-- A generated name is none of the names generated before. -/
theorem OlderThan.ne {x y z : Name} (h : r.OlderThan n) (hy : r.lookup x = some y) :
    freshName z n ≠ y := by
  obtain ⟨before, after, hsplit, _⟩ := List.lookup_eq_some_iff.1 hy
  have hmem : (x, y) ∈ r := by simp [hsplit]
  exact (h (x, y) hmem z n (Nat.le_refl n)).symm

theorem mem_map_fst_enter {x : Name} {xs : List Name} :
    x ∈ (r.enter xs n).map (·.1) ↔ x ∈ xs ∨ x ∈ r.map (·.1) := by
  induction xs generalizing r n with
  | nil => simp [enter]
  | cons y xs ih =>
    rw [enter, ih, List.map_cons, List.mem_cons, List.mem_cons]
    tauto

/-- Under a binder list a tree may also refer to the names of the list. -/
theorem closes_enter {α : Type} {e : Expr α} {xs : List Name}
    (h : ∀ x, e.FreeIn x → x ∉ xs → x ∈ r.map (·.1) ∨ x ∈ Primitive.names) :
    (r.enter xs n).Closes e := by
  intro x hx
  rw [mem_map_fst_enter, or_assoc]
  by_cases hmem : x ∈ xs
  · exact .inl hmem
  · exact .inr (h x hx hmem)

end Renaming

namespace Expr

variable {α : Type}

/-- The members of a group after renaming, counting from `n`. -/
def renameGroup (r : Renaming) (ms : List (Member α (Expr α))) (n : Nat) :
    List (Member α (Expr α)) :=
  freshMembers (renameMembersIn (r.enter (ms.map (·.name)) n) ms (n + (ms.map (·.name)).length)).1 n

theorem map_name_renameGroup (r : Renaming) (ms : List (Member α (Expr α))) (n : Nat) :
    (renameGroup r ms n).map (·.name) = freshNames (ms.map (·.name)) n := by
  rw [renameGroup, map_name_freshMembers, map_name_renameMembersIn]

/-- How a member of a group is renamed, in the scope of the group. -/
def RenamedMember (r : Renaming) (n : Nat) (m m' : Member α (Expr α)) : Prop :=
  ∃ k, n ≤ k ∧ m'.params = freshNames m.params k ∧
    m'.body = (renameIn (r.enter m.params k) m.body (k + m.params.length)).1

theorem RenamedMember.mono {r : Renaming} {n n' : Nat} {m m' : Member α (Expr α)}
    (h : RenamedMember r n' m m') (hn : n ≤ n') : RenamedMember r n m m' := by
  obtain ⟨k, hk, hparams, hbody⟩ := h
  exact ⟨k, Nat.le_trans hn hk, hparams, hbody⟩

theorem renamedMember_renameMembersIn (r : Renaming) (ms : List (Member α (Expr α))) (n : Nat) :
    List.Forall₂ (RenamedMember r n) ms (renameMembersIn r ms n).1 := by
  induction ms generalizing n with
  | nil => exact .nil
  | cons m ms ih =>
    have hle := (refreshes m.body (r.enter m.params n) (n + m.params.length)).1
    refine .cons ⟨n, Nat.le_refl n, rfl, rfl⟩ ((ih _).imp fun _ _ h => h.mono ?_)
    omega

theorem renamedMember_freshMembers {r : Renaming} {n m : Nat}
    {ms ms' : List (Member α (Expr α))} (h : List.Forall₂ (RenamedMember r n) ms ms') :
    List.Forall₂ (RenamedMember r n) ms (freshMembers ms' m) := by
  induction h generalizing m with
  | nil => exact .nil
  | cons hm _ ih => exact .cons hm ih

end Expr

namespace Eval

open MiniScheme.Expr (FreeIn renameIn renameListIn renameGroup RenamedMember)

variable {α : Type}

/-! ### Values and environments before and after -/

mutual
/-- The second value is the first one from a renamed tree. -/
inductive Value.Renamed : Value α → Value α → Prop where
  | lit (v : Literal) : Value.Renamed (.lit v) (.lit v)
  | prim (p : Primitive) : Value.Renamed (.prim p) (.prim p)
  | closure {r : Renaming} {n : Nat} {params : List Name} {body : Expr α} {env env' : Env α}
      (henv : Env.Renamed r env env') (hold : r.OlderThan n)
      (hbody : (r.enter params n).Closes body) :
      Value.Renamed (.closure params body env)
        (.closure (freshNames params n)
          (renameIn (r.enter params n) body (n + params.length)).1 env')

/-- The second environment holds under the new names what the first one holds under the old. -/
inductive Env.Renamed : Renaming → Env α → Env α → Prop where
  | empty : Env.Renamed [] .empty .empty
  | bind {r : Renaming} {n : Nat} {env env' : Env α} {v v' : Value α} (x : Name)
      (henv : Env.Renamed r env env') (hv : Value.Renamed v v') (hold : r.OlderThan n) :
      Env.Renamed ((x, freshName x n) :: r) (.bind x v env) (.bind (freshName x n) v' env')
  | group {r : Renaming} {n : Nat} {env env' : Env α} {ms : List (Member α (Expr α))}
      (henv : Env.Renamed r env env') (hold : r.OlderThan n)
      (hbodies : ∀ m ∈ ms, ∀ k,
        ((r.enter (ms.map (·.name)) n).enter m.params k).Closes m.body) :
      Env.Renamed (r.enter (ms.map (·.name)) n) (.group ms env) (.group (renameGroup r ms n) env')
end

/-- Binding values of a list of names keeps what binding a single value keeps. -/
theorem bindAll_renamed {P : Renaming → Env α → Env α → Prop}
    (hbind : ∀ {r n env env' v v'} x, P r env env' → Value.Renamed v v' → r.OlderThan n →
      P ((x, freshName x n) :: r) (.bind x v env) (.bind (freshName x n) v' env'))
    {r : Renaming} {n : Nat} {env env' : Env α} {xs : List Name} {vs vs' : List (Value α)}
    (h : P r env env') (hvs : List.Forall₂ Value.Renamed vs vs') (hlen : xs.length = vs.length)
    (hold : r.OlderThan n) :
    P (r.enter xs n) (env.bindAll xs vs) (env'.bindAll (freshNames xs n) vs') := by
  induction xs generalizing r n env env' vs vs' with
  | nil => exact h
  | cons x xs ih =>
    cases hvs with
    | nil => simp at hlen
    | cons hv hvs => exact ih (hbind x h hv hold) hvs (by simpa using hlen) (hold.cons x)

/-- What looking names up in the two environments finds. -/
structure Corresponds (r : Renaming) (env env' : Env α) : Prop where
  found : ∀ x y, r.lookup x = some y →
    ∃ v v', env.find? x = some v ∧ env'.find? y = some v' ∧ Value.Renamed v v'
  absent : ∀ x, r.lookup x = none → env.find? x = none
  unused : ∀ p : Primitive, env'.find? p.name = none

theorem Corresponds.bind {r : Renaming} {n : Nat} {env env' : Env α} {v v' : Value α} (x : Name)
    (h : Corresponds r env env') (hv : Value.Renamed v v') (hold : r.OlderThan n) :
    Corresponds ((x, freshName x n) :: r) (.bind x v env) (.bind (freshName x n) v' env') := by
  refine ⟨fun z y hy => ?_, fun z hz => ?_, fun p => ?_⟩
  · by_cases hzx : z = x
    · subst hzx
      have hname : freshName z n = y := by simpa [List.lookup_cons] using hy
      exact ⟨v, v', by simp [Env.find?], by simp [Env.find?, hname], hv⟩
    · rw [List.lookup_cons, beq_false_of_ne hzx] at hy
      obtain ⟨w, w', hw, hw', hrel⟩ := h.found z y hy
      exact ⟨w, w', by rw [Env.find?, if_neg (Ne.symm hzx), hw],
        by rw [Env.find?, if_neg (hold.ne hy), hw'], hrel⟩
  · by_cases hzx : z = x
    · simp [hzx] at hz
    · rw [List.lookup_cons, beq_false_of_ne hzx] at hz
      rw [Env.find?, if_neg (Ne.symm hzx)]
      exact h.absent z hz
  · have hne : freshName x n ≠ p.name := by
      intro heq
      have hprim := ofName?_freshName x n
      rw [heq, Primitive.ofName?_name] at hprim
      cases hprim
    rw [Env.find?, if_neg hne]
    exact h.unused p

/-- A group binds each of its names to a closure over the group. -/
theorem find?_group_eq (ms : List (Member α (Expr α))) (env : Env α) (x : Name) :
    (Env.group ms env).find? x =
      (env.bindAll (ms.map (·.name))
        (ms.map fun m => .closure m.params m.body (.group ms env))).find? x := by
  rw [Env.find?]
  generalize Env.group ms env = whole
  induction ms generalizing env with
  | nil => rfl
  | cons m ms ih =>
    rw [List.map_cons, List.map_cons, Env.bindAll, ← ih, List.reverse_cons, List.find?_append]
    cases ms.reverse.find? (·.name = x) with
    | some m' => rfl
    | none =>
      by_cases hm : m.name = x
      · simp [Env.find?, hm]
      · simp [Env.find?, hm]

theorem Env.Renamed.corresponds : {r : Renaming} → {env env' : Env α} → Env.Renamed r env env' →
    Corresponds r env env'
  | _, _, _, .empty => ⟨nofun, fun _ _ => rfl, fun _ => rfl⟩
  | _, _, _, .bind x henv hv hold => henv.corresponds.bind x hv hold
  | _, _, _, @Env.Renamed.group _ r n env env' ms henv hold hbodies => by
    -- a group is looked up like its closures, bound one after the other
    have hmembers : List.Forall₂ (RenamedMember (r.enter (ms.map (·.name)) n)
        (n + (ms.map (·.name)).length)) ms (renameGroup r ms n) :=
      Expr.renamedMember_freshMembers (Expr.renamedMember_renameMembersIn _ ms _)
    have hvs : List.Forall₂ Value.Renamed
        (ms.map fun m => .closure m.params m.body (.group ms env))
        ((renameGroup r ms n).map fun m =>
          .closure m.params m.body (.group (renameGroup r ms n) env')) := by
      rw [List.forall₂_map_left_iff, List.forall₂_map_right_iff]
      refine (List.forall₂_and_left _ _ |>.2 ⟨fun m hm => hm, hmembers⟩).imp ?_
      rintro m m' ⟨hm, k, hk, hparams, hbody⟩
      rw [hparams, hbody]
      exact .closure (.group henv hold hbodies) ((hold.enter _).mono hk) (hbodies m hm k)
    have hlen : (ms.map (·.name)).length =
        (ms.map fun m => Value.closure m.params m.body (.group ms env)).length := by
      rw [List.length_map, List.length_map]
    have hall := bindAll_renamed Corresponds.bind henv.corresponds hvs hlen hold
    rw [← Expr.map_name_renameGroup] at hall
    refine ⟨fun x y hy => ?_, fun x hx => ?_, fun p => ?_⟩
    · rw [find?_group_eq, find?_group_eq]
      exact hall.found x y hy
    · rw [find?_group_eq]
      exact hall.absent x hx
    · rw [find?_group_eq]
      exact hall.unused p

/-! ### Results -/

/-- Both succeed with related results, or both fail with errors of one variant. -/
inductive Agree {β γ : Type} (R : β → γ → Prop) : Except Error β → Except Error γ → Prop where
  | ok {b : β} {c : γ} (h : R b c) : Agree R (.ok b) (.ok c)
  | error {e e' : Error} (h : e.Alike e') : Agree R (.error e) (.error e')

theorem Agree.bind {β γ β' γ' : Type} {R : β → γ → Prop} {S : β' → γ' → Prop}
    {x : Except Error β} {y : Except Error γ} {f : β → Except Error β'} {g : γ → Except Error γ'}
    (h : Agree R x y) (hfg : ∀ b c, R b c → Agree S (f b) (g c)) :
    Agree S (x >>= f) (y >>= g) := by
  cases h with
  | ok h => exact hfg _ _ h
  | error h => exact .error h

theorem Agree.map {β γ β' γ' : Type} {R : β → γ → Prop} {S : β' → γ' → Prop}
    {x : Except Error β} {y : Except Error γ} {f : β → β'} {g : γ → γ'}
    (h : Agree R x y) (hfg : ∀ b c, R b c → S (f b) (g c)) : Agree S (x.map f) (y.map g) := by
  cases h with
  | ok h => exact .ok (hfg _ _ h)
  | error h => exact .error h

theorem Agree.imp {β γ : Type} {R S : β → γ → Prop} {x : Except Error β} {y : Except Error γ}
    (h : Agree R x y) (himp : ∀ b c, R b c → S b c) : Agree S x y := by
  cases h with
  | ok h => exact .ok (himp _ _ h)
  | error h => exact .error h

theorem Value.Renamed.isFalse_eq {v v' : Value α} (h : Value.Renamed v v') :
    v.isFalse = v'.isFalse := by
  cases h <;> rfl

theorem agree_operands (p : Primitive) {vs vs' : List (Value α)}
    (h : List.Forall₂ Value.Renamed vs vs') : Agree Eq (operands p vs) (operands p vs') := by
  induction h with
  | nil => exact .ok rfl
  | cons hv _ ih =>
    cases hv with
    | lit v =>
      exact ih.map fun ls ls' hls => congrArg (v :: ·) hls
    | prim q => exact .error (.same _)
    | closure henv hold hbody => exact .error (.notLiteral p _ _)

theorem agree_applyPrimitive (p : Primitive) {vs vs' : List (Value α)}
    (h : List.Forall₂ Value.Renamed vs vs') :
    Agree Value.Renamed (applyPrimitive p vs) (applyPrimitive p vs') := by
  refine (agree_operands p h).bind ?_
  rintro ls _ rfl
  cases p.apply ls 0 with
  | ok l => exact .ok (.lit l)
  | error t => exact .error (.same _)

theorem Env.Renamed.agree_lookup {r : Renaming} {env env' : Env α} (h : Env.Renamed r env env')
    {x : Name} (hx : x ∈ r.map (·.1) ∨ x ∈ Primitive.names) :
    Agree Value.Renamed (env.lookup x) (env'.lookup (r.find x)) := by
  cases hy : r.lookup x with
  | some y =>
    obtain ⟨v, v', hv, hv', hrel⟩ := h.corresponds.found x y hy
    simp only [Renaming.find, Env.lookup, hy, Option.getD_some, hv, hv']
    exact .ok hrel
  | none =>
    have hnot : x ∉ r.map (·.1) := Expr.notMem_of_lookup_eq_none hy
    obtain ⟨p, _, rfl⟩ := List.mem_map.1 (hx.resolve_left hnot)
    simp only [Renaming.find, Env.lookup, hy, Option.getD_none, h.corresponds.absent _ hy,
      h.corresponds.unused p, Primitive.ofName?_name]
    exact .ok (.prim p)

/-! ### Evaluation -/

/-- Calls of related procedures with related arguments agree. -/
def CallsAgree (f f' : Caller α) : Prop :=
  ∀ {v v' : Value α} {vs vs' : List (Value α)}, Value.Renamed v v' →
    List.Forall₂ Value.Renamed vs vs' → Agree Value.Renamed (f v vs) (f' v' vs')

/-- A tree and its renamed form agree in all environments that correspond. -/
def EvalAgrees (f f' : Caller α) (e : Expr α) : Prop :=
  ∀ {r : Renaming} {n : Nat} {env env' : Env α}, Env.Renamed r env env' → r.OlderThan n →
    r.Closes e → Agree Value.Renamed (evalWith f env e) (evalWith f' env' (renameIn r e n).1)

section

variable {f f' : Caller α} {r : Renaming} {n : Nat} {env env' : Env α}

theorem agree_list {es : List (Expr α)} (hes : ∀ e ∈ es, EvalAgrees f f' e)
    (henv : Env.Renamed r env env') (hold : r.OlderThan n) (hclosed : ∀ e ∈ es, r.Closes e) :
    Agree (fun vs vs' => es.length = vs.length ∧ List.Forall₂ Value.Renamed vs vs')
      (evalListWith f env es) (evalListWith f' env' (renameListIn r es n).1) := by
  induction es generalizing n with
  | nil => exact .ok ⟨rfl, .nil⟩
  | cons e es ih =>
    obtain ⟨he, hes⟩ := List.forall_mem_cons.1 hes
    obtain ⟨hfirst, hrest⟩ := List.forall_mem_cons.1 hclosed
    have hold' := hold.mono (Expr.refreshes e r n).1
    refine (he henv hold hfirst).bind fun v v' hv => ?_
    refine (ih hes hold' hrest).bind fun vs vs' hvs => ?_
    exact .ok ⟨congrArg (· + 1) hvs.1, .cons hv hvs.2⟩

theorem agree_seq {es : List (Expr α)} (hes : ∀ e ∈ es, EvalAgrees f f' e)
    (henv : Env.Renamed r env env') (hold : r.OlderThan n) (hclosed : ∀ e ∈ es, r.Closes e) :
    Agree Value.Renamed (evalSeqWith f env es)
      (evalSeqWith f' env' (renameListIn r es n).1) := by
  induction es generalizing n with
  | nil => exact .error (.same _)
  | cons e es ih =>
    obtain ⟨he, hes⟩ := List.forall_mem_cons.1 hes
    obtain ⟨hfirst, hrest⟩ := List.forall_mem_cons.1 hclosed
    have hold' := hold.mono (Expr.refreshes e r n).1
    cases es with
    | nil => exact he henv hold hfirst
    | cons e' es => exact (he henv hold hfirst).bind fun _ _ _ => ih hes hold' hrest

theorem evalAgrees (hcalls : CallsAgree f f') (e : Expr α) : EvalAgrees f f' e := by
  -- each part is renamed with the number the part before it has left, so names in scope stay older
  induction e with
  | lit v t => exact fun _ _ _ => .ok (.lit v)
  | var x t =>
    intro r n env env' henv hold hclosed
    exact henv.agree_lookup (hclosed x (Expr.freeIn_var.2 rfl))
  | cond test yes no t htest hyes hno =>
    intro r n env env' henv hold hclosed
    have hold₁ := hold.mono (Expr.refreshes test r n).1
    have hold₂ := hold₁.mono (Expr.refreshes yes r _).1
    refine (htest henv hold fun x hx => hclosed x (Expr.freeIn_cond.2 (.inl hx))).bind ?_
    intro v v' hv
    rw [← hv.isFalse_eq]
    cases v.isFalse with
    | true => exact hno henv hold₂ fun x hx => hclosed x (Expr.freeIn_cond.2 (.inr (.inr hx)))
    | false => exact hyes henv hold₁ fun x hx => hclosed x (Expr.freeIn_cond.2 (.inr (.inl hx)))
  | lambda params body t _ =>
    intro r n env env' henv hold hclosed
    refine .ok (.closure henv hold (Renaming.closes_enter fun x hx hout => ?_))
    exact hclosed x (Expr.freeIn_lambda.2 ⟨hx, hout⟩)
  | assign x value t _ => exact fun _ _ _ => .error (.same _)
  | app func args t hfunc hargs =>
    intro r n env env' henv hold hclosed
    have hold' := hold.mono (Expr.refreshes func r n).1
    have hclosed' : ∀ e ∈ args, r.Closes e :=
      fun e he x hx => hclosed x (Expr.freeIn_app.2 (.inr ⟨e, he, hx⟩))
    refine (hfunc henv hold fun x hx => hclosed x (Expr.freeIn_app.2 (.inl hx))).bind ?_
    intro v v' hv
    exact (agree_list hargs henv hold' hclosed').bind fun vs vs' hvs => hcalls hv hvs.2
  | letIn bindings body t hbindings hbody =>
    intro r n env env' henv hold hclosed
    have hold' : r.OlderThan (Expr.renameBindingsIn r bindings n).2 :=
      hold.mono (Expr.refreshes_bindings (fun b _ => Expr.refreshes b.2) r n).1
    have hclosed' : ∀ e ∈ bindings.map (·.2), r.Closes e :=
      List.forall_mem_map.2 fun b hb x hx => hclosed x (Expr.freeIn_letIn.2 (.inl ⟨b, hb, hx⟩))
    have hinits := agree_list (List.forall_mem_map.2 hbindings) henv hold hclosed'
    simp only [renameIn, evalWith_letIn, Expr.map_snd_freshBindings,
      (Expr.renameBindingsIn_eq r bindings n).1, Expr.map_fst_freshBindings,
      Expr.map_fst_renameBindingsIn]
    refine hinits.bind fun vs vs' hvs => ?_
    have hlen : (bindings.map (·.1)).length = vs.length := by
      rw [← hvs.1, List.length_map, List.length_map]
    refine hbody (bindAll_renamed .bind henv hvs.2 hlen hold') (hold'.enter _) ?_
    exact Renaming.closes_enter fun x hx hout => hclosed x (Expr.freeIn_letIn.2 (.inr ⟨hx, hout⟩))
  | letrec bindings body t _ _ => exact fun _ _ _ => .error (.same _)
  | fix members body t hmembers hbody =>
    intro r n env env' henv hold hclosed
    have hle : n + (members.map (·.name)).length ≤ (Expr.renameMembersIn
        (r.enter (members.map (·.name)) n) members (n + (members.map (·.name)).length)).2 :=
      (Expr.refreshes_members (fun m _ => Expr.refreshes m.body) _ _).1
    have hold' := (hold.enter (members.map (·.name))).mono hle
    refine hbody (.group henv hold fun m hm k => ?_) hold' ?_
    · refine Renaming.closes_enter fun x hx hout => ?_
      rw [Renaming.mem_map_fst_enter, or_assoc]
      by_cases hmem : x ∈ members.map (·.name)
      · exact .inl hmem
      · exact .inr (hclosed x (Expr.freeIn_fix.2 ⟨.inl ⟨m, hm, hx, hout⟩, hmem⟩))
    · exact Renaming.closes_enter fun x hx hout =>
        hclosed x (Expr.freeIn_fix.2 ⟨.inr hx, hout⟩)
  | seq items t hitems =>
    intro r n env env' henv hold hclosed
    exact agree_seq hitems henv hold fun e he x hx => hclosed x (Expr.freeIn_seq.2 ⟨e, he, hx⟩)

end

theorem callsAgree (n : Nat) : CallsAgree (call n : Caller α) (call n) := by
  -- on how deep calls may be nested: the body of a closure makes its calls one level further down
  induction n with
  | zero =>
    intro v v' vs vs' hv hvs
    cases hv with
    | lit v => exact .error (.same _)
    | prim p => exact agree_applyPrimitive p hvs
    | closure henv hold hbody => exact .error (.same _)
  | succ n ih =>
    intro v v' vs vs' hv hvs
    cases hv with
    | lit v => exact .error (.same _)
    | prim p => exact agree_applyPrimitive p hvs
    | closure henv hold hbody =>
      simp only [call, length_freshNames, ← hvs.length_eq]
      split
      · next hlen =>
        exact evalAgrees ih _ (bindAll_renamed .bind henv hvs hlen hold) (hold.enter _) hbody
      · exact .error (.same _)

/-! ### Whole trees -/

/-- The same literal, the same primitive, or procedures with as many parameters. -/
inductive Value.Alike : Value α → Value α → Prop where
  | lit (v : Literal) : Value.Alike (.lit v) (.lit v)
  | prim (p : Primitive) : Value.Alike (.prim p) (.prim p)
  | closure {params params' : List Name} {body body' : Expr α} {env env' : Env α}
      (h : params.length = params'.length) :
      Value.Alike (.closure params body env) (.closure params' body' env')

theorem Value.Renamed.alike {v v' : Value α} (h : Value.Renamed v v') : Value.Alike v v' := by
  cases h with
  | lit v => exact .lit v
  | prim p => exact .prim p
  | closure henv hold hbody => exact .closure (length_freshNames _ _).symm

end Eval

/-- A tree whose free names are primitive and its renamed form have the same value. -/
theorem Expr.eval_agrees_rename {α : Type} (e : Expr α)
    (hclosed : ∀ x ∈ e.free [], x ∈ Primitive.names) :
    Eval.Agree Eval.Value.Alike e.eval e.rename.eval := by
  have hcloses : Renaming.Closes [] e := fun x hx => .inr (hclosed x (mem_free.2 hx))
  have hold : Renaming.OlderThan [] 0 := nofun
  have hagrees := Eval.evalAgrees (Eval.callsAgree Eval.maxCallDepth) e .empty hold hcloses
  exact hagrees.imp fun v v' h => h.alike

/-- Binds `x` in nested binders and twice in one list, `f` as a member and as a parameter, and
names that look like generated ones. -/
def Expr.tangled : Expr Unit :=
  .app (.lambda ["x", "x"]
    (.letIn [("x.0", .app (.var "+" ()) [.var "x" (), .lit (.int 1) ()] ()), ("x", .var "x" ())]
      (.fix [⟨"f", (), ["f", "x.0"], .var "x.0" ()⟩,
          ⟨"f", (), ["-"], .app (.var "*" ()) [.var "-" (), .var "x.0" ()] ()⟩]
        (.app (.var "f" ()) [.app (.var "-" ()) [.var "x" (), .lit (.int 2) ()] ()] ()) ()) ()) ())
    [.lit (.int 3) (), .lit (.int 7) ()] ()

theorem Expr.eval_rename_tangled : (∀ x ∈ tangled.free [], x ∈ Primitive.names) ∧
    tangled.eval = .ok (.lit (.int 40)) ∧ tangled.rename.eval = .ok (.lit (.int 40)) := by
  have hclosed : ∀ x ∈ tangled.free [], x ∈ Primitive.names := by decide +kernel
  have heval : tangled.eval = .ok (.lit (.int 40)) := by rfl
  have hagrees := eval_agrees_rename tangled hclosed
  rw [heval] at hagrees
  generalize tangled.rename.eval = result at hagrees ⊢
  cases hagrees with
  | ok h =>
    cases h
    exact ⟨hclosed, heval, rfl⟩

end MiniScheme
