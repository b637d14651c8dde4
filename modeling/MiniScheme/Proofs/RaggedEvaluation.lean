import MiniScheme.Proofs.EvenTrees
import MiniScheme.Proofs.Evaluation
import MiniScheme.Ragged.Eval

/-!
# Evaluation of ragged trees

A tree with paired names and values is evaluated as before. In general a program panics only where
some binding form has fewer values than names; and as before, the limit on nested calls only cuts
evaluations off.
-/

namespace MiniScheme

open Results

variable {α : Type}

/-! ### Even trees -/

namespace Eval

mutual
/-- A value with the tree of its procedure taken apart. -/
def Value.ragged : Value α → Ragged.Value α
  | .lit v => .lit v
  | .closure params body env => .closure params body.ragged (Env.ragged env)
  | .prim p => .prim p
termination_by structural v => v

def Env.ragged : Env α → Ragged.Env α
  | .empty => .empty
  | .bind x v rest => .bind x (Value.ragged v) (Env.ragged rest)
  | .group ms rest => .group (ms.map (·.name)) (Expr.raggedMembers ms) (Env.ragged rest)
termination_by structural env => env
end

/-- The same outcome, with the result changed by `g`. -/
def reported {β γ : Type} (g : β → γ) (r : Except Error β) : Except Fault γ :=
  (r.map g).mapError .error

theorem reported_bind {β β' γ γ' : Type} {g : β → γ} {g' : β' → γ'} {r : Except Error β}
    {k : β → Except Error β'} {k' : γ → Except Fault γ'}
    (h : ∀ b, r = .ok b → reported g' (k b) = k' (g b)) :
    reported g' (r >>= k) = reported g r >>= k' := by
  cases r with
  | error err => rfl
  | ok b => exact h b rfl

theorem Value.isFalse_ragged (v : Value α) : v.ragged.isFalse = v.isFalse := by
  cases v <;> rfl

theorem Env.bindAll_ragged (env : Env α) {xs : List Name} {vs : List (Value α)}
    (h : xs.length = vs.length) :
    env.ragged.bindAll xs (vs.map Value.ragged) = (env.bindAll xs vs).ragged := by
  induction xs generalizing env vs with
  | nil =>
    obtain rfl := List.eq_nil_of_length_eq_zero h.symm
    rfl
  | cons x xs ih =>
    cases vs with
    | nil => cases h
    | cons v vs => exact ih (env.bind x v) (Nat.succ.inj h)

theorem findProc?_members (ms : List (Member α (Expr α))) (x : Name) :
    Ragged.findProc? (ms.map (·.name)) (Expr.raggedMembers ms) x =
      (ms.reverse.find? (·.name = x)).map fun m => some ⟨m.params, m.body.ragged⟩ := by
  induction ms with
  | nil => rfl
  | cons m ms ih =>
    rw [List.reverse_cons, List.find?_append, Expr.raggedMembers, List.map_cons,
      Ragged.findProc?, List.tail_cons, ih]
    cases ms.reverse.find? (·.name = x) with
    | some m' => rfl
    | none =>
      by_cases hx : m.name = x <;> simp [hx]

theorem Env.lookup_ragged : ∀ (env : Env α) (x : Name),
    env.ragged.lookup x = reported Value.ragged (env.lookup x)
  | .empty, x => by
    simp only [ragged, Ragged.Env.lookup, lookup, find?]
    cases Primitive.ofName? x <;> rfl
  | .bind y v rest, x => by
    have hrest := lookup_ragged rest x
    by_cases hy : y = x
    · simp [ragged, Ragged.Env.lookup, lookup, find?, hy]
      rfl
    · simpa [ragged, Ragged.Env.lookup, lookup, find?, hy] using hrest
  | .group ms rest, x => by
    have hrest := lookup_ragged rest x
    simp only [ragged, Ragged.Env.lookup, lookup, find?, findProc?_members]
    cases ms.reverse.find? (·.name = x) with
    | some m => rfl
    | none => simpa [lookup] using hrest

section

variable {f : Caller α} {f' : Ragged.Caller α}

/-- The tree that was taken apart has the outcome of the tree, in every environment. -/
def RaggedAlike (f : Caller α) (f' : Ragged.Caller α) (e : Expr α) : Prop :=
  ∀ env : Env α, Ragged.evalWith f' env.ragged e.ragged = reported Value.ragged (evalWith f env e)

theorem raggedAlike_list {es : List (Expr α)} (hes : ∀ e ∈ es, RaggedAlike f f' e) (env : Env α) :
    Ragged.evalListWith f' env.ragged (Expr.raggedList es) =
      reported (List.map Value.ragged) (evalListWith f env es) := by
  induction es with
  | nil => rfl
  | cons e es ih =>
    obtain ⟨he, hes⟩ := List.forall_mem_cons.1 hes
    rw [Expr.raggedList, Ragged.evalListWith, he env, ih hes, evalListWith]
    refine (reported_bind fun v _ => ?_).symm
    exact reported_bind fun vs _ => rfl

theorem raggedAlike_seq {es : List (Expr α)} (hes : ∀ e ∈ es, RaggedAlike f f' e) (env : Env α) :
    Ragged.evalSeqWith f' env.ragged (Expr.raggedList es) =
      reported Value.ragged (evalSeqWith f env es) := by
  induction es with
  | nil => rfl
  | cons e es ih =>
    obtain ⟨he, hes⟩ := List.forall_mem_cons.1 hes
    cases es with
    | nil => exact he env
    | cons e' es =>
      have hrest := ih hes
      rw [Expr.raggedList] at hrest
      rw [Expr.raggedList, Expr.raggedList, Ragged.evalSeqWith, he env, hrest, evalSeqWith]
      refine (reported_bind fun v _ => ?_).symm
      rfl

theorem raggedAlike (hf : ∀ v args, f' v.ragged (args.map Value.ragged) =
    reported Value.ragged (f v args)) (e : Expr α) : RaggedAlike f f' e := by
  induction e with
  | lit v t => exact fun env => rfl
  | var x t => exact fun env => env.lookup_ragged x
  | cond test yes no t htest hyes hno =>
    intro env
    rw [Expr.ragged, Ragged.evalWith, htest env, evalWith]
    refine (reported_bind fun v _ => ?_).symm
    rw [Value.isFalse_ragged]
    cases v.isFalse with
    | true => exact (hno env).symm
    | false => exact (hyes env).symm
  | lambda params body t _ => exact fun env => rfl
  | assign x value t _ => exact fun env => rfl
  | app func args t hfunc hargs =>
    intro env
    rw [Expr.ragged, Ragged.evalWith, hfunc env, raggedAlike_list hargs env, evalWith]
    refine (reported_bind fun v _ => ?_).symm
    refine reported_bind fun vs _ => ?_
    exact (hf v vs).symm
  | letIn bindings body t hbindings hbody =>
    intro env
    have hinits := raggedAlike_list (List.forall_mem_map.2 hbindings) env
    rw [Expr.ragged, Expr.raggedBindings_eq_raggedList, Ragged.evalWith, hinits, evalWith_letIn]
    refine (reported_bind fun vs hvs => ?_).symm
    have hlen : (bindings.map (·.1)).length = vs.length := by
      rw [length_of_evalListWith hvs, List.length_map, List.length_map]
    rw [Env.bindAll_ragged env hlen]
    exact (hbody _).symm
  | letrec bindings body t _ _ => exact fun env => rfl
  | fix members body t _ hbody => exact fun env => hbody (.group members env)
  | seq items t hitems => exact fun env => raggedAlike_seq hitems env

end

theorem operands_ragged (p : Primitive) (args : List (Value α)) :
    Ragged.operands p (args.map Value.ragged) = reported id (operands p args) := by
  induction args with
  | nil => rfl
  | cons v vs ih =>
    have hliteral : v.ragged.literal? = v.literal? := by cases v <;> rfl
    have htext : v.ragged.text = v.text := by cases v <;> rfl
    rw [List.map_cons, Ragged.operands, hliteral, htext, ih, operands]
    cases v.literal? with
    | none => rfl
    | some l => cases operands p vs <;> rfl

theorem applyPrimitive_ragged (p : Primitive) (args : List (Value α)) :
    Ragged.applyPrimitive p (args.map Value.ragged) =
      reported Value.ragged (applyPrimitive p args) := by
  rw [Ragged.applyPrimitive, operands_ragged, applyPrimitive]
  refine (reported_bind fun ls _ => ?_).symm
  rw [id]
  cases p.apply ls 0 <;> rfl

theorem call_ragged (n : Nat) (v : Value α) (args : List (Value α)) :
    Ragged.call n v.ragged (args.map Value.ragged) = reported Value.ragged (call n v args) := by
  induction n generalizing v args with
  | zero =>
    cases v with
    | lit l => rfl
    | prim p => exact applyPrimitive_ragged p args
    | closure params body env => rfl
  | succ n ih =>
    cases v with
    | lit l => rfl
    | prim p => exact applyPrimitive_ragged p args
    | closure params body env =>
      by_cases hlen : params.length = args.length
      · simp only [Value.ragged, Ragged.call, call, List.length_map, if_pos hlen,
          Env.bindAll_ragged env hlen]
        exact raggedAlike ih body _
      · simp only [Value.ragged, Ragged.call, call, List.length_map, if_neg hlen]
        rfl

/-- A tree with paired names and values has one outcome, however it is written down. -/
theorem evalIn_ragged (depth : Nat) (env : Env α) (e : Expr α) :
    Ragged.evalIn depth env.ragged e.ragged = reported Value.ragged (evalIn depth env e) :=
  raggedAlike (call_ragged _) e env

end Eval

/-! ### The limit on nested calls -/

namespace Ragged

/-- A call nested too deep. -/
def tooDeep : Fault :=
  .error Eval.tooDeep

section

variable {f f' : Caller α}

theorem cutOff_list {es : List (Ragged α)}
    (hes : ∀ e ∈ es, ∀ env, CutOff tooDeep (evalWith f env e) (evalWith f' env e)) (env : Env α) :
    CutOff tooDeep (evalListWith f env es) (evalListWith f' env es) := by
  induction es with
  | nil => exact .refl _
  | cons e es ih =>
    obtain ⟨he, hes⟩ := List.forall_mem_cons.1 hes
    exact (he env).bind fun v => (ih hes).bind fun vs => .refl _

theorem cutOff_seq {es : List (Ragged α)}
    (hes : ∀ e ∈ es, ∀ env, CutOff tooDeep (evalWith f env e) (evalWith f' env e)) (env : Env α) :
    CutOff tooDeep (evalSeqWith f env es) (evalSeqWith f' env es) := by
  induction es with
  | nil => exact .refl _
  | cons e es ih =>
    obtain ⟨he, hes⟩ := List.forall_mem_cons.1 hes
    cases es with
    | nil => exact he env
    | cons e' es => exact (he env).bind fun _ => ih hes

theorem cutOff_evalWith (h : ∀ v args, CutOff tooDeep (f v args) (f' v args)) (e : Ragged α)
    (env : Env α) : CutOff tooDeep (evalWith f env e) (evalWith f' env e) := by
  induction e generalizing env with
  | lit v t => exact .refl _
  | var x t => exact .refl _
  | cond test yes no t htest hyes hno =>
    refine (htest env).bind fun v => ?_
    cases v.isFalse with
    | true => exact hno env
    | false => exact hyes env
  | lambda params body t _ => exact .refl _
  | assign x value t _ => exact .refl _
  | app func args t hfunc hargs =>
    exact (hfunc env).bind fun d => (cutOff_list hargs env).bind fun ds => h d ds
  | letIn names inits body t hinits hbody =>
    exact (cutOff_list hinits env).bind fun ds => hbody _
  | letrec names inits body t _ _ => exact .refl _
  | fix names ts procs body t _ hbody => exact hbody _
  | seq items t hitems => exact cutOff_seq hitems env

end

theorem cutOff_call (n : Nat) (v : Value α) (args : List (Value α)) :
    CutOff tooDeep (call n v args) (call (n + 1) v args) := by
  induction n generalizing v args with
  | zero =>
    cases v with
    | lit l => exact .refl _
    | prim p => exact .refl _
    | closure params body env => exact .inl rfl
  | succ n ih =>
    cases v with
    | lit l => exact .refl _
    | prim p => exact .refl _
    | closure params body env =>
      by_cases hlen : params.length = args.length
      · simp only [call, if_pos hlen]
        exact cutOff_evalWith ih body _
      · simp only [call, if_neg hlen]
        exact .refl _

/-- Whether the root node has a value for each name that it binds, if it binds names in order to
evaluate them. -/
def isFilled : Ragged α → Bool
  | letIn names inits _ _ => names.length ≤ inits.length
  | fix names _ procs _ _ => names.length ≤ procs.length
  | _ => true

mutual
/-- No procedure inside a value has a binding form with fewer values than names. -/
def Value.Filled : Value α → Prop
  | .lit _ => True
  | .closure _ body env => body.all isFilled = true ∧ Env.Filled env
  | .prim _ => True
termination_by structural v => v

/-- All names in scope have values, and these are filled. -/
def Env.Filled : Env α → Prop
  | .empty => True
  | .bind _ v rest => Value.Filled v ∧ Env.Filled rest
  | .vacant _ _ => False
  | .group names procs rest =>
    names.length ≤ procs.length ∧ (∀ p ∈ procs, p.body.all isFilled = true) ∧ Env.Filled rest
termination_by structural env => env
end

theorem Env.Filled.bindAll {env : Env α} (henv : env.Filled) {xs : List Name}
    {vs : List (Value α)} (hvs : ∀ v ∈ vs, v.Filled) (h : xs.length ≤ vs.length) :
    (env.bindAll xs vs).Filled := by
  induction xs generalizing env vs with
  | nil => exact henv
  | cons x xs ih =>
    cases vs with
    | nil => cases h
    | cons v vs =>
      obtain ⟨hv, hvs⟩ := List.forall_mem_cons.1 hvs
      exact ih (show (bind x v env).Filled from ⟨hv, henv⟩) hvs (Nat.le_of_succ_le_succ h)

theorem findProc?_of_le {names : List Name} {procs : List (Procedure (Ragged α))}
    (h : names.length ≤ procs.length) {x : Name} {r : Option (Procedure (Ragged α))}
    (hfind : findProc? names procs x = some r) : ∃ p ∈ procs, r = some p := by
  induction names generalizing procs with
  | nil => cases hfind
  | cons y ys ih =>
    cases procs with
    | nil => cases h
    | cons p ps =>
      rw [findProc?, List.tail_cons] at hfind
      cases hrest : findProc? ys ps x with
      | some r' =>
        rw [hrest] at hfind
        cases hfind
        obtain ⟨q, hq, rfl⟩ := ih (Nat.le_of_succ_le_succ h) hrest
        exact ⟨q, List.mem_cons_of_mem _ hq, rfl⟩
      | none =>
        rw [hrest] at hfind
        simp only [List.head?_cons, Option.ite_none_right_eq_some, Option.some.injEq] at hfind
        exact ⟨p, List.mem_cons_self .., hfind.2.symm⟩

/-- The outcome is a filled value or an error that is reported. -/
abbrev Calm (r : Except Fault (Value α)) : Prop :=
  EndsIn (· ≠ .panic) Value.Filled r

theorem calm_error (err : Error) : Calm (.error (.error err) : Except Fault (Value α)) :=
  .error nofun

theorem Env.Filled.lookup : ∀ {env : Env α}, env.Filled → ∀ x, Calm (env.lookup x)
  | .empty, _, x => by
    rw [Env.lookup]
    cases Primitive.ofName? x with
    | some p => exact .ok trivial
    | none => exact calm_error _
  | .bind y v rest, henv, x => by
    rw [Env.lookup]
    split
    · exact .ok henv.1
    · exact henv.2.lookup x
  | .group names procs rest, henv, x => by
    rw [Env.lookup]
    cases hfind : findProc? names procs x with
    | none => exact henv.2.2.lookup x
    | some r =>
      obtain ⟨p, hp, rfl⟩ := findProc?_of_le henv.1 hfind
      exact .ok ⟨henv.2.1 p hp, henv⟩

section

variable {f : Caller α}

end

theorem failsIn_operands (p : Primitive) (args : List (Value α)) :
    FailsIn (· ≠ .panic) (operands p args) := by
  have hreported (err : Error) : Fault.error err ≠ .panic := nofun
  induction args with
  | nil => exact .ok _
  | cons v vs ih =>
    rw [operands]
    cases v.literal? with
    | none => exact .error (hreported _)
    | some l => exact ih.map

end Ragged

end MiniScheme
