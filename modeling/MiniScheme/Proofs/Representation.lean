import MiniScheme.Proofs.Evaluation
import MiniScheme.Proofs.Poised

/-!
# Values in memory

When a value of the machine stands for a value of direct evaluation. A closure keeps its whole
environment; its machine counterpart keeps the values of the names that its body captures, and the
members of its group are found through the labels of their bodies.
-/

namespace MiniScheme

/-- The tree does not refer to the clock. -/
def Expr.Timeless (e : Expr Nat) : Prop :=
  ¬ e.FreeIn Primitive.time.name

namespace Expr.Timeless

variable {scope : List Name} {e body : Expr Nat} {t : Nat}

theorem cond {test yes no : Expr Nat} (h : (Expr.cond test yes no t).Timeless) :
    test.Timeless ∧ yes.Timeless ∧ no.Timeless :=
  ⟨fun hx => h (freeIn_cond.2 (.inl hx)), fun hx => h (freeIn_cond.2 (.inr (.inl hx))),
    fun hx => h (freeIn_cond.2 (.inr (.inr hx)))⟩

theorem lambda {params : List Name} (h : (Expr.lambda params body t).Timeless)
    (hnew : NewNames scope params) : body.Timeless :=
  fun hx => h (freeIn_lambda.2 ⟨hx, hnew.prim_notMem .time⟩)

theorem app {func : Expr Nat} {args : List (Expr Nat)} (h : (Expr.app func args t).Timeless) :
    func.Timeless ∧ ∀ e ∈ args, e.Timeless :=
  ⟨fun hx => h (freeIn_app.2 (.inl hx)), fun e he hx => h (freeIn_app.2 (.inr ⟨e, he, hx⟩))⟩

theorem letIn {bs : List (Name × Expr Nat)} (h : (Expr.letIn bs body t).Timeless)
    (hnew : NewNames scope (bs.map (·.1))) : (∀ b ∈ bs, b.2.Timeless) ∧ body.Timeless :=
  ⟨fun b hb hx => h (freeIn_letIn.2 (.inl ⟨b, hb, hx⟩)),
    fun hx => h (freeIn_letIn.2 (.inr ⟨hx, hnew.prim_notMem .time⟩))⟩

theorem fix {ms : List (Member Nat (Expr Nat))} (h : (Expr.fix ms body t).Timeless)
    (hfresh : (Expr.fix ms body t).Fresh scope) : (∀ m ∈ ms, m.body.Timeless) ∧ body.Timeless := by
  have hnew := hfresh.1.prim_notMem .time
  refine ⟨fun m hm hx => ?_, fun hx => h (freeIn_fix.2 ⟨.inr hx, hnew⟩)⟩
  have hparams := (freshMembers_iff.1 hfresh.2.1 m hm).1.prim_notMem .time
  exact h (freeIn_fix.2 ⟨.inl ⟨m, hm, hx, hparams⟩, hnew⟩)

theorem seq {es : List (Expr Nat)} (h : (Expr.seq es t).Timeless) : ∀ e ∈ es, e.Timeless :=
  fun e he hx => h (freeIn_seq.2 ⟨e, he, hx⟩)

theorem seq_tail {es : List (Expr Nat)} (h : (Expr.seq (e :: es) t).Timeless) :
    (Expr.seq es t).Timeless := by
  intro hx
  obtain ⟨e', he', hx⟩ := freeIn_seq.1 hx
  exact h (freeIn_seq.2 ⟨e', List.mem_cons_of_mem e he', hx⟩)

end Expr.Timeless

namespace Image

variable {M : Image}

/-- A value of the machine stands for a value of direct evaluation. -/
inductive Related (M : Image) : Eval.Value Nat → Value → Prop where
  | lit (v : Literal) : Related M (.lit v) (.lit v)
  | prim (p : Primitive) (h : p ≠ .time) : Related M (.prim p) (.prim p)
  | closure {params : List Name} {body : Expr Nat} {env : Eval.Env Nat} {a : Nat}
      {vs : List Value} (captured : List Name) (group : List (Name × Label)) (scope : List Name)
      (proc : M.Procedure captured group scope params body a) (timeless : body.Timeless)
      (notPrim : ∀ x ∈ captured ++ scope, Primitive.ofName? x = none)
      (bound : ∀ x d, env.find? x = some d → x ∈ scope)
      (members : ∀ x l, group.lookup x = some l → ∃ params' body' a',
        env.find? x = some (.closure params' body' env) ∧
          addressOf M.program.entries l = .ok a' ∧
          M.Procedure captured group scope params' body' a' ∧ body'.Timeless)
      (length : vs.length = captured.length)
      (values : ∀ (i : Nat) x d v, captured[i]? = some x → env.find? x = some d →
        vs[i]? = some v → Related M d v) :
      Related M (.closure params body env) (.closure a vs)

theorem Related.literal?_eq {d : Eval.Value Nat} {v : Value} (h : M.Related d v) :
    v.literal? = d.literal? := by
  cases h <;> rfl

theorem Related.isFalse_eq {d : Eval.Value Nat} {v : Value} (h : M.Related d v) :
    v.isFalse = d.isFalse := by
  cases h <;> rfl

/-- The machine is about to run the code of an expression in an environment. -/
abbrev PoisedIn (M : Image) (scope : List Name) (env : Eval.Env Nat) (target : Option TailTarget)
    (e : Expr Nat) (c : Config) (r : Resume) : Prop :=
  M.Poised scope env.find? M.Related target e c r

variable {scope : List Name} {env : Eval.Env Nat} {target : Option TailTarget} {c : Config}
  {r : Resume} {d : Eval.Value Nat} {v : Value} {args : List (Eval.Value Nat)} {ws : List Value}
  {t : Nat}

theorem extends_bindAll (hargs : List.Forall₂ M.Related args ws) (xs : List Name) :
    Extends env.find? (env.bindAll xs args).find? M.Related xs ws := by
  intro x d hd
  rcases Eval.Env.find?_bindAll_cases hd with hd | ⟨k, hx, hk⟩
  · exact .inl hd
  · obtain ⟨w, hw, hrel⟩ := getElem?_of_forall₂ hargs hk
    exact .inr ⟨k, w, hx, hw, hrel⟩

/-! ### Names, closures and groups -/

theorem Poised.related_var {x : Name} (h : M.PoisedIn scope env target (.var x t) c r)
    (htime : (Expr.var x t).Timeless) :
    ∃ v, M.program.Climbs 0 c (r.config v) ∧ ∀ d, env.lookup x = .ok d → M.Related d v := by
  obtain ⟨v, hclimb, hbound, hprim⟩ := h.var
  refine ⟨v, hclimb, fun d hd => ?_⟩
  unfold Eval.Env.lookup at hd
  cases hfind : env.find? x with
  | some d' =>
    rw [hfind] at hd
    cases hd
    exact hbound d hfind
  | none =>
    rw [hfind] at hd
    cases hp : Primitive.ofName? x with
    | none =>
      rw [hp] at hd
      exact nomatch hd
    | some p =>
      rw [hp] at hd
      cases hd
      rw [hprim p hp]
      obtain rfl := Primitive.name_of_ofName? hp
      refine .prim p ?_
      rintro rfl
      exact htime (Expr.freeIn_var.2 rfl)

theorem Poised.related_lambda {params : List Name} {body : Expr Nat}
    (h : M.PoisedIn scope env target (.lambda params body t) c r)
    (htime : (Expr.lambda params body t).Timeless) :
    ∃ v, M.program.Climbs (body.free (params ++ Primitive.names)).length c (r.config v) ∧
      M.Related (.closure params body env) v := by
  obtain ⟨a, vs, hclimb, hproc, hlen, hvalues⟩ := h.lambda
  refine ⟨.closure a vs, hclimb, .closure _ [] scope hproc (htime.lambda h.fresh.1) ?_ h.bound
    nofun hlen hvalues⟩
  exact List.forall_mem_append.2 ⟨fun x => Expr.notPrim_of_mem_free, h.notPrim⟩

/-- The closures of a group stand for its members. -/
theorem Poised.related_fix {ms : List (Member Nat (Expr Nat))} {body : Expr Nat}
    (h : M.PoisedIn scope env target (.fix ms body t) c r)
    (htime : (Expr.fix ms body t).Timeless) :
    ∃ (k : Nat) (v : Value) (ws : List Value),
      M.program.Climbs (Frame.groupClimb (capturedBy ms).length ms.length) c
        (c.after k v ws.reverse) ∧ ms.length = ws.length ∧
      M.PoisedIn (ms.map (·.name) ++ scope) (.group ms env) (target.map (·.deeper ms.length)) body
        (c.after k v ws.reverse) r := by
  obtain ⟨k, v, ws, hclimb, hlen, hprocs, hws, hbody⟩ := h.fix
  have hnew := h.fresh.1
  have htimes := (htime.fix h.fresh).1
  have hrelated {m : Member Nat (Expr Nat)} (hm : m ∈ ms) {a : Nat} {vs : List Value}
      (ha : addressOf M.program.entries ⟨m.tag⟩ = .ok a)
      (hvs : Captures (capturedBy ms) env.find? M.Related vs) :
      M.Related (.closure m.params m.body (.group ms env)) (.closure a vs) := by
    obtain ⟨a', ha', hproc⟩ := hprocs m hm
    rw [ha] at ha'
    cases ha'
    have hnotPrim := notPrim_of_mem_captured h.notPrim hnew
    refine .closure _ _ _ hproc (htimes m hm) hnotPrim ?_ ?_ hvs.1 ?_
    · intro x d hd
      rcases Eval.Env.find?_group_cases hd with ⟨m', hm', rfl, _⟩ | ⟨_, hd⟩
      · exact List.mem_append_left scope (List.mem_map_of_mem hm')
      · exact List.mem_append_right _ (h.bound x d hd)
    · intro x l hl
      obtain ⟨m', hm', rfl, rfl⟩ := mem_of_lookup_groupLabels hl
      obtain ⟨a', ha', hproc'⟩ := hprocs m' hm'
      exact ⟨m'.params, m'.body, a', Eval.Env.find?_group_of_mem hnew.nodup hm', ha', hproc',
        htimes m' hm'⟩
    · intro i x d w hx hd hw
      have hmem := List.mem_of_getElem? hx
      rw [Eval.Env.find?_group_of_notMem (Expr.notMem_and_notPrim_of_mem_freeMembers hmem).1] at hd
      exact hvs.2 i x d w hx hd hw
  refine ⟨k, v, ws, hclimb, hlen, hbody _ fun x d hd => ?_⟩
  rcases Eval.Env.find?_group_cases hd with ⟨m, hm, rfl, rfl⟩ | ⟨_, hd⟩
  · obtain ⟨i, hi⟩ := List.getElem?_of_mem hm
    obtain ⟨a, vs, hw, ha, hvs⟩ := hws i m hi
    exact .inr ⟨i, _, by simp [hi], hw, hrelated hm ha hvs⟩
  · exact .inl hd

/-! ### Calls -/

/-- A call enters a closure in one move, and its body is run with its parameters bound. -/
theorem Calls.enter {params : List Name} {body : Expr Nat} (h : M.Calls c v ws r)
    (hd : M.Related (.closure params body env) v) (hargs : List.Forall₂ M.Related args ws)
    (hlen : params.length = args.length) :
    ∃ c' scope target, M.program.Moves c c' ∧ c'.cells = c.cells ∧ body.Timeless ∧
      M.PoisedIn scope (env.bindAll params args) target body c' r := by
  obtain ⟨⟨is, hcode⟩, hacc, hcells⟩ := h
  have hws : ws.length = params.length := by rw [hlen, hargs.length_eq]
  cases hd with
  | @closure _ _ _ a vs captured group scope proc timeless notPrim bound members length values =>
  have hin : (Frame.ofProcedure params captured group).Holds M.program (params ++ scope)
      (env.bindAll params args).find? M.Related
      ⟨c.acc, a, c.cells.length, a, vs, c.cells⟩ := by
    refine Frame.holds_entered proc.newParams notPrim bound hws hcells rfl length values ?_
      (extends_bindAll hargs params)
    intro x l a' d hl ha' hd
    obtain ⟨params', body', a'', hfind, ha'', hproc, htimeless⟩ := members x l hl
    rw [hd] at hfind
    cases hfind
    rw [ha'] at ha''
    cases ha''
    exact .closure captured group scope hproc htimeless notPrim bound members length values
  obtain ⟨target, hpoised⟩ := proc.poised hin rfl hws hcells
  exact ⟨_, _, target, Program.moves_apply_closure hcode hacc, rfl, timeless, hpoised⟩

theorem literals_of_operands {p : Primitive} {ls : List Literal}
    (h : Eval.operands p args = .ok ls) (hargs : List.Forall₂ M.Related args ws) :
    ws = ls.map .lit := by
  induction hargs generalizing ls with
  | nil =>
    simp only [Eval.operands, Except.ok.injEq] at h
    subst h
    rfl
  | @cons d w ds ws hd _ ih =>
    simp only [Eval.operands] at h
    cases hl : d.literal? with
    | none =>
      rw [hl] at h
      exact absurd h (by simp)
    | some l =>
      rw [hl] at h
      obtain ⟨ls', hls', rfl⟩ := Results.map_eq_ok_iff.1 h
      cases hd with
      | lit v =>
        cases hl
        rw [ih hls']
        rfl
      | prim p _ => exact absurd hl (by simp [Eval.Value.literal?])
      | closure => exact absurd hl (by simp [Eval.Value.literal?])

theorem notLiteral_of_operands {p : Primitive} {e : Error} (h : Eval.operands p args = .error e)
    (hargs : List.Forall₂ M.Related args ws) : ∃ w ∈ ws, w.literal? = none := by
  induction hargs with
  | nil => simp [Eval.operands] at h
  | @cons d w ds ws hd _ ih =>
    simp only [Eval.operands] at h
    cases hl : d.literal? with
    | none => exact ⟨w, List.mem_cons_self .., hd.literal?_eq.trans hl⟩
    | some l =>
      rw [hl] at h
      obtain ⟨w', hmem, hw'⟩ := ih (Results.map_eq_error_iff.1 h)
      exact ⟨w', List.mem_cons_of_mem _ hmem, hw'⟩

/-- A call of a primitive returns what the primitive gives, or traps. -/
theorem Calls.applyPrimitive {p : Primitive} (h : M.Calls c (.prim p) ws r) (hp : p ≠ .time)
    (hargs : List.Forall₂ M.Related args ws) :
    (∃ l, Eval.applyPrimitive p args = .ok (.lit l) ∧ M.program.Moves c (r.config (.lit l))) ∨
      ∃ e, Eval.applyPrimitive p args = .error e ∧
        (args.length = p.arity → M.program.Traps c) := by
  obtain ⟨⟨is, hcode⟩, hacc, hcells⟩ := h
  have htraps (hlen : args.length = p.arity) (hbad : (∃ w ∈ ws, w.literal? = none) ∨
      ∃ ls t, ws = ls.map .lit ∧ p.apply ls 0 = .error t) : M.program.Traps c := by
    refine Program.traps_apply_prim hcode hacc hp hcells ?_ hbad
    rw [← hargs.length_eq, hlen]
  cases hops : Eval.operands p args with
  | error e =>
    refine .inr ⟨e, by simp [Eval.applyPrimitive, hops, bind, Except.bind], fun hlen => ?_⟩
    exact htraps hlen (.inl (notLiteral_of_operands hops hargs))
  | ok ls =>
    obtain rfl := literals_of_operands hops hargs
    cases happly : p.apply ls 0 with
    | error t =>
      refine .inr ⟨.trap t, ?_, fun hlen => htraps hlen (.inr ⟨ls, t, rfl, happly⟩)⟩
      simp [Eval.applyPrimitive, hops, bind, Except.bind, happly, throw, throwThe,
        MonadExceptOf.throw]
    | ok l =>
      refine .inl ⟨l, ?_, Program.moves_apply_prim hcode hacc hp hcells happly⟩
      simp [Eval.applyPrimitive, hops, bind, Except.bind, happly, pure, Except.pure]

end Image

end MiniScheme
