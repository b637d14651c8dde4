import MiniScheme.Proofs.Representation

/-!
# Running generated code

The machine follows direct evaluation: where evaluation gives a value, the generated code leads
to a value that stands for it, and where evaluation fails without having gone wrong, the code
gives no result within as many instructions as calls may be nested. Evaluation and code compute
operands in opposite orders, which makes no difference to whether there is a result.
-/

namespace MiniScheme

namespace Image

open Eval

variable {M : Image} {strict : Prop} {n : Nat} {D D' : Type}

/-- From a configuration on, the machine follows a computation: it reaches a configuration for
its result, and if the computation fails, it gives no result within `n` instructions. The latter
is only asked for if `strict`. -/
structure Follows (M : Image) (strict : Prop) (n : Nat) (r : Except Error D) (c : Config)
    (Q : D → Config → Prop) : Prop where
  ok : ∀ d, r = .ok d → ∃ c', M.program.Reaches c c' ∧ Q d c'
  error : ∀ e, r = .error e → strict → M.program.Unfinished n c

theorem follows_ok {c c' : Config} {d : D} {Q : D → Config → Prop}
    (hreach : M.program.Reaches c c') (hQ : Q d c') : M.Follows strict n (.ok d) c Q := by
  refine ⟨?_, nofun⟩
  rintro _ ⟨⟩
  exact ⟨c', hreach, hQ⟩

theorem follows_error {c : Config} {e : Error} {Q : D → Config → Prop}
    (h : strict → M.program.Unfinished n c) : M.Follows strict n (.error e) c Q := by
  refine ⟨?_, fun _ _ hs => h hs⟩
  rintro _ ⟨⟩

theorem Follows.of_reaches {r : Except Error D} {c c' : Config} {Q : D → Config → Prop}
    (h : M.Follows strict n r c' Q) (hreach : M.program.Reaches c c') :
    M.Follows strict n r c Q := by
  refine ⟨fun d hd => ?_, fun e he hs => (h.error e he hs).of_reaches hreach⟩
  obtain ⟨c'', hreach', hQ⟩ := h.ok d hd
  exact ⟨c'', hreach.trans hreach', hQ⟩

/-- The instruction that enters a procedure pays for one level of nesting. -/
theorem Follows.of_moves {r : Except Error D} {c c' : Config} {Q : D → Config → Prop}
    (h : M.Follows strict n r c' Q) (hmove : M.program.Moves c c') :
    M.Follows strict (n + 1) r c Q := by
  refine ⟨fun d hd => ?_, fun e he hs => (h.error e he hs).of_moves hmove⟩
  obtain ⟨c'', hreach, hQ⟩ := h.ok d hd
  exact ⟨c'', .head hmove hreach, hQ⟩

theorem Follows.bind {r : Except Error D} {k : D → Except Error D'} {c : Config}
    {P : D → Config → Prop} {Q : D' → Config → Prop} (h : M.Follows strict n r c P)
    (hk : ∀ d c', r = .ok d → P d c' → M.Follows strict n (k d) c' Q) :
    M.Follows strict n (r >>= k) c Q := by
  cases r with
  | error e => exact follows_error (h.error e rfl)
  | ok d =>
    obtain ⟨c', hreach, hP⟩ := h.ok d rfl
    exact (hk d c' rfl hP).of_reaches hreach

/-- Two operands may be followed in either order. -/
theorem Follows.swap {D'' : Type} {r : Except Error D} {r' : Except Error D'}
    {k : D → D' → Except Error D''} {c : Config} {Q : D'' → Config → Prop}
    (h : M.Follows strict n (r' >>= fun d' => r >>= fun d => k d d') c Q) :
    M.Follows strict n (r >>= fun d => r' >>= fun d' => k d d') c Q := by
  cases r with
  | ok d => cases r' <;> exact h
  | error e =>
    cases r' with
    | ok d' => exact h
    | error e' => exact follows_error (h.error e' rfl)

/-- A configuration behind a call or an expression, with a value for its result. -/
def Returns (M : Image) (r : Resume) (d : Eval.Value Nat) (c : Config) : Prop :=
  ∃ v, M.Related d v ∧ c = r.config v

/-- A run that returns goes on with what leads on from there. -/
theorem Follows.of_returns {x : Except Error (Eval.Value Nat)} {c : Config} {r r' : Resume}
    (h : M.Follows strict n x c (M.Returns r'))
    (hreach : ∀ v, M.program.Reaches (r'.config v) (r.config v)) :
    M.Follows strict n x c (M.Returns r) := by
  refine ⟨fun d hd => ?_, h.error⟩
  obtain ⟨_, hreach', v, hv, rfl⟩ := h.ok d hd
  exact ⟨_, hreach'.trans (hreach v), v, hv, rfl⟩

/-- The code of an expression follows its evaluation, in every frame and every context. -/
def Simulated (M : Image) (strict : Prop) (n : Nat) (e : Expr Nat) : Prop :=
  ∀ {scope : List Name} {env : Env Nat} {target : Option TailTarget} {c : Config} {r : Resume},
    M.PoisedIn scope env target e c r → e.Timeless →
    (strict → Safe (call n) (Ready n) env e) →
    M.Follows strict n (evalWith (call n) env e) c (M.Returns r)

/-- Calls follow their evaluation. -/
def CallsSimulated (M : Image) (strict : Prop) (n : Nat) : Prop :=
  ∀ {d : Eval.Value Nat} {args : List (Eval.Value Nat)} {v : Value} {ws : List Value} {c : Config}
    {r : Resume}, M.Calls c v ws r → M.Related d v → List.Forall₂ M.Related args ws →
    (strict → Ready n d args) → M.Follows strict n (call n d args) c (M.Returns r)

variable {scope : List Name} {env : Env Nat} {c : Config} {r : Resume} {e : Expr Nat} {t : Nat}

/-! ### Atoms and procedures -/

theorem simulated_lit (v : Literal) (t : Nat) : M.Simulated strict n (.lit v t) := by
  intro scope env target c r h _ _
  exact follows_ok h.lit.reaches ⟨.lit v, .lit v, rfl⟩

theorem simulated_var (x : Name) (t : Nat) : M.Simulated strict n (.var x t) := by
  intro scope env target c r h htime hsafe
  obtain ⟨v, hclimb, hrelated⟩ := h.related_var htime
  refine ⟨fun d hd => ⟨_, hclimb.reaches, v, hrelated d hd, rfl⟩, fun e he hs => ?_⟩
  obtain ⟨d, hd⟩ := hsafe hs
  simp only [evalWith, hd] at he
  cases he

theorem simulated_lambda (params : List Name) (body : Expr Nat) (t : Nat) :
    M.Simulated strict n (.lambda params body t) := by
  intro scope env target c r h htime _
  obtain ⟨v, hclimb, hrelated⟩ := h.related_lambda htime
  exact follows_ok hclimb.reaches ⟨v, hrelated, rfl⟩

/-! ### Branches and sequences -/

theorem simulated_cond {test yes no : Expr Nat} (htest : M.Simulated strict n test)
    (hyes : M.Simulated strict n yes) (hno : M.Simulated strict n no) (t : Nat) :
    M.Simulated strict n (.cond test yes no t) := by
  intro scope env target c r h htime hsafe
  obtain ⟨htimeTest, htimeYes, htimeNo⟩ := htime.cond
  obtain ⟨k, hpoised, hbranch⟩ := h.cond
  refine (htest hpoised htimeTest fun hs => (hsafe hs).1).bind ?_
  rintro d c' hd ⟨v, hv, rfl⟩
  obtain ⟨m, hclimb, hpoised'⟩ := hbranch v
  rw [hv.isFalse_eq] at hpoised'
  refine Follows.of_reaches ?_ hclimb.reaches
  cases hfalse : d.isFalse with
  | true =>
    rw [hfalse] at hpoised'
    refine hno hpoised' htimeNo fun hs => ?_
    have hsafeNo := (hsafe hs).2 d hd
    rwa [hfalse] at hsafeNo
  | false =>
    rw [hfalse] at hpoised'
    refine hyes hpoised' htimeYes fun hs => ?_
    have hsafeYes := (hsafe hs).2 d hd
    rwa [hfalse] at hsafeYes

theorem simulated_seq {items : List (Expr Nat)} (hitems : ∀ e ∈ items, M.Simulated strict n e)
    (t : Nat) : M.Simulated strict n (.seq items t) := by
  induction items with
  | nil => exact fun h => absurd h not_poised_seq_nil
  | cons e es ih =>
    obtain ⟨he, hes⟩ := List.forall_mem_cons.1 hitems
    intro scope env target c r h htime hsafe
    have htimeFirst := htime.seq e (List.mem_cons_self ..)
    cases es with
    | nil => exact he h.seq_one htimeFirst hsafe
    | cons e' es =>
      obtain ⟨k, hpoised, hrest⟩ := h.seq_cons
      refine (he hpoised htimeFirst fun hs => (hsafe hs).1).bind ?_
      rintro d c' hd ⟨v, hv, rfl⟩
      exact ih hes (hrest v) htime.seq_tail fun hs => (hsafe hs).2

/-! ### Calls -/

theorem simulated_args {es : List (Expr Nat)} (hes : ∀ e ∈ es, M.Simulated strict n e) {k : Nat}
    (h : M.PoisedArgs scope env.find? M.Related es c k) (htime : ∀ e ∈ es, e.Timeless)
    (hsafe : strict → SafeList (call n) (Ready n) env es) :
    M.Follows strict n (evalListWith (call n) env es) c
      (fun ds c' => ∃ v ws, List.Forall₂ M.Related ds ws ∧ c' = c.after k v ws) := by
  induction es generalizing k with
  | nil =>
    obtain rfl := h.nil
    exact follows_ok .refl ⟨c.acc, [], .nil, rfl⟩
  | cons e es ih =>
    obtain ⟨he, hes⟩ := List.forall_mem_cons.1 hes
    obtain ⟨htimeFirst, htime⟩ := List.forall_mem_cons.1 htime
    obtain ⟨m, hrest, hfirst⟩ := h.cons
    refine Follows.swap ((ih hes hrest htime fun hs => (hsafe hs).2).bind ?_)
    rintro ds c' hds ⟨v, ws, hws, rfl⟩
    obtain ⟨j, hpoised, hpush⟩ :=
      hfirst v ws ((length_of_evalListWith hds).symm.trans hws.length_eq)
    refine (he hpoised htimeFirst fun hs => (hsafe hs).1).bind ?_
    rintro d c' hd ⟨w, hw, rfl⟩
    exact follows_ok (hpush w).reaches ⟨w, w :: ws, .cons hw hws, rfl⟩

theorem simulated_call {func : Expr Nat} {args : List (Expr Nat)}
    (hcalls : M.CallsSimulated strict n) (hfunc : M.Simulated strict n func)
    (hargs : ∀ e ∈ args, M.Simulated strict n e)
    (h : M.PoisedCall scope env.find? M.Related func args c r)
    (htime : (Expr.app func args t).Timeless)
    (hsafe : strict → Safe (call n) (Ready n) env (.app func args t)) :
    M.Follows strict n (evalWith (call n) env (.app func args t)) c (M.Returns r) := by
  obtain ⟨htimeFunc, htimeArgs⟩ := htime.app
  obtain ⟨k, hposedArgs, hrest⟩ := h.run
  refine Follows.swap ?_
  refine (simulated_args hargs hposedArgs htimeArgs fun hs => (hsafe hs).2.1).bind ?_
  rintro ds c' hds ⟨v, ws, hws, rfl⟩
  obtain ⟨j, hpoised, hcall⟩ := hrest v ws ((length_of_evalListWith hds).symm.trans hws.length_eq)
  refine (hfunc hpoised htimeFunc fun hs => (hsafe hs).1).bind ?_
  rintro d c' hd ⟨w, hw, rfl⟩
  obtain ⟨c', hclimb, hcalled⟩ := hcall w
  refine Follows.of_reaches ?_ hclimb.reaches
  exact hcalls hcalled hw hws fun hs => (hsafe hs).2.2 d ds hd hds

theorem simulated_app {func : Expr Nat} {args : List (Expr Nat)}
    (hcalls : M.CallsSimulated strict n) (hfunc : M.Simulated strict n func)
    (hargs : ∀ e ∈ args, M.Simulated strict n e) (t : Nat) :
    M.Simulated strict n (.app func args t) := by
  intro scope env target c r h htime hsafe
  rcases h.app with ⟨_, back, _, hmove, hcall, hreturn⟩ | ⟨_, _, hcall, _⟩
  · -- the call returns behind itself, and from there the value is passed on
    refine Follows.of_returns ?_ fun v => (hreturn v).reaches
    exact (simulated_call hcalls hfunc hargs hcall htime hsafe).of_reaches (.single hmove)
  · exact simulated_call hcalls hfunc hargs hcall htime hsafe

/-! ### Scopes -/

theorem simulated_bindings {bs : List (Name × Expr Nat)}
    (hbs : ∀ b ∈ bs, M.Simulated strict n b.2) {k : Nat} {f' : Frame}
    (h : M.PoisedBindings scope env.find? M.Related bs c k f') (htime : ∀ b ∈ bs, b.2.Timeless)
    (hsafe : strict → SafeBindings (call n) (Ready n) env bs) :
    M.Follows strict n (evalBindingsWith (call n) env bs) c (fun ds c' => ∃ v ws,
      List.Forall₂ M.Related ds ws ∧ c' = c.after k v ws.reverse ∧
        f'.Holds M.program scope env.find? M.Related c') := by
  induction bs generalizing c k with
  | nil =>
    obtain ⟨rfl, hin⟩ := h.nil
    exact follows_ok .refl ⟨c.acc, [], .nil, rfl, hin⟩
  | cons b bs ih =>
    obtain ⟨x, e⟩ := b
    obtain ⟨he, hbs⟩ := List.forall_mem_cons.1 hbs
    obtain ⟨htimeFirst, htime⟩ := List.forall_mem_cons.1 htime
    obtain ⟨m, j, rfl, hpoised, hrest⟩ := h.cons
    refine (he hpoised htimeFirst fun hs => (hsafe hs).1).bind ?_
    rintro d c' hd ⟨w, hw, rfl⟩
    obtain ⟨hpush, hrest⟩ := hrest w
    refine Follows.of_reaches ?_ hpush.reaches
    refine (ih hbs hrest htime fun hs => (hsafe hs).2).bind ?_
    rintro ds c' hds ⟨v, ws, hws, rfl, hin⟩
    rw [Config.after_after, ← List.reverse_cons] at hin ⊢
    exact follows_ok .refl ⟨v, w :: ws, .cons hw hws, rfl, hin⟩

theorem simulated_letIn {bs : List (Name × Expr Nat)} {body : Expr Nat}
    (hbs : ∀ b ∈ bs, M.Simulated strict n b.2) (hbody : M.Simulated strict n body) (t : Nat) :
    M.Simulated strict n (.letIn bs body t) := by
  intro scope env target c r h htime hsafe
  obtain ⟨htimeInits, htimeBody⟩ := htime.letIn h.fresh.1
  obtain ⟨k, f', hinits, hscope⟩ := h.letIn
  refine (simulated_bindings hbs hinits htimeInits fun hs => (hsafe hs).1).bind ?_
  rintro ds c' hds ⟨v, ws, hws, rfl, hin⟩
  have hlen : bs.length = ws.length :=
    (length_of_evalBindingsWith hds).symm.trans hws.length_eq
  exact hbody (hscope _ _ v ws hlen hin (extends_bindAll hws _)) htimeBody
    fun hs => (hsafe hs).2 ds hds

theorem simulated_fix {ms : List (Member Nat (Expr Nat))} {body : Expr Nat}
    (hbody : M.Simulated strict n body) (t : Nat) : M.Simulated strict n (.fix ms body t) := by
  intro scope env target c r h htime hsafe
  obtain ⟨k, v, ws, hclimb, _, hpoised⟩ := h.related_fix htime
  exact (hbody hpoised (htime.fix h.fresh).2 hsafe).of_reaches hclimb.reaches

/-! ### The whole simulation -/

theorem simulated_of_calls (hcalls : M.CallsSimulated strict n) (e : Expr Nat) :
    M.Simulated strict n e := by
  induction e with
  | lit v t => exact simulated_lit v t
  | var x t => exact simulated_var x t
  | cond test yes no t htest hyes hno => exact simulated_cond htest hyes hno t
  | lambda params body t _ => exact simulated_lambda params body t
  | assign x value t _ => exact fun h => absurd h not_poised_assign
  | app func args t hfunc hargs => exact simulated_app hcalls hfunc hargs t
  | letIn bindings body t hbindings hbody => exact simulated_letIn hbindings hbody t
  | letrec bindings body t _ _ => exact fun h => absurd h not_poised_letrec
  | fix members body t _ hbody => exact simulated_fix hbody t
  | seq items t hitems => exact simulated_seq hitems t

theorem follows_applyPrimitive {p : Primitive} (hp : p ≠ .time) {args : List (Eval.Value Nat)}
    {ws : List Value} (h : M.Calls c (.prim p) ws r) (hargs : List.Forall₂ M.Related args ws)
    (hready : strict → args.length = p.arity) :
    M.Follows strict n (applyPrimitive p args) c (M.Returns r) := by
  rcases h.applyPrimitive hp hargs with ⟨l, hl, hmove⟩ | ⟨e, he, htraps⟩
  · rw [hl]
    exact follows_ok (.single hmove) ⟨.lit l, .lit l, rfl⟩
  · rw [he]
    exact follows_error fun hs => .of_traps (htraps (hready hs)) n

/-- Entering a procedure is one instruction and one level of nesting. -/
theorem callsSimulated (M : Image) (strict : Prop) (n : Nat) : M.CallsSimulated strict n := by
  induction n with
  | zero =>
    intro d args v ws c r h hd hargs hready
    cases hd with
    | lit l =>
      obtain ⟨⟨is, hcode⟩, hacc, _⟩ := h
      exact follows_error fun _ => .of_traps (Program.traps_apply_lit hcode hacc) 0
    | prim p hp => exact follows_applyPrimitive hp h hargs hready
    | closure => exact follows_error fun _ => Program.unfinished_zero c
  | succ n ih =>
    intro d args v ws c r h hd hargs hready
    cases d with
    | lit l =>
      cases hd
      obtain ⟨⟨is, hcode⟩, hacc, _⟩ := h
      exact follows_error fun _ => .of_traps (Program.traps_apply_lit hcode hacc) (n + 1)
    | prim p =>
      cases hd with
      | prim _ hp => exact follows_applyPrimitive hp h hargs hready
    | closure params body env =>
      by_cases hlen : params.length = args.length
      · obtain ⟨c', scope, target, hmove, _, htime, hpoised⟩ := h.enter hd hargs hlen
        have hcall : call (n + 1) (.closure params body env) args =
            evalWith (call n) (env.bindAll params args) body := by
          simp only [call, if_pos hlen]
        rw [hcall]
        exact (simulated_of_calls ih body hpoised htime fun hs => (hready hs).2).of_moves hmove
      · have hcall : call (n + 1) (.closure params body env) args =
            .error (.trap (.procedureArity params.length args.length)) := by
          simp only [call, if_neg hlen]
        rw [hcall]
        exact follows_error fun hs => absurd (hready hs).1 hlen

theorem simulated (M : Image) (strict : Prop) (n : Nat) (e : Expr Nat) : M.Simulated strict n e :=
  simulated_of_calls (callsSimulated M strict n) e

end Image

end MiniScheme
