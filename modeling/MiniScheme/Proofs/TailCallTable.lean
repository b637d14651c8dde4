import MiniScheme.Proofs.Halting
import MiniScheme.Proofs.HighWater
import MiniScheme.Proofs.Reflection

/-!
# With and without a table of tail calls

A call that the table does not list saves where it returns to, in tail position too. So with an
empty table a program does what it did, but its stack may get higher.

Two machines run side by side, one with a table and one without, on values that stand for the same
values of direct evaluation. The second stack is never lower than the first: it has links that the
first has not.
-/

namespace MiniScheme

namespace Image

open Eval

variable {M M' : Image} {n : Nat} {scope scope' : List Name} {types : TypeScope} {env : Env Nat}
  {c c' : Config} {r r' : Resume}

/-- Two runs may go on with values that stand for one value of a type. -/
def BothAwait (M M' : Image) (n : Nat) (ty : Ty) (r r' : Resume) : Prop :=
  ∀ {d : Eval.Value Nat} {v v' : Value}, Eval.HasTy d ty → M.Related d v → M'.Related d v' →
    M.program.OutgrownBy M'.program n (r.config v) (r'.config v')

/-- While the code of an expression is run, the second stack gets as high as the first. -/
def Outgrown (M M' : Image) (n : Nat) (e : Expr Nat) : Prop :=
  ∀ {scope scope' : List Name} {types : TypeScope} {env : Env Nat}
    {target target' : Option TailTarget} {ty : Ty} {c c' : Config} {r r' : Resume},
    M.PoisedIn scope env target e c r → M'.PoisedIn scope' env target' e c' r' → e.Timeless →
    Typed types e ty → Fills env types → c.cells.length ≤ c'.cells.length →
    M.BothAwait M' n ty r r' → M.program.OutgrownBy M'.program n c c'

/-- While a call is made, the second stack gets as high as the first. -/
def CallsOutgrown (M M' : Image) (n : Nat) : Prop :=
  ∀ {sig : Signature} {d : Eval.Value Nat} {args : List (Eval.Value Nat)} {v v' : Value}
    {ws ws' : List Value} {c c' : Config} {r r' : Resume},
    M.Calls c v ws r → M'.Calls c' v' ws' r' → Eval.HasTy d sig.ty → M.Related d v →
    M'.Related d v' → List.Forall₂ Eval.HasTy args sig.params → List.Forall₂ M.Related args ws →
    List.Forall₂ M'.Related args ws' → c.cells.length ≤ c'.cells.length →
    M.BothAwait M' n sig.result r r' → M.program.OutgrownBy M'.program n c c'

/-! ### Atoms and procedures -/

theorem outgrown_lit (v : Literal) (t : Nat) : M.Outgrown M' n (.lit v t) := by
  intro _ _ _ _ _ _ _ _ _ _ _ h h' _ htyped _ hle hr
  cases htyped
  exact (hr (.lit v) (.lit v) (.lit v)).of_climbs h.lit h'.lit hle

theorem outgrown_var (x : Name) (t : Nat) : M.Outgrown M' n (.var x t) := by
  intro _ _ _ _ _ _ _ _ _ _ _ h h' htime htyped henv hle hr
  obtain ⟨⟨d, hd⟩, hty⟩ := sound_var (n := n) x t htyped henv
  obtain ⟨v, hclimb, hrelated⟩ := h.related_var htime
  obtain ⟨v', hclimb', hrelated'⟩ := h'.related_var htime
  exact (hr (hty d hd) (hrelated d hd) (hrelated' d hd)).of_climbs hclimb hclimb' hle

theorem outgrown_lambda (params : List Name) (body : Expr Nat) (t : Nat) :
    M.Outgrown M' n (.lambda params body t) := by
  intro _ _ _ _ _ _ _ _ _ _ _ h h' htime htyped henv hle hr
  obtain ⟨v, hclimb, hrelated⟩ := h.related_lambda htime
  obtain ⟨v', hclimb', hrelated'⟩ := h'.related_lambda htime
  cases htyped with
  | lambda hlen hbody =>
    exact (hr (.closure henv hlen hbody) hrelated hrelated').of_climbs hclimb hclimb' hle

/-! ### Branches and sequences -/

theorem outgrown_cond {test yes no : Expr Nat} (htest : M.Outgrown M' n test)
    (hyes : M.Outgrown M' n yes) (hno : M.Outgrown M' n no) (t : Nat) :
    M.Outgrown M' n (.cond test yes no t) := by
  intro _ _ _ _ _ _ _ _ _ _ _ h h' htime htyped henv hle hr
  obtain ⟨htimeTest, htimeYes, htimeNo⟩ := htime.cond
  obtain ⟨k, hpoised, hbranch⟩ := h.cond
  obtain ⟨k', hpoised', hbranch'⟩ := h'.cond
  cases htyped with
  | cond htypedTest htypedYes htypedNo =>
  refine htest hpoised hpoised' htimeTest htypedTest henv hle fun {d v v'} hd hv hv' => ?_
  obtain ⟨m, hclimb, hnext⟩ := hbranch v
  obtain ⟨m', hclimb', hnext'⟩ := hbranch' v'
  rw [hv.isFalse_eq] at hnext
  rw [hv'.isFalse_eq] at hnext'
  refine Program.OutgrownBy.of_climbs ?_ hclimb hclimb' hle
  cases hfalse : d.isFalse with
  | true =>
    rw [hfalse] at hnext hnext'
    exact hno hnext hnext' htimeNo htypedNo henv hle hr
  | false =>
    rw [hfalse] at hnext hnext'
    exact hyes hnext hnext' htimeYes htypedYes henv hle hr

theorem outgrown_seq {items : List (Expr Nat)} (hitems : ∀ e ∈ items, M.Outgrown M' n e)
    (t : Nat) : M.Outgrown M' n (.seq items t) := by
  induction items with
  | nil => exact fun h => absurd h not_poised_seq_nil
  | cons e es ih =>
    obtain ⟨he, hes⟩ := List.forall_mem_cons.1 hitems
    intro _ _ _ _ _ _ _ _ _ _ _ h h' htime htyped henv hle hr
    have htimeFirst := htime.seq e (List.mem_cons_self ..)
    cases htyped with
    | last htyped => exact he h.seq_one h'.seq_one htimeFirst htyped henv hle hr
    | before htyped htypedRest =>
      obtain ⟨k, hpoised, hrest⟩ := h.seq_cons
      obtain ⟨k', hpoised', hrest'⟩ := h'.seq_cons
      refine he hpoised hpoised' htimeFirst htyped henv hle fun {d v v'} _ _ _ => ?_
      exact ih hes (hrest v) (hrest' v') htime.seq_tail htypedRest henv hle hr

/-! ### Calls -/

theorem outgrown_args {es : List (Expr Nat)} (hes : ∀ e ∈ es, M.Outgrown M' n e) {tys : List Ty}
    (htyped : List.Forall₂ (Typed types) es tys) {k k' : Nat}
    (h : M.PoisedArgs scope env.find? M.Related es c k)
    (h' : M'.PoisedArgs scope' env.find? M'.Related es c' k') (htime : ∀ e ∈ es, e.Timeless)
    (henv : Fills env types) (hle : c.cells.length ≤ c'.cells.length)
    (hrest : ∀ ds v ws v' ws', List.Forall₂ Eval.HasTy ds tys → List.Forall₂ M.Related ds ws →
      List.Forall₂ M'.Related ds ws' →
      M.program.OutgrownBy M'.program n (c.after k v ws) (c'.after k' v' ws')) :
    M.program.OutgrownBy M'.program n c c' := by
  induction htyped generalizing k k' with
  | nil =>
    obtain rfl := h.nil
    obtain rfl := h'.nil
    exact hrest [] c.acc [] c'.acc [] .nil .nil .nil
  | @cons e ty es tys htypedFirst htypedRest ih =>
    obtain ⟨he, hes⟩ := List.forall_mem_cons.1 hes
    obtain ⟨htimeFirst, htime⟩ := List.forall_mem_cons.1 htime
    obtain ⟨m, hargs, hfirst⟩ := h.cons
    obtain ⟨m', hargs', hfirst'⟩ := h'.cons
    refine ih hes hargs hargs' htime fun ds v ws v' ws' hds hws hws' => ?_
    have hlen := htypedRest.length_eq.trans hds.length_eq.symm
    have hcount := hws.length_eq.symm.trans hws'.length_eq
    obtain ⟨j, hpoised, hpush⟩ := hfirst v ws (hlen.trans hws.length_eq)
    obtain ⟨j', hpoised', hpush'⟩ := hfirst' v' ws' (hlen.trans hws'.length_eq)
    have hle' : (c.after m v ws).cells.length ≤ (c'.after m' v' ws').cells.length := by
      simp only [Config.after, List.length_append]
      omega
    refine he hpoised hpoised' htimeFirst htypedFirst henv hle' fun {d w w'} hd hw hw' => ?_
    refine Program.OutgrownBy.of_climbs ?_ (hpush w) (hpush' w') hle'
    exact hrest (d :: ds) w (w :: ws) w' (w' :: ws') (.cons hd hds) (.cons hw hws) (.cons hw' hws')

theorem outgrown_call {func : Expr Nat} {args : List (Expr Nat)} {t : Nat}
    (hcalls : M.CallsOutgrown M' n) (hfunc : M.Outgrown M' n func)
    (hargs : ∀ e ∈ args, M.Outgrown M' n e) {sig : Signature} (htypedFunc : Typed types func sig.ty)
    (htypedArgs : List.Forall₂ (Typed types) args sig.params)
    (h : M.PoisedCall scope env.find? M.Related func args c r)
    (h' : M'.PoisedCall scope' env.find? M'.Related func args c' r')
    (htime : (Expr.app func args t).Timeless) (henv : Fills env types)
    (hle : c.cells.length ≤ c'.cells.length) (hsaved : r.saved.length ≤ r'.saved.length)
    (hr : M.BothAwait M' n sig.result r r') : M.program.OutgrownBy M'.program n c c' := by
  obtain ⟨htimeFunc, htimeArgs⟩ := htime.app
  obtain ⟨k, hpoisedArgs, hrest⟩ := h.run
  obtain ⟨k', hpoisedArgs', hrest'⟩ := h'.run
  refine outgrown_args hargs htypedArgs hpoisedArgs hpoisedArgs' htimeArgs henv hle
    fun ds v ws v' ws' hds hws hws' => ?_
  have hlen := htypedArgs.length_eq.trans hds.length_eq.symm
  have hcount := hws.length_eq.symm.trans hws'.length_eq
  obtain ⟨j, hpoised, hcall⟩ := hrest v ws (hlen.trans hws.length_eq)
  obtain ⟨j', hpoised', hcall'⟩ := hrest' v' ws' (hlen.trans hws'.length_eq)
  have hle' : (c.after k v ws).cells.length ≤ (c'.after k' v' ws').cells.length := by
    simp only [Config.after, List.length_append]
    omega
  refine hfunc hpoised hpoised' htimeFunc htypedFunc henv hle' fun {d w w'} hd hw hw' => ?_
  obtain ⟨b, hclimb, hcalled⟩ := hcall w
  obtain ⟨b', hclimb', hcalled'⟩ := hcall' w'
  refine Program.OutgrownBy.of_climbs ?_ hclimb hclimb' hle'
  refine hcalls hcalled hcalled' hd hw hw' hds hws hws' ?_ hr
  rw [hcalled.cells, hcalled'.cells, List.length_append, List.length_append]
  omega

theorem climbs_link {p : Program} {back : Resume}
    (hmove : p.Moves c (c.after 1 c.acc back.link)) : p.Climbs 3 c (c.after 1 c.acc back.link) :=
  Program.climbs_of_moves hmove (Nat.max_eq_right (Nat.le_add_right _ 3))

theorem outgrown_app (hplain : M'.calls = []) {func : Expr Nat} {args : List (Expr Nat)}
    (hcalls : M.CallsOutgrown M' n) (hfunc : M.Outgrown M' n func)
    (hargs : ∀ e ∈ args, M.Outgrown M' n e) (t : Nat) : M.Outgrown M' n (.app func args t) := by
  intro _ _ _ _ _ _ _ c c' _ _ h h' htime htyped henv hle hr
  cases htyped with
  | @app _ _ _ _ sig htypedFunc hlen htypedArgs =>
  have htypedArgs' := List.forall₂_iff_zip.2 ⟨hlen, fun {e ty} => htypedArgs e ty⟩
  rcases h'.app with ⟨_, back', hcells', hmove', hcall', hreturn'⟩ | ⟨_, hlisted, _⟩
  · have hsaved' : back'.saved.length = c'.cells.length + 3 := by rw [Resume.length_saved, hcells']
    rcases h.app with ⟨_, back, hcells, hmove, hcall, hreturn⟩ | ⟨_, _, hcall, hsaved⟩
    · have hsaved : back.saved.length = c.cells.length + 3 := by rw [Resume.length_saved, hcells]
      refine Program.OutgrownBy.of_climbs ?_ (climbs_link hmove) (climbs_link hmove') hle
      refine outgrown_call hcalls hfunc hargs htypedFunc htypedArgs' hcall hcall' htime henv
        (Nat.add_le_add_right hle 3) (by omega) fun {d v v'} hd hv hv' => ?_
      refine (hr hd hv hv').of_climbs (hreturn v) (hreturn' v') ?_
      show back.cells.length ≤ back'.cells.length
      rw [hcells, hcells']
      exact hle
    · -- only the second machine saves where to return to, and it returns in more steps
      refine Program.OutgrownBy.of_reaches ?_ (.single hmove')
      exact outgrown_call hcalls hfunc hargs htypedFunc htypedArgs' hcall hcall' htime henv
        (Nat.le_trans hle (Nat.le_add_right _ 3)) (by omega)
        fun {d v v'} hd hv hv' => (hr hd hv hv').of_reaches (hreturn' v').reaches
  · rw [hplain] at hlisted
    exact nomatch hlisted

/-! ### Scopes -/

theorem outgrown_bindings {bs : List (Name × Expr Nat)} (hbs : ∀ b ∈ bs, M.Outgrown M' n b.2)
    {tys : List Ty} (htyped : List.Forall₂ (fun b ty => Typed types b.2 ty) bs tys) {k k' : Nat}
    {f f' : Frame} (h : M.PoisedBindings scope env.find? M.Related bs c k f)
    (h' : M'.PoisedBindings scope' env.find? M'.Related bs c' k' f')
    (htime : ∀ b ∈ bs, b.2.Timeless) (henv : Fills env types)
    (hle : c.cells.length ≤ c'.cells.length)
    (hrest : ∀ ds v ws v' ws', List.Forall₂ Eval.HasTy ds tys → List.Forall₂ M.Related ds ws →
      List.Forall₂ M'.Related ds ws' →
      f.Holds M.program scope env.find? M.Related (c.after k v ws.reverse) →
      f'.Holds M'.program scope' env.find? M'.Related (c'.after k' v' ws'.reverse) →
      M.program.OutgrownBy M'.program n (c.after k v ws.reverse) (c'.after k' v' ws'.reverse)) :
    M.program.OutgrownBy M'.program n c c' := by
  induction htyped generalizing c c' k k' with
  | nil =>
    obtain ⟨rfl, hin⟩ := h.nil
    obtain ⟨rfl, hin'⟩ := h'.nil
    exact hrest [] c.acc [] c'.acc [] .nil .nil .nil hin hin'
  | @cons b ty bs tys htypedFirst _ ih =>
    obtain ⟨x, e⟩ := b
    obtain ⟨he, hbs⟩ := List.forall_mem_cons.1 hbs
    obtain ⟨htimeFirst, htime⟩ := List.forall_mem_cons.1 htime
    obtain ⟨m, j, rfl, hpoised, hbindings⟩ := h.cons
    obtain ⟨m', j', rfl, hpoised', hbindings'⟩ := h'.cons
    refine he hpoised hpoised' htimeFirst htypedFirst henv hle fun {d w w'} hd hw hw' => ?_
    obtain ⟨hpush, hbindings⟩ := hbindings w
    obtain ⟨hpush', hbindings'⟩ := hbindings' w'
    refine Program.OutgrownBy.of_climbs ?_ hpush hpush' hle
    refine ih hbs hbindings hbindings' htime (Nat.succ_le_succ hle)
      fun ds v ws v' ws' hds hws hws' hin hin' => ?_
    rw [Config.after_after, ← List.reverse_cons] at hin hin' ⊢
    rw [Config.after_after, ← List.reverse_cons]
    exact hrest (d :: ds) v (w :: ws) v' (w' :: ws') (.cons hd hds) (.cons hw hws) (.cons hw' hws')
      hin hin'

theorem outgrown_letIn {bs : List (Name × Expr Nat)} {body : Expr Nat}
    (hbs : ∀ b ∈ bs, M.Outgrown M' n b.2) (hbody : M.Outgrown M' n body) (t : Nat) :
    M.Outgrown M' n (.letIn bs body t) := by
  intro _ _ _ _ _ _ _ c c' _ _ h h' htime htyped henv hle hr
  obtain ⟨htimeInits, htimeBody⟩ := htime.letIn h.fresh.1
  obtain ⟨k, f, hinits, hscope⟩ := h.letIn
  obtain ⟨k', f', hinits', hscope'⟩ := h'.letIn
  cases htyped with
  | @letIn _ _ _ _ tys _ hlen htypedInits htypedBody =>
  have htypedInits' := List.forall₂_iff_zip.2 ⟨hlen, fun {b ty} => htypedInits b ty⟩
  refine outgrown_bindings hbs htypedInits' hinits hinits' htimeInits henv hle
    fun ds v ws v' ws' hds hws hws' hin hin' => ?_
  have hcount := hlen.trans hds.length_eq.symm
  have hws₁ := hws.length_eq
  have hws₂ := hws'.length_eq
  refine hbody (hscope _ _ v ws (hcount.trans hws₁) hin (extends_bindAll hws _))
    (hscope' _ _ v' ws' (hcount.trans hws₂) hin' (extends_bindAll hws' _)) htimeBody htypedBody
    (henv.bindAll _ hds) ?_ hr
  simp only [Config.after, List.length_append, List.length_reverse]
  omega

theorem outgrown_fix {ms : List (Member Nat (Expr Nat))} {body : Expr Nat}
    (hbody : M.Outgrown M' n body) (t : Nat) : M.Outgrown M' n (.fix ms body t) := by
  intro _ _ _ _ _ _ _ c c' _ _ h h' htime htyped henv hle hr
  obtain ⟨k, v, ws, hclimb, hlen, hpoised⟩ := h.related_fix htime
  obtain ⟨k', v', ws', hclimb', hlen', hpoised'⟩ := h'.related_fix htime
  cases htyped with
  | fix hlenSigs hparams hmembers htypedBody =>
  refine Program.OutgrownBy.of_climbs ?_ hclimb hclimb' hle
  refine hbody hpoised hpoised' (htime.fix h.fresh).2 htypedBody
    (.group henv hlenSigs hparams hmembers) ?_ hr
  simp only [Config.after, List.length_append, List.length_reverse]
  omega

/-! ### The whole program -/

theorem outgrown_of_calls (hplain : M'.calls = []) (hcalls : M.CallsOutgrown M' n) (e : Expr Nat) :
    M.Outgrown M' n e := by
  induction e with
  | lit v t => exact outgrown_lit v t
  | var x t => exact outgrown_var x t
  | cond test yes no t htest hyes hno => exact outgrown_cond htest hyes hno t
  | lambda params body t _ => exact outgrown_lambda params body t
  | assign x value t _ => exact fun h => absurd h not_poised_assign
  | app func args t hfunc hargs => exact outgrown_app hplain hcalls hfunc hargs t
  | letIn bindings body t hbindings hbody => exact outgrown_letIn hbindings hbody t
  | letrec bindings body t _ _ => exact fun h => absurd h not_poised_letrec
  | fix members body t _ hbody => exact outgrown_fix hbody t
  | seq items t hitems => exact outgrown_seq hitems t

theorem outgrown_applyPrimitive {p : Primitive} {sig : Signature} (hp : p.HasTy sig.ty)
    {args : List (Eval.Value Nat)} {v v' : Value} {ws ws' : List Value} (h : M.Calls c v ws r)
    (h' : M'.Calls c' v' ws' r') (hv : M.Related (.prim p) v) (hv' : M'.Related (.prim p) v')
    (hargs : List.Forall₂ Eval.HasTy args sig.params) (hws : List.Forall₂ M.Related args ws)
    (hws' : List.Forall₂ M'.Related args ws') (hle : c.cells.length ≤ c'.cells.length)
    (hr : M.BothAwait M' n sig.result r r') : M.program.OutgrownBy M'.program n c c' := by
  cases hv with
  | prim _ htime =>
  cases hv' with
  | prim =>
  rcases h.applyPrimitive htime hws with ⟨l, hl, hmove⟩ | ⟨e, _, htraps⟩
  · rcases h'.applyPrimitive htime hws' with ⟨l', hl', hmove'⟩ | ⟨e, he, _⟩
    · rw [hl] at hl'
      cases hl'
      have hnext := hr (sound_applyPrimitive hp hargs hl) (.lit l) (.lit l)
      exact ((hnext.of_reaches (.single hmove')).of_moves hmove hle).mono (Nat.le_succ n)
    · rw [hl] at he
      exact nomatch he
  · exact .of_traps (htraps (hargs.length_eq.trans hp.length_params)) hle n

theorem callsOutgrown (M : Image) (hplain : M'.calls = []) (n : Nat) : M.CallsOutgrown M' n := by
  -- the instructions of the first machine are counted: a body is run with one less than its call
  induction n with
  | zero =>
    intro _ _ _ _ _ _ _ _ _ _ _ _ _ _ _ _ _ _ _ hle _
    exact Program.outgrownBy_zero hle
  | succ n ih =>
    intro sig d args v v' ws ws' c c' r r' h h' hd hv hv' hargs hws hws' hle hr
    rcases hd.procedure with ⟨p, rfl, hp⟩ | ⟨params, body, env, scope, rfl, henv, hlen, hbody⟩
    · exact outgrown_applyPrimitive hp h h' hv hv' hargs hws hws' hle hr
    · have hcount : params.length = args.length := hlen.symm.trans hargs.length_eq.symm
      obtain ⟨b, _, _, hmove, hcells, htime, hpoised⟩ := h.enter hv hws hcount
      obtain ⟨b', _, _, hmove', hcells', _, hpoised'⟩ := h'.enter hv' hws' hcount
      have hle' : b.cells.length ≤ b'.cells.length := by rwa [hcells, hcells']
      have hrun := outgrown_of_calls hplain ih body hpoised hpoised' htime hbody
        (henv.bindAll params hargs) hle' fun hd hv hv' => (hr hd hv hv').mono (Nat.le_succ n)
      exact (hrun.of_reaches (.single hmove')).of_moves hmove hle

theorem Hosts.outgrownBy {e : Expr Nat} {ty : Ty} (h : M.Hosts e) (h' : M'.Hosts e)
    (hplain : M'.calls = []) (htime : e.Timeless) (htyped : Typed [] e ty) (n : Nat) :
    M.program.OutgrownBy M'.program n State.initial.config State.initial.config := by
  obtain ⟨length, hhalt, hpoised⟩ := h.poised (fun _ => rfl) M.Related
  obtain ⟨length', _, hpoised'⟩ := h'.poised (fun _ => rfl) M'.Related
  refine outgrown_of_calls hplain (callsOutgrown M hplain n) e hpoised hpoised' htime htyped .empty
    (Nat.le_refl _) fun _ _ _ => ?_
  exact .of_halt (hhalt.move (Nat.zero_add _)) (Nat.zero_le _) n

end Image

namespace Expr

variable {e : Expr Unit} {options : CompileOptions} {c : Compilation}

theorem exists_plain_of_compile (hc : e.compile options = .ok c)
    (htypes : options.typecheck = true) (hclosed : ∀ x ∈ e.free [], x ∈ Primitive.names) :
    ∃ assembly plain, c.expr.assemble [] = .ok assembly ∧ assembly.link = .ok plain ∧
      ∃ M : Image, M.program = plain ∧ M.calls = [] ∧ M.Hosts c.expr := by
  obtain ⟨ty, _, htyped⟩ := typed_of_compile hc htypes hclosed
  obtain ⟨assembly, plain, hassembly, hlink⟩ := exists_program_of_typed htyped
    (fun x hx => hclosed x (mem_free.2 (freeIn_of_compile hc hx))) []
  have hnodup := nodup_tags_of_compile hc
  have hallowed : c.expr.Allowed [] none :=
    (marked_tailCalls hnodup).imp fun _ _ _ _ hcall => nomatch hcall
  exact ⟨assembly, plain, hassembly, hlink,
    hosts_of_link hnodup (fresh_of_compile hc) hallowed hassembly hlink⟩

/-- A program exists without its table of tail calls too. It halts exactly if the one with the table
does, and with the same literal, but it may need more stack: what the first stack has recorded at
any point, the second records at some point, and where both runs end it has recorded no less. -/
theorem tailCalls_unobservable (hc : e.compile options = .ok c) (htypes : options.typecheck = true)
    (hclosed : ∀ x ∈ e.free [], x ∈ Primitive.names) (htime : Primitive.time.name ∉ e.free []) :
    ∃ assembly plain, c.expr.assemble [] = .ok assembly ∧ assembly.link = .ok plain ∧
      c.program.HaltsLike plain ∧
      (∀ k s, c.program.stateAfter k = some s →
        ∃ m s', plain.stateAfter m = some s' ∧ s.stack.highWater ≤ s'.stack.highWater) ∧
      ∀ fuel fuel' r r', c.program.runFor none fuel = some r →
        plain.runFor none fuel' = some r' → r.state.stack.highWater ≤ r'.state.stack.highWater := by
  obtain ⟨ty, _, htyped⟩ := typed_of_compile hc htypes hclosed
  obtain ⟨M, hprogram, hosts⟩ := hosts_of_compile hc
  obtain ⟨assembly, plain, hassembly, hlink, M', rfl, hplain, hosts'⟩ :=
    exists_plain_of_compile hc htypes hclosed
  have htimeless : c.expr.Timeless := fun hx => htime (mem_free.2 (freeIn_of_compile hc hx))
  have houtgrown := hosts.outgrownBy hosts' hplain htimeless htyped
  rw [← hprogram]
  refine ⟨assembly, M'.program, hassembly, hlink, ?_, ?_, ?_⟩
  · exact hosts.haltsLike hosts' htimeless htimeless htyped htyped fun _ => Iff.rfl
  · intro k s hs
    exact Program.OutgrownBy.highWater_le houtgrown hs
  · intro fuel fuel' r r' hrun hrun'
    exact Program.OutgrownBy.highWater_le_of_runFor houtgrown hrun hrun'

theorem tailCalls_sumLoop : ∃ c assembly plain, sumLoop.compile .all = .ok c ∧
    (∀ x ∈ sumLoop.free [], x ∈ Primitive.names) ∧ Primitive.time.name ∉ sumLoop.free [] ∧
    c.expr.assemble [] = .ok assembly ∧ assembly.link = .ok plain ∧
    ∃ s v s' v', c.program.HaltsWith s v ∧ plain.HaltsWith s' v' ∧ v.literal? = some (.int 3) ∧
      v'.literal? = some (.int 3) ∧ s.stack.highWater = 12 ∧ 12 ≤ s'.stack.highWater := by
  have hsolved : (sumLoop.compile ⟨true, false⟩ >>= fun c =>
      (TypingProblem.ofExpr c.expr).map fun p =>
        decide (Solves sumLoopTypes p.judgement.constraints)) = .ok true := by
    decide +kernel
  have hhalts : (sumLoop.compile ⟨true, false⟩).map (fun c =>
      (c.program.runFor none 100).map fun r =>
        (r.result.map (·.literal?), r.state.stack.highWater)) =
        .ok (some (.ok (some (.int 3)), 12)) := by
    decide +kernel
  have hclosed : ∀ x ∈ sumLoop.free [], x ∈ Primitive.names := by decide
  have htime : Primitive.time.name ∉ sumLoop.free [] := by decide
  obtain ⟨c, c', hc, htyped, hprogram, _⟩ := compile_of_solves hsolved
  obtain ⟨c'', hc'', hrun⟩ := Results.map_eq_ok_iff.1 hhalts
  obtain rfl : c = c'' := Except.ok.inj (hc.symm.trans hc'')
  obtain ⟨⟨s, result⟩, hrun, hresult⟩ := Option.map_eq_some_iff.1 hrun
  obtain ⟨hresult, hwater⟩ := Prod.mk.inj hresult
  obtain ⟨v, rfl, hv⟩ := Results.map_eq_ok_iff.1 hresult
  rw [← hprogram] at hrun
  obtain ⟨assembly, plain, hassembly, hlink, hlike, _, hends⟩ :=
    tailCalls_unobservable htyped rfl hclosed htime
  obtain ⟨s', v', fuel, hrun'⟩ := hlike.halts.1 ⟨s, v, 100, hrun⟩
  have hliteral := hlike.literal ⟨100, hrun⟩ ⟨fuel, hrun'⟩
  have hle := hends 100 fuel _ _ hrun hrun'
  refine ⟨c', assembly, plain, htyped, hclosed, htime, hassembly, hlink, s, v, s', v', ⟨100, hrun⟩,
    ⟨fuel, hrun'⟩, hv, hliteral.symm.trans hv, hwater, ?_⟩
  rw [← hwater]
  exact hle

end Expr

end MiniScheme
