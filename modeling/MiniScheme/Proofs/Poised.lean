import MiniScheme.Proofs.Frames

/-!
# Running the code of an expression

What a machine does that is about to run the code of an expression, form by form: it runs the
code of the parts, with a few instructions around them. What the parts compute is left open, as is
what names are bound to.
-/

namespace MiniScheme

/-- Where the code of an expression leads with its value: on from behind the code, or back to the
caller. -/
def Context.Leads (p : Program) (ctx : Context) (c : Config) (length : Nat) (r : Resume) : Prop :=
  match ctx with
  | .value => ∀ v, p.Climbs 0 (c.after length v []) (r.config v)
  | .tail cells => ∃ dropped : List Value, dropped.length = cells ∧ c.cells = dropped ++ r.saved

namespace Context.Leads

variable {p : Program} {ctx : Context} {c : Config} {length length' n : Nat} {r : Resume}

theorem past (c : Config) (length : Nat) : Context.value.Leads p c length (c.past length) :=
  fun _ => Program.climbs_refl _

theorem after (h : ctx.Leads p c length r) (hlen : length = n + length') (v : Value) :
    ctx.Leads p (c.after n v []) length' r := by
  cases ctx with
  | value =>
    intro w
    rw [Config.after_after, ← hlen]
    exact h w
  | tail cells => exact h

theorem climbs (h : ctx.Leads p c length r) (hlen : length = n + ctx.leave.length)
    (hcode : p.HasCode (c.pc + n) ctx.leave) (v : Value) :
    p.Climbs 0 (c.after n v []) (r.config v) := by
  cases ctx with
  | value =>
    obtain rfl : length = n := hlen
    exact h v
  | tail cells =>
    obtain ⟨dropped, rfl, hcells⟩ := h
    refine Program.climbs_zero_of_moves (Program.moves_ret (c := c.after n v []) hcode hcells) ?_
    simp only [Config.after, Resume.config, hcells, Resume.saved, List.length_append]
    omega

end Context.Leads

theorem Program.climbs_drop {p : Program} {c : Config} {k : Nat} (v : Value) (vs : List Value)
    (hcode : p.HasCode (c.pc + k) (Context.value.drop vs.length)) :
    p.Climbs 0 (c.after k v vs) (c.after (k + (Context.value.drop vs.length).length) v []) := by
  cases vs with
  | nil => exact climbs_refl _
  | cons w vs =>
    have hmove := moves_pop (c := c.after k v (w :: vs)) hcode (by simp [Config.after])
    have hmove' : p.Moves (c.after k v (w :: vs))
        (c.after (k + (Context.value.drop (w :: vs).length).length) v []) := by
      simpa [Config.after, Context.drop, Nat.add_assoc] using hmove
    refine climbs_zero_of_moves hmove' ?_
    simp only [Config.after, List.length_append, List.length_nil]
    omega

/-- The body of a form that has put cells on the stack drops them, or returns. -/
theorem Context.Leads.deeper {p : Program} {target : Option TailTarget} {c : Config}
    {length length' n m : Nat} {r : Resume} (h : (Context.ofTarget target).Leads p c length r)
    (v : Value) {ws : List Value} (hws : m = ws.length)
    (hlen : length = n + (length' + ((Context.ofTarget target).drop m).length))
    (hcode : p.HasCode (c.pc + n + length') ((Context.ofTarget target).drop m)) :
    (Context.ofTarget (target.map (·.deeper m))).Leads p (c.after n v ws.reverse) length' r := by
  rw [← List.length_reverse] at hws
  subst hws
  cases target with
  | none =>
    intro w
    rw [Config.after_after]
    have hdrop := Program.climbs_drop w ws.reverse (hcode.move (Nat.add_assoc ..).symm)
    rw [Nat.add_assoc] at hdrop
    subst hlen
    refine hdrop.level (h w) ?_
    simp only [Config.after, List.length_append, List.length_nil]
    omega
  | some target =>
    obtain ⟨dropped, hdropped, hcells⟩ := h
    refine ⟨ws.reverse ++ dropped, ?_, ?_⟩
    · rw [List.length_append, hdropped, Nat.add_comm]
      rfl
    · simp only [Config.after, hcells, List.append_assoc]

namespace Image

variable {M : Image} {D : Type} {scope : List Name} {find find' : Name → Option D}
  {Right Right' : D → Value → Prop} {target : Option TailTarget} {e : Expr Nat} {c : Config}
  {r : Resume} {t k : Nat}

/-- The machine is about to run the code of an expression, in a frame that holds what the names in
scope are bound to, and to go on elsewhere with its value. -/
structure Poised (M : Image) (scope : List Name) (find : Name → Option D)
    (Right : D → Value → Prop) (target : Option TailTarget) (e : Expr Nat) (c : Config)
    (r : Resume) : Prop where
  code : ∃ f code, M.Compiles f (.ofTarget target) e code ∧ M.program.HasCode c.pc code ∧
    f.Holds M.program scope find Right c ∧ (Context.ofTarget target).Leads M.program c code.length r
  fresh : e.Fresh scope
  allowed : e.Allowed M.calls target

theorem Poised.imp (h : M.Poised scope find Right target e c r)
    (himp : ∀ d v, Right d v → Right' d v) : M.Poised scope find Right' target e c r := by
  obtain ⟨f, code, hcompiles, hcode, hin, hleads⟩ := h.code
  exact ⟨⟨f, code, hcompiles, hcode, hin.imp himp, hleads⟩, h.fresh, h.allowed⟩

theorem Poised.notPrim (h : M.Poised scope find Right target e c r) :
    ∀ x ∈ scope, Primitive.ofName? x = none := by
  obtain ⟨_, _, _, _, hin, _⟩ := h.code
  exact hin.notPrim

theorem Poised.bound (h : M.Poised scope find Right target e c r) :
    ∀ x d, find x = some d → x ∈ scope := by
  obtain ⟨_, _, _, _, hin, _⟩ := h.code
  exact hin.bound

theorem not_poised_seq_nil : ¬ M.Poised scope find Right target (.seq [] t) c r := by
  rintro ⟨⟨_, _, hcompiles, _⟩, _, _⟩
  exact compiles_seq_nil_iff.1 hcompiles

theorem not_poised_assign {x : Name} : ¬ M.Poised scope find Right target (.assign x e t) c r := by
  rintro ⟨⟨_, _, hcompiles, _⟩, _, _⟩
  exact compiles_assign_iff.1 hcompiles

theorem not_poised_letrec {bs : List (Name × Expr Nat)} :
    ¬ M.Poised scope find Right target (.letrec bs e t) c r := by
  rintro ⟨⟨_, _, hcompiles, _⟩, _, _⟩
  exact compiles_letrec_iff.1 hcompiles

theorem Procedure.poised {captured params : List Name} {group : List (Name × Label)} {a : Nat}
    (h : M.Procedure captured group scope params e a) {ws : List Value}
    (hin : (Frame.ofProcedure params captured group).Holds M.program (params ++ scope) find Right c)
    (hpc : c.pc = a) (hlen : ws.length = params.length) (hcells : c.cells = ws ++ r.saved) :
    ∃ target, M.Poised (params ++ scope) find Right target e c r := by
  obtain ⟨code, hcompiles, hcode⟩ := h.code
  obtain ⟨t, hallowed⟩ := h.allowed
  exact ⟨some ⟨t, params.length⟩,
    ⟨_, code, hcompiles, hcode.move hpc, hin, ws, hlen, hcells⟩, h.fresh, hallowed⟩

/-! ### Atoms and procedures -/

theorem Poised.lit {v : Literal} (h : M.Poised scope find Right target (.lit v t) c r) :
    M.program.Climbs 0 c (r.config (.lit v)) := by
  obtain ⟨f, code, hcompiles, hcode, _, hleads⟩ := h.code
  obtain rfl := compiles_lit_iff.1 hcompiles
  have hload := Program.climbs_zero_of_moves (Program.moves_const hcode) (Nat.le_refl _)
  exact hload.level (hleads.climbs (Nat.add_comm _ 1) hcode.2 _) (Nat.le_refl _)

/-- A name is loaded with what is right for what it is bound to, or with the primitive it names. -/
theorem Poised.var {x : Name} (h : M.Poised scope find Right target (.var x t) c r) :
    ∃ v, M.program.Climbs 0 c (r.config v) ∧ (∀ d, find x = some d → Right d v) ∧
      ∀ p, Primitive.ofName? x = some p → v = .prim p := by
  obtain ⟨f, code, hcompiles, hcode, hin, hleads⟩ := h.code
  obtain ⟨i, hi, rfl⟩ := compiles_var_iff.1 hcompiles
  obtain ⟨v, hv, hmove⟩ := Frame.moves_reference hin.loads hi hcode
  have hload := Program.climbs_zero_of_moves hmove (Nat.le_refl _)
  refine ⟨v, hload.level (hleads.climbs (Nat.add_comm _ 1) hcode.2 v) (Nat.le_refl _),
    fun d hd => hin.agrees x d v hd hv, fun p hp => ?_⟩
  obtain rfl := Primitive.name_of_ofName? hp
  have hprim : f.Loads M.program c p.name (.prim p) :=
    ⟨_, _, hin.suits.prims p, rfl, by simp [Config.fetch, Primitive.ofIndex?_index]⟩
  exact hv.unique hprim

/-- What a closure has captured is right for what the names were bound to. -/
def Captures (captured : List Name) (find : Name → Option D) (Right : D → Value → Prop)
    (vs : List Value) : Prop :=
  vs.length = captured.length ∧ ∀ (i : Nat) x d v, captured[i]? = some x → find x = some d →
    vs[i]? = some v → Right d v

theorem captures_of_loads {f : Frame} {captured : List Name} {vs : List Value}
    (hin : f.Holds M.program scope find Right c)
    (hvs : List.Forall₂ (f.Loads M.program c) captured vs) : Captures captured find Right vs :=
  ⟨hvs.length_eq.symm, fun _ _ _ _ => hin.captures hvs⟩

theorem Poised.lambda {params : List Name} {body : Expr Nat}
    (h : M.Poised scope find Right target (.lambda params body t) c r) :
    ∃ a vs, M.program.Climbs (body.free (params ++ Primitive.names)).length c
        (r.config (.closure a vs)) ∧
      M.Procedure (body.free (params ++ Primitive.names)) [] scope params body a ∧
      Captures (body.free (params ++ Primitive.names)) find Right vs := by
  obtain ⟨f, code, hcompiles, hcode, hin, hleads⟩ := h.code
  obtain ⟨values, cb, hpush, hbody, hblock, rfl⟩ := compiles_lambda_iff.1 hcompiles
  rw [List.append_assoc, List.singleton_append] at hcode
  obtain ⟨a, vs, ha, hvs, hclimb⟩ := Frame.climbs_close hin.loads hpush hcode
  have hleave := (Program.hasCode_append_iff.1 hcode).2.2
  have hend := hleads.climbs (n := values.length + 1)
    (by simp only [List.length_append, List.length_singleton]) hleave (.closure a vs)
  obtain ⟨a', ha', hplaced⟩ := M.placed _ hblock
  rw [ha] at ha'
  cases ha'
  exact ⟨a, vs, hclimb.level hend (Nat.le_add_right ..),
    ⟨⟨cb, hbody, hplaced⟩, ⟨t, h.allowed⟩, h.fresh.1, h.fresh.2⟩, captures_of_loads hin hvs⟩

/-! ### Branches and sequences -/

theorem Poised.cond {test yes no : Expr Nat}
    (h : M.Poised scope find Right target (.cond test yes no t) c r) :
    ∃ k, M.Poised scope find Right none test c (c.past k) ∧ ∀ v : Value, ∃ m,
      M.program.Climbs 0 (c.after k v []) (c.after m v []) ∧
      M.Poised scope find Right target (if v.isFalse then no else yes) (c.after m v []) r := by
  obtain ⟨f, code, hcompiles, hcode, hin, hleads⟩ := h.code
  have hfresh := h.fresh
  have hallowed := h.allowed
  cases target with
  | none =>
    obtain ⟨ct, cy, cn, h₁, h₂, h₃, rfl⟩ := compiles_cond_value_iff.1 hcompiles
    simp only [Program.hasCode_append_iff, List.length_append, List.length_singleton] at hcode
    obtain ⟨⟨⟨⟨hct, hbranch⟩, hcy⟩, hjump⟩, hcn⟩ := hcode
    refine ⟨ct.length, ⟨⟨f, ct, h₁, hct, hin, .past c ct.length⟩, hfresh.1, hallowed.1⟩,
      fun v => ?_⟩
    cases hfalse : v.isFalse with
    | true =>
      have hmove := Program.moves_test_of_isFalse hbranch hfalse
      refine ⟨_, Program.climbs_zero_of_moves hmove (Nat.le_refl _),
        ⟨f, cn, h₃, hcn.move ?_, hin.after _ v [], hleads.after ?_ v⟩, hfresh.2.2, hallowed.2.2⟩
      · simp only [Config.after]
        omega
      · simp only [List.length_append, List.length_singleton]
        omega
    | false =>
      have hmove := Program.moves_test_of_not_isFalse hbranch hfalse
      refine ⟨_, Program.climbs_zero_of_moves hmove (Nat.le_refl _),
        ⟨f, cy, h₂, hcy, hin.after _ v [], fun w => ?_⟩, hfresh.2.1, hallowed.2.1⟩
      -- behind the first branch, a jump leads behind the second
      have hlen : (ct ++ [Inst.test (cy.length + 2)] ++ cy ++ [Inst.jump (cn.length + 1)] ++
          cn).length =
          ct.length + 1 + cy.length + (cn.length + 1) := by
        simp only [List.length_append, List.length_singleton]
        omega
      have hjoin := Program.moves_jump (c := c.after (ct.length + 1 + cy.length) w []) hjump
      rw [Config.after_after, ← hlen] at hjoin
      rw [Config.after_after]
      exact (Program.climbs_zero_of_moves hjoin (Nat.le_refl _)).level (hleads w) (Nat.le_refl _)
  | some target =>
    obtain ⟨ct, cy, cn, h₁, h₂, h₃, rfl⟩ := compiles_cond_tail_iff.1 hcompiles
    simp only [Program.hasCode_append_iff, List.length_append, List.length_singleton] at hcode
    obtain ⟨⟨⟨hct, hbranch⟩, hcy⟩, hcn⟩ := hcode
    refine ⟨ct.length, ⟨⟨f, ct, h₁, hct, hin, .past c ct.length⟩, hfresh.1, hallowed.1⟩,
      fun v => ?_⟩
    cases hfalse : v.isFalse with
    | true =>
      have hmove := Program.moves_test_of_isFalse hbranch hfalse
      refine ⟨_, Program.climbs_zero_of_moves hmove (Nat.le_refl _),
        ⟨f, cn, h₃, hcn.move ?_, hin.after _ v [], hleads⟩, hfresh.2.2, hallowed.2.2⟩
      simp only [Config.after]
      omega
    | false =>
      have hmove := Program.moves_test_of_not_isFalse hbranch hfalse
      exact ⟨_, Program.climbs_zero_of_moves hmove (Nat.le_refl _),
        ⟨f, cy, h₂, hcy, hin.after _ v [], hleads⟩, hfresh.2.1, hallowed.2.1⟩

theorem Poised.seq_one (h : M.Poised scope find Right target (.seq [e] t) c r) :
    M.Poised scope find Right target e c r := by
  obtain ⟨f, code, hcompiles, hcode, hin, hleads⟩ := h.code
  exact ⟨⟨f, code, compiles_seq_one_iff.1 hcompiles, hcode, hin, hleads⟩, h.fresh.1, h.allowed⟩

theorem Poised.seq_cons {e' : Expr Nat} {es : List (Expr Nat)}
    (h : M.Poised scope find Right target (.seq (e :: e' :: es) t) c r) :
    ∃ k, M.Poised scope find Right none e c (c.past k) ∧
      ∀ v, M.Poised scope find Right target (.seq (e' :: es) t) (c.after k v []) r := by
  obtain ⟨f, code, hcompiles, hcode, hin, hleads⟩ := h.code
  obtain ⟨first, rest, h₁, h₂, rfl⟩ := compiles_seq_cons_iff.1 hcompiles
  rw [Program.hasCode_append_iff] at hcode
  refine ⟨first.length, ⟨⟨f, first, h₁, hcode.1, hin, .past c first.length⟩, h.fresh.1,
    h.allowed.1⟩, fun v => ⟨⟨f, rest, h₂, hcode.2, hin.after _ v [], ?_⟩, h.fresh.2, h.allowed.2⟩⟩
  exact hleads.after (List.length_append ..) v

/-! ### Calls -/

/-- The machine is about to run the code of arguments, which has `k` instructions. -/
structure PoisedArgs (M : Image) (scope : List Name) (find : Name → Option D)
    (Right : D → Value → Prop) (es : List (Expr Nat)) (c : Config) (k : Nat) : Prop where
  code : ∃ f code, M.CompilesArgs f es code ∧ M.program.HasCode c.pc code ∧
    f.Holds M.program scope find Right c ∧ k = code.length
  fresh : Expr.FreshList scope es
  allowed : Expr.AtCallsList (Expr.TableAllows M.calls) es

theorem PoisedArgs.nil (h : M.PoisedArgs scope find Right [] c k) : k = 0 := by
  obtain ⟨f, code, hcompiles, _, _, rfl⟩ := h.code
  obtain rfl := compilesArgs_nil_iff.1 hcompiles
  rfl

theorem PoisedArgs.cons {es : List (Expr Nat)}
    (h : M.PoisedArgs scope find Right (e :: es) c k) :
    ∃ m, M.PoisedArgs scope find Right es c m ∧ ∀ v ws, es.length = ws.length → ∃ j,
      M.Poised scope find Right none e (c.after m v ws) ((c.after m v ws).past j) ∧
      ∀ w, M.program.Climbs 1 ((c.after m v ws).after j w []) (c.after k w (w :: ws)) := by
  obtain ⟨f, code, hcompiles, hcode, hin, rfl⟩ := h.code
  obtain ⟨rest, first, h₁, h₂, rfl⟩ := compilesArgs_cons_iff.1 hcompiles
  simp only [Program.hasCode_append_iff, List.length_append] at hcode
  obtain ⟨⟨hrest, hfirst⟩, hpush⟩ := hcode
  refine ⟨rest.length, ⟨⟨f, rest, h₁, hrest, hin, rfl⟩, h.fresh.2, h.allowed.2⟩,
    fun v ws hlen => ⟨first.length, ⟨⟨_, first, h₂, hfirst, ?_, .past _ first.length⟩, h.fresh.1,
      h.allowed.1⟩, fun w => ?_⟩⟩
  · rw [hlen]
    exact hin.after rest.length v ws
  · have hmove := Program.moves_push (c := c) (k := rest.length + first.length)
      (hpush.move (by omega)) w ws
    rw [Config.after_after, List.length_append, List.length_append, List.length_singleton]
    exact Program.climbs_of_moves hmove (Nat.max_eq_right (Nat.le_succ _))

/-- A call is about to be made, with its arguments on the stack above what it returns to. -/
structure Calls (M : Image) (c : Config) (v : Value) (ws : List Value) (r : Resume) : Prop where
  code : ∃ is, M.program.HasCode c.pc (.apply :: is)
  acc : c.acc = v
  cells : c.cells = ws ++ r.saved

/-- The machine is about to run the code of the arguments and the procedure of a call, and then to
make the call, which returns to `r`. -/
structure PoisedCall (M : Image) (scope : List Name) (find : Name → Option D)
    (Right : D → Value → Prop) (func : Expr Nat) (args : List (Expr Nat)) (c : Config)
    (r : Resume) : Prop where
  run : ∃ k, M.PoisedArgs scope find Right args c k ∧ ∀ v ws, args.length = ws.length → ∃ j,
    M.Poised scope find Right none func (c.after k v ws) ((c.after k v ws).past j) ∧
    ∀ w, ∃ d, M.program.Climbs 0 ((c.after k v ws).after j w []) d ∧ M.Calls d w ws r

/-- A call that is not in the table saves where it returns to before anything else. One that is
takes the place of the running procedure. -/
theorem Poised.app {func : Expr Nat} {args : List (Expr Nat)}
    (h : M.Poised scope find Right target (.app func args t) c r) :
    (M.calls.find? (·.app = t) = none ∧ ∃ back, back.cells = c.cells ∧
      M.program.Moves c (c.after 1 c.acc back.link) ∧
      M.PoisedCall scope find Right func args (c.after 1 c.acc back.link) back ∧
      ∀ v, M.program.Climbs 0 (back.config v) (r.config v)) ∨
    ∃ call, M.calls.find? (·.app = t) = some call ∧
      M.PoisedCall scope find Right func args c r ∧ r.saved.length ≤ c.cells.length := by
  obtain ⟨f, code, hcompiles, hcode, hin, hleads⟩ := h.code
  have hfresh := h.fresh
  have hallowed := h.allowed
  cases hcall : M.calls.find? (·.app = t) with
  | none =>
    obtain ⟨pushed, cf, h₁, h₂, rfl⟩ := (compiles_app_iff hcall).1 hcompiles
    simp only [Program.hasCode_append_iff, List.length_append, List.length_singleton] at hcode
    obtain ⟨⟨⟨⟨hframe, hpushed⟩, hcf⟩, happly⟩, hleave⟩ := hcode
    generalize hback : c.past (pushed.length + cf.length + 2) = back
    refine .inl ⟨rfl, back, by rw [← hback]; rfl, Program.moves_frame hframe hback.symm,
      ⟨pushed.length, ⟨⟨_, pushed, h₁, hpushed, hin.after 1 c.acc back.link, rfl⟩, hfresh.2,
        hallowed.2.2⟩, fun v ws hlen => ⟨cf.length, ⟨⟨_, cf, h₂, ?_, ?_, .past _ cf.length⟩,
          hfresh.1, hallowed.2.1⟩, fun w => ⟨_, Program.climbs_refl _, ⟨⟨[], ?_⟩, rfl, ?_⟩⟩⟩⟩,
      fun v => ?_⟩
    · exact hcf.move (Nat.add_assoc ..)
    · have hin' := hin.after (1 + pushed.length) v (ws ++ back.link)
      rw [List.length_append, Nat.add_comm, ← hlen] at hin'
      rw [Config.after_after]
      exact hin'
    · exact happly.move (by simp only [Config.after]; omega)
    · simp only [Config.after, ← hback, Resume.saved, Config.past, List.nil_append]
    · rw [← hback]
      refine hleads.climbs ?_ (hleave.move (by omega)) v
      simp only [List.length_append, List.length_singleton]
      omega
  | some call =>
    obtain ⟨pushed, cf, h₁, h₂, rfl⟩ := (compiles_tailApp_iff hcall).1 hcompiles
    obtain ⟨target, rfl, rfl⟩ := Option.map_eq_some_iff.1 (hallowed.1 call hcall)
    simp only [Program.hasCode_append_iff, List.length_append] at hcode
    obtain ⟨⟨hpushed, hcf⟩, hshift⟩ := hcode
    obtain ⟨dropped, hdropped, hcells⟩ := hleads
    refine .inr ⟨_, rfl, ⟨pushed.length, ⟨⟨_, pushed, h₁, hpushed, hin, rfl⟩, hfresh.2,
        hallowed.2.2⟩, fun v ws hlen => ⟨cf.length, ⟨⟨_, cf, h₂, hcf, ?_, .past _ cf.length⟩,
          hfresh.1, hallowed.2.1⟩, fun w => ?_⟩⟩, ?_⟩
    · rw [hlen]
      exact hin.after pushed.length v ws
    · -- the shift leaves the arguments on what the running procedure returns to
      rw [hlen, ← hdropped] at hshift
      have hmove := Program.moves_shift (c := c.after (pushed.length + cf.length) w ws) ws dropped
        r.saved hshift (by simp only [Config.after, hcells, List.append_assoc])
      rw [Config.after_after]
      refine ⟨_, Program.climbs_zero_of_moves hmove ?_, ⟨_, hshift.2⟩, rfl, rfl⟩
      simp only [Config.after, hcells, List.length_append]
      omega
    · simp only [hcells, List.length_append]
      omega

/-! ### Scopes -/

/-- The machine is about to run the code of bindings, which has `k` instructions, and from there on
in another frame. -/
structure PoisedBindings (M : Image) (scope : List Name) (find : Name → Option D)
    (Right : D → Value → Prop) (bs : List (Name × Expr Nat)) (c : Config) (k : Nat) (f' : Frame) :
    Prop where
  code : ∃ f code, M.CompilesBindings f bs code f' ∧ M.program.HasCode c.pc code ∧
    f.Holds M.program scope find Right c ∧ k = code.length
  fresh : Expr.FreshBindings scope bs
  allowed : Expr.AtCallsBindings (Expr.TableAllows M.calls) bs
  new : ∀ x ∈ bs.map (·.1), x ∉ scope ∧ Primitive.ofName? x = none

theorem PoisedBindings.imp {bs : List (Name × Expr Nat)} {f' : Frame}
    (h : M.PoisedBindings scope find Right bs c k f') (himp : ∀ d v, Right d v → Right' d v) :
    M.PoisedBindings scope find Right' bs c k f' := by
  obtain ⟨f, code, hcompiles, hcode, hin, hlen⟩ := h.code
  exact ⟨⟨f, code, hcompiles, hcode, hin.imp himp, hlen⟩, h.fresh, h.allowed, h.new⟩

theorem PoisedBindings.nil {f' : Frame} (h : M.PoisedBindings scope find Right [] c k f') :
    k = 0 ∧ f'.Holds M.program scope find Right c := by
  obtain ⟨f, code, hcompiles, _, hin, rfl⟩ := h.code
  obtain ⟨rfl, rfl⟩ := compilesBindings_nil_iff.1 hcompiles
  exact ⟨rfl, hin⟩

theorem PoisedBindings.cons {x : Name} {bs : List (Name × Expr Nat)} {f' : Frame}
    (h : M.PoisedBindings scope find Right ((x, e) :: bs) c k f') :
    ∃ m j, k = m + 1 + j ∧ M.Poised scope find Right none e c (c.past m) ∧ ∀ w,
      M.program.Climbs 1 (c.after m w []) (c.after (m + 1) w [w]) ∧
      M.PoisedBindings scope find Right bs (c.after (m + 1) w [w]) j f' := by
  obtain ⟨f, code, hcompiles, hcode, hin, rfl⟩ := h.code
  obtain ⟨hx, hnew⟩ := List.forall_mem_cons.1 h.new
  obtain ⟨first, rest, h₁, h₂, rfl⟩ := compilesBindings_cons_iff.1 hcompiles
  simp only [Program.hasCode_append_iff, List.length_append, List.length_singleton] at hcode
  obtain ⟨⟨hfirst, hpush⟩, hrest⟩ := hcode
  refine ⟨first.length, rest.length, ?_, ⟨⟨f, first, h₁, hfirst, hin, .past c first.length⟩,
    h.fresh.1, h.allowed.1⟩, fun w => ⟨?_, ⟨_, rest, h₂, hrest, ?_, rfl⟩, h.fresh.2, h.allowed.2,
      hnew⟩⟩
  · simp only [List.length_append, List.length_singleton]
  · exact Program.climbs_of_moves (Program.moves_push hpush w [])
      (Nat.max_eq_right (Nat.le_succ _))
  · exact hin.bind hx.1 hx.2 (first.length + 1) w w

/-- Names are bound in addition to those in scope, to what is right for the values. -/
def Extends (find find' : Name → Option D) (Right : D → Value → Prop) (xs : List Name)
    (ws : List Value) : Prop :=
  ∀ x d, find' x = some d → find x = some d ∨
    ∃ (i : Nat) (w : Value), xs[i]? = some x ∧ ws[i]? = some w ∧ Right d w

theorem Poised.letIn {bs : List (Name × Expr Nat)} {body : Expr Nat}
    (h : M.Poised scope find Right target (.letIn bs body t) c r) :
    ∃ k f', M.PoisedBindings scope find Right bs c k f' ∧
      ∀ (Right' : D → Value → Prop) find' v ws, bs.length = ws.length →
        f'.Holds M.program scope find Right' (c.after k v ws.reverse) →
        Extends find find' Right' (bs.map (·.1)) ws →
        M.Poised (bs.map (·.1) ++ scope) find' Right' (target.map (·.deeper bs.length)) body
          (c.after k v ws.reverse) r := by
  obtain ⟨f, code, hcompiles, hcode, hin, hleads⟩ := h.code
  obtain ⟨inits, cb, h₁, h₂, rfl⟩ := compiles_letIn_iff.1 hcompiles
  obtain ⟨hnew, hfreshInits, hfreshBody⟩ := h.fresh
  rw [List.append_assoc, Program.hasCode_append_iff, Program.hasCode_append_iff] at hcode
  refine ⟨inits.length, _, ⟨⟨f, inits, h₁, hcode.1, hin, rfl⟩, hfreshInits, h.allowed.1,
    fun x hx => ⟨hnew.notMem x hx, hnew.notPrim x hx⟩⟩, fun Right' find' v ws hlen hin' hfind => ?_⟩
  rw [← Context.ofTarget_deeper] at h₂
  refine ⟨⟨_, cb, h₂, hcode.2.1, hin'.enter hnew rfl hin.height hfind,
    hleads.deeper v hlen ?_ hcode.2.2⟩, hfreshBody, h.allowed.2⟩
  simp only [List.length_append, Nat.add_assoc]

theorem Poised.fix {ms : List (Member Nat (Expr Nat))} {body : Expr Nat}
    (h : M.Poised scope find Right target (.fix ms body t) c r) :
    ∃ k v ws, M.program.Climbs (Frame.groupClimb (capturedBy ms).length ms.length) c
        (c.after k v ws.reverse) ∧
      ms.length = ws.length ∧
      (∀ m ∈ ms, ∃ a, addressOf M.program.entries ⟨m.tag⟩ = .ok a ∧ M.Procedure (capturedBy ms)
        (groupLabels ms).reverse (ms.map (·.name) ++ scope) m.params m.body a) ∧
      (∀ (i : Nat) m, ms[i]? = some m → ∃ a vs, ws[i]? = some (.closure a vs) ∧
        addressOf M.program.entries ⟨m.tag⟩ = .ok a ∧ Captures (capturedBy ms) find Right vs) ∧
      ∀ find', Extends find find' Right (ms.map (·.name)) ws →
        M.Poised (ms.map (·.name) ++ scope) find' Right (target.map (·.deeper ms.length)) body
          (c.after k v ws.reverse) r := by
  obtain ⟨f, code, hcompiles, hcode, hin, hleads⟩ := h.code
  have hnew := h.fresh.1
  obtain ⟨closures, cb, _, hclose, h₂, rfl⟩ := compiles_fix_iff.1 hcompiles
  rw [List.append_assoc, Program.hasCode_append_iff, Program.hasCode_append_iff] at hcode
  obtain ⟨v, ws, hclimb, hin', hws⟩ := Frame.climbs_closeMembers hclose hcode.1 hin
    (by
      rw [map_fst_groupLabels]
      exact fun x hx => ⟨hnew.notMem x hx, hnew.notPrim x hx⟩)
    (by
      rw [map_fst_groupLabels]
      exact fun x hx => (Expr.notMem_and_notPrim_of_mem_freeMembers hx).1)
  have hlen := hws.length_eq
  rw [groupLabels, List.length_map] at hclimb hlen
  rw [← Context.ofTarget_deeper] at h₂
  refine ⟨closures.length, v, ws, hclimb, hlen,
    fun m hm => procedure_of_fix hcompiles h.fresh h.allowed hm, fun i m hm => ?_,
    fun find' hfind => ⟨⟨_, cb, h₂, hcode.2.1, hin'.enter hnew rfl hin.height hfind,
      hleads.deeper v hlen ?_ hcode.2.2⟩, h.fresh.2.2, h.allowed.2⟩⟩
  · obtain ⟨w, hw, a, vs, ha, hvs, rfl⟩ := getElem?_of_forall₂ hws (getElem?_groupLabels hm)
    exact ⟨a, vs, hw, ha, captures_of_loads hin hvs⟩
  · simp only [List.length_append, Nat.add_assoc]

end Image

end MiniScheme
