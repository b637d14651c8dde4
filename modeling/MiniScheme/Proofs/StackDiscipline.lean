import MiniScheme.Proofs.StackShapes

/-!
# Stacks of typed programs

The stack of a typed program is made of the running procedures, each with its arguments and with a
shape that the code it goes on with accepts. Every instruction keeps this, so a call always finds
its arguments and a link right below them, and a return finds the link it needs.
-/

namespace MiniScheme

/-- A call whose link is on the stack: it is still being prepared, or a closure was entered. -/
inductive Call where
  | prepared
  | entered
  deriving DecidableEq

/-- The calls whose links are on the stack after an instruction, the latest first. A primitive
returns as soon as it is called; a call without a link of its own takes over the latest. -/
def Inst.track (calls : List Call) (acc : Value) : Inst Nat → List Call
  | .frame _ => .prepared :: calls
  | .apply =>
    match acc with
    | .closure _ _ => .entered :: calls.tail
    | _ => calls.tail
  | .ret _ => calls.tail
  | _ => calls

/-- The calls whose links are on the stack after the next instruction, if there is one. -/
def State.track (s : State) (p : Program) (calls : List Call) : List Call :=
  match s.next p none with
  | .ok (some i) => i.track calls s.acc
  | _ => calls

theorem State.track_of_next {s : State} {p : Program} {i : Inst Nat}
    (h : s.next p none = .ok (some i)) (calls : List Call) :
    s.track p calls = i.track calls s.acc := by
  unfold track
  rw [h]

theorem State.track_of_halted {s : State} (h : s.halted = true) (p : Program)
    (calls : List Call) : s.track p calls = calls := by
  have hnext : s.next p none = .ok none := by simp [next, h]
  unfold track
  rw [hnext]

/-- A running procedure with the values it has captured. -/
structure Running where
  act : Activation
  fp : Nat
  body : Nat
  captured : List Value

/-- Where a running procedure goes on. -/
def Running.resume (run : Running) (pc : Nat) (cells : List Value) : Resume :=
  ⟨pc, run.fp, run.body, run.captured, cells⟩

/-- A configuration is one of a running procedure. -/
def Running.At (run : Running) (c : Config) : Prop :=
  c.fp = run.fp ∧ c.body = run.body ∧ c.captured = run.captured

theorem Running.At.config_eq {run : Running} {c : Config} (h : run.At c) :
    (run.resume c.pc c.cells).config c.acc = c := by
  obtain ⟨hfp, hbody, hcaptured⟩ := h
  ext1
  · rfl
  · rfl
  · exact hfp.symm
  · exact hbody.symm
  · exact hcaptured.symm
  · rfl

open Shape

namespace Image

/-- A value has a type. -/
inductive HasTy (M : Image) : Value → Ty → Prop where
  | lit (l : Literal) : HasTy M (.lit l) l.ty
  | prim {q : Primitive} {ty : Ty} (hq : q.HasTy ty) : HasTy M (.prim q) ty
  | closure {a : Nat} {vs : List Value} {sig : Signature} {tys : List Ty}
      (hproc : M.Provides a sig tys) (hvs : List.Forall₂ (HasTy M) vs tys) :
      HasTy M (.closure a vs) sig.ty

/-- The cells of the stack while a procedure is running, above which it has pushed a shape. -/
inductive Stacked (M : Image) : Running → Shape → List Value → List Call → Prop where
  | main : Stacked M ⟨.main, 0, 0, []⟩ [] [] []
  | entered {caller run : Running} {shape : Shape} {args cells : List Value} {calls : List Call}
      {ty : Ty} (hbelow : Stacked M caller (.link ty :: shape) cells (.prepared :: calls))
      (hresult : run.act.result = some ty) (hargs : List.Forall₂ M.HasTy args run.act.params)
      (hcaptured : List.Forall₂ M.HasTy run.captured run.act.captured)
      (hfp : run.fp = (args ++ cells).length)
      (hroom : args.length ≤ 3 * M.program.code.size) :
      Stacked M run [] (args ++ cells) (.entered :: calls)
  | value {run : Running} {shape : Shape} {cells : List Value} {calls : List Call} {v : Value}
      {ty : Ty} (hbelow : Stacked M run shape cells calls) (hv : M.HasTy v ty) :
      Stacked M run (.value ty :: shape) (v :: cells) calls
  | link {run : Running} {shape : Shape} {cells : List Value} {calls : List Call} {pc : Nat}
      {ty : Ty} (hbelow : Stacked M run shape cells calls)
      (hrest : M.Accepts run.act pc shape (some ty)) (hroom : size shape ≤ 3 * pc) :
      Stacked M run (.link ty :: shape) (run.resume pc cells).saved (.prepared :: calls)

variable {M : Image} {run : Running} {shape : Shape} {cells : List Value} {calls : List Call}
  {ty : Ty} {tys : List Ty} {sig : Signature}

theorem HasTy.suits {v : Value} (h : M.HasTy v ty) : v.Suits ty := by
  cases h with
  | lit l => exact .inl ⟨l, rfl, rfl⟩
  | prim hq => exact .inr ⟨rfl, rfl, hq.arrow⟩
  | closure _ _ => exact .inr ⟨rfl, rfl, _, rfl⟩

theorem hasTy_of_mem {vs : List Value} (h : List.Forall₂ M.HasTy vs tys) :
    ∀ v ∈ vs, ∃ ty, M.HasTy v ty := by
  intro v hv
  obtain ⟨k, hk⟩ := List.getElem?_of_mem hv
  obtain ⟨ty, _, hty⟩ := getElem?_of_forall₂ h hk
  exact ⟨ty, hty⟩

theorem Accepts.lt {act : Activation} {pc : Nat} {acc : Option Ty}
    (h : M.Accepts act pc shape acc) : pc < M.program.code.size := by
  have hlt {i : Inst Label} {is : Code} (hcode : M.program.HasCode pc (i :: is)) :
      pc < M.program.code.size := by
    obtain ⟨⟨j, _, hj⟩, _⟩ := hcode
    exact (Array.getElem?_eq_some_iff.1 hj).1
  cases h <;> exact hlt ‹_›

theorem Fetches.track_eq {act : Activation} {j : Inst Nat} (h : M.Fetches act shape j ty)
    (calls : List Call) (acc : Value) : j.track calls acc = calls := by
  cases h <;> rfl

/-! ### Reading the stack -/

namespace Stacked

theorem height (h : M.Stacked run shape cells calls) : cells.length = run.fp + size shape := by
  induction h with
  | main => rfl
  | entered _ _ _ _ hfp _ _ =>
    rw [hfp]
    rfl
  | value _ _ ih =>
    rw [List.length_cons, ih, size_cons, Cell.size]
    omega
  | link _ _ _ ih =>
    rw [Resume.saved, List.length_append, size_cons]
    simp only [Resume.link, Running.resume, Cell.size, List.length_cons, List.length_nil, ih]
    omega

theorem captured (h : M.Stacked run shape cells calls) :
    List.Forall₂ M.HasTy run.captured run.act.captured := by
  induction h with
  | main => exact .nil
  | entered _ _ _ hcaptured _ _ _ => exact hcaptured
  | value _ _ ih => exact ih
  | link _ _ _ ih => exact ih

theorem param (h : M.Stacked run shape cells calls) {k : Nat} (hk : run.act.params[k]? = some ty)
    (v : Value) (pc : Nat) :
    ∃ w, ((run.resume pc cells).config v).fetch (.refLocal k) = some w ∧ M.HasTy w ty := by
  induction h with
  | main => simp [Activation.main] at hk
  | @entered _ run _ args cells _ _ _ _ hargs _ hfp _ _ =>
    obtain ⟨w, hw, hty⟩ := getElem?_of_forall₂ hargs.flip hk
    refine ⟨w, ?_, hty⟩
    rw [Frame.fetch_param (c := (run.resume pc (args ++ cells)).config v) rfl hfp
      (List.getElem?_eq_some_iff.1 hw).1]
    exact hw
  | @value run _ cells _ u _ _ _ ih =>
    obtain ⟨w, hw, hty⟩ := ih hk
    exact ⟨w, Config.fetch_after hw 0 v [u], hty⟩
  | @link run _ cells _ pc' _ _ _ _ ih =>
    obtain ⟨w, hw, hty⟩ := ih hk
    exact ⟨w, Config.fetch_after hw 0 v (run.resume pc' cells).link, hty⟩

theorem temp (h : M.Stacked run shape cells calls) {above below : Shape}
    (hshape : shape = above ++ .value ty :: below) (v : Value) (pc : Nat) :
    ∃ w, ((run.resume pc cells).config v).fetch (.refTemp (size below)) = some w ∧
      M.HasTy w ty := by
  induction h generalizing above with
  | main => simp at hshape
  | entered _ _ _ _ _ _ _ => simp at hshape
  | @value run shape cells _ u _ hbelow hu ih =>
    cases above with
    | nil =>
      cases hshape
      refine ⟨u, ?_, hu⟩
      have hheight := hbelow.height
      simp [Config.fetch, Resume.config, Running.resume, ← hheight]
    | cons cell above =>
      obtain ⟨w, hw, hty⟩ := ih (List.cons.inj hshape).2
      exact ⟨w, Config.fetch_after hw 0 v [u], hty⟩
  | @link run shape cells _ pc' _ hbelow _ _ ih =>
    cases above with
    | nil => simp at hshape
    | cons cell above =>
      obtain ⟨w, hw, hty⟩ := ih (List.cons.inj hshape).2
      exact ⟨w, Config.fetch_after hw 0 v (run.resume pc' cells).link, hty⟩

/-- A reference loads a value of the type that is expected of it. -/
theorem fetch (h : M.Stacked run shape cells calls) {j : Inst Nat}
    (hj : M.Fetches run.act shape j ty) (v : Value) (pc : Nat) :
    ∃ w, ((run.resume pc cells).config v).fetch j = some w ∧ M.HasTy w ty := by
  cases hj with
  | @prim q _ hq => exact ⟨.prim q, by simp [Config.fetch, Primitive.ofIndex?_index], .prim hq⟩
  | param hk => exact h.param hk v pc
  | temp hshape => exact h.temp hshape v pc
  | captured hk =>
    obtain ⟨w, hw, hty⟩ := getElem?_of_forall₂ h.captured.flip hk
    exact ⟨w, hw, hty⟩
  | @member a _ ha => exact ⟨.closure a run.captured, rfl, .closure ha h.captured⟩

theorem split (h : M.Stacked run (values tys ++ shape) cells calls) :
    ∃ vs rest, cells = vs ++ rest ∧ List.Forall₂ M.HasTy vs tys ∧
      M.Stacked run shape rest calls := by
  induction tys generalizing cells with
  | nil => exact ⟨[], cells, rfl, .nil, h⟩
  | cons ty tys ih =>
    cases h with
    | @value _ _ cells _ v _ hbelow hv =>
      obtain ⟨vs, rest, rfl, hvs, hrest⟩ := ih hbelow
      exact ⟨v :: vs, rest, rfl, .cons hv hvs, hrest⟩

/-- A procedure that gives its value to a caller was entered by a call. -/
theorem called (h : M.Stacked run [] cells calls) (hresult : run.act.result = some ty) :
    ∃ caller shape args rest calls', cells = args ++ rest ∧ calls = .entered :: calls' ∧
      args.length = run.act.params.length ∧
      M.Stacked caller (.link ty :: shape) rest (.prepared :: calls') := by
  cases h with
  | main => exact nomatch hresult
  | @entered caller _ shape args cells calls ty' hbelow hresult' hargs _ _ _ =>
    rw [hresult'] at hresult
    cases hresult
    exact ⟨caller, shape, args, cells, calls, rfl, rfl, hargs.length_eq, hbelow⟩

/-- The main block was not called: nothing is below what it has pushed. -/
theorem of_main (h : M.Stacked run [] cells calls) (hact : run.act.result = none) :
    cells = [] ∧ run.fp = 0 := by
  cases h with
  | main => exact ⟨rfl, rfl⟩
  | entered _ hresult =>
    rw [hact] at hresult
    exact nomatch hresult

/-- Behind a link, its procedure goes on. -/
theorem linked (h : M.Stacked run (.link ty :: shape) cells calls) :
    ∃ pc rest calls', cells = (run.resume pc rest).saved ∧ calls = .prepared :: calls' ∧
      M.Stacked run shape rest calls' ∧ M.Accepts run.act pc shape (some ty) ∧
      size shape ≤ 3 * pc := by
  cases h with
  | @link _ _ rest calls' pc _ hbelow hrest hroom =>
    exact ⟨pc, rest, calls', rfl, rfl, hbelow, hrest, hroom⟩

end Stacked

/-! ### States -/

/-- A configuration in which a typed program may be: inside the code of a procedure, or between
the two instructions of a call in tail position. -/
inductive Consistent (M : Image) (c : Config) : List Call → Prop where
  | running {run : Running} {shape : Shape} {calls : List Call} {acc : Option Ty}
      (hstack : M.Stacked run shape c.cells calls) (hat : run.At c)
      (hcode : M.Accepts run.act c.pc shape acc) (hacc : ∀ ty, acc = some ty → M.HasTy c.acc ty)
      (hroom : size shape ≤ 3 * c.pc) : Consistent M c calls
  | calling {caller : Running} {shape : Shape} {args cells : List Value} {calls : List Call}
      {sig : Signature} {is : Code}
      (hstack : M.Stacked caller (.link sig.result :: shape) cells (.prepared :: calls))
      (hcode : M.program.HasCode c.pc (.apply :: is)) (hacc : M.HasTy c.acc sig.ty)
      (hcells : c.cells = args ++ cells) (hargs : List.Forall₂ M.HasTy args sig.params)
      (hroom : args.length ≤ 3 * M.program.code.size) : Consistent M c (.entered :: calls)

/-- The cells that an instruction of a typed program leaves in a configuration: values above some
of those it found, or all of these under the link of a call. -/
inductive Piles (M : Image) (c : Config) : List Value → Prop where
  | values {vs rest : List Value} (hvs : ∀ v ∈ vs, ∃ ty, M.HasTy v ty) (hrest : rest <:+ c.cells) :
      Piles M c (vs ++ rest)
  | link {n : Nat} (hj : M.program.code[c.pc]? = some (.frame n)) :
      Piles M c (Resume.saved ⟨c.pc + n, c.fp, c.body, c.captured, c.cells⟩)

theorem Piles.of_suffix {c : Config} (h : cells <:+ c.cells) : M.Piles c cells := by
  have hnone : ∀ v ∈ ([] : List Value), ∃ ty, M.HasTy v ty := nofun
  exact .values hnone h

/-- What an instruction of a typed program stores in the registers and on the stack. Only one that
makes room for a call in tail position leaves fewer cells than the frame pointer counts; the
arguments that it keeps were all above these. -/
structure Stores (M : Image) (c c' : Config) : Prop where
  acc : c'.acc = c.acc ∨ ∃ ty, M.HasTy c'.acc ty
  captured : c'.captured = c.captured ∨ ∀ v ∈ c'.captured, ∃ ty, M.HasTy v ty
  cells : M.Piles c c'.cells
  fp : c'.fp ≤ c'.cells.length ∨ ∃ kept dropped,
    M.program.code[c.pc]? = some (.shift kept dropped) ∧ c'.fp + kept ≤ c'.cells.length + dropped

theorem Stacked.stores {c c' : Config} (h : M.Stacked run shape c'.cells calls) (hat : run.At c')
    (hacc : c'.acc = c.acc ∨ ∃ ty, M.HasTy c'.acc ty) (hcells : M.Piles c c'.cells) :
    M.Stores c c' := by
  obtain ⟨hfp, _, hcaptured⟩ := hat
  have hheight := h.height
  refine ⟨hacc, .inr ?_, hcells, .inl (by omega)⟩
  rw [hcaptured]
  exact hasTy_of_mem h.captured

/-- The next instruction leads to a state in which a typed program may be, or it traps and leaves
the registers and the stack alone. -/
def Advances (M : Image) (s : State) (calls : List Call) : Prop :=
  (∃ s' running, s.step M.program none = (s', .ok running) ∧
      M.Consistent s'.config (s.track M.program calls) ∧ M.Stores s.config s'.config ∧
      (s'.halted = true → s'.stack.cells = [] ∧ s'.fp = 0)) ∨
    ∃ s' t, s.step M.program none = (s', .error t) ∧ s' = { s with pc := s.pc + 1 }

theorem advances_of_moves {s : State} {c : Config} {j : Inst Nat} (hrun : s.halted = false)
    (hj : M.program.code[s.pc]? = some j) (hmove : M.program.Moves s.config c)
    (hc : M.Consistent c (j.track calls s.acc)) (hstores : M.Stores s.config c) :
    M.Advances s calls := by
  obtain ⟨s', hstep, hrun', hs'⟩ := hmove s hrun rfl
  refine .inl ⟨s', true, hstep, ?_, hs' ▸ hstores, by simp [hrun']⟩
  rw [hs', State.track_of_next (Program.next_of_fetched hrun hj)]
  exact hc

theorem advances_apply {s : State} {caller : Running} {args : List Value} {is : Code}
    (hrun : s.halted = false) (hcode : M.program.HasCode s.pc (.apply :: is))
    (hacc : M.HasTy s.acc sig.ty) (hcells : s.stack.cells = args ++ cells)
    (hargs : List.Forall₂ M.HasTy args sig.params)
    (hstack : M.Stacked caller (.link sig.result :: shape) cells (.prepared :: calls))
    (hroom : args.length ≤ 3 * M.program.code.size) (call : Call) :
    M.Advances s (call :: calls) := by
  have hfetch : M.program.code[s.pc]? = some .apply := hcode.fetched rfl
  generalize hv : s.acc = v at hacc
  generalize hty : sig.ty = ty at hacc
  cases hacc with
  | lit l => cases l <;> exact nomatch hty
  | @prim q _ hq =>
    subst hty
    -- a primitive returns at once, through the link below its arguments
    obtain ⟨pc, rest, calls', hsaved, hcalls, hrest, haccepts, hroom'⟩ := hstack.linked
    cases hcalls
    rw [hsaved] at hcells
    have hsuits := hargs.imp fun _ _ h => h.suits
    rcases Program.step_apply_prim hrun hfetch hv hq hsuits hcells with
      ⟨s', l, hstep, hrun', hs', hresult⟩ | ⟨t, hstep, _⟩
    · refine .inl ⟨s', true, hstep, ?_, ?_, by simp [hrun']⟩
      · rw [hs', State.track_of_next (Program.next_of_fetched hrun hfetch), hv]
        show M.Consistent _ calls
        refine .running hrest ⟨rfl, rfl, rfl⟩ haccepts ?_ hroom'
        rintro ty ⟨⟩
        rw [← hresult]
        exact .lit l
      · have hsuffix : rest <:+ s.config.cells :=
          ⟨args ++ Resume.link _, (List.append_assoc ..).trans hcells.symm⟩
        rw [hs']
        exact hrest.stores ⟨rfl, rfl, rfl⟩ (.inr ⟨_, .lit l⟩) (.of_suffix hsuffix)
    · exact .inr ⟨_, t, hstep, rfl⟩
  | @closure a vs sig' tys hproc hvs =>
    obtain rfl := Signature.eq_of_ty_eq hty
    have hentered : M.Stacked ⟨sig.activation tys, s.stack.cells.length, a, vs⟩ [] s.stack.cells
        (.entered :: calls) := by
      rw [hcells]
      exact .entered hstack rfl hargs hvs rfl hroom
    have haccepts : M.Accepts (sig.activation tys) a [] none := hproc.accepts
    refine advances_of_moves hrun hfetch (Program.moves_apply_closure hcode hv) ?_
      (hentered.stores ⟨rfl, rfl, rfl⟩ (.inl rfl) (.of_suffix List.suffix_rfl))
    rw [hv]
    exact .running hentered ⟨rfl, rfl, rfl⟩ haccepts nofun (Nat.zero_le _)

theorem advances_close {s : State} {l : Label} {a : Nat} {is : Code} (hrun : s.halted = false)
    (hstack : M.Stacked run (values tys.reverse ++ shape) s.stack.cells calls)
    (hat : run.At s.config) (hcode : M.program.HasCode s.pc (.close tys.length l :: is))
    (ha : addressOf M.program.entries l = .ok a) (hproc : M.Provides a sig tys)
    (hrest : M.Accepts run.act (s.pc + 1) shape (some sig.ty))
    (hroom : size shape ≤ 3 * (s.pc + 1)) : M.Advances s calls := by
  obtain ⟨vs, rest, hcells, hvs, hbelow⟩ := hstack.split
  have hlen : tys.length = vs.reverse.length := by
    rw [List.length_reverse, hvs.length_eq, List.length_reverse]
  rw [hlen] at hcode
  have hj : (Inst.close vs.reverse.length l).mapAddress (addressOf M.program.entries) =
      .ok (.close vs.reverse.length a) := by
    simp [Inst.mapAddress, ha, Except.map]
  have hcells' : s.config.cells = vs.reverse.reverse ++ rest := by
    rw [List.reverse_reverse]
    exact hcells
  have hmove := Program.moves_close hcode ha hcells'
  have hclosure : M.HasTy (.closure a vs.reverse) sig.ty :=
    .closure hproc (List.reverse_reverse tys ▸ List.rel_reverse hvs)
  refine advances_of_moves hrun (hcode.fetched hj) hmove (.running hbelow hat hrest ?_ hroom)
    (hbelow.stores hat (.inr ⟨_, hclosure⟩) (.of_suffix ⟨vs, hcells.symm⟩))
  rintro _ ⟨⟩
  exact hclosure

theorem advances_frame {s : State} {n : Nat} {acc : Option Ty} {is : Code}
    (hrun : s.halted = false) (hstack : M.Stacked run shape s.stack.cells calls)
    (hat : run.At s.config) (hcode : M.program.HasCode s.pc (.frame n :: is))
    (hcall : M.Accepts run.act (s.pc + 1) (.link ty :: shape) acc)
    (hrest : M.Accepts run.act (s.pc + n) shape (some ty))
    (hacc : ∀ ty, acc = some ty → M.HasTy s.acc ty) (hroom : size shape ≤ 3 * s.pc) :
    M.Advances s calls := by
  obtain ⟨hfp, hbody, hcaptured⟩ := hat
  have hlink : run.resume (s.pc + n) s.stack.cells =
      ⟨s.config.pc + n, s.config.fp, s.config.body, s.config.captured, s.config.cells⟩ := by
    rw [hfp, hbody, hcaptured]
    rfl
  have hfetch : M.program.code[s.pc]? = some (.frame n) := hcode.fetched rfl
  have hlinked : M.Stacked run (.link ty :: shape) (run.resume (s.pc + n) s.stack.cells).saved
      (.prepared :: calls) := by
    refine .link hstack hrest ?_
    omega
  have hpiles : M.Piles s.config (run.resume (s.pc + n) s.stack.cells).saved := by
    rw [hlink]
    exact .link hfetch
  refine advances_of_moves hrun hfetch (Program.moves_frame hcode hlink) ?_
    (hlinked.stores ⟨hfp, hbody, hcaptured⟩ (.inl rfl) hpiles)
  refine .running hlinked ⟨hfp, hbody, hcaptured⟩ hcall hacc ?_
  show 3 + size shape ≤ 3 * (s.pc + 1)
  omega

theorem advances_pop {s : State} {acc : Option Ty} {is : Code} (hrun : s.halted = false)
    (hstack : M.Stacked run (values tys ++ shape) s.stack.cells calls) (hat : run.At s.config)
    (hcode : M.program.HasCode s.pc (.pop tys.length :: is))
    (hrest : M.Accepts run.act (s.pc + 1) shape acc)
    (hacc : ∀ ty, acc = some ty → M.HasTy s.acc ty) (hroom : size shape ≤ 3 * (s.pc + 1)) :
    M.Advances s calls := by
  obtain ⟨vs, rest, hcells, hvs, hbelow⟩ := hstack.split
  replace hcells : s.config.cells = vs ++ rest := hcells
  rw [← hvs.length_eq] at hcode
  have hle : vs.length ≤ s.config.cells.length := by
    rw [hcells, List.length_append]
    omega
  have hmove := Program.moves_pop hcode hle
  rw [hcells, List.drop_left] at hmove
  exact advances_of_moves hrun (hcode.fetched rfl) hmove (.running hbelow hat hrest hacc hroom)
    (hbelow.stores hat (.inl rfl) (.of_suffix ⟨vs, hcells.symm⟩))

/-- What a procedure with a caller has on the stack: its temporaries, its arguments and the link
of the call. -/
theorem Stacked.unwind (h : M.Stacked run (values tys) cells calls)
    (hresult : run.act.result = some ty) :
    ∃ caller shape dropped rest calls', cells = dropped ++ rest ∧ calls = .entered :: calls' ∧
      dropped.length = tys.length + run.act.params.length ∧
      M.Stacked caller (.link ty :: shape) rest (.prepared :: calls') := by
  rw [← List.append_nil (values tys)] at h
  obtain ⟨temps, below, rfl, htemps, hbelow⟩ := h.split
  obtain ⟨caller, shape, args, rest, calls', rfl, rfl, hargs, hcaller⟩ := hbelow.called hresult
  refine ⟨caller, shape, temps ++ args, rest, calls', (List.append_assoc ..).symm, rfl, ?_, hcaller⟩
  rw [List.length_append, htemps.length_eq, hargs]

theorem advances_shift {s : State} {is : Code} (hrun : s.halted = false)
    (hstack : M.Stacked run (values sig.params ++ values tys) s.stack.cells calls)
    (hat : run.At s.config)
    (hcode : M.program.HasCode s.pc
      (.shift sig.params.length (tys.length + run.act.params.length) :: .apply :: is))
    (hresult : run.act.result = some sig.result) (hacc : M.HasTy s.acc sig.ty)
    (hroom : sig.params.length ≤ 3 * M.program.code.size) : M.Advances s calls := by
  obtain ⟨args, below, hcells, hargs, hbelow⟩ := hstack.split
  have hheight := hbelow.height
  obtain ⟨caller, shape, dropped, rest, calls', rfl, rfl, hdropped, hcaller⟩ :=
    hbelow.unwind hresult
  have happly := hcode.2
  rw [← hargs.length_eq] at hroom
  rw [← hargs.length_eq, ← hdropped] at hcode
  have hcells' : s.config.cells = args ++ dropped ++ rest := by
    rw [List.append_assoc]
    exact hcells
  have hmove := Program.moves_shift args dropped rest hcode hcells'
  have hfetch := hcode.fetched rfl
  have hfp : s.config.fp + args.length ≤ (args ++ rest).length + dropped.length := by
    rw [List.length_append] at hheight
    rw [hat.1, List.length_append]
    omega
  exact advances_of_moves hrun hfetch hmove (.calling hcaller happly hacc rfl hargs hroom)
    ⟨.inl rfl, .inl rfl, .values (hasTy_of_mem hargs) ⟨args ++ dropped, hcells'.symm⟩,
      .inr ⟨_, _, hfetch, hfp⟩⟩

theorem advances_ret {s : State} {is : Code} (hrun : s.halted = false)
    (hstack : M.Stacked run (values tys) s.stack.cells calls)
    (hcode : M.program.HasCode s.pc (.ret (tys.length + run.act.params.length) :: is))
    (hresult : run.act.result = some ty) (hacc : M.HasTy s.acc ty) : M.Advances s calls := by
  obtain ⟨caller, shape, dropped, rest, calls', hcells, rfl, hdropped, hcaller⟩ :=
    hstack.unwind hresult
  obtain ⟨pc, rest, _, rfl, hcalls, hbelow, haccepts, hroom⟩ := hcaller.linked
  cases hcalls
  rw [← hdropped] at hcode
  have hsuffix : rest <:+ s.config.cells :=
    ⟨dropped ++ Resume.link _, (List.append_assoc ..).trans hcells.symm⟩
  refine advances_of_moves hrun (hcode.fetched rfl) (Program.moves_ret hcode hcells) ?_
    (hbelow.stores ⟨rfl, rfl, rfl⟩ (.inl rfl) (.of_suffix hsuffix))
  refine .running hbelow ⟨rfl, rfl, rfl⟩ haccepts ?_ hroom
  rintro _ ⟨⟩
  exact hacc

/-- Every instruction of a typed program leaves it in a state in which it may be. -/
theorem Consistent.advances {s : State} (h : M.Consistent s.config calls)
    (hrun : s.halted = false) : M.Advances s calls := by
  cases h with
  | calling hstack hcode hacc hcells hargs hroom =>
    exact advances_apply hrun hcode hacc hcells hargs hstack hroom .entered
  | @running run shape _ acc hstack hat hcode hacc hroom =>
    have hlt : s.pc < M.program.code.size := hcode.lt
    -- code runs forward inside a procedure, so there is ever more room for the same shape
    have hlater (n : Nat) : size shape ≤ 3 * (s.pc + n) :=
      Nat.le_trans hroom (Nat.mul_le_mul_left 3 (Nat.le_add_right s.pc n))
    replace hroom : size shape ≤ 3 * s.pc := hroom
    have hstores (n : Nat) (v : Value) (hv : v = s.acc ∨ ∃ ty, M.HasTy v ty) :
        M.Stores s.config (s.config.after n v []) := by
      have hat' : run.At (s.config.after n v []) := hat
      exact Stacked.stores hstack hat' hv (.of_suffix List.suffix_rfl)
    cases hcode with
    | const hcode hrest =>
      refine advances_of_moves hrun (hcode.fetched rfl) (Program.moves_const hcode) ?_
        (hstores 1 _ (.inr ⟨_, .lit _⟩))
      refine .running hstack hat hrest ?_ (hlater 1)
      rintro _ ⟨⟩
      exact .lit _
    | fetch hcode hj hty hrest =>
      obtain ⟨w, hw, hwty⟩ := hstack.fetch hty s.config.acc s.config.pc
      rw [hat.config_eq] at hw
      refine advances_of_moves hrun (hcode.fetched hj) (Program.moves_fetch hcode hj hw) ?_
        (hstores 1 w (.inr ⟨_, hwty⟩))
      rw [hty.track_eq]
      refine .running hstack hat hrest ?_ (hlater 1)
      rintro _ ⟨⟩
      exact hwty
    | @push _ _ ty _ hcode hrest =>
      have hmove := Program.moves_push (c := s.config) (k := 0) hcode s.acc []
      have hpushed := hstack.value (hacc ty rfl)
      have hone : ∀ v ∈ [s.acc], ∃ ty, M.HasTy v ty := by
        simpa using ⟨ty, hacc ty rfl⟩
      have hpiles : M.Piles s.config (s.acc :: s.stack.cells) := .values hone List.suffix_rfl
      refine advances_of_moves hrun (hcode.fetched rfl) hmove ?_
        (hpushed.stores hat (.inl rfl) hpiles)
      refine .running hpushed hat hrest hacc ?_
      show 1 + size shape ≤ 3 * (s.pc + 1)
      omega
    | close hcode ha hproc hrest =>
      rw [size_append] at hroom
      exact advances_close hrun hstack hat hcode ha hproc hrest (by omega)
    | test hcode hyes hno =>
      cases hfalse : s.acc.isFalse with
      | true =>
        have hmove := Program.moves_test_of_isFalse (c := s.config) (k := 0) hcode hfalse
        rw [Nat.zero_add] at hmove
        refine advances_of_moves hrun (hcode.fetched rfl) hmove ?_
          (hstores _ s.acc (.inl rfl))
        exact .running hstack hat hno hacc (hlater _)
      | false =>
        have hmove := Program.moves_test_of_not_isFalse (c := s.config) (k := 0) hcode hfalse
        refine advances_of_moves hrun (hcode.fetched rfl) hmove ?_
          (hstores _ s.acc (.inl rfl))
        exact .running hstack hat hyes hacc (hlater 1)
    | jump hcode hrest =>
      refine advances_of_moves hrun (hcode.fetched rfl) (Program.moves_jump hcode) ?_
        (hstores _ s.acc (.inl rfl))
      exact .running hstack hat hrest hacc (hlater _)
    | frame hcode hcall hrest =>
      exact advances_frame hrun hstack hat hcode hcall hrest hacc hroom
    | apply hcode =>
      obtain ⟨args, rest, hcells, hargs, hbelow⟩ := hstack.split
      obtain ⟨_, _, calls', _, rfl, _⟩ := hbelow.linked
      refine advances_apply hrun hcode (hacc _ rfl) hcells hargs hbelow ?_ .prepared
      rw [size_append, size_values, ← hargs.length_eq] at hroom
      omega
    | shift hcode hresult =>
      rw [size_append, size_values] at hroom
      exact advances_shift hrun hstack hat hcode hresult (hacc _ rfl) (by omega)
    | pop hcode hrest =>
      rw [size_append] at hroom
      exact advances_pop hrun hstack hat hcode hrest hacc (by omega)
    | ret hcode hresult => exact advances_ret hrun hstack hcode hresult (hacc _ rfl)
    | halt hcode hact =>
      refine .inl ⟨_, false, Program.step_of_halt hrun hcode, ?_,
        hstores 0 s.acc (.inl rfl), fun _ => ?_⟩
      · rw [State.track_of_next (Program.next_of_fetched hrun (hcode.fetched rfl))]
        exact .running hstack hat (.halt hcode hact) hacc hroom
      · obtain ⟨hcells, hfp⟩ := hstack.of_main (congrArg Activation.result hact)
        exact ⟨hcells, hat.1.trans hfp⟩

end Image

end MiniScheme
