import MiniScheme.Proofs.Generation
import MiniScheme.Proofs.Typing

/-!
# Secure runs

A run is secure if the only trap it meets is that of equality on a procedure, and the value it
halts with is as asked for. What a type promises about a value of the machine is said in terms of
secure runs: a procedure may be called with arguments of its parameter types wherever the rest of
the run is secure for every result of its result type. As a procedure may be called from inside
itself, both are counted in instructions.
-/

namespace MiniScheme

/-- The next instruction applies equality to two values of which one is a procedure, and that is
what the trap reports. -/
def State.Excuses (s : State) (p : Program) (t : Trap) : Prop :=
  p.code[s.pc]? = some .apply ∧ s.acc = .prim .eq ∧
    ∃ v ∈ s.stack.cells.take Primitive.eq.arity, v.isProcedure = true ∧
      t = .notLiteral .eq v.text

/-- A value is a literal of a type, or the type is one of procedures and the value a procedure. -/
def Value.Suits (v : Value) (ty : Ty) : Prop :=
  (∃ l, v = .lit l ∧ ty = l.ty) ∨
    v.literal? = none ∧ v.isProcedure = true ∧ ∃ tys, ty = .arrow tys

theorem Value.literals_of_suits {ws : List Value} {tys : List Ty}
    (h : List.Forall₂ Value.Suits ws tys) :
    (∃ ls : List Literal, ws = ls.map .lit ∧ ls.map Literal.ty = tys) ∨
      (∃ w ∈ ws, w.literal? = none) ∧ ∃ ty ∈ tys, ∃ ts, ty = .arrow ts := by
  induction h with
  | nil => exact .inl ⟨[], rfl, rfl⟩
  | @cons w ty ws tys hw _ ih =>
    rcases hw with ⟨l, rfl, rfl⟩ | ⟨hw, _, harrow⟩
    · rcases ih with ⟨ls, rfl, rfl⟩ | ⟨⟨w, hmem, hw⟩, ty, hmem', harrow⟩
      · exact .inl ⟨l :: ls, rfl, rfl⟩
      · exact .inr ⟨⟨w, List.mem_cons_of_mem _ hmem, hw⟩, ty, List.mem_cons_of_mem _ hmem', harrow⟩
    · exact .inr ⟨⟨w, List.mem_cons_self .., hw⟩, ty, List.mem_cons_self .., harrow⟩

namespace Program

/-- For a number of instructions from a configuration on, all runs are secure. -/
def Secure (p : Program) (good : Value → Prop) : Nat → Config → Prop
  | 0, _ => True
  | n + 1, c => ∀ s : State, s.halted = false → s.config = c →
    match s.step p none with
    | (s', .ok true) => s'.halted = false ∧ p.Secure good n s'.config
    | (s', .ok false) => s'.halted = true ∧ good s'.acc
    | (_, .error t) => s.Excuses p t

variable {p : Program} {good : Value → Prop} {n m : Nat} {c c' : Config}

theorem Secure.mono (h : p.Secure good n c) (hmn : m ≤ n) : p.Secure good m c := by
  induction m generalizing n c with
  | zero => trivial
  | succ m ih =>
    obtain ⟨n, rfl⟩ : ∃ n', n = n' + 1 := ⟨n - 1, by omega⟩
    intro s hrun hs
    have hstep := h s hrun hs
    rcases heq : s.step p none with ⟨s', _ | b⟩
    · rw [heq] at hstep
      exact hstep
    · rw [heq] at hstep
      cases b with
      | false => exact hstep
      | true => exact ⟨hstep.1, ih hstep.2 (by omega)⟩

theorem Secure.of_moves (h : p.Secure good n c') (hmove : p.Moves c c') :
    p.Secure good (n + 1) c := by
  intro s hrun hs
  obtain ⟨s', hstep, hrun', hs'⟩ := hmove s hrun hs
  rw [hstep]
  exact ⟨hrun', hs' ▸ h⟩

theorem Secure.of_reaches (h : p.Secure good n c') (hreach : p.Reaches c c') :
    p.Secure good n c := by
  induction hreach using Relation.ReflTransGen.head_induction_on with
  | refl => exact h
  | head hmove _ ih => exact (ih.of_moves hmove).mono (Nat.le_succ n)

theorem secure_of_halt {is : Code} (hcode : p.HasCode c.pc (.halt :: is)) (hacc : good c.acc)
    (n : Nat) : p.Secure good n c := by
  cases n with
  | zero => trivial
  | succ n =>
    intro s hrun hs
    subst hs
    rw [step_of_halt hrun hcode]
    exact ⟨rfl, hacc⟩

/-- A state from which all of a run is secure, however long. -/
def Safe (p : Program) (good : Value → Prop) (s : State) : Prop :=
  s.halted = false ∧ (∀ n, p.Secure good n s.config) ∨ s.halted = true ∧ good s.acc

theorem Safe.step {s s' : State} {b : Bool} (h : p.Safe good s)
    (hstep : s.step p none = (s', .ok b)) : p.Safe good s' := by
  rcases h with ⟨hrun, hsecure⟩ | ⟨hhalted, hacc⟩
  · have hnext (n : Nat) := hsecure (n + 1) s hrun rfl
    simp only [hstep] at hnext
    cases b with
    | true => exact .inl ⟨(hnext 0).1, fun n => (hnext n).2⟩
    | false => exact .inr (hnext 0)
  · rw [step_of_halted hhalted] at hstep
    cases hstep
    exact .inr ⟨hhalted, hacc⟩

theorem Safe.excuses {s s' : State} {t : Trap} (h : p.Safe good s)
    (hstep : s.step p none = (s', .error t)) : s.Excuses p t := by
  rcases h with ⟨hrun, hsecure⟩ | ⟨hhalted, _⟩
  · have hnext := hsecure 1 s hrun rfl
    rw [hstep] at hnext
    exact hnext
  · rw [step_of_halted hhalted] at hstep
    exact nomatch hstep

/-! ### Values and types -/

/-- A value keeps what a type promises for a number of instructions. -/
def Keeps (p : Program) (good : Value → Prop) (n : Nat) : Value → Ty → Prop
  | .lit l, ty => ty = l.ty
  | .prim q, ty => q.HasTy ty
  | .closure a vs, ty => ∃ sig : Signature, ty = sig.ty ∧
    ∀ (m : Nat), m < n → ∀ (args : List Value) (r : Resume) (acc : Value),
      List.Forall₂ (fun v ty => p.Keeps good m v ty) args sig.params →
      (∀ (k : Nat), k ≤ m → ∀ v, p.Keeps good k v sig.result → p.Secure good k (r.config v)) →
      p.Secure good m ⟨acc, a, (args ++ r.saved).length, a, vs, args ++ r.saved⟩
  | _, _ => False
termination_by n

/-- The rest of a run is secure for every value that keeps what a type promises. -/
def Awaits (p : Program) (good : Value → Prop) (n : Nat) (ty : Ty) (r : Resume) : Prop :=
  ∀ (m : Nat), m ≤ n → ∀ v, p.Keeps good m v ty → p.Secure good m (r.config v)

theorem keeps_lit_iff {l : Literal} {ty : Ty} : p.Keeps good n (.lit l) ty ↔ ty = l.ty := by
  rw [Keeps]

theorem keeps_prim_iff {q : Primitive} {ty : Ty} : p.Keeps good n (.prim q) ty ↔ q.HasTy ty := by
  rw [Keeps]

theorem keeps_closure_iff {a : Nat} {vs : List Value} {ty : Ty} :
    p.Keeps good n (.closure a vs) ty ↔ ∃ sig : Signature, ty = sig.ty ∧
      ∀ (m : Nat), m < n → ∀ (args : List Value) (r : Resume) (acc : Value),
        List.Forall₂ (p.Keeps good m) args sig.params → p.Awaits good m sig.result r →
        p.Secure good m ⟨acc, a, (args ++ r.saved).length, a, vs, args ++ r.saved⟩ := by
  rw [Keeps]
  rfl

theorem Keeps.mono {v : Value} {ty : Ty} (h : p.Keeps good n v ty) (hmn : m ≤ n) :
    p.Keeps good m v ty := by
  cases v with
  | lit l => exact keeps_lit_iff.2 (keeps_lit_iff.1 h)
  | prim q => exact keeps_prim_iff.2 (keeps_prim_iff.1 h)
  | closure a vs =>
    obtain ⟨sig, hty, hcalls⟩ := keeps_closure_iff.1 h
    exact keeps_closure_iff.2 ⟨sig, hty, fun k hk => hcalls k (by omega)⟩
  | stackAddr _ => simp [Keeps] at h
  | codeAddr _ => simp [Keeps] at h

theorem keeps_mono_list {vs : List Value} {tys : List Ty}
    (h : List.Forall₂ (p.Keeps good n) vs tys) (hmn : m ≤ n) :
    List.Forall₂ (p.Keeps good m) vs tys :=
  h.imp fun _ _ hv => hv.mono hmn

theorem Awaits.mono {ty : Ty} {r : Resume} (h : p.Awaits good n ty r) (hmn : m ≤ n) :
    p.Awaits good m ty r :=
  fun k hk => h k (by omega)

/-- What is no literal but keeps what a type promises is a procedure. -/
theorem Keeps.suits {v : Value} {ty : Ty} (h : p.Keeps good n v ty) : v.Suits ty := by
  cases v with
  | lit l => exact .inl ⟨l, rfl, keeps_lit_iff.1 h⟩
  | prim q => exact .inr ⟨rfl, rfl, (keeps_prim_iff.1 h).arrow⟩
  | closure a vs =>
    obtain ⟨sig, hty, _⟩ := keeps_closure_iff.1 h
    exact .inr ⟨rfl, rfl, _, hty⟩
  | stackAddr _ => simp [Keeps] at h
  | codeAddr _ => simp [Keeps] at h

/-! ### Calls -/

variable {sig : Signature} {ws : List Value} {r : Resume} {is : Code}

/-- A primitive called with arguments of its parameter types returns a value of its result type,
unless it is equality and compares a procedure. -/
theorem step_apply_prim {s : State} {q : Primitive} (hrun : s.halted = false)
    (hfetch : p.code[s.pc]? = some .apply) (hacc : s.acc = .prim q) (hq : q.HasTy sig.ty)
    (hargs : List.Forall₂ Value.Suits ws sig.params) (hcells : s.stack.cells = ws ++ r.saved) :
    (∃ s' v, s.step p none = (s', .ok true) ∧ s'.halted = false ∧
      s'.config = r.config (.lit v) ∧ v.ty = sig.result) ∨
    ∃ t, s.step p none = ({ s with pc := s.pc + 1 }, .error t) ∧ s.Excuses p t := by
  rcases Value.literals_of_suits hargs with ⟨ls, rfl, hls⟩ | ⟨hbad, ty, hty, ts, rfl⟩
  · obtain ⟨v, hv, hresult⟩ := hq.apply_ok hls s.steps
    obtain ⟨s', hexec, hrun', hs'⟩ :=
      exec_apply_prim (s := { s with pc := s.pc + 1 }) hacc hcells hv
    refine .inl ⟨{ s' with steps := s'.steps + 1 }, v, ?_, hrun'.trans hrun, hs', hresult⟩
    rw [step_of_exec hrun hfetch hexec, hrun'.trans hrun]
    rfl
  · -- only equality takes arguments that are no integers
    have heq : q = .eq := by
      by_contra hne
      cases hq.params_int hne _ hty
    subst heq
    have hlen : ws.length = Primitive.eq.arity := hargs.length_eq.trans hq.length_params
    obtain ⟨w, hmem, hw, hops⟩ :=
      operands_of_notLiteral (s := { s with pc := s.pc + 1 }) (q := .eq) ws [] r.saved hcells hbad
    rw [hlen, List.length_nil] at hops
    have hexec : State.exec { s with pc := s.pc + 1 } s.pc .apply =
        ({ s with pc := s.pc + 1 }, some (.notLiteral .eq w.text)) :=
      exec_apply_prim_trap hacc (by rw [hops]; rfl)
    refine .inr ⟨_, step_of_exec_trap hrun hfetch hexec, hfetch, hacc, w, ?_, ?_, rfl⟩
    · have htake : s.stack.cells.take Primitive.eq.arity = ws := by
        rw [hcells, ← hlen, List.take_left]
      exact htake.symm ▸ hmem
    · obtain ⟨k, hk⟩ := List.getElem?_of_mem hmem
      obtain ⟨ty', _, hsuits⟩ := getElem?_of_forall₂ hargs hk
      rcases hsuits with ⟨l, rfl, _⟩ | ⟨_, hproc, _⟩
      · cases hw
      · exact hproc

theorem secure_apply_prim {q : Primitive} (hq : q.HasTy sig.ty) (hacc : c.acc = .prim q)
    (hargs : List.Forall₂ (p.Keeps good n) ws sig.params)
    (hcode : p.HasCode c.pc (.apply :: is)) (hcells : c.cells = ws ++ r.saved)
    (hr : p.Awaits good n sig.result r) : p.Secure good (n + 1) c := by
  intro s hrun hs
  subst hs
  have hsuits := hargs.imp fun _ _ h => h.suits
  rcases step_apply_prim hrun (hcode.fetched rfl) hacc hq hsuits hcells with
    ⟨s', v, hstep, hrun', hs', hresult⟩ | ⟨t, hstep, hexcuses⟩
  · rw [hstep]
    refine ⟨hrun', ?_⟩
    rw [hs']
    exact hr n (Nat.le_refl n) (.lit v) (keeps_lit_iff.2 hresult.symm)
  · rw [hstep]
    exact hexcuses

/-- A call of a procedure with arguments of its parameter types is secure if the rest of the run
is. -/
theorem secure_apply (hacc : p.Keeps good n c.acc sig.ty)
    (hargs : List.Forall₂ (p.Keeps good n) ws sig.params)
    (hcode : p.HasCode c.pc (.apply :: is)) (hcells : c.cells = ws ++ r.saved)
    (hr : p.Awaits good n sig.result r) : p.Secure good n c := by
  cases n with
  | zero => trivial
  | succ n =>
    have hargs' := keeps_mono_list hargs (Nat.le_succ n)
    have hr' := hr.mono (Nat.le_succ n)
    generalize hv : c.acc = v at hacc
    cases v with
    | lit l =>
      have hty := keeps_lit_iff.1 hacc
      cases l <;> exact nomatch hty
    | prim q => exact secure_apply_prim (keeps_prim_iff.1 hacc) hv hargs' hcode hcells hr'
    | closure a vs =>
      obtain ⟨sig', hty, hcalls⟩ := keeps_closure_iff.1 hacc
      obtain rfl := Signature.eq_of_ty_eq hty
      have hentered := hcalls n (Nat.lt_succ_self n) ws r c.acc hargs' hr'
      rw [← hcells] at hentered
      exact hentered.of_moves (moves_apply_closure hcode hv)
    | stackAddr _ => simp [Keeps] at hacc
    | codeAddr _ => simp [Keeps] at hacc

end Program

end MiniScheme
