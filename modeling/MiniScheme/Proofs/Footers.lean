import MiniScheme.Proofs.StackBound

/-!
# Footers stay footers

The machine keeps addresses in one place only: in the footer of a call, which a `frame` pushes and
a return takes off again. In a typed program no instruction loads an address, passes one on or
captures one.
-/

namespace MiniScheme

/-- A value without addresses, in what a closure has captured as well. -/
inductive Value.Plain : Value → Prop where
  | lit (l : Literal) : Plain (.lit l)
  | prim (q : Primitive) : Plain (.prim q)
  | closure {a : Nat} {vs : List Value} (hvs : ∀ v ∈ vs, v.Plain) : Plain (.closure a vs)

namespace Program

/-- After a number of instructions, the stack still holds what a `frame` has saved. -/
def Saved (p : Program) (n : Nat) (r : Resume) : Prop :=
  ∃ k s off, k < n ∧ p.stateAfter k = some s ∧ s.next p none = .ok (some (.frame off)) ∧
    r = ⟨s.pc + off, s.fp, s.body, s.captured, s.stack.cells⟩ ∧
    ∀ j s', k < j → j ≤ n → p.stateAfter j = some s' → r.saved <:+ s'.stack.cells

/-- Cells without addresses and the footers of calls, each where a `frame` has pushed it. A saved
frame pointer does not reach above its footer. -/
inductive Footed (p : Program) (n : Nat) : List Value → Prop where
  | nil : Footed p n []
  | value {v : Value} {cells : List Value} (hv : v.Plain) (hcells : Footed p n cells) :
      Footed p n (v :: cells)
  | footer {r : Resume} (hsaved : p.Saved n r) (hcaptured : ∀ v ∈ r.captured, v.Plain)
      (hfp : r.fp ≤ r.cells.length) (hcells : Footed p n r.cells) : Footed p n r.saved

/-- A state in which addresses are in footers only. The frame pointer counts at most the cells
there are, unless a call in tail position has just made room for itself; then it counts at most
those there were below the arguments of the call. -/
structure Orderly (p : Program) (n : Nat) (s : State) : Prop where
  acc : s.acc.Plain
  captured : ∀ v ∈ s.captured, v.Plain
  cells : p.Footed n s.stack.cells
  fp : s.fp ≤ s.stack.height ∨ ∃ m kept dropped, n = m + 1 ∧ p.ShiftsBy kept dropped m ∧
    s.fp + kept ≤ s.stack.height + dropped
  halted : s.halted = true → s.stack.cells = [] ∧ s.fp = 0

variable {p : Program} {n : Nat} {s : State} {r : Resume} {cells : List Value}

theorem Saved.succ (h : p.Saved n r) (hs : p.stateAfter (n + 1) = some s)
    (hkept : r.saved <:+ s.stack.cells) : p.Saved (n + 1) r := by
  obtain ⟨k, s₀, off, hk, hs₀, hnext, hr, hbefore⟩ := h
  refine ⟨k, s₀, off, by omega, hs₀, hnext, hr, fun j s' hkj hj hs' => ?_⟩
  rcases Nat.lt_or_eq_of_le hj with hlt | rfl
  · exact hbefore j s' hkj (by omega) hs'
  · rw [hs] at hs'
    cases hs'
    exact hkept

theorem Footed.append {vs : List Value} (hvs : ∀ v ∈ vs, v.Plain) (h : p.Footed n cells) :
    p.Footed n (vs ++ cells) := by
  induction vs with
  | nil => exact h
  | cons v vs ih =>
    obtain ⟨hv, hvs⟩ := List.forall_mem_cons.1 hvs
    exact .value hv (ih hvs)

end Program

theorem Resume.saved_injective : Function.Injective Resume.saved := by
  intro r r' h
  simp only [saved, link, List.cons_append, List.nil_append, List.cons.injEq] at h
  grind [Resume]

/-- Cells that go on from an address go on from it below values that are no addresses. -/
theorem suffix_of_suffix_append {α : Type} {x : α} {rest xs ys : List α} (hx : x ∉ xs)
    (h : x :: rest <:+ xs ++ ys) : x :: rest <:+ ys := by
  induction xs with
  | nil => exact h
  | cons y xs ih =>
    rw [List.cons_append, List.suffix_cons_iff] at h
    rcases h with h | h
    · cases h
      exact absurd List.mem_cons_self hx
    · exact ih (fun hmem => hx (List.mem_cons_of_mem y hmem)) h

namespace Image

variable {M : Image} {n : Nat} {s : State}

theorem HasTy.plain {v : Value} {ty : Ty} (h : M.HasTy v ty) : v.Plain := by
  match v, h with
  | .lit l, _ => exact .lit l
  | .prim q, _ => exact .prim q
  | .closure a vs, .closure _ hvs =>
    refine .closure fun v hv => ?_
    obtain ⟨ty, hty⟩ := hasTy_of_mem hvs v hv
    exact hty.plain

theorem plain_of_mem {vs : List Value} {tys : List Ty} (h : List.Forall₂ M.HasTy vs tys) :
    ∀ v ∈ vs, v.Plain := by
  intro v hv
  obtain ⟨ty, hty⟩ := hasTy_of_mem h v hv
  exact hty.plain

/-- What holds at first and is kept by every instruction holds along a run. -/
theorem Consistent.induct {P : Nat → State → Prop} (h : M.Consistent State.initial.config [])
    (hinitial : P 0 .initial)
    (hhalted : ∀ n s, M.program.stateAfter (n + 1) = some s → s.halted = true → P n s → P (n + 1) s)
    (hstep : ∀ n s s', M.program.stateAfter n = some s → M.program.stateAfter (n + 1) = some s' →
      s.halted = false → M.Stores s.config s'.config →
      (s'.halted = true → s'.stack.cells = [] ∧ s'.fp = 0) → P n s → P (n + 1) s')
    (hs : M.program.stateAfter n = some s) : P n s := by
  induction n generalizing s with
  | zero =>
    cases hs
    exact hinitial
  | succ n ih =>
    obtain ⟨s₀, running, hs₀, hrun⟩ := Program.stateAfter_succ hs
    cases hhalt : s₀.halted with
    | true =>
      rw [Program.step_of_halted hhalt] at hrun
      cases hrun
      exact hhalted n s hs hhalt (ih hs₀)
    | false =>
      rcases (h.stateAfter hs₀).advances hhalt with
        ⟨s', running', hrun', _, hstores, hend⟩ | ⟨s', t, hrun', _⟩
      · rw [hrun] at hrun'
        cases hrun'
        exact hstep n s₀ s hs₀ hs hhalt hstores hend (ih hs₀)
      · rw [hrun] at hrun'
        exact nomatch hrun'

theorem plain_acc (h : M.Consistent State.initial.config [])
    (hs : M.program.stateAfter n = some s) : s.acc.Plain := by
  refine h.induct (P := fun _ s => s.acc.Plain) (.lit _) (fun _ _ _ _ => id) ?_ hs
  intro _ s s' _ _ _ hstores _ hplain
  rcases hstores.acc with hsame | ⟨ty, hty⟩
  · have hacc : s'.acc = s.acc := hsame
    rw [hacc]
    exact hplain
  · exact hty.plain

theorem plain_captured (h : M.Consistent State.initial.config [])
    (hs : M.program.stateAfter n = some s) : ∀ v ∈ s.captured, v.Plain := by
  refine h.induct (P := fun _ s => ∀ v ∈ s.captured, v.Plain) nofun (fun _ _ _ _ => id) ?_ hs
  intro _ s s' _ _ _ hstores _ hplain
  rcases hstores.captured with hsame | htyped
  · have hcaptured : s'.captured = s.captured := hsame
    rw [hcaptured]
    exact hplain
  · intro v hv
    obtain ⟨ty, hty⟩ := htyped v hv
    exact hty.plain

theorem empty_of_halted (h : M.Consistent State.initial.config [])
    (hs : M.program.stateAfter n = some s) :
    s.halted = true → s.stack.cells = [] ∧ s.fp = 0 := by
  refine h.induct (P := fun _ s => s.halted = true → s.stack.cells = [] ∧ s.fp = 0) nofun
    (fun _ _ _ _ => id) ?_ hs
  intro _ s s' _ _ _ _ hend _
  exact hend

theorem fp_le_height (h : M.Consistent State.initial.config [])
    (hs : M.program.stateAfter n = some s) :
    s.fp ≤ s.stack.height ∨ ∃ m kept dropped, n = m + 1 ∧ M.program.ShiftsBy kept dropped m ∧
      s.fp + kept ≤ s.stack.height + dropped := by
  refine h.induct (P := fun n s => s.fp ≤ s.stack.height ∨ ∃ m kept dropped, n = m + 1 ∧
    M.program.ShiftsBy kept dropped m ∧ s.fp + kept ≤ s.stack.height + dropped)
    (.inl (Nat.le_refl 0)) ?_ ?_ hs
  · intro n s hs hhalted _
    obtain ⟨_, hfp⟩ := empty_of_halted h hs hhalted
    exact .inl (by omega)
  · intro n s s' hs _ hrun hstores _ _
    rw [s'.stack.height_eq]
    rcases hstores.fp with hle | ⟨kept, dropped, hj, hle⟩
    · exact .inl hle
    · exact .inr ⟨n, kept, dropped, rfl, ⟨s, hs, Program.next_of_fetched hrun hj⟩, hle⟩

/-- A return address on the stack is in the footer of a call, where a `frame` has pushed it. -/
theorem saved_of_suffix (h : M.Consistent State.initial.config [])
    (hs : M.program.stateAfter n = some s) :
    ∀ pc rest, .codeAddr pc :: rest <:+ s.stack.cells →
      ∃ r, M.program.Saved n r ∧ r.saved = .codeAddr pc :: rest := by
  refine h.induct (P := fun n s => ∀ pc rest, .codeAddr pc :: rest <:+ s.stack.cells →
    ∃ r, M.program.Saved n r ∧ r.saved = .codeAddr pc :: rest) ?_ ?_ ?_ hs
  · intro pc rest hsuffix
    exact nomatch List.suffix_nil.1 hsuffix
  · intro n s hs _ ih pc rest hsuffix
    obtain ⟨r, hr, hsaved⟩ := ih pc rest hsuffix
    exact ⟨r, hr.succ hs (hsaved ▸ hsuffix), hsaved⟩
  · intro n s s' hs hs' hrun hstores _ ih pc rest hsuffix
    -- what was there before has been kept so far
    have hkept (hbefore : .codeAddr pc :: rest <:+ s.stack.cells) :
        ∃ r, M.program.Saved (n + 1) r ∧ r.saved = .codeAddr pc :: rest := by
      obtain ⟨r, hr, hsaved⟩ := ih pc rest hbefore
      exact ⟨r, hr.succ hs' (hsaved ▸ hsuffix), hsaved⟩
    have hpiles : M.Piles s.config s'.stack.cells := hstores.cells
    generalize hcells : s'.stack.cells = cells at hpiles hsuffix
    cases hpiles with
    | @values vs _ hvs hrest =>
      have hnone : .codeAddr pc ∉ vs := by
        intro hmem
        obtain ⟨ty, hty⟩ := hvs _ hmem
        cases hty
      exact hkept ((suffix_of_suffix_append hnone hsuffix).trans hrest)
    | @link off hj =>
      simp only [Resume.saved, Resume.link, List.cons_append, List.nil_append,
        List.suffix_cons_iff] at hsuffix
      rcases hsuffix with hnew | hfp | hclosure | hbefore
      · refine ⟨_, ⟨n, s, off, by omega, hs, Program.next_of_fetched hrun hj, rfl, ?_⟩, hnew.symm⟩
        intro j s'' hlt hle hs''
        obtain rfl : j = n + 1 := by omega
        rw [hs'] at hs''
        cases hs''
        rw [hcells]
        exact List.suffix_rfl
      · cases hfp
      · cases hclosure
      · exact hkept hbefore

theorem Stacked.footed {run : Running} {shape : Shape} {cells : List Value} {calls : List Call}
    (h : M.Stacked run shape cells calls)
    (hsaved : ∀ pc rest, .codeAddr pc :: rest <:+ cells →
      ∃ r, M.program.Saved n r ∧ r.saved = .codeAddr pc :: rest) : M.program.Footed n cells := by
  induction h with
  | main => exact .nil
  | entered _ _ hargs _ _ _ ih =>
    have hbelow := ih fun pc rest h => hsaved pc rest (h.trans (List.suffix_append ..))
    exact .append (plain_of_mem hargs) hbelow
  | value _ hv ih =>
    exact .value hv.plain (ih fun pc rest h => hsaved pc rest (h.trans (List.suffix_cons ..)))
  | @link run _ cells _ pc _ hbelow _ _ ih =>
    obtain ⟨r, hr, heq⟩ := hsaved pc _ List.suffix_rfl
    obtain rfl : r = run.resume pc cells := Resume.saved_injective heq
    have hheight := hbelow.height
    have hfp : run.fp ≤ cells.length := by omega
    refine .footer hr (plain_of_mem hbelow.captured) hfp (ih fun pc' rest h => ?_)
    exact hsaved pc' rest (h.trans (List.suffix_append (run.resume pc cells).link cells))

theorem Consistent.footed {c : Config} {calls : List Call} (h : M.Consistent c calls)
    (hsaved : ∀ pc rest, .codeAddr pc :: rest <:+ c.cells →
      ∃ r, M.program.Saved n r ∧ r.saved = .codeAddr pc :: rest) : M.program.Footed n c.cells := by
  cases h with
  | running hstack _ _ _ _ => exact hstack.footed hsaved
  | @calling _ _ args cells _ _ _ hstack _ _ hcells hargs _ =>
    rw [hcells] at hsaved ⊢
    have hbelow := hstack.footed fun pc rest h => hsaved pc rest (h.trans (List.suffix_append ..))
    exact .append (plain_of_mem hargs) hbelow

theorem orderly (h : M.Consistent State.initial.config [])
    (hs : M.program.stateAfter n = some s) : M.program.Orderly n s where
  acc := plain_acc h hs
  captured := plain_captured h hs
  cells := (h.stateAfter hs).footed (saved_of_suffix h hs)
  fp := fp_le_height h hs
  halted := empty_of_halted h hs

end Image

namespace Expr

/-- At every point of the run of a typed program, and where it traps, addresses are in the footers
of calls only, and the machine halts with an empty stack. -/
theorem stateAfter_orderly_of_typecheck {options : CompileOptions} {e : Expr Unit} {c : Compilation}
    {n : Nat} {s : State} (hc : e.compile options = .ok c) (htypes : options.typecheck = true)
    (hclosed : ∀ x ∈ e.free [], x ∈ Primitive.names) (hs : c.program.stateAfter n = some s) :
    c.program.Orderly n s ∧
      ∀ s' t, s.step c.program none = (s', .error t) → c.program.Orderly n s' := by
  obtain ⟨M, hprogram, hstart⟩ := consistent_of_compile hc htypes hclosed
  rw [← hprogram] at hs ⊢
  have horderly := Image.orderly hstart hs
  refine ⟨horderly, fun s' t hstep => ?_⟩
  rw [(hstart.stateAfter hs).state_of_trap hstep]
  exact ⟨horderly.acc, horderly.captured, horderly.cells, horderly.fp, horderly.halted⟩

/-- A procedure of one parameter that calls a primitive of none in tail position. -/
def clock : Expr Unit :=
  .letIn [("f", .lambda ["x"] (.app (.var "time" ()) [] ()) ())]
    (.app (.var "f" ()) [.lit (.int 1) ()] ()) ()

theorem stateAfter_clock : ∃ c s, clock.compile .all = .ok c ∧
    (∀ x ∈ clock.free [], x ∈ Primitive.names) ∧ c.program.stateAfter 9 = some s ∧
    s.stack.height = 4 ∧ s.fp = 5 := by
  have hsolved : (clock.compile ⟨true, false⟩ >>= fun c =>
      (TypingProblem.ofExpr c.expr).map fun p =>
        decide (Solves (fun _ => .int) p.judgement.constraints)) = .ok true := by
    decide +kernel
  have hreached : (clock.compile ⟨true, false⟩).map (fun c =>
      (c.program.stateAfter 9).map fun s => (s.stack.height, s.fp)) = .ok (some (4, 5)) := by
    decide +kernel
  have hclosed : ∀ x ∈ clock.free [], x ∈ Primitive.names := by decide
  obtain ⟨c, c', hc, htyped, hprogram, _⟩ := compile_of_solves hsolved
  obtain ⟨c'', hc'', hafter⟩ := Results.map_eq_ok_iff.1 hreached
  obtain rfl : c = c'' := Except.ok.inj (hc.symm.trans hc'')
  obtain ⟨s, hs, hsizes⟩ := Option.map_eq_some_iff.1 hafter
  rw [← hprogram] at hs
  exact ⟨c', s, htyped, hclosed, hs, Prod.mk.inj hsizes⟩

/-- Between the two instructions of a call in tail position, there may be fewer cells than the
frame pointer counts. -/
theorem height_lt_fp_clock : ∃ c s, clock.compile .all = .ok c ∧
    (∀ x ∈ clock.free [], x ∈ Primitive.names) ∧ c.program.stateAfter 9 = some s ∧
    ¬ s.fp ≤ s.stack.height := by
  obtain ⟨c, s, hc, hclosed, hs, hheight, hfp⟩ := stateAfter_clock
  exact ⟨c, s, hc, hclosed, hs, by omega⟩

theorem stateAfter_clock_orderly : ∃ c s, clock.compile .all = .ok c ∧
    (∀ x ∈ clock.free [], x ∈ Primitive.names) ∧ c.program.stateAfter 9 = some s ∧
    c.program.Orderly 9 s := by
  obtain ⟨c, s, hc, hclosed, hs, _⟩ := stateAfter_clock
  exact ⟨c, s, hc, hclosed, hs, (stateAfter_orderly_of_typecheck hc rfl hclosed hs).1⟩

end Expr

end MiniScheme
