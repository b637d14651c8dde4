import MiniScheme.Proofs.Reflection
import MiniScheme.Proofs.StackDiscipline
import MiniScheme.Proofs.TypeSafety

/-!
# Tail calls and the height of the stack

A running procedure of a typed program needs no more cells than its program is long, up to a
constant, and a call in tail position takes the place of the procedure it is made from. So the
stack grows only with the calls that are entered and not returned from.
-/

namespace MiniScheme

open Shape

/-! ### Room for a running procedure -/

namespace Program

/-- A bound on the cells that one running procedure of a typed program adds to the stack. -/
def cellsPerCall (p : Program) : Nat :=
  6 * p.code.size

end Program

namespace Image

variable {M : Image} {run : Running} {shape : Shape} {cells : List Value} {calls : List Call}

theorem Stacked.link_room {ty : Ty} (h : M.Stacked run (.link ty :: shape) cells calls) :
    size (.link ty :: shape) ≤ 3 * M.program.code.size := by
  obtain ⟨pc, _, _, _, _, _, haccepts, hroom⟩ := h.linked
  have hlt := haccepts.lt
  rw [size_cons, Cell.size]
  omega

theorem Stacked.length_le (h : M.Stacked run shape cells calls) :
    cells.length ≤ M.program.cellsPerCall * calls.count .entered + 3 * M.program.code.size +
      size shape := by
  -- below the running procedure, each one adds its arguments and a shape with a link on top
  induction h with
  | main => exact Nat.zero_le _
  | @entered _ _ shape args cells calls ty hbelow _ _ _ _ hroom ih =>
    have hlink := hbelow.link_room
    have hcount : (Call.entered :: calls).count .entered = calls.count .entered + 1 := by simp
    have hcount' : (Call.prepared :: calls).count .entered = calls.count .entered := by simp
    rw [hcount'] at ih
    rw [hcount, List.length_append, size_nil, Nat.mul_add]
    unfold Program.cellsPerCall at ih ⊢
    omega
  | value _ _ ih =>
    rw [List.length_cons, size_cons, Cell.size]
    omega
  | @link _ shape _ calls _ ty _ _ _ ih =>
    have hcount : (Call.prepared :: calls).count .entered = calls.count .entered := by simp
    rw [hcount, Resume.saved, List.length_append, size_cons]
    show 3 + _ ≤ _ + (3 + size shape)
    simp only [Running.resume]
    omega

theorem Consistent.length_le {c : Config} (h : M.Consistent c calls) :
    c.cells.length ≤ M.program.cellsPerCall * (calls.count .entered + 1) := by
  cases h with
  | running hstack _ hcode _ hroom =>
    have hlength := hstack.length_le
    have hlt := hcode.lt
    rw [Nat.mul_add]
    unfold Program.cellsPerCall at hlength ⊢
    omega
  | @calling _ _ args cells calls _ _ hstack _ _ hcells _ hroom =>
    have hlength := hstack.length_le
    have hlink := hstack.link_room
    have hcount : (Call.entered :: calls).count .entered = calls.count .entered + 1 := by simp
    have hcount' : (Call.prepared :: calls).count .entered = calls.count .entered := by simp
    rw [hcount'] at hlength
    rw [hcount, hcells, List.length_append, Nat.mul_add, Nat.mul_add]
    unfold Program.cellsPerCall at hlength ⊢
    omega

/-- A call in tail position is made by a procedure that a call has entered. -/
theorem Consistent.entered_of_shift {c : Config} {n m : Nat} (h : M.Consistent c calls)
    (hj : M.program.code[c.pc]? = some (.shift n m)) : ∃ calls', calls = .entered :: calls' := by
  cases h with
  | @calling _ _ _ _ calls' => exact ⟨calls', rfl⟩
  | running hstack _ hcode _ _ =>
    cases hcode with
    | shift _ hresult =>
      obtain ⟨_, _, _, _, hbelow⟩ := hstack.split
      obtain ⟨_, _, _, _, calls', _, rfl, _⟩ := hbelow.unwind hresult
      exact ⟨calls', rfl⟩
    | const hcode _ | push hcode _ | test hcode _ _ | jump hcode _ | frame hcode _ _ | apply hcode
    | pop hcode _ | ret hcode _ | halt hcode _ =>
      rw [hcode.fetched rfl] at hj
      cases hj
    | fetch hcode hi hty _ =>
      rw [hcode.fetched hi] at hj
      cases hj
      cases hty
    | @close _ _ _ l a _ tys _ hcode ha _ _ =>
      have hi : (Inst.close tys.length l).mapAddress (addressOf M.program.entries) =
          .ok (.close tys.length a) := by
        simp [Inst.mapAddress, ha, Except.map]
      rw [hcode.fetched hi] at hj
      cases hj

end Image

/-! ### Calls along a run -/

theorem State.fetched_of_next {s : State} {p : Program} {i : Inst Nat}
    (h : s.next p none = .ok (some i)) : p.code[s.pc]? = some i := by
  unfold next at h
  split at h
  · exact nomatch h
  · simp only [Option.filter_none] at h
    split at h
    · exact (Except.ok.inj h ▸ ‹_›)
    · exact nomatch h

namespace Program

/-- The calls whose links are on the stack after a number of instructions, the latest first. -/
def callsAfter (p : Program) : Nat → List Call
  | 0 => []
  | n + 1 =>
    match p.stateAfter n with
    | some s => s.track p (p.callsAfter n)
    | none => p.callsAfter n

/-- The number of links through which a closure was entered that has not returned. -/
def openCalls (p : Program) (n : Nat) : Nat :=
  (p.callsAfter n).count .entered

/-- After a number of instructions, the next one keeps so many cells on top and drops so many below
them. -/
def ShiftsBy (p : Program) (kept dropped n : Nat) : Prop :=
  ∃ s, p.stateAfter n = some s ∧ s.next p none = .ok (some (.shift kept dropped))

/-- After a number of instructions, the next one makes room for a call in tail position. -/
def ShiftsAt (p : Program) (n : Nat) : Prop :=
  ∃ kept dropped, p.ShiftsBy kept dropped n

/-- After a number of instructions, the next one enters a closure. -/
def EntersAt (p : Program) (n : Nat) : Prop :=
  ∃ s a vs, p.stateAfter n = some s ∧ s.next p none = .ok (some .apply) ∧ s.acc = .closure a vs

variable {p : Program} {n m : Nat} {s : State}

theorem callsAfter_succ (h : p.stateAfter n = some s) :
    p.callsAfter (n + 1) = s.track p (p.callsAfter n) := by
  rw [callsAfter, h]

theorem callsAfter_of_shiftsAt (h : p.ShiftsAt n) : p.callsAfter (n + 1) = p.callsAfter n := by
  obtain ⟨_, _, s, hs, hnext⟩ := h
  rw [callsAfter_succ hs, State.track_of_next hnext]
  rfl

theorem callsAfter_of_entersAt (h : p.EntersAt n) :
    p.callsAfter (n + 1) = .entered :: (p.callsAfter n).tail := by
  obtain ⟨s, a, vs, hs, hnext, hacc⟩ := h
  rw [callsAfter_succ hs, State.track_of_next hnext, hacc]
  rfl

theorem count_tail_le (calls : List Call) (call : Call) :
    calls.tail.count call ≤ calls.count call :=
  (List.tail_sublist calls).count_le _

theorem openCalls_le_of_entersAt (h : p.EntersAt n) : p.openCalls (n + 1) ≤ p.openCalls n + 1 := by
  unfold openCalls
  rw [callsAfter_of_entersAt h, List.count_cons_self]
  exact Nat.add_le_add_right (count_tail_le ..) 1

/-- Only entering a closure can add to the open calls. -/
theorem openCalls_succ_le (h : ¬ p.EntersAt n) : p.openCalls (n + 1) ≤ p.openCalls n := by
  unfold openCalls
  cases hs : p.stateAfter n with
  | none =>
    have hsame : p.callsAfter (n + 1) = p.callsAfter n := by rw [callsAfter, hs]
    exact Nat.le_of_eq (by rw [hsame])
  | some s =>
    rw [callsAfter_succ hs]
    unfold State.track
    split
    · next i hnext =>
      cases i with
      | apply =>
        cases hacc : s.acc with
        | closure a vs => exact absurd ⟨s, a, vs, hs, hnext, hacc⟩ h
        | _ => exact count_tail_le ..
      | ret => exact count_tail_le ..
      | frame => exact Nat.le_of_eq (List.count_cons_of_ne (by decide))
      | _ => exact Nat.le_refl _
    · exact Nat.le_refl _

end Program

/-! ### Typed programs -/

namespace Image

variable {M : Image} {n m : Nat} {s : State}

theorem Consistent.state_of_trap {calls : List Call} {s' : State} {t : Trap}
    (h : M.Consistent s.config calls) (hstep : s.step M.program none = (s', .error t)) :
    s' = { s with pc := s.pc + 1 } := by
  cases hhalted : s.halted with
  | true =>
    rw [Program.step_of_halted hhalted] at hstep
    exact nomatch hstep
  | false =>
    rcases h.advances hhalted with ⟨s'', running, hstep', _⟩ | ⟨s'', t', hstep', hsame⟩
    · rw [hstep] at hstep'
      exact nomatch hstep'
    · rw [hstep] at hstep'
      cases hstep'
      rw [← hhalted]
      exact hsame

theorem Consistent.stack_of_trap {calls : List Call} {s' : State} {t : Trap}
    (h : M.Consistent s.config calls) (hstep : s.step M.program none = (s', .error t)) :
    s'.stack = s.stack := by
  rw [h.state_of_trap hstep]

/-- What every instruction keeps, a run keeps. -/
theorem Consistent.stateAfter (h : M.Consistent State.initial.config [])
    (hs : M.program.stateAfter n = some s) : M.Consistent s.config (M.program.callsAfter n) := by
  induction n generalizing s with
  | zero =>
    cases hs
    exact h
  | succ n ih =>
    obtain ⟨s₀, running, hs₀, hstep⟩ := Program.stateAfter_succ hs
    have hbefore := ih hs₀
    rw [Program.callsAfter_succ hs₀]
    cases hhalted : s₀.halted with
    | true =>
      rw [Program.step_of_halted hhalted] at hstep
      cases hstep
      rw [State.track_of_halted hhalted]
      exact hbefore
    | false =>
      rcases hbefore.advances hhalted with ⟨s', running', hstep', hafter, _⟩ | ⟨s', t, hstep', _⟩
      · rw [hstep] at hstep'
        cases hstep'
        exact hafter
      · rw [hstep] at hstep'
        exact nomatch hstep'

theorem callsAfter_of_tailCall (h : M.Consistent State.initial.config [])
    (hshift : M.program.ShiftsAt n) (henter : M.program.EntersAt (n + 1)) :
    M.program.callsAfter (n + 2) = M.program.callsAfter n := by
  obtain ⟨_, _, s, hs, hnext⟩ := id hshift
  obtain ⟨calls, hcalls⟩ := (h.stateAfter hs).entered_of_shift (State.fetched_of_next hnext)
  rw [Program.callsAfter_of_entersAt henter, Program.callsAfter_of_shiftsAt hshift, hcalls]
  rfl

/-- As long as closures are entered in tail position only, or while fewer than `nested` calls more
are open than at first, no more than so many calls more are open. -/
theorem openCalls_le_of_tailCalls (h : M.Consistent State.initial.config []) {nested : Nat}
    (hle : n ≤ m) (henters : ∀ i, n ≤ i → i < m → M.program.EntersAt i →
      (∃ j, i = j + 1 ∧ M.program.ShiftsAt j) ∨
        M.program.openCalls i < M.program.openCalls n + nested) :
    M.program.openCalls m ≤ M.program.openCalls n + nested := by
  induction hle with
  | refl => exact Nat.le_add_right ..
  | @step m hle ih =>
    have hbefore := ih fun i hi hlt => henters i hi (by omega)
    by_cases henter : M.program.EntersAt m
    · rcases henters m hle (by omega) henter with ⟨j, rfl, hshift⟩ | hlt
      · have hcall := callsAfter_of_tailCall h hshift henter
        have hroom := Program.callsAfter_of_shiftsAt hshift
        have hsame : M.program.openCalls (j + 2) = M.program.openCalls (j + 1) := by
          unfold Program.openCalls
          rw [hcall, hroom]
        exact hsame ▸ hbefore
      · exact Nat.le_trans (Program.openCalls_le_of_entersAt henter) hlt
    · exact Nat.le_trans (Program.openCalls_succ_le henter) hbefore

theorem height_le (h : M.Consistent State.initial.config [])
    (hs : M.program.stateAfter n = some s) :
    s.stack.height ≤ M.program.cellsPerCall * (M.program.openCalls n + 1) := by
  rw [s.stack.height_eq]
  exact (h.stateAfter hs).length_le

end Image

namespace Expr

theorem consistent_of_compile {options : CompileOptions} {e : Expr Unit} {c : Compilation}
    (hc : e.compile options = .ok c) (htypes : options.typecheck = true)
    (hclosed : ∀ x ∈ e.free [], x ∈ Primitive.names) :
    ∃ M : Image, M.program = c.program ∧ M.Consistent State.initial.config [] := by
  obtain ⟨ty, _, htyped⟩ := typed_of_compile hc htypes hclosed
  obtain ⟨M, hprogram, ⟨code, hcompiles, hcode⟩, hfresh, hallowed⟩ := hosts_of_compile hc
  rw [Program.hasCode_append_iff] at hcode
  have haccepts : M.Accepts .main 0 [] none := by
    refine M.accepted c.expr none hcompiles hcode.1 (Frame.matches_main M)
      ⟨hfresh, hallowed, htyped⟩ ?_
    exact .halt hcode.2 rfl
  exact ⟨M, hprogram, .running .main ⟨rfl, rfl, rfl⟩ haccepts nofun (Nat.zero_le _)⟩

/-- At every point of the run of a typed program, and where it traps, the stack is no higher than
a number that depends on the program alone for each open call and the main block. A call in tail
position leaves the number of open calls as it is. So a run that enters closures in no other way,
or otherwise only while fewer than a fixed number of calls more are open, needs no more room however
long it gets. -/
theorem stack_height_le_of_typecheck {options : CompileOptions} {e : Expr Unit} {c : Compilation}
    (hc : e.compile options = .ok c) (htypes : options.typecheck = true)
    (hclosed : ∀ x ∈ e.free [], x ∈ Primitive.names) :
    (∀ n s, c.program.stateAfter n = some s →
      s.stack.height ≤ c.program.cellsPerCall * (c.program.openCalls n + 1) ∧
      ∀ s' t, s.step c.program none = (s', .error t) → s'.stack = s.stack) ∧
    (∀ n, c.program.ShiftsAt n → c.program.EntersAt (n + 1) →
      c.program.openCalls (n + 2) = c.program.openCalls n) ∧
    ∀ n m s nested, n ≤ m → c.program.stateAfter m = some s →
      (∀ i, n ≤ i → i < m → c.program.EntersAt i →
        (∃ j, i = j + 1 ∧ c.program.ShiftsAt j) ∨
          c.program.openCalls i < c.program.openCalls n + nested) →
      s.stack.height ≤ c.program.cellsPerCall * (c.program.openCalls n + nested + 1) := by
  obtain ⟨M, hprogram, hstart⟩ := consistent_of_compile hc htypes hclosed
  rw [← hprogram]
  refine ⟨fun n s hs => ⟨Image.height_le hstart hs, fun s' t hstep => ?_⟩, ?_, ?_⟩
  · exact (hstart.stateAfter hs).stack_of_trap hstep
  · intro n hshift henter
    unfold Program.openCalls
    rw [Image.callsAfter_of_tailCall hstart hshift henter]
  · intro n m s nested hle hs henters
    have hcalls := Image.openCalls_le_of_tailCalls hstart hle henters
    have hheight := Image.height_le hstart hs
    exact Nat.le_trans hheight (Nat.mul_le_mul_left _ (Nat.add_le_add_right hcalls 1))

theorem stack_height_sumLoop_le : ∃ c s, sumLoop.compile .all = .ok c ∧
    (∀ x ∈ sumLoop.free [], x ∈ Primitive.names) ∧
    c.program.stateAfter 60 = some s ∧ c.program.openCalls 60 = 1 ∧
    s.stack.height ≤ c.program.cellsPerCall * (1 + 1) ∧
    c.program.ShiftsAt 34 ∧ c.program.EntersAt 35 ∧
    c.program.openCalls 36 = c.program.openCalls 34 := by
  have hsolved : (sumLoop.compile ⟨true, false⟩ >>= fun c =>
      (TypingProblem.ofExpr c.expr).map fun p =>
        decide (Solves sumLoopTypes p.judgement.constraints)) = .ok true := by
    decide +kernel
  have hcalls : (sumLoop.compile ⟨true, false⟩).map (fun c =>
      ((c.program.stateAfter 60).isSome, c.program.openCalls 60)) = .ok (true, 1) := by
    decide +kernel
  have hshift : (sumLoop.compile ⟨true, false⟩).map (fun c =>
      (c.program.stateAfter 34).map (·.next c.program none)) =
        .ok (some (.ok (some (.shift 2 2)))) := by
    decide +kernel
  have henter : (sumLoop.compile ⟨true, false⟩).map (fun c =>
      (c.program.stateAfter 35).map fun s => (s.next c.program none, s.acc)) =
        .ok (some (.ok (some .apply), .closure 11 [])) := by
    decide +kernel
  have hclosed : ∀ x ∈ sumLoop.free [], x ∈ Primitive.names := by decide
  obtain ⟨c, c', hc, htyped, hprogram, _⟩ := compile_of_solves hsolved
  obtain ⟨c₁, hc₁, hcalls⟩ := Results.map_eq_ok_iff.1 hcalls
  obtain ⟨c₂, hc₂, hshift⟩ := Results.map_eq_ok_iff.1 hshift
  obtain ⟨c₃, hc₃, henter⟩ := Results.map_eq_ok_iff.1 henter
  obtain rfl : c = c₁ := Except.ok.inj (hc.symm.trans hc₁)
  obtain rfl : c = c₂ := Except.ok.inj (hc.symm.trans hc₂)
  obtain rfl : c = c₃ := Except.ok.inj (hc.symm.trans hc₃)
  simp only [← hprogram, Prod.mk.injEq, Option.map_eq_some_iff] at hcalls hshift henter
  obtain ⟨s₁, hs₁, hnext₁⟩ := hshift
  obtain ⟨s₂, hs₂, hnext₂, hacc⟩ := henter
  obtain ⟨s, hs⟩ := Option.isSome_iff_exists.1 hcalls.1
  obtain ⟨hbound, htail, _⟩ := stack_height_le_of_typecheck htyped rfl hclosed
  have hheight := (hbound 60 s hs).1
  have hshift : c'.program.ShiftsAt 34 := ⟨2, 2, s₁, hs₁, hnext₁⟩
  have henter : c'.program.EntersAt 35 := ⟨s₂, 11, [], hs₂, hnext₂, hacc⟩
  rw [hcalls.2] at hheight
  exact ⟨c', s, htyped, hclosed, hs, hcalls.2, hheight, hshift, henter, htail 34 hshift henter⟩

end Expr

end MiniScheme
