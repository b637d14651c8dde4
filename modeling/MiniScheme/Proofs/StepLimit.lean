import MiniScheme.Proofs.TypeSafety

/-!
# Limits on the number of instructions

A limit changes nothing as long as it is not reached. The instruction that halts the machine is
counted and one that traps is not, so a run that halts needs a limit of at least as many
instructions as it counts, and a run that traps needs one more. Under a smaller limit the machine
stops where it is after as many instructions as the limit allows.
-/

namespace MiniScheme

/-- Number of instructions that have been started when a run ends: those that were counted, and the
one that trapped. -/
def RunEnd.started (r : RunEnd) : Nat :=
  match r.result with
  | .ok _ => r.state.steps
  | .error _ => r.state.steps + 1

namespace State

variable {s s' : State} {p : Program} {t : Trap} {limit : Nat}

/-! ### What one instruction counts -/

theorem steps_restoreClosure (s : State) : s.restoreClosure.1.steps = s.steps := by
  unfold restoreClosure
  split <;> rfl

theorem steps_restoreFrame (s : State) : s.restoreFrame.1.steps = s.steps := by
  unfold restoreFrame
  split
  · rfl
  · exact steps_restoreClosure _
  · rfl

theorem steps_returnToCaller (s : State) : s.returnToCaller.1.steps = s.steps := by
  unfold returnToCaller
  split
  · rfl
  · exact steps_restoreFrame _
  · rfl

theorem steps_applyAcc (s : State) : s.applyAcc.1.steps = s.steps := by
  unfold applyAcc
  split
  · rfl
  · unfold applyPrimitive
    split
    · rfl
    · split
      · rfl
      · exact steps_returnToCaller _
  · rfl

/-- Instructions do not touch the counter. -/
theorem steps_exec (s : State) (pc : Nat) (i : Inst Nat) : (s.exec pc i).1.steps = s.steps := by
  have hload (r : Except Trap Value) : (s.load r).1.steps = s.steps := by cases r <;> rfl
  have hset (r : Except Trap Stack) : (s.setStack r).1.steps = s.steps := by cases r <;> rfl
  cases i with
  | refLocal i => exact hload _
  | refTemp i => exact hload _
  | shift n m => exact hset _
  | pop n => exact hset _
  | apply => exact steps_applyAcc s
  | ret n =>
    simp only [exec]
    split
    · rfl
    · exact steps_returnToCaller _
  | refGlobal | refFree | close | test =>
    simp only [exec]
    split <;> rfl
  | _ => rfl

theorem steps_of_trap (h : s.step p none = (s', .error t)) : s'.steps = s.steps := by
  unfold step at h
  split at h
  · cases h
    rfl
  · cases h
  · next i _ =>
    have hsteps := steps_exec { s with pc := s.pc + 1 } s.pc i
    split at h
    · next hexec =>
      rw [hexec] at hsteps
      cases h
      exact hsteps
    · cases h

theorem steps_of_step {running : Bool} (hrun : s.halted = false)
    (h : s.step p none = (s', .ok running)) : s'.steps = s.steps + 1 ∧ s'.halted = !running := by
  unfold step at h
  split at h
  · cases h
  · next hnext =>
    -- there is no next instruction only if the machine has halted
    simp only [next, hrun, Bool.false_eq_true, if_false, Option.filter_none] at hnext
    split at hnext <;> cases hnext
  · next i _ =>
    have hsteps := steps_exec { s with pc := s.pc + 1 } s.pc i
    split at h
    · cases h
    · next hexec =>
      rw [hexec] at hsteps
      cases h
      exact ⟨congrArg (· + 1) hsteps, (Bool.not_not _).symm⟩

/-! ### What the limit changes -/

theorem step_below_limit (h : s.steps < limit) : s.step p (some limit) = s.step p none := by
  have hfilter : (some limit).filter (· ≤ s.steps) = none := by
    simp only [Option.filter_some, decide_eq_true_eq]
    exact if_neg (by omega)
  unfold step next
  rw [hfilter, Option.filter_none]

theorem step_at_limit (hrun : s.halted = false) (h : limit ≤ s.steps) :
    s.step p (some limit) = (s, .error (.stepLimit limit)) := by
  have hfilter : (some limit).filter (· ≤ s.steps) = some limit := by
    simp only [Option.filter_some, decide_eq_true_eq]
    exact if_pos h
  unfold step next
  rw [hfilter, hrun]
  rfl

/-! ### Runs -/

theorem runFor_iff_of_first {r : RunEnd} (h : ∀ k, s.runFor p none (k + 1) = some r)
    (hstarted : r.started = s.steps + 1) (k : Nat) :
    s.runFor p none k = some r ↔ r.started ≤ s.steps + k := by
  cases k with
  | zero =>
    simp only [runFor, reduceCtorEq, false_iff]
    omega
  | succ k =>
    simp only [h k, true_iff]
    omega

/-- A run from a state ends after the instructions that it still has to start, and not before. -/
theorem runFor_iff_started_le {n : Nat} {r : RunEnd} (hrun : s.halted = false)
    (h : s.runFor p none n = some r) (k : Nat) :
    s.runFor p none k = some r ↔ r.started ≤ s.steps + k := by
  induction n generalizing s k with
  | zero => cases h
  | succ n ih =>
    unfold runFor at h
    rcases hstep : s.step p none with ⟨s', t | _ | _⟩
    · simp only [hstep, Option.some.injEq] at h
      subst h
      refine runFor_iff_of_first (fun k => ?_) ?_ k
      · simp only [runFor, hstep]
      · exact congrArg (· + 1) (steps_of_trap hstep)
    · simp only [hstep, Option.some.injEq] at h
      subst h
      refine runFor_iff_of_first (fun k => ?_) ?_ k
      · simp only [runFor, hstep]
      · exact (steps_of_step hrun hstep).1
    · simp only [hstep] at h
      obtain ⟨hsteps, hrun'⟩ := steps_of_step hrun hstep
      have hrest := ih hrun' h
      cases k with
      | zero =>
        have hzero := hrest 0
        simp only [runFor, reduceCtorEq, false_iff] at hzero ⊢
        omega
      | succ k =>
        simp only [runFor, hstep, hrest k]
        omega

/-- A run that ends in time ends alike under a limit. -/
theorem runFor_limit_of_ended {k fuel : Nat} {r : RunEnd} (hrun : s.halted = false)
    (h : s.runFor p none k = some r) (hlimit : limit = s.steps + k) (hfuel : k ≤ fuel) :
    s.runFor p (some limit) fuel = some r := by
  induction k generalizing s fuel with
  | zero => cases h
  | succ k ih =>
    obtain ⟨fuel, rfl⟩ : ∃ fuel', fuel = fuel' + 1 := ⟨fuel - 1, by omega⟩
    have hsame : s.step p (some limit) = s.step p none := step_below_limit (by omega)
    unfold runFor at h ⊢
    rw [hsame]
    rcases hstep : s.step p none with ⟨s', t | _ | _⟩
    · rw [hstep] at h
      exact h
    · rw [hstep] at h
      exact h
    · rw [hstep] at h
      obtain ⟨hsteps, hrun'⟩ := steps_of_step hrun hstep
      exact ih hrun' h (by omega) (by omega)

/-- A run that does not end in time is stopped by the limit in the state that it has reached. -/
theorem runFor_limit_of_unended {j k : Nat} (hrun : s.halted = false)
    (hs : p.stateAfter j = some s) (h : s.runFor p none k = none) (hlimit : limit = s.steps + k) :
    ∃ s', p.stateAfter (j + k) = some s' ∧ s'.steps = limit ∧
      ∀ fuel, k < fuel → s.runFor p (some limit) fuel = some ⟨s', .error (.stepLimit limit)⟩ := by
  induction k generalizing s j with
  | zero =>
    refine ⟨s, hs, by omega, fun fuel hfuel => ?_⟩
    obtain ⟨fuel, rfl⟩ : ∃ fuel', fuel = fuel' + 1 := ⟨fuel - 1, by omega⟩
    simp only [runFor, step_at_limit hrun (Nat.le_of_eq hlimit)]
  | succ k ih =>
    unfold runFor at h
    rcases hstep : s.step p none with ⟨s', t | _ | _⟩
    · simp [hstep] at h
    · simp [hstep] at h
    · rw [hstep] at h
      obtain ⟨hsteps, hrun'⟩ := steps_of_step hrun hstep
      have hs' : p.stateAfter (j + 1) = some s' := by simp only [Program.stateAfter, hs, hstep]
      obtain ⟨s'', hs'', hcount, hends⟩ := ih hrun' hs' h (by omega)
      refine ⟨s'', by rwa [Nat.add_right_comm] at hs'', hcount, fun fuel hfuel => ?_⟩
      obtain ⟨fuel, rfl⟩ : ∃ fuel', fuel = fuel' + 1 := ⟨fuel - 1, by omega⟩
      have hsame : s.step p (some limit) = s.step p none := step_below_limit (by omega)
      simp only [runFor, hsame, hstep]
      exact hends fuel (by omega)

end State

namespace Program

variable {p : Program} {limit : Nat}

/-- Under a limit, the machine ends its run like this, however long it may run. -/
def EndsUnder (p : Program) (limit : Nat) (r : RunEnd) : Prop :=
  ∀ fuel, limit < fuel → p.runFor (some limit) fuel = some r

/-- The limit stops the machine, which has then counted as many instructions as the limit allows and
is in the state that it has without a limit after as many instructions. -/
def StoppedBy (p : Program) (limit : Nat) : Prop :=
  ∃ s, p.stateAfter limit = some s ∧ s.steps = limit ∧
    p.EndsUnder limit ⟨s, .error (.stepLimit limit)⟩

theorem stoppedBy_of_unended (h : p.runFor none limit = none) : p.StoppedBy limit := by
  have hstart : p.stateAfter 0 = some .initial := rfl
  obtain ⟨s, hs, hsteps, hends⟩ :=
    State.runFor_limit_of_unended rfl hstart h (Nat.zero_add limit).symm
  rw [Nat.zero_add] at hs
  exact ⟨s, hs, hsteps, hends⟩

variable {fuel : Nat} {r : RunEnd}

theorem endsUnder_of_started_le (h : p.runFor none fuel = some r) (hle : r.started ≤ limit) :
    p.EndsUnder limit r := by
  have hinTime : p.runFor none limit = some r :=
    (State.runFor_iff_started_le rfl h limit).2 ((Nat.zero_add limit).symm ▸ hle)
  intro n hn
  exact State.runFor_limit_of_ended rfl hinTime (Nat.zero_add limit).symm (by omega)

theorem stoppedBy_of_lt_started (h : p.runFor none fuel = some r) (hlt : limit < r.started) :
    p.StoppedBy limit := by
  refine stoppedBy_of_unended ?_
  cases hended : p.runFor none limit with
  | none => rfl
  | some r' =>
    -- a run has one end only, and it is not reached yet
    have hmax := runFor_mono (Nat.le_max_left limit fuel) hended
    have hmax' := runFor_mono (Nat.le_max_right limit fuel) h
    obtain rfl : r' = r := Option.some.inj (hmax.symm.trans hmax')
    have hstarted := (State.runFor_iff_started_le rfl h limit).1 hended
    simp only [State.initial] at hstarted
    omega

/-- A limit on the number of instructions is transparent. A run that halts is the same under every
limit that is not smaller than the number of instructions it counts; a run that traps is the same
under every limit above the number it counts; and all other runs, those that never end among them,
are stopped when they have counted as many instructions as the limit allows. -/
theorem limit_transparent (p : Program) (limit : Nat) :
    (∀ fuel s v, p.runFor none fuel = some ⟨s, .ok v⟩ →
      (s.steps ≤ limit → p.EndsUnder limit ⟨s, .ok v⟩) ∧
      (limit < s.steps → p.StoppedBy limit)) ∧
    (∀ fuel s t, p.runFor none fuel = some ⟨s, .error t⟩ →
      (s.steps < limit → p.EndsUnder limit ⟨s, .error t⟩) ∧
      (limit ≤ s.steps → p.StoppedBy limit)) ∧
    ((∀ fuel, p.runFor none fuel = none) → p.StoppedBy limit) := by
  refine ⟨fun fuel s v h => ⟨fun hle => ?_, fun hlt => ?_⟩,
    fun fuel s t h => ⟨fun hlt => ?_, fun hle => ?_⟩, fun h => stoppedBy_of_unended (h limit)⟩
  · exact endsUnder_of_started_le h hle
  · exact stoppedBy_of_lt_started h hlt
  · exact endsUnder_of_started_le h hlt
  · exact stoppedBy_of_lt_started h (Nat.lt_succ_of_le hle)

/-- Reads the number of executed instructions, which are two then, and halts after two more. -/
def readsClock : Program :=
  ⟨#[.frame 3, .refGlobal Primitive.time.index, .apply, .halt], []⟩

/-- Calls a number. -/
def callsNumber : Program :=
  ⟨#[.const (.int 1), .apply], []⟩

/-- Jumps to where it is. -/
def spins : Program :=
  ⟨#[.jump 0], []⟩

theorem runFor_spins (fuel : Nat) {s : State} (hpc : s.pc = 0) (hrun : s.halted = false) :
    s.runFor spins none fuel = none := by
  induction fuel generalizing s with
  | zero => rfl
  | succ fuel ih =>
    have hcode : spins.code[s.pc]? = some (.jump 0) := by rw [hpc]; rfl
    have hstep := step_of_exec hrun hcode rfl
    rw [hpc, hrun] at hstep
    rw [runFor_of_step hstep]
    exact ih rfl rfl

theorem limit_transparent_boundaries :
    (∃ s, s.steps = 4 ∧ readsClock.EndsUnder 4 ⟨s, .ok (.lit (.int 2))⟩ ∧
      readsClock.StoppedBy 3) ∧
    (∃ s t, s.steps = 1 ∧ callsNumber.EndsUnder 2 ⟨s, .error t⟩ ∧ callsNumber.StoppedBy 1) ∧
    spins.StoppedBy 100 := by
  refine ⟨?_, ?_, (limit_transparent spins 100).2.2 fun fuel => runFor_spins fuel rfl rfl⟩
  · obtain ⟨s, hsteps, hrun⟩ : ∃ s, s.steps = 4 ∧
        readsClock.runFor none 4 = some ⟨s, .ok (.lit (.int 2))⟩ := ⟨_, rfl, rfl⟩
    exact ⟨s, hsteps, ((limit_transparent readsClock 4).1 4 s _ hrun).1 (by omega),
      ((limit_transparent readsClock 3).1 4 s _ hrun).2 (by omega)⟩
  · obtain ⟨s, t, hsteps, hrun⟩ : ∃ s t, s.steps = 1 ∧
        callsNumber.runFor none 2 = some ⟨s, .error t⟩ := ⟨_, _, rfl, rfl⟩
    exact ⟨s, t, hsteps, ((limit_transparent callsNumber 2).2.1 2 s t hrun).1 (by omega),
      ((limit_transparent callsNumber 1).2.1 2 s t hrun).2 (by omega)⟩

end Program

end MiniScheme
