import MiniScheme.Proofs.Climbing
import MiniScheme.Proofs.TypeSafety

/-!
# The largest height of the stack

The stack records the largest height it ever had: it is the largest height that the stack has
after an instruction. So to compare what the stacks of two programs have recorded it is enough to
compare their heights from configuration to configuration.
-/

namespace MiniScheme

/-! ### What the stack records -/

/-- Some cells may have been taken off a stack. -/
structure Stack.Sinks (t t' : Stack) : Prop where
  highWater : t'.highWater = t.highWater
  height : t'.height ≤ t.height

namespace Stack

variable {t t' t'' : Stack}

theorem sinks_refl (t : Stack) : t.Sinks t :=
  ⟨rfl, Nat.le_refl _⟩

theorem Sinks.trans (h : t.Sinks t') (h' : t'.Sinks t'') : t.Sinks t'' :=
  ⟨h'.highWater.trans h.highWater, Nat.le_trans h'.height h.height⟩

theorem sinks_drop (t : Stack) (n : Nat) : t.Sinks (t.drop n) :=
  ⟨rfl, Nat.sub_le ..⟩

theorem sinks_pop {v : Value} (h : t.pop = .ok (v, t')) : t.Sinks t' := by
  unfold pop at h
  split at h
  · exact nomatch h
  · cases h
    exact sinks_drop t 1

theorem sinks_popMany {n : Nat} (h : t.popMany n = .ok t') : t.Sinks t' := by
  unfold popMany at h
  split at h
  · cases h
    exact sinks_drop t n
  · exact nomatch h

theorem sinks_takeTop {n : Nat} {vs : List Value} (h : t.takeTop n = .ok (vs, t')) :
    t.Sinks t' := by
  unfold takeTop at h
  split at h
  · cases h
    exact sinks_drop t n
  · exact nomatch h

theorem sinks_shift {n m : Nat} (h : t.shift n m = .ok t') : t.Sinks t' := by
  unfold shift at h
  split at h
  · cases h
    exact ⟨rfl, Nat.sub_le ..⟩
  · exact nomatch h

end Stack

namespace State

theorem sinks_restoreClosure (s : State) : s.stack.Sinks s.restoreClosure.1.stack := by
  unfold restoreClosure
  split
  · exact Stack.sinks_refl _
  · exact Stack.sinks_pop ‹_›
  · exact Stack.sinks_pop ‹_›

theorem sinks_restoreFrame (s : State) : s.stack.Sinks s.restoreFrame.1.stack := by
  unfold restoreFrame
  split
  · exact Stack.sinks_refl _
  · exact (Stack.sinks_pop ‹_›).trans (sinks_restoreClosure _)
  · exact Stack.sinks_pop ‹_›

theorem sinks_returnToCaller (s : State) : s.stack.Sinks s.returnToCaller.1.stack := by
  unfold returnToCaller
  split
  · exact Stack.sinks_refl _
  · exact (Stack.sinks_pop ‹_›).trans (sinks_restoreFrame _)
  · exact Stack.sinks_pop ‹_›

theorem sinks_applyAcc (s : State) : s.stack.Sinks s.applyAcc.1.stack := by
  unfold applyAcc
  split
  · exact Stack.sinks_refl _
  · unfold applyPrimitive
    split
    · exact Stack.sinks_refl _
    · split
      · exact Stack.sinks_refl _
      · exact (Stack.sinks_popMany ‹_›).trans (sinks_returnToCaller _)
  · exact Stack.sinks_refl _

/-- An instruction takes cells off the stack, or it pushes some and does not trap. -/
theorem exec_stack (s : State) (pc : Nat) (i : Inst Nat) :
    s.stack.Sinks (s.exec pc i).1.stack ∨
      (s.exec pc i).2 = none ∧
        (s.exec pc i).1.stack.highWater = max s.stack.highWater (s.exec pc i).1.stack.height := by
  have hload (r : Except Trap Value) : s.stack.Sinks (s.load r).1.stack := by
    cases r <;> exact Stack.sinks_refl _
  have hset {r : Except Trap Stack} (h : ∀ t, r = .ok t → s.stack.Sinks t) :
      s.stack.Sinks (s.setStack r).1.stack := by
    cases r with
    | error t => exact Stack.sinks_refl _
    | ok t => exact h t rfl
  cases i with
  | frame n =>
    refine .inr ⟨rfl, ?_⟩
    show max (max (max s.stack.highWater (s.stack.height + 1)) (s.stack.height + 1 + 1))
      (s.stack.height + 1 + 1 + 1) = max s.stack.highWater (s.stack.height + 1 + 1 + 1)
    omega
  | push => exact .inr ⟨rfl, rfl⟩
  | apply => exact .inl (sinks_applyAcc s)
  | shift n m => exact .inl (hset fun _ => Stack.sinks_shift)
  | pop n => exact .inl (hset fun _ => Stack.sinks_popMany)
  | refLocal i => exact .inl (hload _)
  | refTemp i => exact .inl (hload _)
  | halt | const | refRec | jump => exact .inl (Stack.sinks_refl _)
  | refGlobal i =>
    simp only [exec]
    split <;> exact .inl (Stack.sinks_refl _)
  | refFree i =>
    simp only [exec]
    split <;> exact .inl (Stack.sinks_refl _)
  | test n =>
    simp only [exec]
    split <;> exact .inl (Stack.sinks_refl _)
  | close n a =>
    simp only [exec]
    split
    · exact .inl (Stack.sinks_takeTop ‹_›)
    · exact .inl (Stack.sinks_refl _)
  | ret n =>
    simp only [exec]
    split
    · exact .inl (Stack.sinks_refl _)
    · exact .inl ((Stack.sinks_popMany ‹_›).trans (sinks_returnToCaller _))

theorem step_stack (s : State) (p : Program) :
    s.stack.Sinks (s.step p none).1.stack ∨
      (∃ running, (s.step p none).2 = .ok running) ∧
        (s.step p none).1.stack.highWater =
          max s.stack.highWater (s.step p none).1.stack.height := by
  unfold step
  split
  · exact .inl (Stack.sinks_refl _)
  · exact .inl (Stack.sinks_refl _)
  · next i _ =>
    have hexec := exec_stack { s with pc := s.pc + 1 } s.pc i
    split
    · next hrun =>
      rw [hrun] at hexec
      rcases hexec with hsinks | ⟨hnone, _⟩
      · exact .inl hsinks
      · exact nomatch hnone
    · next hrun =>
      rw [hrun] at hexec
      rcases hexec with hsinks | ⟨_, hrises⟩
      · exact .inl hsinks
      · exact .inr ⟨⟨_, rfl⟩, hrises⟩

theorem highWater_step {s s' : State} {p : Program} {r : Except Trap Bool}
    (hstep : s.step p none = (s', r)) (hle : s.stack.height ≤ s.stack.highWater) :
    s'.stack.highWater = max s.stack.highWater s'.stack.height := by
  have h := step_stack s p
  rw [hstep] at h
  rcases h with ⟨hwater, hheight⟩ | ⟨_, hrises⟩
  · show s'.stack.highWater = _
    have hwater' : s'.stack.highWater = s.stack.highWater := hwater
    have hheight' : s'.stack.height ≤ s.stack.height := hheight
    omega
  · exact hrises

theorem highWater_of_trap {s s' : State} {p : Program} {t : Trap}
    (hstep : s.step p none = (s', .error t)) : s'.stack.highWater = s.stack.highWater := by
  have h := step_stack s p
  rw [hstep] at h
  rcases h with hsinks | ⟨⟨_, hok⟩, _⟩
  · exact hsinks.highWater
  · exact nomatch hok

/-! ### States along a run -/

/-- Within a number of instructions, a run gets from a state to another. -/
inductive Visits (p : Program) : Nat → State → State → Prop where
  | here (n : Nat) (s : State) : Visits p n s s
  | later {n : Nat} {s s' s'' : State} {running : Bool} (hstep : s.step p none = (s', .ok running))
      (hrest : Visits p n s' s'') : Visits p (n + 1) s s''

variable {p : Program} {n m : Nat} {s s' s'' : State}

theorem Visits.mono (h : Visits p n s s') (hle : n ≤ m) : Visits p m s s' := by
  induction h generalizing m with
  | here n s => exact .here m s
  | @later n _ _ _ _ hstep _ ih =>
    obtain ⟨m, rfl⟩ : ∃ m', m = m' + 1 := ⟨m - 1, by omega⟩
    exact .later hstep (ih (by omega))

theorem Visits.trans (h : Visits p n s s') (h' : Visits p m s' s'') : Visits p (n + m) s s'' := by
  induction h with
  | here n s => exact h'.mono (by omega)
  | @later n _ _ _ _ hstep _ ih =>
    have hlen : n + 1 + m = n + m + 1 := by omega
    rw [hlen]
    exact .later hstep (ih h')

theorem Visits.recorded (h : Visits p n s s') (hle : s.stack.height ≤ s.stack.highWater) :
    s.stack.highWater ≤ s'.stack.highWater ∧ s'.stack.height ≤ s'.stack.highWater := by
  induction h with
  | here n s => exact ⟨Nat.le_refl _, hle⟩
  | later hstep _ ih =>
    have hwater := highWater_step hstep hle
    have hrest := ih (by omega)
    exact ⟨by omega, hrest.2⟩

/-- What is recorded at a point of a run was recorded before, or it is the height at some point on
the way. -/
theorem Visits.attained (h : Visits p n s s') (hle : s.stack.height ≤ s.stack.highWater) :
    s'.stack.highWater = s.stack.highWater ∨
      ∃ s'', Visits p n s s'' ∧ s'.stack.highWater = s''.stack.height := by
  induction h with
  | here n s => exact .inl rfl
  | @later n s s₁ _ _ hstep _ ih =>
    have hwater := highWater_step hstep hle
    rcases ih (by omega) with hsame | ⟨s'', hvisits, hheight⟩
    · -- the record after the first instruction is the old one or the height it leads to
      rw [hwater] at hsame
      by_cases hhigher : s.stack.highWater ≤ s₁.stack.height
      · exact .inr ⟨s₁, .later hstep (.here n s₁), by omega⟩
      · exact .inl (by omega)
    · exact .inr ⟨s'', .later hstep hvisits, hheight⟩

theorem halted_of_step (hstep : s.step p none = (s', .ok false)) : s'.halted = true := by
  unfold step at hstep
  split at hstep
  · exact nomatch hstep
  · next hnext =>
    cases hstep
    unfold next at hnext
    split at hnext
    · assumption
    · simp only [Option.filter_none] at hnext
      split at hnext <;> exact nomatch hnext
  · split at hstep
    · exact nomatch hstep
    · simp only [Prod.mk.injEq, Except.ok.injEq, Bool.not_eq_false'] at hstep
      rw [← hstep.1]
      exact hstep.2

theorem Visits.eq_of_halted (h : Visits p n s s') (hhalted : s.halted = true) : s' = s := by
  induction h with
  | here => rfl
  | later hstep _ ih =>
    rw [Program.step_of_halted hhalted] at hstep
    cases hstep
    exact ih hhalted

theorem exists_visits_of_runFor {e : RunEnd} (h : s.runFor p none n = some e) :
    ∃ s', Visits p n s s' ∧ e.state.stack.highWater = s'.stack.highWater := by
  induction n generalizing s with
  | zero => exact nomatch h
  | succ n ih =>
    unfold runFor at h
    split at h
    · next hstep =>
      -- a trap leaves the record as it was
      cases h
      exact ⟨s, .here _ s, highWater_of_trap hstep⟩
    · next s₁ hstep =>
      cases h
      exact ⟨s₁, .later hstep (.here n s₁), rfl⟩
    · next hstep =>
      obtain ⟨s', hvisits, hwater⟩ := ih h
      exact ⟨s', .later hstep hvisits, hwater⟩

theorem Visits.highWater_le_of_runFor {e : RunEnd} (hvisits : Visits p m s s')
    (hle : s.stack.height ≤ s.stack.highWater) (h : s.runFor p none n = some e) :
    s'.stack.highWater ≤ e.state.stack.highWater := by
  induction hvisits generalizing n with
  | here m s =>
    obtain ⟨s', hvisits, hwater⟩ := exists_visits_of_runFor h
    rw [hwater]
    exact (hvisits.recorded hle).1
  | @later m s s₁ _ running hstep hrest ih =>
    have hwater := highWater_step hstep hle
    cases n with
    | zero => exact nomatch h
    | succ n =>
      rw [runFor, hstep] at h
      cases running with
      | false =>
        cases h
        have hsame := hrest.eq_of_halted (halted_of_step hstep)
        exact Nat.le_of_eq (congrArg (·.stack.highWater) hsame)
      | true => exact ih (by omega) h

end State

namespace Program

variable {p p' : Program} {k n m : Nat} {s s₀ : State} {c c' d d' : Config}

theorem visits_of_stateAfter (h : p.stateAfter k = some s) : State.initial.Visits p k s := by
  induction k generalizing s with
  | zero =>
    cases h
    exact .here 0 _
  | succ k ih =>
    obtain ⟨s₀, running, hs₀, hstep⟩ := stateAfter_succ h
    exact (ih hs₀).trans (.later hstep (.here 0 s))

theorem exists_stateAfter_of_visits (hs₀ : p.stateAfter k = some s₀) (h : s₀.Visits p n s) :
    ∃ m, p.stateAfter m = some s := by
  induction h generalizing k with
  | here => exact ⟨k, hs₀⟩
  | later hstep _ ih =>
    refine ih (k := k + 1) ?_
    simp only [stateAfter, hs₀, hstep]

theorem visits_of_reaches (h : p.Reaches c c') (hrun : s.halted = false) (hs : s.config = c) :
    ∃ n s', s.Visits p n s' ∧ s'.halted = false ∧ s'.config = c' := by
  induction h with
  | refl => exact ⟨0, s, .here 0 s, hrun, hs⟩
  | tail _ hmove ih =>
    obtain ⟨n, s₁, hvisits, hrun₁, hs₁⟩ := ih
    obtain ⟨s₂, hstep, hrun₂, hs₂⟩ := hmove s₁ hrun₁ hs₁
    exact ⟨n + 1, s₂, hvisits.trans (.later hstep (.here 0 s₂)), hrun₂, hs₂⟩

/-! ### Two programs -/

/-- Whatever height a stack gets to from a configuration within `n` instructions, the stack of the
other program gets to from a configuration of its own. -/
def OutgrownBy (p p' : Program) (n : Nat) (c c' : Config) : Prop :=
  ∀ s s' : State, s.halted = false → s.config = c → s.Visits p n s' →
    ∃ d, p'.Reaches c' d ∧ s'.stack.height ≤ d.cells.length

theorem height_of_config (hs : s.config = c) : s.stack.height = c.cells.length := by
  rw [← hs, s.stack.height_eq]
  rfl

theorem height_le_of_config (hs : s.config = c) (hle : c.cells.length ≤ n) :
    s.stack.height ≤ n := by
  rw [height_of_config hs]
  exact hle

theorem outgrownBy_zero (hle : c.cells.length ≤ c'.cells.length) : p.OutgrownBy p' 0 c c' := by
  intro s s' _ hs hvisits
  cases hvisits
  exact ⟨c', .refl, height_le_of_config hs hle⟩

namespace OutgrownBy

theorem of_traps (h : p.Traps c) (hle : c.cells.length ≤ c'.cells.length) (n : Nat) :
    p.OutgrownBy p' n c c' := by
  intro s s' hrun hs hvisits
  cases hvisits with
  | here => exact ⟨c', .refl, height_le_of_config hs hle⟩
  | later hstep =>
    obtain ⟨_, _, htrap⟩ := h s hrun hs
    exact nomatch hstep.symm.trans htrap

theorem of_halt {is : Code} (hcode : p.HasCode c.pc (.halt :: is))
    (hle : c.cells.length ≤ c'.cells.length) (n : Nat) : p.OutgrownBy p' n c c' := by
  intro s s' hrun hs hvisits
  refine ⟨c', .refl, Nat.le_trans ?_ hle⟩
  rw [← height_of_config hs]
  cases hvisits with
  | here => exact Nat.le_refl _
  | later hstep hrest =>
    rw [step_of_halt hrun (hcode.move (by rw [← hs]; rfl))] at hstep
    cases hstep
    exact Nat.le_of_eq (congrArg (·.stack.height) (hrest.eq_of_halted rfl))

theorem mono (h : p.OutgrownBy p' n c c') (hle : m ≤ n) : p.OutgrownBy p' m c c' :=
  fun s s' hrun hs hvisits => h s s' hrun hs (hvisits.mono hle)

theorem of_moves (h : p.OutgrownBy p' n d c') (hmove : p.Moves c d)
    (hle : c.cells.length ≤ c'.cells.length) : p.OutgrownBy p' (n + 1) c c' := by
  intro s s' hrun hs hvisits
  cases hvisits with
  | here => exact ⟨c', .refl, height_le_of_config hs hle⟩
  | later hstep hrest =>
    obtain ⟨s₁, hstep', hrun', hs'⟩ := hmove s hrun hs
    rw [hstep] at hstep'
    cases hstep'
    exact h _ s' hrun' hs' hrest

theorem of_reaches (h : p.OutgrownBy p' n c d') (hreach : p'.Reaches c' d') :
    p.OutgrownBy p' n c c' := by
  intro s s' hrun hs hvisits
  obtain ⟨b, hb, hle⟩ := h s s' hrun hs hvisits
  exact ⟨b, hreach.trans hb, hle⟩

theorem of_reachesBelow {height : Nat} (h : p.OutgrownBy p' n d c')
    (hreach : p.ReachesBelow height c d) (hle : c.cells.length ≤ height)
    (hpeak : ∃ b, p'.Reaches c' b ∧ height ≤ b.cells.length) : p.OutgrownBy p' n c c' := by
  -- the first stack stays below a height that the second gets to, so it may go ahead
  obtain ⟨b, hb, hpeak⟩ := hpeak
  induction hreach using Relation.ReflTransGen.head_induction_on with
  | refl => exact h
  | head hmove _ ih =>
    intro s s' hrun hs hvisits
    cases hvisits with
    | here => exact ⟨b, hb, height_le_of_config hs (Nat.le_trans hle hpeak)⟩
    | @later n _ _ _ _ hstep hrest =>
      obtain ⟨s₁, hstep', hrun', hs'⟩ := hmove.1 s hrun hs
      rw [hstep] at hstep'
      cases hstep'
      exact ih hmove.2 _ s' hrun' hs' (hrest.mono (Nat.le_succ n))

theorem of_climbs (h : p.OutgrownBy p' n d d') (hclimb : p.Climbs k c d)
    (hclimb' : p'.Climbs k c' d') (hle : c.cells.length ≤ c'.cells.length) :
    p.OutgrownBy p' n c c' := by
  obtain ⟨b, hb, _, hpeak⟩ := hclimb'.peak
  refine (h.of_reaches hclimb'.reaches).of_reachesBelow hclimb.below (Nat.le_add_right ..) ?_
  exact ⟨b, hb, by omega⟩

/-- What the first stack has recorded at a point of a run, the second has recorded at a point of
its own. -/
theorem highWater_le
    (h : ∀ n, p.OutgrownBy p' n State.initial.config State.initial.config)
    (hs : p.stateAfter k = some s) :
    ∃ m s', p'.stateAfter m = some s' ∧ s.stack.highWater ≤ s'.stack.highWater := by
  rcases (visits_of_stateAfter hs).attained (Nat.le_refl 0) with hsame | ⟨s₁, hvisits, hheight⟩
  · exact ⟨0, .initial, rfl, Nat.le_of_eq hsame⟩
  · obtain ⟨d, hreach, hle⟩ := h k _ s₁ rfl rfl hvisits
    obtain ⟨n, s', hvisits', _, hs'⟩ := visits_of_reaches (s := .initial) hreach rfl rfl
    obtain ⟨m, hm⟩ := exists_stateAfter_of_visits (k := 0) rfl hvisits'
    have hrecorded := (hvisits'.recorded (Nat.le_refl 0)).2
    rw [← height_of_config hs'] at hle
    exact ⟨m, s', hm, by omega⟩

theorem highWater_le_of_runFor {e e' : RunEnd}
    (h : ∀ n, p.OutgrownBy p' n State.initial.config State.initial.config)
    (hrun : p.runFor none n = some e) (hrun' : p'.runFor none m = some e') :
    e.state.stack.highWater ≤ e'.state.stack.highWater := by
  obtain ⟨s, hvisits, hwater⟩ := State.exists_visits_of_runFor hrun
  obtain ⟨k, hs⟩ := exists_stateAfter_of_visits (k := 0) rfl hvisits
  obtain ⟨_, s', hs', hle⟩ := highWater_le h hs
  have hend := (visits_of_stateAfter hs').highWater_le_of_runFor (Nat.le_refl 0) hrun'
  omega

end OutgrownBy

end Program

end MiniScheme
