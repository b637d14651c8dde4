import MiniScheme.Proofs.Compilation
import MiniScheme.Proofs.TypedCode

/-!
# Typed programs are safe

No run of a program with a type ends in a trap, unless it compares procedures, and the value it
halts with is of the kind that the type names.
-/

namespace MiniScheme

/-- The state after a number of instructions, if none of them traps. A machine that has halted
stays as it is. -/
def Program.stateAfter (p : Program) : Nat → Option State
  | 0 => some .initial
  | k + 1 =>
    match p.stateAfter k with
    | none => none
    | some s =>
      match s.step p none with
      | (s', .ok _) => some s'
      | (_, .error _) => none

/-- A value is of the kind that a type names. No value has a type that is left open. -/
def Value.HasKind (v : Value) : Ty → Prop
  | .int => ∃ i, v = .lit (.int i)
  | .bool => ∃ b, v = .lit (.bool b)
  | .arrow _ => v.isProcedure = true
  | .var _ => False

theorem Program.Keeps.hasKind {p : Program} {good : Value → Prop} {n : Nat} {v : Value} {ty : Ty}
    (h : p.Keeps good n v ty) : v.HasKind ty := by
  rcases h.suits with ⟨l, rfl, rfl⟩ | ⟨_, hproc, tys, rfl⟩
  · cases l with
    | int i => exact ⟨i, rfl⟩
    | bool b => exact ⟨b, rfl⟩
  · exact hproc

theorem Program.stateAfter_succ {p : Program} {k : Nat} {s' : State}
    (h : p.stateAfter (k + 1) = some s') :
    ∃ s running, p.stateAfter k = some s ∧ s.step p none = (s', .ok running) := by
  rw [stateAfter] at h
  cases hs : p.stateAfter k with
  | none =>
    rw [hs] at h
    exact nomatch h
  | some s =>
    rw [hs] at h
    rcases hstep : s.step p none with ⟨s'', _ | running⟩
    · simp only [hstep] at h
      exact nomatch h
    · simp only [hstep, Option.some.injEq] at h
      subst h
      exact ⟨s, running, rfl, hstep⟩

theorem Program.Safe.stateAfter {p : Program} {good : Value → Prop} {k : Nat} {s : State}
    (h : p.Safe good .initial) (hs : p.stateAfter k = some s) : p.Safe good s := by
  induction k generalizing s with
  | zero =>
    cases hs
    exact h
  | succ k ih =>
    obtain ⟨s', running, hs', hstep⟩ := stateAfter_succ hs
    exact (ih hs').step hstep

namespace Expr

variable {options : CompileOptions} {e : Expr Unit} {c : Compilation}

theorem safe_of_compile (hc : e.compile options = .ok c) (htypes : options.typecheck = true)
    (hclosed : ∀ x ∈ e.free [], x ∈ Primitive.names) :
    ∃ ty, c.ty = some ty ∧ c.program.Safe (·.HasKind ty) State.initial := by
  obtain ⟨ty, hty, htyped⟩ := typed_of_compile hc htypes hclosed
  obtain ⟨M, hprogram, hhosts⟩ := hosts_of_compile hc
  refine ⟨ty, hty, .inl ⟨rfl, fun n => ?_⟩⟩
  rw [← hprogram]
  obtain ⟨length, hhalt, hpoised⟩ := hhosts.poised (fun _ => rfl)
    fun ty' v => M.program.Keeps (·.HasKind ty) n v ty'
  refine M.secured (·.HasKind ty) c.expr hpoised htyped fun m _ v hv => ?_
  exact Program.secure_of_halt (hhalt.move (Nat.zero_add _)) hv.hasKind m

/-- At every point of the run of a typed program, the next instruction traps only if it compares a
procedure; once the machine has halted, its accumulator is of the kind that the type names. -/
theorem stateAfter_safe_of_typecheck {options : CompileOptions} {e : Expr Unit} {c : Compilation}
    {k : Nat} {s : State} (hc : e.compile options = .ok c) (htypes : options.typecheck = true)
    (hclosed : ∀ x ∈ e.free [], x ∈ Primitive.names) (hs : c.program.stateAfter k = some s) :
    (∀ s' t, s.step c.program none = (s', .error t) → s.Excuses c.program t) ∧
      (s.halted = true → ∃ ty, c.ty = some ty ∧ s.acc.HasKind ty) := by
  obtain ⟨ty, hty, hsafe⟩ := safe_of_compile hc htypes hclosed
  have hreached := hsafe.stateAfter hs
  refine ⟨fun s' t => hreached.excuses, fun hhalted => ⟨ty, hty, ?_⟩⟩
  rcases hreached with ⟨hrun, _⟩ | ⟨_, hacc⟩
  · rw [hhalted] at hrun
    exact nomatch hrun
  · exact hacc

/-- A procedure that compares its first argument, a procedure, with addition, unless its second
argument is the time. -/
def comparison : Expr Unit :=
  .letrec [("same", .lambda ["f", "n"]
    (.cond (.app (.var "=" ()) [.var "n" (), .app (.var "time" ()) [] ()] ())
      (.lit (.bool false) ())
      (.app (.var "=" ()) [.var "f" (), .var "+" ()] ()) ()) ())]
    (.app (.var "same" ()) [.var "-" (), .lit (.int 0) ()] ()) ()

/-- Types for the variables that are drawn for `comparison`. -/
def comparisonTypes : Nat → Ty
  | 0 => .arrow [.arrow [.int, .int, .int], .int, .bool]
  | 1 | 6 => .arrow [.int, .int, .int]
  | 2 | 3 | 4 => .int
  | _ => .bool

theorem stateAfter_comparison_safe : ∃ c s s' t, comparison.compile .all = .ok c ∧
    (∀ x ∈ comparison.free [], x ∈ Primitive.names) ∧ c.program.stateAfter 25 = some s ∧
    s.step c.program none = (s', .error t) ∧ s.Excuses c.program t := by
  have hsolved : (comparison.compile ⟨true, false⟩ >>= fun c =>
      (TypingProblem.ofExpr c.expr).map fun p =>
        decide (Solves comparisonTypes p.judgement.constraints)) = .ok true := by
    decide +kernel
  have htraps : (comparison.compile ⟨true, false⟩).map (fun c =>
      (c.program.stateAfter 25).map fun s => (s.step c.program none).2.toBool) =
        .ok (some false) := by
    decide +kernel
  have hclosed : ∀ x ∈ comparison.free [], x ∈ Primitive.names := by decide
  obtain ⟨c, c', hc, htyped, hprogram, _⟩ := compile_of_solves hsolved
  obtain ⟨c'', hc'', hafter⟩ := Results.map_eq_ok_iff.1 htraps
  obtain rfl : c = c'' := Except.ok.inj (hc.symm.trans hc'')
  obtain ⟨s, hs, htrap⟩ := Option.map_eq_some_iff.1 hafter
  rw [← hprogram] at hs htrap
  rcases hstep : s.step c'.program none with ⟨s', t | running⟩
  · have hsafe := stateAfter_safe_of_typecheck htyped rfl hclosed hs
    exact ⟨c', s, s', t, htyped, hclosed, hs, hstep, hsafe.1 s' t hstep⟩
  · rw [hstep] at htrap
    exact nomatch htrap

end Expr

end MiniScheme
