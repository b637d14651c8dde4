import MiniScheme.Proofs.Refinement
import MiniScheme.Proofs.TypedEvaluation

/-!
# Compiled programs reflect direct evaluation

A typed program on which the machine halts is one that direct evaluation gives the same result,
unless it nests calls deeper than direct evaluation allows.
-/

namespace MiniScheme.Expr

/-- Without the clock, what the machine halts with is what direct evaluation gives, if it can nest
calls deep enough. -/
theorem eval_of_halts {options : CompileOptions} {e : Expr Unit} {c : Compilation} {fuel : Nat}
    {s : State} {v : Value} (hc : e.compile options = .ok c) (htypes : options.typecheck = true)
    (hclosed : ∀ x ∈ e.free [], x ∈ Primitive.names) (htime : Primitive.time.name ∉ e.free [])
    (hrun : c.program.runFor none fuel = some ⟨s, .ok v⟩) :
    (∃ d, c.expr.eval = .ok d ∧ d.literal? = v.literal?) ∨
      c.expr.eval = .error (.trap (.callDepth Eval.maxCallDepth)) := by
  have htimeless : c.expr.Timeless := fun h => htime (mem_free.2 (freeIn_of_compile hc h))
  cases heval : c.expr.eval with
  | ok d =>
    obtain ⟨M, fuel', s', v', hrun', _, _, hv⟩ := halts_related hc htimeless heval
    have hmax := Program.runFor_mono (Nat.le_max_left fuel fuel') hrun
    have hmax' := Program.runFor_mono (Nat.le_max_right fuel fuel') hrun'
    rw [hmax] at hmax'
    cases hmax'
    exact .inl ⟨d, rfl, hv.literal?_eq.symm⟩
  | error er =>
    refine .inr ?_
    by_cases hdeep : er = Eval.tooDeep
    · rw [hdeep]
      rfl
    · -- a failure for another reason stays however deep calls may nest, so no run can be finished
      obtain ⟨ty, _, htyped⟩ := typed_of_compile hc htypes hclosed
      have hsafe := Eval.safe_of_typed htyped (Eval.maxCallDepth + fuel)
      have hfails : Eval.evalWith (Eval.call (Eval.maxCallDepth + fuel)) .empty c.expr =
          .error er :=
        Eval.evalWith_stable heval (fun h => hdeep (Except.error.inj h)) fuel
      obtain ⟨M, length, hprogram, _, hfollows⟩ :=
        follows_of_compile (n := Eval.maxCallDepth + fuel) hc htimeless fun _ : True => hsafe
      have hunfinished := hfollows.error er hfails trivial State.initial rfl rfl
      rw [hprogram] at hunfinished
      have hlong := Program.runFor_mono (Nat.le_add_left fuel Eval.maxCallDepth) hrun
      exact absurd rfl (hunfinished _ hlong v)

/-- Types for the variables that are drawn for `sumLoop`. -/
def sumLoopTypes : Nat → Ty
  | 0 => .arrow [.int, .int, .int]
  | 4 => .bool
  | _ => .int

theorem eval_sumLoop_of_halts : ∃ c s v, sumLoop.compile .all = .ok c ∧
    (∀ x ∈ sumLoop.free [], x ∈ Primitive.names) ∧ Primitive.time.name ∉ sumLoop.free [] ∧
    c.program.runFor none 100 = some ⟨s, .ok v⟩ ∧ v.literal? = some (.int 3) ∧
    ∃ d, c.expr.eval = .ok d ∧ d.literal? = some (.int 3) := by
  have hsolved : (sumLoop.compile ⟨true, false⟩ >>= fun c =>
      (TypingProblem.ofExpr c.expr).map fun p =>
        decide (Solves sumLoopTypes p.judgement.constraints)) = .ok true := by
    decide +kernel
  have hhalts : (sumLoop.compile ⟨true, false⟩).map (fun c =>
      (c.program.runFor none 100).map fun r => r.result.map (·.literal?)) =
        .ok (some (.ok (some (.int 3)))) := by
    decide +kernel
  have hshallow : (sumLoop.compile ⟨true, false⟩).map (fun c => c.expr.eval.isOk) = .ok true := by
    decide +kernel
  have hclosed : ∀ x ∈ sumLoop.free [], x ∈ Primitive.names := by decide
  have htime : Primitive.time.name ∉ sumLoop.free [] := by decide
  obtain ⟨c, c', hc, htyped, hprogram, hexpr⟩ := compile_of_solves hsolved
  obtain ⟨c₁, hc₁, hrun⟩ := Results.map_eq_ok_iff.1 hhalts
  obtain ⟨c₂, hc₂, hshallow⟩ := Results.map_eq_ok_iff.1 hshallow
  obtain rfl : c = c₁ := Except.ok.inj (hc.symm.trans hc₁)
  obtain rfl : c = c₂ := Except.ok.inj (hc.symm.trans hc₂)
  obtain ⟨⟨s, result⟩, hrun, hresult⟩ := Option.map_eq_some_iff.1 hrun
  obtain ⟨v, rfl, hv⟩ := Results.map_eq_ok_iff.1 hresult
  rw [← hprogram] at hrun
  refine ⟨c', s, v, htyped, hclosed, htime, hrun, hv, ?_⟩
  rcases eval_of_halts htyped rfl hclosed htime hrun with heval | hdeep
  · rwa [hv] at heval
  · -- the calls of this program are not nested too deep
    rw [← hexpr, hdeep] at hshallow
    cases hshallow

end MiniScheme.Expr
