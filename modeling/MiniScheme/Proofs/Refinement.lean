import MiniScheme.Proofs.Compilation
import MiniScheme.Proofs.Simulation

/-!
# Compiled programs refine direct evaluation

If direct evaluation of a compiled tree gives a value, the machine halts with a value that stands
for it, and with an empty stack.
-/

namespace MiniScheme

/-- The machine follows the evaluation of a program up to the end of its code. -/
theorem Image.Hosts.follows {M : Image} {e : Expr Nat} (h : M.Hosts e) (htime : e.Timeless)
    {strict : Prop} {n : Nat}
    (hsafe : strict → Eval.Safe (Eval.call n) (Eval.Ready n) .empty e) :
    ∃ length, M.program.HasCode length [.halt] ∧
      M.Follows strict n (Eval.evalWith (Eval.call n) .empty e) State.initial.config
        fun d c' => ∃ v, M.Related d v ∧ c' = State.initial.config.after length v [] := by
  obtain ⟨length, hhalt, hpoised⟩ := h.poised (fun _ => rfl) M.Related
  exact ⟨length, hhalt, M.simulated strict n e hpoised htime hsafe⟩

namespace Expr

variable {options : CompileOptions} {e : Expr Unit} {c : Compilation}

/-- The machine follows the evaluation of a compiled tree up to the end of its code. -/
theorem follows_of_compile (hc : e.compile options = .ok c) (htime : c.expr.Timeless)
    {strict : Prop} {n : Nat}
    (hsafe : strict → Eval.Safe (Eval.call n) (Eval.Ready n) .empty c.expr) :
    ∃ (M : Image) (length : Nat), M.program = c.program ∧ M.program.HasCode length [.halt] ∧
      M.Follows strict n (Eval.evalWith (Eval.call n) .empty c.expr) State.initial.config
        fun d c' => ∃ v, M.Related d v ∧ c' = State.initial.config.after length v [] := by
  obtain ⟨M, hprogram, hhosts⟩ := hosts_of_compile hc
  obtain ⟨length, hhalt, hfollows⟩ := hhosts.follows htime hsafe
  exact ⟨M, length, hprogram, hhalt, hfollows⟩

theorem halts_related (hc : e.compile options = .ok c) (htime : c.expr.Timeless)
    {d : Eval.Value Nat} (hd : c.expr.eval = .ok d) :
    ∃ (M : Image) (fuel : Nat) (s : State) (v : Value),
      c.program.runFor none fuel = some ⟨s, .ok v⟩ ∧ s.halted = true ∧ s.stack.cells = [] ∧
        M.Related d v := by
  obtain ⟨M, length, hprogram, hhalt, hfollows⟩ :=
    follows_of_compile (n := Eval.maxCallDepth) hc htime (False.elim ·)
  obtain ⟨c', hreach, v, hv, rfl⟩ := hfollows.ok d hd
  obtain ⟨fuel, s, hrun, hhalted, hcells⟩ :=
    Program.runFor_of_halt hreach (hhalt.move (Nat.zero_add _))
  rw [hprogram] at hrun
  exact ⟨M, fuel, s, v, hrun, hhalted, hcells, hv⟩

/-- Without the clock, a compiled program halts with what direct evaluation gives. -/
theorem halts_of_eval_ok {options : CompileOptions} {e : Expr Unit} {c : Compilation}
    {d : Eval.Value Nat} (hc : e.compile options = .ok c)
    (htime : Primitive.time.name ∉ c.expr.free []) (hd : c.expr.eval = .ok d) :
    ∃ fuel s v, c.program.runFor none fuel = some ⟨s, .ok v⟩ ∧ s.halted = true ∧
      s.stack.cells = [] ∧ v.literal? = d.literal? ∧ (∀ p, d = .prim p → v = .prim p) ∧
      (∀ params body env, d = .closure params body env → ∃ a vs, v = .closure a vs) := by
  obtain ⟨M, fuel, s, v, hrun, hhalted, hcells, hv⟩ :=
    halts_related hc (fun h => htime (mem_free.2 h)) hd
  refine ⟨fuel, s, v, hrun, hhalted, hcells, hv.literal?_eq, ?_, ?_⟩
  · rintro p rfl
    cases hv
    rfl
  · rintro params body env rfl
    cases hv
    exact ⟨_, _, rfl⟩

/-- A loop that adds the numbers from 2 down to 1 to an accumulator, calling itself in tail
position. -/
def sumLoop : Expr Unit :=
  .letrec [("loop", .lambda ["n", "acc"]
    (.cond (.app (.var "=" ()) [.var "n" (), .lit (.int 0) ()] ()) (.var "acc" ())
      (.app (.var "loop" ()) [.app (.var "-" ()) [.var "n" (), .lit (.int 1) ()] (),
        .app (.var "+" ()) [.var "acc" (), .var "n" ()] ()] ()) ()) ())]
    (.app (.var "loop" ()) [.lit (.int 2) (), .lit (.int 0) ()] ()) ()

theorem halts_sumLoop : ∃ c d, sumLoop.compile ⟨true, false⟩ = .ok c ∧
    Primitive.time.name ∉ c.expr.free [] ∧ c.expr.eval = .ok d ∧ d.literal? = some (.int 3) ∧
    ∃ fuel s v, c.program.runFor none fuel = some ⟨s, .ok v⟩ ∧ s.stack.cells = [] ∧
      v.literal? = some (.int 3) := by
  have hfree : (sumLoop.compile ⟨true, false⟩).map (fun c => c.expr.free []) =
      .ok ["=", "-", "+"] := by
    decide +kernel
  have hvalue : (sumLoop.compile ⟨true, false⟩ >>= fun c => c.expr.eval.map (·.literal?)) =
      .ok (some (.int 3)) := by
    decide +kernel
  obtain ⟨c, hc, hnames⟩ := Results.map_eq_ok_iff.1 hfree
  obtain ⟨c', hc', hlit⟩ := Results.bind_eq_ok_iff.1 hvalue
  obtain rfl : c = c' := Except.ok.inj (hc.symm.trans hc')
  obtain ⟨d, hd, hlit⟩ := Results.map_eq_ok_iff.1 hlit
  have htime : Primitive.time.name ∉ c.expr.free [] := by
    rw [hnames]
    decide
  obtain ⟨fuel, s, v, hrun, _, hcells, hv, _⟩ := halts_of_eval_ok hc htime hd
  exact ⟨c, d, hc, htime, hd, hlit, fuel, s, v, hrun, hcells, hv.trans hlit⟩

end Expr

end MiniScheme
