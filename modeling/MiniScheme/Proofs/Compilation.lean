import MiniScheme.Compile
import MiniScheme.Proofs.Inference
import MiniScheme.Proofs.Placement
import MiniScheme.Proofs.Poised

/-!
# Compiled programs

What a successful compilation has established: the tree that is typed, evaluated and turned into
code has binders with names of their own, nodes with numbers of their own and no free names that
the program did not have, it has the type that was found for it, its tail calls are those of the
table, and all its code is in memory.
-/

namespace MiniScheme

/-- The code of a program is in memory, and the table lists tail calls of the program only. -/
structure Image.Hosts (M : Image) (e : Expr Nat) : Prop where
  code : ∃ code, M.Compiles .main .value e code ∧ M.program.HasCode 0 (code ++ [.halt])
  fresh : e.Fresh []
  allowed : e.Allowed M.calls none

theorem Image.Hosts.poised {M : Image} {e : Expr Nat} (h : M.Hosts e) {D : Type}
    {find : Name → Option D} (hfind : ∀ x, find x = none) (Right : D → Value → Prop) :
    ∃ length, M.program.HasCode length [.halt] ∧
      M.Poised [] find Right none e State.initial.config (State.initial.config.past length) := by
  obtain ⟨code, hcompiles, hcode⟩ := h.code
  rw [Program.hasCode_append_iff, Nat.zero_add] at hcode
  exact ⟨code.length, hcode.2, ⟨_, code, hcompiles, hcode.1, Frame.holds_main rfl rfl hfind,
    .past _ code.length⟩, h.fresh, h.allowed⟩

namespace Expr

variable {options : CompileOptions} {e : Expr Unit} {c : Compilation}

/-- The passes of a successful compilation. -/
theorem compile_ok (h : e.compile options = .ok c) :
    (∃ fixed, (if options.recoverLet then e.rename.recoverLet else e.rename).fixLetrec.result =
        .ok fixed ∧ c.expr = fixed.tagged) ∧
      (options.typecheck = true → ∃ typing, c.expr.infer = .ok typing ∧ c.ty = some typing.root ∧
        c.types = typing.types ∧ c.escaping = c.expr.escaping typing.types) ∧
      ∃ assembly, c.expr.assemble c.expr.tailCalls = .ok assembly ∧
        assembly.link = .ok c.program := by
  unfold compile compileLogged at h
  split at h
  · simp [Emit.fail] at h
  · simp only [Emit.result_bind_eq_ok_iff, Emit.result_pure, Except.ok.injEq, Prod.exists] at h
    obtain ⟨_, _, fixed, hfixed, _, _, ty, types, escaping, hanalyse, assembly, hassembly, program,
      hprogram, _, _, _, _, rfl⟩ := h
    refine ⟨⟨fixed, hfixed, rfl⟩, fun htypes => ?_, assembly, hassembly, hprogram⟩
    simp only [analyse, htypes, if_true, inferLogged, TypingProblem.solveLogged,
      Emit.result_bind_eq_ok_iff, Emit.lift, Emit.result_pure, Except.ok.injEq,
      Prod.mk.injEq] at hanalyse
    obtain ⟨typing, ⟨problem, hproblem, _, _, hsolve⟩, _, _, rfl, rfl, rfl⟩ := hanalyse
    refine ⟨typing, ?_, rfl, rfl, rfl⟩
    rw [infer, Results.bind_eq_ok_iff]
    exact ⟨problem, hproblem, hsolve⟩

/-- Typing a tree adds to a compilation what it finds and changes nothing else. -/
theorem compile_of_infer {recoverLet : Bool} {typing : Typing}
    (h : e.compile ⟨recoverLet, false⟩ = .ok c) (hinfer : c.expr.infer = .ok typing) :
    e.compile ⟨recoverLet, true⟩ = .ok { c with
      ty := some typing.root
      types := typing.types
      escaping := c.expr.escaping typing.types } := by
  unfold compile compileLogged at h ⊢
  split at h
  · simp [Emit.fail] at h
  · rename_i hdepth
    rw [if_neg hdepth]
    simp only [Emit.result_bind_eq_ok_iff, Emit.result_pure, Except.ok.injEq, Prod.exists] at h ⊢
    obtain ⟨_, _, fixed, hfixed, _, _, _, _, _, _, assembly, hassembly, program, hprogram, _, _,
      _, _, rfl⟩ := h
    obtain ⟨problem, hproblem, hsolve⟩ := Results.bind_eq_ok_iff.1 hinfer
    refine ⟨(), rfl, fixed, hfixed, (), rfl, some typing.root, typing.types, _, ?_, assembly,
      hassembly, program, hprogram, (), rfl, (), rfl, rfl⟩
    simp only [analyse, if_true, inferLogged, TypingProblem.solveLogged,
      Emit.result_bind_eq_ok_iff, Emit.lift, Emit.result_pure]
    exact ⟨typing, ⟨problem, hproblem, (), rfl, hsolve⟩, (), rfl, rfl⟩

theorem not_deeper_of_compile (h : e.compile options = .ok c) : e.deeperThan maxDepth = false := by
  unfold compile compileLogged at h
  split at h
  · simp [Emit.fail] at h
  · next hdepth => exact eq_false_of_ne_true hdepth

/-- With type checking, a tree compiles if each pass succeeds. -/
theorem exists_compile {recoverLet : Bool} {fixed : Expr Unit} {typing : Typing}
    {assembly : Assembly} {program : Program} (hdepth : e.deeperThan maxDepth = false)
    (hfixed : (if recoverLet then e.rename.recoverLet else e.rename).fixLetrec.result = .ok fixed)
    (hinfer : fixed.tagged.infer = .ok typing)
    (hassembly : fixed.tagged.assemble fixed.tagged.tailCalls = .ok assembly)
    (hlink : assembly.link = .ok program) : ∃ c, e.compile ⟨recoverLet, true⟩ = .ok c := by
  have hplain : e.compile ⟨recoverLet, false⟩ =
      .ok ⟨fixed.tagged, none, [], fixed.tagged.tailCalls, [], program⟩ := by
    unfold compile compileLogged
    rw [hdepth]
    simp only [Bool.false_eq_true, if_false, Emit.result_bind_eq_ok_iff, Emit.result_pure,
      Prod.exists]
    exact ⟨(), rfl, fixed, hfixed, (), rfl, none, [], [], rfl, assembly, hassembly, program, hlink,
      (), rfl, (), rfl, rfl⟩
  exact ⟨_, compile_of_infer hplain hinfer⟩

/-- To see that a tree compiles with type checking, types for its variables are enough. -/
theorem compile_of_solves {recoverLet : Bool} {θ : Nat → Ty}
    (h : (e.compile ⟨recoverLet, false⟩ >>= fun c => (TypingProblem.ofExpr c.expr).map fun p =>
      decide (Solves θ p.judgement.constraints)) = .ok true) :
    ∃ c c', e.compile ⟨recoverLet, false⟩ = .ok c ∧ e.compile ⟨recoverLet, true⟩ = .ok c' ∧
      c'.program = c.program ∧ c'.expr = c.expr := by
  obtain ⟨c, hc, h⟩ := Results.bind_eq_ok_iff.1 h
  obtain ⟨p, hp, hθ⟩ := Results.map_eq_ok_iff.1 h
  obtain ⟨typing, hinfer⟩ := infer_of_solves hp (of_decide_eq_true hθ)
  exact ⟨c, _, hc, compile_of_infer hc hinfer, rfl, rfl⟩

theorem fresh_of_compile (h : e.compile options = .ok c) : c.expr.Fresh [] := by
  obtain ⟨⟨fixed, hfixed, hexpr⟩, _⟩ := compile_ok h
  rw [hexpr]
  refine fresh_tagged (fresh_fixLetrec hfixed ?_)
  split
  · exact fresh_recoverLet (fresh_rename e)
  · exact fresh_rename e

theorem nodup_tags_of_compile (h : e.compile options = .ok c) : c.expr.tags.Nodup := by
  obtain ⟨⟨fixed, _, hexpr⟩, _⟩ := compile_ok h
  rw [hexpr]
  exact nodup_tags_tagged fixed

theorem freeIn_of_compile (h : e.compile options = .ok c) {x : Name} (hx : FreeIn x c.expr) :
    FreeIn x e := by
  obtain ⟨⟨fixed, hfixed, hexpr⟩, _⟩ := compile_ok h
  rw [hexpr, freeIn_tagged] at hx
  have hnormal := freeIn_of_fixLetrec hfixed hx
  split at hnormal
  · exact freeIn_of_rename (freeIn_of_recoverLet hnormal)
  · exact freeIn_of_rename hnormal

theorem typed_of_compile (h : e.compile options = .ok c) (htypes : options.typecheck = true)
    (hclosed : ∀ x ∈ e.free [], x ∈ Primitive.names) :
    ∃ ty, c.ty = some ty ∧ Typed [] c.expr ty := by
  obtain ⟨_, htyping, _⟩ := compile_ok h
  obtain ⟨typing, hinfer, hty, _⟩ := htyping htypes
  refine ⟨typing.root, hty, typed_of_infer hinfer fun x hx => hclosed x ?_⟩
  exact mem_free.2 (freeIn_of_compile h hx)

/-- Linked code is in memory, the main block first. -/
theorem hosts_of_link {e : Expr Nat} {calls : List TailCall} {assembly : Assembly}
    {program : Program} (hnodup : e.tags.Nodup) (hfresh : e.Fresh [])
    (hallowed : e.Allowed calls none) (hassembly : e.assemble calls = .ok assembly)
    (hlink : assembly.link = .ok program) :
    ∃ M : Image, M.program = program ∧ M.calls = calls ∧ M.Hosts e := by
  have hlabels := nodup_labels hnodup calls
  obtain ⟨main, hmain, hblocks⟩ := Results.map_eq_ok_iff.1 hassembly
  subst hblocks
  obtain ⟨code, hcode, hhalt⟩ := (Emit.result_bind_eq_ok_iff ..).1 hmain
  simp only [Emit.result_pure, Except.ok.injEq] at hhalt
  subst hhalt
  have htable := Table.ofPairs_of_nodup hlabels
  have hplaced := Assembly.placed_of_link hlink (by rw [htable]; exact hlabels)
  rw [htable] at hplaced
  have hstart := Program.hasCode_append_iff.1 (Assembly.hasCode_of_link hlink).2
  refine ⟨⟨program, calls, (e.genMain calls).emitted, hplaced⟩, rfl, rfl,
    ⟨code, ⟨hcode, fun b hb => ?_⟩, hstart.1⟩, hfresh, hallowed⟩
  show b ∈ (genMain calls e).emitted
  rw [genMain, Emit.emitted_bind_of_ok hcode]
  exact List.mem_append_left _ hb

theorem hosts_of_compile (h : e.compile options = .ok c) :
    ∃ M : Image, M.program = c.program ∧ M.Hosts c.expr := by
  obtain ⟨_, _, assembly, hassembly, hlink⟩ := compile_ok h
  have hnodup := nodup_tags_of_compile h
  obtain ⟨M, hprogram, _, hhosts⟩ := hosts_of_link hnodup (fresh_of_compile h)
    (marked_tailCalls hnodup).allowed hassembly hlink
  exact ⟨M, hprogram, hhosts⟩

end Expr

end MiniScheme
