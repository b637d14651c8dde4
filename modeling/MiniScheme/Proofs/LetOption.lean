import MiniScheme.Proofs.Halting
import MiniScheme.Proofs.RecoveredEvaluation
import MiniScheme.Proofs.RecoveredTyping

/-!
# Recovering `let` cannot be observed

With type checking, whether lambdas that are applied directly are turned into `let` makes no
difference to which programs compile, to their types but for the names of type variables, and to
what the machine does on them.
-/

namespace MiniScheme.Expr

/-! ### One tree in two forms -/

/-- A tree with `let` recovered, or as it is. -/
abbrev recoverLetIf {α : Type} (recover : Bool) (e : Expr α) : Expr α :=
  if recover then e.recoverLet else e

theorem convergesTo_untag_iff {α : Type} {e : Expr α} {l : Option Literal} :
    e.untag.ConvergesTo l ↔ e.ConvergesTo l := by
  have hiff (d' : Eval.Value Unit) : Eval.Converges .empty e.untag d' ↔
      ∃ d : Eval.Value α, d.mapTrees (fun _ => ()) (mapTag fun _ => ()) = d' ∧
        Eval.Converges .empty e d :=
    Eval.converges_mapTag_iff _ .empty e d'
  simp [ConvergesTo, hiff, Eval.Value.literal?_mapTrees]

theorem convergesTo_recoverLet_iff {α : Type} {e : Expr α} {l : Option Literal} :
    e.recoverLet.ConvergesTo l ↔ e.ConvergesTo l := by
  have hiff (d' : Eval.Value α) : Eval.Converges .empty e.recoverLet d' ↔
      ∃ d : Eval.Value α, d.recoverLet = d' ∧ Eval.Converges .empty e d :=
    Eval.converges_recoverLet_iff .empty e d'
  simp [ConvergesTo, hiff, Eval.Value.literal?_mapTrees]

theorem untag_recoverLet_tagged (e : Expr Unit) :
    e.recoverLet.tagged.untag = e.tagged.recoverLet.untag := by
  rw [untag_tagged, untag, untag, mapTag_recoverLet, mapTag_recoverLet]
  show e.untag.recoverLet = e.tagged.untag.recoverLet
  rw [untag_tagged]

theorem sameTypes_recoverLetIf (recover recover' : Bool) (e : Expr Unit) :
    SameTypes (e.recoverLetIf recover).tagged (e.recoverLetIf recover').tagged := by
  have hsame : SameTypes e.recoverLet.tagged e.tagged := by
    intro scope ty
    rw [sameTypes_of_untag_eq (untag_recoverLet_tagged e), sameTypes_recoverLet]
  cases recover <;> cases recover'
  · exact fun _ _ => Iff.rfl
  · exact fun _ _ => (hsame _ _).symm
  · exact hsame
  · exact fun _ _ => Iff.rfl

theorem convergesTo_recoverLetIf (recover recover' : Bool) (e : Expr Unit) (l : Option Literal) :
    (e.recoverLetIf recover).tagged.ConvergesTo l ↔
      (e.recoverLetIf recover').tagged.ConvergesTo l := by
  have hsame : e.recoverLet.tagged.ConvergesTo l ↔ e.tagged.ConvergesTo l := by
    rw [← convergesTo_untag_iff, untag_recoverLet_tagged, convergesTo_untag_iff,
      convergesTo_recoverLet_iff]
  cases recover <;> cases recover'
  · rfl
  · exact hsame.symm
  · exact hsame
  · rfl

theorem fixLetrec_recoverLetIf {α : Type} (recover : Bool) {e d : Expr α} :
    (e.recoverLetIf recover).fixLetrec.result = .ok d ↔
      ∃ fixed, e.fixLetrec.result = .ok fixed ∧ fixed.recoverLetIf recover = d := by
  cases recover with
  | false => simp [recoverLetIf]
  | true => exact fixesRecovered e d

/-! ### Compiling -/

variable {e : Expr Unit}

/-- The tree of a compilation, in the form asked for. -/
theorem compile_form {recover : Bool} {c : Compilation} (h : e.compile ⟨recover, true⟩ = .ok c) :
    ∃ fixed, e.rename.fixLetrec.result = .ok fixed ∧
      c.expr = (fixed.recoverLetIf recover).tagged := by
  obtain ⟨⟨d, hd, hexpr⟩, _⟩ := compile_ok h
  obtain ⟨fixed, hfixed, rfl⟩ := (fixLetrec_recoverLetIf recover).1 hd
  exact ⟨fixed, hfixed, hexpr⟩

theorem closed_of_fixLetrec {fixed : Expr Unit} (hclosed : ∀ x ∈ e.free [], x ∈ Primitive.names)
    (hfixed : e.rename.fixLetrec.result = .ok fixed) (recover : Bool) :
    ∀ x, (fixed.recoverLetIf recover).tagged.FreeIn x → x ∈ Primitive.names := by
  intro x hx
  rw [freeIn_tagged] at hx
  have hfree : FreeIn x fixed := by
    cases recover with
    | false => exact hx
    | true => exact freeIn_of_recoverLet hx
  exact hclosed x (mem_free.2 (freeIn_of_rename (freeIn_of_fixLetrec hfixed hfree)))

theorem exists_compile_of_compile {recover : Bool} {c : Compilation}
    (hclosed : ∀ x ∈ e.free [], x ∈ Primitive.names) (h : e.compile ⟨recover, true⟩ = .ok c)
    (recover' : Bool) : ∃ c', e.compile ⟨recover', true⟩ = .ok c' := by
  obtain ⟨fixed, hfixed, hexpr⟩ := compile_form h
  obtain ⟨_, htyping, _⟩ := compile_ok h
  obtain ⟨typing, hinfer, _⟩ := htyping rfl
  rw [hexpr] at hinfer
  have hfree := closed_of_fixLetrec hclosed hfixed
  obtain ⟨typing', _, hinfer', _⟩ := infer_of_sameTypes
    (sameTypes_recoverLetIf recover recover' fixed) (hfree recover) (hfree recover') hinfer
  have htyped := typed_of_infer hinfer' (hfree recover')
  obtain ⟨assembly, program, hassembly, hlink⟩ := exists_program_of_typed htyped (hfree recover') _
  exact exists_compile (not_deeper_of_compile h)
    ((fixLetrec_recoverLetIf recover').2 ⟨fixed, hfixed, rfl⟩) hinfer' hassembly hlink

theorem sameForm_of_compile {recover recover' : Bool} {c c' : Compilation}
    (h : e.compile ⟨recover, true⟩ = .ok c) (h' : e.compile ⟨recover', true⟩ = .ok c') :
    SameTypes c.expr c'.expr ∧ ∀ l, c.expr.ConvergesTo l ↔ c'.expr.ConvergesTo l := by
  obtain ⟨fixed, hfixed, hexpr⟩ := compile_form h
  obtain ⟨fixed', hfixed', hexpr'⟩ := compile_form h'
  obtain rfl : fixed = fixed' := Except.ok.inj (hfixed.symm.trans hfixed')
  rw [hexpr, hexpr']
  exact ⟨sameTypes_recoverLetIf _ _ fixed, convergesTo_recoverLetIf _ _ fixed⟩

/-- Whether `let` is recovered cannot be observed. -/
theorem recoverLet_unobservable (e : Expr Unit) (hclosed : ∀ x ∈ e.free [], x ∈ Primitive.names)
    (htime : Primitive.time.name ∉ e.free []) :
    ((∃ c, e.compile ⟨true, true⟩ = .ok c) ↔ ∃ c, e.compile ⟨false, true⟩ = .ok c) ∧
      ∀ c c', e.compile ⟨true, true⟩ = .ok c → e.compile ⟨false, true⟩ = .ok c' →
        (∃ ty ty' π, c.ty = some ty ∧ c'.ty = some ty' ∧
          ty' = ty.replace fun x => .var ((π : Equiv.Perm Nat) x)) ∧
        c.program.HaltsLike c'.program := by
  refine ⟨⟨fun ⟨_, h⟩ => exists_compile_of_compile hclosed h false,
    fun ⟨_, h⟩ => exists_compile_of_compile hclosed h true⟩, fun c c' h h' => ?_⟩
  obtain ⟨htypes, hconverges⟩ := sameForm_of_compile h h'
  have hfree {options : CompileOptions} {d : Compilation} (hd : e.compile options = .ok d) :
      ∀ x, d.expr.FreeIn x → x ∈ e.free [] := fun x hx => mem_free.2 (freeIn_of_compile hd hx)
  constructor
  · obtain ⟨_, htyping, _⟩ := compile_ok h
    obtain ⟨_, htyping', _⟩ := compile_ok h'
    obtain ⟨typing, hinfer, hty, _⟩ := htyping rfl
    obtain ⟨typing', hinfer', hty', _⟩ := htyping' rfl
    obtain ⟨typing'', π, hrenamed, hroot⟩ := infer_of_sameTypes htypes
      (fun x hx => hclosed x (hfree h x hx)) (fun x hx => hclosed x (hfree h' x hx)) hinfer
    obtain rfl : typing' = typing'' := Except.ok.inj (hinfer'.symm.trans hrenamed)
    exact ⟨typing.root, typing'.root, π, hty, hty', hroot⟩
  · obtain ⟨M, hprogram, hosts⟩ := hosts_of_compile h
    obtain ⟨M', hprogram', hosts'⟩ := hosts_of_compile h'
    obtain ⟨_, _, htyped⟩ := typed_of_compile h rfl hclosed
    obtain ⟨_, _, htyped'⟩ := typed_of_compile h' rfl hclosed
    rw [← hprogram, ← hprogram']
    exact hosts.haltsLike hosts' (fun hx => htime (hfree h _ hx)) (fun hx => htime (hfree h' _ hx))
      htyped htyped' hconverges

/-- A function bound by a lambda that is applied directly, and called twice. -/
def appliedTwice : Expr Unit :=
  .app (.lambda ["f"] (.app (.var "f" ()) [.app (.var "f" ()) [.lit (.int 3) ()] ()] ()) ())
    [.lambda ["x"] (.app (.var "+" ()) [.var "x" (), .lit (.int 1) ()] ()) ()] ()

theorem recoverLet_appliedTwice : ∃ c c', appliedTwice.compile ⟨true, true⟩ = .ok c ∧
    appliedTwice.compile ⟨false, true⟩ = .ok c' ∧
    (∀ x ∈ appliedTwice.free [], x ∈ Primitive.names) ∧
    Primitive.time.name ∉ appliedTwice.free [] ∧
    (∃ s v, c.program.HaltsWith s v ∧ v.literal? = some (.int 5)) ∧
    ∃ s v, c'.program.HaltsWith s v ∧ v.literal? = some (.int 5) := by
  have hsolved : (appliedTwice.compile ⟨true, false⟩ >>= fun c =>
      (TypingProblem.ofExpr c.expr).map fun p =>
        decide (Solves (fun _ => .int) p.judgement.constraints)) = .ok true := by
    decide +kernel
  have hhalts : (appliedTwice.compile ⟨true, false⟩).map (fun c =>
      (c.program.runFor none 100).map fun r => r.result.map (·.literal?)) =
        .ok (some (.ok (some (.int 5)))) := by
    decide +kernel
  have hclosed : ∀ x ∈ appliedTwice.free [], x ∈ Primitive.names := by decide
  have htime : Primitive.time.name ∉ appliedTwice.free [] := by decide
  obtain ⟨c, c₁, hc, hc₁, hprogram, _⟩ := compile_of_solves hsolved
  obtain ⟨hiff, hsame⟩ := recoverLet_unobservable appliedTwice hclosed htime
  obtain ⟨c₂, hc₂⟩ := hiff.1 ⟨c₁, hc₁⟩
  obtain ⟨_, hlike⟩ := hsame c₁ c₂ hc₁ hc₂
  obtain ⟨c'', hc'', hrun⟩ := Results.map_eq_ok_iff.1 hhalts
  obtain rfl : c = c'' := Except.ok.inj (hc.symm.trans hc'')
  obtain ⟨⟨s, result⟩, hrun, hresult⟩ := Option.map_eq_some_iff.1 hrun
  obtain ⟨v, rfl, hv⟩ := Results.map_eq_ok_iff.1 hresult
  rw [← hprogram] at hrun
  obtain ⟨s', v', hrun'⟩ := hlike.halts.1 ⟨s, v, 100, hrun⟩
  exact ⟨c₁, c₂, hc₁, hc₂, hclosed, htime, ⟨s, v, ⟨100, hrun⟩, hv⟩, s', v', hrun',
    (hlike.literal ⟨100, hrun⟩ hrun').symm.trans hv⟩

end MiniScheme.Expr
