import MiniScheme.Proofs.CodeFaults
import MiniScheme.Proofs.Compilation
import MiniScheme.Proofs.Printing
import MiniScheme.Proofs.Reading

/-!
# Failures of compilation

A tree that was read is never too deep, has no empty sequence, and after `letrec` has become `fix`
no `letrec` is left. So compiling a program text fails only at its text, at a `letrec` that binds
something else than a lambda, at an assignment, at an unbound name or at its types.
-/

namespace MiniScheme

open Results

/-! ### Failures of type inference -/

namespace InferM

variable {α β : Type}

/-- The only failure is that of an assignment. -/
def FailsAtAssign (x : InferM α) : Prop :=
  ∀ s, FailsIn (· = .rejected .assign) (x.run s)

theorem FailsAtAssign.pure (a : α) : FailsAtAssign (Pure.pure a : InferM α) :=
  fun s => .ok (a, s)

theorem FailsAtAssign.bind {x : InferM α} {f : α → InferM β} (hx : FailsAtAssign x)
    (hf : ∀ a s s', x.run s = .ok (a, s') → FailsAtAssign (f a)) : FailsAtAssign (x >>= f) := by
  intro s
  rw [StateT.run_bind]
  exact (hx s).bind fun r hr => hf r.1 s r.2 hr r.2

theorem failsAtAssign_fresh : FailsAtAssign fresh :=
  fun _ => .ok _

theorem failsAtAssign_freshFor (xs : List Name) : FailsAtAssign (freshFor xs) := by
  intro s
  rw [run_freshFor]
  exact .ok _

theorem failsAtAssign_typeOfName (scope : TypeScope) (x : Name) :
    FailsAtAssign (typeOfName scope x) := by
  unfold typeOfName
  cases scope.lookup x with
  | some ty => exact .pure ty
  | none =>
    cases Primitive.ofName? x with
    | some p => exact fun s => .ok _
    | none =>
      refine .bind (fun s => .ok (s, s)) fun s _ _ _ => ?_
      cases s.unknown.lookup x with
      | some ty => exact .pure ty
      | none =>
        exact .bind failsAtAssign_fresh fun ty _ _ _ =>
          .bind (fun s => .ok _) fun _ _ _ _ => .pure ty

end InferM

namespace Expr

open InferM

/-- Typing a tree without `letrec` and empty sequences fails at assignments only. -/
def Annotates (e : Expr Nat) : Prop :=
  ∀ scope, e.Lowered → FailsAtAssign (annotate scope e)

theorem failsAtAssign_list {es : List (Expr Nat)} (h : ∀ e ∈ es, Annotates e)
    (hlow : ∀ e ∈ es, e.Lowered) (scope : TypeScope) : FailsAtAssign (annotateList scope es) := by
  induction es with
  | nil => exact .pure _
  | cons e es ih =>
    obtain ⟨he, hes⟩ := List.forall_mem_cons.1 h
    obtain ⟨hle, hles⟩ := List.forall_mem_cons.1 hlow
    exact .bind (he scope hle) fun first _ _ _ => .bind (ih hes hles) fun rest _ _ _ => .pure _

theorem failsAtAssign_members {ms : List (Member Nat (Expr Nat))}
    (h : ∀ m ∈ ms, Annotates m.body) (hlow : ∀ m ∈ ms, m.body.Lowered) (scope : TypeScope) :
    FailsAtAssign (annotateMembers scope ms) := by
  induction ms with
  | nil => exact .pure _
  | cons m ms ih =>
    obtain ⟨hm, hms⟩ := List.forall_mem_cons.1 h
    obtain ⟨hlm, hlms⟩ := List.forall_mem_cons.1 hlow
    exact .bind (failsAtAssign_freshFor _) fun tys _ _ _ => .bind (hm _ hlm) fun body _ _ _ =>
      .bind (ih hms hlms) fun rest _ _ _ => .pure _

theorem annotates (e : Expr Nat) : Annotates e := by
  induction e with
  | lit v t => exact fun scope _ => .pure _
  | var x t => exact fun scope _ => .bind (failsAtAssign_typeOfName scope x) fun ty _ _ _ => .pure _
  | cond test yes no t htest hyes hno =>
    intro scope hlow
    have h₁ := htest scope (hlow.child (by simp [children]))
    have h₂ := hyes scope (hlow.child (by simp [children]))
    have h₃ := hno scope (hlow.child (by simp [children]))
    exact .bind h₁ fun _ _ _ _ => .bind h₂ fun _ _ _ _ => .bind h₃ fun _ _ _ _ =>
      .bind failsAtAssign_fresh fun _ _ _ _ => .pure _
  | lambda params body t hbody =>
    intro scope hlow
    exact .bind (failsAtAssign_freshFor params) fun tys _ _ _ =>
      .bind (hbody _ (hlow.child (List.mem_singleton_self _))) fun _ _ _ _ => .pure _
  | assign x value t hvalue =>
    exact fun scope _ s => .error rfl
  | app func args t hfunc hargs =>
    intro scope hlow
    have hlowargs : ∀ e ∈ args, e.Lowered := fun e he => hlow.child (List.mem_cons_of_mem _ he)
    exact .bind (hfunc scope (hlow.child (List.mem_cons_self ..))) fun _ _ _ _ =>
      .bind (failsAtAssign_list hargs hlowargs scope) fun _ _ _ _ =>
      .bind failsAtAssign_fresh fun _ _ _ _ => .pure _
  | letIn bindings body t hbindings hbody =>
    intro scope hlow
    have hinits : FailsAtAssign (annotateBindings scope bindings) := by
      rw [annotateBindings_eq]
      exact failsAtAssign_list (List.forall_mem_map.2 hbindings)
        (List.forall_mem_map.2 fun b hb => hlow.child (mem_children_of_letIn hb)) scope
    exact .bind hinits fun _ _ _ _ => .bind (hbody _ (hlow.child (body_mem_children_letIn _)))
      fun _ _ _ _ => .bind failsAtAssign_fresh fun _ _ _ _ => .pure _
  | letrec bindings body t _ _ =>
    exact fun scope hlow => absurd rfl (hlow.root.2 bindings body t)
  | fix members body t hmembers hbody =>
    intro scope hlow
    exact .bind (failsAtAssign_freshFor _) fun tys _ _ _ =>
      .bind (failsAtAssign_members hmembers
        (fun m hm => hlow.child (mem_children_of_fix hm)) _) fun _ _ _ _ =>
      .bind (hbody _ (hlow.child (body_mem_children_fix _))) fun _ _ _ _ =>
      .bind failsAtAssign_fresh fun _ _ _ _ => .pure _
  | seq items t hitems =>
    intro scope hlow
    refine .bind (failsAtAssign_list hitems (fun e he => hlow.child he) scope)
      fun j s s' hj => ?_
    cases hlast : j.tys.getLast? with
    | some ty => exact .pure _
    | none =>
      have hlen := length_annotateList hj
      rw [List.getLast?_eq_none_iff.1 hlast] at hlen
      have hnil : items = [] := List.length_eq_zero_iff.1 hlen.symm
      exact absurd (hnil ▸ rfl) (hlow.root.1 t)

theorem infer_error {e : Expr Nat} (hlow : e.Lowered) {err : Error} (h : e.infer = .error err) :
    err = .rejected .assign ∨ ∃ cause, err = .illTyped cause := by
  rw [infer, Results.bind_eq_error_iff] at h
  rcases h with h | ⟨problem, _, h⟩
  · rw [TypingProblem.ofExpr, Results.bind_eq_error_iff] at h
    rcases h with h | ⟨_, _, h⟩
    · exact .inl (annotates e [] hlow _ err h)
    · cases h
  · unfold TypingProblem.solve at h
    split at h
    · exact .inr ⟨_, (Except.error.inj h).symm⟩
    · cases h

/-! ### Failures of the passes -/

/-- Fixing a tree fails at a binding that is no lambda only. -/
def FixFails {α : Type} (e : Expr α) : Prop :=
  FailsIn (fun err => ∃ x, err = .notLambda x) e.fixLetrec.result

section

variable {α : Type}

theorem fixFails_list {es : List (Expr α)} (h : ∀ e ∈ es, FixFails e) :
    FailsIn (fun err => ∃ x, err = .notLambda x) (fixLetrecList es).result := by
  induction es with
  | nil => exact .ok _
  | cons e es ih =>
    obtain ⟨he, hes⟩ := List.forall_mem_cons.1 h
    simp only [fixLetrecList, Emit.result_bind]
    exact he.bind fun _ _ => (ih hes).bind fun _ _ => .ok _

theorem fixFails_bindings {bs : List (Name × Expr α)} (h : ∀ b ∈ bs, FixFails b.2) :
    FailsIn (fun err => ∃ x, err = .notLambda x) (fixLetrecBindings bs).result := by
  induction bs with
  | nil => exact .ok _
  | cons b bs ih =>
    obtain ⟨hb, hbs⟩ := List.forall_mem_cons.1 h
    simp only [fixLetrecBindings, Emit.result_bind]
    exact hb.bind fun _ _ => (ih hbs).bind fun _ _ => .ok _

theorem fixFails_members {ms : List (Member α (Expr α))} (h : ∀ m ∈ ms, FixFails m.body) :
    FailsIn (fun err => ∃ x, err = .notLambda x) (fixLetrecMembers ms).result := by
  induction ms with
  | nil => exact .ok _
  | cons m ms ih =>
    obtain ⟨hm, hms⟩ := List.forall_mem_cons.1 h
    simp only [fixLetrecMembers, Emit.result_bind]
    exact hm.bind fun _ _ => (ih hms).bind fun _ _ => .ok _

theorem fixFails_membersOfBindings {bs : List (Name × Expr α)} (h : ∀ b ∈ bs, FixFails b.2) :
    FailsIn (fun err => ∃ x, err = .notLambda x) (membersOfBindings bs).result := by
  induction bs with
  | nil => exact .ok _
  | cons b bs ih =>
    obtain ⟨x, e⟩ := b
    obtain ⟨hb, hbs⟩ := List.forall_mem_cons.1 h
    cases e with
    | lambda params body t =>
      -- the body fails as the lambda around it does
      have hbody : FixFails body := by
        intro err herr
        refine hb err ?_
        simp only [fixLetrec, Emit.result_bind, herr]
        rfl
      simp only [membersOfBindings, Emit.result_bind]
      exact hbody.bind fun _ _ => (ih hbs).bind fun _ _ => .ok _
    | _ => exact .error ⟨x, rfl⟩

theorem fixFails (e : Expr α) : FixFails e := by
  unfold FixFails
  induction e with
  | lit v t => exact .ok _
  | var x t => exact .ok _
  | cond test yes no t htest hyes hno =>
    simp only [fixLetrec, Emit.result_bind]
    exact htest.bind fun _ _ => hyes.bind fun _ _ => hno.bind fun _ _ => .ok _
  | lambda params body t hbody =>
    simp only [fixLetrec, Emit.result_bind]
    exact hbody.bind fun _ _ => .ok _
  | assign x value t hvalue =>
    simp only [fixLetrec, Emit.result_bind]
    exact hvalue.bind fun _ _ => .ok _
  | app func args t hfunc hargs =>
    simp only [fixLetrec, Emit.result_bind]
    exact hfunc.bind fun _ _ => (fixFails_list hargs).bind fun _ _ => .ok _
  | letIn bindings body t hbindings hbody =>
    simp only [fixLetrec, Emit.result_bind]
    exact (fixFails_bindings hbindings).bind fun _ _ => hbody.bind fun _ _ => .ok _
  | letrec bindings body t hbindings hbody =>
    simp only [fixLetrec, Emit.result_bind]
    exact (fixFails_membersOfBindings hbindings).bind fun _ _ => .bind (.ok ()) fun _ _ =>
      hbody.bind fun _ _ => .ok _
  | fix members body t hmembers hbody =>
    simp only [fixLetrec, Emit.result_bind]
    exact (fixFails_members hmembers).bind fun _ _ => hbody.bind fun _ _ => .ok _
  | seq items t hitems =>
    simp only [fixLetrec, Emit.result_bind]
    exact (fixFails_list hitems).bind fun _ _ => .ok _

end

/-! ### Failures of the whole way -/

/-- Errors that compiling a tree without empty sequences can end in. -/
def OfTree (err : Error) : Prop :=
  (∃ x, err = .notLambda x) ∨ err = .rejected .assign ∨ (∃ x, err = .unbound x) ∨
    ∃ cause, err = .illTyped cause

theorem failsIn_analyse {e : Expr Nat} (hlow : e.Lowered) (options : CompileOptions) :
    FailsIn OfTree (e.analyse options).result := by
  unfold analyse
  split
  · have hinfer : FailsIn OfTree e.inferLogged.result := by
      have heq : e.inferLogged.result = e.infer := by
        simp only [inferLogged, TypingProblem.solveLogged, Emit.result_bind, infer]
        rfl
      rw [heq]
      intro err herr
      rcases infer_error hlow herr with h | h
      · exact .inr (.inl h)
      · exact .inr (.inr (.inr h))
    simp only [Emit.result_bind]
    exact hinfer.bind fun _ _ => .bind (.ok ()) fun _ _ => .ok _
  · exact .ok _

theorem failsIn_compile {e : Expr Unit} (hdepth : e.deeperThan maxDepth = false) (hfull : e.Full)
    (options : CompileOptions) : FailsIn OfTree (e.compile options) := by
  have hrecovered : (if options.recoverLet then e.rename.recoverLet else e.rename).Full := by
    have hrenamed : e.rename.Full := full_renameIn hfull [] 0
    split
    · exact full_recoverLet hrenamed
    · exact hrenamed
  unfold compile compileLogged
  rw [if_neg (by simp [hdepth])]
  simp only [Emit.result_bind]
  refine .bind (.ok ()) fun _ _ => .bind (fun err herr => .inl (fixFails _ err herr))
    fun fixed hfixed => .bind (.ok ()) fun _ _ => ?_
  have hlow : fixed.tagged.Lowered := lowered_tagged (lowered_fixLetrec hfixed hrecovered)
  refine .bind (failsIn_analyse hlow options) fun _ _ => .bind ?_ fun assembly hassembly => ?_
  · intro err herr
    rcases assemble_error hlow herr with ⟨rfl, _⟩ | ⟨x, rfl, _⟩
    · exact .inr (.inl rfl)
    · exact .inr (.inr (.inl ⟨x, rfl⟩))
  · obtain ⟨program, hprogram⟩ := exists_link_of_assemble hassembly
    simp only [Emit.lift, hprogram]
    exact .ok _

end Expr

/-! ### Deep trees from shallow text -/

namespace Expr

open Datum

/-- Lambdas with two expressions in their bodies, each but the last one around the next. -/
def nestedLambdas : Nat → Expr Unit
  | 0 => lit (.int 1) ()
  | n + 1 => lambda [] (seq [lit (.int 1) (), nestedLambdas n] ()) ()

/-- The document of nested lambdas with their bodies written without `begin`. -/
def nestedDoc : Nat → Doc
  | 0 => .text .literal (Literal.int 1).text
  | n + 1 => .parens (Keyword.lambda.doc ++ .space ++ paramsDoc [] ++ .space ++
      .text .literal (Literal.int 1).text ++ .space ++ nestedDoc n)

def nestedTokens : Nat → List Token
  | 0 => [.atom (.lit (.int 1))]
  | n + 1 => bracketed ([.atom (.name Keyword.lambda.text)] ++ (bracketed [] ++
      ([.atom (.lit (.int 1))] ++ nestedTokens n)))

theorem shows_nestedDoc (n : Nat) : (nestedDoc n).Shows (nestedTokens n) := by
  induction n with
  | zero => exact shows_literal _
  | succ n ih =>
    rw [nestedTokens, ← List.append_assoc, ← List.append_assoc]
    have hparams : (paramsDoc []).Shows (bracketed []) := shows_paramsDoc (List.forall_mem_nil _)
    have hlambda := (shows_keyword .lambda).separate Doc.separates_space hparams
    exact ((hlambda.separate Doc.separates_space (shows_literal _)).separate
      Doc.separates_space ih).parens

theorem reads_nestedTokens (n : Nat) :
    Reads (nestedTokens n) fun d => ofDatum d = .ok (nestedLambdas n) := by
  induction n with
  | zero =>
    refine (reads_atom _).imp ?_
    rintro _ ⟨o, rfl⟩
    rfl
  | succ n ih =>
    refine ((reads_atom _).cons ((readsAll_names []).list.cons
      ((reads_atom (.lit (.int 1))).cons ih.single))).list.imp ?_
    rintro _ ⟨_, o, rfl, _, _, rfl, ⟨o', rfl⟩, _, _, rfl, ⟨ps, o'', rfl, hps⟩, _, _, rfl, ⟨o₁, rfl⟩,
      d, rfl, hd⟩
    simp only [ofDatum, keyword?, Keyword.ofName?_text, toNames, hps, ofBody, hd, ofData]
    rfl

theorem read_nestedDoc {n : Nat} (h : tokenDepth 0 (nestedTokens n) ≤ maxNesting) :
    Text.nesting (nestedDoc n).render = tokenDepth 0 (nestedTokens n) ∧
      Expr.read (nestedDoc n).render = .ok (nestedLambdas n) := by
  have hspelled := shows_nestedDoc n _ (nestedDoc n).laid_render
  obtain ⟨d, hd, he⟩ := ofText_of_spelled hspelled h (reads_nestedTokens n)
  refine ⟨by rw [Text.nesting, hspelled.2, tokenDepth_filter], ?_⟩
  rw [Expr.read, hd]
  exact he

end Expr

theorem failsIn_compileText (options : CompileOptions) (source : String) :
    FailsIn (fun err => Expr.OfText err ∨ Expr.OfTree err) (compileText options source) := by
  unfold compileText compileTextLogged
  rw [Emit.result_bind]
  refine .bind (fun err herr => .inl (Expr.read_error herr)) fun e he => ?_
  obtain ⟨hdepth, hfull⟩ := Expr.read_ok he
  exact fun err herr => .inr (Expr.failsIn_compile hdepth hfull options err herr)

/-- Compiling a program text gives a program or fails in one of five ways. In particular no text
is read as a tree that is too deep, though a text of the deepest nesting may be read as a tree of
more levels, and generated code names no label without a block. -/
theorem compileText_closed_failures (options : CompileOptions) (source : String) :
    ((∃ c, compileText options source = .ok c) ∨
      ∃ err, compileText options source = .error err ∧
        ((∃ offset fault, err = .read offset fault) ∨ (∃ x, err = .notLambda x) ∨
          err = .rejected .assign ∨ (∃ x, err = .unbound x) ∨ ∃ cause, err = .illTyped cause)) ∧
      (∀ e, Expr.read source = .ok e → e.deeperThan Expr.maxDepth = false) ∧
      (∃ deepest e, Text.nesting deepest = Datum.maxNesting ∧ Expr.read deepest = .ok e ∧
        e.deeperThan Datum.maxNesting = true) ∧
      ∀ (calls : List TailCall) (e : Expr Nat) (a : Assembly), e.assemble calls = .ok a →
        ∀ l ∈ Code.labels a.flatten, l ∈ a.blocks.map (·.1) := by
  refine ⟨?_, fun e he => (Expr.read_ok he).1, ?_, fun calls e a => Expr.names_of_assemble⟩
  · cases h : compileText options source with
    | ok c => exact .inl ⟨c, rfl⟩
    | error err => exact .inr ⟨err, rfl, failsIn_compileText options source err h⟩
  · have hdepth : Datum.tokenDepth 0 (Expr.nestedTokens 63) = Datum.maxNesting := by
      decide +kernel
    obtain ⟨hnesting, hread⟩ := Expr.read_nestedDoc (Nat.le_of_eq hdepth)
    exact ⟨_, _, hnesting.trans hdepth, hread, by decide +kernel⟩

end MiniScheme
