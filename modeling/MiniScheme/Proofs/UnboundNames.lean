import MiniScheme.Proofs.CodeFaults
import MiniScheme.Proofs.Hygiene

/-!
# Which trees have code

A name that is bound nowhere is found nowhere: no frame on the way from the main block to the
reference has it, and a closure that would capture it cannot be made. So code generation succeeds
exactly on the trees without unbound names, provided that no binder has the name of a free variable.
Otherwise a reference that is free in the tree can be taken for an earlier binding of the same
`let`.
-/

namespace MiniScheme

namespace Frame

variable {f : Frame} {x : Name}

theorem Lacks.bindAll (h : f.Lacks x) {xs : List Name} (hx : x ∉ xs) : (f.bindAll xs).Lacks x :=
  (reference_bindAll_of_notMem f hx).trans h

theorem Lacks.notPrim (h : f.Lacks x) : x ∉ Primitive.names :=
  Expr.notMem_names_of_ofName? (lacks_iff.1 h).2.2.2.1

theorem not_lacks_of_reference {i : Inst Label} (h : f.reference x = .ok i) : ¬f.Lacks x := by
  intro hlacks
  rw [Lacks, h] at hlacks
  cases hlacks

theorem not_lacks_of_pushNames {xs : List Name} {code : Code} (h : f.pushNames xs = .ok code)
    (hx : x ∈ xs) : ¬f.Lacks x := by
  induction xs generalizing code with
  | nil => exact absurd hx List.not_mem_nil
  | cons y ys ih =>
    obtain ⟨i, rest, hi, hrest, _⟩ := pushNames_cons_ok.1 h
    rcases List.mem_cons.1 hx with hxy | hx
    · rw [hxy]
      exact not_lacks_of_reference hi
    · exact ih hrest hx

/-- The first closure of a group captures what all of them capture. -/
theorem not_lacks_of_closeMembers {captured : List Name} {ms : List (Name × Label)}
    {r : Code × Frame} (h : f.closeMembers captured ms = .ok r) (hne : ms ≠ [])
    (hx : x ∈ captured) : ¬f.Lacks x := by
  cases ms with
  | nil => exact absurd rfl hne
  | cons m ms =>
    obtain ⟨values, _, hvalues, _, _⟩ := closeMembers_cons_ok.1 h
    exact not_lacks_of_pushNames hvalues hx

end Frame

namespace Expr

open Emit MiniScheme.Frame

variable {calls : List TailCall} {f : Frame} {x : Name}

/-! ### Binders of parts -/

theorem mem_bindersList {α : Type} {es : List (Expr α)} :
    x ∈ bindersList es ↔ ∃ e ∈ es, x ∈ e.binders := by
  induction es with
  | nil => simp [bindersList]
  | cons e es ih => simp only [bindersList, List.mem_append, ih, List.exists_mem_cons_iff]

theorem mem_bindersBindings {α : Type} {bs : List (Name × Expr α)} :
    x ∈ bindersBindings bs ↔ ∃ b ∈ bs, x ∈ b.2.binders := by
  induction bs with
  | nil => simp [bindersBindings]
  | cons b bs ih => simp only [bindersBindings, List.mem_append, ih, List.exists_mem_cons_iff]

/-! ### Parts of a tree with code have code -/

theorem gen_of_genArgs {es : List (Expr Nat)} {code : Code}
    (h : (genArgs calls f es).result = .ok code) :
    ∀ e ∈ es, ∃ n c, (gen calls (f.raise n) .value e).result = .ok c := by
  induction es generalizing code with
  | nil => exact fun e he => absurd he List.not_mem_nil
  | cons e es ih =>
    simp only [genArgs, result_bind_eq_ok_iff] at h
    obtain ⟨rest, hrest, first, hfirst, _⟩ := h
    exact List.forall_mem_cons.2 ⟨⟨es.length, first, hfirst⟩, ih hrest⟩

/-- An application has code whether it is a tail call or not; its parts then stand in frames of
different heights. -/
theorem gen_of_app {ctx : Context} {func : Expr Nat} {args : List (Expr Nat)} {t : Nat}
    {code : Code} (h : (gen calls f ctx (app func args t)).result = .ok code) :
    ∃ n m cargs cfunc, (genArgs calls (f.raise n) args).result = .ok cargs ∧
      (gen calls (f.raise m) .value func).result = .ok cfunc := by
  rw [gen] at h
  split at h
  · simp only [result_bind_eq_ok_iff] at h
    obtain ⟨cargs, hargs, cfunc, hfunc, _⟩ := h
    exact ⟨0, args.length, cargs, cfunc, hargs, hfunc⟩
  · simp only [result_bind_eq_ok_iff] at h
    obtain ⟨cargs, hargs, cfunc, hfunc, _⟩ := h
    exact ⟨3, 3 + args.length, cargs, cfunc, hargs, hfunc⟩

theorem gen_of_genBindings {bs : List (Name × Expr Nat)} {r : Code × Frame}
    (h : (genBindings calls f bs).result = .ok r) :
    ∀ b ∈ bs, ∃ xs c, (∀ y ∈ xs, y ∈ bs.map (·.1)) ∧
      (gen calls (f.bindAll xs) .value b.2).result = .ok c := by
  induction bs generalizing f r with
  | nil => exact fun b hb => absurd hb List.not_mem_nil
  | cons b bs ih =>
    simp only [genBindings, result_bind_eq_ok_iff] at h
    obtain ⟨first, hfirst, r', hr', _⟩ := h
    refine List.forall_mem_cons.2 ⟨⟨[], first, fun y hy => absurd hy List.not_mem_nil, hfirst⟩, ?_⟩
    intro b' hb'
    obtain ⟨xs, c, hxs, hc⟩ := ih hr' b' hb'
    refine ⟨b.1 :: xs, c, List.forall_mem_cons.2 ⟨List.mem_cons_self .., fun y hy => ?_⟩, hc⟩
    exact List.mem_cons_of_mem _ (hxs y hy)

theorem gen_of_genSeq {ctx : Context} {es : List (Expr Nat)} {code : Code}
    (h : (genSeq calls f ctx es).result = .ok code) :
    ∀ e ∈ es, ∃ ctx' c, (gen calls f ctx' e).result = .ok c := by
  induction es generalizing code with
  | nil => exact fun e he => absurd he List.not_mem_nil
  | cons e es ih =>
    cases es with
    | nil => exact List.forall_mem_singleton.2 ⟨ctx, code, h⟩
    | cons e' es =>
      simp only [genSeq, result_bind_eq_ok_iff] at h
      obtain ⟨first, hfirst, rest, hrest, _⟩ := h
      exact List.forall_mem_cons.2 ⟨⟨.value, first, hfirst⟩, ih hrest⟩

/-! ### Free names are found -/

/-- A frame in which the tree has code finds every name that is free in the tree and that no binder
of the tree has. -/
def FindsFree (e : Expr Nat) : Prop :=
  ∀ {calls : List TailCall} {f : Frame} {ctx : Context} {code : Code} {x : Name},
    (gen calls f ctx e).result = .ok code → FreeIn x e → x ∉ e.binders → ¬f.Lacks x

theorem findsFree (e : Expr Nat) : FindsFree e := by
  induction e with
  | lit v t =>
    intro calls f ctx code x _ hx _
    exact absurd hx (by simp [freeIn_lit])
  | var y t =>
    intro calls f ctx code x h hx _
    simp only [gen, result_bind_eq_ok_iff] at h
    obtain ⟨i, hi, _⟩ := h
    rw [freeIn_var.1 hx]
    exact not_lacks_of_reference hi
  | cond test yes no t htest hyes hno =>
    intro calls f ctx code x h hx hb
    simp only [binders, List.mem_append, not_or] at hb
    obtain ⟨⟨hbtest, hbyes⟩, hbno⟩ := hb
    simp only [gen, result_bind_eq_ok_iff] at h
    obtain ⟨ct, ht, cy, hy, cn, hn, _⟩ := h
    rcases freeIn_cond.1 hx with hx | hx | hx
    · exact htest ht hx hbtest
    · exact hyes hy hx hbyes
    · exact hno hn hx hbno
  | lambda params body t hbody =>
    intro calls f ctx code x h hx _ hlacks
    simp only [gen, result_bind_eq_ok_iff] at h
    obtain ⟨values, hvalues, _⟩ := h
    obtain ⟨hfree, hparams⟩ := freeIn_lambda.1 hx
    -- the closure captures the name, so the frame around it must have it
    have hcaptured : x ∈ body.free (params ++ Primitive.names) := by
      refine mem_free.2 ((mem_freeOccurrences_iff _).2 ⟨hfree, ?_⟩)
      simp only [List.mem_append, not_or]
      exact ⟨hparams, hlacks.notPrim⟩
    exact not_lacks_of_pushNames hvalues hcaptured hlacks
  | assign y value t hvalue =>
    intro calls f ctx code x h
    cases h
  | app func args t hfunc hargs =>
    intro calls f ctx code x h hx hb hlacks
    simp only [binders, List.mem_append, not_or, mem_bindersList] at hb
    obtain ⟨hbfunc, hbargs⟩ := hb
    obtain ⟨n, m, cargs, cfunc, ha, hf⟩ := gen_of_app h
    rcases freeIn_app.1 hx with hx | ⟨e, he, hx⟩
    · exact hfunc hf hx hbfunc (lacks_raise.2 hlacks)
    · obtain ⟨k, c, hc⟩ := gen_of_genArgs ha e he
      have hlacks' : ((f.raise n).raise k).Lacks x := lacks_raise.2 (lacks_raise.2 hlacks)
      exact hargs e he hc hx (fun hbe => hbargs ⟨e, he, hbe⟩) hlacks'
  | letIn bindings body t hbindings hbody =>
    intro calls f ctx code x h hx hb hlacks
    simp only [binders, List.mem_append, not_or, mem_bindersBindings] at hb
    obtain ⟨⟨hnames, hbinits⟩, hbbody⟩ := hb
    simp only [gen, result_bind_eq_ok_iff] at h
    obtain ⟨r, hr, cb, hcb, _⟩ := h
    rcases freeIn_letIn.1 hx with ⟨b, hb, hx⟩ | ⟨hx, _⟩
    · obtain ⟨xs, c, hxs, hc⟩ := gen_of_genBindings hr b hb
      have hlacks' := hlacks.bindAll fun hmem => hnames (hxs x hmem)
      exact hbindings b hb hc hx (fun hbe => hbinits ⟨b, hb, hbe⟩) hlacks'
    · have hframe : r.2 = f.bindAll (bindings.map (·.1)) := genBindings_frame hr
      rw [hframe] at hcb
      exact hbody hcb hx hbbody (hlacks.bindAll hnames)
  | letrec bindings body t hbindings hbody =>
    intro calls f ctx code x h
    cases h
  | fix members body t hmembers hbody =>
    intro calls f ctx code x h hx hb hlacks
    simp only [binders, List.mem_append, not_or] at hb
    obtain ⟨⟨hnames, _⟩, hbbody⟩ := hb
    simp only [gen, result_bind_eq_ok_iff] at h
    obtain ⟨_, _, r, hr, cb, hcb, _⟩ := h
    rcases (freeIn_fix.1 hx).1 with ⟨m, hm, hx, hparams⟩ | hx
    · -- all members capture what one of them refers to
      have hcaptured : x ∈ freeMembers (members.map (·.name) ++ Primitive.names) members := by
        refine List.mem_eraseDups.2 (mem_freeOccurrencesMembers.2 ⟨m, hm, ?_⟩)
        refine (mem_freeOccurrences_iff _).2 ⟨hx, ?_⟩
        simp only [List.mem_append, not_or]
        exact ⟨hparams, hnames, hlacks.notPrim⟩
      have hne : groupLabels members ≠ [] := by
        rw [groupLabels, Ne, List.map_eq_nil_iff]
        exact List.ne_nil_of_mem hm
      exact not_lacks_of_closeMembers hr hne hcaptured hlacks
    · have hframe : r.2 = f.bindAll ((groupLabels members).map (·.1)) := closeMembers_frame hr
      rw [hframe, map_fst_groupLabels] at hcb
      exact hbody hcb hx hbbody (hlacks.bindAll hnames)
  | seq items t hitems =>
    intro calls f ctx code x h hx hb
    rw [gen] at h
    rw [binders, mem_bindersList] at hb
    obtain ⟨e, he, hx⟩ := freeIn_seq.1 hx
    obtain ⟨ctx', c, hc⟩ := gen_of_genSeq h e he
    exact hitems e he hc hx fun hbe => hb ⟨e, he, hbe⟩

/-! ### Whole trees -/

theorem lacks_main_iff : Frame.main.Lacks x ↔ x ∉ Primitive.names := by
  refine ⟨Lacks.notPrim, fun hx => lacks_iff.2 ?_⟩
  exact ⟨List.not_mem_nil, rfl, List.not_mem_nil, ofName?_of_notMem_names hx, rfl⟩

theorem mem_free_names_iff {e : Expr Nat} :
    x ∈ e.free Primitive.names ↔ FreeIn x e ∧ Frame.main.Lacks x := by
  rw [mem_free, mem_freeOccurrences_iff, lacks_main_iff]

theorem free_eq_nil_of_assemble {e : Expr Nat} {a : Assembly}
    (hbinders : ∀ x ∈ e.free [], x ∉ e.binders) (h : e.assemble calls = .ok a) :
    e.free Primitive.names = [] := by
  rw [assemble, Results.map_eq_ok_iff] at h
  obtain ⟨main, hmain, _⟩ := h
  rw [genMain, result_bind_eq_ok_iff] at hmain
  obtain ⟨code, hcode, _⟩ := hmain
  refine List.eq_nil_iff_forall_not_mem.2 fun x hx => ?_
  obtain ⟨hfree, hlacks⟩ := mem_free_names_iff.1 hx
  exact findsFree e hcode hfree (hbinders x (mem_free.2 hfree)) hlacks

theorem unbound_of_assemble_error {e : Expr Nat} {err : Error} (hlow : e.Lowered)
    (hassign : ∀ x value t, ¬Occurs (assign x value t) e) (h : e.assemble calls = .error err) :
    ∃ x ∈ e.free Primitive.names, err = .unbound x := by
  rcases assemble_error hlow h with ⟨_, x, value, t, hocc⟩ | ⟨x, herr, hx⟩
  · exact absurd hocc (hassign x value t)
  · exact ⟨x, mem_free_names_iff.2 hx, herr⟩

/-- A tree without assignments, `letrec` and empty sequences in which no binder has the name of a
free variable has code exactly if it has no unbound names, and otherwise one of them is reported.
Binders may share names with each other and with primitives. -/
theorem assemble_ok_iff_no_unbound (e : Expr Nat) (hlow : e.Lowered)
    (hassign : ∀ x value t, ¬Occurs (assign x value t) e)
    (hbinders : ∀ x ∈ e.free [], x ∉ e.binders) :
    ((∃ a, e.assemble e.tailCalls = .ok a) ↔ e.free Primitive.names = []) ∧
    (e.free Primitive.names ≠ [] →
      ∃ x ∈ e.free Primitive.names, e.assemble e.tailCalls = .error (.unbound x)) := by
  cases h : e.assemble e.tailCalls with
  | ok a =>
    have hnil := free_eq_nil_of_assemble hbinders h
    exact ⟨iff_of_true ⟨a, rfl⟩ hnil, fun hne => absurd hnil hne⟩
  | error err =>
    obtain ⟨x, hx, herr⟩ := unbound_of_assemble_error hlow hassign h
    have hno : ¬∃ a, (Except.error err : Except Error Assembly) = .ok a := by
      rintro ⟨a, ha⟩
      cases ha
    refine ⟨iff_of_false hno fun hnil => ?_, fun _ => ⟨x, hx, congrArg Except.error herr⟩⟩
    rw [hnil] at hx
    exact List.not_mem_nil hx

/-- A group inside a member of a group. The inner procedures and the lambda among them refer to
both groups, to parameters of each level and to one name more. -/
def nestedGroups (x : Name) : Expr Nat :=
  .fix [⟨"f", 0, ["n"],
      .fix [⟨"g", 1, ["m"], .app (.var "f" 2) [.app (.var "h" 3) [.var "n" 4] 5] 6⟩,
          ⟨"h", 7, [],
            .lambda ["k"] (.app (.var "g" 8) [.var "f" 9, .var "k" 10, .var x 11] 12) 13⟩]
        (.var "g" 14) 15⟩]
    (.letIn [("r", .app (.var "f" 16) [.lit (.int 1) 17] 18)]
      (.seq [.var "r" 19, .app (.var "+" 20) [.var "r" 21] 22] 23) 24) 25

theorem assemble_nestedGroups :
    (∃ a, (nestedGroups "n").assemble (nestedGroups "n").tailCalls = .ok a) ∧
    (nestedGroups "u").assemble (nestedGroups "u").tailCalls = .error (.unbound "u") := by
  have hlow (x : Name) : (nestedGroups x).Lowered := by simp [Lowered, nestedGroups]
  have hassign (x : Name) : ∀ y value t, ¬Occurs (assign y value t) (nestedGroups x) := by
    have hnone : Everywhere (fun d => ∀ y value t, d ≠ assign y value t) (nestedGroups x) := by
      simp [nestedGroups]
    exact fun y value t hocc => hnone _ hocc y value t rfl
  have hbound := assemble_ok_iff_no_unbound _ (hlow "n") (hassign "n") (by decide +kernel)
  have hunbound := assemble_ok_iff_no_unbound _ (hlow "u") (hassign "u") (by decide +kernel)
  have hfree : (nestedGroups "u").free Primitive.names = ["u"] := by decide +kernel
  refine ⟨hbound.1.2 (by decide +kernel), ?_⟩
  rw [hfree] at hunbound
  obtain ⟨x, hx, herr⟩ := hunbound.2 (List.cons_ne_nil "u" [])
  rw [List.mem_singleton.1 hx] at herr
  exact herr

/-- A `let` that binds a name and refers to it in its next value has code, though the reference is
free. -/
example :
    let e : Expr Nat := .letIn [("x", .lit (.int 1) 0), ("y", .var "x" 1)] (.var "y" 2) 3
    e.free Primitive.names = ["x"] ∧ (e.assemble e.tailCalls).isOk = true := by
  decide +kernel

end Expr

end MiniScheme
