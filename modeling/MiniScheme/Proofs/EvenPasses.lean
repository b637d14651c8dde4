import MiniScheme.Expr.Let
import MiniScheme.Expr.Letrec
import MiniScheme.Proofs.EvenTrees
import MiniScheme.Proofs.Naming
import MiniScheme.Ragged.Passes

/-!
# Passes over even trees

On a tree that has its names and values in pairs the passes do the same, whether they go along the
pairs or along two lists.
-/

namespace MiniScheme

variable {α : Type}

theorem Emit.bind_assoc {ω ε β γ δ : Type} (x : Emit ω ε β) (f : β → Emit ω ε γ)
    (g : γ → Emit ω ε δ) : x >>= f >>= g = x >>= fun b => f b >>= g := by
  obtain ⟨emitted, result⟩ := x
  cases result with
  | error e => rfl
  | ok b =>
    show Emit.andThen ⟨emitted ++ (f b).emitted, (f b).result⟩ g =
      ⟨emitted ++ (Emit.andThen (f b) g).emitted, (Emit.andThen (f b) g).result⟩
    unfold Emit.andThen
    cases (f b).result with
    | error e => rfl
    | ok c => simp only [List.append_assoc]

theorem Emit.pure_bind {ω ε β γ : Type} (b : β) (f : β → Emit ω ε γ) :
    (pure b : Emit ω ε β) >>= f = f b :=
  rfl

theorem Emit.bind_congr {ω ε β γ : Type} {x : Emit ω ε β} {f g : β → Emit ω ε γ}
    (h : ∀ b, x.result = .ok b → f b = g b) : x >>= f = x >>= g := by
  obtain ⟨emitted, result⟩ := x
  cases result with
  | error e => rfl
  | ok b =>
    show Emit.mk (emitted ++ (f b).emitted) (f b).result = ⟨emitted ++ (g b).emitted, (g b).result⟩
    rw [h b rfl]

namespace Ragged

theorem recoverLetList_eq_map (es : List (Ragged α)) :
    recoverLetList es = es.map recoverLet := by
  induction es with
  | nil => rfl
  | cons e es ih => rw [recoverLetList, List.map_cons, ih]

theorem recoverLetProcs_eq_map (ps : List (Procedure (Ragged α))) :
    recoverLetProcs ps = ps.map fun p => ⟨p.params, p.body.recoverLet⟩ := by
  induction ps with
  | nil => rfl
  | cons p ps ih => rw [recoverLetProcs, List.map_cons, ih]

end Ragged

namespace Expr

theorem ragged_injective {e e' : Expr α} (h : e.ragged = e'.ragged) : e = e' := by
  rw [← paired_ragged e, h, paired_ragged]

/-! ### Alphatization -/

theorem raggedBindings_fresh (bs : List (Name × Expr α)) (n : Nat) :
    raggedBindings (freshBindings bs n) = raggedBindings bs := by
  induction bs generalizing n with
  | nil => rfl
  | cons b bs ih => rw [freshBindings, raggedBindings, raggedBindings, ih]

theorem raggedMembers_fresh (ms : List (Member α (Expr α))) (n : Nat) :
    raggedMembers (freshMembers ms n) = raggedMembers ms := by
  induction ms generalizing n with
  | nil => rfl
  | cons m ms ih => rw [freshMembers, raggedMembers, raggedMembers, ih]

theorem map_tag_freshMembers {β : Type} (ms : List (Member α β)) (n : Nat) :
    (freshMembers ms n).map (·.tag) = ms.map (·.tag) := by
  induction ms generalizing n with
  | nil => rfl
  | cons m ms ih => simp only [freshMembers, List.map_cons, ih]

theorem map_tag_renameMembersIn (r : Renaming) (ms : List (Member α (Expr α))) (n : Nat) :
    (renameMembersIn r ms n).1.map (·.tag) = ms.map (·.tag) := by
  induction ms generalizing n with
  | nil => rfl
  | cons m ms ih => simp only [renameMembersIn, List.map_cons, ih]

mutual
theorem renameIn_ragged (r : Renaming) : (e : Expr α) → (n : Nat) →
    e.ragged.renameIn r n = ((renameIn r e n).1.ragged, (renameIn r e n).2)
  | lit v t, n => rfl
  | var x t, n => rfl
  | cond test yes no t, n => by
    simp only [ragged, Ragged.renameIn, renameIn, renameIn_ragged r test, renameIn_ragged r yes,
      renameIn_ragged r no]
  | lambda params body t, n => by
    simp only [ragged, Ragged.renameIn, renameIn, renameIn_ragged _ body]
  | assign x value t, n => by
    simp only [ragged, Ragged.renameIn, renameIn, renameIn_ragged r value]
  | app func args t, n => by
    simp only [ragged, Ragged.renameIn, renameIn, renameIn_ragged r func,
      renameListIn_ragged r args]
  | letIn bindings body t, n => by
    simp only [ragged, Ragged.renameIn, renameIn, renameBindingsIn_ragged r bindings,
      renameIn_ragged _ body, raggedBindings_fresh, map_fst_freshBindings,
      map_fst_renameBindingsIn]
  | letrec bindings body t, n => by
    simp only [ragged, Ragged.renameIn, renameIn, renameBindingsIn_ragged _ bindings,
      renameIn_ragged _ body, raggedBindings_fresh, map_fst_freshBindings,
      map_fst_renameBindingsIn]
  | fix members body t, n => by
    simp only [ragged, Ragged.renameIn, renameIn, renameMembersIn_ragged _ members,
      renameIn_ragged _ body, raggedMembers_fresh, map_name_freshMembers,
      map_name_renameMembersIn, map_tag_freshMembers, map_tag_renameMembersIn]
  | seq items t, n => by
    simp only [ragged, Ragged.renameIn, renameIn, renameListIn_ragged r items]
termination_by structural e => e

theorem renameListIn_ragged (r : Renaming) : (es : List (Expr α)) → (n : Nat) →
    Ragged.renameListIn r (raggedList es) n =
      (raggedList (renameListIn r es n).1, (renameListIn r es n).2)
  | [], n => rfl
  | e :: es, n => by
    simp only [raggedList, Ragged.renameListIn, renameListIn, renameIn_ragged r e,
      renameListIn_ragged r es]
termination_by structural es => es

theorem renameBindingsIn_ragged (r : Renaming) : (bs : List (Name × Expr α)) → (n : Nat) →
    Ragged.renameListIn r (raggedBindings bs) n =
      (raggedBindings (renameBindingsIn r bs n).1, (renameBindingsIn r bs n).2)
  | [], n => rfl
  | (x, e) :: bs, n => by
    simp only [raggedBindings, Ragged.renameListIn, renameBindingsIn, renameIn_ragged r e,
      renameBindingsIn_ragged r bs]
termination_by structural bs => bs

theorem renameMembersIn_ragged (r : Renaming) : (ms : List (Member α (Expr α))) → (n : Nat) →
    Ragged.renameProcsIn r (raggedMembers ms) n =
      (raggedMembers (renameMembersIn r ms n).1, (renameMembersIn r ms n).2)
  | [], n => rfl
  | ⟨x, t, params, body⟩ :: ms, n => by
    simp only [raggedMembers, Ragged.renameProcsIn, renameMembersIn, renameIn_ragged _ body,
      renameMembersIn_ragged r ms]
termination_by structural ms => ms
end

theorem rename_ragged (e : Expr α) : e.ragged.rename = e.rename.ragged := by
  rw [Ragged.rename, renameIn_ragged, rename]

/-! ### Recovering `let` -/

theorem map_tag_recoverLetMembers (ms : List (Member α (Expr α))) :
    (recoverLetMembers ms).map (·.tag) = ms.map (·.tag) := by
  rw [recoverLetMembers_eq_map, List.map_map]
  rfl

mutual
theorem recoverLet_ragged : (e : Expr α) → e.ragged.recoverLet = e.recoverLet.ragged
  | lit v t => rfl
  | var x t => rfl
  | cond test yes no t => by
    simp only [ragged, Ragged.recoverLet, recoverLet, recoverLet_ragged test,
      recoverLet_ragged yes, recoverLet_ragged no]
  | lambda params body t => by
    simp only [ragged, Ragged.recoverLet, recoverLet, recoverLet_ragged body]
  | assign x value t => by
    simp only [ragged, Ragged.recoverLet, recoverLet, recoverLet_ragged value]
  | app func args t => by
    have hfunc := recoverLet_ragged func
    have hargs := recoverLetList_ragged args
    cases func with
    | lambda params body t' =>
      simp only [ragged, Ragged.recoverLet, recoverLet, Ragged.lambda.injEq, true_and,
        and_true] at hfunc
      have hlen : (raggedList args).length = args.length := by
        rw [raggedList_eq_map, List.length_map]
      simp only [ragged, Ragged.recoverLet, recoverLet, hlen, hfunc, hargs]
      split
      · next heq =>
        rw [← length_recoverLetList args] at heq
        obtain ⟨hnames, hvalues⟩ := lists_zip heq
        simp only [ragged, hnames, hvalues, raggedList_eq_map]
      · simp only [ragged]
    | _ => simp only [ragged, Ragged.recoverLet, recoverLet, hargs] at hfunc ⊢ <;> simp only [hfunc]
  | letIn bindings body t => by
    simp only [ragged, Ragged.recoverLet, recoverLet, recoverLetBindings_ragged bindings,
      recoverLet_ragged body, map_fst_recoverLetBindings]
  | letrec bindings body t => by
    simp only [ragged, Ragged.recoverLet, recoverLet, recoverLetBindings_ragged bindings,
      recoverLet_ragged body, map_fst_recoverLetBindings]
  | fix members body t => by
    simp only [ragged, Ragged.recoverLet, recoverLet, recoverLetMembers_ragged members,
      recoverLet_ragged body, map_name_recoverLetMembers, map_tag_recoverLetMembers]
  | seq items t => by
    simp only [ragged, Ragged.recoverLet, recoverLet, recoverLetList_ragged items]
termination_by structural e => e

theorem recoverLetList_ragged : (es : List (Expr α)) →
    Ragged.recoverLetList (raggedList es) = raggedList (recoverLetList es)
  | [] => rfl
  | e :: es => by
    simp only [raggedList, Ragged.recoverLetList, recoverLetList, recoverLet_ragged e,
      recoverLetList_ragged es]
termination_by structural es => es

theorem recoverLetBindings_ragged : (bs : List (Name × Expr α)) →
    Ragged.recoverLetList (raggedBindings bs) = raggedBindings (recoverLetBindings bs)
  | [] => rfl
  | (x, e) :: bs => by
    simp only [raggedBindings, Ragged.recoverLetList, recoverLetBindings, recoverLet_ragged e,
      recoverLetBindings_ragged bs]
termination_by structural bs => bs

theorem recoverLetMembers_ragged : (ms : List (Member α (Expr α))) →
    Ragged.recoverLetProcs (raggedMembers ms) = raggedMembers (recoverLetMembers ms)
  | [] => rfl
  | ⟨x, t, params, body⟩ :: ms => by
    simp only [raggedMembers, Ragged.recoverLetProcs, recoverLetMembers, recoverLet_ragged body,
      recoverLetMembers_ragged ms]
termination_by structural ms => ms
end

/-! ### Fixing `letrec` -/

theorem map_tag_of_fixLetrecMembers {ms ms' : List (Member α (Expr α))}
    (h : (fixLetrecMembers ms).result = .ok ms') : ms'.map (·.tag) = ms.map (·.tag) := by
  induction ms generalizing ms' with
  | nil =>
    simp only [fixLetrecMembers, Emit.result_pure, Except.ok.injEq] at h
    rw [← h]
  | cons m ms ih =>
    simp only [fixLetrecMembers, Emit.result_bind_eq_ok_iff, Emit.result_pure,
      Except.ok.injEq] at h
    obtain ⟨e', _, ms', hms, rfl⟩ := h
    rw [List.map_cons, List.map_cons, ih hms]

mutual
theorem fixLetrec_ragged : (e : Expr α) →
    e.ragged.fixLetrec = do return (← e.fixLetrec).ragged
  | lit v t => rfl
  | var x t => rfl
  | cond test yes no t => by
    simp only [ragged, Ragged.fixLetrec, fixLetrec, fixLetrec_ragged test, fixLetrec_ragged yes,
      fixLetrec_ragged no, Emit.bind_assoc, Emit.pure_bind]
  | lambda params body t => by
    simp only [ragged, Ragged.fixLetrec, fixLetrec, fixLetrec_ragged body, Emit.bind_assoc,
      Emit.pure_bind]
  | assign x value t => by
    simp only [ragged, Ragged.fixLetrec, fixLetrec, fixLetrec_ragged value, Emit.bind_assoc,
      Emit.pure_bind]
  | app func args t => by
    simp only [ragged, Ragged.fixLetrec, fixLetrec, fixLetrec_ragged func,
      fixLetrecList_ragged args, Emit.bind_assoc, Emit.pure_bind]
  | letIn bindings body t => by
    simp only [ragged, Ragged.fixLetrec, fixLetrec, fixLetrecBindings_ragged bindings,
      fixLetrec_ragged body, Emit.bind_assoc, Emit.pure_bind]
    refine Emit.bind_congr fun bindings' hok => ?_
    rw [map_eq_map_of_forall₂ ((fixLetrecBindings_ok hok).imp fun _ _ h => h.1.symm)]
  | letrec bindings body t => by
    simp only [ragged, Ragged.fixLetrec, fixLetrec, membersOfBindings_ragged bindings,
      fixLetrec_ragged body, Emit.bind_assoc, Emit.pure_bind]
    refine Emit.bind_congr fun members hok => ?_
    rw [map_eq_map_of_forall₂ ((membersOfBindings_ok hok).imp fun _ _ h => h.1)]
    simp only [raggedMembers_eq_map, List.map_map, Function.comp_def]
  | fix members body t => by
    simp only [ragged, Ragged.fixLetrec, fixLetrec, fixLetrecMembers_ragged members,
      fixLetrec_ragged body, Emit.bind_assoc, Emit.pure_bind]
    refine Emit.bind_congr fun members' hok => ?_
    rw [map_eq_map_of_forall₂ ((fixLetrecMembers_ok hok).imp fun _ _ h => h.1.symm),
      map_tag_of_fixLetrecMembers hok]
  | seq items t => by
    simp only [ragged, Ragged.fixLetrec, fixLetrec, fixLetrecList_ragged items, Emit.bind_assoc,
      Emit.pure_bind]
termination_by structural e => e

theorem fixLetrecList_ragged : (es : List (Expr α)) →
    Ragged.fixLetrecList (raggedList es) = do return raggedList (← fixLetrecList es)
  | [] => rfl
  | e :: es => by
    simp only [raggedList, Ragged.fixLetrecList, fixLetrecList, fixLetrec_ragged e,
      fixLetrecList_ragged es, Emit.bind_assoc, Emit.pure_bind]
termination_by structural es => es

theorem fixLetrecBindings_ragged : (bs : List (Name × Expr α)) →
    Ragged.fixLetrecList (raggedBindings bs) = do return raggedBindings (← fixLetrecBindings bs)
  | [] => rfl
  | (x, e) :: bs => by
    simp only [raggedBindings, Ragged.fixLetrecList, fixLetrecBindings, fixLetrec_ragged e,
      fixLetrecBindings_ragged bs, Emit.bind_assoc, Emit.pure_bind]
termination_by structural bs => bs

theorem fixLetrecMembers_ragged : (ms : List (Member α (Expr α))) →
    Ragged.fixLetrecProcs (raggedMembers ms) = do return raggedMembers (← fixLetrecMembers ms)
  | [] => rfl
  | ⟨x, t, params, body⟩ :: ms => by
    simp only [raggedMembers, Ragged.fixLetrecProcs, fixLetrecMembers, fixLetrec_ragged body,
      fixLetrecMembers_ragged ms, Emit.bind_assoc, Emit.pure_bind]
termination_by structural ms => ms

theorem membersOfBindings_ragged : (bs : List (Name × Expr α)) →
    Ragged.fixLetrecInits (bs.map (·.1)) (raggedBindings bs) = do
      return (← membersOfBindings bs).map fun m => (m.tag, ⟨m.params, m.body.ragged⟩)
  | [] => rfl
  | (x, lambda params body t) :: bs => by
    simp only [List.map_cons, raggedBindings, ragged, Ragged.fixLetrecInits, membersOfBindings,
      fixLetrec_ragged body, membersOfBindings_ragged bs, Emit.bind_assoc, Emit.pure_bind]
  | (x, lit _ _) :: bs => rfl
  | (x, var _ _) :: bs => rfl
  | (x, cond _ _ _ _) :: bs => rfl
  | (x, assign _ _ _) :: bs => rfl
  | (x, app _ _ _) :: bs => rfl
  | (x, letIn _ _ _) :: bs => rfl
  | (x, letrec _ _ _) :: bs => rfl
  | (x, fix _ _ _) :: bs => rfl
  | (x, seq _ _) :: bs => rfl
termination_by structural bs => bs
end

end Expr

end MiniScheme
