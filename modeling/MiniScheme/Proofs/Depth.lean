import MiniScheme.Proofs.UniqueBinders
import MiniScheme.Proofs.WordNumbering

/-!
# Depth under the passes

The depth limit counts the compound nodes on a way from the root down. No pass before code
generation makes a tree deeper. Renaming and numbering keep its shape; in the other passes what
stands below the root of the result comes from below the root of the tree, at the same level or,
where a lambda was taken away, one level further down. So one check before the first pass holds for
all of them. Values without a name count like any others.
-/

namespace MiniScheme

variable {α β : Type}

namespace Ragged

variable {e : Ragged α} {n : Nat}

/-! ### Limits -/

theorem deeperThan_succ_iff :
    e.deeperThan (n + 1) = true ↔ ∃ c ∈ e.children, c.deeperThan n = true :=
  List.any_eq_true

theorem isCompound_of_mem_children {d : Ragged α} (hd : d ∈ e.children) :
    e.isCompound = true := by
  cases e with
  | lit v t => exact absurd hd List.not_mem_nil
  | var x t => exact absurd hd List.not_mem_nil
  | _ => rfl

theorem deeperThan_of_succ (h : e.deeperThan (n + 1) = true) : e.deeperThan n = true := by
  induction n generalizing e with
  | zero =>
    obtain ⟨c, hc, _⟩ := deeperThan_succ_iff.1 h
    exact isCompound_of_mem_children hc
  | succ n ih =>
    obtain ⟨c, hc, hdeep⟩ := deeperThan_succ_iff.1 h
    exact deeperThan_succ_iff.2 ⟨c, hc, ih hdeep⟩

/-! ### Ways down -/

/-- The nodes on a way from a node downwards, from child to child. -/
inductive Descent : Ragged α → List (Ragged α) → Prop
  | stop (e : Ragged α) : Descent e [e]
  | down {d e : Ragged α} {path : List (Ragged α)} (hd : d ∈ e.children) (h : Descent d path) :
    Descent e (e :: path)

theorem exists_path_of_deeperThan (h : e.deeperThan n = true) :
    ∃ path, Descent e path ∧ n < path.countP isCompound := by
  induction n generalizing e with
  | zero => exact ⟨[e], .stop e, List.countP_pos_iff.2 ⟨e, List.mem_singleton_self e, h⟩⟩
  | succ n ih =>
    obtain ⟨c, hc, hdeep⟩ := deeperThan_succ_iff.1 h
    obtain ⟨path, hpath, hlt⟩ := ih hdeep
    refine ⟨e :: path, .down hc hpath, ?_⟩
    rw [List.countP_cons_of_pos (isCompound_of_mem_children hc)]
    omega

theorem Descent.deeperThan {path : List (Ragged α)} (hpath : Descent e path)
    (h : n < path.countP isCompound) : e.deeperThan n = true := by
  induction hpath generalizing n with
  | stop e =>
    cases hroot : e.isCompound with
    | false => simp [hroot] at h
    | true =>
      have hzero : n = 0 := by simpa [hroot] using h
      rw [hzero]
      exact hroot
  | down hd hpath ih =>
    have hroot := isCompound_of_mem_children hd
    rw [List.countP_cons_of_pos hroot] at h
    cases n with
    | zero => exact hroot
    | succ n => exact deeperThan_succ_iff.2 ⟨_, hd, ih (by omega)⟩

theorem deeperThan_iff_path :
    e.deeperThan n = true ↔ ∃ path, Descent e path ∧ n < path.countP isCompound :=
  ⟨exists_path_of_deeperThan, fun ⟨_, hpath, hlt⟩ => hpath.deeperThan hlt⟩

/-! ### Passes that keep the shape -/

/-- Two trees have the same depth if one is the other with every node changed in a way that keeps
compound nodes compound. -/
theorem deeperThan_of_children_map {f : Ragged α → Ragged β}
    (hroot : ∀ e, (f e).isCompound = e.isCompound)
    (hchildren : ∀ e, (f e).children = e.children.map f) :
    (f e).deeperThan n = e.deeperThan n := by
  induction n generalizing e with
  | zero => exact hroot e
  | succ n ih =>
    simp only [deeperThan, hchildren, List.any_map]
    exact congrArg _ (funext fun _ => ih)

theorem deeperThan_outline : e.outline.deeperThan n = e.deeperThan n :=
  deeperThan_of_children_map (fun e => by cases e <;> rfl) fun e => by
    cases e <;> simp [outline, children, outlineList_eq_map, outlineProcs_eq_map]

theorem deeperThan_rename : e.rename.deeperThan n = e.deeperThan n := by
  rw [← deeperThan_outline, rename, outline_renameIn, deeperThan_outline]

theorem deeperThan_untag : e.untag.deeperThan n = e.deeperThan n :=
  deeperThan_of_children_map (fun e => by cases e <;> rfl) fun e => by
    cases e <;> simp [untag, children, untagList_eq_map, untagProcs_eq_map]

theorem tagWith_not_deeperThan (hlimit : e.deeperThan n = false) (overflow : Overflow)
    (start : UInt64) :
    (∃ e' stop, e.tagWith overflow start = .ok (e', stop) ∧ e'.deeperThan n = false) ∨
      overflow = .panics ∧ e.tagWith overflow start = .error .panic := by
  refine (keepsShape overflow e start).imp_left ?_
  rintro ⟨e', stop, hrun, huntag⟩
  exact ⟨e', stop, hrun, by rw [← deeperThan_untag, huntag, deeperThan_untag, hlimit]⟩

/-! ### Passes that take lambdas away -/

/-- A pass, as a relation between trees and what becomes of them, that never adds a level:
compound nodes come from compound nodes, and what stands below a new node has its place, or a place
one level higher, below what a child of the old node becomes. -/
structure Flattens (R : Ragged α → Ragged β → Prop) : Prop where
  compound : ∀ {e e'}, R e e' → e'.isCompound = true → e.isCompound = true
  below : ∀ {e e'}, R e e' → ∀ d ∈ e'.children, ∃ c ∈ e.children, ∃ c', R c c' ∧
    (d = c' ∨ d ∈ c'.children)

theorem Flattens.deeperThan {R : Ragged α → Ragged β → Prop} (h : Flattens R) {e' : Ragged β}
    (he : R e e') (hdeep : e'.deeperThan n = true) : e.deeperThan n = true := by
  induction e using induct_children generalizing e' n with
  | node e ih =>
    cases n with
    | zero => exact h.compound he hdeep
    | succ n =>
      obtain ⟨d, hd, hdeep⟩ := deeperThan_succ_iff.1 hdeep
      obtain ⟨c, hc, c', hrel, hplace⟩ := h.below he d hd
      refine deeperThan_succ_iff.2 ⟨c, hc, ?_⟩
      rcases hplace with rfl | hplace
      · exact ih c hc hrel hdeep
      · -- the level between `c'` and `d` is gone, so the limit was not used up
        exact deeperThan_of_succ (ih c hc hrel (deeperThan_succ_iff.2 ⟨d, hplace, hdeep⟩))

theorem Flattens.not_deeperThan {R : Ragged α → Ragged β → Prop} (h : Flattens R)
    {e' : Ragged β} (he : R e e') (hlimit : e.deeperThan n = false) :
    e'.deeperThan n = false := by
  rw [← Bool.not_eq_true] at hlimit ⊢
  exact mt (h.deeperThan he) hlimit

/-- Below the root of a tree with recovered `let` stand trees with recovered `let`: its children
or, for an applied lambda, the arguments and the body of the lambda. -/
theorem children_recoverLet (e : Ragged α) :
    e.recoverLet.children = e.children.map recoverLet ∨
      ∃ params body t' args t, e = app (lambda params body t') args t ∧
        e.recoverLet.children = args.map recoverLet ++ [body.recoverLet] := by
  cases e with
  | app func args t =>
    cases func with
    | lambda params body t' =>
      simp only [recoverLet]
      split
      · exact .inr ⟨params, body, t', args, t, rfl, by rw [children, recoverLetList_eq_map]⟩
      · exact .inl (by simp [children, recoverLet, recoverLetList_eq_map])
    | _ => exact .inl (by simp [children, recoverLet, recoverLetList_eq_map])
  | _ =>
    exact .inl (by simp [children, recoverLet, recoverLetList_eq_map, recoverLetProcs_eq_map])

theorem flattens_recoverLet : Flattens fun e e' : Ragged α => e' = e.recoverLet where
  compound := by
    rintro e _ rfl hcompound
    cases e with
    | lit v t => cases hcompound
    | var x t => cases hcompound
    | _ => rfl
  below := by
    rintro e _ rfl d hd
    rcases children_recoverLet e with heq | ⟨params, body, t', args, t, rfl, heq⟩
    · rw [heq] at hd
      obtain ⟨c, hc, rfl⟩ := List.mem_map.1 hd
      exact ⟨c, hc, _, rfl, .inl rfl⟩
    · rw [heq, List.mem_append, List.mem_singleton] at hd
      rcases hd with hd | rfl
      · obtain ⟨c, hc, rfl⟩ := List.mem_map.1 hd
        exact ⟨c, List.mem_cons_of_mem _ hc, _, rfl, .inl rfl⟩
      · exact ⟨_, List.mem_cons_self .., _, rfl, .inr (List.mem_singleton_self _)⟩

/-- A child of a tree beside a child of the fixed tree: the child is fixed, or it is a lambda bound
by a `letrec`, of which the group keeps the fixed body. -/
def FixedChild (c d : Ragged α) : Prop :=
  c.fixLetrec.result = .ok d ∨ ∃ params t, c.fixLetrec.result = .ok (lambda params d t)

/-- Each of the new children stems from one of the old ones. -/
def FixedFrom (cs ds : List (Ragged α)) : Prop :=
  ∀ d ∈ ds, ∃ c ∈ cs, FixedChild c d

theorem FixedFrom.nil (cs : List (Ragged α)) : FixedFrom cs [] :=
  List.forall_mem_nil _

theorem FixedFrom.cons {c d : Ragged α} {cs ds : List (Ragged α)} (h : FixedChild c d)
    (hs : FixedFrom cs ds) : FixedFrom (c :: cs) (d :: ds) := by
  refine List.forall_mem_cons.2 ⟨⟨c, List.mem_cons_self .., h⟩, fun d' hd' => ?_⟩
  obtain ⟨c', hc', hfixed⟩ := hs d' hd'
  exact ⟨c', List.mem_cons_of_mem c hc', hfixed⟩

theorem FixedFrom.append_body {cs ds : List (Ragged α)} {body body' : Ragged α}
    (hs : FixedFrom cs ds) (hbody : body.fixLetrec.result = .ok body') :
    FixedFrom (cs ++ [body]) (ds ++ [body']) := by
  refine List.forall_mem_append.2 ⟨fun d hd => ?_, List.forall_mem_singleton.2 ?_⟩
  · obtain ⟨c, hc, hfixed⟩ := hs d hd
    exact ⟨c, List.mem_append_left _ hc, hfixed⟩
  · exact ⟨body, List.mem_append_right _ (List.mem_singleton_self _), .inl hbody⟩

theorem fixedFrom_list {es es' : List (Ragged α)} (h : (fixLetrecList es).result = .ok es') :
    FixedFrom es es' := by
  induction es generalizing es' with
  | nil =>
    simp only [fixLetrecList, Emit.result_pure, Except.ok.injEq] at h
    exact h ▸ .nil _
  | cons e es ih =>
    simp only [fixLetrecList, Emit.result_bind_eq_ok_iff, Emit.result_pure,
      Except.ok.injEq] at h
    obtain ⟨e', he, es', hes, rfl⟩ := h
    exact .cons (.inl he) (ih hes)

theorem fixedFrom_procs {ps ps' : List (Procedure (Ragged α))}
    (h : (fixLetrecProcs ps).result = .ok ps') :
    FixedFrom (ps.map (·.body)) (ps'.map (·.body)) := by
  induction ps generalizing ps' with
  | nil =>
    simp only [fixLetrecProcs, Emit.result_pure, Except.ok.injEq] at h
    exact h ▸ .nil _
  | cons p ps ih =>
    simp only [fixLetrecProcs, Emit.result_bind_eq_ok_iff, Emit.result_pure,
      Except.ok.injEq] at h
    obtain ⟨body', hbody, ps', hps, rfl⟩ := h
    exact .cons (.inl hbody) (ih hps)

/-- The procedures of a new group are lambdas bound by the `letrec`, with fixed bodies. A value
that has no name is not among them. -/
theorem fixedFrom_inits {names : List Name} {es : List (Ragged α)}
    {ms : List (α × Procedure (Ragged α))} (h : (fixLetrecInits names es).result = .ok ms) :
    FixedFrom es ((ms.map (·.2)).map (·.body)) := by
  induction es generalizing names ms with
  | nil =>
    cases names <;>
    · simp only [fixLetrecInits, Emit.result_pure, Except.ok.injEq] at h
      exact h ▸ .nil _
  | cons e es ih =>
    cases names with
    | nil =>
      simp only [fixLetrecInits, Emit.result_pure, Except.ok.injEq] at h
      exact h ▸ .nil _
    | cons x names =>
      cases e with
      | lambda params body t =>
        simp only [fixLetrecInits, Emit.result_bind_eq_ok_iff, Emit.result_pure,
          Except.ok.injEq] at h
        obtain ⟨body', hbody, ms', hms, rfl⟩ := h
        have hlambda : (lambda params body t).fixLetrec.result = .ok (lambda params body' t) := by
          simp only [fixLetrec, Emit.result_bind_eq_ok_iff, Emit.result_pure, Except.ok.injEq]
          exact ⟨body', hbody, rfl⟩
        exact .cons (.inr ⟨params, t, hlambda⟩) (ih hms)
      | _ => simp [fixLetrecInits, Emit.fail] at h

theorem fixedFrom_children {e' : Ragged α} (hok : e.fixLetrec.result = .ok e') :
    FixedFrom e.children e'.children := by
  cases e with
  | lit v t =>
    simp only [fixLetrec, Emit.result_pure, Except.ok.injEq] at hok
    exact hok ▸ .nil _
  | var x t =>
    simp only [fixLetrec, Emit.result_pure, Except.ok.injEq] at hok
    exact hok ▸ .nil _
  | cond test yes no t =>
    simp only [fixLetrec, Emit.result_bind_eq_ok_iff, Emit.result_pure, Except.ok.injEq] at hok
    obtain ⟨test', htest, yes', hyes, no', hno, rfl⟩ := hok
    exact .cons (.inl htest) (.cons (.inl hyes) (.cons (.inl hno) (.nil _)))
  | lambda params body t =>
    simp only [fixLetrec, Emit.result_bind_eq_ok_iff, Emit.result_pure, Except.ok.injEq] at hok
    obtain ⟨body', hbody, rfl⟩ := hok
    exact .cons (.inl hbody) (.nil _)
  | assign x value t =>
    simp only [fixLetrec, Emit.result_bind_eq_ok_iff, Emit.result_pure, Except.ok.injEq] at hok
    obtain ⟨value', hvalue, rfl⟩ := hok
    exact .cons (.inl hvalue) (.nil _)
  | app func args t =>
    simp only [fixLetrec, Emit.result_bind_eq_ok_iff, Emit.result_pure, Except.ok.injEq] at hok
    obtain ⟨func', hfunc, args', hargs, rfl⟩ := hok
    exact .cons (.inl hfunc) (fixedFrom_list hargs)
  | letIn names inits body t =>
    simp only [fixLetrec, Emit.result_bind_eq_ok_iff, Emit.result_pure, Except.ok.injEq] at hok
    obtain ⟨inits', hinits, body', hbody, rfl⟩ := hok
    exact (fixedFrom_list hinits).append_body hbody
  | letrec names inits body t =>
    simp only [fixLetrec, Emit.result_bind_eq_ok_iff, Emit.result_pure, Except.ok.injEq] at hok
    obtain ⟨ms, hms, _, _, body', hbody, rfl⟩ := hok
    exact (fixedFrom_inits hms).append_body hbody
  | fix names ts procs body t =>
    simp only [fixLetrec, Emit.result_bind_eq_ok_iff, Emit.result_pure, Except.ok.injEq] at hok
    obtain ⟨procs', hprocs, body', hbody, rfl⟩ := hok
    exact (fixedFrom_procs hprocs).append_body hbody
  | seq items t =>
    simp only [fixLetrec, Emit.result_bind_eq_ok_iff, Emit.result_pure, Except.ok.injEq] at hok
    obtain ⟨items', hitems, rfl⟩ := hok
    exact fixedFrom_list hitems

theorem flattens_fixLetrec : Flattens fun e e' : Ragged α => e.fixLetrec.result = .ok e' where
  compound := by
    intro e e' hok hcompound
    cases e with
    | lit v t =>
      simp only [fixLetrec, Emit.result_pure, Except.ok.injEq] at hok
      exact absurd hcompound (hok ▸ Bool.false_ne_true)
    | var x t =>
      simp only [fixLetrec, Emit.result_pure, Except.ok.injEq] at hok
      exact absurd hcompound (hok ▸ Bool.false_ne_true)
    | _ => rfl
  below := by
    intro e e' hok d hd
    obtain ⟨c, hc, hfixed⟩ := fixedFrom_children hok d hd
    rcases hfixed with hfixed | ⟨params, t, hfixed⟩
    · exact ⟨c, hc, d, hfixed, .inl rfl⟩
    · exact ⟨c, hc, _, hfixed, .inr (List.mem_singleton_self d)⟩

/-- A tree is deeper than a limit exactly if more compound nodes than that lie on some way down
from its root, and no pass before code generation makes a tree deeper. Numbering may panic instead,
but only where the build checks for overflow. -/
theorem deeperThan_iff_descent_and_kept (e : Ragged α) (n : Nat) :
    (e.deeperThan n = true ↔ ∃ path, Descent e path ∧ n < path.countP isCompound) ∧
      (e.deeperThan n = false →
        e.rename.deeperThan n = false ∧
        e.recoverLet.deeperThan n = false ∧
        (∀ overflow start,
          (∃ e' stop, e.tagWith overflow start = .ok (e', stop) ∧ e'.deeperThan n = false) ∨
            overflow = .panics ∧ e.tagWith overflow start = .error .panic) ∧
        ∀ e', e.fixLetrec.result = .ok e' → e'.deeperThan n = false) := by
  refine ⟨deeperThan_iff_path, fun hlimit => ⟨deeperThan_rename.trans hlimit, ?_, ?_, ?_⟩⟩
  · exact flattens_recoverLet.not_deeperThan rfl hlimit
  · exact tagWith_not_deeperThan hlimit
  · exact fun _ hok => flattens_fixLetrec.not_deeperThan hok hlimit

/-- `(letrec ((f (lambda (x) ((lambda (y) (f y)) x)))) (f 1))`, where a second name is bound to
nothing. -/
def hiddenLet : Ragged Unit :=
  letrec ["f", "g"] [lambda ["x"]
    (app (lambda ["y"] (app (var "f" ()) [var "y" ()] ()) ()) [var "x" ()] ()) ()]
    (app (var "f" ()) [lit (.int 1) ()] ()) ()

theorem hiddenLet_kept_within_five :
    (∃ path, Descent hiddenLet path ∧ 4 < path.countP isCompound) ∧
      hiddenLet.rename.deeperThan 5 = false ∧
      hiddenLet.recoverLet.deeperThan 5 = false ∧
      (∃ e' stop, hiddenLet.tagWith .panics 0 = .ok (e', stop) ∧ e'.deeperThan 5 = false) ∧
      ∃ e', hiddenLet.fixLetrec.result = .ok e' ∧ e'.deeperThan 5 = false := by
  have hlimit : hiddenLet.deeperThan 5 = false := rfl
  obtain ⟨hrename, hrecover, htagged, hfix⟩ :=
    (deeperThan_iff_descent_and_kept hiddenLet 5).2 hlimit
  have hcalm : hiddenLet.tagWith .panics 0 ≠ .error .panic := nofun
  exact ⟨(deeperThan_iff_descent_and_kept hiddenLet 4).1.1 rfl, hrename, hrecover,
    (htagged .panics 0).resolve_right fun h => hcalm h.2, _, rfl, hfix _ rfl⟩

end Ragged

namespace Expr

variable {e : Expr α} {n : Nat}

/-! ### Even trees -/

theorem deeperThan_succ_iff :
    e.deeperThan (n + 1) = true ↔ ∃ c ∈ e.children, c.deeperThan n = true :=
  List.any_eq_true

theorem deeperThan_succ :
    e.deeperThan (n + 1) = false ↔ ∀ c ∈ e.children, c.deeperThan n = false := by
  rw [deeperThan, List.any_eq_false]
  simp only [Bool.not_eq_true]

theorem isCompound_ragged (e : Expr α) : e.ragged.isCompound = e.isCompound := by
  cases e <;> rfl

theorem deeperThan_ragged : e.ragged.deeperThan n = e.deeperThan n := by
  induction n generalizing e with
  | zero => exact isCompound_ragged e
  | succ n ih =>
    simp only [Ragged.deeperThan, deeperThan, children_ragged, List.any_map]
    exact congrArg _ (funext fun _ => ih)

theorem deeperThan_mono (h : e.deeperThan n = false) : e.deeperThan (n + 1) = false := by
  rw [← deeperThan_ragged, ← Bool.not_eq_true] at h ⊢
  exact mt Ragged.deeperThan_of_succ h

theorem deeperThan_mapTag (f : α → β) : (e.mapTag f).deeperThan n = e.deeperThan n := by
  induction n generalizing e with
  | zero => cases e <;> rfl
  | succ n ih =>
    simp only [deeperThan, children_mapTag, List.any_map]
    exact congrArg _ (funext fun _ => ih)

theorem deeperThan_tagged : e.tagged.deeperThan n = e.deeperThan n := by
  rw [← deeperThan_mapTag fun _ => (), ← untag, untag_tagged, untag, deeperThan_mapTag]

/-- The nodes on a way from a node downwards, from child to child. -/
inductive Descent : Expr α → List (Expr α) → Prop
  | stop (e : Expr α) : Descent e [e]
  | down {d e : Expr α} {path : List (Expr α)} (hd : d ∈ e.children) (h : Descent d path) :
    Descent e (e :: path)

theorem Descent.ragged {path : List (Expr α)} (h : Descent e path) :
    Ragged.Descent e.ragged (path.map Expr.ragged) := by
  induction h with
  | stop e => exact .stop e.ragged
  | @down d e path hd _ ih => exact .down (children_ragged e ▸ List.mem_map_of_mem hd) ih

theorem Descent.exists_of_ragged {path : List (Ragged α)} (h : Ragged.Descent e.ragged path) :
    ∃ path', Descent e path' ∧ path = path'.map Expr.ragged := by
  generalize hr : e.ragged = r at h
  induction h generalizing e with
  | stop r => exact ⟨[e], .stop e, by rw [← hr]; rfl⟩
  | down hd _ ih =>
    subst hr
    rw [children_ragged] at hd
    obtain ⟨c, hc, rfl⟩ := List.mem_map.1 hd
    obtain ⟨path', hpath', rfl⟩ := ih rfl
    exact ⟨e :: path', .down hc hpath', rfl⟩

/-- The same holds of trees that have their names and values in pairs. -/
theorem deeperThan_iff_path_and_kept (e : Expr α) (n : Nat) :
    (e.deeperThan n = true ↔ ∃ path, Descent e path ∧ n < path.countP isCompound) ∧
      (e.deeperThan n = false →
        e.rename.deeperThan n = false ∧
        e.recoverLet.deeperThan n = false ∧
        e.tagged.deeperThan n = false ∧
        ∀ e', e.fixLetrec.result = .ok e' → e'.deeperThan n = false) := by
  have hcount (path : List (Expr α)) :
      (path.map Expr.ragged).countP Ragged.isCompound = path.countP isCompound := by
    rw [List.countP_map]
    exact congrArg (List.countP · path) (funext isCompound_ragged)
  constructor
  · rw [← deeperThan_ragged, Ragged.deeperThan_iff_path]
    constructor
    · rintro ⟨_, hpath, hlt⟩
      obtain ⟨path, hdown, rfl⟩ := Descent.exists_of_ragged hpath
      exact ⟨path, hdown, hcount path ▸ hlt⟩
    · rintro ⟨path, hpath, hlt⟩
      exact ⟨_, hpath.ragged, (hcount path).symm ▸ hlt⟩
  · intro hlimit
    have hragged : e.ragged.deeperThan n = false := deeperThan_ragged.trans hlimit
    refine ⟨?_, ?_, deeperThan_tagged.trans hlimit, fun e' hok => ?_⟩
    · rw [← deeperThan_ragged, ← rename_ragged, Ragged.deeperThan_rename, hragged]
    · rw [← deeperThan_ragged, ← recoverLet_ragged]
      exact Ragged.flattens_recoverLet.not_deeperThan rfl hragged
    · have hok' : e.ragged.fixLetrec.result = .ok e'.ragged := by
        rw [fixLetrec_ragged, Emit.result_bind_eq_ok_iff]
        exact ⟨e', hok, rfl⟩
      rw [← deeperThan_ragged]
      exact Ragged.flattens_fixLetrec.not_deeperThan hok' hragged

end Expr

end MiniScheme
