import MiniScheme.Proofs.Subtrees

/-!
# Recovering `let` beside the other passes

Recovering `let` does not look at annotations and does not interfere with turning `letrec` into
`fix`: the passes may be run in either order, and succeed on the same trees.
-/

namespace MiniScheme.Expr

variable {α β γ : Type}

/-- An application that is a `let`: of a lambda to as many arguments as it has parameters. -/
def IsLet (func : Expr α) (args : List (Expr α)) : Prop :=
  ∃ params body t, func = lambda params body t ∧ params.length = args.length

theorem recoverLet_app_of_not {func : Expr α} {args : List (Expr α)} (h : ¬IsLet func args)
    (t : α) : (app func args t).recoverLet = app func.recoverLet (recoverLetList args) t :=
  recoverLet_app t fun params body t' hfunc hlen => h ⟨params, body, t', hfunc, hlen⟩

/-- Induction on trees in which the body of a lambda that is applied directly counts as a part of
the application. -/
@[elab_as_elim]
theorem induct_let {motive : Expr α → Prop} (lit : ∀ v t, motive (.lit v t))
    (var : ∀ x t, motive (.var x t))
    (cond : ∀ test yes no t, motive test → motive yes → motive no →
      motive (.cond test yes no t))
    (lambda : ∀ params body t, motive body → motive (.lambda params body t))
    (assign : ∀ x value t, motive value → motive (.assign x value t))
    (applied : ∀ params body t' args t, params.length = args.length → motive body →
      (∀ e ∈ args, motive e) → motive (.app (.lambda params body t') args t))
    (app : ∀ func args t, ¬IsLet func args → motive func → (∀ e ∈ args, motive e) →
      motive (.app func args t))
    (letIn : ∀ bindings body t, (∀ b ∈ bindings, motive b.2) → motive body →
      motive (.letIn bindings body t))
    (letrec : ∀ bindings body t, (∀ b ∈ bindings, motive b.2) → motive body →
      motive (.letrec bindings body t))
    (fix : ∀ members body t, (∀ m ∈ members, motive m.body) → motive body →
      motive (.fix members body t))
    (seq : ∀ items t, (∀ e ∈ items, motive e) → motive (.seq items t)) (e : Expr α) :
    motive e := by
  -- the body of an applied lambda is two levels down
  suffices h : motive e ∧ ∀ params body t, e = .lambda params body t → motive body from h.1
  induction e with
  | lit v t => exact ⟨lit v t, nofun⟩
  | var x t => exact ⟨var x t, nofun⟩
  | cond test yes no t htest hyes hno => exact ⟨cond test yes no t htest.1 hyes.1 hno.1, nofun⟩
  | lambda params body t hbody =>
    refine ⟨lambda params body t hbody.1, ?_⟩
    rintro _ _ _ ⟨⟩
    exact hbody.1
  | assign x value t hvalue => exact ⟨assign x value t hvalue.1, nofun⟩
  | app func args t hfunc hargs =>
    refine ⟨?_, nofun⟩
    have hargs' : ∀ e ∈ args, motive e := fun e he => (hargs e he).1
    by_cases h : IsLet func args
    · obtain ⟨params, body, t', rfl, hlen⟩ := h
      exact applied params body t' args t hlen (hfunc.2 params body t' rfl) hargs'
    · exact app func args t h hfunc.1 hargs'
  | letIn bindings body t hbindings hbody =>
    exact ⟨letIn bindings body t (fun b hb => (hbindings b hb).1) hbody.1, nofun⟩
  | letrec bindings body t hbindings hbody =>
    exact ⟨letrec bindings body t (fun b hb => (hbindings b hb).1) hbody.1, nofun⟩
  | fix members body t hmembers hbody =>
    exact ⟨fix members body t (fun m hm => (hmembers m hm).1) hbody.1, nofun⟩
  | seq items t hitems => exact ⟨seq items t fun e he => (hitems e he).1, nofun⟩

/-! ### Annotations -/

theorem mapTag_mapTag (f : α → β) (g : β → γ) (e : Expr α) :
    (e.mapTag f).mapTag g = e.mapTag fun t => g (f t) := by
  induction e with
  | lit v t => rfl
  | var x t => rfl
  | cond test yes no t htest hyes hno => simp only [mapTag, htest, hyes, hno]
  | lambda params body t hbody => simp only [mapTag, hbody]
  | assign x value t hvalue => simp only [mapTag, hvalue]
  | app func args t hfunc hargs => simpa [mapTag, mapTagList_eq_map, hfunc] using hargs
  | letIn bindings body t hbindings hbody =>
    simpa [mapTag, mapTagBindings_eq_map, hbody] using hbindings
  | letrec bindings body t hbindings hbody =>
    simpa [mapTag, mapTagBindings_eq_map, hbody] using hbindings
  | fix members body t hmembers hbody =>
    simpa [mapTag, mapTagMembers_eq_map, hbody] using hmembers
  | seq items t hitems => simpa [mapTag, mapTagList_eq_map] using hitems

theorem mapTagBindings_zip (f : α → β) (xs : List Name) (es : List (Expr α)) :
    mapTagBindings f (xs.zip es) = xs.zip (mapTagList f es) := by
  rw [mapTagBindings_eq_map, mapTagList_eq_map, List.zip_map_right]
  rfl

theorem isLet_mapTag_iff (f : α → β) {func : Expr α} {args : List (Expr α)} :
    IsLet (func.mapTag f) (args.map (mapTag f)) ↔ IsLet func args := by
  cases func with
  | lambda params body t => simp [IsLet, mapTag]
  | _ => simp [IsLet, mapTag]

theorem mapTag_recoverLet (f : α → β) (e : Expr α) :
    e.recoverLet.mapTag f = (e.mapTag f).recoverLet := by
  induction e using induct_let with
  | lit v t => rfl
  | var x t => rfl
  | cond test yes no t htest hyes hno => simp only [recoverLet, mapTag, htest, hyes, hno]
  | lambda params body t hbody => simp only [recoverLet, mapTag, hbody]
  | assign x value t hvalue => simp only [recoverLet, mapTag, hvalue]
  | applied params body t' args t hlen hbody hargs =>
    have hlen' : params.length = (mapTagList f args).length := by
      rw [mapTagList_eq_map, List.length_map, hlen]
    have hargs' : mapTagList f (recoverLetList args) = recoverLetList (mapTagList f args) := by
      simpa [recoverLetList_eq_map, mapTagList_eq_map] using hargs
    rw [recoverLet_app_lambda body t' t hlen, mapTag, mapTag, mapTag,
      recoverLet_app_lambda _ _ _ hlen', hbody, mapTagBindings_zip, hargs']
  | app func args t hnot hfunc hargs =>
    have hargs' : mapTagList f (recoverLetList args) = recoverLetList (mapTagList f args) := by
      simpa [recoverLetList_eq_map, mapTagList_eq_map] using hargs
    have hnot' : ¬IsLet (func.mapTag f) (mapTagList f args) := by
      rwa [mapTagList_eq_map, isLet_mapTag_iff]
    rw [recoverLet_app_of_not hnot, mapTag, mapTag, recoverLet_app_of_not hnot', hfunc, hargs']
  | letIn bindings body t hbindings hbody =>
    simpa [recoverLet, mapTag, recoverLetBindings_eq_map, mapTagBindings_eq_map, hbody]
      using hbindings
  | letrec bindings body t hbindings hbody =>
    simpa [recoverLet, mapTag, recoverLetBindings_eq_map, mapTagBindings_eq_map, hbody]
      using hbindings
  | fix members body t hmembers hbody =>
    simpa [recoverLet, mapTag, recoverLetMembers_eq_map, mapTagMembers_eq_map, hbody]
      using hmembers
  | seq items t hitems =>
    simpa [recoverLet, mapTag, recoverLetList_eq_map, mapTagList_eq_map] using hitems

/-- Trees that differ in annotations only are the same after giving all nodes one annotation. -/
theorem mapTag_const_eq (c : β) {e : Expr α} {e' : Expr γ} (h : e.untag = e'.untag) :
    e.mapTag (fun _ => c) = e'.mapTag (fun _ => c) := by
  have heq := congrArg (mapTag fun _ => c) h
  rw [untag, untag, mapTag_mapTag, mapTag_mapTag] at heq
  exact heq

/-! ### Fixing `letrec` -/

/-- What a tree with recovered `let` is fixed to is what the tree is fixed to, with recovered
`let`. -/
def FixesRecovered (e : Expr α) : Prop :=
  ∀ d, e.recoverLet.fixLetrec.result = .ok d ↔
    ∃ e', e.fixLetrec.result = .ok e' ∧ e'.recoverLet = d

theorem fixesRecovered_list {es : List (Expr α)} (h : ∀ e ∈ es, FixesRecovered e)
    (ds : List (Expr α)) : (fixLetrecList (recoverLetList es)).result = .ok ds ↔
      ∃ es', (fixLetrecList es).result = .ok es' ∧ recoverLetList es' = ds := by
  induction es generalizing ds with
  | nil => simp [fixLetrecList, recoverLetList]
  | cons e es ih =>
    obtain ⟨he, hes⟩ := List.forall_mem_cons.1 h
    simp only [recoverLetList, fixLetrecList, Emit.result_bind_eq_ok_iff, Emit.result_pure,
      Except.ok.injEq, he _, ih hes]
    grind [recoverLetList]

theorem fixesRecovered_bindings {bs : List (Name × Expr α)} (h : ∀ b ∈ bs, FixesRecovered b.2)
    (ds : List (Name × Expr α)) : (fixLetrecBindings (recoverLetBindings bs)).result = .ok ds ↔
      ∃ bs', (fixLetrecBindings bs).result = .ok bs' ∧ recoverLetBindings bs' = ds := by
  induction bs generalizing ds with
  | nil => simp [fixLetrecBindings, recoverLetBindings]
  | cons b bs ih =>
    obtain ⟨hb, hbs⟩ := List.forall_mem_cons.1 h
    simp only [recoverLetBindings, fixLetrecBindings, Emit.result_bind_eq_ok_iff, Emit.result_pure,
      Except.ok.injEq, hb _, ih hbs]
    grind [recoverLetBindings]

theorem fixesRecovered_members {ms : List (Member α (Expr α))}
    (h : ∀ m ∈ ms, FixesRecovered m.body) (ds : List (Member α (Expr α))) :
    (fixLetrecMembers (recoverLetMembers ms)).result = .ok ds ↔
      ∃ ms', (fixLetrecMembers ms).result = .ok ms' ∧ recoverLetMembers ms' = ds := by
  induction ms generalizing ds with
  | nil => simp [fixLetrecMembers, recoverLetMembers]
  | cons m ms ih =>
    obtain ⟨hm, hms⟩ := List.forall_mem_cons.1 h
    simp only [recoverLetMembers, fixLetrecMembers, Emit.result_bind_eq_ok_iff, Emit.result_pure,
      Except.ok.injEq, hm _, ih hms]
    grind [recoverLetMembers]

theorem fixLetrecBindings_zip {xs : List Name} {es : List (Expr α)} (hlen : xs.length = es.length)
    (bs : List (Name × Expr α)) : (fixLetrecBindings (xs.zip es)).result = .ok bs ↔
      ∃ es', (fixLetrecList es).result = .ok es' ∧ xs.zip es' = bs := by
  induction xs generalizing es bs with
  | nil =>
    obtain rfl := List.eq_nil_of_length_eq_zero hlen.symm
    simp [fixLetrecBindings, fixLetrecList]
  | cons x xs ih =>
    cases es with
    | nil => simp at hlen
    | cons e es =>
      simp only [List.zip_cons_cons, fixLetrecBindings, fixLetrecList, Emit.result_bind_eq_ok_iff,
        Emit.result_pure, Except.ok.injEq, ih (Nat.succ.inj hlen)]
      grind

theorem isLambda_recoverLet (e : Expr α) : e.recoverLet.isLambda = e.isLambda := by
  cases e with
  | app func args t =>
    rcases recoverLet_app_cases func args t with heq | ⟨params, body, t', _, heq⟩
    · rw [heq]
      rfl
    · rw [heq]
      rfl
  | _ => rfl

theorem membersOfBindings_of_not_isLambda {x : Name} {e : Expr α} (h : e.isLambda = false)
    (bs : List (Name × Expr α)) :
    (membersOfBindings ((x, e) :: bs)).result = .error (.notLambda x) := by
  cases e with
  | lambda params body t => cases h
  | _ => rfl

theorem fixesRecovered_lambda {params : List Name} {body : Expr α} {t : α} :
    FixesRecovered (lambda params body t) ↔ FixesRecovered body := by
  simp only [FixesRecovered, recoverLet, fixLetrec, Emit.result_bind_eq_ok_iff, Emit.result_pure,
    Except.ok.injEq]
  constructor
  · intro h d
    have hd := h (lambda params d t)
    grind [recoverLet]
  · intro h d
    grind [recoverLet]

/-- A bound lambda stays a lambda, and nothing else becomes one. -/
theorem membersOfBindings_recovered {bs : List (Name × Expr α)}
    (h : ∀ b ∈ bs, FixesRecovered b.2) (ms : List (Member α (Expr α))) :
    (membersOfBindings (recoverLetBindings bs)).result = .ok ms ↔
      ∃ ms', (membersOfBindings bs).result = .ok ms' ∧ recoverLetMembers ms' = ms := by
  induction bs generalizing ms with
  | nil => simp [membersOfBindings, recoverLetBindings, recoverLetMembers]
  | cons b bs ih =>
    obtain ⟨x, e⟩ := b
    obtain ⟨he, hbs⟩ := List.forall_mem_cons.1 h
    cases hlam : e.isLambda with
    | false =>
      have hlam' : e.recoverLet.isLambda = false := by rw [isLambda_recoverLet, hlam]
      simp [recoverLetBindings, membersOfBindings_of_not_isLambda hlam,
        membersOfBindings_of_not_isLambda hlam']
    | true =>
      cases e with
      | lambda params body t =>
        have hbody := fixesRecovered_lambda.1 he
        simp only [recoverLetBindings, recoverLet, membersOfBindings, Emit.result_bind_eq_ok_iff,
          Emit.result_pure, Except.ok.injEq, hbody _, ih hbs]
        grind [recoverLetMembers]
      | _ => cases hlam

/-- Fixing makes no applications of lambdas. -/
theorem not_isLet_of_fixLetrec {func func' : Expr α} {args args' : List (Expr α)}
    (h : ¬IsLet func args) (hfunc : func.fixLetrec.result = .ok func')
    (hargs : (fixLetrecList args).result = .ok args') : ¬IsLet func' args' := by
  rintro ⟨params, body', t, rfl, hlen⟩
  rw [← (fixLetrecList_ok hargs).length_eq] at hlen
  cases func with
  | lambda params' body t' =>
    simp only [fixLetrec, Emit.result_bind_eq_ok_iff, Emit.result_pure, Except.ok.injEq,
      lambda.injEq] at hfunc
    obtain ⟨_, _, rfl, _⟩ := hfunc
    exact h ⟨params', body, t', rfl, hlen⟩
  | _ => simp [fixLetrec, Emit.result_bind_eq_ok_iff] at hfunc

theorem fixesRecovered (e : Expr α) : FixesRecovered e := by
  induction e using induct_let with
  | lit v t => simp [FixesRecovered, fixLetrec, recoverLet]
  | var x t => simp [FixesRecovered, fixLetrec, recoverLet]
  | cond test yes no t htest hyes hno =>
    intro d
    simp only [recoverLet, fixLetrec, Emit.result_bind_eq_ok_iff, Emit.result_pure,
      Except.ok.injEq, htest _, hyes _, hno _]
    grind [recoverLet]
  | lambda params body t hbody => exact fixesRecovered_lambda.2 hbody
  | assign x value t hvalue =>
    intro d
    simp only [recoverLet, fixLetrec, Emit.result_bind_eq_ok_iff, Emit.result_pure,
      Except.ok.injEq, hvalue _]
    grind [recoverLet]
  | applied params body t' args t hlen hbody hargs =>
    intro d
    have hlen' : params.length = (recoverLetList args).length := by
      rw [length_recoverLetList, hlen]
    rw [recoverLet_app_lambda body t' t hlen]
    simp only [fixLetrec, Emit.result_bind_eq_ok_iff, Emit.result_pure, Except.ok.injEq,
      fixLetrecBindings_zip hlen', fixesRecovered_list hargs, hbody _]
    constructor
    · rintro ⟨_, ⟨_, ⟨args', hargs', rfl⟩, rfl⟩, _, ⟨body', hbody', rfl⟩, rfl⟩
      have hlen'' : params.length = args'.length := by
        rw [hlen, (fixLetrecList_ok hargs').length_eq]
      exact ⟨_, ⟨_, ⟨body', hbody', rfl⟩, args', hargs', rfl⟩,
        recoverLet_app_lambda body' t' t hlen''⟩
    · rintro ⟨_, ⟨_, ⟨body', hbody', rfl⟩, args', hargs', rfl⟩, rfl⟩
      have hlen'' : params.length = args'.length := by
        rw [hlen, (fixLetrecList_ok hargs').length_eq]
      exact ⟨_, ⟨_, ⟨args', hargs', rfl⟩, rfl⟩, _, ⟨body', hbody', rfl⟩,
        (recoverLet_app_lambda body' t' t hlen'').symm⟩
  | app func args t hnot hfunc hargs =>
    intro d
    rw [recoverLet_app_of_not hnot]
    simp only [fixLetrec, Emit.result_bind_eq_ok_iff, Emit.result_pure, Except.ok.injEq,
      fixesRecovered_list hargs, hfunc _]
    constructor
    · rintro ⟨_, ⟨func', hfunc', rfl⟩, _, ⟨args', hargs', rfl⟩, rfl⟩
      exact ⟨_, ⟨func', hfunc', args', hargs', rfl⟩,
        recoverLet_app_of_not (not_isLet_of_fixLetrec hnot hfunc' hargs') t⟩
    · rintro ⟨_, ⟨func', hfunc', args', hargs', rfl⟩, rfl⟩
      exact ⟨_, ⟨func', hfunc', rfl⟩, _, ⟨args', hargs', rfl⟩,
        (recoverLet_app_of_not (not_isLet_of_fixLetrec hnot hfunc' hargs') t).symm⟩
  | letIn bindings body t hbindings hbody =>
    intro d
    simp only [recoverLet, fixLetrec, Emit.result_bind_eq_ok_iff, Emit.result_pure,
      Except.ok.injEq, fixesRecovered_bindings hbindings, hbody _]
    grind [recoverLet]
  | letrec bindings body t hbindings hbody =>
    intro d
    simp only [recoverLet, fixLetrec, Emit.result_bind_eq_ok_iff, Emit.result_pure,
      Except.ok.injEq, membersOfBindings_recovered hbindings, hbody _]
    grind [recoverLet, Emit.emit]
  | fix members body t hmembers hbody =>
    intro d
    simp only [recoverLet, fixLetrec, Emit.result_bind_eq_ok_iff, Emit.result_pure,
      Except.ok.injEq, fixesRecovered_members hmembers, hbody _]
    grind [recoverLet]
  | seq items t hitems =>
    intro d
    simp only [recoverLet, fixLetrec, Emit.result_bind_eq_ok_iff, Emit.result_pure,
      Except.ok.injEq, fixesRecovered_list hitems]
    grind [recoverLet]

end MiniScheme.Expr
