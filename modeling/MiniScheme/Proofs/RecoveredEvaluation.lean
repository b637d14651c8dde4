import MiniScheme.Proofs.Evaluation
import MiniScheme.Proofs.LetRecovery

/-!
# Evaluation and the form of a program

Evaluation does not look at annotations, and it gives the same result whether or not applied
lambdas are written as `let`. The latter holds up to the limit on nested calls: a `let` is no call,
so evaluation may succeed with recovered `let` where it is cut off without.

Results may be closures, and a closure contains a tree. So what evaluation gives for a changed tree
is the result for the tree with all trees in it changed.
-/

namespace MiniScheme.Eval

variable {α β : Type}

/-! ### Changing the trees in values -/

mutual
/-- Changes all annotations of members and all procedure bodies. -/
def Value.mapTrees (g : α → β) (h : Expr α → Expr β) : Value α → Value β
  | .lit v => .lit v
  | .closure params body env => .closure params (h body) (Env.mapTrees g h env)
  | .prim p => .prim p
termination_by structural v => v

def Env.mapTrees (g : α → β) (h : Expr α → Expr β) : Env α → Env β
  | .empty => .empty
  | .bind x v rest => .bind x (Value.mapTrees g h v) (Env.mapTrees g h rest)
  | .group ms rest =>
    .group (ms.map fun m => ⟨m.name, g m.tag, m.params, h m.body⟩) (Env.mapTrees g h rest)
termination_by structural env => env
end

section

variable (g : α → β) (h : Expr α → Expr β)

theorem Value.literal?_mapTrees (v : Value α) : (v.mapTrees g h).literal? = v.literal? := by
  cases v <;> rfl

theorem Value.isFalse_mapTrees (v : Value α) : (v.mapTrees g h).isFalse = v.isFalse := by
  cases v <;> rfl

theorem Value.text_mapTrees (v : Value α) : (v.mapTrees g h).text = v.text := by
  cases v <;> rfl

theorem Env.find?_mapTrees : (env : Env α) → (x : Name) →
    (env.mapTrees g h).find? x = (env.find? x).map (Value.mapTrees g h)
  | .empty, _ => rfl
  | .bind y v rest, x => by
    simp only [Env.mapTrees, Env.find?]
    split
    · rfl
    · exact find?_mapTrees rest x
  | .group ms rest, x => by
    simp only [Env.mapTrees, Env.find?, ← List.map_reverse, List.find?_map, find?_mapTrees rest x,
      Function.comp_def]
    cases ms.reverse.find? (·.name = x) with
    | none => rfl
    | some m => rfl

theorem Env.lookup_mapTrees (env : Env α) (x : Name) :
    (env.mapTrees g h).lookup x = (env.lookup x).map (Value.mapTrees g h) := by
  unfold Env.lookup
  rw [Env.find?_mapTrees]
  cases env.find? x with
  | some v => rfl
  | none => cases Primitive.ofName? x <;> rfl

theorem Env.bindAll_mapTrees (env : Env α) (xs : List Name) (vs : List (Value α)) :
    (env.bindAll xs vs).mapTrees g h =
      (env.mapTrees g h).bindAll xs (vs.map (Value.mapTrees g h)) := by
  induction xs generalizing env vs with
  | nil => cases vs <;> rfl
  | cons x xs ih =>
    cases vs with
    | nil => rfl
    | cons v vs => exact ih (.bind x v env) vs

theorem operands_mapTrees (p : Primitive) (vs : List (Value α)) :
    operands p (vs.map (Value.mapTrees g h)) = operands p vs := by
  induction vs with
  | nil => rfl
  | cons v vs ih =>
    simp only [List.map_cons, operands, Value.literal?_mapTrees, Value.text_mapTrees, ih]

theorem applyPrimitive_mapTrees (p : Primitive) (vs : List (Value α)) :
    applyPrimitive p (vs.map (Value.mapTrees g h)) =
      (applyPrimitive p vs).map (Value.mapTrees g h) := by
  unfold applyPrimitive
  rw [operands_mapTrees]
  cases operands p vs with
  | error e => rfl
  | ok ls =>
    simp only [bind, Except.bind]
    cases p.apply ls 0 <;> rfl

end

/-! ### Results for changed trees -/

/-- The second result is the image of the first one, unless the first one was cut off where that
is `excused`. -/
def Carries {γ δ : Type} (excused : Prop) (V : γ → δ) (r : Except Error γ) (r' : Except Error δ) :
    Prop :=
  excused ∧ r = .error tooDeep ∨ r' = r.map V

section

variable {excused : Prop}

theorem carries_ok {γ δ : Type} (V : γ → δ) (a : γ) : Carries excused V (.ok a) (.ok (V a)) :=
  .inr rfl

theorem carries_error {γ δ : Type} (V : γ → δ) (e : Error) :
    Carries excused V (.error e) (.error e) :=
  .inr rfl

theorem Carries.bind {γ δ γ' δ' : Type} {V : γ → δ} {W : γ' → δ'} {r : Except Error γ}
    {r' : Except Error δ} {k : γ → Except Error γ'} {k' : δ → Except Error δ'}
    (h : Carries excused V r r') (hk : ∀ a, r = .ok a → Carries excused W (k a) (k' (V a))) :
    Carries excused W (r >>= k) (r' >>= k') := by
  rcases h with ⟨hexcused, rfl⟩ | rfl
  · exact .inl ⟨hexcused, rfl⟩
  · cases r with
    | error e => exact .inr rfl
    | ok a => exact hk a rfl

variable (excused) (g : α → β) (h : Expr α → Expr β) (f : Caller α) (f' : Caller β)

/-- Evaluating the second tree is like evaluating the first one and changing all trees in the
result. -/
def CarriesTree (e : Expr α) (e' : Expr β) : Prop :=
  ∀ env : Env α, Carries excused (Value.mapTrees g h) (evalWith f env e)
    (evalWith f' (env.mapTrees g h) e')

/-- Calls carry over. -/
def CarriesCalls : Prop :=
  ∀ v vs, Carries excused (Value.mapTrees g h) (f v vs)
    (f' (v.mapTrees g h) (vs.map (Value.mapTrees g h)))

end

section

variable {excused : Prop} {g : α → β} {h : Expr α → Expr β} {f : Caller α} {f' : Caller β} {t : α}
  {t' : β}

theorem carriesTree_lit (v : Literal) :
    CarriesTree excused g h f f' (.lit v t) (.lit v t') :=
  fun _ => carries_ok ..

theorem carriesTree_var (x : Name) : CarriesTree excused g h f f' (.var x t) (.var x t') :=
  fun env => .inr (env.lookup_mapTrees g h x)

theorem carriesTree_lambda (params : List Name) (body : Expr α) :
    CarriesTree excused g h f f' (.lambda params body t) (.lambda params (h body) t') :=
  fun _ => .inr rfl

theorem carriesTree_assign (x : Name) (value : Expr α) (value' : Expr β) :
    CarriesTree excused g h f f' (.assign x value t) (.assign x value' t') :=
  fun _ => .inr rfl

theorem carriesTree_letrec (bs : List (Name × Expr α)) (bs' : List (Name × Expr β))
    (body : Expr α) (body' : Expr β) :
    CarriesTree excused g h f f' (.letrec bs body t) (.letrec bs' body' t') :=
  fun _ => .inr rfl

theorem carriesTree_cond {test yes no : Expr α} {test' yes' no' : Expr β}
    (htest : CarriesTree excused g h f f' test test')
    (hyes : CarriesTree excused g h f f' yes yes') (hno : CarriesTree excused g h f f' no no') :
    CarriesTree excused g h f f' (.cond test yes no t) (.cond test' yes' no' t') := by
  intro env
  refine (htest env).bind fun v _ => ?_
  rw [Value.isFalse_mapTrees]
  cases v.isFalse with
  | true => exact hno env
  | false => exact hyes env

theorem carries_list {es : List (Expr α)} {es' : List (Expr β)}
    (hes : List.Forall₂ (CarriesTree excused g h f f') es es') (env : Env α) :
    Carries excused (List.map (Value.mapTrees g h)) (evalListWith f env es)
      (evalListWith f' (env.mapTrees g h) es') := by
  induction hes with
  | nil => exact carries_ok ..
  | cons he _ ih => exact (he env).bind fun v _ => ih.bind fun vs _ => carries_ok ..

theorem carriesTree_app (hcalls : CarriesCalls excused g h f f') {func : Expr α}
    {func' : Expr β} {args : List (Expr α)} {args' : List (Expr β)}
    (hfunc : CarriesTree excused g h f f' func func')
    (hargs : List.Forall₂ (CarriesTree excused g h f f') args args') :
    CarriesTree excused g h f f' (.app func args t) (.app func' args' t') :=
  fun env => (hfunc env).bind fun v _ => (carries_list hargs env).bind fun vs _ => hcalls v vs

theorem carriesTree_letIn {bs : List (Name × Expr α)} {bs' : List (Name × Expr β)}
    {body : Expr α} {body' : Expr β} (hnames : bs.map (·.1) = bs'.map (·.1))
    (hbs : List.Forall₂ (CarriesTree excused g h f f') (bs.map (·.2)) (bs'.map (·.2)))
    (hbody : CarriesTree excused g h f f' body body') :
    CarriesTree excused g h f f' (.letIn bs body t) (.letIn bs' body' t') := by
  intro env
  rw [evalWith_letIn, evalWith_letIn]
  refine (carries_list hbs env).bind fun vs _ => ?_
  rw [← hnames, ← Env.bindAll_mapTrees]
  exact hbody _

theorem carriesTree_fix {ms : List (Member α (Expr α))} {body : Expr α} {body' : Expr β}
    (hbody : CarriesTree excused g h f f' body body') :
    CarriesTree excused g h f f' (.fix ms body t)
      (.fix (ms.map fun m => ⟨m.name, g m.tag, m.params, h m.body⟩) body' t') :=
  fun env => hbody (.group ms env)

theorem carriesTree_seq {es : List (Expr α)} {es' : List (Expr β)}
    (hes : List.Forall₂ (CarriesTree excused g h f f') es es') :
    CarriesTree excused g h f f' (.seq es t) (.seq es' t') := by
  intro env
  simp only [evalWith]
  induction hes with
  | nil => exact carries_error ..
  | cons he hes ih =>
    cases hes with
    | nil => exact he env
    | cons he' hes => exact (he env).bind fun _ _ => ih

/-- If trees carry over where calls do, calls carry over at every limit on their nesting. -/
theorem carriesCalls (htrees : ∀ n, CarriesCalls excused g h (call n) (call n) →
      ∀ e, CarriesTree excused g h (call n) (call n) e (h e)) (n : Nat) :
    CarriesCalls excused g h (call n) (call n) := by
  induction n with
  | zero =>
    intro v vs
    cases v with
    | lit v => exact carries_error ..
    | prim p => exact .inr (applyPrimitive_mapTrees g h p vs)
    | closure params body env => exact carries_error ..
  | succ n ih =>
    intro v vs
    cases v with
    | lit v => exact carries_error ..
    | prim p => exact .inr (applyPrimitive_mapTrees g h p vs)
    | closure params body env =>
      simp only [Value.mapTrees, call, List.length_map, ← Env.bindAll_mapTrees]
      split
      · exact htrees n ih body _
      · exact carries_error ..

end

/-! ### Annotations -/

theorem carriesTree_mapTag {g : α → β} {n : Nat}
    (hcalls : CarriesCalls False g (Expr.mapTag g) (call n) (call n)) (e : Expr α) :
    CarriesTree False g (Expr.mapTag g) (call n) (call n) e (e.mapTag g) := by
  induction e with
  | lit v t => exact carriesTree_lit v
  | var x t => exact carriesTree_var x
  | cond test yes no t htest hyes hno => exact carriesTree_cond htest hyes hno
  | lambda params body t _ => exact carriesTree_lambda params body
  | assign x value t _ => exact carriesTree_assign x value _
  | app func args t hfunc hargs =>
    rw [Expr.mapTag, Expr.mapTagList_eq_map]
    exact carriesTree_app hcalls hfunc (List.forall₂_map_right_iff.2 (List.forall₂_same.2 hargs))
  | letIn bindings body t hbindings hbody =>
    rw [Expr.mapTag]
    refine carriesTree_letIn (Expr.map_fst_mapTagBindings g bindings).symm ?_ hbody
    rw [Expr.mapTagBindings_eq_map, List.map_map, List.forall₂_map_left_iff,
      List.forall₂_map_right_iff]
    exact List.forall₂_same.2 hbindings
  | letrec bindings body t _ _ => exact carriesTree_letrec _ _ _ _
  | fix members body t _ hbody =>
    rw [Expr.mapTag, Expr.mapTagMembers_eq_map]
    exact carriesTree_fix hbody
  | seq items t hitems =>
    rw [Expr.mapTag, Expr.mapTagList_eq_map]
    exact carriesTree_seq (List.forall₂_map_right_iff.2 (List.forall₂_same.2 hitems))

theorem evalWith_mapTag (g : α → β) (n : Nat) (env : Env α) (e : Expr α) :
    evalWith (call n) (env.mapTrees g (Expr.mapTag g)) (e.mapTag g) =
      (evalWith (call n) env e).map (Value.mapTrees g (Expr.mapTag g)) := by
  have hcalls := carriesCalls (g := g) (h := Expr.mapTag g)
    (fun _ hcalls => carriesTree_mapTag hcalls) n
  exact (carriesTree_mapTag hcalls e env).resolve_left fun h => h.1

/-! ### Recovered `let` -/

/-- An applied lambda is a call, and the `let` it stands for is none. -/
theorem carriesTree_applied {h : Expr α → Expr α} {n : Nat} {params : List Name}
    {args : List (Expr α)} {body : Expr α} (hlen : params.length = args.length)
    (hbody : CarriesTree True id h (call n) (call n) body (h body))
    (hargs : ∀ e ∈ args, CarriesTree True id h (call n) (call n) e (h e)) (t' t : α) :
    CarriesTree True id h (call n) (call n) (.app (.lambda params body t') args t)
      (.letIn (params.zip (args.map h)) (h body) t) := by
  intro env
  have hlen' : params.length = (args.map h).length := by rw [List.length_map, hlen]
  have hfst : (params.zip (args.map h)).map (·.1) = params := List.map_fst_zip (by omega)
  have hsnd : (params.zip (args.map h)).map (·.2) = args.map h := List.map_snd_zip (by omega)
  rw [evalWith_letIn, hfst, hsnd]
  simp only [evalWith]
  refine (carries_list (List.forall₂_map_right_iff.2 (List.forall₂_same.2 hargs)) env).bind
    fun vs hvs => ?_
  cases n with
  | zero => exact .inl ⟨trivial, rfl⟩
  | succ n =>
    have hcount : params.length = vs.length := by rw [hlen, length_of_evalListWith hvs]
    simp only [call, if_pos hcount]
    -- inside the call one level less is left than inside the `let`
    rcases cutOff_evalWith (cutOff_call n) body (env.bindAll params vs) with hdeep | heq
    · exact .inl ⟨trivial, hdeep⟩
    · rw [← heq, ← Env.bindAll_mapTrees]
      exact hbody _

theorem carriesTree_recoverLet {n : Nat}
    (hcalls : CarriesCalls True id Expr.recoverLet (call n : Caller α) (call n)) (e : Expr α) :
    CarriesTree True id Expr.recoverLet (call n) (call n) e e.recoverLet := by
  induction e using Expr.induct_let with
  | lit v t => exact carriesTree_lit v
  | var x t => exact carriesTree_var x
  | cond test yes no t htest hyes hno => exact carriesTree_cond htest hyes hno
  | lambda params body t _ => exact carriesTree_lambda params body
  | assign x value t _ => exact carriesTree_assign x value _
  | applied params body t' args t hlen hbody hargs =>
    rw [Expr.recoverLet_app_lambda body t' t hlen, Expr.recoverLetList_eq_map]
    exact carriesTree_applied hlen hbody hargs t' t
  | app func args t hnot hfunc hargs =>
    rw [Expr.recoverLet_app_of_not hnot, Expr.recoverLetList_eq_map]
    exact carriesTree_app hcalls hfunc (List.forall₂_map_right_iff.2 (List.forall₂_same.2 hargs))
  | letIn bindings body t hbindings hbody =>
    rw [Expr.recoverLet]
    refine carriesTree_letIn (Expr.map_fst_recoverLetBindings bindings).symm ?_ hbody
    rw [Expr.recoverLetBindings_eq_map, List.map_map, List.forall₂_map_left_iff,
      List.forall₂_map_right_iff]
    exact List.forall₂_same.2 hbindings
  | letrec bindings body t _ _ => exact carriesTree_letrec _ _ _ _
  | fix members body t _ hbody =>
    rw [Expr.recoverLet, Expr.recoverLetMembers_eq_map]
    exact carriesTree_fix hbody
  | seq items t hitems =>
    rw [Expr.recoverLet, Expr.recoverLetList_eq_map]
    exact carriesTree_seq (List.forall₂_map_right_iff.2 (List.forall₂_same.2 hitems))

theorem carries_recoverLet (n : Nat) (e : Expr α) :
    CarriesTree True id Expr.recoverLet (call n) (call n) e e.recoverLet :=
  carriesTree_recoverLet (carriesCalls (fun _ hcalls => carriesTree_recoverLet hcalls) n) e

/-! ### Evaluation without a limit -/

/-- The image of a value under recovering `let`. -/
abbrev Value.recoverLet (v : Value α) : Value α :=
  v.mapTrees id Expr.recoverLet

/-- The image of an environment under recovering `let`. -/
abbrev Env.recoverLet (env : Env α) : Env α :=
  env.mapTrees id Expr.recoverLet

/-- What evaluation gives with recovered `let` it gives without, if calls may be nested deeper. -/
def Recovered (n : Nat) (e : Expr α) : Prop :=
  ∀ {env : Env α} {d' : Value α}, evalWith (call n) env.recoverLet e.recoverLet = .ok d' →
    ∃ d, d.recoverLet = d' ∧ Converges env e d

section

variable {n : Nat}

theorem recovered_list {es : List (Expr α)} (hes : ∀ e ∈ es, Recovered n e) {env : Env α}
    {ds' : List (Value α)}
    (h : evalListWith (call n) env.recoverLet (Expr.recoverLetList es) = .ok ds') :
    ∃ ds, ds.map Value.recoverLet = ds' ∧
      ∀ᶠ m in Filter.atTop, evalListWith (call m) env es = .ok ds := by
  induction es generalizing ds' with
  | nil =>
    simp only [Expr.recoverLetList, evalListWith, Except.ok.injEq] at h
    exact ⟨[], h, .of_forall fun _ => rfl⟩
  | cons e es ih =>
    obtain ⟨he, hes⟩ := List.forall_mem_cons.1 hes
    simp only [Expr.recoverLetList, evalListWith, Results.bind_eq_ok_iff, pure, Except.pure,
      Except.ok.injEq] at h
    obtain ⟨v', hv', vs', hvs', rfl⟩ := h
    obtain ⟨v, rfl, hv⟩ := he hv'
    obtain ⟨vs, rfl, hvs⟩ := ih hes hvs'
    refine ⟨v :: vs, rfl, ?_⟩
    filter_upwards [hv, hvs] with m hv hvs
    simp only [evalListWith, hv, hvs, bind, Except.bind, pure, Except.pure]

theorem recovered_seq {es : List (Expr α)} (hes : ∀ e ∈ es, Recovered n e) (t : α) :
    Recovered n (.seq es t) := by
  intro env d' h
  simp only [Expr.recoverLet, evalWith] at h
  unfold Converges
  simp only [evalWith]
  induction es with
  | nil => cases h
  | cons e es ih =>
    obtain ⟨he, hes⟩ := List.forall_mem_cons.1 hes
    cases es with
    | nil => exact he h
    | cons e' es =>
      simp only [Expr.recoverLetList, evalSeqWith, Results.bind_eq_ok_iff] at h
      obtain ⟨v', hv', h⟩ := h
      obtain ⟨v, _, hv⟩ := he hv'
      obtain ⟨d, hd, hrest⟩ := ih hes h
      refine ⟨d, hd, ?_⟩
      filter_upwards [hv, hrest] with m hv hrest
      simp only [evalSeqWith, hv, bind, Except.bind]
      exact hrest

theorem recovered_letIn {bs : List (Name × Expr α)} {body : Expr α}
    (hbs : ∀ b ∈ bs, Recovered n b.2) (hbody : Recovered n body) (t : α) :
    Recovered n (.letIn bs body t) := by
  intro env d' h
  have hsnd : (Expr.recoverLetBindings bs).map (·.2) = Expr.recoverLetList (bs.map (·.2)) := by
    rw [Expr.recoverLetBindings_eq_map, Expr.recoverLetList_eq_map, List.map_map, List.map_map]
    rfl
  rw [Expr.recoverLet, evalWith_letIn, hsnd, Expr.map_fst_recoverLetBindings,
    Results.bind_eq_ok_iff] at h
  obtain ⟨vs', hvs', h⟩ := h
  obtain ⟨vs, rfl, hvs⟩ := recovered_list (List.forall_mem_map.2 hbs) hvs'
  rw [← Env.bindAll_mapTrees] at h
  obtain ⟨d, hd, hrest⟩ := hbody h
  refine ⟨d, hd, ?_⟩
  filter_upwards [hvs, hrest] with m hvs hrest
  simp only [evalWith_letIn, hvs, bind, Except.bind]
  exact hrest

/-- The `let` that an applied lambda stands for is evaluated like a call with one more level. -/
theorem recovered_applied {params : List Name} {args : List (Expr α)} {body : Expr α}
    (hlen : params.length = args.length) (hbody : Recovered n body)
    (hargs : ∀ e ∈ args, Recovered n e) (t' t : α) :
    Recovered n (.app (.lambda params body t') args t) := by
  intro env d' h
  have hlen' : params.length = (Expr.recoverLetList args).length := by
    rw [Expr.length_recoverLetList, hlen]
  have hfst : (params.zip (Expr.recoverLetList args)).map (·.1) = params :=
    List.map_fst_zip (by omega)
  have hsnd : (params.zip (Expr.recoverLetList args)).map (·.2) = Expr.recoverLetList args :=
    List.map_snd_zip (by omega)
  rw [Expr.recoverLet_app_lambda body t' t hlen] at h
  rw [evalWith_letIn, hfst, hsnd, Results.bind_eq_ok_iff] at h
  obtain ⟨vs', hvs', h⟩ := h
  obtain ⟨vs, rfl, hvs⟩ := recovered_list hargs hvs'
  rw [← Env.bindAll_mapTrees] at h
  obtain ⟨d, hd, hrest⟩ := hbody h
  refine ⟨d, hd, ?_⟩
  obtain ⟨m, hrest⟩ := hrest.exists
  filter_upwards [hvs, Filter.eventually_ge_atTop (m + 1)] with k hvs hk
  obtain ⟨k, rfl⟩ : ∃ k', k = m + k' + 1 := ⟨k - m - 1, by omega⟩
  have hcount : params.length = vs.length := by rw [hlen, length_of_evalListWith hvs]
  simp only [evalWith, hvs, bind, Except.bind, call, if_pos hcount]
  exact evalWith_stable hrest (by simp) k

/-- What calls give with recovered `let` they give without. -/
def RecoveredCalls (α : Type) (n : Nat) : Prop :=
  ∀ {v : Value α} {vs : List (Value α)} {d' : Value α},
    call n v.recoverLet (vs.map Value.recoverLet) = .ok d' →
    ∃ d, d.recoverLet = d' ∧ ∀ᶠ m in Filter.atTop, call m v vs = .ok d

theorem recovered_app (hcalls : RecoveredCalls α n) {func : Expr α} {args : List (Expr α)}
    (hnot : ¬Expr.IsLet func args) (hfunc : Recovered n func) (hargs : ∀ e ∈ args, Recovered n e)
    (t : α) : Recovered n (.app func args t) := by
  intro env d' h
  rw [Expr.recoverLet_app_of_not hnot] at h
  simp only [evalWith, Results.bind_eq_ok_iff] at h
  obtain ⟨v', hv', vs', hvs', h⟩ := h
  obtain ⟨v, rfl, hv⟩ := hfunc hv'
  obtain ⟨vs, rfl, hvs⟩ := recovered_list hargs hvs'
  obtain ⟨d, hd, hcall⟩ := hcalls h
  refine ⟨d, hd, ?_⟩
  filter_upwards [hv, hvs, hcall] with m hv hvs hcall
  simp only [evalWith, hv, hvs, bind, Except.bind, hcall]

theorem recovered_of_calls (hcalls : RecoveredCalls α n) (e : Expr α) : Recovered n e := by
  induction e using Expr.induct_let with
  | lit v t =>
    intro env d' h
    exact ⟨.lit v, Except.ok.inj h, .of_forall fun _ => rfl⟩
  | var x t =>
    intro env d' h
    have hlookup : (env.lookup x).map Value.recoverLet = .ok d' := by
      rw [← Env.lookup_mapTrees]
      exact h
    obtain ⟨d, hd, rfl⟩ := Results.map_eq_ok_iff.1 hlookup
    exact ⟨d, rfl, .of_forall fun _ => hd⟩
  | cond test yes no t htest hyes hno =>
    intro env d' h
    simp only [Expr.recoverLet, evalWith, Results.bind_eq_ok_iff] at h
    obtain ⟨v', hv', h⟩ := h
    obtain ⟨v, rfl, hv⟩ := htest hv'
    rw [Value.isFalse_mapTrees] at h
    cases hfalse : v.isFalse with
    | true =>
      rw [hfalse] at h
      obtain ⟨d, hd, hbranch⟩ := hno h
      refine ⟨d, hd, ?_⟩
      filter_upwards [hv, hbranch] with m hv hbranch
      simp only [evalWith, hv, bind, Except.bind, hfalse, if_true, hbranch]
    | false =>
      rw [hfalse] at h
      obtain ⟨d, hd, hbranch⟩ := hyes h
      refine ⟨d, hd, ?_⟩
      filter_upwards [hv, hbranch] with m hv hbranch
      simp [evalWith, hv, bind, Except.bind, hfalse, hbranch]
  | lambda params body t _ =>
    intro env d' h
    exact ⟨.closure params body env, Except.ok.inj h, .of_forall fun _ => rfl⟩
  | assign x value t _ =>
    intro env d' h
    cases h
  | applied params body t' args t hlen hbody hargs =>
    exact recovered_applied hlen hbody hargs t' t
  | app func args t hnot hfunc hargs => exact recovered_app hcalls hnot hfunc hargs t
  | letIn bindings body t hbindings hbody => exact recovered_letIn hbindings hbody t
  | letrec bindings body t _ _ =>
    intro env d' h
    cases h
  | fix members body t _ hbody =>
    intro env d' h
    have henv : Env.recoverLet (.group members env) =
        .group (Expr.recoverLetMembers members) env.recoverLet := by
      rw [Expr.recoverLetMembers_eq_map]
      rfl
    simp only [Expr.recoverLet, evalWith] at h
    rw [← henv] at h
    exact hbody h
  | seq items t hitems => exact recovered_seq hitems t

end

theorem call_prim (n : Nat) (p : Primitive) (vs : List (Value α)) :
    call n (.prim p) vs = applyPrimitive p vs := by
  cases n <;> rfl

theorem recovered_prim {n : Nat} {p : Primitive} {vs : List (Value α)} {d' : Value α}
    (h : call n (.prim p) (vs.map Value.recoverLet) = .ok d') :
    ∃ d, d.recoverLet = d' ∧ ∀ᶠ m in Filter.atTop, call m (.prim p) vs = .ok d := by
  rw [call_prim, applyPrimitive_mapTrees, Results.map_eq_ok_iff] at h
  obtain ⟨d, hd, hd'⟩ := h
  exact ⟨d, hd', .of_forall fun m => (call_prim m p vs).trans hd⟩

theorem recoveredCalls (n : Nat) : RecoveredCalls α n := by
  induction n with
  | zero =>
    intro v vs d' h
    cases v with
    | lit v => cases h
    | prim p => exact recovered_prim h
    | closure params body env => cases h
  | succ n ih =>
    intro v vs d' h
    cases v with
    | lit v => cases h
    | prim p => exact recovered_prim h
    | closure params body env =>
      simp only [Value.recoverLet, Value.mapTrees, call, List.length_map] at h
      split at h
      · next hlen =>
        rw [← Env.bindAll_mapTrees] at h
        obtain ⟨d, hd, hbody⟩ := recovered_of_calls ih body h
        obtain ⟨m, hbody⟩ := hbody.exists
        refine ⟨d, hd, ?_⟩
        filter_upwards [Filter.eventually_ge_atTop (m + 1)] with k hk
        obtain ⟨k, rfl⟩ : ∃ k', k = m + k' + 1 := ⟨k - m - 1, by omega⟩
        simp only [call, if_pos hlen]
        exact evalWith_stable hbody (by simp) k
      · cases h

/-- Without a limit on the nesting of calls, recovering `let` changes no result but for the trees
in it. -/
theorem converges_recoverLet_iff (env : Env α) (e : Expr α) (d' : Value α) :
    Converges env.recoverLet e.recoverLet d' ↔ ∃ d, d.recoverLet = d' ∧ Converges env e d := by
  constructor
  · intro h
    obtain ⟨n, hn⟩ := h.exists
    exact recovered_of_calls (recoveredCalls n) e hn
  · rintro ⟨d, rfl, h⟩
    obtain ⟨n, hn⟩ := h.exists
    rcases carries_recoverLet n e env with ⟨_, hdeep⟩ | heq
    · exact nomatch hn.symm.trans hdeep
    · rw [hn] at heq
      exact converges_of_ok heq

theorem converges_mapTag_iff (g : α → β) (env : Env α) (e : Expr α) (d' : Value β) :
    Converges (env.mapTrees g (Expr.mapTag g)) (e.mapTag g) d' ↔
      ∃ d, d.mapTrees g (Expr.mapTag g) = d' ∧ Converges env e d := by
  constructor
  · intro h
    obtain ⟨n, hn⟩ := h.exists
    rw [evalWith_mapTag, Results.map_eq_ok_iff] at hn
    obtain ⟨d, hd, hd'⟩ := hn
    exact ⟨d, hd', converges_of_ok hd⟩
  · rintro ⟨d, rfl, h⟩
    obtain ⟨n, hn⟩ := h.exists
    have hmap := evalWith_mapTag g n env e
    rw [hn] at hmap
    exact converges_of_ok hmap

/-! ### Evaluation of whole programs -/

/-- One outcome for two forms of a program: the same literal, the same primitive, procedures with
the same parameters, or the same error. -/
inductive SameOutcome : Except Error (Value α) → Except Error (Value α) → Prop where
  | lit (v : Literal) : SameOutcome (.ok (.lit v)) (.ok (.lit v))
  | prim (p : Primitive) : SameOutcome (.ok (.prim p)) (.ok (.prim p))
  | closure (params : List Name) (body body' : Expr α) (env env' : Env α) :
      SameOutcome (.ok (.closure params body env)) (.ok (.closure params body' env'))
  | error (e : Error) : SameOutcome (.error e) (.error e)

/-- What is shown of an outcome does not depend on the trees in it. -/
theorem sameOutcome_mapTrees (g : α → α) (h : Expr α → Expr α) (r : Except Error (Value α)) :
    SameOutcome r (r.map (Value.mapTrees g h)) := by
  cases r with
  | error e => exact .error e
  | ok v =>
    cases v with
    | lit v => exact .lit v
    | prim p => exact .prim p
    | closure params body env => exact .closure params body _ env _

end MiniScheme.Eval

namespace MiniScheme.Expr

open Eval

variable {α : Type}

/-- A program that is not cut off has the same outcome with recovered `let`, and one that is cut
off with recovered `let` is cut off without. -/
theorem eval_recoverLet_sameOutcome (e : Expr α) :
    (e.eval ≠ .error tooDeep → SameOutcome e.eval e.recoverLet.eval) ∧
      (e.recoverLet.eval = .error tooDeep → e.eval = .error tooDeep) := by
  have hcarries : Carries True Value.recoverLet e.eval e.recoverLet.eval :=
    carries_recoverLet maxCallDepth e .empty
  rcases hcarries with ⟨_, hdeep⟩ | heq
  · exact ⟨fun hnot => absurd hdeep hnot, fun _ => hdeep⟩
  · refine ⟨fun _ => ?_, fun hdeep => ?_⟩
    · rw [heq]
      exact sameOutcome_mapTrees id Expr.recoverLet e.eval
    · rw [heq] at hdeep
      exact Results.map_eq_error_iff.1 hdeep

/-- A lambda applied directly, whose value is a procedure with another one inside. -/
def curried : Expr Unit :=
  .app (.lambda ["x"] (.lambda ["y"]
    (.app (.lambda ["z"] (.app (.var "-" ()) [.var "x" (), .var "z" ()] ()) ())
      [.var "y" ()] ()) ()) ()) [.lit (.int 1) ()] ()

theorem eval_recoverLet_curried : curried.eval ≠ .error tooDeep ∧
    ∃ body env body' env', curried.eval = .ok (.closure ["y"] body env) ∧
      curried.recoverLet.eval = .ok (.closure ["y"] body' env') := by
  have heval : ∃ body env, curried.eval = .ok (.closure ["y"] body env) := ⟨_, _, rfl⟩
  obtain ⟨body, env, heval⟩ := heval
  have hnot : curried.eval ≠ .error tooDeep := by
    rw [heval]
    exact nofun
  have hsame := (eval_recoverLet_sameOutcome curried).1 hnot
  rw [heval] at hsame
  generalize curried.recoverLet.eval = outcome at hsame ⊢
  cases hsame with
  | closure _ _ body' _ env' => exact ⟨hnot, body, env, body', env', heval, rfl⟩

end MiniScheme.Expr
