import MiniScheme.Expr.Rename
import MiniScheme.Proofs.Trees

/-!
# Parts of trees

What occurs in a tree, and what holds at every node of it. Every pass before code generation
makes the nodes of its result from nodes of its input, so it takes trees without empty sequences
to trees without empty sequences, and after `letrec` has become `fix` no `letrec` is left.
-/

namespace MiniScheme.Expr

variable {α β : Type}

inductive Occurs : Expr α → Expr α → Prop
  | self (e : Expr α) : Occurs e e
  | inside {e' d e : Expr α} (hd : d ∈ e.children) (h : Occurs e' d) : Occurs e' e

def Everywhere (P : Expr α → Prop) (e : Expr α) : Prop :=
  ∀ e', Occurs e' e → P e'

theorem everywhere_iff {P : Expr α → Prop} {e : Expr α} :
    Everywhere P e ↔ P e ∧ ∀ d ∈ e.children, Everywhere P d := by
  constructor
  · intro h
    exact ⟨h e (.self e), fun d hd e' he' => h e' (.inside hd he')⟩
  · rintro ⟨hroot, hbelow⟩ e' he'
    cases he' with
    | self => exact hroot
    | inside hd he' => exact hbelow _ hd e' he'

theorem Everywhere.root {P : Expr α → Prop} {e : Expr α} (h : Everywhere P e) : P e :=
  (everywhere_iff.1 h).1

theorem Everywhere.child {P : Expr α → Prop} {d e : Expr α} (h : Everywhere P e)
    (hd : d ∈ e.children) : Everywhere P d :=
  (everywhere_iff.1 h).2 d hd

section

variable {P : Expr α → Prop} {e : Expr α} {t : α}

@[simp] theorem everywhere_lit {v : Literal} : Everywhere P (lit v t) ↔ P (lit v t) := by
  rw [everywhere_iff]
  simp [children]

@[simp] theorem everywhere_var {x : Name} : Everywhere P (var x t) ↔ P (var x t) := by
  rw [everywhere_iff]
  simp [children]

@[simp] theorem everywhere_cond {test yes no : Expr α} : Everywhere P (cond test yes no t) ↔
    P (cond test yes no t) ∧ Everywhere P test ∧ Everywhere P yes ∧ Everywhere P no := by
  rw [everywhere_iff]
  simp [children]

@[simp] theorem everywhere_lambda {params : List Name} : Everywhere P (lambda params e t) ↔
    P (lambda params e t) ∧ Everywhere P e := by
  rw [everywhere_iff]
  simp [children]

@[simp] theorem everywhere_assign {x : Name} : Everywhere P (assign x e t) ↔
    P (assign x e t) ∧ Everywhere P e := by
  rw [everywhere_iff]
  simp [children]

@[simp] theorem everywhere_app {args : List (Expr α)} : Everywhere P (app e args t) ↔
    P (app e args t) ∧ Everywhere P e ∧ ∀ d ∈ args, Everywhere P d := by
  rw [everywhere_iff]
  simp [children]

@[simp] theorem everywhere_letIn {bs : List (Name × Expr α)} : Everywhere P (letIn bs e t) ↔
    P (letIn bs e t) ∧ (∀ b ∈ bs, Everywhere P b.2) ∧ Everywhere P e := by
  rw [everywhere_iff, children, List.forall_mem_append, List.forall_mem_map,
    List.forall_mem_singleton]

@[simp] theorem everywhere_letrec {bs : List (Name × Expr α)} : Everywhere P (letrec bs e t) ↔
    P (letrec bs e t) ∧ (∀ b ∈ bs, Everywhere P b.2) ∧ Everywhere P e := by
  rw [everywhere_iff, children, List.forall_mem_append, List.forall_mem_map,
    List.forall_mem_singleton]

@[simp] theorem everywhere_fix {ms : List (Member α (Expr α))} : Everywhere P (fix ms e t) ↔
    P (fix ms e t) ∧ (∀ m ∈ ms, Everywhere P m.body) ∧ Everywhere P e := by
  rw [everywhere_iff, children, List.forall_mem_append, List.forall_mem_map,
    List.forall_mem_singleton]

@[simp] theorem everywhere_seq {items : List (Expr α)} : Everywhere P (seq items t) ↔
    P (seq items t) ∧ ∀ d ∈ items, Everywhere P d := by
  rw [everywhere_iff, children]

end

/-- Induction over all that is directly below the root. -/
theorem induct_children {motive : Expr α → Prop}
    (node : ∀ e, (∀ d ∈ e.children, motive d) → motive e) (e : Expr α) : motive e := by
  induction e with
  | lit v t => exact node _ nofun
  | var x t => exact node _ nofun
  | cond test yes no t htest hyes hno => exact node _ (by simp [children, htest, hyes, hno])
  | lambda params body t hbody => exact node _ (by simp [children, hbody])
  | assign x value t hvalue => exact node _ (by simp [children, hvalue])
  | app func args t hfunc hargs => exact node _ (List.forall_mem_cons.2 ⟨hfunc, hargs⟩)
  | letIn bindings body t hbindings hbody =>
    refine node _ (List.forall_mem_append.2 ⟨List.forall_mem_map.2 hbindings, ?_⟩)
    simpa using hbody
  | letrec bindings body t hbindings hbody =>
    refine node _ (List.forall_mem_append.2 ⟨List.forall_mem_map.2 hbindings, ?_⟩)
    simpa using hbody
  | fix members body t hmembers hbody =>
    refine node _ (List.forall_mem_append.2 ⟨List.forall_mem_map.2 hmembers, ?_⟩)
    simpa using hbody
  | seq items t hitems => exact node _ hitems

/-! ### Children -/

section

variable {e : Expr α} {t : α}

theorem mem_children_of_letIn {bs : List (Name × Expr α)} {b : Name × Expr α} (hb : b ∈ bs) :
    b.2 ∈ (letIn bs e t).children :=
  List.mem_append_left _ (List.mem_map_of_mem hb)

theorem mem_children_of_letrec {bs : List (Name × Expr α)} {b : Name × Expr α} (hb : b ∈ bs) :
    b.2 ∈ (letrec bs e t).children :=
  List.mem_append_left _ (List.mem_map_of_mem hb)

theorem mem_children_of_fix {ms : List (Member α (Expr α))} {m : Member α (Expr α)}
    (hm : m ∈ ms) : m.body ∈ (fix ms e t).children :=
  List.mem_append_left _ (List.mem_map_of_mem hm)

theorem body_mem_children_letIn (bs : List (Name × Expr α)) : e ∈ (letIn bs e t).children :=
  List.mem_append_right _ (List.mem_singleton_self e)

theorem body_mem_children_letrec (bs : List (Name × Expr α)) : e ∈ (letrec bs e t).children :=
  List.mem_append_right _ (List.mem_singleton_self e)

theorem body_mem_children_fix (ms : List (Member α (Expr α))) : e ∈ (fix ms e t).children :=
  List.mem_append_right _ (List.mem_singleton_self e)

end

theorem children_mapTag (f : α → β) (e : Expr α) :
    (e.mapTag f).children = e.children.map (mapTag f) := by
  cases e <;> simp [mapTag, children, mapTagList_eq_map, mapTagBindings_eq_map,
    mapTagMembers_eq_map]

theorem mem_renameListIn {r : Renaming} {es : List (Expr α)} {n : Nat} {d : Expr α}
    (h : d ∈ (renameListIn r es n).1) : ∃ e ∈ es, ∃ k, d = (renameIn r e k).1 := by
  induction es generalizing n with
  | nil => simp [renameListIn] at h
  | cons e es ih =>
    rcases List.mem_cons.1 h with rfl | h
    · exact ⟨e, List.mem_cons_self .., n, rfl⟩
    · obtain ⟨e', he', k, rfl⟩ := ih h
      exact ⟨e', List.mem_cons_of_mem _ he', k, rfl⟩

theorem mem_renameMembersIn {r : Renaming} {ms : List (Member α (Expr α))} {n : Nat}
    {d : Expr α} (h : d ∈ (renameMembersIn r ms n).1.map (·.body)) :
    ∃ e ∈ ms.map (·.body), ∃ r' k, d = (renameIn r' e k).1 := by
  induction ms generalizing n with
  | nil => simp [renameMembersIn] at h
  | cons m ms ih =>
    rcases List.mem_cons.1 h with rfl | h
    · exact ⟨m.body, List.mem_cons_self .., _, _, rfl⟩
    · obtain ⟨e', he', r', k, rfl⟩ := ih h
      exact ⟨e', List.mem_cons_of_mem _ he', r', k, rfl⟩

theorem map_snd_freshBindings {β : Type} (bs : List (Name × β)) (n : Nat) :
    (freshBindings bs n).map (·.2) = bs.map (·.2) := by
  induction bs generalizing n with
  | nil => rfl
  | cons b bs ih => simp only [freshBindings, List.map_cons, ih]

/-- The values of bindings are renamed like any list of trees. -/
theorem renameBindingsIn_eq (r : Renaming) (bs : List (Name × Expr α)) (n : Nat) :
    (renameBindingsIn r bs n).1.map (·.2) = (renameListIn r (bs.map (·.2)) n).1 ∧
      (renameBindingsIn r bs n).2 = (renameListIn r (bs.map (·.2)) n).2 := by
  induction bs generalizing n with
  | nil => exact ⟨rfl, rfl⟩
  | cons b bs ih =>
    have hrest := ih (renameIn r b.2 n).2
    simp only [renameBindingsIn, renameListIn, List.map_cons, hrest.1, hrest.2, and_self]

theorem map_body_freshMembers {γ : Type} (ms : List (Member α γ)) (n : Nat) :
    (freshMembers ms n).map (·.body) = ms.map (·.body) := by
  induction ms generalizing n with
  | nil => rfl
  | cons m ms ih => simp only [freshMembers, List.map_cons, ih]

/-- Below the root of a renamed tree stand renamed children. -/
theorem mem_children_renameIn {r : Renaming} {e d : Expr α} {n : Nat}
    (h : d ∈ (renameIn r e n).1.children) :
    ∃ e' ∈ e.children, ∃ r' k, d = (renameIn r' e' k).1 := by
  cases e with
  | lit v t => simp [renameIn, children] at h
  | var x t => simp [renameIn, children] at h
  | cond test yes no t =>
    simp only [renameIn, children, List.mem_cons, List.not_mem_nil, or_false] at h
    rcases h with rfl | rfl | rfl
    · exact ⟨test, by simp [children], r, _, rfl⟩
    · exact ⟨yes, by simp [children], r, _, rfl⟩
    · exact ⟨no, by simp [children], r, _, rfl⟩
  | lambda params body t =>
    obtain rfl := List.mem_singleton.1 h
    exact ⟨body, List.mem_singleton_self _, _, _, rfl⟩
  | assign x value t =>
    obtain rfl := List.mem_singleton.1 h
    exact ⟨value, List.mem_singleton_self _, _, _, rfl⟩
  | app func args t =>
    rcases List.mem_cons.1 h with rfl | h
    · exact ⟨func, List.mem_cons_self .., r, _, rfl⟩
    · obtain ⟨e', he', k, rfl⟩ := mem_renameListIn h
      exact ⟨e', List.mem_cons_of_mem _ he', r, k, rfl⟩
  | letIn bindings body t =>
    simp only [renameIn, children, map_snd_freshBindings, (renameBindingsIn_eq ..).1,
      List.mem_append, List.mem_singleton] at h
    rcases h with h | rfl
    · obtain ⟨e', he', k, rfl⟩ := mem_renameListIn h
      exact ⟨e', List.mem_append_left _ he', r, k, rfl⟩
    · exact ⟨body, body_mem_children_letIn _, _, _, rfl⟩
  | letrec bindings body t =>
    simp only [renameIn, children, map_snd_freshBindings, (renameBindingsIn_eq ..).1,
      List.mem_append, List.mem_singleton] at h
    rcases h with h | rfl
    · obtain ⟨e', he', k, rfl⟩ := mem_renameListIn h
      exact ⟨e', List.mem_append_left _ he', _, k, rfl⟩
    · exact ⟨body, body_mem_children_letrec _, _, _, rfl⟩
  | fix members body t =>
    simp only [renameIn, children, map_body_freshMembers, List.mem_append,
      List.mem_singleton] at h
    rcases h with h | rfl
    · obtain ⟨e', he', r', k, rfl⟩ := mem_renameMembersIn h
      exact ⟨e', List.mem_append_left _ he', r', k, rfl⟩
    · exact ⟨body, body_mem_children_fix _, _, _, rfl⟩
  | seq items t =>
    obtain ⟨e', he', k, rfl⟩ := mem_renameListIn h
    exact ⟨e', he', r, k, rfl⟩

theorem recoverLet_app_cases (func : Expr α) (args : List (Expr α)) (t : α) :
    (app func args t).recoverLet = app func.recoverLet (recoverLetList args) t ∨
      ∃ params body t', func = lambda params body t' ∧ (app func args t).recoverLet =
        letIn (params.zip (recoverLetList args)) body.recoverLet t := by
  by_cases h : ∃ params body t', func = lambda params body t' ∧ params.length = args.length
  · obtain ⟨params, body, t', rfl, hlen⟩ := h
    exact .inr ⟨params, body, t', rfl, recoverLet_app_lambda body t' t hlen⟩
  · refine .inl (recoverLet_app t fun params body t' hfunc hlen => ?_)
    exact h ⟨params, body, t', hfunc, hlen⟩

/-- Below the root of a tree with recovered `let` stand trees with recovered `let`: its children
or, for an applied lambda, the body of the lambda. -/
theorem mem_children_recoverLet {e d : Expr α} (h : d ∈ e.recoverLet.children) :
    ∃ e' ∈ e.children, d = e'.recoverLet ∨ d ∈ e'.recoverLet.children := by
  cases e with
  | lit v t => simp [recoverLet, children] at h
  | var x t => simp [recoverLet, children] at h
  | cond test yes no t =>
    simp only [recoverLet, children, List.mem_cons, List.not_mem_nil, or_false] at h
    rcases h with rfl | rfl | rfl
    · exact ⟨test, by simp [children], .inl rfl⟩
    · exact ⟨yes, by simp [children], .inl rfl⟩
    · exact ⟨no, by simp [children], .inl rfl⟩
  | lambda params body t =>
    obtain rfl := List.mem_singleton.1 h
    exact ⟨body, List.mem_singleton_self _, .inl rfl⟩
  | assign x value t =>
    obtain rfl := List.mem_singleton.1 h
    exact ⟨value, List.mem_singleton_self _, .inl rfl⟩
  | app func args t =>
    rcases recoverLet_app_cases func args t with heq | ⟨params, body, t', rfl, heq⟩
    · rw [heq, children, recoverLetList_eq_map] at h
      obtain ⟨e', he', rfl⟩ := List.mem_map.1 (show d ∈ (func :: args).map recoverLet from h)
      exact ⟨e', he', .inl rfl⟩
    · rw [heq, children, List.mem_append, List.mem_singleton] at h
      rcases h with h | rfl
      · obtain ⟨b, hb, rfl⟩ := List.mem_map.1 h
        have hmem := (List.of_mem_zip hb).2
        rw [recoverLetList_eq_map] at hmem
        obtain ⟨e', he', heq'⟩ := List.mem_map.1 hmem
        exact ⟨e', List.mem_cons_of_mem _ he', .inl heq'.symm⟩
      · exact ⟨_, List.mem_cons_self .., .inr (List.mem_singleton_self _)⟩
  | letIn bindings body t =>
    simp only [recoverLet, children, recoverLetBindings_eq_map, List.map_map, List.mem_append,
      List.mem_singleton] at h
    rcases h with h | rfl
    · obtain ⟨b, hb, rfl⟩ := List.mem_map.1 h
      exact ⟨b.2, mem_children_of_letIn hb, .inl rfl⟩
    · exact ⟨body, body_mem_children_letIn _, .inl rfl⟩
  | letrec bindings body t =>
    simp only [recoverLet, children, recoverLetBindings_eq_map, List.map_map, List.mem_append,
      List.mem_singleton] at h
    rcases h with h | rfl
    · obtain ⟨b, hb, rfl⟩ := List.mem_map.1 h
      exact ⟨b.2, mem_children_of_letrec hb, .inl rfl⟩
    · exact ⟨body, body_mem_children_letrec _, .inl rfl⟩
  | fix members body t =>
    simp only [recoverLet, children, recoverLetMembers_eq_map, List.map_map, List.mem_append,
      List.mem_singleton] at h
    rcases h with h | rfl
    · obtain ⟨m, hm, rfl⟩ := List.mem_map.1 h
      exact ⟨m.body, mem_children_of_fix hm, .inl rfl⟩
    · exact ⟨body, body_mem_children_fix _, .inl rfl⟩
  | seq items t =>
    simp only [recoverLet, children, recoverLetList_eq_map] at h
    obtain ⟨e', he', rfl⟩ := List.mem_map.1 h
    exact ⟨e', he', .inl rfl⟩

/-- A child of a tree beside a child of the fixed tree: the child is fixed, or it is a lambda bound
by a `letrec`, of which the group keeps the fixed body. -/
def FixedChild (c d : Expr α) : Prop :=
  c.fixLetrec.result = .ok d ∨ ∃ params t, c.fixLetrec.result = .ok (lambda params d t)

theorem children_fixLetrec {e e' : Expr α} (hok : e.fixLetrec.result = .ok e') :
    List.Forall₂ FixedChild e.children e'.children := by
  cases e with
  | lit v t =>
    simp only [fixLetrec, Emit.result_pure, Except.ok.injEq] at hok
    exact hok ▸ .nil
  | var x t =>
    simp only [fixLetrec, Emit.result_pure, Except.ok.injEq] at hok
    exact hok ▸ .nil
  | cond test yes no t =>
    simp only [fixLetrec, Emit.result_bind_eq_ok_iff, Emit.result_pure, Except.ok.injEq] at hok
    obtain ⟨test', htest, yes', hyes, no', hno, rfl⟩ := hok
    exact .cons (.inl htest) (.cons (.inl hyes) (.cons (.inl hno) .nil))
  | lambda params body t =>
    simp only [fixLetrec, Emit.result_bind_eq_ok_iff, Emit.result_pure, Except.ok.injEq] at hok
    obtain ⟨body', hbody, rfl⟩ := hok
    exact .cons (.inl hbody) .nil
  | assign x value t =>
    simp only [fixLetrec, Emit.result_bind_eq_ok_iff, Emit.result_pure, Except.ok.injEq] at hok
    obtain ⟨value', hvalue, rfl⟩ := hok
    exact .cons (.inl hvalue) .nil
  | app func args t =>
    simp only [fixLetrec, Emit.result_bind_eq_ok_iff, Emit.result_pure, Except.ok.injEq] at hok
    obtain ⟨func', hfunc, args', hargs, rfl⟩ := hok
    exact .cons (.inl hfunc) ((fixLetrecList_ok hargs).imp fun _ _ h => .inl h)
  | letIn bindings body t =>
    simp only [fixLetrec, Emit.result_bind_eq_ok_iff, Emit.result_pure, Except.ok.injEq] at hok
    obtain ⟨bindings', hbindings, body', hbody, rfl⟩ := hok
    refine List.rel_append ?_ (.cons (.inl hbody) .nil)
    rw [List.forall₂_map_left_iff, List.forall₂_map_right_iff]
    exact (fixLetrecBindings_ok hbindings).imp fun _ _ h => .inl h.2
  | letrec bindings body t =>
    obtain ⟨ms, body', hms, hbody, rfl⟩ := fixLetrec_letrec_ok hok
    refine List.rel_append ?_ (.cons (.inl hbody) .nil)
    rw [List.forall₂_map_left_iff, List.forall₂_map_right_iff]
    refine (membersOfBindings_ok hms).imp fun b m h => ?_
    obtain ⟨_, init, hinit, hfixed⟩ := h
    exact .inr ⟨m.params, m.tag, hinit ▸ fixLetrec_lambda m.tag hfixed⟩
  | fix members body t =>
    simp only [fixLetrec, Emit.result_bind_eq_ok_iff, Emit.result_pure, Except.ok.injEq] at hok
    obtain ⟨members', hmembers, body', hbody, rfl⟩ := hok
    refine List.rel_append ?_ (.cons (.inl hbody) .nil)
    rw [List.forall₂_map_left_iff, List.forall₂_map_right_iff]
    exact (fixLetrecMembers_ok hmembers).imp fun _ _ h => .inl h.2.2
  | seq items t =>
    simp only [fixLetrec, Emit.result_bind_eq_ok_iff, Emit.result_pure, Except.ok.injEq] at hok
    obtain ⟨items', hitems, rfl⟩ := hok
    exact (fixLetrecList_ok hitems).imp fun _ _ h => .inl h

/-! ### Sequences and `letrec` -/

theorem forall_mem_of_forall₂ {γ δ : Type} {R : γ → δ → Prop} {q : δ → Prop} {xs : List γ}
    {ys : List δ} (hR : List.Forall₂ R xs ys) (h : ∀ x ∈ xs, ∀ y, R x y → q y) :
    ∀ y ∈ ys, q y := by
  induction hR with
  | nil => exact nofun
  | cons hxy _ ih =>
    obtain ⟨hfirst, hrest⟩ := List.forall_mem_cons.1 h
    exact List.forall_mem_cons.2 ⟨hfirst _ hxy, ih hrest⟩

/-- No sequence of the tree is empty. -/
def Full (e : Expr α) : Prop :=
  Everywhere (fun d => ∀ t, d ≠ seq [] t) e

/-- No sequence of the tree is empty, and every `letrec` has become a `fix`. -/
def Lowered (e : Expr α) : Prop :=
  Everywhere (fun d => (∀ t, d ≠ seq [] t) ∧ ∀ bs body t, d ≠ letrec bs body t) e

theorem Lowered.child {d e : Expr α} (h : e.Lowered) (hd : d ∈ e.children) : d.Lowered :=
  Everywhere.child h hd

theorem full_renameIn {e : Expr α} (h : e.Full) (r : Renaming) (n : Nat) :
    (renameIn r e n).1.Full := by
  induction e using induct_children generalizing r n with
  | node e ih =>
    refine everywhere_iff.2 ⟨fun t => ?_, fun d hd => ?_⟩
    · cases e with
      | seq items t' =>
        cases items with
        | nil => exact absurd rfl (h.root t')
        | cons item items => simp [renameIn, renameListIn]
      | _ => simp [renameIn]
    · obtain ⟨e', he', r', k, rfl⟩ := mem_children_renameIn hd
      exact ih e' he' (h.child he') r' k

theorem full_recoverLet {e : Expr α} (h : e.Full) : e.recoverLet.Full := by
  induction e using induct_children with
  | node e ih =>
    refine everywhere_iff.2 ⟨fun t => ?_, fun d hd => ?_⟩
    · cases e with
      | seq items t' =>
        cases items with
        | nil => exact absurd rfl (h.root t')
        | cons item items => simp [recoverLet, recoverLetList]
      | app func args t' =>
        rcases recoverLet_app_cases func args t' with heq | ⟨params, body, t'', _, heq⟩
        · simp [heq]
        · simp [heq]
      | _ => simp [recoverLet]
    · obtain ⟨e', he', rfl | hd⟩ := mem_children_recoverLet hd
      · exact ih e' he' (h.child he')
      · exact (ih e' he' (h.child he')).child hd

/-- What fixing makes hold at the root it makes hold at every node. -/
theorem everywhere_fixLetrec {P Q : Expr α → Prop}
    (hroot : ∀ e e', e.fixLetrec.result = .ok e' → P e → Q e') {e e' : Expr α}
    (hok : e.fixLetrec.result = .ok e') (h : Everywhere P e) : Everywhere Q e' := by
  induction e using induct_children generalizing e' with
  | node e ih =>
    refine everywhere_iff.2 ⟨hroot e e' hok h.root, ?_⟩
    refine forall_mem_of_forall₂ (children_fixLetrec hok) fun c hc d hd => ?_
    rcases hd with hd | ⟨params, t, hd⟩
    · exact ih c hc hd (h.child hc)
    · exact (ih c hc hd (h.child hc)).child (List.mem_singleton_self d)

theorem ne_letrec_of_fixLetrec {e e' : Expr α} (hok : e.fixLetrec.result = .ok e') :
    ∀ bs body t, e' ≠ letrec bs body t := by
  rintro bs body t rfl
  cases e <;> simp [fixLetrec, Emit.result_bind_eq_ok_iff] at hok

/-- A fixed sequence has as many items as before. -/
theorem eq_seq_nil_of_fixLetrec {e : Expr α} {t : α} (hok : e.fixLetrec.result = .ok (seq [] t)) :
    e = seq [] t := by
  have hchildren := children_fixLetrec hok
  cases e with
  | seq items t' =>
    simp only [fixLetrec, Emit.result_bind_eq_ok_iff, Emit.result_pure, Except.ok.injEq,
      seq.injEq] at hok
    obtain ⟨_, _, _, rfl⟩ := hok
    have hnil : items = [] := List.forall₂_nil_right_iff.1 hchildren
    rw [hnil]
  | _ => simp [fixLetrec, Emit.result_bind_eq_ok_iff] at hok

theorem lowered_fixLetrec {e e' : Expr α} (hok : e.fixLetrec.result = .ok e') (h : e.Full) :
    e'.Lowered := by
  refine everywhere_fixLetrec (fun d d' hd hfull => ⟨?_, ne_letrec_of_fixLetrec hd⟩) hok h
  rintro t rfl
  exact hfull t (eq_seq_nil_of_fixLetrec hd)

theorem everywhere_mapTag {P : Expr β → Prop} (f : α → β) {e : Expr α} :
    Everywhere P (e.mapTag f) ↔ Everywhere (fun d => P (d.mapTag f)) e := by
  induction e using induct_children with
  | node e ih =>
    rw [everywhere_iff, everywhere_iff, children_mapTag, List.forall_mem_map]
    constructor
    · exact fun h => ⟨h.1, fun d hd => (ih d hd).1 (h.2 d hd)⟩
    · exact fun h => ⟨h.1, fun d hd => (ih d hd).2 (h.2 d hd)⟩

theorem lowered_mapTag (f : α → β) {e : Expr α} : (e.mapTag f).Lowered ↔ e.Lowered := by
  have hseq (d : Expr α) : (∀ t, d.mapTag f ≠ seq [] t) ↔ ∀ t, d ≠ seq [] t := by
    cases d with
    | seq items t => cases items <;> simp [mapTag, mapTagList]
    | _ => simp [mapTag]
  have hletrec (d : Expr α) :
      (∀ bs body t, d.mapTag f ≠ letrec bs body t) ↔ ∀ bs body t, d ≠ letrec bs body t := by
    cases d <;> simp [mapTag]
  unfold Lowered
  simp only [everywhere_mapTag, hseq, hletrec]

theorem lowered_tagged {e : Expr α} (h : e.Lowered) : e.tagged.Lowered := by
  rw [← lowered_mapTag fun _ => (), ← untag, untag_tagged, untag, lowered_mapTag]
  exact h

end MiniScheme.Expr
