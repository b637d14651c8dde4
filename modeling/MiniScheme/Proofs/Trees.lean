import Mathlib.Data.List.Forall2
import MiniScheme.Expr.Let
import MiniScheme.Expr.Letrec
import MiniScheme.Expr.Tag

/-!
# Induction on trees

A property of all trees is proved for a node from the same property of everything directly below
it, whether it stands alone, in a list, in bindings or in the members of a group.
-/

namespace MiniScheme.Expr

variable {α : Type}

@[elab_as_elim, induction_eliminator]
theorem induct {motive : Expr α → Prop} (lit : ∀ v t, motive (.lit v t))
    (var : ∀ x t, motive (.var x t))
    (cond : ∀ test yes no t, motive test → motive yes → motive no →
      motive (.cond test yes no t))
    (lambda : ∀ params body t, motive body → motive (.lambda params body t))
    (assign : ∀ x value t, motive value → motive (.assign x value t))
    (app : ∀ func args t, motive func → (∀ e ∈ args, motive e) → motive (.app func args t))
    (letIn : ∀ bindings body t, (∀ b ∈ bindings, motive b.2) → motive body →
      motive (.letIn bindings body t))
    (letrec : ∀ bindings body t, (∀ b ∈ bindings, motive b.2) → motive body →
      motive (.letrec bindings body t))
    (fix : ∀ members body t, (∀ m ∈ members, motive m.body) → motive body →
      motive (.fix members body t))
    (seq : ∀ items t, (∀ e ∈ items, motive e) → motive (.seq items t)) (e : Expr α) :
    motive e :=
  @Expr.rec α motive (fun es => ∀ e ∈ es, motive e) (fun bs => ∀ b ∈ bs, motive b.2)
    (fun ms => ∀ m ∈ ms, motive m.body) (fun b => motive b.2) (fun m => motive m.body)
    lit var cond lambda assign app letIn letrec fix seq
    nofun (fun _ _ h hs => List.forall_mem_cons.2 ⟨h, hs⟩)
    nofun (fun _ _ h hs => List.forall_mem_cons.2 ⟨h, hs⟩)
    nofun (fun _ _ h hs => List.forall_mem_cons.2 ⟨h, hs⟩)
    (fun _ _ h => h) (fun _ _ _ _ h => h) e

/-! ### Applications under `recoverLet` -/

theorem recoverLet_app_lambda {params : List Name} {args : List (Expr α)} (body : Expr α)
    (t' t : α) (h : params.length = args.length) :
    (app (lambda params body t') args t).recoverLet =
      letIn (params.zip (recoverLetList args)) body.recoverLet t := by
  simp only [recoverLet, if_pos h]

/-- An application is kept if its operator is no lambda or has another number of parameters. -/
theorem recoverLet_app {func : Expr α} {args : List (Expr α)} (t : α)
    (h : ∀ params body t', func = lambda params body t' → params.length ≠ args.length) :
    (app func args t).recoverLet = app func.recoverLet (recoverLetList args) t := by
  cases func with
  | lambda params body t' =>
    have hne := h params body t' rfl
    simp only [recoverLet, if_neg hne]
  | _ => rfl

theorem length_recoverLetList (es : List (Expr α)) : (recoverLetList es).length = es.length := by
  rw [recoverLetList_eq_map, List.length_map]

theorem recoverLetBindings_eq_map (bs : List (Name × Expr α)) :
    recoverLetBindings bs = bs.map fun b => (b.1, b.2.recoverLet) := by
  induction bs with
  | nil => rfl
  | cons b bs ih => simp only [recoverLetBindings, List.map_cons, ih]

theorem recoverLetMembers_eq_map (ms : List (Member α (Expr α))) :
    recoverLetMembers ms = ms.map fun m => ⟨m.name, m.tag, m.params, m.body.recoverLet⟩ := by
  induction ms with
  | nil => rfl
  | cons m ms ih => simp only [recoverLetMembers, List.map_cons, ih]

theorem map_fst_recoverLetBindings (bs : List (Name × Expr α)) :
    (recoverLetBindings bs).map (·.1) = bs.map (·.1) := by
  rw [recoverLetBindings_eq_map, List.map_map]
  rfl

theorem map_name_recoverLetMembers (ms : List (Member α (Expr α))) :
    (recoverLetMembers ms).map (·.name) = ms.map (·.name) := by
  rw [recoverLetMembers_eq_map, List.map_map]
  rfl

/-! ### Lists under `fixLetrec` -/

theorem fixLetrecList_ok {es es' : List (Expr α)} (h : (fixLetrecList es).result = .ok es') :
    List.Forall₂ (fun e e' => e.fixLetrec.result = .ok e') es es' := by
  induction es generalizing es' with
  | nil =>
    simp only [fixLetrecList, Emit.result_pure, Except.ok.injEq] at h
    exact h ▸ .nil
  | cons e es ih =>
    simp only [fixLetrecList, Emit.result_bind_eq_ok_iff, Emit.result_pure,
      Except.ok.injEq] at h
    obtain ⟨e', he, es', hes, rfl⟩ := h
    exact .cons he (ih hes)

theorem fixLetrecBindings_ok {bs bs' : List (Name × Expr α)}
    (h : (fixLetrecBindings bs).result = .ok bs') :
    List.Forall₂ (fun b b' => b'.1 = b.1 ∧ b.2.fixLetrec.result = .ok b'.2) bs bs' := by
  induction bs generalizing bs' with
  | nil =>
    simp only [fixLetrecBindings, Emit.result_pure, Except.ok.injEq] at h
    exact h ▸ .nil
  | cons b bs ih =>
    simp only [fixLetrecBindings, Emit.result_bind_eq_ok_iff, Emit.result_pure,
      Except.ok.injEq] at h
    obtain ⟨e', he, bs', hbs, rfl⟩ := h
    exact .cons ⟨rfl, he⟩ (ih hbs)

theorem fixLetrecMembers_ok {ms ms' : List (Member α (Expr α))}
    (h : (fixLetrecMembers ms).result = .ok ms') :
    List.Forall₂ (fun m m' => m'.name = m.name ∧ m'.params = m.params ∧
      m.body.fixLetrec.result = .ok m'.body) ms ms' := by
  induction ms generalizing ms' with
  | nil =>
    simp only [fixLetrecMembers, Emit.result_pure, Except.ok.injEq] at h
    exact h ▸ .nil
  | cons m ms ih =>
    simp only [fixLetrecMembers, Emit.result_bind_eq_ok_iff, Emit.result_pure,
      Except.ok.injEq] at h
    obtain ⟨e', he, ms', hms, rfl⟩ := h
    exact .cons ⟨rfl, rfl, he⟩ (ih hms)

/-- The bindings of a `letrec` that becomes a group are lambdas, and their bodies are fixed. -/
theorem membersOfBindings_ok {bs : List (Name × Expr α)} {ms : List (Member α (Expr α))}
    (h : (membersOfBindings bs).result = .ok ms) :
    List.Forall₂ (fun b m => b.1 = m.name ∧ ∃ body,
      b.2 = lambda m.params body m.tag ∧ body.fixLetrec.result = .ok m.body) bs ms := by
  induction bs generalizing ms with
  | nil =>
    simp only [membersOfBindings, Emit.result_pure, Except.ok.injEq] at h
    exact h ▸ .nil
  | cons b bs ih =>
    obtain ⟨x, e⟩ := b
    cases e with
    | lambda params body t =>
      simp only [membersOfBindings, Emit.result_bind_eq_ok_iff, Emit.result_pure,
        Except.ok.injEq] at h
      obtain ⟨body', hbody, ms', hms, rfl⟩ := h
      exact .cons ⟨rfl, body, rfl, hbody⟩ (ih hms)
    | _ => simp [membersOfBindings, Emit.fail] at h

/-- A lambda is fixed by fixing its body. -/
theorem fixLetrec_lambda {params : List Name} {body body' : Expr α} (t : α)
    (h : body.fixLetrec.result = .ok body') :
    (lambda params body t).fixLetrec.result = .ok (lambda params body' t) := by
  simp only [fixLetrec, Emit.result_bind_eq_ok_iff, Emit.result_pure, Except.ok.injEq]
  exact ⟨body', h, rfl⟩

theorem fixLetrec_letrec_ok {bindings : List (Name × Expr α)} {body e' : Expr α} {t : α}
    (h : (letrec bindings body t).fixLetrec.result = .ok e') :
    ∃ ms body', (membersOfBindings bindings).result = .ok ms ∧ body.fixLetrec.result = .ok body' ∧
      e' = fix ms body' t := by
  simp only [fixLetrec, Emit.result_bind_eq_ok_iff, Emit.result_pure, Except.ok.injEq] at h
  obtain ⟨ms, hms, _, _, body', hbody, rfl⟩ := h
  exact ⟨ms, body', hms, hbody, rfl⟩

/-- Two lists whose entries correspond, say by name, have the same names. -/
theorem map_eq_map_of_forall₂ {β γ δ : Type} {f : β → δ} {g : γ → δ} {xs : List β}
    {ys : List γ} (h : List.Forall₂ (fun x y => f x = g y) xs ys) : xs.map f = ys.map g := by
  induction h with
  | nil => rfl
  | cons hxy _ ih => rw [List.map_cons, List.map_cons, hxy, ih]

/-! ### Trees that differ in annotations only -/

section

variable {β : Type} (f : α → β)

theorem mapTagList_eq_map (es : List (Expr α)) : mapTagList f es = es.map (mapTag f) := by
  induction es with
  | nil => rfl
  | cons e es ih => simp only [mapTagList, List.map_cons, ih]

theorem mapTagBindings_eq_map (bs : List (Name × Expr α)) :
    mapTagBindings f bs = bs.map fun b => (b.1, b.2.mapTag f) := by
  induction bs with
  | nil => rfl
  | cons b bs ih => simp only [mapTagBindings, List.map_cons, ih]

theorem mapTagMembers_eq_map (ms : List (Member α (Expr α))) :
    mapTagMembers f ms = ms.map fun m => ⟨m.name, f m.tag, m.params, m.body.mapTag f⟩ := by
  induction ms with
  | nil => rfl
  | cons m ms ih => simp only [mapTagMembers, List.map_cons, ih]

theorem map_fst_mapTagBindings (bs : List (Name × Expr α)) :
    (mapTagBindings f bs).map (·.1) = bs.map (·.1) := by
  rw [mapTagBindings_eq_map, List.map_map]
  rfl

theorem map_name_mapTagMembers (ms : List (Member α (Expr α))) :
    (mapTagMembers f ms).map (·.name) = ms.map (·.name) := by
  rw [mapTagMembers_eq_map, List.map_map]
  rfl

end

theorem map_fst_tagBindingsFrom (bs : List (Name × Expr α)) (n : Nat) :
    (tagBindingsFrom bs n).1.map (·.1) = bs.map (·.1) := by
  induction bs generalizing n with
  | nil => rfl
  | cons b bs ih => simp only [tagBindingsFrom, List.map_cons, ih]

theorem map_name_tagMembersFrom (reserved : Nat) (ms : List (Member α (Expr α))) (n : Nat) :
    (tagMembersFrom reserved ms n).1.map (·.name) = ms.map (·.name) := by
  induction ms generalizing reserved n with
  | nil => rfl
  | cons m ms ih => simp only [tagMembersFrom, List.map_cons, ih]

/-- Numbering changes annotations only. -/
def KeepsShape (e : Expr α) : Prop :=
  ∀ n, (tagFrom e n).1.untag = e.untag

theorem keepsShape_list {es : List (Expr α)} (h : ∀ e ∈ es, KeepsShape e) (n : Nat) :
    mapTagList (fun _ => ()) (tagListFrom es n).1 = mapTagList (fun _ => ()) es := by
  induction es generalizing n with
  | nil => rfl
  | cons e es ih =>
    obtain ⟨he, hes⟩ := List.forall_mem_cons.1 h
    have hfirst := he n
    simp only [untag] at hfirst
    simp only [tagListFrom, mapTagList, hfirst, ih hes]

theorem keepsShape_bindings {bs : List (Name × Expr α)} (h : ∀ b ∈ bs, KeepsShape b.2) (n : Nat) :
    mapTagBindings (fun _ => ()) (tagBindingsFrom bs n).1 = mapTagBindings (fun _ => ()) bs := by
  induction bs generalizing n with
  | nil => rfl
  | cons b bs ih =>
    obtain ⟨x, e⟩ := b
    obtain ⟨he, hbs⟩ := List.forall_mem_cons.1 h
    have hinit := he n
    simp only [untag] at hinit
    simp only [tagBindingsFrom, mapTagBindings, hinit, ih hbs]

theorem keepsShape_members {ms : List (Member α (Expr α))} (h : ∀ m ∈ ms, KeepsShape m.body)
    (reserved n : Nat) :
    mapTagMembers (fun _ => ()) (tagMembersFrom reserved ms n).1 =
      mapTagMembers (fun _ => ()) ms := by
  induction ms generalizing reserved n with
  | nil => rfl
  | cons m ms ih =>
    obtain ⟨x, t, params, body⟩ := m
    obtain ⟨hm, hms⟩ := List.forall_mem_cons.1 h
    have hbody := hm n
    simp only [untag] at hbody
    simp only [tagMembersFrom, mapTagMembers, hbody, ih hms]

theorem keepsShape (e : Expr α) : KeepsShape e := by
  induction e with
  | lit v t => exact fun n => rfl
  | var x t => exact fun n => rfl
  | cond test yes no t htest hyes hno =>
    intro n
    have h₁ := htest n
    have h₂ := hyes (tagFrom test n).2
    have h₃ := hno (tagFrom yes (tagFrom test n).2).2
    simp only [untag] at h₁ h₂ h₃
    simp only [tagFrom, untag, mapTag, h₁, h₂, h₃]
  | lambda params body t hbody =>
    intro n
    have h := hbody n
    simp only [untag] at h
    simp only [tagFrom, untag, mapTag, h]
  | assign x value t hvalue =>
    intro n
    have h := hvalue n
    simp only [untag] at h
    simp only [tagFrom, untag, mapTag, h]
  | app func args t hfunc hargs =>
    intro n
    have h := hfunc n
    simp only [untag] at h
    simp only [tagFrom, untag, mapTag, h, keepsShape_list hargs]
  | letIn bindings body t hbindings hbody =>
    intro n
    have h := hbody (tagBindingsFrom bindings n).2
    simp only [untag] at h
    simp only [tagFrom, untag, mapTag, h, keepsShape_bindings hbindings]
  | letrec bindings body t hbindings hbody =>
    intro n
    have h := hbody (tagBindingsFrom bindings n).2
    simp only [untag] at h
    simp only [tagFrom, untag, mapTag, h, keepsShape_bindings hbindings]
  | fix members body t hmembers hbody =>
    intro n
    have h := hbody (tagMembersFrom n members (n + members.length)).2
    simp only [untag] at h
    simp only [tagFrom, untag, mapTag, h, keepsShape_members hmembers]
  | seq items t hitems =>
    intro n
    simp only [tagFrom, untag, mapTag, keepsShape_list hitems]

theorem untag_tagged (e : Expr α) : e.tagged.untag = e.untag :=
  keepsShape e 0

end MiniScheme.Expr
