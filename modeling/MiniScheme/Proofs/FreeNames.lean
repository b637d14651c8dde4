import MiniScheme.Proofs.Naming
import MiniScheme.Proofs.Occurrences

/-!
# Free names under the passes

A name is free in a tree if the tree refers to it outside of all its binders. No pass before code
generation makes a name free that was not free in the tree it was given, and turning `letrec` into
`fix` leaves every occurrence of a free name where it was.
-/

namespace MiniScheme.Expr

variable {α β : Type}

attribute [simp] freeOccurrences freeOccurrencesList freeOccurrencesBindings freeOccurrencesMembers

/-- The tree refers to a name that it does not bind. -/
def FreeIn (x : Name) (e : Expr α) : Prop :=
  x ∈ e.freeOccurrences []

theorem mem_freeOccurrencesList {x : Name} {bound : List Name} {es : List (Expr α)} :
    x ∈ freeOccurrencesList bound es ↔ ∃ e ∈ es, x ∈ freeOccurrences bound e := by
  rw [freeOccurrencesList_eq_flatMap, List.mem_flatMap]

theorem mem_freeOccurrencesBindings {x : Name} {bound : List Name} {bs : List (Name × Expr α)} :
    x ∈ freeOccurrencesBindings bound bs ↔ ∃ b ∈ bs, x ∈ freeOccurrences bound b.2 := by
  rw [freeOccurrencesBindings_eq_flatMap, List.mem_flatMap]

theorem mem_freeOccurrencesMembers {x : Name} {bound : List Name}
    {ms : List (Member α (Expr α))} :
    x ∈ freeOccurrencesMembers bound ms ↔
      ∃ m ∈ ms, x ∈ freeOccurrences (m.params ++ bound) m.body := by
  rw [freeOccurrencesMembers_eq_flatMap, List.mem_flatMap]

theorem exists_mem_and_right {γ : Type} {l : List γ} {p q : γ → Prop} {r : Prop}
    (h : ∀ a ∈ l, (p a ↔ q a ∧ r)) : (∃ a ∈ l, p a) ↔ (∃ a ∈ l, q a) ∧ r := by
  constructor
  · rintro ⟨a, ha, hp⟩
    have hqr := (h a ha).1 hp
    exact ⟨⟨a, ha, hqr.1⟩, hqr.2⟩
  · rintro ⟨⟨a, ha, hq⟩, hr⟩
    exact ⟨a, ha, (h a ha).2 ⟨hq, hr⟩⟩

theorem mem_freeOccurrences_iff {x : Name} {e : Expr α} (bound : List Name) :
    x ∈ freeOccurrences bound e ↔ FreeIn x e ∧ x ∉ bound := by
  rw [freeOccurrences_eq_filter, List.mem_filter, decide_eq_true_eq, FreeIn]

theorem notMem_of_mem_free {x : Name} {bound : List Name} {e : Expr α}
    (h : x ∈ free bound e) : x ∉ bound :=
  ((mem_freeOccurrences_iff bound).1 (mem_free.1 h)).2

theorem notMem_of_mem_freeMembers {x : Name} {bound : List Name} {ms : List (Member α (Expr α))}
    (h : x ∈ freeMembers bound ms) : x ∉ bound := by
  rw [freeMembers, List.mem_eraseDups, mem_freeOccurrencesMembers] at h
  obtain ⟨m, _, hx⟩ := h
  have hnot := ((mem_freeOccurrences_iff _).1 hx).2
  rw [List.mem_append, not_or] at hnot
  exact hnot.2

theorem notMem_of_lookup_eq_none {γ : Type} {x : Name} {bs : List (Name × γ)}
    (h : bs.lookup x = none) : x ∉ bs.map (·.1) := by
  intro hmem
  obtain ⟨b, hb, rfl⟩ := List.mem_map.1 hmem
  have hne := List.lookup_eq_none_iff.1 h b hb
  simp at hne

theorem ofName?_of_notMem_names {x : Name} (h : x ∉ Primitive.names) :
    Primitive.ofName? x = none := by
  cases hp : Primitive.ofName? x with
  | none => rfl
  | some p =>
    have hmem : p ∈ Primitive.all := List.mem_of_find?_eq_some hp
    have hname := Primitive.name_of_ofName? hp
    exact absurd (List.mem_map.2 ⟨p, hmem, hname⟩) h

theorem notMem_names_of_ofName? {x : Name} (h : Primitive.ofName? x = none) :
    x ∉ Primitive.names := by
  intro hmem
  obtain ⟨p, _, rfl⟩ := List.mem_map.1 hmem
  rw [Primitive.ofName?_name] at h
  cases h

/-- What a procedure captures is not primitive. -/
theorem notPrim_of_mem_free {x : Name} {params : List Name} {body : Expr α}
    (h : x ∈ body.free (params ++ Primitive.names)) : Primitive.ofName? x = none := by
  have hnot := notMem_of_mem_free h
  rw [List.mem_append, not_or] at hnot
  exact ofName?_of_notMem_names hnot.2

/-- What the procedures of a group capture is neither primitive nor in the group. -/
theorem notMem_and_notPrim_of_mem_freeMembers {x : Name} {names : List Name}
    {ms : List (Member α (Expr α))} (h : x ∈ freeMembers (names ++ Primitive.names) ms) :
    x ∉ names ∧ Primitive.ofName? x = none := by
  have hnot := notMem_of_mem_freeMembers h
  rw [List.mem_append, not_or] at hnot
  exact ⟨hnot.1, ofName?_of_notMem_names hnot.2⟩

/-! ### Free names of each form -/

section

variable {x : Name} {t : α}

theorem freeIn_lit {v : Literal} : FreeIn x (lit v t) ↔ False := by
  simp [FreeIn]

theorem freeIn_var {y : Name} : FreeIn x (var y t) ↔ x = y := by
  simp [FreeIn]

theorem freeIn_cond {test yes no : Expr α} :
    FreeIn x (cond test yes no t) ↔ FreeIn x test ∨ FreeIn x yes ∨ FreeIn x no := by
  simp [FreeIn]

theorem freeIn_lambda {params : List Name} {body : Expr α} :
    FreeIn x (lambda params body t) ↔ FreeIn x body ∧ x ∉ params := by
  rw [FreeIn, freeOccurrences, mem_freeOccurrences_iff, List.append_nil]

theorem freeIn_assign {y : Name} {value : Expr α} :
    FreeIn x (assign y value t) ↔ x = y ∨ FreeIn x value := by
  simp [FreeIn]

theorem freeIn_app {func : Expr α} {args : List (Expr α)} :
    FreeIn x (app func args t) ↔ FreeIn x func ∨ ∃ e ∈ args, FreeIn x e := by
  rw [FreeIn, freeOccurrences, List.mem_append, mem_freeOccurrencesList]
  rfl

theorem freeIn_letIn {bs : List (Name × Expr α)} {body : Expr α} :
    FreeIn x (letIn bs body t) ↔
      (∃ b ∈ bs, FreeIn x b.2) ∨ FreeIn x body ∧ x ∉ bs.map (·.1) := by
  rw [FreeIn, freeOccurrences, List.mem_append, mem_freeOccurrencesBindings,
    mem_freeOccurrences_iff, List.append_nil]
  rfl

theorem freeIn_letrec {bs : List (Name × Expr α)} {body : Expr α} :
    FreeIn x (letrec bs body t) ↔
      ((∃ b ∈ bs, FreeIn x b.2) ∨ FreeIn x body) ∧ x ∉ bs.map (·.1) := by
  rw [FreeIn, freeOccurrences, List.mem_append, mem_freeOccurrencesBindings]
  rw [exists_mem_and_right fun b _ => mem_freeOccurrences_iff _, mem_freeOccurrences_iff,
    List.append_nil, or_and_right]

theorem freeIn_fix {ms : List (Member α (Expr α))} {body : Expr α} :
    FreeIn x (fix ms body t) ↔
      ((∃ m ∈ ms, FreeIn x m.body ∧ x ∉ m.params) ∨ FreeIn x body) ∧ x ∉ ms.map (·.name) := by
  rw [FreeIn, freeOccurrences, List.mem_append, mem_freeOccurrencesMembers]
  have hproc (m : Member α (Expr α)) :
      x ∈ freeOccurrences (m.params ++ (ms.map (·.name) ++ [])) m.body ↔
        (FreeIn x m.body ∧ x ∉ m.params) ∧ x ∉ ms.map (·.name) := by
    rw [mem_freeOccurrences_iff, List.append_nil, List.mem_append, not_or, and_assoc]
  rw [exists_mem_and_right fun m _ => hproc m, mem_freeOccurrences_iff, List.append_nil,
    or_and_right]

theorem freeIn_seq {items : List (Expr α)} :
    FreeIn x (seq items t) ↔ ∃ e ∈ items, FreeIn x e := by
  rw [FreeIn, freeOccurrences, mem_freeOccurrencesList]
  rfl

end

/-! ### Renaming -/

theorem find_enter (r : Renaming) (y : Name) (xs : List Name) (n : Nat) :
    (y ∉ xs ∧ (r.enter xs n).find y = r.find y) ∨ (r.enter xs n).find y ∈ freshNames xs n := by
  induction xs generalizing r n with
  | nil => exact .inl ⟨List.not_mem_nil, rfl⟩
  | cons x xs ih =>
    rcases ih ((x, freshName x n) :: r) (n + 1) with ⟨hy, hfind⟩ | hmem
    · by_cases hyx : y = x
      · subst hyx
        refine .inr (List.mem_cons.2 (.inl ?_))
        rw [Renaming.enter, hfind]
        simp [Renaming.find]
      · refine .inl ⟨by simp [hyx, hy], ?_⟩
        rw [Renaming.enter, hfind]
        simp [Renaming.find, List.lookup_cons, beq_false_of_ne hyx]
    · exact .inr (List.mem_cons_of_mem _ hmem)

/-- A name that is not one of the new ones is the name of something bound further out. -/
theorem find_of_find_enter {r : Renaming} {xs : List Name} {n : Nat} {x y : Name}
    (h : (r.enter xs n).find y = x) (hx : x ∉ freshNames xs n) : y ∉ xs ∧ r.find y = x := by
  rcases find_enter r y xs n with ⟨hy, hfind⟩ | hmem
  · exact ⟨hy, hfind ▸ h⟩
  · exact absurd (h ▸ hmem) hx

theorem exists_mem_freshBindings {p : β → Prop} {bs : List (Name × β)} {n : Nat} :
    (∃ b ∈ freshBindings bs n, p b.2) ↔ ∃ b ∈ bs, p b.2 := by
  induction bs generalizing n with
  | nil => rfl
  | cons b bs ih => simp only [freshBindings, List.exists_mem_cons_iff, ih]

theorem exists_mem_freshMembers {p : List Name → β → Prop} {ms : List (Member α β)} {n : Nat} :
    (∃ m ∈ freshMembers ms n, p m.params m.body) ↔ ∃ m ∈ ms, p m.params m.body := by
  induction ms generalizing n with
  | nil => rfl
  | cons m ms ih => simp only [freshMembers, List.exists_mem_cons_iff, ih]

/-- Every free name of the renamed tree is what a free name of the tree is renamed to. -/
def KeepsFree (e : Expr α) : Prop :=
  ∀ (r : Renaming) (n : Nat) (x : Name), FreeIn x (renameIn r e n).1 →
    ∃ y, FreeIn y e ∧ r.find y = x

theorem keepsFree_list {es : List (Expr α)} (h : ∀ e ∈ es, KeepsFree e) {r : Renaming} {n : Nat}
    {x : Name} (hx : ∃ e ∈ (renameListIn r es n).1, FreeIn x e) :
    ∃ y, (∃ e ∈ es, FreeIn y e) ∧ r.find y = x := by
  induction es generalizing n with
  | nil => simp [renameListIn] at hx
  | cons e es ih =>
    obtain ⟨he, hes⟩ := List.forall_mem_cons.1 h
    simp only [renameListIn, List.exists_mem_cons_iff] at hx ⊢
    rcases hx with hx | hx
    · obtain ⟨y, hy, hfind⟩ := he r n x hx
      exact ⟨y, .inl hy, hfind⟩
    · obtain ⟨y, hy, hfind⟩ := ih hes hx
      exact ⟨y, .inr hy, hfind⟩

theorem keepsFree_bindings {bs : List (Name × Expr α)} (h : ∀ b ∈ bs, KeepsFree b.2)
    {r : Renaming} {n : Nat} {x : Name} (hx : ∃ b ∈ (renameBindingsIn r bs n).1, FreeIn x b.2) :
    ∃ y, (∃ b ∈ bs, FreeIn y b.2) ∧ r.find y = x := by
  induction bs generalizing n with
  | nil => simp [renameBindingsIn] at hx
  | cons b bs ih =>
    obtain ⟨hb, hbs⟩ := List.forall_mem_cons.1 h
    simp only [renameBindingsIn, List.exists_mem_cons_iff] at hx ⊢
    rcases hx with hx | hx
    · obtain ⟨y, hy, hfind⟩ := hb r n x hx
      exact ⟨y, .inl hy, hfind⟩
    · obtain ⟨y, hy, hfind⟩ := ih hbs hx
      exact ⟨y, .inr hy, hfind⟩

theorem keepsFree_members {ms : List (Member α (Expr α))} (h : ∀ m ∈ ms, KeepsFree m.body)
    {r : Renaming} {n : Nat} {x : Name}
    (hx : ∃ m ∈ (renameMembersIn r ms n).1, FreeIn x m.body ∧ x ∉ m.params) :
    ∃ y, (∃ m ∈ ms, FreeIn y m.body ∧ y ∉ m.params) ∧ r.find y = x := by
  induction ms generalizing n with
  | nil => simp [renameMembersIn] at hx
  | cons m ms ih =>
    obtain ⟨hm, hms⟩ := List.forall_mem_cons.1 h
    simp only [renameMembersIn, List.exists_mem_cons_iff] at hx ⊢
    rcases hx with ⟨hx, hparams⟩ | hx
    · obtain ⟨y, hy, hfind⟩ := hm _ _ x hx
      obtain ⟨hout, hfind⟩ := find_of_find_enter hfind hparams
      exact ⟨y, .inl ⟨hy, hout⟩, hfind⟩
    · obtain ⟨y, hy, hfind⟩ := ih hms hx
      exact ⟨y, .inr hy, hfind⟩

theorem keepsFree (e : Expr α) : KeepsFree e := by
  induction e with
  | lit v t => exact fun r n x hx => absurd hx (by simp [renameIn, freeIn_lit])
  | var z t =>
    intro r n x hx
    rw [renameIn, freeIn_var] at hx
    exact ⟨z, freeIn_var.2 rfl, hx.symm⟩
  | cond test yes no t htest hyes hno =>
    intro r n x hx
    simp only [renameIn, freeIn_cond] at hx ⊢
    rcases hx with hx | hx | hx
    · obtain ⟨y, hy, hfind⟩ := htest _ _ x hx
      exact ⟨y, .inl hy, hfind⟩
    · obtain ⟨y, hy, hfind⟩ := hyes _ _ x hx
      exact ⟨y, .inr (.inl hy), hfind⟩
    · obtain ⟨y, hy, hfind⟩ := hno _ _ x hx
      exact ⟨y, .inr (.inr hy), hfind⟩
  | lambda params body t hbody =>
    intro r n x hx
    simp only [renameIn, freeIn_lambda] at hx ⊢
    obtain ⟨y, hy, hfind⟩ := hbody _ _ x hx.1
    obtain ⟨hout, hfind⟩ := find_of_find_enter hfind hx.2
    exact ⟨y, ⟨hy, hout⟩, hfind⟩
  | assign z value t hvalue =>
    intro r n x hx
    simp only [renameIn, freeIn_assign] at hx ⊢
    rcases hx with hx | hx
    · exact ⟨z, .inl rfl, hx.symm⟩
    · obtain ⟨y, hy, hfind⟩ := hvalue _ _ x hx
      exact ⟨y, .inr hy, hfind⟩
  | app func args t hfunc hargs =>
    intro r n x hx
    simp only [renameIn, freeIn_app] at hx ⊢
    rcases hx with hx | hx
    · obtain ⟨y, hy, hfind⟩ := hfunc _ _ x hx
      exact ⟨y, .inl hy, hfind⟩
    · obtain ⟨y, hy, hfind⟩ := keepsFree_list hargs hx
      exact ⟨y, .inr hy, hfind⟩
  | letIn bindings body t hbindings hbody =>
    intro r n x hx
    simp only [renameIn, freeIn_letIn, exists_mem_freshBindings (p := FreeIn x),
      map_fst_freshBindings, map_fst_renameBindingsIn] at hx ⊢
    rcases hx with hx | ⟨hx, hnames⟩
    · obtain ⟨y, hy, hfind⟩ := keepsFree_bindings hbindings hx
      exact ⟨y, .inl hy, hfind⟩
    · obtain ⟨y, hy, hfind⟩ := hbody _ _ x hx
      obtain ⟨hout, hfind⟩ := find_of_find_enter hfind hnames
      exact ⟨y, .inr ⟨hy, hout⟩, hfind⟩
  | letrec bindings body t hbindings hbody =>
    intro r n x hx
    simp only [renameIn, freeIn_letrec, exists_mem_freshBindings (p := FreeIn x),
      map_fst_freshBindings, map_fst_renameBindingsIn] at hx ⊢
    obtain ⟨hx | hx, hnames⟩ := hx
    · obtain ⟨y, hy, hfind⟩ := keepsFree_bindings hbindings hx
      obtain ⟨hout, hfind⟩ := find_of_find_enter hfind hnames
      exact ⟨y, ⟨.inl hy, hout⟩, hfind⟩
    · obtain ⟨y, hy, hfind⟩ := hbody _ _ x hx
      obtain ⟨hout, hfind⟩ := find_of_find_enter hfind hnames
      exact ⟨y, ⟨.inr hy, hout⟩, hfind⟩
  | fix members body t hmembers hbody =>
    intro r n x hx
    simp only [renameIn, freeIn_fix,
      exists_mem_freshMembers (p := fun params body => FreeIn x body ∧ x ∉ params),
      map_name_freshMembers, map_name_renameMembersIn] at hx ⊢
    obtain ⟨hx | hx, hnames⟩ := hx
    · obtain ⟨y, hy, hfind⟩ := keepsFree_members hmembers hx
      obtain ⟨hout, hfind⟩ := find_of_find_enter hfind hnames
      exact ⟨y, ⟨.inl hy, hout⟩, hfind⟩
    · obtain ⟨y, hy, hfind⟩ := hbody _ _ x hx
      obtain ⟨hout, hfind⟩ := find_of_find_enter hfind hnames
      exact ⟨y, ⟨.inr hy, hout⟩, hfind⟩
  | seq items t hitems =>
    intro r n x hx
    simp only [renameIn, freeIn_seq] at hx ⊢
    exact keepsFree_list hitems hx

theorem freeIn_of_rename {x : Name} {e : Expr α} (h : FreeIn x e.rename) : FreeIn x e := by
  obtain ⟨y, hy, hfind⟩ := keepsFree e [] 0 x h
  exact hfind ▸ hy

/-! ### Later passes -/

theorem exists_mem_map {γ δ : Type} {f : γ → δ} {p : δ → Prop} {xs : List γ} :
    (∃ y ∈ xs.map f, p y) ↔ ∃ x ∈ xs, p (f x) := by
  simp

theorem freeIn_of_mem_recoverLetList {es : List (Expr α)} {x : Name}
    (h : ∀ e ∈ es, FreeIn x e.recoverLet → FreeIn x e)
    (hx : ∃ e ∈ recoverLetList es, FreeIn x e) : ∃ e ∈ es, FreeIn x e := by
  rw [recoverLetList_eq_map, exists_mem_map] at hx
  obtain ⟨e, he, hfree⟩ := hx
  exact ⟨e, he, h e he hfree⟩

theorem freeIn_of_mem_recoverLetBindings {bs : List (Name × Expr α)} {x : Name}
    (h : ∀ b ∈ bs, FreeIn x b.2.recoverLet → FreeIn x b.2)
    (hx : ∃ b ∈ recoverLetBindings bs, FreeIn x b.2) : ∃ b ∈ bs, FreeIn x b.2 := by
  rw [recoverLetBindings_eq_map, exists_mem_map] at hx
  obtain ⟨b, hb, hfree⟩ := hx
  exact ⟨b, hb, h b hb hfree⟩

theorem freeIn_of_recoverLet {x : Name} {e : Expr α} (hx : FreeIn x e.recoverLet) :
    FreeIn x e := by
  induction e with
  | lit v t => exact hx
  | var y t => exact hx
  | cond test yes no t htest hyes hno =>
    rw [recoverLet, freeIn_cond] at hx
    exact freeIn_cond.2 (hx.imp htest (Or.imp hyes hno))
  | lambda params body t hbody =>
    rw [recoverLet, freeIn_lambda] at hx
    exact freeIn_lambda.2 ⟨hbody hx.1, hx.2⟩
  | assign y value t hvalue =>
    rw [recoverLet, freeIn_assign] at hx
    exact freeIn_assign.2 (hx.imp_right hvalue)
  | app func args t hfunc hargs =>
    have hlist := freeIn_of_mem_recoverLetList hargs
    by_cases hlambda : ∃ params body t', func = lambda params body t' ∧ params.length = args.length
    · obtain ⟨params, body, t', rfl, hlen⟩ := hlambda
      rw [recoverLet, freeIn_lambda, freeIn_lambda] at hfunc
      have hzip : params.length ≤ (recoverLetList args).length := by
        rw [length_recoverLetList]
        omega
      rw [recoverLet_app_lambda body t' t hlen, freeIn_letIn, List.map_fst_zip hzip] at hx
      rw [freeIn_app, freeIn_lambda]
      rcases hx with ⟨b, hb, hfree⟩ | hx
      · exact .inr (hlist ⟨b.2, (List.of_mem_zip hb).2, hfree⟩)
      · exact .inl (hfunc hx)
    · rw [recoverLet_app t fun params body t' hf hlen => hlambda ⟨params, body, t', hf, hlen⟩,
        freeIn_app] at hx
      exact freeIn_app.2 (hx.imp hfunc hlist)
  | letIn bindings body t hbindings hbody =>
    rw [recoverLet, freeIn_letIn, map_fst_recoverLetBindings] at hx
    exact freeIn_letIn.2 (hx.imp (freeIn_of_mem_recoverLetBindings hbindings) fun h =>
      ⟨hbody h.1, h.2⟩)
  | letrec bindings body t hbindings hbody =>
    rw [recoverLet, freeIn_letrec, map_fst_recoverLetBindings] at hx
    exact freeIn_letrec.2
      ⟨hx.1.imp (freeIn_of_mem_recoverLetBindings hbindings) hbody, hx.2⟩
  | fix members body t hmembers hbody =>
    rw [recoverLet, freeIn_fix, map_name_recoverLetMembers, recoverLetMembers_eq_map,
      exists_mem_map] at hx
    refine freeIn_fix.2 ⟨hx.1.imp ?_ hbody, hx.2⟩
    rintro ⟨m, hm, hfree⟩
    exact ⟨m, hm, hmembers m hm hfree.1, hfree.2⟩
  | seq items t hitems =>
    rw [recoverLet, freeIn_seq] at hx
    exact freeIn_seq.2 (freeIn_of_mem_recoverLetList hitems hx)

/-- Fixing keeps every occurrence of a free name, in its place. -/
def FixKeepsFree (e : Expr α) : Prop :=
  ∀ e', e.fixLetrec.result = .ok e' →
    ∀ bound, freeOccurrences bound e' = freeOccurrences bound e

theorem fixKeepsFree_list {es es' : List (Expr α)} (h : ∀ e ∈ es, FixKeepsFree e)
    (hok : (fixLetrecList es).result = .ok es') (bound : List Name) :
    freeOccurrencesList bound es' = freeOccurrencesList bound es := by
  induction es generalizing es' with
  | nil =>
    simp only [fixLetrecList, Emit.result_pure, Except.ok.injEq] at hok
    rw [hok]
  | cons e es ih =>
    obtain ⟨he, hes⟩ := List.forall_mem_cons.1 h
    simp only [fixLetrecList, Emit.result_bind_eq_ok_iff, Emit.result_pure, Except.ok.injEq] at hok
    obtain ⟨e', he', rest, hrest, rfl⟩ := hok
    rw [freeOccurrencesList, freeOccurrencesList, he e' he', ih hes hrest]

theorem fixKeepsFree_bindings {bs bs' : List (Name × Expr α)} (h : ∀ b ∈ bs, FixKeepsFree b.2)
    (hok : (fixLetrecBindings bs).result = .ok bs') (bound : List Name) :
    freeOccurrencesBindings bound bs' = freeOccurrencesBindings bound bs := by
  induction bs generalizing bs' with
  | nil =>
    simp only [fixLetrecBindings, Emit.result_pure, Except.ok.injEq] at hok
    rw [hok]
  | cons b bs ih =>
    obtain ⟨hb, hbs⟩ := List.forall_mem_cons.1 h
    simp only [fixLetrecBindings, Emit.result_bind_eq_ok_iff, Emit.result_pure,
      Except.ok.injEq] at hok
    obtain ⟨e', he', rest, hrest, rfl⟩ := hok
    rw [freeOccurrencesBindings, freeOccurrencesBindings, hb e' he', ih hbs hrest]

theorem fixKeepsFree_members {ms ms' : List (Member α (Expr α))}
    (h : ∀ m ∈ ms, FixKeepsFree m.body) (hok : (fixLetrecMembers ms).result = .ok ms')
    (bound : List Name) : freeOccurrencesMembers bound ms' = freeOccurrencesMembers bound ms := by
  induction ms generalizing ms' with
  | nil =>
    simp only [fixLetrecMembers, Emit.result_pure, Except.ok.injEq] at hok
    rw [hok]
  | cons m ms ih =>
    obtain ⟨hm, hms⟩ := List.forall_mem_cons.1 h
    simp only [fixLetrecMembers, Emit.result_bind_eq_ok_iff, Emit.result_pure,
      Except.ok.injEq] at hok
    obtain ⟨e', he', rest, hrest, rfl⟩ := hok
    rw [freeOccurrencesMembers, freeOccurrencesMembers, hm e' he', ih hms hrest]

/-- The bodies of a group refer to what the lambdas it is made of refer to. -/
theorem fixKeepsFree_group {bs : List (Name × Expr α)} {ms : List (Member α (Expr α))}
    (h : ∀ b ∈ bs, FixKeepsFree b.2) (hok : (membersOfBindings bs).result = .ok ms)
    (bound : List Name) : freeOccurrencesMembers bound ms = freeOccurrencesBindings bound bs := by
  have hrel := membersOfBindings_ok hok
  clear hok
  induction hrel with
  | nil => rfl
  | cons hbm _ ih =>
    obtain ⟨hb, hbs⟩ := List.forall_mem_cons.1 h
    obtain ⟨_, body, hlambda, hbody⟩ := hbm
    rw [hlambda] at hb
    have hfirst := hb _ (fixLetrec_lambda _ hbody) bound
    rw [freeOccurrencesMembers, freeOccurrencesBindings, hlambda, ih hbs]
    exact congrArg (· ++ _) hfirst

theorem fixKeepsFree (e : Expr α) : FixKeepsFree e := by
  induction e with
  | lit v t =>
    intro e' hok bound
    simp only [fixLetrec, Emit.result_pure, Except.ok.injEq] at hok
    rw [hok]
  | var x t =>
    intro e' hok bound
    simp only [fixLetrec, Emit.result_pure, Except.ok.injEq] at hok
    rw [hok]
  | cond test yes no t htest hyes hno =>
    intro e' hok bound
    simp only [fixLetrec, Emit.result_bind_eq_ok_iff, Emit.result_pure, Except.ok.injEq] at hok
    obtain ⟨test', h₁, yes', h₂, no', h₃, rfl⟩ := hok
    rw [freeOccurrences, freeOccurrences, htest _ h₁, hyes _ h₂, hno _ h₃]
  | lambda params body t hbody =>
    intro e' hok bound
    simp only [fixLetrec, Emit.result_bind_eq_ok_iff, Emit.result_pure, Except.ok.injEq] at hok
    obtain ⟨body', h₁, rfl⟩ := hok
    rw [freeOccurrences, freeOccurrences, hbody _ h₁]
  | assign x value t hvalue =>
    intro e' hok bound
    simp only [fixLetrec, Emit.result_bind_eq_ok_iff, Emit.result_pure, Except.ok.injEq] at hok
    obtain ⟨value', h₁, rfl⟩ := hok
    rw [freeOccurrences, freeOccurrences, hvalue _ h₁]
  | app func args t hfunc hargs =>
    intro e' hok bound
    simp only [fixLetrec, Emit.result_bind_eq_ok_iff, Emit.result_pure, Except.ok.injEq] at hok
    obtain ⟨func', h₁, args', h₂, rfl⟩ := hok
    rw [freeOccurrences, freeOccurrences, hfunc _ h₁, fixKeepsFree_list hargs h₂]
  | letIn bindings body t hbindings hbody =>
    intro e' hok bound
    simp only [fixLetrec, Emit.result_bind_eq_ok_iff, Emit.result_pure, Except.ok.injEq] at hok
    obtain ⟨bindings', h₁, body', h₂, rfl⟩ := hok
    have hnames := map_eq_map_of_forall₂ ((fixLetrecBindings_ok h₁).imp fun _ _ h => h.1.symm)
    rw [freeOccurrences, freeOccurrences, fixKeepsFree_bindings hbindings h₁, hbody _ h₂, hnames]
  | letrec bindings body t hbindings hbody =>
    intro e' hok bound
    obtain ⟨ms, body', h₁, h₂, rfl⟩ := fixLetrec_letrec_ok hok
    have hnames := map_eq_map_of_forall₂ ((membersOfBindings_ok h₁).imp fun _ _ h => h.1)
    rw [freeOccurrences, freeOccurrences, fixKeepsFree_group hbindings h₁, hbody _ h₂, hnames]
  | fix members body t hmembers hbody =>
    intro e' hok bound
    simp only [fixLetrec, Emit.result_bind_eq_ok_iff, Emit.result_pure, Except.ok.injEq] at hok
    obtain ⟨members', h₁, body', h₂, rfl⟩ := hok
    have hnames := map_eq_map_of_forall₂ ((fixLetrecMembers_ok h₁).imp fun _ _ h => h.1.symm)
    rw [freeOccurrences, freeOccurrences, fixKeepsFree_members hmembers h₁, hbody _ h₂, hnames]
  | seq items t hitems =>
    intro e' hok bound
    simp only [fixLetrec, Emit.result_bind_eq_ok_iff, Emit.result_pure, Except.ok.injEq] at hok
    obtain ⟨items', h₁, rfl⟩ := hok
    rw [freeOccurrences, freeOccurrences, fixKeepsFree_list hitems h₁]

theorem freeIn_of_fixLetrec {x : Name} {e e' : Expr α} (hok : e.fixLetrec.result = .ok e')
    (hx : FreeIn x e') : FreeIn x e := by
  unfold FreeIn at hx ⊢
  rw [← fixKeepsFree e e' hok]
  exact hx

theorem freeIn_mapTag (f : α → β) {x : Name} {e : Expr α} :
    FreeIn x (e.mapTag f) ↔ FreeIn x e := by
  induction e with
  | lit v t => rfl
  | var y t => rfl
  | cond test yes no t htest hyes hno => simp only [mapTag, freeIn_cond, htest, hyes, hno]
  | lambda params body t hbody => simp only [mapTag, freeIn_lambda, hbody]
  | assign y value t hvalue => simp only [mapTag, freeIn_assign, hvalue]
  | app func args t hfunc hargs =>
    rw [mapTag, freeIn_app, freeIn_app, hfunc, mapTagList_eq_map, exists_mem_map]
    exact or_congr_right (exists_congr fun e => and_congr_right fun he => hargs e he)
  | letIn bindings body t hbindings hbody =>
    rw [mapTag, freeIn_letIn, freeIn_letIn, hbody, map_fst_mapTagBindings, mapTagBindings_eq_map,
      exists_mem_map]
    exact or_congr_left (exists_congr fun b => and_congr_right fun hb => hbindings b hb)
  | letrec bindings body t hbindings hbody =>
    rw [mapTag, freeIn_letrec, freeIn_letrec, hbody, map_fst_mapTagBindings,
      mapTagBindings_eq_map, exists_mem_map]
    refine and_congr_left fun _ => or_congr_left ?_
    exact exists_congr fun b => and_congr_right fun hb => hbindings b hb
  | fix members body t hmembers hbody =>
    rw [mapTag, freeIn_fix, freeIn_fix, hbody, map_name_mapTagMembers, mapTagMembers_eq_map,
      exists_mem_map]
    refine and_congr_left fun _ => or_congr_left ?_
    exact exists_congr fun m => and_congr_right fun hm => and_congr_left fun _ => hmembers m hm
  | seq items t hitems =>
    rw [mapTag, freeIn_seq, freeIn_seq, mapTagList_eq_map, exists_mem_map]
    exact exists_congr fun e => and_congr_right fun he => hitems e he

theorem freeIn_tagged {x : Name} {e : Expr α} : FreeIn x e.tagged ↔ FreeIn x e := by
  rw [← freeIn_mapTag fun _ => (), ← untag, untag_tagged, untag, freeIn_mapTag]

end MiniScheme.Expr
