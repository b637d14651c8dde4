import MiniScheme.Expr.Let
import MiniScheme.Expr.Letrec
import MiniScheme.Expr.Rename
import MiniScheme.Expr.Tag
import MiniScheme.Proofs.Results
import MiniScheme.Proofs.Trees

/-!
# Binders with names of their own

Generated code finds a name by looking through the frame in a fixed order, not by scope. It finds
the right value because after renaming no binder reuses a name that is in scope, no binder list
repeats a name, and no binder takes the name of a primitive. Renaming establishes this, and the
later passes keep it.
-/

namespace MiniScheme

/-- Names for a binder list inside a scope: all different, none in scope, none of a primitive. -/
structure NewNames (scope xs : List Name) : Prop where
  nodup : xs.Nodup
  notMem : ∀ x ∈ xs, x ∉ scope
  notPrim : ∀ x ∈ xs, Primitive.ofName? x = none

theorem NewNames.prim_notMem {scope xs : List Name} (h : NewNames scope xs) (p : Primitive) :
    p.name ∉ xs := by
  intro hmem
  have hnone := h.notPrim _ hmem
  rw [Primitive.ofName?_name] at hnone
  exact absurd hnone (by simp)

namespace Expr

variable {α β : Type}

mutual
/-- Every binder of the tree has new names where it stands. -/
def Fresh (scope : List Name) : Expr α → Prop
  | lit _ _ => True
  | var _ _ => True
  | cond test yes no _ => Fresh scope test ∧ Fresh scope yes ∧ Fresh scope no
  | lambda params body _ => NewNames scope params ∧ Fresh (params ++ scope) body
  | assign _ value _ => Fresh scope value
  | app func args _ => Fresh scope func ∧ FreshList scope args
  | letIn bindings body _ =>
    NewNames scope (bindings.map (·.1)) ∧ FreshBindings scope bindings ∧
      Fresh (bindings.map (·.1) ++ scope) body
  | letrec bindings body _ =>
    NewNames scope (bindings.map (·.1)) ∧
      FreshBindings (bindings.map (·.1) ++ scope) bindings ∧
      Fresh (bindings.map (·.1) ++ scope) body
  | fix members body _ =>
    NewNames scope (members.map (·.name)) ∧
      FreshMembers (members.map (·.name) ++ scope) members ∧
      Fresh (members.map (·.name) ++ scope) body
  | seq items _ => FreshList scope items
termination_by structural e => e

def FreshList (scope : List Name) : List (Expr α) → Prop
  | [] => True
  | e :: es => Fresh scope e ∧ FreshList scope es
termination_by structural es => es

def FreshBindings (scope : List Name) : List (Name × Expr α) → Prop
  | [] => True
  | (_, e) :: bs => Fresh scope e ∧ FreshBindings scope bs
termination_by structural bs => bs

def FreshMembers (scope : List Name) : List (Member α (Expr α)) → Prop
  | [] => True
  | ⟨_, _, params, body⟩ :: ms =>
    (NewNames scope params ∧ Fresh (params ++ scope) body) ∧ FreshMembers scope ms
termination_by structural ms => ms
end

theorem freshList_iff {scope : List Name} {es : List (Expr α)} :
    FreshList scope es ↔ ∀ e ∈ es, Fresh scope e := by
  induction es with
  | nil => simp [FreshList]
  | cons e es ih => simp only [FreshList, ih, List.forall_mem_cons]

theorem freshBindings_iff {scope : List Name} {bs : List (Name × Expr α)} :
    FreshBindings scope bs ↔ ∀ b ∈ bs, Fresh scope b.2 := by
  induction bs with
  | nil => simp [FreshBindings]
  | cons b bs ih => simp only [FreshBindings, ih, List.forall_mem_cons]

theorem freshMembers_iff {scope : List Name} {ms : List (Member α (Expr α))} :
    FreshMembers scope ms ↔
      ∀ m ∈ ms, NewNames scope m.params ∧ Fresh (m.params ++ scope) m.body := by
  induction ms with
  | nil => simp [FreshMembers]
  | cons m ms ih => simp only [FreshMembers, ih, List.forall_mem_cons]

end Expr

/-! ### Generated names -/

/-- The characters of a generated name. -/
theorem toList_freshName (x : Name) (n : Nat) :
    (freshName x n).toList = x.toList ++ '.' :: Nat.toDigits 10 n := by
  simp [freshName, String.toList_append, Nat.repr]

theorem dot_not_mem_toDigits (n : Nat) : '.' ∉ Nat.toDigits 10 n := by
  intro h
  have hdigit := Nat.isDigit_of_mem_toDigits (by decide) (by decide) h
  revert hdigit
  decide

/-- What follows the last dot of a generated name is its number. -/
theorem eq_of_freshName_eq {x y : Name} {n m : Nat} (h : freshName x n = freshName y m) :
    n = m := by
  have hlist : (freshName x n).toList = (freshName y m).toList := congrArg String.toList h
  rw [toList_freshName, toList_freshName] at hlist
  have htake : ∀ (z : Name) (k : Nat),
      ((z.toList ++ '.' :: Nat.toDigits 10 k).reverse.takeWhile (· ≠ '.')) =
        (Nat.toDigits 10 k).reverse := by
    intro z k
    rw [List.reverse_append, List.reverse_cons, List.append_assoc,
      List.takeWhile_append_of_pos]
    · simp
    · intro c hc
      have hne : c ≠ '.' := fun hdot => dot_not_mem_toDigits k (by simpa [hdot] using hc)
      simpa using hne
  have hdigits := htake x n
  rw [hlist, htake y m, List.reverse_inj] at hdigits
  have hvalue := congrArg (fun ds => Nat.ofDigitChars 10 ds 0) hdigits
  simpa only [Nat.ofDigitChars_toDigits (show 1 < 10 by decide) (Nat.le_refl 10)] using hvalue.symm

theorem ofName?_freshName (x : Name) (n : Nat) : Primitive.ofName? (freshName x n) = none := by
  cases h : Primitive.ofName? (freshName x n) with
  | none => rfl
  | some p =>
    have hname := congrArg String.toList (Primitive.name_of_ofName? h)
    rw [toList_freshName] at hname
    have hdot : '.' ∈ p.name.toList := by
      rw [hname]
      simp
    revert hdot
    cases p <;> decide

/-- Not generated from a counter value or a later one. -/
def Older (n : Nat) (x : Name) : Prop :=
  ∀ y m, n ≤ m → x ≠ freshName y m

theorem Older.mono {n m : Nat} {x : Name} (h : Older n x) (hnm : n ≤ m) : Older m x :=
  fun y k hk => h y k (Nat.le_trans hnm hk)

theorem freshNames_append (xs ys : List Name) (n : Nat) :
    freshNames (xs ++ ys) n = freshNames xs n ++ freshNames ys (n + xs.length) := by
  induction xs generalizing n with
  | nil => rfl
  | cons x xs ih =>
    rw [List.cons_append, freshNames, freshNames, ih, List.length_cons, List.cons_append]
    congr 3
    omega

theorem mem_freshNames {xs : List Name} {n : Nat} {x : Name} (h : x ∈ freshNames xs n) :
    ∃ y m, n ≤ m ∧ m < n + xs.length ∧ x = freshName y m := by
  induction xs generalizing n with
  | nil => simp [freshNames] at h
  | cons z xs ih =>
    simp only [freshNames, List.mem_cons] at h
    simp only [List.length_cons]
    rcases h with h | h
    · exact ⟨z, n, Nat.le_refl n, by omega, h⟩
    · obtain ⟨y, m, hle, hlt, hx⟩ := ih h
      exact ⟨y, m, by omega, by omega, hx⟩

theorem older_freshNames {xs : List Name} {n : Nat} :
    ∀ x ∈ freshNames xs n, Older (n + xs.length) x := by
  intro x hx y m hm heq
  obtain ⟨z, k, _, hlt, rfl⟩ := mem_freshNames hx
  have hkm := eq_of_freshName_eq heq
  omega

theorem newNames_freshNames {scope : List Name} {n : Nat} (hscope : ∀ x ∈ scope, Older n x)
    (xs : List Name) : NewNames scope (freshNames xs n) := by
  refine ⟨?_, ?_, ?_⟩
  · clear hscope
    induction xs generalizing n with
    | nil => exact List.nodup_nil
    | cons x xs ih =>
      refine List.nodup_cons.2 ⟨fun hmem => ?_, ih⟩
      obtain ⟨y, m, hle, _, heq⟩ := mem_freshNames hmem
      have hnm := eq_of_freshName_eq heq
      omega
  · intro x hx hmem
    obtain ⟨y, m, hle, _, heq⟩ := mem_freshNames hx
    exact hscope x hmem y m hle heq
  · intro x hx
    obtain ⟨y, m, _, _, rfl⟩ := mem_freshNames hx
    exact ofName?_freshName y m

theorem older_freshNames_append (xs : List Name) {scope : List Name} {n : Nat}
    (hscope : ∀ x ∈ scope, Older n x) :
    ∀ x ∈ freshNames xs n ++ scope, Older (n + xs.length) x := by
  intro x hx
  rcases List.mem_append.1 hx with hx | hx
  · exact older_freshNames x hx
  · exact (hscope x hx).mono (Nat.le_add_right n xs.length)

namespace Expr

variable {α β : Type}

theorem map_name_freshMembers (ms : List (Member α β)) (n : Nat) :
    (freshMembers ms n).map (·.name) = freshNames (ms.map (·.name)) n := by
  induction ms generalizing n with
  | nil => rfl
  | cons m ms ih => simp [freshMembers, freshNames, ih]

theorem freshBindings_freshNames {scope : List Name} (bs : List (Name × Expr α)) (n : Nat) :
    FreshBindings scope (freshBindings bs n) ↔ FreshBindings scope bs := by
  induction bs generalizing n with
  | nil => rfl
  | cons b bs ih =>
    obtain ⟨x, e⟩ := b
    simp only [freshBindings, FreshBindings, ih]

theorem freshMembers_freshNames {scope : List Name} (ms : List (Member α (Expr α))) (n : Nat) :
    FreshMembers scope (freshMembers ms n) ↔ FreshMembers scope ms := by
  induction ms generalizing n with
  | nil => rfl
  | cons m ms ih =>
    obtain ⟨x, t, params, body⟩ := m
    simp only [freshMembers, FreshMembers, ih]

/-! ### Renaming -/

theorem map_fst_renameBindingsIn (r : Renaming) (bs : List (Name × Expr α)) (n : Nat) :
    (renameBindingsIn r bs n).1.map (·.1) = bs.map (·.1) := by
  induction bs generalizing n with
  | nil => rfl
  | cons b bs ih =>
    obtain ⟨x, e⟩ := b
    simp only [renameBindingsIn, List.map_cons, ih]

theorem map_name_renameMembersIn (r : Renaming) (ms : List (Member α (Expr α))) (n : Nat) :
    (renameMembersIn r ms n).1.map (·.name) = ms.map (·.name) := by
  induction ms generalizing n with
  | nil => rfl
  | cons m ms ih =>
    obtain ⟨x, t, params, body⟩ := m
    simp only [renameMembersIn, List.map_cons, ih]

/-- Renaming a tree in any scope of older names makes its binders new there and moves the counter
on. -/
def Refreshes (e : Expr α) : Prop :=
  ∀ (r : Renaming) (n : Nat), n ≤ (renameIn r e n).2 ∧
    ∀ scope, (∀ x ∈ scope, Older n x) → Fresh scope (renameIn r e n).1

theorem refreshes_list {es : List (Expr α)} (h : ∀ e ∈ es, Refreshes e) (r : Renaming) (n : Nat) :
    n ≤ (renameListIn r es n).2 ∧
      ∀ scope, (∀ x ∈ scope, Older n x) → FreshList scope (renameListIn r es n).1 := by
  induction es generalizing n with
  | nil => exact ⟨Nat.le_refl n, fun _ _ => trivial⟩
  | cons e es ih =>
    obtain ⟨he, hes⟩ := List.forall_mem_cons.1 h
    obtain ⟨hle, hfresh⟩ := he r n
    obtain ⟨hle', hfresh'⟩ := ih hes (renameIn r e n).2
    refine ⟨Nat.le_trans hle hle', fun scope hscope => ⟨hfresh scope hscope, ?_⟩⟩
    exact hfresh' scope fun x hx => (hscope x hx).mono hle

theorem refreshes_bindings {bs : List (Name × Expr α)} (h : ∀ b ∈ bs, Refreshes b.2)
    (r : Renaming) (n : Nat) :
    n ≤ (renameBindingsIn r bs n).2 ∧
      ∀ scope, (∀ x ∈ scope, Older n x) → FreshBindings scope (renameBindingsIn r bs n).1 := by
  induction bs generalizing n with
  | nil => exact ⟨Nat.le_refl n, fun _ _ => trivial⟩
  | cons b bs ih =>
    obtain ⟨x, e⟩ := b
    obtain ⟨he, hbs⟩ := List.forall_mem_cons.1 h
    obtain ⟨hle, hfresh⟩ := he r n
    obtain ⟨hle', hfresh'⟩ := ih hbs (renameIn r e n).2
    refine ⟨Nat.le_trans hle hle', fun scope hscope => ⟨hfresh scope hscope, ?_⟩⟩
    exact hfresh' scope fun x hx => (hscope x hx).mono hle

theorem refreshes_members {ms : List (Member α (Expr α))} (h : ∀ m ∈ ms, Refreshes m.body)
    (r : Renaming) (n : Nat) :
    n ≤ (renameMembersIn r ms n).2 ∧
      ∀ scope, (∀ x ∈ scope, Older n x) → FreshMembers scope (renameMembersIn r ms n).1 := by
  induction ms generalizing n with
  | nil => exact ⟨Nat.le_refl n, fun _ _ => trivial⟩
  | cons m ms ih =>
    obtain ⟨x, t, params, body⟩ := m
    obtain ⟨hm, hms⟩ := List.forall_mem_cons.1 h
    obtain ⟨hle, hfresh⟩ := hm (r.enter params n) (n + params.length)
    obtain ⟨hle', hfresh'⟩ :=
      ih hms (renameIn (r.enter params n) body (n + params.length)).2
    have hle₀ : n ≤ (renameIn (r.enter params n) body (n + params.length)).2 := by
      dsimp only at hle
      omega
    refine ⟨Nat.le_trans hle₀ hle', fun scope hscope =>
      ⟨⟨newNames_freshNames hscope params, ?_⟩, ?_⟩⟩
    · exact hfresh _ (older_freshNames_append _ hscope)
    · exact hfresh' scope fun x hx => (hscope x hx).mono hle₀

theorem refreshes (e : Expr α) : Refreshes e := by
  induction e with
  | lit v t => exact fun r n => ⟨Nat.le_refl n, fun _ _ => trivial⟩
  | var x t => exact fun r n => ⟨Nat.le_refl n, fun _ _ => trivial⟩
  | cond test yes no t htest hyes hno =>
    intro r n
    obtain ⟨hle₁, hfresh₁⟩ := htest r n
    obtain ⟨hle₂, hfresh₂⟩ := hyes r (renameIn r test n).2
    obtain ⟨hle₃, hfresh₃⟩ := hno r (renameIn r yes (renameIn r test n).2).2
    refine ⟨Nat.le_trans hle₁ (Nat.le_trans hle₂ hle₃), fun scope hscope => ?_⟩
    refine ⟨hfresh₁ scope hscope, hfresh₂ scope fun x hx => (hscope x hx).mono hle₁, ?_⟩
    exact hfresh₃ scope fun x hx => (hscope x hx).mono (Nat.le_trans hle₁ hle₂)
  | lambda params body t hbody =>
    intro r n
    obtain ⟨hle, hfresh⟩ := hbody (r.enter params n) (n + params.length)
    refine ⟨Nat.le_trans (Nat.le_add_right n _) hle, fun scope hscope => ?_⟩
    exact ⟨newNames_freshNames hscope params, hfresh _ (older_freshNames_append _ hscope)⟩
  | assign x value t hvalue => exact fun r n => hvalue r n
  | app func args t hfunc hargs =>
    intro r n
    obtain ⟨hle₁, hfresh₁⟩ := hfunc r n
    obtain ⟨hle₂, hfresh₂⟩ := refreshes_list hargs r (renameIn r func n).2
    refine ⟨Nat.le_trans hle₁ hle₂, fun scope hscope => ⟨hfresh₁ scope hscope, ?_⟩⟩
    exact hfresh₂ scope fun x hx => (hscope x hx).mono hle₁
  | letIn bindings body t hbindings hbody =>
    intro r n
    obtain ⟨hle₁, hfresh₁⟩ := refreshes_bindings hbindings r n
    have hnames : (renameBindingsIn r bindings n).1.map (·.1) = bindings.map (·.1) :=
      map_fst_renameBindingsIn r bindings n
    obtain ⟨hle₂, hfresh₂⟩ :=
      hbody (r.enter (bindings.map (·.1)) (renameBindingsIn r bindings n).2)
        ((renameBindingsIn r bindings n).2 + (bindings.map (·.1)).length)
    refine ⟨?_, fun scope hscope => ?_⟩
    · simp only [renameIn]
      omega
    · have hscope' : ∀ x ∈ scope, Older (renameBindingsIn r bindings n).2 x :=
        fun x hx => (hscope x hx).mono hle₁
      simp only [renameIn, Fresh, map_fst_freshBindings, hnames, freshBindings_freshNames]
      exact ⟨newNames_freshNames hscope' _, hfresh₁ scope hscope,
        hfresh₂ _ (older_freshNames_append _ hscope')⟩
  | letrec bindings body t hbindings hbody =>
    intro r n
    obtain ⟨hle₁, hfresh₁⟩ :=
      refreshes_bindings hbindings (r.enter (bindings.map (·.1)) n)
        (n + (bindings.map (·.1)).length)
    have hnames := map_fst_renameBindingsIn (r.enter (bindings.map (·.1)) n) bindings
      (n + (bindings.map (·.1)).length)
    obtain ⟨hle₂, hfresh₂⟩ := hbody (r.enter (bindings.map (·.1)) n)
      (renameBindingsIn (r.enter (bindings.map (·.1)) n) bindings
        (n + (bindings.map (·.1)).length)).2
    refine ⟨?_, fun scope hscope => ?_⟩
    · simp only [renameIn]
      omega
    · simp only [renameIn, Fresh, map_fst_freshBindings, hnames, freshBindings_freshNames]
      have hinner := older_freshNames_append (bindings.map (·.1)) hscope
      exact ⟨newNames_freshNames hscope _, hfresh₁ _ hinner,
        hfresh₂ _ fun x hx => (hinner x hx).mono hle₁⟩
  | fix members body t hmembers hbody =>
    intro r n
    obtain ⟨hle₁, hfresh₁⟩ :=
      refreshes_members hmembers (r.enter (members.map (·.name)) n)
        (n + (members.map (·.name)).length)
    have hnames := map_name_renameMembersIn (r.enter (members.map (·.name)) n) members
      (n + (members.map (·.name)).length)
    obtain ⟨hle₂, hfresh₂⟩ := hbody (r.enter (members.map (·.name)) n)
      (renameMembersIn (r.enter (members.map (·.name)) n) members
        (n + (members.map (·.name)).length)).2
    refine ⟨?_, fun scope hscope => ?_⟩
    · simp only [renameIn]
      omega
    · simp only [renameIn, Fresh, map_name_freshMembers, hnames, freshMembers_freshNames]
      have hinner := older_freshNames_append (members.map (·.name)) hscope
      exact ⟨newNames_freshNames hscope _, hfresh₁ _ hinner,
        hfresh₂ _ fun x hx => (hinner x hx).mono hle₁⟩
  | seq items t hitems => exact fun r n => refreshes_list hitems r n

theorem fresh_rename (e : Expr α) : Fresh [] e.rename :=
  (refreshes e [] 0).2 [] nofun

/-! ### Later passes -/

theorem freshBindings_zip {scope xs : List Name} {es : List (Expr α)} (h : FreshList scope es) :
    FreshBindings scope (xs.zip es) := by
  refine freshBindings_iff.2 fun b hb => ?_
  exact freshList_iff.1 h b.2 (List.of_mem_zip hb).2

theorem freshList_recoverLet {scope : List Name} {es : List (Expr α)}
    (h : ∀ e ∈ es, Fresh scope e → Fresh scope e.recoverLet) (hes : FreshList scope es) :
    FreshList scope (recoverLetList es) := by
  rw [recoverLetList_eq_map, freshList_iff, List.forall_mem_map]
  exact fun e he => h e he (freshList_iff.1 hes e he)

theorem freshBindings_recoverLet {scope : List Name} {bs : List (Name × Expr α)}
    (h : ∀ b ∈ bs, Fresh scope b.2 → Fresh scope b.2.recoverLet)
    (hbs : FreshBindings scope bs) : FreshBindings scope (recoverLetBindings bs) := by
  rw [recoverLetBindings_eq_map, freshBindings_iff, List.forall_mem_map]
  exact fun b hb => h b hb (freshBindings_iff.1 hbs b hb)

theorem freshMembers_recoverLet {scope : List Name} {ms : List (Member α (Expr α))}
    (h : ∀ m ∈ ms, Fresh (m.params ++ scope) m.body →
      Fresh (m.params ++ scope) m.body.recoverLet)
    (hms : FreshMembers scope ms) : FreshMembers scope (recoverLetMembers ms) := by
  rw [recoverLetMembers_eq_map, freshMembers_iff, List.forall_mem_map]
  intro m hm
  obtain ⟨hnew, hfresh⟩ := freshMembers_iff.1 hms m hm
  exact ⟨hnew, h m hm hfresh⟩

theorem fresh_recoverLet {scope : List Name} {e : Expr α} (h : Fresh scope e) :
    Fresh scope e.recoverLet := by
  induction e generalizing scope with
  | lit v t => trivial
  | var x t => trivial
  | cond test yes no t htest hyes hno => exact ⟨htest h.1, hyes h.2.1, hno h.2.2⟩
  | lambda params body t hbody => exact ⟨h.1, hbody h.2⟩
  | assign x value t hvalue => exact hvalue h
  | app func args t hfunc hargs =>
    have hfunc' := hfunc h.1
    have hargs' := freshList_recoverLet (fun e he => hargs e he) h.2
    by_cases hlambda : ∃ params body t', func = lambda params body t' ∧ params.length = args.length
    · obtain ⟨params, body, t', rfl, hlen⟩ := hlambda
      rw [recoverLet_app_lambda body t' t hlen]
      have hnames : (params.zip (recoverLetList args)).map (·.1) = params :=
        List.map_fst_zip (Nat.le_of_eq (hlen.trans (length_recoverLetList args).symm))
      simp only [Fresh, hnames]
      exact ⟨hfunc'.1, freshBindings_zip hargs', hfunc'.2⟩
    · rw [recoverLet_app t fun params body t' hf hlen => hlambda ⟨params, body, t', hf, hlen⟩]
      exact ⟨hfunc', hargs'⟩
  | letIn bindings body t hbindings hbody =>
    simp only [recoverLet, Fresh, map_fst_recoverLetBindings]
    exact ⟨h.1, freshBindings_recoverLet (fun b hb => hbindings b hb) h.2.1, hbody h.2.2⟩
  | letrec bindings body t hbindings hbody =>
    simp only [recoverLet, Fresh, map_fst_recoverLetBindings]
    exact ⟨h.1, freshBindings_recoverLet (fun b hb => hbindings b hb) h.2.1, hbody h.2.2⟩
  | fix members body t hmembers hbody =>
    simp only [recoverLet, Fresh, map_name_recoverLetMembers]
    exact ⟨h.1, freshMembers_recoverLet (fun m hm => hmembers m hm) h.2.1, hbody h.2.2⟩
  | seq items t hitems => exact freshList_recoverLet (fun e he => hitems e he) h

theorem freshList_fixLetrec {scope : List Name} {es es' : List (Expr α)}
    (hok : List.Forall₂ (fun e e' => e.fixLetrec.result = .ok e') es es')
    (h : ∀ e ∈ es, ∀ e', e.fixLetrec.result = .ok e' → Fresh scope e → Fresh scope e')
    (hes : FreshList scope es) : FreshList scope es' := by
  induction hok with
  | nil => trivial
  | cons he _ ih =>
    obtain ⟨hfirst, hrest⟩ := List.forall_mem_cons.1 h
    exact ⟨hfirst _ he hes.1, ih hrest hes.2⟩

theorem freshBindings_fixLetrec {scope : List Name} {bs bs' : List (Name × Expr α)}
    (hok : List.Forall₂ (fun b b' => b'.1 = b.1 ∧ b.2.fixLetrec.result = .ok b'.2) bs bs')
    (h : ∀ b ∈ bs, ∀ e', b.2.fixLetrec.result = .ok e' → Fresh scope b.2 → Fresh scope e')
    (hbs : FreshBindings scope bs) : FreshBindings scope bs' := by
  induction hok with
  | nil => trivial
  | cons hb _ ih =>
    obtain ⟨hfirst, hrest⟩ := List.forall_mem_cons.1 h
    exact ⟨hfirst _ hb.2 hbs.1, ih hrest hbs.2⟩

theorem freshMembers_fixLetrec {scope : List Name} {ms ms' : List (Member α (Expr α))}
    (hok : List.Forall₂ (fun m m' => m'.name = m.name ∧ m'.params = m.params ∧
      m.body.fixLetrec.result = .ok m'.body) ms ms')
    (h : ∀ m ∈ ms, ∀ scope e', m.body.fixLetrec.result = .ok e' → Fresh scope m.body →
      Fresh scope e')
    (hms : FreshMembers scope ms) : FreshMembers scope ms' := by
  induction hok with
  | nil => trivial
  | cons hm _ ih =>
    obtain ⟨hfirst, hrest⟩ := List.forall_mem_cons.1 h
    obtain ⟨_, hparams, hbody⟩ := hm
    refine ⟨?_, ih hrest hms.2⟩
    rw [hparams]
    exact ⟨hms.1.1, hfirst _ _ hbody hms.1.2⟩

theorem freshMembers_membersOfBindings {scope : List Name} {bs : List (Name × Expr α)}
    {ms : List (Member α (Expr α))}
    (hok : List.Forall₂ (fun b m => b.1 = m.name ∧ ∃ body,
      b.2 = lambda m.params body m.tag ∧ body.fixLetrec.result = .ok m.body) bs ms)
    (h : ∀ b ∈ bs, ∀ e', b.2.fixLetrec.result = .ok e' → Fresh scope b.2 → Fresh scope e')
    (hbs : FreshBindings scope bs) : FreshMembers scope ms := by
  induction hok with
  | nil => trivial
  | cons hm _ ih =>
    obtain ⟨hfirst, hrest⟩ := List.forall_mem_cons.1 h
    obtain ⟨_, body, hlambda, hbody⟩ := hm
    rw [hlambda] at hfirst
    have hfresh := hbs.1
    rw [hlambda] at hfresh
    exact ⟨hfirst _ (fixLetrec_lambda _ hbody) hfresh, ih hrest hbs.2⟩

theorem fresh_fixLetrec {scope : List Name} {e e' : Expr α} (hok : e.fixLetrec.result = .ok e')
    (h : Fresh scope e) : Fresh scope e' := by
  induction e generalizing scope e' with
  | lit v t =>
    simp only [fixLetrec, Emit.result_pure, Except.ok.injEq] at hok
    exact hok ▸ h
  | var x t =>
    simp only [fixLetrec, Emit.result_pure, Except.ok.injEq] at hok
    exact hok ▸ h
  | cond test yes no t htest hyes hno =>
    simp only [fixLetrec, Emit.result_bind_eq_ok_iff, Emit.result_pure, Except.ok.injEq] at hok
    obtain ⟨test', h₁, yes', h₂, no', h₃, rfl⟩ := hok
    exact ⟨htest h₁ h.1, hyes h₂ h.2.1, hno h₃ h.2.2⟩
  | lambda params body t hbody =>
    simp only [fixLetrec, Emit.result_bind_eq_ok_iff, Emit.result_pure, Except.ok.injEq] at hok
    obtain ⟨body', h₁, rfl⟩ := hok
    exact ⟨h.1, hbody h₁ h.2⟩
  | assign x value t hvalue =>
    simp only [fixLetrec, Emit.result_bind_eq_ok_iff, Emit.result_pure, Except.ok.injEq] at hok
    obtain ⟨value', h₁, rfl⟩ := hok
    show Fresh scope value'
    exact hvalue h₁ h
  | app func args t hfunc hargs =>
    simp only [fixLetrec, Emit.result_bind_eq_ok_iff, Emit.result_pure, Except.ok.injEq] at hok
    obtain ⟨func', h₁, args', h₂, rfl⟩ := hok
    have hargs' := freshList_fixLetrec (fixLetrecList_ok h₂) (fun e he _ => hargs e he) h.2
    exact ⟨hfunc h₁ h.1, hargs'⟩
  | letIn bindings body t hbindings hbody =>
    simp only [fixLetrec, Emit.result_bind_eq_ok_iff, Emit.result_pure, Except.ok.injEq] at hok
    obtain ⟨bindings', h₁, body', h₂, rfl⟩ := hok
    have hbs := fixLetrecBindings_ok h₁
    have hnames := map_eq_map_of_forall₂ (hbs.imp fun _ _ hb => hb.1.symm)
    have hinits := freshBindings_fixLetrec hbs (fun b hb _ => hbindings b hb) h.2.1
    simp only [Fresh, ← hnames]
    exact ⟨h.1, hinits, hbody h₂ h.2.2⟩
  | letrec bindings body t hbindings hbody =>
    obtain ⟨ms, body', h₁, h₂, rfl⟩ := fixLetrec_letrec_ok hok
    have hms := membersOfBindings_ok h₁
    have hnames := map_eq_map_of_forall₂ (hms.imp fun _ _ hb => hb.1)
    have hprocs := freshMembers_membersOfBindings hms (fun b hb _ => hbindings b hb) h.2.1
    simp only [Fresh, ← hnames]
    exact ⟨h.1, hprocs, hbody h₂ h.2.2⟩
  | fix members body t hmembers hbody =>
    simp only [fixLetrec, Emit.result_bind_eq_ok_iff, Emit.result_pure, Except.ok.injEq] at hok
    obtain ⟨members', h₁, body', h₂, rfl⟩ := hok
    have hms := fixLetrecMembers_ok h₁
    have hnames := map_eq_map_of_forall₂ (hms.imp fun _ _ hm => hm.1.symm)
    have hprocs := freshMembers_fixLetrec hms (fun m hm _ _ => hmembers m hm) h.2.1
    simp only [Fresh, ← hnames]
    exact ⟨h.1, hprocs, hbody h₂ h.2.2⟩
  | seq items t hitems =>
    simp only [fixLetrec, Emit.result_bind_eq_ok_iff, Emit.result_pure, Except.ok.injEq] at hok
    obtain ⟨items', h₁, rfl⟩ := hok
    exact freshList_fixLetrec (fixLetrecList_ok h₁) (fun e he _ => hitems e he) h

theorem fresh_mapTag (f : α → β) {scope : List Name} {e : Expr α} :
    Fresh scope (e.mapTag f) ↔ Fresh scope e := by
  have hlist {scope : List Name} {es : List (Expr α)}
      (h : ∀ e ∈ es, ∀ scope, Fresh scope (e.mapTag f) ↔ Fresh scope e) :
      FreshList scope (mapTagList f es) ↔ FreshList scope es := by
    rw [mapTagList_eq_map, freshList_iff, List.forall_mem_map, freshList_iff]
    exact forall₂_congr fun e he => h e he scope
  have hbinds {scope : List Name} {bs : List (Name × Expr α)}
      (h : ∀ b ∈ bs, ∀ scope, Fresh scope (b.2.mapTag f) ↔ Fresh scope b.2) :
      FreshBindings scope (mapTagBindings f bs) ↔ FreshBindings scope bs := by
    rw [mapTagBindings_eq_map, freshBindings_iff, List.forall_mem_map, freshBindings_iff]
    exact forall₂_congr fun b hb => h b hb scope
  induction e generalizing scope with
  | lit v t => rfl
  | var x t => rfl
  | cond test yes no t htest hyes hno => simp only [mapTag, Fresh, htest, hyes, hno]
  | lambda params body t hbody => simp only [mapTag, Fresh, hbody]
  | assign x value t hvalue => simp only [mapTag, Fresh, hvalue]
  | app func args t hfunc hargs =>
    simp only [mapTag, Fresh, hfunc, hlist fun e he scope => hargs e he]
  | letIn bindings body t hbindings hbody =>
    simp only [mapTag, Fresh, hbody, map_fst_mapTagBindings,
      hbinds fun b hb scope => hbindings b hb]
  | letrec bindings body t hbindings hbody =>
    simp only [mapTag, Fresh, hbody, map_fst_mapTagBindings,
      hbinds fun b hb scope => hbindings b hb]
  | fix members body t hmembers hbody =>
    have hmembers' : FreshMembers (members.map (·.name) ++ scope) (mapTagMembers f members) ↔
        FreshMembers (members.map (·.name) ++ scope) members := by
      rw [mapTagMembers_eq_map, freshMembers_iff, List.forall_mem_map, freshMembers_iff]
      exact forall₂_congr fun m hm => and_congr_right fun _ => hmembers m hm
    simp only [mapTag, Fresh, hbody, map_name_mapTagMembers, hmembers']
  | seq items t hitems => exact hlist fun e he scope => hitems e he

theorem fresh_tagged {scope : List Name} {e : Expr α} (h : Fresh scope e) :
    Fresh scope e.tagged := by
  rw [← fresh_mapTag fun _ => ()] at h ⊢
  rw [← untag, untag_tagged]
  exact h

end Expr

end MiniScheme
