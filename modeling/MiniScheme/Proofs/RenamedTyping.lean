import MiniScheme.Proofs.Inference
import MiniScheme.Proofs.RenamedEvaluation

/-!
# Renaming keeps types

Inference reads a tree with shadowed and repeated names as renaming does: a reference has the type
of the binder that renaming sends it to. Renaming a tree whose free names are primitive changes
neither the types that inference finds, down to the numbers of type variables and nodes, nor the
error it reports.
-/

namespace MiniScheme

namespace Expr

variable {α : Type}

/-! ### Numbering renamed trees -/

theorem tagBindingsFrom_fresh (bs : List (Name × Expr α)) (n k : Nat) :
    tagBindingsFrom (freshBindings bs n) k =
      (freshBindings (tagBindingsFrom bs k).1 n, (tagBindingsFrom bs k).2) := by
  induction bs generalizing n k with
  | nil => rfl
  | cons b bs ih => simp only [freshBindings, tagBindingsFrom, ih]

theorem tagMembersFrom_fresh (reserved : Nat) (ms : List (Member α (Expr α))) (n k : Nat) :
    tagMembersFrom reserved (freshMembers ms n) k =
      (freshMembers (tagMembersFrom reserved ms k).1 n, (tagMembersFrom reserved ms k).2) := by
  induction ms generalizing reserved n k with
  | nil => rfl
  | cons m ms ih => simp only [freshMembers, tagMembersFrom, ih]

theorem length_renameGroup (r : Renaming) (ms : List (Member α (Expr α))) (n : Nat) :
    (renameGroup r ms n).length = ms.length := by
  have hnames := congrArg List.length (map_name_renameGroup r ms n)
  rwa [length_freshNames, List.length_map, List.length_map] at hnames

/-- Two passes over a tree, each with a counter of its own, do not disturb each other: in either
order they give one tree and leave their counters at the same values. -/
def Independent {T T' : Type} (number : T → Nat → T' × Nat) (rename : T → Nat → T × Nat)
    (rename' : T' → Nat → T' × Nat) (e : T) (n k : Nat) : Prop :=
  (number (rename e n).1 k).1 = (rename' (number e k).1 n).1 ∧
    (number (rename e n).1 k).2 = (number e k).2 ∧
    (rename' (number e k).1 n).2 = (rename e n).2

/-- Numbering a tree is independent of renaming it. -/
def NumberedRenamed (e : Expr α) : Prop :=
  ∀ (r : Renaming) (n k : Nat), Independent tagFrom (renameIn r) (renameIn r) e n k

theorem numberedRenamed_list {es : List (Expr α)} (h : ∀ e ∈ es, NumberedRenamed e)
    (r : Renaming) (n k : Nat) :
    Independent tagListFrom (renameListIn r) (renameListIn r) es n k := by
  induction es generalizing n k with
  | nil => exact ⟨rfl, rfl, rfl⟩
  | cons e es ih =>
    obtain ⟨he, hes⟩ := List.forall_mem_cons.1 h
    obtain ⟨htree, hnumber, hcounter⟩ := he r n k
    obtain ⟨htrees, hnumbers, hcounters⟩ := ih hes (renameIn r e n).2 (tagFrom e k).2
    simp only [Independent, renameListIn, tagListFrom, htree, hnumber, hcounter, htrees, hnumbers,
      hcounters, and_self]

theorem numberedRenamed_bindings {bs : List (Name × Expr α)} (h : ∀ b ∈ bs, NumberedRenamed b.2)
    (r : Renaming) (n k : Nat) :
    Independent tagBindingsFrom (renameBindingsIn r) (renameBindingsIn r) bs n k := by
  induction bs generalizing n k with
  | nil => exact ⟨rfl, rfl, rfl⟩
  | cons b bs ih =>
    obtain ⟨hb, hbs⟩ := List.forall_mem_cons.1 h
    obtain ⟨htree, hnumber, hcounter⟩ := hb r n k
    obtain ⟨htrees, hnumbers, hcounters⟩ := ih hbs (renameIn r b.2 n).2 (tagFrom b.2 k).2
    simp only [Independent, renameBindingsIn, tagBindingsFrom, htree, hnumber, hcounter, htrees,
      hnumbers, hcounters, and_self]

theorem numberedRenamed_members {ms : List (Member α (Expr α))}
    (h : ∀ m ∈ ms, NumberedRenamed m.body) (r : Renaming) (reserved n k : Nat) :
    Independent (tagMembersFrom reserved) (renameMembersIn r) (renameMembersIn r) ms n k := by
  induction ms generalizing reserved n k with
  | nil => exact ⟨rfl, rfl, rfl⟩
  | cons m ms ih =>
    obtain ⟨hm, hms⟩ := List.forall_mem_cons.1 h
    obtain ⟨htree, hnumber, hcounter⟩ := hm (r.enter m.params n) (n + m.params.length) k
    obtain ⟨htrees, hnumbers, hcounters⟩ := ih hms (reserved + 1)
      (renameIn (r.enter m.params n) m.body (n + m.params.length)).2 (tagFrom m.body k).2
    simp only [Independent, renameMembersIn, tagMembersFrom, htree, hnumber, hcounter, htrees,
      hnumbers, hcounters, and_self]

theorem numberedRenamed (e : Expr α) : NumberedRenamed e := by
  induction e with
  | lit v t => exact fun r n k => ⟨rfl, rfl, rfl⟩
  | var x t => exact fun r n k => ⟨rfl, rfl, rfl⟩
  | cond test yes no t htest hyes hno =>
    intro r n k
    obtain ⟨htree₁, hnumber₁, hcounter₁⟩ := htest r n k
    obtain ⟨htree₂, hnumber₂, hcounter₂⟩ := hyes r (renameIn r test n).2 (tagFrom test k).2
    obtain ⟨htree₃, hnumber₃, hcounter₃⟩ := hno r
      (renameIn r yes (renameIn r test n).2).2 (tagFrom yes (tagFrom test k).2).2
    simp only [Independent, renameIn, tagFrom, htree₁, hnumber₁, hcounter₁, htree₂, hnumber₂,
      hcounter₂, htree₃, hnumber₃, hcounter₃, and_self]
  | lambda params body t hbody =>
    intro r n k
    obtain ⟨htree, hnumber, hcounter⟩ := hbody (r.enter params n) (n + params.length) k
    simp only [Independent, renameIn, tagFrom, htree, hnumber, hcounter, and_self]
  | assign x value t hvalue =>
    intro r n k
    obtain ⟨htree, hnumber, hcounter⟩ := hvalue r n k
    simp only [Independent, renameIn, tagFrom, htree, hnumber, hcounter, and_self]
  | app func args t hfunc hargs =>
    intro r n k
    obtain ⟨htree, hnumber, hcounter⟩ := hfunc r n k
    obtain ⟨htrees, hnumbers, hcounters⟩ :=
      numberedRenamed_list hargs r (renameIn r func n).2 (tagFrom func k).2
    simp only [Independent, renameIn, tagFrom, htree, hnumber, hcounter, htrees, hnumbers,
      hcounters, and_self]
  | letIn bindings body t hbindings hbody =>
    intro r n k
    obtain ⟨htrees, hnumbers, hcounters⟩ := numberedRenamed_bindings hbindings r n k
    obtain ⟨htree, hnumber, hcounter⟩ := hbody
      (r.enter (bindings.map (·.1)) (renameBindingsIn r bindings n).2)
      ((renameBindingsIn r bindings n).2 + (bindings.map (·.1)).length)
      (tagBindingsFrom bindings k).2
    simp only [Independent, renameIn, tagFrom, tagBindingsFrom_fresh, map_fst_tagBindingsFrom,
      htree, hnumber, hcounter, htrees, hnumbers, hcounters, and_self]
  | letrec bindings body t hbindings hbody =>
    intro r n k
    obtain ⟨htrees, hnumbers, hcounters⟩ := numberedRenamed_bindings hbindings
      (r.enter (bindings.map (·.1)) n) (n + (bindings.map (·.1)).length) k
    obtain ⟨htree, hnumber, hcounter⟩ := hbody (r.enter (bindings.map (·.1)) n)
      (renameBindingsIn (r.enter (bindings.map (·.1)) n) bindings
        (n + (bindings.map (·.1)).length)).2
      (tagBindingsFrom bindings k).2
    simp only [Independent, renameIn, tagFrom, tagBindingsFrom_fresh, map_fst_tagBindingsFrom,
      htree, hnumber, hcounter, htrees, hnumbers, hcounters, and_self]
  | fix members body t hmembers hbody =>
    intro r n k
    obtain ⟨htrees, hnumbers, hcounters⟩ := numberedRenamed_members hmembers
      (r.enter (members.map (·.name)) n) k (n + (members.map (·.name)).length) (k + members.length)
    obtain ⟨htree, hnumber, hcounter⟩ := hbody (r.enter (members.map (·.name)) n)
      (renameMembersIn (r.enter (members.map (·.name)) n) members
        (n + (members.map (·.name)).length)).2
      (tagMembersFrom k members (k + members.length)).2
    have hlen := length_renameGroup r members n
    rw [renameGroup] at hlen
    simp only [Independent, renameIn, tagFrom, hlen, tagMembersFrom_fresh, map_name_tagMembersFrom,
      htree, hnumber, hcounter, htrees, hnumbers, hcounters, and_self]
  | seq items t hitems =>
    intro r n k
    obtain ⟨htrees, hnumbers, hcounters⟩ := numberedRenamed_list hitems r n k
    simp only [Independent, renameIn, tagFrom, htrees, hnumbers, hcounters, and_self]

theorem tagged_rename (e : Expr α) : e.rename.tagged = e.tagged.rename :=
  (numberedRenamed e [] 0 0).1

theorem map_tag_renameGroup (r : Renaming) (ms : List (Member α (Expr α))) (n : Nat) :
    (renameGroup r ms n).map (·.tag) = ms.map (·.tag) := by
  have hfresh (ms : List (Member α (Expr α))) (n : Nat) :
      (freshMembers ms n).map (·.tag) = ms.map (·.tag) := by
    induction ms generalizing n with
    | nil => rfl
    | cons m ms ih => simp only [freshMembers, List.map_cons, ih]
  have hrenamed (r : Renaming) (ms : List (Member α (Expr α))) (n : Nat) :
      (renameMembersIn r ms n).1.map (·.tag) = ms.map (·.tag) := by
    induction ms generalizing n with
    | nil => rfl
    | cons m ms ih => simp only [renameMembersIn, List.map_cons, ih]
  rw [renameGroup, hfresh, hrenamed]

end Expr

/-! ### Scopes before and after -/

namespace Renaming

variable {r : Renaming} {n : Nat} {x : Name}

theorem find_of_notMem (h : x ∉ r.map (·.1)) : r.find x = x := by
  cases hy : r.lookup x with
  | some y =>
    obtain ⟨before, after, hsplit, _⟩ := List.lookup_eq_some_iff.1 hy
    simp [hsplit] at h
  | none => rw [find, hy, Option.getD_none]

/-- A generated name is neither one that is in use nor that of a primitive. -/
theorem OlderThan.find_ne {z : Name} (h : r.OlderThan n)
    (hx : x ∈ r.map (·.1) ∨ x ∈ Primitive.names) : r.find x ≠ freshName z n := by
  cases hy : r.lookup x with
  | some y =>
    rw [find, hy, Option.getD_some]
    exact (h.ne hy).symm
  | none =>
    rw [find, hy, Option.getD_none]
    rintro rfl
    have hprim := hx.resolve_left (Expr.notMem_of_lookup_eq_none hy)
    exact Expr.notMem_names_of_ofName? (ofName?_freshName z n) hprim

end Renaming

/-- A name has the same type before and after renaming. -/
structure TypeScope.Renamed (r : Renaming) (scope scope' : TypeScope) : Prop where
  names : scope.map (·.1) = r.map (·.1)
  lookup : ∀ x, x ∈ r.map (·.1) ∨ x ∈ Primitive.names →
    scope'.lookup (r.find x) = scope.lookup x

namespace TypeScope.Renamed

variable {r : Renaming} {n : Nat} {scope scope' : TypeScope}

theorem bind (h : Renamed r scope scope') (hold : r.OlderThan n) (x : Name) (ty : Ty) :
    Renamed ((x, freshName x n) :: r) ((x, ty) :: scope) ((freshName x n, ty) :: scope') := by
  refine ⟨congrArg (x :: ·) h.names, fun z hz => ?_⟩
  by_cases hzx : z = x
  · subst hzx
    simp [Renaming.find]
  · have hmem : z ∈ r.map (·.1) ∨ z ∈ Primitive.names := by
      simpa [hzx] using hz
    have hfind : Renaming.find ((x, freshName x n) :: r) z = r.find z := by
      simp [Renaming.find, List.lookup_cons, beq_false_of_ne hzx]
    rw [hfind, List.lookup_cons, List.lookup_cons, beq_false_of_ne hzx,
      beq_false_of_ne (hold.find_ne hmem)]
    exact h.lookup z hmem

theorem enter (h : Renamed r scope scope') (hold : r.OlderThan n) {xs : List Name} {tys : List Ty}
    (hlen : tys.length = xs.length) :
    Renamed (r.enter xs n) (scope.enter xs tys) (scope'.enter (freshNames xs n) tys) := by
  induction xs generalizing r n scope scope' tys with
  | nil => exact h
  | cons x xs ih =>
    cases tys with
    | nil => cases hlen
    | cons ty tys =>
      have hrest := ih (h.bind hold x ty) (hold.cons x) (Nat.succ.inj hlen)
      simpa [TypeScope.enter, Renaming.enter, freshNames] using hrest

theorem typeOfName_eq (h : Renamed r scope scope') {x : Name}
    (hx : x ∈ r.map (·.1) ∨ x ∈ Primitive.names) :
    InferM.typeOfName scope' (r.find x) = InferM.typeOfName scope x := by
  unfold InferM.typeOfName
  rw [h.lookup x hx]
  cases hlookup : scope.lookup x with
  | some ty => rfl
  | none =>
    have hnot : x ∉ r.map (·.1) := h.names ▸ Expr.notMem_of_lookup_eq_none hlookup
    rw [Renaming.find_of_notMem hnot]

end TypeScope.Renamed

/-! ### The walk -/

namespace InferM

variable {β γ : Type}

/-- Two continuations need to agree only on what the computation before them can return. -/
theorem bind_congr_of_run {m : InferM β} {k k' : β → InferM γ}
    (h : ∀ {s s' b}, m.run s = .ok (b, s') → k b = k' b) : m >>= k = m >>= k' := by
  funext s
  show (m s >>= fun r => k r.1 r.2) = (m s >>= fun r => k' r.1 r.2)
  cases hm : m s with
  | error e => rfl
  | ok r => exact congrFun (h hm) r.2

theorem freshFor_freshNames (xs : List Name) (n : Nat) :
    freshFor (freshNames xs n) = freshFor xs := by
  induction xs generalizing n with
  | nil => rfl
  | cons x xs ih => simp only [freshNames, freshFor, ih]

end InferM

namespace Expr

open InferM

variable {r : Renaming} {n : Nat} {scope scope' : TypeScope}

/-- The walk over the renamed tree does what it does over the tree. -/
def KeepsJudgement (e : Expr Nat) : Prop :=
  ∀ {r : Renaming} {n : Nat} {scope scope' : TypeScope}, scope.Renamed r scope' →
    r.OlderThan n → r.Closes e → annotate scope' (renameIn r e n).1 = annotate scope e

theorem annotateList_renamed {es : List (Expr Nat)} (hes : ∀ e ∈ es, KeepsJudgement e)
    (hscope : scope.Renamed r scope') (hold : r.OlderThan n) (hclosed : ∀ e ∈ es, r.Closes e) :
    annotateList scope' (renameListIn r es n).1 = annotateList scope es := by
  induction es generalizing n with
  | nil => rfl
  | cons e es ih =>
    obtain ⟨he, hes⟩ := List.forall_mem_cons.1 hes
    obtain ⟨hfirst, hrest⟩ := List.forall_mem_cons.1 hclosed
    have hold' := hold.mono (refreshes e r n).1
    simp only [renameListIn, annotateList, he hscope hold hfirst, ih hes hold' hrest]

/-- Under a binder list the walk draws as many types for the new names as for the old. -/
theorem annotate_entered {xs : List Name} {body : Expr Nat} {tys : List Ty}
    (hbody : KeepsJudgement body) (hscope : scope.Renamed r scope') (hold : r.OlderThan n)
    (hclosed : ∀ x, body.FreeIn x → x ∉ xs → x ∈ r.map (·.1) ∨ x ∈ Primitive.names)
    (hlen : tys.length = xs.length) {k : Nat} (hk : n + xs.length ≤ k) :
    annotate (scope'.enter (freshNames xs n) tys) (renameIn (r.enter xs n) body k).1 =
      annotate (scope.enter xs tys) body :=
  hbody (hscope.enter hold hlen) ((hold.enter xs).mono hk) (Renaming.closes_enter hclosed)

theorem annotateMembers_renamed {ms : List (Member Nat (Expr Nat))}
    (hms : ∀ m ∈ ms, KeepsJudgement m.body) (hscope : scope.Renamed r scope')
    (hold : r.OlderThan n)
    (hclosed : ∀ m ∈ ms, ∀ x, m.body.FreeIn x → x ∉ m.params →
      x ∈ r.map (·.1) ∨ x ∈ Primitive.names) :
    annotateMembers scope' (renameMembersIn r ms n).1 = annotateMembers scope ms := by
  induction ms generalizing n with
  | nil => rfl
  | cons m ms ih =>
    obtain ⟨hm, hms⟩ := List.forall_mem_cons.1 hms
    obtain ⟨hfirst, hrest⟩ := List.forall_mem_cons.1 hclosed
    have hle := (refreshes m.body (r.enter m.params n) (n + m.params.length)).1
    have hold' := hold.mono (Nat.le_trans (Nat.le_add_right n m.params.length) hle)
    simp only [renameMembersIn, annotateMembers, freshFor_freshNames, ih hms hold' hrest]
    refine bind_congr_of_run fun htys => ?_
    rw [annotate_entered hm hscope hold hfirst (length_freshFor htys) (Nat.le_refl _)]

theorem annotateMembers_fresh (scope : TypeScope) (ms : List (Member Nat (Expr Nat))) (n : Nat) :
    annotateMembers scope (freshMembers ms n) = annotateMembers scope ms := by
  induction ms generalizing n with
  | nil => rfl
  | cons m ms ih => simp only [freshMembers, annotateMembers, ih]

theorem keepsJudgement (e : Expr Nat) : KeepsJudgement e := by
  induction e with
  | lit v t => exact fun _ _ _ => rfl
  | var x t =>
    intro r n scope scope' hscope hold hclosed
    simp only [renameIn, annotate, hscope.typeOfName_eq (hclosed x (freeIn_var.2 rfl))]
  | cond test yes no t htest hyes hno =>
    intro r n scope scope' hscope hold hclosed
    have hold₁ := hold.mono (refreshes test r n).1
    have hold₂ := hold₁.mono (refreshes yes r _).1
    simp only [renameIn, annotate,
      htest hscope hold fun x hx => hclosed x (freeIn_cond.2 (.inl hx)),
      hyes hscope hold₁ fun x hx => hclosed x (freeIn_cond.2 (.inr (.inl hx))),
      hno hscope hold₂ fun x hx => hclosed x (freeIn_cond.2 (.inr (.inr hx)))]
  | lambda params body t hbody =>
    intro r n scope scope' hscope hold hclosed
    have hclosed' := fun x hx hout => hclosed x (freeIn_lambda.2 ⟨hx, hout⟩)
    simp only [renameIn, annotate, freshFor_freshNames]
    refine bind_congr_of_run fun htys => ?_
    rw [annotate_entered hbody hscope hold hclosed' (length_freshFor htys) (Nat.le_refl _)]
  | assign x value t _ => exact fun _ _ _ => rfl
  | app func args t hfunc hargs =>
    intro r n scope scope' hscope hold hclosed
    have hold' := hold.mono (refreshes func r n).1
    have hclosed' : ∀ e ∈ args, r.Closes e :=
      fun e he x hx => hclosed x (freeIn_app.2 (.inr ⟨e, he, hx⟩))
    simp only [renameIn, annotate, annotateList_renamed hargs hscope hold' hclosed',
      hfunc hscope hold fun x hx => hclosed x (freeIn_app.2 (.inl hx))]
  | letIn bindings body t hbindings hbody =>
    intro r n scope scope' hscope hold hclosed
    have hold' : r.OlderThan (renameBindingsIn r bindings n).2 :=
      hold.mono (refreshes_bindings (fun b _ => refreshes b.2) r n).1
    have hinits : ∀ e ∈ bindings.map (·.2), r.Closes e :=
      List.forall_mem_map.2 fun b hb x hx => hclosed x (freeIn_letIn.2 (.inl ⟨b, hb, hx⟩))
    have hclosed' := fun x hx hout => hclosed x (freeIn_letIn.2 (.inr ⟨hx, hout⟩))
    simp only [renameIn, annotate, annotateBindings_eq, map_snd_freshBindings,
      (renameBindingsIn_eq r bindings n).1, map_fst_freshBindings, map_fst_renameBindingsIn,
      annotateList_renamed (List.forall_mem_map.2 hbindings) hscope hold hinits]
    refine bind_congr_of_run fun hj => ?_
    have hlen := length_annotateList hj
    rw [List.length_map] at hlen
    rw [annotate_entered hbody hscope hold' hclosed' (by rw [hlen, List.length_map])
      (Nat.le_refl _)]
  | letrec bindings body t _ _ => exact fun _ _ _ => rfl
  | fix members body t hmembers hbody =>
    intro r n scope scope' hscope hold hclosed
    have hle : n + (members.map (·.name)).length ≤ (renameMembersIn
        (r.enter (members.map (·.name)) n) members (n + (members.map (·.name)).length)).2 :=
      (refreshes_members (fun m _ => refreshes m.body) _ _).1
    have hprocs : ∀ m ∈ members, ∀ x, m.body.FreeIn x → x ∉ m.params →
        x ∈ (r.enter (members.map (·.name)) n).map (·.1) ∨ x ∈ Primitive.names := by
      intro m hm x hx hout
      rw [Renaming.mem_map_fst_enter, or_assoc]
      by_cases hmem : x ∈ members.map (·.name)
      · exact .inl hmem
      · exact .inr (hclosed x (freeIn_fix.2 ⟨.inl ⟨m, hm, hx, hout⟩, hmem⟩))
    have hclosed' := fun x hx hout => hclosed x (freeIn_fix.2 ⟨.inr hx, hout⟩)
    have hnames := map_name_renameGroup r members n
    have htags := map_tag_renameGroup r members n
    rw [renameGroup] at hnames htags
    simp only [renameIn, annotate, annotateMembers_fresh, hnames, htags, freshFor_freshNames]
    refine bind_congr_of_run fun htys => ?_
    have hlen := length_freshFor htys
    rw [annotateMembers_renamed hmembers (hscope.enter hold hlen) (hold.enter _) hprocs,
      annotate_entered hbody hscope hold hclosed' hlen hle]
  | seq items t hitems =>
    intro r n scope scope' hscope hold hclosed
    have hclosed' : ∀ e ∈ items, r.Closes e :=
      fun e he x hx => hclosed x (freeIn_seq.2 ⟨e, he, hx⟩)
    simp only [renameIn, annotate, annotateList_renamed hitems hscope hold hclosed']

/-- Inference finds the same types, with the same variables at the same nodes, or the same error
before and after renaming. -/
theorem infer_tagged_rename {α : Type} (e : Expr α)
    (hclosed : ∀ x ∈ e.free [], x ∈ Primitive.names) : e.rename.tagged.infer = e.tagged.infer := by
  have hcloses : Renaming.Closes [] e.tagged := fun x hx =>
    .inr (hclosed x (mem_free.2 (freeIn_tagged.1 hx)))
  have hold : Renaming.OlderThan [] 0 := nofun
  have hwalk : annotate [] e.tagged.rename = annotate [] e.tagged :=
    keepsJudgement e.tagged ⟨rfl, fun x hx => rfl⟩ hold hcloses
  unfold infer TypingProblem.ofExpr
  rw [tagged_rename, hwalk]

/-- Types for the variables that are drawn for `tangled`, the two members of its group among
them. -/
def tangledTypes : Nat → Ty
  | 3 => .arrow [.int, .int, .int]
  | 4 => .arrow [.int, .int]
  | _ => .int

theorem infer_tagged_rename_tangled : (∀ x ∈ tangled.free [], x ∈ Primitive.names) ∧
    ∃ typing, tangled.tagged.infer = .ok typing ∧ tangled.rename.tagged.infer = .ok typing := by
  have hclosed : ∀ x ∈ tangled.free [], x ∈ Primitive.names := by decide +kernel
  have hsolved : (TypingProblem.ofExpr tangled.tagged).map (fun p =>
      decide (Solves tangledTypes p.judgement.constraints)) = .ok true := by decide +kernel
  obtain ⟨problem, hproblem, hsolves⟩ := Results.map_eq_ok_iff.1 hsolved
  obtain ⟨typing, htyping⟩ := infer_of_solves hproblem (of_decide_eq_true hsolves)
  have hrenamed := infer_tagged_rename tangled hclosed
  rw [htyping] at hrenamed
  exact ⟨hclosed, typing, htyping, hrenamed⟩

end Expr

end MiniScheme
