import MiniScheme.Proofs.Numbering
import MiniScheme.Ragged.Basic

/-!
# Even trees

The trees without surplus are those that come from a tree with paired names and values: pairing
takes such a tree apart and puts it together again.
-/

namespace MiniScheme

variable {α β : Type}

namespace Ragged

@[elab_as_elim, induction_eliminator]
theorem induct {motive : Ragged α → Prop} (lit : ∀ v t, motive (.lit v t))
    (var : ∀ x t, motive (.var x t))
    (cond : ∀ test yes no t, motive test → motive yes → motive no →
      motive (.cond test yes no t))
    (lambda : ∀ params body t, motive body → motive (.lambda params body t))
    (assign : ∀ x value t, motive value → motive (.assign x value t))
    (app : ∀ func args t, motive func → (∀ e ∈ args, motive e) → motive (.app func args t))
    (letIn : ∀ names inits body t, (∀ e ∈ inits, motive e) → motive body →
      motive (.letIn names inits body t))
    (letrec : ∀ names inits body t, (∀ e ∈ inits, motive e) → motive body →
      motive (.letrec names inits body t))
    (fix : ∀ names ts procs body t, (∀ p ∈ procs, motive p.body) → motive body →
      motive (.fix names ts procs body t))
    (seq : ∀ items t, (∀ e ∈ items, motive e) → motive (.seq items t)) (e : Ragged α) :
    motive e :=
  @Ragged.rec α motive (fun es => ∀ e ∈ es, motive e) (fun ps => ∀ p ∈ ps, motive p.body)
    (fun p => motive p.body) lit var cond lambda assign app letIn letrec fix seq
    nofun (fun _ _ h hs => List.forall_mem_cons.2 ⟨h, hs⟩)
    nofun (fun _ _ h hs => List.forall_mem_cons.2 ⟨h, hs⟩) (fun _ _ h => h) e

/-- Induction over all that is directly below the root. -/
theorem induct_children {motive : Ragged α → Prop}
    (node : ∀ e, (∀ d ∈ e.children, motive d) → motive e) (e : Ragged α) : motive e := by
  induction e with
  | lit v t => exact node _ nofun
  | var x t => exact node _ nofun
  | cond test yes no t htest hyes hno => exact node _ (by simp [children, htest, hyes, hno])
  | lambda params body t hbody => exact node _ (by simp [children, hbody])
  | assign x value t hvalue => exact node _ (by simp [children, hvalue])
  | app func args t hfunc hargs => exact node _ (List.forall_mem_cons.2 ⟨hfunc, hargs⟩)
  | letIn names inits body t hinits hbody =>
    exact node _ (List.forall_mem_append.2 ⟨hinits, by simpa using hbody⟩)
  | letrec names inits body t hinits hbody =>
    exact node _ (List.forall_mem_append.2 ⟨hinits, by simpa using hbody⟩)
  | fix names ts procs body t hprocs hbody =>
    refine node _ (List.forall_mem_append.2 ⟨List.forall_mem_map.2 hprocs, ?_⟩)
    simpa using hbody
  | seq items t hitems => exact node _ hitems

/-! ### Lists of trees -/

theorem allList_eq_all (p : Ragged α → Bool) (es : List (Ragged α)) :
    allList p es = es.all (all p) := by
  induction es with
  | nil => rfl
  | cons e es ih => rw [allList, List.all_cons, ih]

theorem allProcs_eq_all (p : Ragged α → Bool) (ps : List (Procedure (Ragged α))) :
    allProcs p ps = ps.all fun proc => all p proc.body := by
  induction ps with
  | nil => rfl
  | cons proc ps ih => rw [allProcs, List.all_cons, ih]

theorem all_iff {p : Ragged α → Bool} {e : Ragged α} :
    e.all p = true ↔ p e = true ∧ ∀ d ∈ e.children, d.all p = true := by
  cases e <;> simp [all, children, allList_eq_all, allProcs_eq_all, and_assoc, or_imp,
    forall_and]

theorem pairedList_eq_map (es : List (Ragged α)) : pairedList es = es.map paired := by
  induction es with
  | nil => rfl
  | cons e es ih => rw [pairedList, List.map_cons, ih]

theorem pairedProcs_eq_map (ps : List (Procedure (Ragged α))) :
    pairedProcs ps = ps.map fun p => ⟨p.params, p.body.paired⟩ := by
  induction ps with
  | nil => rfl
  | cons p ps ih => rw [pairedProcs, List.map_cons, ih]

end Ragged

namespace Expr

theorem raggedList_eq_map (es : List (Expr α)) : raggedList es = es.map ragged := by
  induction es with
  | nil => rfl
  | cons e es ih => rw [raggedList, List.map_cons, ih]

theorem raggedBindings_eq_map (bs : List (Name × Expr α)) :
    raggedBindings bs = bs.map fun b => b.2.ragged := by
  induction bs with
  | nil => rfl
  | cons b bs ih => rw [raggedBindings, List.map_cons, ih]

theorem raggedMembers_eq_map (ms : List (Member α (Expr α))) :
    raggedMembers ms = ms.map fun m => ⟨m.params, m.body.ragged⟩ := by
  induction ms with
  | nil => rfl
  | cons m ms ih => rw [raggedMembers, List.map_cons, ih]

theorem raggedBindings_eq_raggedList (bs : List (Name × Expr α)) :
    raggedBindings bs = raggedList (bs.map (·.2)) := by
  rw [raggedBindings_eq_map, raggedList_eq_map, List.map_map]
  rfl

@[simp] theorem children_ragged (e : Expr α) : e.ragged.children = e.children.map ragged := by
  cases e <;> simp [ragged, children, Ragged.children, raggedList_eq_map, raggedBindings_eq_map,
    raggedMembers_eq_map]

theorem isMatched_ragged (e : Expr α) : e.ragged.isMatched = true := by
  cases e <;> simp [ragged, Ragged.isMatched, raggedBindings_eq_map, raggedMembers_eq_map]

theorem isEven_ragged (e : Expr α) : e.ragged.isEven = true := by
  induction e using induct_children with
  | node e ih =>
    refine Ragged.all_iff.2 ⟨isMatched_ragged e, ?_⟩
    rw [children_ragged]
    exact List.forall_mem_map.2 ih

end Expr

/-! ### Taking apart and putting together -/

theorem zip_map_fst_snd (bs : List (Name × β)) : (bs.map (·.1)).zip (bs.map (·.2)) = bs :=
  (List.zip_of_prod rfl rfl).symm

namespace Ragged

theorem pairMembers_map (t : α) (ms : List (Member α β)) :
    pairMembers t (ms.map (·.name)) (ms.map (·.tag)) (ms.map fun m => ⟨m.params, m.body⟩) =
      ms := by
  induction ms with
  | nil => rfl
  | cons m ms ih => simp only [List.map_cons, pairMembers, ih]

end Ragged

theorem Expr.paired_ragged (e : Expr α) : e.ragged.paired = e := by
  induction e with
  | lit v t => rfl
  | var x t => rfl
  | cond test yes no t htest hyes hno => simp only [ragged, Ragged.paired, htest, hyes, hno]
  | lambda params body t hbody => simp only [ragged, Ragged.paired, hbody]
  | assign x value t hvalue => simp only [ragged, Ragged.paired, hvalue]
  | app func args t hfunc hargs =>
    simp only [ragged, Ragged.paired, raggedList_eq_map, Ragged.pairedList_eq_map, List.map_map,
      Function.comp_def, hfunc, map_eq_self hargs]
  | letIn bindings body t hbindings hbody =>
    simp only [ragged, Ragged.paired, raggedBindings_eq_map, Ragged.pairedList_eq_map,
      List.map_map, Function.comp_def, hbody, List.map_congr_left hbindings,
      zip_map_fst_snd]
  | letrec bindings body t hbindings hbody =>
    simp only [ragged, Ragged.paired, raggedBindings_eq_map, Ragged.pairedList_eq_map,
      List.map_map, Function.comp_def, hbody, List.map_congr_left hbindings,
      zip_map_fst_snd]
  | fix members body t hmembers hbody =>
    have hprocs : members.map (fun m => (⟨m.params, m.body.ragged.paired⟩ : Procedure (Expr α))) =
        members.map fun m => ⟨m.params, m.body⟩ :=
      List.map_congr_left fun m hm => by rw [hmembers m hm]
    simp only [ragged, Ragged.paired, raggedMembers_eq_map, Ragged.pairedProcs_eq_map,
      List.map_map, Function.comp_def, hbody, hprocs, Ragged.pairMembers_map]
  | seq items t hitems =>
    simp only [ragged, Ragged.paired, raggedList_eq_map, Ragged.pairedList_eq_map, List.map_map,
      Function.comp_def, map_eq_self hitems]

theorem Expr.lists_zip {names : List Name} {es : List (Expr α)}
    (h : names.length = es.length) :
    (names.zip es).map (·.1) = names ∧ raggedBindings (names.zip es) = es.map ragged := by
  refine ⟨List.map_fst_zip (Nat.le_of_eq h), ?_⟩
  have hvalues : (names.zip es).map (·.2) = es := List.map_snd_zip (Nat.le_of_eq h.symm)
  calc raggedBindings (names.zip es)
      = ((names.zip es).map (·.2)).map ragged := by rw [raggedBindings_eq_map, List.map_map]; rfl
    _ = es.map ragged := by rw [hvalues]

namespace Ragged

end Ragged

/-! ### Annotations and parts -/

namespace Ragged

theorem untagList_eq_map (es : List (Ragged α)) : untagList es = es.map untag := by
  induction es with
  | nil => rfl
  | cons e es ih => rw [untagList, List.map_cons, ih]

theorem untagProcs_eq_map (ps : List (Procedure (Ragged α))) :
    untagProcs ps = ps.map fun p => ⟨p.params, p.body.untag⟩ := by
  induction ps with
  | nil => rfl
  | cons p ps ih => rw [untagProcs, List.map_cons, ih]

inductive Occurs : Ragged α → Ragged α → Prop
  | self (e : Ragged α) : Occurs e e
  | inside {e' d e : Ragged α} (hd : d ∈ e.children) (h : Occurs e' d) : Occurs e' e

end Ragged

namespace Expr

end Expr

end MiniScheme
