import MiniScheme.Proofs.EvenPasses
import MiniScheme.Proofs.Hygiene
import MiniScheme.Proofs.NameChange

/-!
# Binders are unique after renaming

Renaming gives the binders of a tree the names that the counter generates for them one after the
other, wherever they stand and whether or not they have values. What follows the last dot of a
generated name is its number, so two binders never share a name, however they were spelled, and no
binder takes the name of a primitive. Nothing but names changes.
-/

namespace MiniScheme

variable {α : Type}

theorem map_blank_freshNames (xs : List Name) (n : Nat) :
    (freshNames xs n).map (fun _ => "") = xs.map fun _ => "" := by
  rw [List.map_const', List.map_const', length_freshNames]

namespace Ragged

/-! ### The names of the renamed tree -/

mutual
/-- The names of all binders of a tree in the order in which renaming comes to them: those of a
`let` after all that is bound in its values. -/
def binders : Ragged α → List Name
  | lit _ _ => []
  | var _ _ => []
  | cond test yes no _ => binders test ++ binders yes ++ binders no
  | lambda params body _ => params ++ binders body
  | assign _ value _ => binders value
  | app func args _ => binders func ++ bindersList args
  | letIn names inits body _ => bindersList inits ++ names ++ binders body
  | letrec names inits body _ => names ++ bindersList inits ++ binders body
  | fix names _ procs body _ => names ++ bindersProcs procs ++ binders body
  | seq items _ => bindersList items
termination_by structural e => e

def bindersList : List (Ragged α) → List Name
  | [] => []
  | e :: es => binders e ++ bindersList es
termination_by structural es => es

def bindersProcs : List (Procedure (Ragged α)) → List Name
  | [] => []
  | ⟨params, body⟩ :: ps => params ++ binders body ++ bindersProcs ps
termination_by structural ps => ps
end

/-- The binders of the renamed tree have the names generated for the binders of the tree, and the
counter has moved on by as many. -/
def NamedAnew (e : Ragged α) : Prop :=
  ∀ (r : Renaming) (n : Nat), (renameIn r e n).1.binders = freshNames e.binders n ∧
    (renameIn r e n).2 = n + e.binders.length

theorem namedAnew_list {es : List (Ragged α)} (h : ∀ e ∈ es, NamedAnew e) (r : Renaming)
    (n : Nat) : bindersList (renameListIn r es n).1 = freshNames (bindersList es) n ∧
      (renameListIn r es n).2 = n + (bindersList es).length := by
  induction es generalizing n with
  | nil => exact ⟨rfl, rfl⟩
  | cons e es ih =>
    obtain ⟨he, hes⟩ := List.forall_mem_cons.1 h
    simp only [renameListIn, bindersList, freshNames_append, List.length_append, ← Nat.add_assoc,
      he r _, ih hes, and_self]

theorem namedAnew_procs {ps : List (Procedure (Ragged α))} (h : ∀ p ∈ ps, NamedAnew p.body)
    (r : Renaming) (n : Nat) :
    bindersProcs (renameProcsIn r ps n).1 = freshNames (bindersProcs ps) n ∧
      (renameProcsIn r ps n).2 = n + (bindersProcs ps).length := by
  induction ps generalizing n with
  | nil => exact ⟨rfl, rfl⟩
  | cons p ps ih =>
    obtain ⟨hp, hps⟩ := List.forall_mem_cons.1 h
    simp only [renameProcsIn, bindersProcs, freshNames_append, List.length_append,
      ← Nat.add_assoc, hp _ _, ih hps, and_self]

theorem namedAnew (e : Ragged α) : NamedAnew e := by
  induction e with
  | lit v t => exact fun r n => ⟨rfl, rfl⟩
  | var x t => exact fun r n => ⟨rfl, rfl⟩
  | cond test yes no t htest hyes hno =>
    intro r n
    simp only [renameIn, binders, freshNames_append, List.length_append, ← Nat.add_assoc,
      htest r _, hyes r _, hno r _, and_self]
  | lambda params body t hbody =>
    intro r n
    simp only [renameIn, binders, freshNames_append, List.length_append, ← Nat.add_assoc,
      hbody _ _, and_self]
  | assign x value t hvalue => exact fun r n => hvalue r n
  | app func args t hfunc hargs =>
    intro r n
    simp only [renameIn, binders, freshNames_append, List.length_append, ← Nat.add_assoc,
      hfunc r _, namedAnew_list hargs, and_self]
  | letIn names inits body t hinits hbody =>
    intro r n
    simp only [renameIn, binders, freshNames_append, List.length_append, ← Nat.add_assoc,
      namedAnew_list hinits, hbody _ _, and_self]
  | letrec names inits body t hinits hbody =>
    intro r n
    simp only [renameIn, binders, freshNames_append, List.length_append, ← Nat.add_assoc,
      namedAnew_list hinits, hbody _ _, and_self]
  | fix names ts procs body t hprocs hbody =>
    intro r n
    simp only [renameIn, binders, freshNames_append, List.length_append, ← Nat.add_assoc,
      namedAnew_procs hprocs, hbody _ _, and_self]
  | seq items t hitems => exact fun r n => namedAnew_list hitems r n

theorem newNames_binders_rename (e : Ragged α) : NewNames [] e.rename.binders := by
  have hnames : e.rename.binders = freshNames e.binders 0 := (namedAnew e [] 0).1
  rw [hnames]
  exact newNames_freshNames (fun _ hx => absurd hx List.not_mem_nil) e.binders

/-! ### What renaming leaves alone -/

mutual
/-- The tree with every name blotted out: its shape, its literals and its annotations. -/
def outline : Ragged α → Ragged α
  | lit v t => lit v t
  | var _ t => var "" t
  | cond test yes no t => cond (outline test) (outline yes) (outline no) t
  | lambda params body t => lambda (params.map fun _ => "") (outline body) t
  | assign _ value t => assign "" (outline value) t
  | app func args t => app (outline func) (outlineList args) t
  | letIn names inits body t =>
    letIn (names.map fun _ => "") (outlineList inits) (outline body) t
  | letrec names inits body t =>
    letrec (names.map fun _ => "") (outlineList inits) (outline body) t
  | fix names ts procs body t =>
    fix (names.map fun _ => "") ts (outlineProcs procs) (outline body) t
  | seq items t => seq (outlineList items) t
termination_by structural e => e

def outlineList : List (Ragged α) → List (Ragged α)
  | [] => []
  | e :: es => outline e :: outlineList es
termination_by structural es => es

def outlineProcs : List (Procedure (Ragged α)) → List (Procedure (Ragged α))
  | [] => []
  | ⟨params, body⟩ :: ps => ⟨params.map fun _ => "", outline body⟩ :: outlineProcs ps
termination_by structural ps => ps
end

theorem outlineList_eq_map (es : List (Ragged α)) : outlineList es = es.map outline := by
  induction es with
  | nil => rfl
  | cons e es ih => rw [outlineList, List.map_cons, ih]

theorem outlineProcs_eq_map (ps : List (Procedure (Ragged α))) :
    outlineProcs ps = ps.map fun p => ⟨p.params.map fun _ => "", p.body.outline⟩ := by
  induction ps with
  | nil => rfl
  | cons p ps ih => rw [outlineProcs, List.map_cons, ih]

theorem outline_renameIn (e : Ragged α) (r : Renaming) (n : Nat) :
    (renameIn r e n).1.outline = e.outline := by
  have hlist {es : List (Ragged α)}
      (h : ∀ e ∈ es, ∀ r n, (renameIn r e n).1.outline = e.outline) (r : Renaming) (n : Nat) :
      outlineList (renameListIn r es n).1 = outlineList es := by
    induction es generalizing n with
    | nil => rfl
    | cons e es ih =>
      obtain ⟨he, hes⟩ := List.forall_mem_cons.1 h
      simp only [renameListIn, outlineList, he, ih hes]
  have hprocs {ps : List (Procedure (Ragged α))}
      (h : ∀ p ∈ ps, ∀ r n, (renameIn r p.body n).1.outline = p.body.outline) (r : Renaming)
      (n : Nat) : outlineProcs (renameProcsIn r ps n).1 = outlineProcs ps := by
    induction ps generalizing n with
    | nil => rfl
    | cons p ps ih =>
      obtain ⟨hp, hps⟩ := List.forall_mem_cons.1 h
      simp only [renameProcsIn, outlineProcs, map_blank_freshNames, hp, ih hps]
  induction e generalizing r n with
  | lit v t => rfl
  | var x t => rfl
  | cond test yes no t htest hyes hno => simp only [renameIn, outline, htest, hyes, hno]
  | lambda params body t hbody => simp only [renameIn, outline, map_blank_freshNames, hbody]
  | assign x value t hvalue => simp only [renameIn, outline, hvalue]
  | app func args t hfunc hargs => simp only [renameIn, outline, hfunc, hlist hargs]
  | letIn names inits body t hinits hbody =>
    simp only [renameIn, outline, map_blank_freshNames, hlist hinits, hbody]
  | letrec names inits body t hinits hbody =>
    simp only [renameIn, outline, map_blank_freshNames, hlist hinits, hbody]
  | fix names ts procs body t hps hbody =>
    simp only [renameIn, outline, map_blank_freshNames, hprocs hps, hbody]
  | seq items t hitems => simp only [renameIn, outline, hlist hitems]

/-- After renaming, no two binders share a name and none has the name of a primitive; the tree has
kept its shape, its literals and its annotations. -/
theorem rename_binders_distinct (e : Ragged α) :
    e.rename.binders.Nodup ∧ (∀ p : Primitive, p.name ∉ e.rename.binders) ∧
      e.rename.outline = e.outline :=
  have hnew := newNames_binders_rename e
  ⟨hnew.nodup, hnew.prim_notMem, outline_renameIn e [] 0⟩

end Ragged

namespace Expr

/-! ### Even trees -/

/-- The order in which renaming comes to the binders lists the same ones as the order from outside
to inside: only the names of a `let` come after the binders in its bindings. -/
theorem binders_perm_ragged (e : Expr α) : e.binders.Perm e.ragged.binders := by
  have hlist {es : List (Expr α)} (h : ∀ e ∈ es, e.binders.Perm e.ragged.binders) :
      (bindersList es).Perm (Ragged.bindersList (raggedList es)) := by
    induction es with
    | nil => exact .refl _
    | cons e es ih =>
      obtain ⟨he, hes⟩ := List.forall_mem_cons.1 h
      exact he.append (ih hes)
  have hbindings {bs : List (Name × Expr α)}
      (h : ∀ b ∈ bs, b.2.binders.Perm b.2.ragged.binders) :
      (bindersBindings bs).Perm (Ragged.bindersList (raggedBindings bs)) := by
    induction bs with
    | nil => exact .refl _
    | cons b bs ih =>
      obtain ⟨hb, hbs⟩ := List.forall_mem_cons.1 h
      exact hb.append (ih hbs)
  have hmembers {ms : List (Member α (Expr α))}
      (h : ∀ m ∈ ms, m.body.binders.Perm m.body.ragged.binders) :
      (bindersMembers ms).Perm (Ragged.bindersProcs (raggedMembers ms)) := by
    induction ms with
    | nil => exact .refl _
    | cons m ms ih =>
      obtain ⟨hm, hms⟩ := List.forall_mem_cons.1 h
      exact (hm.append_left _).append (ih hms)
  induction e with
  | lit v t => exact .refl _
  | var x t => exact .refl _
  | cond test yes no t htest hyes hno => exact (htest.append hyes).append hno
  | lambda params body t hbody => exact hbody.append_left _
  | assign x value t hvalue => exact hvalue
  | app func args t hfunc hargs => exact hfunc.append (hlist hargs)
  | letIn bindings body t hbs hbody =>
    exact (List.perm_append_comm.trans ((hbindings hbs).append_right _)).append hbody
  | letrec bindings body t hbs hbody => exact ((hbindings hbs).append_left _).append hbody
  | fix members body t hms hbody => exact ((hmembers hms).append_left _).append hbody
  | seq items t hitems => exact hlist hitems

/-- The tree with every name blotted out: its shape, its literals and its annotations. -/
def outline (e : Expr α) : Expr α :=
  e.mapNames fun _ => ""

theorem outline_ragged (e : Expr α) : e.ragged.outline = e.outline.ragged := by
  unfold outline
  induction e with
  | lit v t => rfl
  | var x t => rfl
  | cond test yes no t htest hyes hno =>
    simp only [ragged, Ragged.outline, mapNames, htest, hyes, hno]
  | lambda params body t hbody => simp only [ragged, Ragged.outline, mapNames, hbody]
  | assign x value t hvalue => simp only [ragged, Ragged.outline, mapNames, hvalue]
  | app func args t hfunc hargs =>
    simp only [ragged, Ragged.outline, mapNames, raggedList_eq_map, Ragged.outlineList_eq_map,
      mapNamesList_eq_map, List.map_map, Function.comp_def, hfunc, List.map_congr_left hargs]
  | letIn bindings body t hbindings hbody =>
    simp only [ragged, Ragged.outline, mapNames, raggedBindings_eq_map,
      Ragged.outlineList_eq_map, mapNamesBindings_eq_map, List.map_map, Function.comp_def, hbody,
      List.map_congr_left hbindings]
  | letrec bindings body t hbindings hbody =>
    simp only [ragged, Ragged.outline, mapNames, raggedBindings_eq_map,
      Ragged.outlineList_eq_map, mapNamesBindings_eq_map, List.map_map, Function.comp_def, hbody,
      List.map_congr_left hbindings]
  | fix members body t hmembers hbody =>
    have hprocs : members.map (fun m => (⟨m.params.map fun _ => "", m.body.ragged.outline⟩ :
        Procedure (Ragged α))) =
        members.map fun m => ⟨m.params.map fun _ => "", (m.body.mapNames fun _ => "").ragged⟩ :=
      List.map_congr_left fun m hm => by rw [hmembers m hm]
    simp only [ragged, Ragged.outline, mapNames, raggedMembers_eq_map,
      Ragged.outlineProcs_eq_map, mapNamesMembers_eq_map, List.map_map, Function.comp_def, hbody,
      hprocs]
  | seq items t hitems =>
    simp only [ragged, Ragged.outline, mapNames, raggedList_eq_map, Ragged.outlineList_eq_map,
      mapNamesList_eq_map, List.map_map, Function.comp_def, List.map_congr_left hitems]

/-- Renaming does the same to trees that have their names and values in pairs. -/
theorem rename_binders_unique (e : Expr α) :
    e.rename.binders.Nodup ∧ (∀ p : Primitive, p.name ∉ e.rename.binders) ∧
      e.rename.outline = e.outline := by
  have hnew : NewNames [] e.rename.ragged.binders := by
    rw [← rename_ragged]
    exact Ragged.newNames_binders_rename e.ragged
  have hperm := e.rename.binders_perm_ragged
  refine ⟨hperm.nodup_iff.2 hnew.nodup, fun p hp => ?_, ragged_injective ?_⟩
  · exact hnew.prim_notMem p (hperm.mem_iff.1 hp)
  · rw [← outline_ragged, ← outline_ragged, ← rename_ragged]
    exact Ragged.outline_renameIn e.ragged [] 0

end Expr

end MiniScheme
