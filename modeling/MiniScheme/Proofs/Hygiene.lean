import MiniScheme.Proofs.FreeNames

/-!
# What renaming does to free names

A reference to a name that is bound nowhere is left as it is. It stays free unless a binder around
it is given a name of the same spelling; as spellings may contain dots and digits, this happens.
-/

namespace MiniScheme.Expr

variable {α : Type}

mutual
/-- The names of all binders of a tree. -/
def binders : Expr α → List Name
  | lit _ _ => []
  | var _ _ => []
  | cond test yes no _ => binders test ++ binders yes ++ binders no
  | lambda params body _ => params ++ binders body
  | assign _ value _ => binders value
  | app func args _ => binders func ++ bindersList args
  | letIn bindings body _ => bindings.map (·.1) ++ bindersBindings bindings ++ binders body
  | letrec bindings body _ => bindings.map (·.1) ++ bindersBindings bindings ++ binders body
  | fix members body _ => members.map (·.name) ++ bindersMembers members ++ binders body
  | seq items _ => bindersList items
termination_by structural e => e

def bindersList : List (Expr α) → List Name
  | [] => []
  | e :: es => binders e ++ bindersList es
termination_by structural es => es

def bindersBindings : List (Name × Expr α) → List Name
  | [] => []
  | (_, e) :: bs => binders e ++ bindersBindings bs
termination_by structural bs => bs

/-- The names that the procedures of a group bind; the names of the members are not among them. -/
def bindersMembers : List (Member α (Expr α)) → List Name
  | [] => []
  | ⟨_, _, params, body⟩ :: ms => params ++ binders body ++ bindersMembers ms
termination_by structural ms => ms
end

/-! ### New names change nothing else -/

theorem freeOccurrencesBindings_fresh (bound : List Name) (bs : List (Name × Expr α)) (n : Nat) :
    freeOccurrencesBindings bound (freshBindings bs n) = freeOccurrencesBindings bound bs := by
  induction bs generalizing n with
  | nil => rfl
  | cons b bs ih => simp only [freshBindings, freeOccurrencesBindings, ih]

theorem freeOccurrencesMembers_fresh (bound : List Name) (ms : List (Member α (Expr α)))
    (n : Nat) :
    freeOccurrencesMembers bound (freshMembers ms n) = freeOccurrencesMembers bound ms := by
  induction ms generalizing n with
  | nil => rfl
  | cons m ms ih => simp only [freshMembers, freeOccurrencesMembers, ih]

theorem bindersBindings_fresh (bs : List (Name × Expr α)) (n : Nat) :
    bindersBindings (freshBindings bs n) = bindersBindings bs := by
  induction bs generalizing n with
  | nil => rfl
  | cons b bs ih => simp only [freshBindings, bindersBindings, ih]

theorem bindersMembers_fresh (ms : List (Member α (Expr α))) (n : Nat) :
    bindersMembers (freshMembers ms n) = bindersMembers ms := by
  induction ms generalizing n with
  | nil => rfl
  | cons m ms ih => simp only [freshMembers, bindersMembers, ih]

/-! ### Scopes before and after -/

theorem find_enter_of_notMem (r : Renaming) {x : Name} {xs : List Name} (hx : x ∉ xs) (n : Nat) :
    (r.enter xs n).find x = r.find x := by
  induction xs generalizing r n with
  | nil => rfl
  | cons y ys ih =>
    rw [List.mem_cons, not_or] at hx
    rw [Renaming.enter, ih _ hx.2]
    simp only [Renaming.find, List.lookup_cons, beq_false_of_ne hx.1]

/-- The renaming takes bound names to bound names and leaves all others as they are. -/
structure RenamesScope (r : Renaming) (bound bound' : List Name) : Prop where
  mem : ∀ x ∈ bound, r.find x ∈ bound'
  eq : ∀ x, x ∉ bound → r.find x = x

theorem RenamesScope.enter {r : Renaming} {bound bound' : List Name}
    (h : RenamesScope r bound bound') (xs : List Name) (n : Nat) :
    RenamesScope (r.enter xs n) (xs ++ bound) (freshNames xs n ++ bound') := by
  constructor
  · intro x hx
    rcases find_enter r x xs n with ⟨hout, hfind⟩ | hmem
    · have hbound : x ∈ bound := (List.mem_append.1 hx).resolve_left hout
      rw [hfind]
      exact List.mem_append_right _ (h.mem x hbound)
    · exact List.mem_append_left _ hmem
  · intro x hx
    rw [List.mem_append, not_or] at hx
    rw [find_enter_of_notMem r hx.1 n]
    exact h.eq x hx.2

/-- None of the names is bound, neither outside of a tree nor by the binders inside it. -/
def Unbound (xs outside inside : List Name) : Prop :=
  ∀ x ∈ xs, x ∉ outside ∧ x ∉ inside

theorem Unbound.mono {xs xs' outside inside inside' : List Name} (h : Unbound xs outside inside)
    (hxs : xs' ⊆ xs) (hinside : inside' ⊆ inside) : Unbound xs' outside inside' := by
  intro x hx
  have hx' := h x (hxs hx)
  exact ⟨hx'.1, fun hmem => hx'.2 (hinside hmem)⟩

theorem Unbound.enter {xs ys outside inside : List Name} (h : Unbound xs outside (ys ++ inside)) :
    Unbound xs (ys ++ outside) inside := by
  intro x hx
  have hx' := h x hx
  simp only [List.mem_append, not_or] at hx' ⊢
  exact ⟨⟨hx'.2.1, hx'.1⟩, hx'.2.2⟩

/-- A reference is free before and after, or bound before and after, unless its name is taken. -/
theorem RenamesScope.reference {r : Renaming} {bound bound' inside : List Name}
    (h : RenamesScope r bound bound') {x : Name}
    (hclear : Unbound (if x ∈ bound then [] else [x]) bound' inside) :
    (if r.find x ∈ bound' then [] else [r.find x]) = if x ∈ bound then [] else [x] := by
  by_cases hx : x ∈ bound
  · rw [if_pos hx, if_pos (h.mem x hx)]
  · rw [if_neg hx] at hclear ⊢
    have hnot : x ∉ bound' := (hclear x (List.mem_singleton_self x)).1
    rw [h.eq x hx, if_neg hnot]

/-! ### Occurrences before and after -/

/-- Free occurrences stay as they are if no binder is given their names. -/
def KeepsOccurrences (e : Expr α) : Prop :=
  ∀ {r : Renaming} {n : Nat} {bound bound' : List Name}, RenamesScope r bound bound' →
    Unbound (freeOccurrences bound e) bound' (renameIn r e n).1.binders →
    freeOccurrences bound' (renameIn r e n).1 = freeOccurrences bound e

variable {r : Renaming} {n : Nat} {bound bound' : List Name}

theorem keepsOccurrences_list {es : List (Expr α)} (h : ∀ e ∈ es, KeepsOccurrences e)
    (hscope : RenamesScope r bound bound')
    (hclear : Unbound (freeOccurrencesList bound es) bound'
      (bindersList (renameListIn r es n).1)) :
    freeOccurrencesList bound' (renameListIn r es n).1 = freeOccurrencesList bound es := by
  induction es generalizing n with
  | nil => rfl
  | cons e es ih =>
    obtain ⟨he, hes⟩ := List.forall_mem_cons.1 h
    simp only [freeOccurrencesList, renameListIn, bindersList] at hclear ⊢
    rw [he hscope, ih hes]
    · exact hclear.mono (by simp) (by simp)
    · exact hclear.mono (by simp) (by simp)

theorem keepsOccurrences_bindings {bs : List (Name × Expr α)}
    (h : ∀ b ∈ bs, KeepsOccurrences b.2) (hscope : RenamesScope r bound bound')
    (hclear : Unbound (freeOccurrencesBindings bound bs) bound'
      (bindersBindings (renameBindingsIn r bs n).1)) :
    freeOccurrencesBindings bound' (renameBindingsIn r bs n).1 =
      freeOccurrencesBindings bound bs := by
  induction bs generalizing n with
  | nil => rfl
  | cons b bs ih =>
    obtain ⟨hb, hbs⟩ := List.forall_mem_cons.1 h
    simp only [freeOccurrencesBindings, renameBindingsIn, bindersBindings] at hclear ⊢
    rw [hb hscope, ih hbs]
    · exact hclear.mono (by simp) (by simp)
    · exact hclear.mono (by simp) (by simp)

theorem keepsOccurrences_members {ms : List (Member α (Expr α))}
    (h : ∀ m ∈ ms, KeepsOccurrences m.body) (hscope : RenamesScope r bound bound')
    (hclear : Unbound (freeOccurrencesMembers bound ms) bound'
      (bindersMembers (renameMembersIn r ms n).1)) :
    freeOccurrencesMembers bound' (renameMembersIn r ms n).1 =
      freeOccurrencesMembers bound ms := by
  induction ms generalizing n with
  | nil => rfl
  | cons m ms ih =>
    obtain ⟨hm, hms⟩ := List.forall_mem_cons.1 h
    simp only [freeOccurrencesMembers, renameMembersIn, bindersMembers] at hclear ⊢
    rw [hm (hscope.enter m.params n), ih hms]
    · exact hclear.mono (by simp) (by simp)
    · exact (hclear.mono (by simp) (by simp)).enter

theorem keepsOccurrences (e : Expr α) : KeepsOccurrences e := by
  induction e with
  | lit v t => exact fun _ _ => rfl
  | var x t =>
    intro r n bound bound' hscope hclear
    exact hscope.reference hclear
  | cond test yes no t htest hyes hno =>
    intro r n bound bound' hscope hclear
    simp only [renameIn, freeOccurrences, binders] at hclear ⊢
    rw [htest hscope, hyes hscope, hno hscope]
    all_goals exact hclear.mono (by simp) (by simp)
  | lambda params body t hbody =>
    intro r n bound bound' hscope hclear
    exact hbody (hscope.enter params n) hclear.enter
  | assign x value t hvalue =>
    intro r n bound bound' hscope hclear
    simp only [renameIn, freeOccurrences, binders] at hclear ⊢
    rw [hscope.reference (hclear.mono (List.subset_append_left _ _) (List.Subset.refl _)),
      hvalue hscope (hclear.mono (List.subset_append_right _ _) (List.Subset.refl _))]
  | app func args t hfunc hargs =>
    intro r n bound bound' hscope hclear
    simp only [renameIn, freeOccurrences, binders] at hclear ⊢
    rw [hfunc hscope, keepsOccurrences_list hargs hscope]
    all_goals exact hclear.mono (by simp) (by simp)
  | letIn bindings body t hbindings hbody =>
    intro r n bound bound' hscope hclear
    simp only [renameIn, freeOccurrences, binders, map_fst_freshBindings,
      map_fst_renameBindingsIn, freeOccurrencesBindings_fresh, bindersBindings_fresh] at hclear ⊢
    -- the bound expressions stand outside of the new names, the body inside
    rw [keepsOccurrences_bindings hbindings hscope, hbody (hscope.enter (bindings.map (·.1)) _)]
    · exact (hclear.mono (by simp) (by simp)).enter
    · exact hclear.mono (by simp) (by simp)
  | letrec bindings body t hbindings hbody =>
    intro r n bound bound' hscope hclear
    simp only [renameIn, freeOccurrences, binders, map_fst_freshBindings,
      map_fst_renameBindingsIn, freeOccurrencesBindings_fresh, bindersBindings_fresh] at hclear ⊢
    have hscope' := hscope.enter (bindings.map (·.1)) n
    rw [keepsOccurrences_bindings hbindings hscope', hbody hscope']
    all_goals exact (hclear.mono (by simp) (by simp)).enter
  | fix members body t hmembers hbody =>
    intro r n bound bound' hscope hclear
    simp only [renameIn, freeOccurrences, binders, map_name_freshMembers,
      map_name_renameMembersIn, freeOccurrencesMembers_fresh, bindersMembers_fresh] at hclear ⊢
    have hscope' := hscope.enter (members.map (·.name)) n
    rw [keepsOccurrences_members hmembers hscope', hbody hscope']
    all_goals exact (hclear.mono (by simp) (by simp)).enter
  | seq items t hitems =>
    intro r n bound bound' hscope hclear
    exact keepsOccurrences_list hitems hscope hclear

/-! ### Whole trees -/

/-- A tree keeps its free names, in their order, if renaming gives none of them to a binder. -/
theorem free_rename_of_notMem_binders (e : Expr α) (h : ∀ x ∈ e.free [], x ∉ e.rename.binders) :
    e.rename.free [] = e.free [] := by
  have hscope : RenamesScope [] [] [] := ⟨nofun, fun _ _ => rfl⟩
  have hclear : Unbound (freeOccurrences [] e) [] e.rename.binders := fun x hx =>
    ⟨List.not_mem_nil, h x (mem_free.2 hx)⟩
  have hkept := keepsOccurrences e hscope hclear
  unfold free rename
  rw [hkept]

/-- Refers to a free name that looks like a generated one. -/
def lookalike : Expr Unit :=
  .lambda ["x"] (.letIn [("x.0", .var "x.1" ()), ("x", .var "x" ())]
    (.app (.var "x.0" ()) [.var "x" (), .var "x.5" ()] ()) ()) ()

theorem free_rename_lookalike : (∀ x ∈ lookalike.free [], x ∉ lookalike.rename.binders) ∧
    lookalike.free [] = ["x.1", "x.5"] ∧ lookalike.rename.free [] = ["x.1", "x.5"] := by
  have hclear : ∀ x ∈ lookalike.free [], x ∉ lookalike.rename.binders := by decide +kernel
  have hfree : lookalike.free [] = ["x.1", "x.5"] := by decide +kernel
  exact ⟨hclear, hfree, (free_rename_of_notMem_binders lookalike hclear).trans hfree⟩

/-- Refers to a free name that the binder around it is given. -/
def capturing : Expr Unit :=
  .lambda ["x"] (.var "x.0" ()) ()

/-- Renaming can capture a free reference. -/
theorem rename_captures : capturing.free [] = ["x.0"] ∧ capturing.rename.free [] = [] := by
  decide +kernel

end MiniScheme.Expr
