import MiniScheme.Analysis.Escape
import MiniScheme.Proofs.PrincipalTyping
import MiniScheme.Proofs.StaticForm

/-!
# Escaping closures and generated code

The analysis finds the numbers of compound nodes and of members of groups that have arrow types in
the table. The labels of generated code are the numbers of lambdas and of members of groups; these
have arrow types in every typing, so the closures that a program can make are all among those that
the analysis finds.
-/

namespace MiniScheme

/-- The table has an arrow for the number. -/
def TypeTable.HasArrow (types : TypeTable) (t : Nat) : Prop :=
  ∃ ty, types.lookup t = some ty ∧ ty.isArrow = true

theorem TypeTable.mem_flagged {types : TypeTable} {t u : Nat} :
    u ∈ types.flagged t ↔ types.HasArrow u ∧ u = t := by
  unfold flagged HasArrow
  constructor
  · intro h
    cases hty : types.lookup t with
    | none => simp [hty] at h
    | some ty =>
      by_cases harrow : ty.isArrow = true
      · simp only [hty, harrow, if_true, List.mem_singleton] at h
        exact ⟨⟨ty, h ▸ hty, harrow⟩, h⟩
      · simp [hty, harrow] at h
  · rintro ⟨⟨ty, hty, harrow⟩, rfl⟩
    simp [hty, harrow]

namespace Expr

/-! ### What the analysis finds -/

/-- The number is that of the root, which is neither a literal nor a variable, or that of a member
of the group that the root is. -/
def HasSite (e : Expr Nat) (t : Nat) : Prop :=
  (e.isCompound = true ∧ e.tag = t) ∨ ∃ ms body u, e = .fix ms body u ∧ ∃ m ∈ ms, m.tag = t

section

variable {types : TypeTable} {t : Nat}

theorem mem_escapingList {es : List (Expr Nat)} :
    t ∈ escapingList types es ↔ ∃ e ∈ es, t ∈ escapingIn types e := by
  induction es with
  | nil => simp [escapingList]
  | cons e es ih => simp [escapingList, ih]

theorem mem_escapingBindings {bs : List (Name × Expr Nat)} :
    t ∈ escapingBindings types bs ↔ ∃ e ∈ bs.map (·.2), t ∈ escapingIn types e := by
  induction bs with
  | nil => simp [escapingBindings]
  | cons b bs ih =>
    obtain ⟨x, e⟩ := b
    rw [escapingBindings, List.mem_append, ih]
    simp

theorem mem_escapingMembers {ms : List (Member Nat (Expr Nat))} :
    t ∈ escapingMembers types ms ↔
      (types.HasArrow t ∧ ∃ m ∈ ms, m.tag = t) ∨ ∃ e ∈ ms.map (·.body), t ∈ escapingIn types e := by
  induction ms with
  | nil => simp [escapingMembers]
  | cons m ms ih =>
    obtain ⟨x, u, params, body⟩ := m
    rw [escapingMembers, List.mem_append, List.mem_append, ih, TypeTable.mem_flagged]
    simp only [List.mem_cons, exists_eq_or_imp, List.map_cons]
    grind

/-- The root is judged by its own numbers, and what is below it on its own. -/
theorem mem_escapingIn_root {e : Expr Nat} : t ∈ escapingIn types e ↔
    (types.HasArrow t ∧ e.HasSite t) ∨ ∃ d ∈ e.children, t ∈ escapingIn types d := by
  cases e <;>
    simp only [escapingIn, List.mem_append, TypeTable.mem_flagged, mem_escapingList,
      mem_escapingBindings, mem_escapingMembers, HasSite, isCompound, tag, children]
  all_goals grind

theorem mem_escapingIn_iff {e : Expr Nat} :
    t ∈ escapingIn types e ↔ types.HasArrow t ∧ ∃ d, Occurs d e ∧ d.HasSite t := by
  induction e using induct_children with
  | node e ih =>
    rw [mem_escapingIn_root]
    constructor
    · rintro (⟨harrow, hsite⟩ | ⟨c, hc, hmem⟩)
      · exact ⟨harrow, e, .self e, hsite⟩
      · obtain ⟨harrow, d, hd, hsite⟩ := (ih c hc).1 hmem
        exact ⟨harrow, d, .inside hc hd, hsite⟩
    · rintro ⟨harrow, d, hd, hsite⟩
      cases hd with
      | self => exact .inl ⟨harrow, hsite⟩
      | inside hc hd => exact .inr ⟨_, hc, (ih _ hc).2 ⟨harrow, d, hd, hsite⟩⟩

/-- The analysis finds the numbers of all compound nodes and members with arrows for types. -/
theorem mem_escaping_iff {e : Expr Nat} :
    t ∈ e.escaping types ↔ types.HasArrow t ∧ ∃ d, Occurs d e ∧ d.HasSite t := by
  rw [escaping, List.mem_eraseDups, mem_escapingIn_iff]

end

/-! ### Lambdas and members of groups -/

/-- The number is that of the root, which is a lambda, or that of a member of the group that the
root is. -/
def HasProcedure (e : Expr Nat) (t : Nat) : Prop :=
  (∃ params body, e = .lambda params body t) ∨ ∃ ms body u, e = .fix ms body u ∧ ∃ m ∈ ms, m.tag = t

theorem HasProcedure.hasSite {e : Expr Nat} {t : Nat} (h : e.HasProcedure t) : e.HasSite t := by
  rcases h with ⟨params, body, rfl⟩ | h
  · exact .inl ⟨rfl, rfl⟩
  · exact .inr h

section

variable {p : Flow.Proc}

theorem mem_proceduresArgs {es : List (Expr Nat)} :
    p ∈ proceduresArgs es ↔ ∃ e ∈ es, p ∈ e.procedures := by
  induction es with
  | nil => simp [proceduresArgs]
  | cons e es ih => simp [proceduresArgs, ih, or_comm]

theorem mem_proceduresList {es : List (Expr Nat)} :
    p ∈ proceduresList es ↔ ∃ e ∈ es, p ∈ e.procedures := by
  induction es with
  | nil => simp [proceduresList]
  | cons e es ih => simp [proceduresList, ih]

theorem mem_proceduresBindings {bs : List (Name × Expr Nat)} :
    p ∈ proceduresBindings bs ↔ ∃ e ∈ bs.map (·.2), p ∈ e.procedures := by
  induction bs with
  | nil => simp [proceduresBindings]
  | cons b bs ih =>
    obtain ⟨x, e⟩ := b
    rw [proceduresBindings, List.mem_append, ih]
    simp

theorem of_mem_proceduresMembers {captured : Nat} {ms : List (Member Nat (Expr Nat))}
    (h : p ∈ proceduresMembers captured ms) :
    (∃ m ∈ ms, m.tag = p.tag) ∨ ∃ e ∈ ms.map (·.body), p ∈ e.procedures := by
  induction ms with
  | nil => cases h
  | cons m ms ih =>
    obtain ⟨x, u, params, body⟩ := m
    rw [proceduresMembers, List.mem_append, List.mem_cons] at h
    rcases h with h | rfl | h
    · exact .inr ⟨body, List.mem_cons_self .., h⟩
    · exact .inl ⟨_, List.mem_cons_self .., rfl⟩
    · rcases ih h with ⟨m, hm, htag⟩ | ⟨e, he, h⟩
      · exact .inl ⟨m, List.mem_cons_of_mem _ hm, htag⟩
      · exact .inr ⟨e, List.mem_cons_of_mem _ he, h⟩

theorem procedures_root {e : Expr Nat} (h : p ∈ e.procedures) :
    e.HasProcedure p.tag ∨ ∃ d ∈ e.children, p ∈ d.procedures := by
  cases e with
  | lit v t => cases h
  | var x t => cases h
  | cond test yes no t =>
    simp only [procedures, List.mem_append] at h
    simpa [children] using .inr h
  | lambda params body t =>
    rw [procedures, List.mem_append, List.mem_singleton] at h
    rcases h with h | rfl
    · exact .inr ⟨body, List.mem_singleton_self body, h⟩
    · exact .inl (.inl ⟨params, body, rfl⟩)
  | assign x value t => exact .inr ⟨value, List.mem_singleton_self value, h⟩
  | app func args t =>
    rw [procedures, List.mem_append, mem_proceduresArgs] at h
    rcases h with ⟨e, he, h⟩ | h
    · exact .inr ⟨e, List.mem_cons_of_mem func he, h⟩
    · exact .inr ⟨func, List.mem_cons_self .., h⟩
  | letIn bindings body t =>
    rw [procedures, List.mem_append, mem_proceduresBindings] at h
    rcases h with ⟨e, he, h⟩ | h
    · exact .inr ⟨e, List.mem_append_left _ he, h⟩
    · exact .inr ⟨body, body_mem_children_letIn bindings, h⟩
  | letrec bindings body t =>
    rw [procedures, List.mem_append, mem_proceduresBindings] at h
    rcases h with ⟨e, he, h⟩ | h
    · exact .inr ⟨e, List.mem_append_left _ he, h⟩
    · exact .inr ⟨body, body_mem_children_letrec bindings, h⟩
  | fix members body t =>
    rw [procedures, List.mem_append] at h
    rcases h with h | h
    · rcases of_mem_proceduresMembers h with hmember | ⟨e, he, h⟩
      · exact .inl (.inr ⟨members, body, t, rfl, hmember⟩)
      · exact .inr ⟨e, List.mem_append_left _ he, h⟩
    · exact .inr ⟨body, body_mem_children_fix members, h⟩
  | seq items t => exact .inr (mem_proceduresList.1 h)

theorem exists_hasProcedure {e : Expr Nat} (h : p ∈ e.procedures) :
    ∃ d, Occurs d e ∧ d.HasProcedure p.tag := by
  induction e using induct_children with
  | node e ih =>
    rcases procedures_root h with hroot | ⟨c, hc, h⟩
    · exact ⟨e, .self e, hroot⟩
    · obtain ⟨d, hd, hproc⟩ := ih c hc h
      exact ⟨d, .inside hc hd, hproc⟩

end

/-! ### Types of procedures -/

/-- A member of a group starts with a type variable of its own; the constraint on it makes an arrow
of it, as a lambda has from the start. -/
theorem exists_signature {node : Nat → Ty → Prop} {unknown : Name → Ty → Prop} {scope : TypeScope}
    {e d : Expr Nat} {ty : Ty} {t : Nat} (h : TypedBy node unknown scope e ty) (hd : Occurs d e)
    (hproc : d.HasProcedure t) : ∃ sig : Signature, node t sig.ty := by
  obtain ⟨scope', ty', hd⟩ := h.everywhere d hd
  rcases hproc with ⟨params, body, rfl⟩ | ⟨ms, body, u, rfl, m, hm, rfl⟩
  · cases hd with
    | lambda _ _ ht => exact ⟨_, ht⟩
  · cases hd with
    | fix hlen _ _ htags _ _ =>
      obtain ⟨sig, hsig⟩ := exists_of_mem_zip hlen hm
      exact ⟨sig, htags m sig hsig⟩

theorem hasArrow_of_procedure {e d : Expr Nat} {typing : Typing} {t : Nat} (h : e.tags.Nodup)
    (htyping : e.infer = .ok typing) (hd : Occurs d e) (hproc : d.HasProcedure t) :
    typing.types.HasArrow t := by
  obtain ⟨unknown, htyped⟩ := validTyping_of_infer h htyping
  obtain ⟨sig, hsig⟩ := exists_signature htyped hd hproc
  exact ⟨sig.ty, hsig, rfl⟩

/-! ### Labels -/

theorem exists_procedure_of_label {e : Expr Nat} {a : Assembly} {l : Label} (h : e.tags.Nodup)
    (ha : e.assemble e.tailCalls = .ok a) (hl : l ∈ a.blocks.map (·.1)) :
    ∃ d, Occurs d e ∧ d.HasProcedure l.index := by
  obtain ⟨main, hmain, rfl⟩ := Results.map_eq_ok_iff.1 ha
  rw [Table.mem_keys_ofPairs] at hl
  obtain ⟨b, hb, rfl⟩ := List.mem_map.1 hl
  obtain ⟨hsound, _⟩ := sound_main h main hmain
  obtain ⟨k, hk⟩ := List.mem_iff_getElem?.1 hb
  obtain ⟨p, hp, hlabel, _⟩ := getElem?_of_forall₂ hsound hk
  rw [hlabel]
  exact exists_hasProcedure (List.mem_of_getElem? hp)

theorem label_mem_escaping {e : Expr Nat} {typing : Typing} {a : Assembly} {l : Label}
    (h : e.tags.Nodup) (htyping : e.infer = .ok typing) (ha : e.assemble e.tailCalls = .ok a)
    (hl : l ∈ a.blocks.map (·.1)) : l.index ∈ e.escaping typing.types := by
  obtain ⟨d, hd, hproc⟩ := exists_procedure_of_label h ha hl
  exact mem_escaping_iff.2 ⟨hasArrow_of_procedure h htyping hd hproc, d, hd, hproc.hasSite⟩

/-- The analysis of escaping closures finds all closures that a program can make: the label of every
block, and with it every label that an instruction of the main block or of another block names, is
the number of a closure that it finds. It finds only numbers of members of groups and of nodes that
are neither literals nor variables, and only such as have arrows for types. -/
theorem escaping_covers_labels {e : Expr Nat} {typing : Typing} {a : Assembly} (h : e.tags.Nodup)
    (htyping : e.infer = .ok typing) (ha : e.assemble e.tailCalls = .ok a) :
    (∀ l ∈ a.blocks.map (·.1), l.index ∈ e.escaping typing.types) ∧
    (∀ l ∈ Code.labels a.flatten, l.index ∈ e.escaping typing.types) ∧
    ∀ t ∈ e.escaping typing.types,
      (∃ ty, typing.types.lookup t = some ty ∧ ty.isArrow = true) ∧
      ∃ d, Occurs d e ∧ ((d.isCompound = true ∧ d.tag = t) ∨
        ∃ ms body u, d = .fix ms body u ∧ ∃ m ∈ ms, m.tag = t) := by
  have hlabel : ∀ l ∈ a.blocks.map (·.1), l.index ∈ e.escaping typing.types := fun l hl =>
    label_mem_escaping h htyping ha hl
  refine ⟨hlabel, fun l hl => ?_, fun t ht => ?_⟩
  · exact hlabel l (names_of_assemble ha l hl)
  · exact mem_escaping_iff.1 ht

/-- Types for the variables that are drawn for `countdown`. -/
def countdownTypes : Nat → Ty
  | 0 => .arrow [.int, .int, .arrow [.int, .int]]
  | 4 => .bool
  | 8 | 9 | 10 | 11 => .arrow [.int, .int]
  | _ => .int

theorem escaping_covers_countdown : countdown.tags.Nodup ∧ ∃ typing a,
    countdown.infer = .ok typing ∧ countdown.assemble countdown.tailCalls = .ok a ∧
    a.blocks.map (·.1) = [⟨9⟩, ⟨0⟩] ∧ 9 ∈ countdown.escaping typing.types ∧
    0 ∈ countdown.escaping typing.types := by
  have htags : countdown.tags.Nodup := by decide
  have hsolved : (TypingProblem.ofExpr countdown).map (fun p =>
      decide (Solves countdownTypes p.judgement.constraints)) = .ok true := by
    decide +kernel
  obtain ⟨problem, hproblem, hsolves⟩ := Results.map_eq_ok_iff.1 hsolved
  obtain ⟨typing, htyping⟩ := infer_of_solves hproblem (of_decide_eq_true hsolves)
  obtain ⟨a, ha, hlabels⟩ : ∃ a, countdown.assemble countdown.tailCalls = .ok a ∧
      a.blocks.map (·.1) = [⟨9⟩, ⟨0⟩] := ⟨_, rfl, rfl⟩
  have hcovers := (escaping_covers_labels htags htyping ha).1
  rw [hlabels] at hcovers
  exact ⟨htags, typing, a, htyping, ha, hlabels, hcovers ⟨9⟩ (by simp), hcovers ⟨0⟩ (by simp)⟩

end Expr

end MiniScheme
