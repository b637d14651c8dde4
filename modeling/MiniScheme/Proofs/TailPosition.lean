import MiniScheme.Code.Generate
import MiniScheme.Proofs.Tagging

/-!
# Calls in tail position

The code generator asks a table, by number, whether a call is in tail position. With different
numbers at different nodes the table built by `tailCalls` answers for every call exactly what the
position of the call says.
-/

namespace MiniScheme

/-- The context of an expression in tail position of a procedure, if there is one. -/
def Context.ofTarget : Option TailTarget → Context
  | none => .value
  | some target => .tail target.cells

theorem Context.ofTarget_deeper (target : Option TailTarget) (n : Nat) :
    Context.ofTarget (target.map (·.deeper n)) = (Context.ofTarget target).deeper n := by
  cases target <;> rfl

namespace Expr

mutual
/-- In a tree that stands in tail position of `target`, if there is one, every call has a number
that is right for the target it has itself. -/
def AtCalls (P : Option TailTarget → Nat → Prop) (target : Option TailTarget) : Expr Nat → Prop
  | lit _ _ => True
  | var _ _ => True
  | cond test yes no _ =>
    AtCalls P none test ∧ AtCalls P target yes ∧ AtCalls P target no
  | lambda params body t => AtCalls P (some ⟨t, params.length⟩) body
  | assign _ value _ => AtCalls P none value
  | app func args t => P target t ∧ AtCalls P none func ∧ AtCallsList P args
  | letIn bindings body _ =>
    AtCallsBindings P bindings ∧ AtCalls P (target.map (·.deeper bindings.length)) body
  | letrec bindings body _ =>
    AtCallsBindings P bindings ∧ AtCalls P (target.map (·.deeper bindings.length)) body
  | fix members body _ =>
    AtCallsMembers P members ∧ AtCalls P (target.map (·.deeper members.length)) body
  | seq items _ => AtCallsSeq P target items
termination_by structural e => e

def AtCallsList (P : Option TailTarget → Nat → Prop) : List (Expr Nat) → Prop
  | [] => True
  | e :: es => AtCalls P none e ∧ AtCallsList P es
termination_by structural es => es

def AtCallsSeq (P : Option TailTarget → Nat → Prop) (target : Option TailTarget) :
    List (Expr Nat) → Prop
  | [] => True
  | [e] => AtCalls P target e
  | e :: e' :: es => AtCalls P none e ∧ AtCallsSeq P target (e' :: es)
termination_by structural es => es

def AtCallsBindings (P : Option TailTarget → Nat → Prop) : List (Name × Expr Nat) → Prop
  | [] => True
  | (_, e) :: bs => AtCalls P none e ∧ AtCallsBindings P bs
termination_by structural bs => bs

def AtCallsMembers (P : Option TailTarget → Nat → Prop) : List (Member Nat (Expr Nat)) → Prop
  | [] => True
  | ⟨_, t, params, body⟩ :: ms =>
    AtCalls P (some ⟨t, params.length⟩) body ∧ AtCallsMembers P ms
termination_by structural ms => ms
end

section

variable {P Q : Option TailTarget → Nat → Prop}

theorem atCallsList_iff {es : List (Expr Nat)} :
    AtCallsList P es ↔ ∀ e ∈ es, AtCalls P none e := by
  induction es with
  | nil => simp [AtCallsList]
  | cons e es ih => simp only [AtCallsList, ih, List.forall_mem_cons]

theorem atCallsBindings_iff {bs : List (Name × Expr Nat)} :
    AtCallsBindings P bs ↔ ∀ b ∈ bs, AtCalls P none b.2 := by
  induction bs with
  | nil => simp [AtCallsBindings]
  | cons b bs ih => simp only [AtCallsBindings, ih, List.forall_mem_cons]

theorem atCallsMembers_iff {ms : List (Member Nat (Expr Nat))} :
    AtCallsMembers P ms ↔ ∀ m ∈ ms, AtCalls P (some ⟨m.tag, m.params.length⟩) m.body := by
  induction ms with
  | nil => simp [AtCallsMembers]
  | cons m ms ih => simp only [AtCallsMembers, ih, List.forall_mem_cons]

theorem AtCalls.imp {e : Expr Nat} {target : Option TailTarget} (h : AtCalls P target e)
    (hPQ : ∀ target t, P target t → Q target t) : AtCalls Q target e := by
  induction e generalizing target with
  | lit v t => trivial
  | var x t => trivial
  | cond test yes no t htest hyes hno => exact ⟨htest h.1, hyes h.2.1, hno h.2.2⟩
  | lambda params body t hbody => exact hbody h
  | assign x value t hvalue => exact hvalue h
  | app func args t hfunc hargs =>
    exact ⟨hPQ _ _ h.1, hfunc h.2.1,
      atCallsList_iff.2 fun e he => hargs e he (atCallsList_iff.1 h.2.2 e he)⟩
  | letIn bindings body t hbindings hbody =>
    exact ⟨atCallsBindings_iff.2 fun b hb => hbindings b hb (atCallsBindings_iff.1 h.1 b hb),
      hbody h.2⟩
  | letrec bindings body t hbindings hbody =>
    exact ⟨atCallsBindings_iff.2 fun b hb => hbindings b hb (atCallsBindings_iff.1 h.1 b hb),
      hbody h.2⟩
  | fix members body t hmembers hbody =>
    exact ⟨atCallsMembers_iff.2 fun m hm => hmembers m hm (atCallsMembers_iff.1 h.1 m hm),
      hbody h.2⟩
  | seq items t hitems =>
    show AtCallsSeq Q target items
    have h' : AtCallsSeq P target items := h
    clear h
    induction items with
    | nil => trivial
    | cons e es ih =>
      obtain ⟨he, hes⟩ := List.forall_mem_cons.1 hitems
      cases es with
      | nil => exact he h'
      | cons e' es => exact ⟨he h'.1, ih hes h'.2⟩

end

/-- The table has a call exactly if it is in tail position, and then with its target. -/
def TableTells (calls : List TailCall) (target : Option TailTarget) (t : Nat) : Prop :=
  calls.find? (·.app = t) = target.map fun f => ⟨t, f.proc, f.cells⟩

/-- If the table has a call, it is in tail position and has the target that the table gives. -/
def TableAllows (calls : List TailCall) (target : Option TailTarget) (t : Nat) : Prop :=
  ∀ call, calls.find? (·.app = t) = some call →
    target.map (fun f => (⟨t, f.proc, f.cells⟩ : TailCall)) = some call

/-- Every call of a tree that stands in tail position of `target` is in the table with its
target, and all other calls are not. -/
abbrev Marked (calls : List TailCall) (target : Option TailTarget) (e : Expr Nat) : Prop :=
  AtCalls (TableTells calls) target e

/-- Every call of a tree that is in the table is in tail position of the target it has there. -/
abbrev Allowed (calls : List TailCall) (target : Option TailTarget) (e : Expr Nat) : Prop :=
  AtCalls (TableAllows calls) target e

theorem Marked.allowed {calls : List TailCall} {target : Option TailTarget} {e : Expr Nat}
    (h : Marked calls target e) : Allowed calls target e :=
  h.imp fun _ _ htells _ hcall => htells.symm.trans hcall

/-! ### The table by number -/

/-- A table has, for the numbers in a list, exactly the given calls. -/
structure Lists (calls : List TailCall) (ts : List Nat) (cs : List TailCall) : Prop where
  app_mem : ∀ c ∈ cs, c.app ∈ ts
  mem_iff : ∀ c, c.app ∈ ts → (c ∈ calls ↔ c ∈ cs)

/-- What a table has for two groups of different numbers, it has for each of them. -/
theorem Lists.split {calls cs ds : List TailCall} {ts us : List Nat}
    (h : Lists calls (ts ++ us) (cs ++ ds)) (hdisjoint : (ts ++ us).Nodup)
    (hcs : ∀ c ∈ cs, c.app ∈ ts) (hds : ∀ d ∈ ds, d.app ∈ us) :
    Lists calls ts cs ∧ Lists calls us ds := by
  have hne := (List.nodup_append.1 hdisjoint).2.2
  refine ⟨⟨hcs, fun c hc => ?_⟩, ⟨hds, fun c hc => ?_⟩⟩
  · rw [h.mem_iff c (List.mem_append_left us hc), List.mem_append]
    refine or_iff_left fun hd => ?_
    exact hne c.app hc c.app (hds c hd) rfl
  · rw [h.mem_iff c (List.mem_append_right ts hc), List.mem_append]
    refine or_iff_right fun hd => ?_
    exact hne c.app (hcs c hd) c.app hc rfl

/-- The calls found in a tree have numbers of the tree. -/
def CallsInside (e : Expr Nat) : Prop :=
  ∀ target, ∀ c ∈ tailCallsIn target e, c.app ∈ e.tags

theorem callsInside_list {es : List (Expr Nat)} (h : ∀ e ∈ es, CallsInside e) :
    ∀ c ∈ tailCallsList es, c.app ∈ tagsList es := by
  induction es with
  | nil => nofun
  | cons e es ih =>
    obtain ⟨he, hes⟩ := List.forall_mem_cons.1 h
    intro c hc
    rcases List.mem_append.1 hc with hc | hc
    · exact List.mem_append_left _ (he none c hc)
    · exact List.mem_append_right _ (ih hes c hc)

theorem callsInside_seq {es : List (Expr Nat)} (h : ∀ e ∈ es, CallsInside e)
    (target : Option TailTarget) : ∀ c ∈ tailCallsSeq target es, c.app ∈ tagsList es := by
  induction es with
  | nil => nofun
  | cons e es ih =>
    obtain ⟨he, hes⟩ := List.forall_mem_cons.1 h
    intro c hc
    cases es with
    | nil => exact List.mem_append_left _ (he target c hc)
    | cons e' es =>
      rcases List.mem_append.1 hc with hc | hc
      · exact List.mem_append_left _ (he none c hc)
      · exact List.mem_append_right _ (ih hes c hc)

theorem callsInside_bindings {bs : List (Name × Expr Nat)} (h : ∀ b ∈ bs, CallsInside b.2) :
    ∀ c ∈ tailCallsBindings bs, c.app ∈ tagsBindings bs := by
  induction bs with
  | nil => nofun
  | cons b bs ih =>
    obtain ⟨hb, hbs⟩ := List.forall_mem_cons.1 h
    intro c hc
    rcases List.mem_append.1 hc with hc | hc
    · exact List.mem_append_left _ (hb none c hc)
    · exact List.mem_append_right _ (ih hbs c hc)

theorem callsInside_members {ms : List (Member Nat (Expr Nat))}
    (h : ∀ m ∈ ms, CallsInside m.body) : ∀ c ∈ tailCallsMembers ms, c.app ∈ tagsMembers ms := by
  induction ms with
  | nil => nofun
  | cons m ms ih =>
    obtain ⟨hm, hms⟩ := List.forall_mem_cons.1 h
    intro c hc
    rcases List.mem_append.1 hc with hc | hc
    · exact List.mem_append_left _ (hm _ c hc)
    · exact List.mem_append_right _ (ih hms c hc)

theorem app_mem_tags_of_mem_target {target : Option TailTarget} {t : Nat} :
    ∀ c ∈ (target.map fun f => (⟨t, f.proc, f.cells⟩ : TailCall)).toList, c.app ∈ [t] := by
  cases target with
  | none => nofun
  | some f => simp

theorem callsInside (e : Expr Nat) : CallsInside e := by
  induction e with
  | lit v t => exact fun _ => nofun
  | var x t => exact fun _ => nofun
  | cond test yes no t htest hyes hno =>
    intro target c hc
    simp only [tailCallsIn, List.mem_append] at hc
    simp only [tags, List.mem_append]
    rcases hc with (hc | hc) | hc
    · exact Or.inl (Or.inl (Or.inl (htest none c hc)))
    · exact Or.inl (Or.inl (Or.inr (hyes target c hc)))
    · exact Or.inl (Or.inr (hno target c hc))
  | lambda params body t hbody =>
    exact fun target c hc => List.mem_append_left _ (hbody _ c hc)
  | assign x value t hvalue =>
    exact fun target c hc => List.mem_append_left _ (hvalue none c hc)
  | app func args t hfunc hargs =>
    intro target c hc
    simp only [tailCallsIn, List.mem_append] at hc
    simp only [tags, List.mem_append]
    rcases hc with (hc | hc) | hc
    · exact Or.inl (Or.inl (hfunc none c hc))
    · exact Or.inl (Or.inr (callsInside_list hargs c hc))
    · exact Or.inr (app_mem_tags_of_mem_target c hc)
  | letIn bindings body t hbindings hbody =>
    intro target c hc
    simp only [tailCallsIn, List.mem_append] at hc
    simp only [tags, List.mem_append]
    rcases hc with hc | hc
    · exact Or.inl (Or.inl (callsInside_bindings hbindings c hc))
    · exact Or.inl (Or.inr (hbody _ c hc))
  | letrec bindings body t hbindings hbody =>
    intro target c hc
    simp only [tailCallsIn, List.mem_append] at hc
    simp only [tags, List.mem_append]
    rcases hc with hc | hc
    · exact Or.inl (Or.inl (callsInside_bindings hbindings c hc))
    · exact Or.inl (Or.inr (hbody _ c hc))
  | fix members body t hmembers hbody =>
    intro target c hc
    simp only [tailCallsIn, List.mem_append] at hc
    simp only [tags, List.mem_append]
    rcases hc with hc | hc
    · exact Or.inl (Or.inl (Or.inr (callsInside_members hmembers c hc)))
    · exact Or.inl (Or.inr (hbody _ c hc))
  | seq items t hitems =>
    exact fun target c hc => List.mem_append_left _ (callsInside_seq hitems target c hc)

/-! ### Positions and the table agree -/

theorem app_mem_append {cs ds : List TailCall} {ts us : List Nat} (hcs : ∀ c ∈ cs, c.app ∈ ts)
    (hds : ∀ d ∈ ds, d.app ∈ us) : ∀ c ∈ cs ++ ds, c.app ∈ ts ++ us := by
  intro c hc
  rcases List.mem_append.1 hc with hc | hc
  · exact List.mem_append_left us (hcs c hc)
  · exact List.mem_append_right ts (hds c hc)

theorem Lists.left {calls cs : List TailCall} {ts us : List Nat} (h : Lists calls (ts ++ us) cs)
    (hcs : ∀ c ∈ cs, c.app ∈ ts) : Lists calls ts cs :=
  ⟨hcs, fun c hc => h.mem_iff c (List.mem_append_left us hc)⟩

theorem Lists.right {calls cs : List TailCall} {ts us : List Nat} (h : Lists calls (ts ++ us) cs)
    (hcs : ∀ c ∈ cs, c.app ∈ us) : Lists calls us cs :=
  ⟨hcs, fun c hc => h.mem_iff c (List.mem_append_right ts hc)⟩

/-- The table has at most the one entry for a number that the list says it has. -/
theorem Lists.find?_eq {calls : List TailCall} {t : Nat} {call : Option TailCall}
    (h : Lists calls [t] call.toList) : calls.find? (·.app = t) = call := by
  cases call with
  | none =>
    refine List.find?_eq_none.2 fun c hc happ => ?_
    have hmem := (h.mem_iff c (by simpa using happ)).1 hc
    simp at hmem
  | some call =>
    have happ : call.app = t := by simpa using h.app_mem call (by simp)
    have hcall : call ∈ calls := (h.mem_iff call (by simp [happ])).2 (by simp)
    cases hfind : calls.find? (·.app = t) with
    | none =>
      have hnone := List.find?_eq_none.1 hfind call hcall
      simp [happ] at hnone
    | some c =>
      have hc : c.app = t := by simpa using List.find?_some hfind
      have hmem := (h.mem_iff c (by simp [hc])).1 (List.mem_of_find?_eq_some hfind)
      simpa using hmem

section

variable {calls : List TailCall}

/-- A tree with different numbers is marked by every table that has the calls of the tree. -/
def MarkedByLists (calls : List TailCall) (e : Expr Nat) : Prop :=
  ∀ target, e.tags.Nodup → Lists calls e.tags (tailCallsIn target e) → Marked calls target e

theorem markedList_of_lists {es : List (Expr Nat)} (h : ∀ e ∈ es, MarkedByLists calls e)
    (hnodup : (tagsList es).Nodup) (hl : Lists calls (tagsList es) (tailCallsList es)) :
    AtCallsList (TableTells calls) es := by
  induction es with
  | nil => trivial
  | cons e es ih =>
    obtain ⟨he, hes⟩ := List.forall_mem_cons.1 h
    obtain ⟨hl₁, hl₂⟩ := hl.split hnodup (callsInside e none)
      (callsInside_list fun e _ => callsInside e)
    obtain ⟨hnodup₁, hnodup₂, _⟩ := List.nodup_append.1 hnodup
    exact ⟨he none hnodup₁ hl₁, ih hes hnodup₂ hl₂⟩

theorem markedSeq_of_lists {es : List (Expr Nat)} {target : Option TailTarget}
    (h : ∀ e ∈ es, MarkedByLists calls e) (hnodup : (tagsList es).Nodup)
    (hl : Lists calls (tagsList es) (tailCallsSeq target es)) :
    AtCallsSeq (TableTells calls) target es := by
  induction es with
  | nil => trivial
  | cons e es ih =>
    obtain ⟨he, hes⟩ := List.forall_mem_cons.1 h
    obtain ⟨hnodup₁, hnodup₂, _⟩ := List.nodup_append.1 hnodup
    cases es with
    | nil =>
      exact he target hnodup₁ (hl.left (callsInside e target))
    | cons e' es =>
      obtain ⟨hl₁, hl₂⟩ := hl.split hnodup (callsInside e none)
        (callsInside_seq (fun e _ => callsInside e) target)
      exact ⟨he none hnodup₁ hl₁, ih hes hnodup₂ hl₂⟩

theorem markedBindings_of_lists {bs : List (Name × Expr Nat)}
    (h : ∀ b ∈ bs, MarkedByLists calls b.2) (hnodup : (tagsBindings bs).Nodup)
    (hl : Lists calls (tagsBindings bs) (tailCallsBindings bs)) :
    AtCallsBindings (TableTells calls) bs := by
  induction bs with
  | nil => trivial
  | cons b bs ih =>
    obtain ⟨hb, hbs⟩ := List.forall_mem_cons.1 h
    obtain ⟨hl₁, hl₂⟩ := hl.split hnodup (callsInside b.2 none)
      (callsInside_bindings fun b _ => callsInside b.2)
    obtain ⟨hnodup₁, hnodup₂, _⟩ := List.nodup_append.1 hnodup
    exact ⟨hb none hnodup₁ hl₁, ih hbs hnodup₂ hl₂⟩

theorem markedMembers_of_lists {ms : List (Member Nat (Expr Nat))}
    (h : ∀ m ∈ ms, MarkedByLists calls m.body) (hnodup : (tagsMembers ms).Nodup)
    (hl : Lists calls (tagsMembers ms) (tailCallsMembers ms)) :
    AtCallsMembers (TableTells calls) ms := by
  induction ms with
  | nil => trivial
  | cons m ms ih =>
    obtain ⟨hm, hms⟩ := List.forall_mem_cons.1 h
    obtain ⟨hl₁, hl₂⟩ := hl.split hnodup (callsInside m.body _)
      (callsInside_members fun m _ => callsInside m.body)
    obtain ⟨hnodup₁, hnodup₂, _⟩ := List.nodup_append.1 hnodup
    exact ⟨hm _ hnodup₁ hl₁, ih hms hnodup₂ hl₂⟩

theorem markedByLists (e : Expr Nat) : MarkedByLists calls e := by
  induction e with
  | lit v t => exact fun _ _ _ => trivial
  | var x t => exact fun _ _ _ => trivial
  | cond test yes no t htest hyes hno =>
    intro target hnodup hl
    have hin := app_mem_append (callsInside test none) (callsInside yes target)
    obtain ⟨hnodup', -, -⟩ := List.nodup_append.1 hnodup
    obtain ⟨hl₁₂, hl₃⟩ := (hl.left (app_mem_append hin (callsInside no target))).split hnodup' hin
      (callsInside no target)
    obtain ⟨hnodup₁₂, hnodup₃, -⟩ := List.nodup_append.1 hnodup'
    obtain ⟨hl₁, hl₂⟩ := hl₁₂.split hnodup₁₂ (callsInside test none) (callsInside yes target)
    obtain ⟨hnodup₁, hnodup₂, -⟩ := List.nodup_append.1 hnodup₁₂
    exact ⟨htest none hnodup₁ hl₁, hyes target hnodup₂ hl₂, hno target hnodup₃ hl₃⟩
  | lambda params body t hbody =>
    intro target hnodup hl
    obtain ⟨hnodup', -, -⟩ := List.nodup_append.1 hnodup
    exact hbody _ hnodup' (hl.left (callsInside body _))
  | assign x value t hvalue =>
    intro target hnodup hl
    obtain ⟨hnodup', -, -⟩ := List.nodup_append.1 hnodup
    exact hvalue _ hnodup' (hl.left (callsInside value _))
  | app func args t hfunc hargs =>
    intro target hnodup hl
    have hlist := callsInside_list fun e (_ : e ∈ args) => callsInside e
    have hin := app_mem_append (callsInside func none) hlist
    obtain ⟨hl₁₂, hl₃⟩ := hl.split hnodup hin app_mem_tags_of_mem_target
    obtain ⟨hnodup₁₂, -, -⟩ := List.nodup_append.1 hnodup
    obtain ⟨hl₁, hl₂⟩ := hl₁₂.split hnodup₁₂ (callsInside func none) hlist
    obtain ⟨hnodup₁, hnodup₂, -⟩ := List.nodup_append.1 hnodup₁₂
    exact ⟨hl₃.find?_eq, hfunc none hnodup₁ hl₁, markedList_of_lists hargs hnodup₂ hl₂⟩
  | letIn bindings body t hbindings hbody =>
    intro target hnodup hl
    have hinits := callsInside_bindings fun b (_ : b ∈ bindings) => callsInside b.2
    obtain ⟨hnodup', -, -⟩ := List.nodup_append.1 hnodup
    obtain ⟨hl₁, hl₂⟩ := (hl.left (app_mem_append hinits (callsInside body _))).split hnodup'
      hinits (callsInside body _)
    obtain ⟨hnodup₁, hnodup₂, -⟩ := List.nodup_append.1 hnodup'
    exact ⟨markedBindings_of_lists hbindings hnodup₁ hl₁, hbody _ hnodup₂ hl₂⟩
  | letrec bindings body t hbindings hbody =>
    intro target hnodup hl
    have hinits := callsInside_bindings fun b (_ : b ∈ bindings) => callsInside b.2
    obtain ⟨hnodup', -, -⟩ := List.nodup_append.1 hnodup
    obtain ⟨hl₁, hl₂⟩ := (hl.left (app_mem_append hinits (callsInside body _))).split hnodup'
      hinits (callsInside body _)
    obtain ⟨hnodup₁, hnodup₂, -⟩ := List.nodup_append.1 hnodup'
    exact ⟨markedBindings_of_lists hbindings hnodup₁ hl₁, hbody _ hnodup₂ hl₂⟩
  | fix members body t hmembers hbody =>
    intro target hnodup hl
    have hprocs := callsInside_members fun m (_ : m ∈ members) => callsInside m.body
    have hin := app_mem_append hprocs (callsInside body (target.map (·.deeper members.length)))
    -- the numbers of the members themselves are in front, and no application has one of them
    have hsplit : (fix members body t).tags =
        members.map (·.tag) ++ ((tagsMembers members ++ body.tags) ++ [t]) := by
      simp only [tags, List.append_assoc]
    rw [hsplit] at hnodup hl
    have hl' := (hl.right fun c hc => List.mem_append_left [t] (hin c hc)).left hin
    obtain ⟨-, hnodup', -⟩ := List.nodup_append.1 hnodup
    obtain ⟨hnodup₁₂, -, -⟩ := List.nodup_append.1 hnodup'
    obtain ⟨hl₁, hl₂⟩ := hl'.split hnodup₁₂ hprocs (callsInside body _)
    obtain ⟨hnodup₁, hnodup₂, -⟩ := List.nodup_append.1 hnodup₁₂
    exact ⟨markedMembers_of_lists hmembers hnodup₁ hl₁, hbody _ hnodup₂ hl₂⟩
  | seq items t hitems =>
    intro target hnodup hl
    obtain ⟨hnodup', -, -⟩ := List.nodup_append.1 hnodup
    have hin := callsInside_seq (fun e (_ : e ∈ items) => callsInside e) target
    exact markedSeq_of_lists hitems hnodup' (hl.left hin)

end

theorem marked_tailCalls {e : Expr Nat} (h : e.tags.Nodup) : Marked e.tailCalls none e :=
  markedByLists e none h ⟨callsInside e none, fun _ _ => Iff.rfl⟩

end Expr

end MiniScheme
