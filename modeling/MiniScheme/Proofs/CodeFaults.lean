import MiniScheme.Proofs.FreeNames
import MiniScheme.Proofs.Generation
import MiniScheme.Proofs.Linking
import MiniScheme.Proofs.Subtrees

/-!
# Failures of code generation

A tree without `letrec` and without empty sequences has no code for one of two reasons: it
assigns to a name, or one of its free names is found nowhere. Names that are bound anywhere in the
tree are always found again, through all closures that capture them.
-/

namespace MiniScheme

namespace Emit

variable {ω ε α β : Type}

theorem result_bind_eq_error_iff (x : Emit ω ε α) (f : α → Emit ω ε β) (e : ε) :
    (x >>= f).result = .error e ↔
      x.result = .error e ∨ ∃ a, x.result = .ok a ∧ (f a).result = .error e := by
  rw [result_bind, Results.bind_eq_error_iff]

end Emit

/-! ### Names that a frame lacks -/

namespace Frame

variable {f : Frame} {x : Name}

/-- The name is none of those that the frame can load. -/
def Lacks (f : Frame) (x : Name) : Prop :=
  f.reference x = .error (.unbound x)

theorem lacks_iff : f.Lacks x ↔ x ∉ f.params ∧ f.temps.lookup x = none ∧ x ∉ f.captured ∧
    Primitive.ofName? x = none ∧ f.group.lookup x = none := by
  rw [← List.idxOf?_eq_none_iff (a := x) (l := f.params),
    ← List.idxOf?_eq_none_iff (a := x) (l := f.captured), Lacks]
  unfold reference
  cases f.params.idxOf? x <;> cases f.temps.lookup x <;> cases f.captured.idxOf? x <;>
    cases Primitive.ofName? x <;> cases f.group.lookup x <;> simp

theorem lacks_of_reference {err : Error} (h : f.reference x = .error err) :
    err = .unbound x ∧ f.Lacks x := by
  have herr : err = .unbound x := by
    unfold reference at h
    grind
  exact ⟨herr, h.trans (congrArg _ herr)⟩

theorem lacks_raise {n : Nat} : (f.raise n).Lacks x ↔ f.Lacks x :=
  Iff.rfl

theorem Lacks.of_bind {y : Name} (h : (f.bind y).Lacks x) : x ≠ y ∧ f.Lacks x := by
  rw [lacks_iff] at h ⊢
  obtain ⟨hparams, htemps, hcaptured, hprim, hgroup⟩ := h
  rw [bind, List.lookup_cons] at htemps
  split at htemps
  · cases htemps
  · rename_i hne
    exact ⟨fun heq => by simp [heq] at hne, hparams, htemps, hcaptured, hprim, hgroup⟩

theorem Lacks.of_bindAll {ys : List Name} (h : (f.bindAll ys).Lacks x) : x ∉ ys ∧ f.Lacks x := by
  induction ys generalizing f with
  | nil => exact ⟨List.not_mem_nil, h⟩
  | cons y ys ih =>
    obtain ⟨hys, hbind⟩ := ih (f := f.bind y) h
    obtain ⟨hy, hf⟩ := hbind.of_bind
    exact ⟨fun hmem => (List.mem_cons.1 hmem).elim hy hys, hf⟩

theorem pushNames_error {xs : List Name} {err : Error} (h : f.pushNames xs = .error err) :
    ∃ x ∈ xs, err = .unbound x ∧ f.Lacks x := by
  induction xs with
  | nil => cases h
  | cons x xs ih =>
    simp only [pushNames, Results.bind_eq_error_iff] at h
    rcases h with h | ⟨i, _, h | ⟨rest, _, h⟩⟩
    · exact ⟨x, List.mem_cons_self .., lacks_of_reference h⟩
    · obtain ⟨y, hy, hlacks⟩ := ih h
      exact ⟨y, List.mem_cons_of_mem _ hy, hlacks⟩
    · cases h

theorem closeMembers_error {captured : List Name} {ms : List (Name × Label)} {err : Error}
    (h : f.closeMembers captured ms = .error err) :
    ∃ x ∈ captured, err = .unbound x ∧ f.Lacks x := by
  induction ms generalizing f with
  | nil => cases h
  | cons m ms ih =>
    simp only [closeMembers, Results.bind_eq_error_iff] at h
    rcases h with h | ⟨values, _, h | ⟨r, _, h⟩⟩
    · exact pushNames_error h
    · obtain ⟨x, hx, herr, hlacks⟩ := ih h
      exact ⟨x, hx, herr, hlacks.of_bind.2⟩
    · cases h

/-- A procedure finds its parameters, what it captures, the primitives and its group. -/
theorem not_lacks_ofProcedure {params captured bound : List Name} {group : List (Name × Label)}
    (hbound : ∀ y ∈ bound, y ∈ params ∨ y ∈ group.map (·.1) ∨ y ∈ Primitive.names)
    (hx : x ∈ bound ∨ x ∈ captured) : ¬(ofProcedure params captured group).Lacks x := by
  rw [lacks_iff]
  rintro ⟨hparams, _, hcaptured, hprim, hgroup⟩
  rcases hx with hx | hx
  · rcases hbound x hx with h | h | h
    · exact hparams h
    · exact Expr.notMem_of_lookup_eq_none hgroup h
    · exact Expr.notMem_names_of_ofName? hprim h
  · exact hcaptured hx

end Frame

/-! ### Trees without code -/

namespace Expr

open Emit MiniScheme.Frame

variable {calls : List TailCall} {f : Frame} {err : Error}

/-- Why a tree has no code in a frame. -/
def Faults (f : Frame) (e : Expr Nat) (err : Error) : Prop :=
  (err = .rejected .assign ∧ ∃ x value t, Occurs (assign x value t) e) ∨
    ∃ x, err = .unbound x ∧ FreeIn x e ∧ f.Lacks x

theorem faults_raise {n : Nat} {e : Expr Nat} : Faults (f.raise n) e err ↔ Faults f e err := by
  simp only [Faults, lacks_raise]

theorem Faults.outside {f f' : Frame} {d e : Expr Nat} (h : Faults f' d err)
    (hd : d ∈ e.children) (hfree : ∀ x, FreeIn x d → f'.Lacks x → FreeIn x e ∧ f.Lacks x) :
    Faults f e err := by
  rcases h with ⟨herr, x, value, t, hocc⟩ | ⟨x, herr, hx, hlacks⟩
  · exact .inl ⟨herr, x, value, t, .inside hd hocc⟩
  · exact .inr ⟨x, herr, hfree x hx hlacks⟩

/-- Without `letrec` and empty sequences there are no other reasons. -/
def FailsOnly (e : Expr Nat) : Prop :=
  ∀ {calls : List TailCall} {f : Frame} {ctx : Context} {err : Error}, e.Lowered →
    (gen calls f ctx e).result = .error err → Faults f e err

theorem faults_args {es : List (Expr Nat)} (h : ∀ e ∈ es, FailsOnly e)
    (hlow : ∀ e ∈ es, e.Lowered) (herr : (genArgs calls f es).result = .error err) :
    ∃ e ∈ es, Faults f e err := by
  induction es with
  | nil => cases herr
  | cons e es ih =>
    obtain ⟨he, hes⟩ := List.forall_mem_cons.1 h
    obtain ⟨hle, hles⟩ := List.forall_mem_cons.1 hlow
    simp only [genArgs, result_bind_eq_error_iff] at herr
    rcases herr with herr | ⟨rest, _, herr | ⟨first, _, herr⟩⟩
    · obtain ⟨e', he', hfault⟩ := ih hes hles herr
      exact ⟨e', List.mem_cons_of_mem _ he', hfault⟩
    · exact ⟨e, List.mem_cons_self .., faults_raise.1 (he hle herr)⟩
    · cases herr

theorem faults_bindings {bs : List (Name × Expr Nat)} (h : ∀ b ∈ bs, FailsOnly b.2)
    (hlow : ∀ b ∈ bs, b.2.Lowered) (herr : (genBindings calls f bs).result = .error err) :
    ∃ b ∈ bs, Faults f b.2 err := by
  induction bs generalizing f with
  | nil => cases herr
  | cons b bs ih =>
    obtain ⟨x, e⟩ := b
    obtain ⟨he, hbs⟩ := List.forall_mem_cons.1 h
    obtain ⟨hle, hlbs⟩ := List.forall_mem_cons.1 hlow
    simp only [genBindings, result_bind_eq_error_iff] at herr
    rcases herr with herr | ⟨first, _, herr | ⟨r, _, herr⟩⟩
    · exact ⟨(x, e), List.mem_cons_self .., he hle herr⟩
    · obtain ⟨b, hb, hfault⟩ := ih hbs hlbs herr
      refine ⟨b, List.mem_cons_of_mem _ hb, ?_⟩
      rcases hfault with hassign | ⟨y, herr, hy, hlacks⟩
      · exact .inl hassign
      · exact .inr ⟨y, herr, hy, hlacks.of_bind.2⟩
    · cases herr

theorem genBindings_frame {bs : List (Name × Expr Nat)} {r : Code × Frame}
    (h : (genBindings calls f bs).result = .ok r) : r.2 = f.bindAll (bs.map (·.1)) := by
  induction bs generalizing f r with
  | nil =>
    simp only [genBindings, result_pure, Except.ok.injEq] at h
    exact h ▸ rfl
  | cons b bs ih =>
    simp only [genBindings, result_bind_eq_ok_iff, result_pure, Except.ok.injEq] at h
    obtain ⟨first, _, r', hr', rfl⟩ := h
    exact (ih hr' : r'.2 = _)

theorem faults_members {ms : List (Member Nat (Expr Nat))} (h : ∀ m ∈ ms, FailsOnly m.body)
    (hlow : ∀ m ∈ ms, m.body.Lowered) {captured : List Name} {group : List (Name × Label)}
    (herr : (genMembers calls captured group ms).result = .error err) :
    ∃ m ∈ ms, Faults (.ofProcedure m.params captured group) m.body err := by
  induction ms with
  | nil => cases herr
  | cons m ms ih =>
    obtain ⟨hm, hms⟩ := List.forall_mem_cons.1 h
    obtain ⟨hlm, hlms⟩ := List.forall_mem_cons.1 hlow
    simp only [genMembers, result_bind_eq_error_iff] at herr
    rcases herr with herr | ⟨code, _, herr | ⟨_, _, herr⟩⟩
    · exact ⟨m, List.mem_cons_self .., hm hlm herr⟩
    · cases herr
    · obtain ⟨m', hm', hfault⟩ := ih hms hlms herr
      exact ⟨m', List.mem_cons_of_mem _ hm', hfault⟩

theorem faults_seq {es : List (Expr Nat)} (h : ∀ e ∈ es, FailsOnly e)
    (hlow : ∀ e ∈ es, e.Lowered) (hne : es ≠ []) {ctx : Context}
    (herr : (genSeq calls f ctx es).result = .error err) : ∃ e ∈ es, Faults f e err := by
  induction es with
  | nil => exact absurd rfl hne
  | cons e es ih =>
    obtain ⟨he, hes⟩ := List.forall_mem_cons.1 h
    obtain ⟨hle, hles⟩ := List.forall_mem_cons.1 hlow
    cases es with
    | nil => exact ⟨e, List.mem_cons_self .., he hle herr⟩
    | cons e' es =>
      simp only [genSeq, result_bind_eq_error_iff] at herr
      rcases herr with herr | ⟨first, _, herr | ⟨rest, _, herr⟩⟩
      · exact ⟨e, List.mem_cons_self .., he hle herr⟩
      · obtain ⟨e'', he'', hfault⟩ := ih hes hles (by simp) herr
        exact ⟨e'', List.mem_cons_of_mem _ he'', hfault⟩
      · cases herr

/-- What a body refers to is bound by the procedure, primitive or captured. -/
theorem Faults.of_procedure {params captured : List Name} {group : List (Name × Label)}
    {body e : Expr Nat} (h : Faults (.ofProcedure params captured group) body err)
    (hbody : body ∈ e.children)
    (hcaptured : ∀ x, FreeIn x body → x ∈ params ++ (group.map (·.1) ++ Primitive.names) ∨
      x ∈ captured) : Faults f e err := by
  refine h.outside hbody fun x hx hlacks => absurd hlacks ?_
  refine not_lacks_ofProcedure (fun y hy => ?_) (hcaptured x hx)
  simpa only [List.mem_append] using hy

theorem failsOnly (e : Expr Nat) : FailsOnly e := by
  induction e with
  | lit v t => exact fun _ h => nomatch h
  | var x t =>
    intro calls f ctx err _ h
    simp only [gen, result_bind_eq_error_iff] at h
    rcases h with h | ⟨i, _, h⟩
    · obtain ⟨herr, hlacks⟩ := lacks_of_reference h
      exact .inr ⟨x, herr, freeIn_var.2 rfl, hlacks⟩
    · cases h
  | cond test yes no t htest hyes hno =>
    intro calls f ctx err hlow h
    have hpart : ∀ d ∈ (cond test yes no t).children, Faults f d err →
        Faults f (cond test yes no t) err := by
      intro d hd hfault
      refine hfault.outside hd fun x hx hlacks => ⟨freeIn_cond.2 ?_, hlacks⟩
      simp only [children, List.mem_cons, List.not_mem_nil, or_false] at hd
      rcases hd with rfl | rfl | rfl
      · exact .inl hx
      · exact .inr (.inl hx)
      · exact .inr (.inr hx)
    simp only [gen, result_bind_eq_error_iff] at h
    rcases h with h | ⟨ct, _, h | ⟨cy, _, h | ⟨cn, _, h⟩⟩⟩
    · exact hpart test (by simp [children]) (htest (hlow.child (by simp [children])) h)
    · exact hpart yes (by simp [children]) (hyes (hlow.child (by simp [children])) h)
    · exact hpart no (by simp [children]) (hno (hlow.child (by simp [children])) h)
    · cases ctx <;> cases h
  | lambda params body t hbody =>
    intro calls f ctx err hlow h
    simp only [gen, result_bind_eq_error_iff] at h
    rcases h with h | ⟨values, _, h | ⟨code, _, h | ⟨_, _, h⟩⟩⟩
    · obtain ⟨x, hx, herr, hlacks⟩ := pushNames_error h
      have hfree := (mem_freeOccurrences_iff _).1 (mem_free.1 hx)
      rw [List.mem_append, not_or] at hfree
      exact .inr ⟨x, herr, freeIn_lambda.2 ⟨hfree.1, hfree.2.1⟩, hlacks⟩
    · refine (hbody (hlow.child (List.mem_singleton_self _)) h).of_procedure
        (List.mem_singleton_self _) fun x hx => ?_
      by_cases hbound : x ∈ params ++ Primitive.names
      · exact .inl hbound
      · exact .inr (mem_free.2 ((mem_freeOccurrences_iff _).2 ⟨hx, hbound⟩))
    · cases h
    · cases h
  | assign x value t hvalue =>
    intro calls f ctx err _ h
    injection h with h
    exact .inl ⟨h.symm, x, value, t, .self _⟩
  | app func args t hfunc hargs =>
    intro calls f ctx err hlow h
    have hleft : Faults f func err → Faults f (app func args t) err := fun hfault =>
      hfault.outside (List.mem_cons_self ..) fun x hx hlacks => ⟨freeIn_app.2 (.inl hx), hlacks⟩
    have hright : (∃ e ∈ args, Faults f e err) → Faults f (app func args t) err := by
      rintro ⟨e, he, hfault⟩
      exact hfault.outside (List.mem_cons_of_mem _ he) fun x hx hlacks =>
        ⟨freeIn_app.2 (.inr ⟨e, he, hx⟩), hlacks⟩
    have hlowfunc := hlow.child (List.mem_cons_self ..)
    have hlowargs : ∀ e ∈ args, e.Lowered := fun e he => hlow.child (List.mem_cons_of_mem _ he)
    rw [gen] at h
    split at h
    · simp only [result_bind_eq_error_iff] at h
      rcases h with h | ⟨pushed, _, h | ⟨cf, _, h⟩⟩
      · exact hright (faults_args hargs hlowargs h)
      · exact hleft (faults_raise.1 (hfunc hlowfunc h))
      · cases h
    · simp only [result_bind_eq_error_iff] at h
      rcases h with h | ⟨pushed, _, h | ⟨cf, _, h⟩⟩
      · obtain ⟨e, he, hfault⟩ := faults_args hargs hlowargs h
        exact hright ⟨e, he, faults_raise.1 hfault⟩
      · exact hleft (faults_raise.1 (hfunc hlowfunc h))
      · cases h
  | letIn bindings body t hbindings hbody =>
    intro calls f ctx err hlow h
    have hlowb : ∀ b ∈ bindings, b.2.Lowered := fun b hb => hlow.child (mem_children_of_letIn hb)
    simp only [gen, result_bind_eq_error_iff] at h
    rcases h with h | ⟨r, hr, h | ⟨cb, _, h⟩⟩
    · obtain ⟨b, hb, hfault⟩ := faults_bindings hbindings hlowb h
      exact hfault.outside (mem_children_of_letIn hb) fun x hx hlacks =>
        ⟨freeIn_letIn.2 (.inl ⟨b, hb, hx⟩), hlacks⟩
    · have hframe : r.2 = f.bindAll (bindings.map (·.1)) := genBindings_frame hr
      rw [hframe] at h
      refine (hbody (hlow.child (body_mem_children_letIn _)) h).outside
        (body_mem_children_letIn _) fun x hx hlacks => ?_
      obtain ⟨hnot, hlacks⟩ := hlacks.of_bindAll
      exact ⟨freeIn_letIn.2 (.inr ⟨hx, hnot⟩), hlacks⟩
    · cases h
  | letrec bindings body t hbindings hbody =>
    exact fun hlow _ => absurd rfl (hlow.root.2 bindings body t)
  | fix members body t hmembers hbody =>
    intro calls f ctx err hlow h
    have hlowm : ∀ m ∈ members, m.body.Lowered := fun m hm =>
      hlow.child (mem_children_of_fix hm)
    simp only [gen, result_bind_eq_error_iff] at h
    rcases h with h | ⟨_, _, h | ⟨r, hr, h | ⟨cb, _, h⟩⟩⟩
    · obtain ⟨m, hm, hfault⟩ := faults_members hmembers hlowm h
      refine hfault.of_procedure (mem_children_of_fix hm) fun x hx => ?_
      rw [List.map_reverse, map_fst_groupLabels]
      by_cases hbound : x ∈ m.params ++ (members.map (·.name) ++ Primitive.names)
      · refine .inl ?_
        simpa only [List.mem_append, List.mem_reverse] using hbound
      · refine .inr (List.mem_eraseDups.2 (mem_freeOccurrencesMembers.2 ⟨m, hm, ?_⟩))
        exact (mem_freeOccurrences_iff _).2 ⟨hx, hbound⟩
    · obtain ⟨x, hx, herr, hlacks⟩ := closeMembers_error h
      have hnot := notMem_of_mem_freeMembers hx
      rw [List.mem_append, not_or] at hnot
      obtain ⟨m, hm, hocc⟩ := mem_freeOccurrencesMembers.1 (List.mem_eraseDups.1 hx)
      have hfree := (mem_freeOccurrences_iff _).1 hocc
      rw [List.mem_append, not_or] at hfree
      refine .inr ⟨x, herr, freeIn_fix.2 ⟨.inl ⟨m, hm, hfree.1, hfree.2.1⟩, hnot.1⟩, hlacks⟩
    · have hframe : r.2 = f.bindAll ((groupLabels members).map (·.1)) := closeMembers_frame hr
      rw [hframe, map_fst_groupLabels] at h
      refine (hbody (hlow.child (body_mem_children_fix _)) h).outside
        (body_mem_children_fix _) fun x hx hlacks => ?_
      obtain ⟨hnot, hlacks⟩ := hlacks.of_bindAll
      exact ⟨freeIn_fix.2 ⟨.inr hx, hnot⟩, hlacks⟩
    · cases h
  | seq items t hitems =>
    intro calls f ctx err hlow h
    have hne : items ≠ [] := by
      rintro rfl
      exact hlow.root.1 t rfl
    rw [gen] at h
    obtain ⟨e, he, hfault⟩ := faults_seq hitems (fun e he => hlow.child he) hne h
    exact hfault.outside he fun x hx hlacks => ⟨freeIn_seq.2 ⟨e, he, hx⟩, hlacks⟩

theorem assemble_error {e : Expr Nat} (hlow : e.Lowered) (h : e.assemble calls = .error err) :
    Faults .main e err := by
  rw [assemble, Results.map_eq_error_iff, genMain, result_bind_eq_error_iff] at h
  rcases h with h | ⟨code, _, h⟩
  · exact failsOnly e hlow h
  · cases h

/-- A tree without assignments whose free names are primitive has code, with any tail calls. -/
theorem exists_program {e : Expr Nat} (hlow : e.Lowered)
    (hassign : ∀ x value t, ¬Occurs (assign x value t) e)
    (hfree : ∀ x, FreeIn x e → x ∈ Primitive.names) (calls : List TailCall) :
    ∃ a p, e.assemble calls = .ok a ∧ a.link = .ok p := by
  cases h : e.assemble calls with
  | ok a =>
    obtain ⟨p, hp⟩ := exists_link_of_assemble h
    exact ⟨a, p, rfl, hp⟩
  | error err =>
    rcases assemble_error hlow h with ⟨_, x, value, t, hocc⟩ | ⟨x, _, hx, hlacks⟩
    · exact absurd hocc (hassign x value t)
    · have hprim := (lacks_iff.1 hlacks).2.2.2.1
      exact absurd (hfree x hx) (notMem_names_of_ofName? hprim)

end Expr

end MiniScheme
