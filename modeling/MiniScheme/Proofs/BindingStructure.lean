import MiniScheme.Proofs.Compilation
import MiniScheme.Proofs.Depth
import MiniScheme.Proofs.NameChange
import MiniScheme.Proofs.RecoveredTyping

/-!
# Compilation depends on binding structure only

The nameless form of a tree says of each reference which binder it denotes and forgets how binders
are spelled. Two trees with the same nameless form, whose free names are those of primitives, are
renamed to trees that differ by a change of names; so they compile to the same program.
-/

namespace MiniScheme

/-! ### Nameless forms -/

/-- What a reference denotes: a binder, by the number of binders between them, or a global. -/
inductive Ref where
  | bound (i : Nat)
  | free (x : Name)

/-- A tree without names for its binders. Of a binder list only the length is left. -/
inductive Nameless where
  | lit (value : Literal)
  | ref (r : Ref)
  | cond (test yes no : Nameless)
  | lambda (arity : Nat) (body : Nameless)
  | assign (r : Ref) (value : Nameless)
  | app (func : Nameless) (args : List Nameless)
  | letIn (inits : List Nameless) (body : Nameless)
  | letrec (inits : List Nameless) (body : Nameless)
  | fix (procs : List (Nat × Nameless)) (body : Nameless)
  | seq (items : List Nameless)

/-- What a name denotes among the names in scope, of which the latest comes first. -/
def Ref.of (scope : List Name) (x : Name) : Ref :=
  match scope.idxOf? x with
  | some i => .bound i
  | none => .free x

namespace Expr

variable {α : Type}

mutual
/-- The nameless form of a tree among the names in scope, of which the latest comes first. Of two
equal names in one binder list the later one counts. -/
def nameless (scope : List Name) : Expr α → Nameless
  | lit v _ => .lit v
  | var x _ => .ref (.of scope x)
  | cond test yes no _ => .cond (nameless scope test) (nameless scope yes) (nameless scope no)
  | lambda params body _ => .lambda params.length (nameless (params.reverse ++ scope) body)
  | assign x value _ => .assign (.of scope x) (nameless scope value)
  | app func args _ => .app (nameless scope func) (namelessList scope args)
  | letIn bindings body _ =>
    .letIn (namelessBindings scope bindings)
      (nameless ((bindings.map (·.1)).reverse ++ scope) body)
  | letrec bindings body _ =>
    .letrec (namelessBindings ((bindings.map (·.1)).reverse ++ scope) bindings)
      (nameless ((bindings.map (·.1)).reverse ++ scope) body)
  | fix members body _ =>
    .fix (namelessMembers ((members.map (·.name)).reverse ++ scope) members)
      (nameless ((members.map (·.name)).reverse ++ scope) body)
  | seq items _ => .seq (namelessList scope items)
termination_by structural e => e

def namelessList (scope : List Name) : List (Expr α) → List Nameless
  | [] => []
  | e :: es => nameless scope e :: namelessList scope es
termination_by structural es => es

def namelessBindings (scope : List Name) : List (Name × Expr α) → List Nameless
  | [] => []
  | (_, e) :: bs => nameless scope e :: namelessBindings scope bs
termination_by structural bs => bs

def namelessMembers (scope : List Name) : List (Member α (Expr α)) → List (Nat × Nameless)
  | [] => []
  | ⟨_, _, params, body⟩ :: ms =>
    (params.length, nameless (params.reverse ++ scope) body) :: namelessMembers scope ms
termination_by structural ms => ms
end

mutual
/-- The names of all binders of a tree, in the order in which renaming draws new ones for them. -/
def spellings : Expr α → List Name
  | lit _ _ => []
  | var _ _ => []
  | cond test yes no _ => spellings test ++ spellings yes ++ spellings no
  | lambda params body _ => params ++ spellings body
  | assign _ value _ => spellings value
  | app func args _ => spellings func ++ spellingsList args
  | letIn bindings body _ => spellingsBindings bindings ++ bindings.map (·.1) ++ spellings body
  | letrec bindings body _ => bindings.map (·.1) ++ spellingsBindings bindings ++ spellings body
  | fix members body _ => members.map (·.name) ++ spellingsMembers members ++ spellings body
  | seq items _ => spellingsList items
termination_by structural e => e

def spellingsList : List (Expr α) → List Name
  | [] => []
  | e :: es => spellings e ++ spellingsList es
termination_by structural es => es

def spellingsBindings : List (Name × Expr α) → List Name
  | [] => []
  | (_, e) :: bs => spellings e ++ spellingsBindings bs
termination_by structural bs => bs

def spellingsMembers : List (Member α (Expr α)) → List Name
  | [] => []
  | ⟨_, _, params, body⟩ :: ms => params ++ spellings body ++ spellingsMembers ms
termination_by structural ms => ms
end

/-- Renaming a tree draws as many numbers as it has binders. -/
def DrawsFor (e : Expr α) : Prop :=
  ∀ (r : Renaming) (n : Nat), (renameIn r e n).2 = n + e.spellings.length

theorem drawsFor_list {es : List (Expr α)} (h : ∀ e ∈ es, DrawsFor e) (r : Renaming) (n : Nat) :
    (renameListIn r es n).2 = n + (spellingsList es).length := by
  induction es generalizing n with
  | nil => rfl
  | cons e es ih =>
    obtain ⟨he, hes⟩ := List.forall_mem_cons.1 h
    simp only [renameListIn, spellingsList, List.length_append, he r n, ih hes]
    omega

theorem drawsFor_bindings {bs : List (Name × Expr α)} (h : ∀ b ∈ bs, DrawsFor b.2) (r : Renaming)
    (n : Nat) : (renameBindingsIn r bs n).2 = n + (spellingsBindings bs).length := by
  induction bs generalizing n with
  | nil => rfl
  | cons b bs ih =>
    obtain ⟨hb, hbs⟩ := List.forall_mem_cons.1 h
    simp only [renameBindingsIn, spellingsBindings, List.length_append, hb r n, ih hbs]
    omega

theorem drawsFor_members {ms : List (Member α (Expr α))} (h : ∀ m ∈ ms, DrawsFor m.body)
    (r : Renaming) (n : Nat) :
    (renameMembersIn r ms n).2 = n + (spellingsMembers ms).length := by
  induction ms generalizing n with
  | nil => rfl
  | cons m ms ih =>
    obtain ⟨hm, hms⟩ := List.forall_mem_cons.1 h
    simp only [renameMembersIn, spellingsMembers, List.length_append, hm _ _, ih hms]
    omega

theorem drawsFor (e : Expr α) : DrawsFor e := by
  induction e with
  | lit v t => exact fun r n => rfl
  | var x t => exact fun r n => rfl
  | cond test yes no t htest hyes hno =>
    intro r n
    simp only [renameIn, spellings, List.length_append, htest r n, hyes r _, hno r _]
    omega
  | lambda params body t hbody =>
    intro r n
    simp only [renameIn, spellings, List.length_append, hbody _ _]
    omega
  | assign x value t hvalue => exact fun r n => hvalue r n
  | app func args t hfunc hargs =>
    intro r n
    simp only [renameIn, spellings, List.length_append, hfunc r n, drawsFor_list hargs]
    omega
  | letIn bindings body t hbs hbody =>
    intro r n
    simp only [renameIn, spellings, List.length_append, hbody _ _, drawsFor_bindings hbs]
    omega
  | letrec bindings body t hbs hbody =>
    intro r n
    simp only [renameIn, spellings, List.length_append, hbody _ _, drawsFor_bindings hbs]
    omega
  | fix members body t hms hbody =>
    intro r n
    simp only [renameIn, spellings, List.length_append, hbody _ _, drawsFor_members hms]
    omega
  | seq items t hitems => exact fun r n => drawsFor_list hitems r n

end Expr

/-! ### Renaming trees with the same nameless form -/

/-- A change of names takes the names of one list to those of another, as far as both go. -/
def Sends (f : Name → Name) (xs ys : List Name) : Prop :=
  ∀ p ∈ xs.zip ys, f p.1 = p.2

namespace Sends

variable {f : Name → Name} {xs xs' ys ys' : List Name}

theorem left (h : Sends f (xs ++ xs') (ys ++ ys')) : Sends f xs ys := by
  induction xs generalizing ys with
  | nil => exact nofun
  | cons x xs ih =>
    cases ys with
    | nil => exact nofun
    | cons y ys =>
      obtain ⟨hx, hxs⟩ := List.forall_mem_cons.1 h
      exact List.forall_mem_cons.2 ⟨hx, ih hxs⟩

theorem right (h : Sends f (xs ++ xs') (ys ++ ys')) (hlen : xs.length = ys.length) :
    Sends f xs' ys' := by
  intro p hp
  refine h p ?_
  rw [List.zip_append hlen]
  exact List.mem_append_right _ hp

theorem map_eq (h : Sends f xs ys) (hlen : xs.length = ys.length) : xs.map f = ys := by
  induction xs generalizing ys with
  | nil => exact (List.length_eq_zero_iff.1 hlen.symm).symm
  | cons x xs ih =>
    cases ys with
    | nil => cases hlen
    | cons y ys =>
      obtain ⟨hx, hxs⟩ := List.forall_mem_cons.1 h
      rw [List.map_cons, hx, ih hxs (Nat.succ.inj hlen)]

end Sends

theorem Sends.first {f : Name → Name} {xs xs' ys ys' : List Name} {n : Nat}
    (h : Sends f (freshNames (xs ++ xs') n) (freshNames (ys ++ ys') n)) :
    Sends f (freshNames xs n) (freshNames ys n) := by
  rw [freshNames_append, freshNames_append] at h
  exact h.left

/-- After the names for as many binders on either side come those for the other binders. -/
theorem Sends.next {f : Name → Name} {xs xs' ys ys' : List Name} {n m : Nat}
    (h : Sends f (freshNames (xs ++ xs') n) (freshNames (ys ++ ys') n)) (hxs : m = n + xs.length)
    (hys : m = n + ys.length) : Sends f (freshNames xs' m) (freshNames ys' m) := by
  rw [freshNames_append, freshNames_append, ← hxs, ← hys] at h
  refine h.right ?_
  rw [length_freshNames, length_freshNames]
  omega

theorem Sends.freshNames {f : Name → Name} {xs ys : List Name} {n : Nat}
    (h : Sends f (freshNames xs n) (freshNames ys n)) (hlen : xs.length = ys.length) :
    (freshNames xs n).map f = freshNames ys n :=
  h.map_eq (by rw [length_freshNames, length_freshNames, hlen])

/-- Renamings of binders that correspond, with corresponding new names. -/
def Renaming.Parallel (f : Name → Name) (r r' : Renaming) : Prop :=
  List.Forall₂ (fun a b => b.2 = f a.2) r r'

namespace Renaming

variable {f : Name → Name} {r r' : Renaming}

theorem map_fst_enter (r : Renaming) (xs : List Name) (n : Nat) :
    (r.enter xs n).map (·.1) = xs.reverse ++ r.map (·.1) := by
  induction xs generalizing r n with
  | nil => rfl
  | cons x xs ih => rw [enter, ih, List.map_cons, List.reverse_cons, List.append_assoc]; rfl

theorem notMem_enter_iff {xs : List Name} {n : Nat} {x : Name} :
    x ∉ (r.enter xs n).map (·.1) ↔ x ∉ xs ∧ x ∉ r.map (·.1) := by
  rw [map_fst_enter, List.mem_append, List.mem_reverse, not_or]

theorem Parallel.enter {xs ys : List Name} {n : Nat} (h : r.Parallel f r')
    (hfresh : (freshNames xs n).map f = freshNames ys n) :
    (r.enter xs n).Parallel f (r'.enter ys n) := by
  induction xs generalizing r r' ys n with
  | nil =>
    cases ys with
    | nil => exact h
    | cons y ys => cases hfresh
  | cons x xs ih =>
    cases ys with
    | nil => cases hfresh
    | cons y ys =>
      obtain ⟨hx, hxs⟩ := List.cons.inj hfresh
      exact ih (.cons hx.symm h) hxs

theorem find_cons_of_eq {x y u : Name} (h : u = x) : find ((u, y) :: r) x = y := by
  subst h
  simp [find]

theorem find_cons_of_ne {x y u : Name} (h : u ≠ x) : find ((u, y) :: r) x = r.find x := by
  simp [find, List.lookup_cons, beq_false_of_ne h.symm]

theorem Parallel.find_of_idxOf? {x y : Name} (h : r.Parallel f r')
    (hidx : (r.map (·.1)).idxOf? x = (r'.map (·.1)).idxOf? y)
    (hout : (r.map (·.1)).idxOf? x = none → f x = y) : r'.find y = f (r.find x) := by
  induction h with
  | nil => exact (hout rfl).symm
  | @cons a b r r' hab _ ih =>
    obtain ⟨u, v⟩ := a
    obtain ⟨u', v'⟩ := b
    simp only [List.map_cons, List.idxOf?_cons, beq_iff_eq] at hidx hout
    by_cases hu : u = x <;> by_cases hu' : u' = y
    · rw [find_cons_of_eq hu, find_cons_of_eq hu']
      exact hab
    · simp [hu, hu'] at hidx
    · simp [hu, hu'] at hidx
    · rw [if_neg hu, if_neg hu'] at hidx
      rw [if_neg hu] at hout
      rw [find_cons_of_ne hu, find_cons_of_ne hu']
      refine ih (Option.map_injective (fun _ _ => Nat.succ.inj) hidx) fun hnone => hout ?_
      rw [hnone]
      rfl

theorem Parallel.find {x y : Name} (h : r.Parallel f r')
    (href : Ref.of (r.map (·.1)) x = Ref.of (r'.map (·.1)) y) (hx : x ∉ r.map (·.1) → f x = x) :
    r'.find y = f (r.find x) := by
  unfold Ref.of at href
  cases hi : (r.map (·.1)).idxOf? x with
  | some i =>
    cases hj : (r'.map (·.1)).idxOf? y with
    | some j =>
      simp only [hi, hj, Ref.bound.injEq] at href
      exact h.find_of_idxOf? (by rw [hi, hj, href]) (by simp [hi])
    | none => simp [hi, hj] at href
  | none =>
    cases hj : (r'.map (·.1)).idxOf? y with
    | some j => simp [hi, hj] at href
    | none =>
      simp only [hi, hj, Ref.free.injEq] at href
      subst href
      exact h.find_of_idxOf? (by rw [hi, hj]) fun _ => hx (List.idxOf?_eq_none_iff.1 hi)

end Renaming

namespace Expr

variable {f : Name → Name} {r r' : Renaming} {n : Nat}

theorem namelessList_eq_map (scope : List Name) (es : List (Expr Unit)) :
    namelessList scope es = es.map (nameless scope) := by
  induction es with
  | nil => rfl
  | cons e es ih => rw [namelessList, List.map_cons, ih]

theorem namelessBindings_eq_map (scope : List Name) (bs : List (Name × Expr Unit)) :
    namelessBindings scope bs = bs.map fun b => b.2.nameless scope := by
  induction bs with
  | nil => rfl
  | cons b bs ih => rw [namelessBindings, List.map_cons, ih]

theorem namelessMembers_eq_map (scope : List Name) (ms : List (Member Unit (Expr Unit))) :
    namelessMembers scope ms =
      ms.map fun m => (m.params.length, m.body.nameless (m.params.reverse ++ scope)) := by
  induction ms with
  | nil => rfl
  | cons m ms ih => rw [namelessMembers, List.map_cons, ih]

theorem length_eq_of_namelessBindings {scope scope' : List Name}
    {bs bs' : List (Name × Expr Unit)}
    (h : namelessBindings scope bs = namelessBindings scope' bs') :
    (bs.map (·.1)).length = (bs'.map (·.1)).length := by
  simpa only [namelessBindings_eq_map, List.length_map] using congrArg List.length h

theorem length_eq_of_namelessMembers {scope scope' : List Name}
    {ms ms' : List (Member Unit (Expr Unit))}
    (h : namelessMembers scope ms = namelessMembers scope' ms') :
    (ms.map (·.name)).length = (ms'.map (·.name)).length := by
  simpa only [namelessMembers_eq_map, List.length_map] using congrArg List.length h

/-- Another tree with the same nameless form is renamed to the same tree under other names. -/
def RenamedAlike (f : Name → Name) (e : Expr Unit) : Prop :=
  ∀ (e' : Expr Unit) (r r' : Renaming) (n : Nat), r.Parallel f r' →
    e.nameless (r.map (·.1)) = e'.nameless (r'.map (·.1)) →
    (∀ x, FreeIn x e → x ∉ r.map (·.1) → f x = x) →
    Sends f (freshNames e.spellings n) (freshNames e'.spellings n) →
    renameIn r' e' n = ((renameIn r e n).1.mapNames f, (renameIn r e n).2)

/-- The names for what comes after a tree correspond as well. -/
theorem RenamedAlike.before {e e' : Expr Unit} (h : RenamedAlike f e) (hr : r.Parallel f r')
    (hform : e.nameless (r.map (·.1)) = e'.nameless (r'.map (·.1)))
    (hfree : ∀ x, FreeIn x e → x ∉ r.map (·.1) → f x = x) {xs ys : List Name}
    (hsends : Sends f (freshNames (e.spellings ++ xs) n) (freshNames (e'.spellings ++ ys) n)) :
    renameIn r' e' n = ((renameIn r e n).1.mapNames f, (renameIn r e n).2) ∧
      Sends f (freshNames xs (renameIn r e n).2) (freshNames ys (renameIn r e n).2) := by
  have hrenamed := h e' r r' n hr hform hfree hsends.first
  have hcounter : (renameIn r e n).2 = (renameIn r' e' n).2 := by rw [hrenamed]
  exact ⟨hrenamed, hsends.next (drawsFor e r n) (hcounter.trans (drawsFor e' r' n))⟩

/-- Inside a binder list, with corresponding new names on either side. -/
theorem RenamedAlike.scoped {body body' : Expr Unit} (h : RenamedAlike f body)
    (hr : r.Parallel f r') {xs ys : List Name} {k : Nat}
    (hfresh : (freshNames xs k).map f = freshNames ys k)
    (hform : body.nameless (xs.reverse ++ r.map (·.1)) =
      body'.nameless (ys.reverse ++ r'.map (·.1)))
    (hfree : ∀ x, FreeIn x body → x ∉ xs → x ∉ r.map (·.1) → f x = x)
    (hsends : Sends f (freshNames body.spellings n) (freshNames body'.spellings n)) :
    renameIn (r'.enter ys k) body' n =
      ((renameIn (r.enter xs k) body n).1.mapNames f, (renameIn (r.enter xs k) body n).2) := by
  rw [← r.map_fst_enter xs k, ← r'.map_fst_enter ys k] at hform
  refine h body' _ _ n (hr.enter hfresh) hform (fun x hx hout => ?_) hsends
  obtain ⟨hxs, hout⟩ := Renaming.notMem_enter_iff.1 hout
  exact hfree x hx hxs hout

theorem renamedAlike_list {es es' : List (Expr Unit)} (h : ∀ e ∈ es, RenamedAlike f e)
    (hr : r.Parallel f r')
    (hform : namelessList (r.map (·.1)) es = namelessList (r'.map (·.1)) es')
    (hfree : ∀ x, (∃ e ∈ es, FreeIn x e) → x ∉ r.map (·.1) → f x = x)
    (hsends : Sends f (freshNames (spellingsList es) n) (freshNames (spellingsList es') n)) :
    renameListIn r' es' n = (mapNamesList f (renameListIn r es n).1, (renameListIn r es n).2) := by
  induction es generalizing es' n with
  | nil =>
    cases es' with
    | nil => rfl
    | cons e' es' => cases hform
  | cons e es ih =>
    cases es' with
    | nil => cases hform
    | cons e' es' =>
      obtain ⟨he, hes⟩ := List.forall_mem_cons.1 h
      obtain ⟨hhead, htail⟩ := List.cons.inj hform
      obtain ⟨hfirst, hnext⟩ := he.before hr hhead
        (fun x hx => hfree x ⟨e, List.mem_cons_self .., hx⟩) hsends
      have hrest := ih hes htail
        (fun x hx => hfree x (hx.imp fun d hd => ⟨List.mem_cons_of_mem e hd.1, hd.2⟩)) hnext
      simp only [renameListIn, hfirst, hrest, mapNamesList]

theorem renamedAlike_bindings {bs bs' : List (Name × Expr Unit)}
    (h : ∀ b ∈ bs, RenamedAlike f b.2) (hr : r.Parallel f r')
    (hform : namelessBindings (r.map (·.1)) bs = namelessBindings (r'.map (·.1)) bs')
    (hfree : ∀ x, (∃ b ∈ bs, FreeIn x b.2) → x ∉ r.map (·.1) → f x = x)
    (hsends : Sends f (freshNames (spellingsBindings bs) n)
      (freshNames (spellingsBindings bs') n)) :
    (renameBindingsIn r' bs' n).2 = (renameBindingsIn r bs n).2 ∧
      ∀ k, (freshNames (bs.map (·.1)) k).map f = freshNames (bs'.map (·.1)) k →
        freshBindings (renameBindingsIn r' bs' n).1 k =
          mapNamesBindings f (freshBindings (renameBindingsIn r bs n).1 k) := by
  induction bs generalizing bs' n with
  | nil =>
    cases bs' with
    | nil => exact ⟨rfl, fun _ _ => rfl⟩
    | cons b' bs' => cases hform
  | cons b bs ih =>
    cases bs' with
    | nil => cases hform
    | cons b' bs' =>
      obtain ⟨hb, hbs⟩ := List.forall_mem_cons.1 h
      obtain ⟨hhead, htail⟩ := List.cons.inj hform
      obtain ⟨hfirst, hnext⟩ := hb.before hr hhead
        (fun x hx => hfree x ⟨b, List.mem_cons_self .., hx⟩) hsends
      obtain ⟨hcounter, hrest⟩ := ih hbs htail
        (fun x hx => hfree x (hx.imp fun d hd => ⟨List.mem_cons_of_mem b hd.1, hd.2⟩)) hnext
      refine ⟨?_, fun k hk => ?_⟩
      · simp only [renameBindingsIn, hfirst, hcounter]
      · obtain ⟨hname, hnames⟩ := List.cons.inj hk
        simp only [renameBindingsIn, hfirst, freshBindings, mapNamesBindings, hname,
          hrest (k + 1) hnames]

theorem renamedAlike_members {ms ms' : List (Member Unit (Expr Unit))}
    (h : ∀ m ∈ ms, RenamedAlike f m.body) (hr : r.Parallel f r')
    (hform : namelessMembers (r.map (·.1)) ms = namelessMembers (r'.map (·.1)) ms')
    (hfree : ∀ x, (∃ m ∈ ms, FreeIn x m.body ∧ x ∉ m.params) → x ∉ r.map (·.1) → f x = x)
    (hsends : Sends f (freshNames (spellingsMembers ms) n) (freshNames (spellingsMembers ms') n)) :
    (renameMembersIn r' ms' n).2 = (renameMembersIn r ms n).2 ∧
      ∀ k, (freshNames (ms.map (·.name)) k).map f = freshNames (ms'.map (·.name)) k →
        freshMembers (renameMembersIn r' ms' n).1 k =
          mapNamesMembers f (freshMembers (renameMembersIn r ms n).1 k) := by
  induction ms generalizing ms' n with
  | nil =>
    cases ms' with
    | nil => exact ⟨rfl, fun _ _ => rfl⟩
    | cons m' ms' => cases hform
  | cons m ms ih =>
    cases ms' with
    | nil => cases hform
    | cons m' ms' =>
      obtain ⟨x, t, params, body⟩ := m
      obtain ⟨x', t', params', body'⟩ := m'
      obtain ⟨hm, hms⟩ := List.forall_mem_cons.1 h
      obtain ⟨hhead, htail⟩ := List.cons.inj hform
      obtain ⟨hlen, hhead⟩ := Prod.mk.inj hhead
      have hfirst := hsends.first
      have hfresh := Sends.freshNames hfirst.first hlen
      have hbody := hm.scoped hr hfresh hhead
        (fun y hy hparams => hfree y ⟨_, List.mem_cons_self .., hy, hparams⟩)
        (hfirst.next rfl (by rw [hlen]))
      have hnext := hsends.next (m := (renameIn (r.enter params n) body (n + params.length)).2)
        (by rw [drawsFor body, List.length_append, Nat.add_assoc])
        (by rw [← congrArg Prod.snd hbody, drawsFor body', List.length_append, hlen, Nat.add_assoc])
      obtain ⟨hcounter, hrest⟩ := ih hms htail
        (fun y hy => hfree y (hy.imp fun d hd => ⟨List.mem_cons_of_mem _ hd.1, hd.2⟩)) hnext
      refine ⟨?_, fun k hk => ?_⟩
      · simp only [renameMembersIn, ← hlen, hbody, hcounter]
      · obtain ⟨hname, hnames⟩ := List.cons.inj hk
        simp only [renameMembersIn, ← hlen, hbody, freshMembers, mapNamesMembers, hname, hfresh,
          hrest (k + 1) hnames]

theorem renamedAlike (e : Expr Unit) : RenamedAlike f e := by
  induction e with
  | lit v t =>
    intro e' r r' n hr hform hfree hsends
    cases e' with
    | lit v' t' =>
      cases hform
      rfl
    | _ => cases hform
  | var x t =>
    intro e' r r' n hr hform hfree hsends
    cases e' with
    | var y t' =>
      have href := Nameless.ref.inj hform
      simp only [renameIn, mapNames, hr.find href (hfree x (freeIn_var.2 rfl))]
    | _ => cases hform
  | cond test yes no t htest hyes hno =>
    intro e' r r' n hr hform hfree hsends
    cases e' with
    | cond test' yes' no' t' =>
      obtain ⟨hform₁, hform₂, hform₃⟩ := Nameless.cond.inj hform
      simp only [freeIn_cond] at hfree
      simp only [spellings, List.append_assoc] at hsends
      obtain ⟨hrenamed₁, hsends₂⟩ := htest.before hr hform₁ (fun x hx => hfree x (.inl hx)) hsends
      obtain ⟨hrenamed₂, hsends₃⟩ := hyes.before hr hform₂ (fun x hx => hfree x (.inr (.inl hx)))
        hsends₂
      have hrenamed₃ := hno no' r r' _ hr hform₃ (fun x hx => hfree x (.inr (.inr hx))) hsends₃
      simp only [renameIn, mapNames, hrenamed₁, hrenamed₂, hrenamed₃]
    | _ => cases hform
  | lambda params body t hbody =>
    intro e' r r' n hr hform hfree hsends
    cases e' with
    | lambda params' body' t' =>
      obtain ⟨hlen, hform⟩ := Nameless.lambda.inj hform
      have hfresh := Sends.freshNames hsends.first hlen
      have hrenamed := hbody.scoped hr hfresh hform
        (fun x hx hparams => hfree x (freeIn_lambda.2 ⟨hx, hparams⟩))
        (hsends.next rfl (by rw [hlen]))
      simp only [renameIn, mapNames, ← hlen, hrenamed, hfresh]
    | _ => cases hform
  | assign x value t hvalue =>
    intro e' r r' n hr hform hfree hsends
    cases e' with
    | assign y value' t' =>
      obtain ⟨href, hform⟩ := Nameless.assign.inj hform
      simp only [freeIn_assign] at hfree
      have hrenamed := hvalue value' r r' n hr hform (fun z hz => hfree z (.inr hz)) hsends
      simp only [renameIn, mapNames, hr.find href (hfree x (.inl rfl)), hrenamed]
    | _ => cases hform
  | app func args t hfunc hargs =>
    intro e' r r' n hr hform hfree hsends
    cases e' with
    | app func' args' t' =>
      obtain ⟨hform, hforms⟩ := Nameless.app.inj hform
      simp only [freeIn_app] at hfree
      obtain ⟨hrenamed, hnext⟩ := hfunc.before hr hform (fun x hx => hfree x (.inl hx)) hsends
      have hlist := renamedAlike_list hargs hr hforms (fun x hx => hfree x (.inr hx)) hnext
      simp only [renameIn, mapNames, hrenamed, hlist]
    | _ => cases hform
  | letIn bindings body t hbs hbody =>
    intro e' r r' n hr hform hfree hsends
    cases e' with
    | letIn bindings' body' t' =>
      obtain ⟨hforms, hform⟩ := Nameless.letIn.inj hform
      simp only [freeIn_letIn] at hfree
      simp only [spellings, List.append_assoc] at hsends
      have hlen := length_eq_of_namelessBindings hforms
      obtain ⟨hcounter, hinits⟩ := renamedAlike_bindings hbs hr hforms
        (fun x hx => hfree x (.inl hx)) hsends.first
      have hnames := hsends.next (drawsFor_bindings (fun b _ => drawsFor b.2) r n)
        (hcounter.symm.trans (drawsFor_bindings (fun b _ => drawsFor b.2) r' n))
      have hfresh := Sends.freshNames hnames.first hlen
      have hrenamed := hbody.scoped hr hfresh hform
        (fun x hx hout => hfree x (.inr ⟨hx, hout⟩)) (hnames.next rfl (by rw [hlen]))
      simp only [renameIn, mapNames, hcounter, ← hlen, hinits _ hfresh, hrenamed]
    | _ => cases hform
  | letrec bindings body t hbs hbody =>
    intro e' r r' n hr hform hfree hsends
    cases e' with
    | letrec bindings' body' t' =>
      obtain ⟨hforms, hform⟩ := Nameless.letrec.inj hform
      simp only [freeIn_letrec] at hfree
      simp only [spellings, List.append_assoc] at hsends
      have hlen := length_eq_of_namelessBindings hforms
      have hfresh := Sends.freshNames hsends.first hlen
      have hsends' := hsends.next rfl (by rw [hlen])
      rw [← r.map_fst_enter _ n, ← r'.map_fst_enter _ n] at hforms
      obtain ⟨hcounter, hinits⟩ := renamedAlike_bindings hbs (hr.enter hfresh) hforms
        (fun x hx hout => by
          obtain ⟨hnames, hout⟩ := Renaming.notMem_enter_iff.1 hout
          exact hfree x ⟨.inl hx, hnames⟩ hout)
        hsends'.first
      have hnext := hsends'.next (drawsFor_bindings (fun b _ => drawsFor b.2) _ _)
        (hcounter.symm.trans (drawsFor_bindings (fun b _ => drawsFor b.2) _ _))
      have hrenamed := hbody.scoped hr hfresh hform
        (fun x hx hnames => hfree x ⟨.inr hx, hnames⟩) hnext
      simp only [renameIn, mapNames, ← hlen, hcounter, hinits n hfresh, hrenamed]
    | _ => cases hform
  | fix members body t hms hbody =>
    intro e' r r' n hr hform hfree hsends
    cases e' with
    | fix members' body' t' =>
      obtain ⟨hforms, hform⟩ := Nameless.fix.inj hform
      simp only [freeIn_fix] at hfree
      simp only [spellings, List.append_assoc] at hsends
      have hlen := length_eq_of_namelessMembers hforms
      have hfresh := Sends.freshNames hsends.first hlen
      have hsends' := hsends.next rfl (by rw [hlen])
      rw [← r.map_fst_enter _ n, ← r'.map_fst_enter _ n] at hforms
      obtain ⟨hcounter, hprocs⟩ := renamedAlike_members hms (hr.enter hfresh) hforms
        (fun x hx hout => by
          obtain ⟨hnames, hout⟩ := Renaming.notMem_enter_iff.1 hout
          exact hfree x ⟨.inl hx, hnames⟩ hout)
        hsends'.first
      have hnext := hsends'.next (drawsFor_members (fun m _ => drawsFor m.body) _ _)
        (hcounter.symm.trans (drawsFor_members (fun m _ => drawsFor m.body) _ _))
      have hrenamed := hbody.scoped hr hfresh hform
        (fun x hx hnames => hfree x ⟨.inr hx, hnames⟩) hnext
      simp only [renameIn, mapNames, ← hlen, hcounter, hprocs n hfresh, hrenamed]
    | _ => cases hform
  | seq items t hitems =>
    intro e' r r' n hr hform hfree hsends
    cases e' with
    | seq items' t' =>
      have hlist := renamedAlike_list hitems hr (Nameless.seq.inj hform)
        (fun x hx => hfree x (freeIn_seq.2 hx)) hsends
      simp only [renameIn, mapNames, hlist]
    | _ => cases hform

/-! ### Depth -/

theorem exists_of_map_eq {β γ δ : Type} {g : β → δ} {g' : γ → δ} {xs : List β} {ys : List γ}
    (h : xs.map g = ys.map g') {x : β} (hx : x ∈ xs) : ∃ y ∈ ys, g x = g' y := by
  have hmem : g x ∈ ys.map g' := h ▸ List.mem_map_of_mem hx
  obtain ⟨y, hy, heq⟩ := List.mem_map.1 hmem
  exact ⟨y, hy, heq.symm⟩

/-- Below trees with the same nameless form stand trees with the same nameless form. -/
theorem exists_child_of_nameless {e e' c : Expr Unit} {scope scope' : List Name}
    (h : e.nameless scope = e'.nameless scope') (hc : c ∈ e.children) :
    ∃ c' ∈ e'.children, ∃ inner inner', c.nameless inner = c'.nameless inner' := by
  cases e with
  | lit v t => simp [children] at hc
  | var x t => simp [children] at hc
  | cond test yes no t =>
    cases e' with
    | cond test' yes' no' t' =>
      obtain ⟨h₁, h₂, h₃⟩ := Nameless.cond.inj h
      simp only [children, List.mem_cons, List.not_mem_nil, or_false] at hc
      rcases hc with rfl | rfl | rfl
      · exact ⟨test', by simp [children], _, _, h₁⟩
      · exact ⟨yes', by simp [children], _, _, h₂⟩
      · exact ⟨no', by simp [children], _, _, h₃⟩
    | _ => cases h
  | lambda params body t =>
    cases e' with
    | lambda params' body' t' =>
      obtain rfl := List.mem_singleton.1 hc
      exact ⟨body', List.mem_singleton_self _, _, _, (Nameless.lambda.inj h).2⟩
    | _ => cases h
  | assign x value t =>
    cases e' with
    | assign x' value' t' =>
      obtain rfl := List.mem_singleton.1 hc
      exact ⟨value', List.mem_singleton_self _, _, _, (Nameless.assign.inj h).2⟩
    | _ => cases h
  | app func args t =>
    cases e' with
    | app func' args' t' =>
      obtain ⟨hfunc, hargs⟩ := Nameless.app.inj h
      rw [namelessList_eq_map, namelessList_eq_map] at hargs
      rcases List.mem_cons.1 hc with rfl | hc
      · exact ⟨func', List.mem_cons_self .., _, _, hfunc⟩
      · obtain ⟨c', hc', heq⟩ := exists_of_map_eq hargs hc
        exact ⟨c', List.mem_cons_of_mem _ hc', _, _, heq⟩
    | _ => cases h
  | letIn bindings body t =>
    cases e' with
    | letIn bindings' body' t' =>
      obtain ⟨hinits, hbody⟩ := Nameless.letIn.inj h
      rw [namelessBindings_eq_map, namelessBindings_eq_map] at hinits
      simp only [children, List.mem_append, List.mem_map, List.mem_singleton] at hc
      rcases hc with ⟨b, hb, rfl⟩ | rfl
      · obtain ⟨b', hb', heq⟩ := exists_of_map_eq hinits hb
        exact ⟨b'.2, mem_children_of_letIn hb', _, _, heq⟩
      · exact ⟨body', body_mem_children_letIn _, _, _, hbody⟩
    | _ => cases h
  | letrec bindings body t =>
    cases e' with
    | letrec bindings' body' t' =>
      obtain ⟨hinits, hbody⟩ := Nameless.letrec.inj h
      rw [namelessBindings_eq_map, namelessBindings_eq_map] at hinits
      simp only [children, List.mem_append, List.mem_map, List.mem_singleton] at hc
      rcases hc with ⟨b, hb, rfl⟩ | rfl
      · obtain ⟨b', hb', heq⟩ := exists_of_map_eq hinits hb
        exact ⟨b'.2, mem_children_of_letrec hb', _, _, heq⟩
      · exact ⟨body', body_mem_children_letrec _, _, _, hbody⟩
    | _ => cases h
  | fix members body t =>
    cases e' with
    | fix members' body' t' =>
      obtain ⟨hprocs, hbody⟩ := Nameless.fix.inj h
      rw [namelessMembers_eq_map, namelessMembers_eq_map] at hprocs
      simp only [children, List.mem_append, List.mem_map, List.mem_singleton] at hc
      rcases hc with ⟨m, hm, rfl⟩ | rfl
      · obtain ⟨m', hm', heq⟩ := exists_of_map_eq hprocs hm
        exact ⟨m'.body, mem_children_of_fix hm', _, _, (Prod.mk.inj heq).2⟩
      · exact ⟨body', body_mem_children_fix _, _, _, hbody⟩
    | _ => cases h
  | seq items t =>
    cases e' with
    | seq items' t' =>
      have hitems := Nameless.seq.inj h
      rw [namelessList_eq_map, namelessList_eq_map] at hitems
      obtain ⟨c', hc', heq⟩ := exists_of_map_eq hitems hc
      exact ⟨c', hc', _, _, heq⟩
    | _ => cases h

theorem isCompound_of_nameless {e e' : Expr Unit} {scope scope' : List Name}
    (h : e.nameless scope = e'.nameless scope') (hcompound : e.isCompound = true) :
    e'.isCompound = true := by
  cases e' with
  | lit v' t' =>
    cases e with
    | lit v t => exact hcompound
    | _ => cases h
  | var x' t' =>
    cases e with
    | var x t => exact hcompound
    | _ => cases h
  | _ => rfl

theorem deeperThan_of_nameless {e e' : Expr Unit} {scope scope' : List Name} {limit : Nat}
    (h : e.nameless scope = e'.nameless scope') (hdeep : e.deeperThan limit = true) :
    e'.deeperThan limit = true := by
  induction limit generalizing e e' scope scope' with
  | zero => exact isCompound_of_nameless h hdeep
  | succ limit ih =>
    obtain ⟨c, hc, hdeep⟩ := deeperThan_succ_iff.1 hdeep
    obtain ⟨c', hc', _, _, hform⟩ := exists_child_of_nameless h hc
    exact deeperThan_succ_iff.2 ⟨c', hc', ih hform hdeep⟩

theorem deeperThan_eq_of_nameless {e e' : Expr Unit} {scope scope' : List Name}
    (h : e.nameless scope = e'.nameless scope') (limit : Nat) :
    e.deeperThan limit = e'.deeperThan limit :=
  Bool.eq_iff_iff.2 ⟨deeperThan_of_nameless h, deeperThan_of_nameless h.symm⟩

end Expr

/-! ### A change of names from one tree to the other -/

theorem nodup_zip {xs ys : List Name} (hxs : xs.Nodup) (hys : ys.Nodup) :
    ((xs.zip ys).map (·.1)).Nodup ∧ ((xs.zip ys).map (·.2)).Nodup := by
  induction xs generalizing ys with
  | nil => exact ⟨List.nodup_nil, List.nodup_nil⟩
  | cons x xs ih =>
    cases ys with
    | nil => exact ⟨List.nodup_nil, List.nodup_nil⟩
    | cons y ys =>
      obtain ⟨hx, hxs⟩ := List.nodup_cons.1 hxs
      obtain ⟨hy, hys⟩ := List.nodup_cons.1 hys
      obtain ⟨hfst, hsnd⟩ := ih hxs hys
      refine ⟨List.nodup_cons.2 ⟨fun hmem => ?_, hfst⟩, List.nodup_cons.2 ⟨fun hmem => ?_, hsnd⟩⟩
      · obtain ⟨p, hp, rfl⟩ := List.mem_map.1 hmem
        exact hx (List.of_mem_zip hp).1
      · obtain ⟨p, hp, rfl⟩ := List.mem_map.1 hmem
        exact hy (List.of_mem_zip hp).2

theorem nodup_names_append_freshNames (xs : List Name) :
    (Primitive.names ++ freshNames xs 0).Nodup := by
  have hnew : NewNames [] (freshNames xs 0) := newNames_freshNames (fun _ hx => by cases hx) xs
  refine List.nodup_append'.2 ⟨by decide, hnew.nodup, fun x hprim hmem => ?_⟩
  obtain ⟨p, _, rfl⟩ := List.mem_map.1 hprim
  exact hnew.prim_notMem p hmem

theorem exists_sends (xs ys : List Name) :
    ∃ σ : Respelling, Sends σ (freshNames xs 0) (freshNames ys 0) := by
  -- the primitives stand in front on both sides, so each is paired with itself
  obtain ⟨hfst, hsnd⟩ :=
    nodup_zip (nodup_names_append_freshNames xs) (nodup_names_append_freshNames ys)
  obtain ⟨π, hπ⟩ := exists_perm_of_pairs hfst hsnd
  rw [List.zip_append rfl] at hπ
  obtain ⟨hprims, hsends⟩ := List.forall_mem_append.1 hπ
  have hfixes : ∀ p : Primitive, π p.name = p.name := by
    intro p
    exact hprims (p.name, p.name) (by cases p <;> decide)
  exact ⟨⟨π, π.injective, hfixes⟩, hsends⟩

namespace Expr

/-- Trees with the same nameless form are renamed to trees that differ by a change of names. -/
theorem exists_respelling {e e' : Expr Unit} (h : e.nameless [] = e'.nameless [])
    (hclosed : ∀ x ∈ e.free [], x ∈ Primitive.names) :
    ∃ σ : Respelling, e'.rename = e.rename.mapNames σ := by
  obtain ⟨σ, hsends⟩ := exists_sends e.spellings e'.spellings
  have hfixed : ∀ x, FreeIn x e → x ∉ ([] : List Name) → σ x = x := by
    intro x hx _
    obtain ⟨p, _, rfl⟩ := List.mem_map.1 (hclosed x (mem_free.2 hx))
    exact σ.fixes p
  have hrenamed := renamedAlike e e' [] [] 0 .nil h hfixed hsends
  exact ⟨σ, congrArg Prod.fst hrenamed⟩

/-! ### Compilation -/

theorem analyse_mapNames (σ : Respelling) (options : CompileOptions) (e : Expr Nat) :
    (e.mapNames σ).analyse options = e.analyse options := by
  have hescaping (types : TypeTable) : (e.mapNames σ).escaping types = e.escaping types := by
    rw [escaping, escapingIn_mapNames, escaping]
  simp only [analyse, inferLogged, ofExpr_mapNames, hescaping]

/-- After renaming, a change of names shows in the tree of a compilation and nowhere else. -/
theorem compile_mapNames (σ : Respelling) {e e' : Expr Unit} (options : CompileOptions)
    (hdepth : e'.deeperThan maxDepth = e.deeperThan maxDepth)
    (hrename : e'.rename = e.rename.mapNames σ) :
    Results.Maps (fun c : Compilation => { c with expr := c.expr.mapNames σ })
      (e.compile options) (e'.compile options) := by
  have hrecover : (if options.recoverLet then e'.rename.recoverLet else e'.rename) =
      (if options.recoverLet then e.rename.recoverLet else e.rename).mapNames σ := by
    rw [hrename, recoverLet_mapNames]
    split <;> rfl
  unfold compile compileLogged
  rw [hdepth]
  split
  · exact .error _ _
  · have hemit (w : LogMessage) (k : Unit → Except Error Compilation) :
        ((Emit.emit w : Logged Unit).result >>= k) = k () := rfl
    simp only [Emit.result_bind, hemit, hrecover]
    refine (fixedAlike σ _).result.bind fun fixed => ?_
    have hcalls : (fixed.tagged.mapNames σ).tailCalls = fixed.tagged.tailCalls :=
      tailCallsIn_mapNames σ none fixed.tagged
    rw [tagged_mapNames, analyse_mapNames, hcalls]
    refine (Results.Maps.refl _).bind fun (ty, types, escaping) => ?_
    refine (assemble_mapNames σ fixed.tagged.tailCalls fixed.tagged).bind fun assembly => ?_
    exact (Results.Maps.refl _).bind fun program => .ok _

/-- Trees with the same nameless form, whose free names are those of primitives, compile alike. -/
theorem compile_eq_of_nameless_eq {e₁ e₂ : Expr Unit} (hform : e₁.nameless [] = e₂.nameless [])
    (hclosed : ∀ x ∈ e₁.free [], x ∈ Primitive.names) (options : CompileOptions) :
    ((∃ c₁, e₁.compile options = .ok c₁) ↔ ∃ c₂, e₂.compile options = .ok c₂) ∧
      ∀ c₁ c₂, e₁.compile options = .ok c₁ → e₂.compile options = .ok c₂ →
        c₁.program = c₂.program ∧ c₁.ty = c₂.ty ∧ c₁.types = c₂.types ∧
          c₁.tailCalls = c₂.tailCalls ∧ c₁.escaping = c₂.escaping := by
  obtain ⟨σ, hrename⟩ := exists_respelling hform hclosed
  have hmaps := compile_mapNames σ options (deeperThan_eq_of_nameless hform maxDepth).symm hrename
  generalize e₁.compile options = r₁ at hmaps ⊢
  generalize e₂.compile options = r₂ at hmaps ⊢
  cases hmaps with
  | ok c =>
    refine ⟨⟨fun _ => ⟨_, rfl⟩, fun _ => ⟨c, rfl⟩⟩, fun c₁ c₂ hc₁ hc₂ => ?_⟩
    cases hc₁
    cases hc₂
    exact ⟨rfl, rfl, rfl, rfl, rfl⟩
  | error err err' =>
    constructor
    · constructor
      · intro ⟨c₁, hc₁⟩
        cases hc₁
      · intro ⟨c₂, hc₂⟩
        cases hc₂
    · intro c₁ c₂ hc₁
      cases hc₁

/-- Spells three of its binders alike, two of them in one list. -/
def spelledAlike : Expr Unit :=
  .letIn [("f", .lambda ["x", "x"] (.app (.var "-" ()) [.var "x" (), .lit (.int 1) ()] ()) ())]
    (.letIn [("x", .lit (.int 4) ())]
      (.app (.var "f" ()) [.lit (.int 3) (), .app (.var "*" ()) [.var "x" (), .var "x" ()] ()] ())
      ()) ()

/-- Spells two of the same binders like a primitive, and the others apart. -/
def spelledApart : Expr Unit :=
  .letIn [("+", .lambda ["+", "x"] (.app (.var "-" ()) [.var "x" (), .lit (.int 1) ()] ()) ())]
    (.letIn [("y", .lit (.int 4) ())]
      (.app (.var "+" ()) [.lit (.int 3) (), .app (.var "*" ()) [.var "y" (), .var "y" ()] ()] ())
      ()) ()

theorem compile_spelledAlike_eq : ∃ c₁ c₂, spelledAlike.nameless [] = spelledApart.nameless [] ∧
    (∀ x ∈ spelledAlike.free [], x ∈ Primitive.names) ∧ spelledAlike.compile .all = .ok c₁ ∧
    spelledApart.compile .all = .ok c₂ ∧ c₁.program = c₂.program ∧ c₁.ty = c₂.ty ∧
    c₁.types = c₂.types ∧ c₁.tailCalls = c₂.tailCalls ∧ c₁.escaping = c₂.escaping := by
  have hform : spelledAlike.nameless [] = spelledApart.nameless [] := by rfl
  have hclosed : ∀ x ∈ spelledAlike.free [], x ∈ Primitive.names := by decide
  have hsolved : (spelledAlike.compile ⟨true, false⟩ >>= fun c =>
      (TypingProblem.ofExpr c.expr).map fun p =>
        decide (Solves (fun _ => .int) p.judgement.constraints)) = .ok true := by
    decide +kernel
  obtain ⟨_, c₁, _, hc₁, _⟩ := compile_of_solves hsolved
  obtain ⟨hiff, heq⟩ := compile_eq_of_nameless_eq hform hclosed .all
  obtain ⟨c₂, hc₂⟩ := hiff.1 ⟨c₁, hc₁⟩
  exact ⟨c₁, c₂, hform, hclosed, hc₁, hc₂, heq c₁ c₂ hc₁ hc₂⟩

end Expr

end MiniScheme
