import MiniScheme.Code.Generate
import MiniScheme.Proofs.Resolution
import MiniScheme.Proofs.Trees

/-!
# Defined labels

Generated code names only labels whose blocks are generated with it, so it can always be linked.
-/

namespace MiniScheme

namespace Code

variable {keys : List Label} {code code' : Code}

/-- All labels of the code are in the list. -/
def Names (keys : List Label) (code : Code) : Prop :=
  ∀ l ∈ labels code, l ∈ keys

theorem labels_append : labels (code ++ code') = labels code ++ labels code' :=
  List.filterMap_append

theorem names_append_iff : Names keys (code ++ code') ↔ Names keys code ∧ Names keys code' := by
  simp only [Names, labels_append, List.forall_mem_append]

theorem names_cons_iff {i : Inst Label} :
    Names keys (i :: code) ↔ (∀ l, i.address? = some l → l ∈ keys) ∧ Names keys code := by
  unfold Names labels
  cases h : i.address? with
  | none => simp [List.filterMap_cons_none h]
  | some l => simp [List.filterMap_cons_some h]

theorem names_nil : Names keys [] :=
  nofun

theorem names_leave (ctx : Context) : Names keys ctx.leave := by
  cases ctx <;> exact nofun

theorem names_drop (ctx : Context) (n : Nat) : Names keys (ctx.drop n) := by
  cases ctx with
  | value => cases n <;> exact nofun
  | tail cells => exact nofun

end Code

open Code Emit

theorem Assembly.exists_link {a : Assembly} (h : Names (a.blocks.map (·.1)) a.flatten) :
    ∃ p, a.link = .ok p :=
  ⟨_, link_of_defined (undefined?_eq_none_iff.2 h)⟩

/-! ### Emitted blocks -/

namespace Emit

variable {α β : Type} {keys : List Label}

/-- If the computation succeeds and `keys` covers the labels of its blocks, then `keys` also
covers the labels that its blocks refer to, and the result is as stated. -/
def Resolves (x : Gen α) (keys : List Label) (Q : α → Prop) : Prop :=
  ∀ a, x.result = .ok a → (∀ b ∈ x.emitted, b.1 ∈ keys) →
    (∀ b ∈ x.emitted, Names keys b.2) ∧ Q a

theorem Resolves.pure {Q : α → Prop} {a : α} (h : Q a) :
    Resolves (Pure.pure a : Gen α) keys Q := by
  intro a' ha' _
  rw [result_pure, Except.ok.injEq] at ha'
  exact ⟨nofun, ha' ▸ h⟩

theorem Resolves.lift {Q : α → Prop} {r : Except Error α} (h : ∀ a, r = .ok a → Q a) :
    Resolves (Emit.lift r : Gen α) keys Q :=
  fun a ha _ => ⟨nofun, h a ha⟩

theorem Resolves.fail {Q : α → Prop} (err : Error) :
    Resolves (Emit.fail err : Gen α) keys Q :=
  nofun

theorem Resolves.emit {l : Label} {code : Code} (h : Names keys code) :
    Resolves (Emit.emit (l, code)) keys fun _ => l ∈ keys := by
  intro _ _ hkeys
  refine ⟨fun b hb => ?_, hkeys (l, code) (List.mem_singleton_self _)⟩
  rw [List.mem_singleton.1 hb]
  exact h

theorem Resolves.bind {x : Gen α} {g : α → Gen β} {P : α → Prop} {Q : β → Prop}
    (hx : x.Resolves keys P) (hg : ∀ a, P a → (g a).Resolves keys Q) :
    (x >>= g).Resolves keys Q := by
  intro b hb hkeys
  obtain ⟨a, ha, hb⟩ := (result_bind_eq_ok_iff x g b).1 hb
  rw [emitted_bind_of_ok ha, List.forall_mem_append] at hkeys ⊢
  obtain ⟨hxblocks, hP⟩ := hx a ha hkeys.1
  obtain ⟨hgblocks, hQ⟩ := hg a hP b hb hkeys.2
  exact ⟨⟨hxblocks, hgblocks⟩, hQ⟩

end Emit

/-! ### Generated code -/

variable {keys : List Label}

theorem Frame.reference_address {f : Frame} {x : Name} {i : Inst Label}
    (h : f.reference x = .ok i) {l : Label} (hl : i.address? = some l) :
    l ∈ f.group.map (·.2) := by
  unfold reference at h
  split at h
  · injection h with h; subst h; cases hl
  · split at h
    · injection h with h; subst h; cases hl
    · split at h
      · injection h with h; subst h; cases hl
      · split at h
        · injection h with h; subst h; cases hl
        · split at h
          · rename_i l' hlookup
            injection h with h
            subst h
            injection hl with hl
            subst hl
            obtain ⟨before, after, hgroup, _⟩ := List.lookup_eq_some_iff.1 hlookup
            simp [hgroup]
          · cases h

namespace Frame

variable {f : Frame}

theorem names_pushNames (hgroup : ∀ l ∈ f.group.map (·.2), l ∈ keys) {xs : List Name}
    {code : Code} (h : f.pushNames xs = .ok code) : Names keys code := by
  induction xs generalizing code with
  | nil =>
    simp only [pushNames, Except.ok.injEq] at h
    exact h ▸ names_nil
  | cons x xs ih =>
    simp only [pushNames, Results.bind_eq_ok_iff, Except.pure, pure, Except.ok.injEq] at h
    obtain ⟨i, hi, rest, hrest, rfl⟩ := h
    refine names_cons_iff.2 ⟨fun l hl => hgroup l (reference_address hi hl), ?_⟩
    exact names_cons_iff.2 ⟨nofun, ih hrest⟩

theorem names_closeMembers (hgroup : ∀ l ∈ f.group.map (·.2), l ∈ keys) {captured : List Name}
    {ms : List (Name × Label)} (hms : ∀ m ∈ ms, m.2 ∈ keys) {code : Code} {f' : Frame}
    (h : f.closeMembers captured ms = .ok (code, f')) :
    Names keys code ∧ f'.group = f.group := by
  induction ms generalizing f code with
  | nil =>
    simp only [closeMembers, Except.ok.injEq, Prod.mk.injEq] at h
    obtain ⟨rfl, rfl⟩ := h
    exact ⟨names_nil, rfl⟩
  | cons m ms ih =>
    obtain ⟨x, l⟩ := m
    obtain ⟨hl, hms⟩ := List.forall_mem_cons.1 hms
    simp only [closeMembers, Results.bind_eq_ok_iff, Except.pure, pure, Except.ok.injEq,
      Prod.exists, Prod.mk.injEq] at h
    obtain ⟨values, hvalues, rest, f₁, hrest, rfl, rfl⟩ := h
    obtain ⟨hnames, hsame⟩ := ih (f := f.bind x) hgroup hms hrest
    refine ⟨?_, hsame⟩
    have hclose : Names keys [.close captured.length l, .push] :=
      names_cons_iff.2 ⟨fun l' hl' => Option.some.inj hl' ▸ hl, nofun⟩
    simp only [names_append_iff, names_pushNames hgroup hvalues, hclose, hnames, and_self]

end Frame

namespace Expr

variable {calls : List TailCall}

/-- The code of a tree names labels of its own blocks and of the group it stands in. -/
def NamesDefined (e : Expr Nat) : Prop :=
  ∀ (calls : List TailCall) (f : Frame) (ctx : Context) (keys : List Label),
    (∀ l ∈ f.group.map (·.2), l ∈ keys) → (gen calls f ctx e).Resolves keys (Names keys)

theorem namesDefined_args {es : List (Expr Nat)} (h : ∀ e ∈ es, NamesDefined e) {f : Frame}
    (hgroup : ∀ l ∈ f.group.map (·.2), l ∈ keys) :
    (genArgs calls f es).Resolves keys (Names keys) := by
  induction es with
  | nil => exact .pure names_nil
  | cons e es ih =>
    obtain ⟨he, hes⟩ := List.forall_mem_cons.1 h
    rw [genArgs]
    refine .bind (ih hes) fun rest hrest => .bind (he _ _ _ _ hgroup) fun first hfirst => .pure ?_
    exact names_append_iff.2 ⟨names_append_iff.2 ⟨hrest, hfirst⟩, nofun⟩

theorem namesDefined_bindings {bs : List (Name × Expr Nat)} (h : ∀ b ∈ bs, NamesDefined b.2)
    {f : Frame} (hgroup : ∀ l ∈ f.group.map (·.2), l ∈ keys) :
    (genBindings calls f bs).Resolves keys fun r => Names keys r.1 ∧ r.2.group = f.group := by
  induction bs generalizing f with
  | nil => exact .pure ⟨names_nil, rfl⟩
  | cons b bs ih =>
    obtain ⟨x, e⟩ := b
    obtain ⟨he, hbs⟩ := List.forall_mem_cons.1 h
    rw [genBindings]
    refine .bind (he _ _ _ _ hgroup) fun first hfirst =>
      .bind (ih hbs (f := f.bind x) hgroup) fun r hr => .pure ⟨?_, hr.2⟩
    exact names_append_iff.2 ⟨names_append_iff.2 ⟨hfirst, nofun⟩, hr.1⟩

/-- The members of a group are compiled where all their labels are defined. -/
theorem namesDefined_members {ms : List (Member Nat (Expr Nat))}
    (h : ∀ m ∈ ms, NamesDefined m.body) (captured : List Name) {group : List (Name × Label)}
    (hgroup : ∀ l ∈ group.map (·.2), l ∈ keys) :
    (genMembers calls captured group ms).Resolves keys fun _ => True := by
  induction ms with
  | nil => exact .pure trivial
  | cons m ms ih =>
    obtain ⟨x, t, params, body⟩ := m
    obtain ⟨hm, hms⟩ := List.forall_mem_cons.1 h
    rw [genMembers]
    exact .bind (hm _ _ _ _ hgroup) fun code hcode => .bind (.emit hcode) fun _ _ => ih hms

theorem mem_emitted_of_genMembers {ms : List (Member Nat (Expr Nat))} {captured : List Name}
    {group : List (Name × Label)} {u : Unit}
    (h : (genMembers calls captured group ms).result = .ok u) :
    ∀ m ∈ ms, ⟨m.tag⟩ ∈ (genMembers calls captured group ms).emitted.map (·.1) := by
  induction ms with
  | nil => exact nofun
  | cons m ms ih =>
    obtain ⟨x, t, params, body⟩ := m
    simp only [genMembers] at h ⊢
    obtain ⟨code, hcode, h⟩ := (result_bind_eq_ok_iff ..).1 h
    obtain ⟨_, hemit, h⟩ := (result_bind_eq_ok_iff ..).1 h
    rw [emitted_bind_of_ok hcode, emitted_bind_of_ok hemit]
    intro m' hm'
    rw [List.map_append, List.mem_append, List.map_append, List.mem_append]
    rcases List.mem_cons.1 hm' with rfl | hm'
    · exact .inr (.inl (List.mem_singleton_self _))
    · exact .inr (.inr (ih h m' hm'))

theorem namesDefined_seq {es : List (Expr Nat)} (h : ∀ e ∈ es, NamesDefined e) {f : Frame}
    {ctx : Context} (hgroup : ∀ l ∈ f.group.map (·.2), l ∈ keys) :
    (genSeq calls f ctx es).Resolves keys (Names keys) := by
  induction es with
  | nil => exact .fail _
  | cons e es ih =>
    obtain ⟨he, hes⟩ := List.forall_mem_cons.1 h
    cases es with
    | nil => exact he _ _ _ _ hgroup
    | cons e' es =>
      rw [genSeq]
      refine .bind (he _ _ _ _ hgroup) fun first hfirst => .bind (ih hes) fun rest hrest => .pure ?_
      exact names_append_iff.2 ⟨hfirst, hrest⟩

theorem namesDefined (e : Expr Nat) : NamesDefined e := by
  induction e with
  | lit v t => exact fun calls f ctx keys _ => .pure (names_cons_iff.2 ⟨nofun, names_leave ctx⟩)
  | var x t =>
    intro calls f ctx keys hgroup
    rw [gen]
    refine .bind (.lift fun i hi => hi) fun i hi => .pure ?_
    refine names_cons_iff.2 ⟨fun l hl => ?_, names_leave ctx⟩
    exact hgroup l (Frame.reference_address hi hl)
  | cond test yes no t htest hyes hno =>
    intro calls f ctx keys hgroup
    rw [gen]
    refine .bind (htest _ _ _ _ hgroup) fun ct hct => .bind (hyes _ _ _ _ hgroup) fun cy hcy =>
      .bind (hno _ _ _ _ hgroup) fun cn hcn => ?_
    have hbranch (n : Nat) : Names keys [.test n] := nofun
    have hjump (n : Nat) : Names keys [.jump n] := nofun
    cases ctx with
    | value =>
      exact .pure (by simp only [names_append_iff, hct, hcy, hcn, hbranch, hjump, and_self])
    | tail cells => exact .pure (by simp only [names_append_iff, hct, hcy, hcn, hbranch, and_self])
  | lambda params body t hbody =>
    intro calls f ctx keys hgroup
    rw [gen]
    refine .bind (.lift fun values hvalues => Frame.names_pushNames hgroup hvalues)
      fun values hvalues => .bind (hbody _ _ _ _ nofun) fun code hcode =>
      .bind (.emit hcode) fun _ hl => .pure ?_
    have hclose (n : Nat) : Names keys [.close n ⟨t⟩] :=
      names_cons_iff.2 ⟨fun l hl' => Option.some.inj hl' ▸ hl, nofun⟩
    simp only [names_append_iff, hvalues, hclose, names_leave, and_self]
  | assign x value t hvalue => exact fun _ _ _ _ _ => .fail _
  | app func args t hfunc hargs =>
    intro calls f ctx keys hgroup
    rw [gen]
    split
    · refine .bind (namesDefined_args hargs hgroup) fun pushed hpushed =>
        .bind (hfunc _ _ _ _ hgroup) fun cf hcf => .pure ?_
      exact names_append_iff.2 ⟨names_append_iff.2 ⟨hpushed, hcf⟩, nofun⟩
    · refine .bind (namesDefined_args hargs hgroup) fun pushed hpushed =>
        .bind (hfunc _ _ _ _ hgroup) fun cf hcf => .pure ?_
      have hframe (n : Nat) : Names keys [.frame n] := nofun
      have happly : Names keys [.apply] := nofun
      simp only [names_append_iff, hpushed, hcf, hframe, happly, names_leave, and_self]
  | letIn bindings body t hbindings hbody =>
    intro calls f ctx keys hgroup
    rw [gen]
    refine .bind (namesDefined_bindings hbindings hgroup) fun r hr =>
      .bind (hbody _ _ _ _ (hr.2 ▸ hgroup)) fun cb hcb => .pure ?_
    simp only [names_append_iff, hr.1, hcb, names_drop, and_self]
  | letrec bindings body t hbindings hbody => exact fun _ _ _ _ _ => .fail _
  | fix members body t hmembers hbody =>
    intro calls f ctx keys hgroup
    rw [gen]
    -- the labels of the group are defined because all its members have been compiled
    have hproc : (genMembers calls (freeMembers (members.map (·.name) ++ Primitive.names) members)
        (groupLabels members).reverse members).Resolves keys fun _ =>
          ∀ m ∈ groupLabels members, m.2 ∈ keys := by
      intro u hu hkeys
      have hlabels : ∀ m ∈ groupLabels members, m.2 ∈ keys := by
        intro m hm
        obtain ⟨m', hm', rfl⟩ := List.mem_map.1 hm
        obtain ⟨b, hb, heq⟩ := List.mem_map.1 (mem_emitted_of_genMembers hu m' hm')
        exact heq ▸ hkeys b hb
      have hreverse : ∀ l ∈ (groupLabels members).reverse.map (·.2), l ∈ keys := by
        intro l hl
        obtain ⟨m, hm, rfl⟩ := List.mem_map.1 hl
        exact hlabels m (List.mem_reverse.1 hm)
      exact ⟨(namesDefined_members hmembers _ hreverse u hu hkeys).1, hlabels⟩
    refine .bind hproc fun _ hlabels =>
      .bind (.lift fun _ hr => Frame.names_closeMembers hgroup hlabels hr) fun r hr =>
      .bind (hbody _ _ _ _ (hr.2 ▸ hgroup)) fun cb hcb => .pure ?_
    simp only [names_append_iff, hr.1, hcb, names_drop, and_self]
  | seq items t hitems =>
    intro calls f ctx keys hgroup
    rw [gen]
    exact namesDefined_seq hitems hgroup

end Expr

/-! ### Assembled code -/

namespace Table

variable {κ ν : Type} [DecidableEq κ]

theorem mem_of_mem_insert {t : Table κ ν} {k : κ} {v : ν} {p : κ × ν} (h : p ∈ t.insert k v) :
    p ∈ t ∨ p = (k, v) := by
  induction t with
  | nil => exact .inr (List.mem_singleton.1 h)
  | cons q t ih =>
    obtain ⟨k', v'⟩ := q
    simp only [insert] at h
    split at h
    · rcases List.mem_cons.1 h with rfl | h
      · exact .inr rfl
      · exact .inl (List.mem_cons_of_mem _ h)
    · rcases List.mem_cons.1 h with rfl | h
      · exact .inl (List.mem_cons_self ..)
      · rcases ih h with h | h
        · exact .inl (List.mem_cons_of_mem _ h)
        · exact .inr h

theorem mem_keys_insert {t : Table κ ν} {k k' : κ} {v : ν} :
    k' ∈ (t.insert k v).map (·.1) ↔ k' ∈ t.map (·.1) ∨ k' = k := by
  induction t with
  | nil => simp [insert]
  | cons q t ih =>
    obtain ⟨k₀, v₀⟩ := q
    by_cases h : k₀ = k
    · subst h
      simp only [insert, if_true, List.map_cons, List.mem_cons]
      grind
    · simp only [insert, if_neg h, List.map_cons, List.mem_cons, ih, or_assoc]

theorem mem_of_mem_ofPairs {pairs : List (κ × ν)} {p : κ × ν} (h : p ∈ ofPairs pairs) :
    p ∈ pairs := by
  have hfold : ∀ (ps : List (κ × ν)) (t : Table κ ν),
      p ∈ ps.foldl (fun t p => Table.insert t p.1 p.2) t → p ∈ t ∨ p ∈ ps := by
    intro ps
    induction ps with
    | nil => exact fun t h => .inl h
    | cons q ps ih =>
      intro t h
      rcases ih _ h with h | h
      · rcases mem_of_mem_insert h with h | rfl
        · exact .inl h
        · exact .inr (List.mem_cons_self ..)
      · exact .inr (List.mem_cons_of_mem _ h)
  rcases hfold pairs [] h with h | h
  · cases h
  · exact h

theorem mem_keys_ofPairs {pairs : List (κ × ν)} {k : κ} :
    k ∈ (ofPairs pairs).map (·.1) ↔ k ∈ pairs.map (·.1) := by
  have hfold : ∀ (ps : List (κ × ν)) (t : Table κ ν),
      k ∈ (ps.foldl (fun t p => Table.insert t p.1 p.2) t).map (·.1) ↔
        k ∈ t.map (·.1) ∨ k ∈ ps.map (·.1) := by
    intro ps
    induction ps with
    | nil => intro t; simp
    | cons q ps ih =>
      intro t
      rw [List.foldl_cons, ih, mem_keys_insert, List.map_cons, List.mem_cons, or_assoc]
  rw [ofPairs, hfold, List.map_nil]
  simp only [List.not_mem_nil, false_or]

end Table

/-- Generated code names no label without a block. -/
theorem Expr.names_of_assemble {calls : List TailCall} {e : Expr Nat} {a : Assembly}
    (h : e.assemble calls = .ok a) : Names (a.blocks.map (·.1)) a.flatten := by
  obtain ⟨main, hmain, rfl⟩ := Results.map_eq_ok_iff.1 h
  have hresolves : (e.genMain calls).Resolves ((e.genMain calls).emitted.map (·.1))
      (Names ((e.genMain calls).emitted.map (·.1))) :=
    .bind (namesDefined e calls .main .value _ nofun) fun code hcode =>
      .pure (names_append_iff.2 ⟨hcode, nofun⟩)
  obtain ⟨hblocks, hcode⟩ := hresolves main hmain fun b hb => List.mem_map_of_mem hb
  intro l hl
  rw [Table.mem_keys_ofPairs]
  rw [Assembly.flatten, Code.labels_append, List.mem_append] at hl
  rcases hl with hl | hl
  · exact hcode l hl
  · obtain ⟨i, hi, hil⟩ := List.mem_filterMap.1 hl
    obtain ⟨b, hb, hib⟩ := List.mem_flatMap.1 hi
    exact hblocks b (Table.mem_of_mem_ofPairs hb) l (List.mem_filterMap.2 ⟨i, hib, hil⟩)

theorem Expr.exists_link_of_assemble {calls : List TailCall} {e : Expr Nat} {a : Assembly}
    (h : e.assemble calls = .ok a) : ∃ p, a.link = .ok p :=
  Assembly.exists_link (names_of_assemble h)

end MiniScheme
