import MiniScheme.Code.Generate
import MiniScheme.Proofs.Execution
import MiniScheme.Proofs.Tagging

/-!
# Blocks in memory

Every block that code generation emits has a label of its own, so no block replaces another one,
and after linking each block stands complete at the address of its label.
-/

namespace MiniScheme

/-! ### Emitted labels -/

namespace Emit

variable {ε α β : Type}

/-- How often a computation emits a block with a label. -/
def labelCount (x : Emit (Label × Code) ε α) (t : Nat) : Nat :=
  (x.emitted.map (·.1.index)).count t

/-- The computation emits blocks with labels from the list, each at most as often as it is
listed. -/
def EmitsWithin (x : Emit (Label × Code) ε α) (ts : List Nat) : Prop :=
  ∀ t, x.labelCount t ≤ ts.count t

theorem EmitsWithin.pure (a : α) : EmitsWithin (Pure.pure a : Emit (Label × Code) ε α) [] :=
  fun _ => Nat.le_refl 0

theorem EmitsWithin.lift (r : Except ε α) : EmitsWithin (Emit.lift r) [] :=
  fun _ => Nat.le_refl 0

theorem EmitsWithin.fail (e : ε) : EmitsWithin (Emit.fail e : Emit (Label × Code) ε α) [] :=
  fun _ => Nat.le_refl 0

theorem EmitsWithin.emit (l : Label) (code : Code) :
    EmitsWithin (Emit.emit (l, code) : Emit (Label × Code) ε Unit) [l.index] :=
  fun _ => Nat.le_refl _

theorem EmitsWithin.bind {x : Emit (Label × Code) ε α} {f : α → Emit (Label × Code) ε β}
    {ts us : List Nat} (hx : x.EmitsWithin ts) (hf : ∀ a, (f a).EmitsWithin us) :
    (x >>= f).EmitsWithin (ts ++ us) := by
  intro t
  have hxt := hx t
  rw [List.count_append]
  show ((andThen x f).emitted.map (·.1.index)).count t ≤ _
  unfold andThen
  cases x.result with
  | error e => exact Nat.le_trans hxt (Nat.le_add_right _ _)
  | ok a =>
    have hft := hf a t
    simp only [labelCount] at hxt hft
    simp only [List.map_append, List.count_append]
    omega

theorem EmitsWithin.mono {x : Emit (Label × Code) ε α} {ts us : List Nat}
    (hx : x.EmitsWithin ts) (h : ∀ t, ts.count t ≤ us.count t) : x.EmitsWithin us :=
  fun t => Nat.le_trans (hx t) (h t)

end Emit

namespace Expr

open Emit

/-- The blocks of a tree are labelled with numbers of the tree. -/
def LabelsInside (e : Expr Nat) : Prop :=
  ∀ calls f ctx, (gen calls f ctx e).EmitsWithin e.tags

variable {calls : List TailCall}

theorem labelsInside_args {es : List (Expr Nat)} (h : ∀ e ∈ es, LabelsInside e) (f : Frame) :
    (genArgs calls f es).EmitsWithin (tagsList es) := by
  induction es with
  | nil => exact .pure _
  | cons e es ih =>
    obtain ⟨he, hes⟩ := List.forall_mem_cons.1 h
    rw [genArgs]
    refine EmitsWithin.mono (.bind (ih hes) fun rest => .bind (he _ _ _) fun first => .pure _) ?_
    intro t
    simp only [tagsList, List.count_append, List.count_nil]
    omega

theorem labelsInside_bindings {bs : List (Name × Expr Nat)} (h : ∀ b ∈ bs, LabelsInside b.2)
    (f : Frame) : (genBindings calls f bs).EmitsWithin (tagsBindings bs) := by
  induction bs generalizing f with
  | nil => exact .pure _
  | cons b bs ih =>
    obtain ⟨x, e⟩ := b
    obtain ⟨he, hbs⟩ := List.forall_mem_cons.1 h
    rw [genBindings]
    refine EmitsWithin.mono (.bind (he _ _ _) fun first => .bind (ih hbs _) fun r => .pure _) ?_
    intro t
    simp only [tagsBindings, List.count_append, List.count_nil]
    omega

theorem labelsInside_members {ms : List (Member Nat (Expr Nat))}
    (h : ∀ m ∈ ms, LabelsInside m.body) (captured : List Name) (group : List (Name × Label)) :
    (genMembers calls captured group ms).EmitsWithin (ms.map (·.tag) ++ tagsMembers ms) := by
  induction ms with
  | nil => exact .pure _
  | cons m ms ih =>
    obtain ⟨x, t, params, body⟩ := m
    obtain ⟨hm, hms⟩ := List.forall_mem_cons.1 h
    rw [genMembers]
    refine EmitsWithin.mono (.bind (hm _ _ _) fun code => .bind (.emit _ _) fun _ => ih hms) ?_
    intro t'
    simp only [tagsMembers, List.map_cons, List.count_append, List.count_cons, List.count_nil]
    omega

theorem labelsInside_seq {es : List (Expr Nat)} (h : ∀ e ∈ es, LabelsInside e) (f : Frame)
    (ctx : Context) : (genSeq calls f ctx es).EmitsWithin (tagsList es) := by
  induction es with
  | nil => exact .fail _
  | cons e es ih =>
    obtain ⟨he, hes⟩ := List.forall_mem_cons.1 h
    cases es with
    | nil =>
      refine (he calls f ctx).mono fun t => ?_
      simp only [tagsList, List.append_nil]
      exact Nat.le_refl _
    | cons e' es =>
      rw [genSeq]
      refine EmitsWithin.mono (.bind (he _ _ _) fun first => .bind (ih hes) fun rest => .pure _) ?_
      intro t
      rw [List.append_nil]
      exact Nat.le_refl _

theorem labelsInside (e : Expr Nat) : LabelsInside e := by
  induction e with
  | lit v t => exact fun _ _ _ => (EmitsWithin.pure _).mono fun _ => Nat.zero_le _
  | var x t =>
    intro calls f ctx
    rw [gen]
    exact EmitsWithin.mono (.bind (.lift _) fun i => .pure _) fun _ => Nat.zero_le _
  | cond test yes no t htest hyes hno =>
    intro calls f ctx
    rw [gen]
    refine EmitsWithin.mono (.bind (htest _ _ _) fun test => .bind (hyes _ _ _) fun yes =>
      .bind (hno _ _ _) fun no => show EmitsWithin _ [] from ?_) ?_
    · cases ctx <;> exact .pure _
    · intro u
      simp only [tags, List.count_append, List.count_nil]
      omega
  | lambda params body t hbody =>
    intro calls f ctx
    rw [gen]
    refine EmitsWithin.mono (.bind (.lift _) fun values => .bind (hbody _ _ _) fun code =>
      .bind (.emit _ _) fun _ => .pure _) ?_
    intro u
    simp only [tags, List.count_append, List.count_nil]
    omega
  | assign x value t hvalue => exact fun _ _ _ => (EmitsWithin.fail _).mono fun _ => Nat.zero_le _
  | app func args t hfunc hargs =>
    intro calls f ctx
    rw [gen]
    split
    · refine EmitsWithin.mono (.bind (labelsInside_args hargs _) fun pushed =>
        .bind (hfunc _ _ _) fun func => .pure _) ?_
      intro u
      simp only [tags, List.count_append, List.count_nil]
      omega
    · refine EmitsWithin.mono (.bind (labelsInside_args hargs _) fun pushed =>
        .bind (hfunc _ _ _) fun func => .pure _) ?_
      intro u
      simp only [tags, List.count_append, List.count_nil]
      omega
  | letIn bindings body t hbindings hbody =>
    intro calls f ctx
    rw [gen]
    refine EmitsWithin.mono (.bind (labelsInside_bindings hbindings _) fun r =>
      .bind (hbody _ _ _) fun body => .pure _) ?_
    intro u
    simp only [tags, List.count_append, List.count_nil]
    omega
  | letrec bindings body t hbindings hbody =>
    exact fun _ _ _ => (EmitsWithin.fail _).mono fun _ => Nat.zero_le _
  | fix members body t hmembers hbody =>
    intro calls f ctx
    rw [gen]
    refine EmitsWithin.mono (.bind (labelsInside_members hmembers _ _) fun _ =>
      .bind (.lift _) fun r => .bind (hbody _ _ _) fun body => .pure _) ?_
    intro u
    simp only [tags, List.count_append, List.count_nil]
    omega
  | seq items t hitems =>
    intro calls f ctx
    refine (labelsInside_seq hitems f ctx).mono fun u => ?_
    simp only [tags, List.count_append]
    omega

theorem nodup_labels {e : Expr Nat} (h : e.tags.Nodup) (calls : List TailCall) :
    ((e.genMain calls).emitted.map (·.1)).Nodup := by
  have hwithin : (e.genMain calls).EmitsWithin (e.tags ++ []) :=
    .bind (labelsInside e calls .main .value) fun code => .pure _
  have hindices : ((e.genMain calls).emitted.map (·.1.index)).Nodup := by
    rw [List.nodup_iff_count]
    intro t
    have hemitted := hwithin t
    have htags := List.nodup_iff_count.1 h t
    rw [List.append_nil] at hemitted
    exact Nat.le_trans hemitted htags
  refine List.Nodup.of_map Label.index ?_
  rw [List.map_map]
  exact hindices

end Expr

/-! ### Tables without repeated keys -/

namespace Table

variable {κ ν : Type} [DecidableEq κ]

theorem insert_of_notMem {t : Table κ ν} {k : κ} (h : k ∉ t.map (·.1)) (v : ν) :
    t.insert k v = t ++ [(k, v)] := by
  induction t with
  | nil => rfl
  | cons p t ih =>
    obtain ⟨k₀, v₀⟩ := p
    simp only [List.map_cons, List.mem_cons, not_or] at h
    simp only [insert, if_neg (Ne.symm h.1), ih h.2, List.cons_append]

theorem ofPairs_of_nodup {pairs : List (κ × ν)} (h : (pairs.map (·.1)).Nodup) :
    ofPairs pairs = pairs := by
  have hfold : ∀ (t ps : List (κ × ν)), ((t ++ ps).map (·.1)).Nodup →
      ps.foldl (fun t p => Table.insert t p.1 p.2) t = t ++ ps := by
    intro t ps
    induction ps generalizing t with
    | nil => intro _; simp
    | cons p ps ih =>
      intro hnodup
      have hnew : p.1 ∉ t.map (·.1) := by
        intro hmem
        rw [List.map_append, List.nodup_append] at hnodup
        exact hnodup.2.2 _ hmem _ (List.mem_cons_self ..) rfl
      rw [List.foldl_cons, insert_of_notMem hnew, ih _ (by simpa using hnodup)]
      simp
  exact hfold [] pairs h

end Table

/-! ### Linked blocks -/

namespace Program

theorem hasCode_of_linkCode {p : Program} {code : Code} {linked : List (Inst Nat)}
    (h : linkCode p.entries code = .ok linked) (before after : List (Inst Nat))
    (hcode : p.code.toList = before ++ linked ++ after) : p.HasCode before.length code := by
  induction code generalizing linked before with
  | nil => trivial
  | cons i is ih =>
    rw [linkCode, Results.bind_eq_ok_iff] at h
    obtain ⟨j, hj, h⟩ := h
    rw [Results.bind_eq_ok_iff] at h
    obtain ⟨js, hjs, h⟩ := h
    injection h with h
    subst h
    refine ⟨⟨j, hj, ?_⟩, ?_⟩
    · rw [← Array.getElem?_toList, hcode]
      simp
    · have hrest := ih hjs (before ++ [j]) (by simp [hcode])
      rw [List.length_append, List.length_singleton] at hrest
      exact hrest

theorem placed_of_hasCode {p : Program} {start : Nat} {blocks : Table Label Code}
    (hnodup : (blocks.map (·.1)).Nodup) (h : p.HasCode start (blocks.flatMap (·.2))) :
    ∀ b ∈ blocks, ∃ a, (placeBlocks start blocks).lookup b.1 = some a ∧ p.HasCode a b.2 := by
  induction blocks generalizing start with
  | nil => simp
  | cons block blocks ih =>
    obtain ⟨l, code⟩ := block
    rw [List.map_cons, List.nodup_cons] at hnodup
    rw [List.flatMap_cons, hasCode_append_iff] at h
    intro b hb
    rcases List.mem_cons.1 hb with rfl | hb
    · exact ⟨start, by simp [placeBlocks], h.1⟩
    · obtain ⟨a, hlookup, ha⟩ := ih hnodup.2 h.2 b hb
      have hne : b.1 ≠ l := by
        have hmem : b.1 ∈ blocks.map (·.1) := List.mem_map_of_mem hb
        intro heq
        exact hnodup.1 (heq ▸ hmem)
      refine ⟨a, ?_, ha⟩
      simpa [placeBlocks, List.lookup_cons, beq_false_of_ne hne] using hlookup

end Program

namespace Assembly

variable {a : Assembly} {p : Program}

theorem hasCode_of_link (h : a.link = .ok p) :
    p.entries = a.entries ∧ p.HasCode 0 (a.main ++ a.blocks.flatMap (·.2)) := by
  rw [link, Results.bind_eq_ok_iff] at h
  obtain ⟨linked, hlinked, h⟩ := h
  injection h with h
  subst h
  exact ⟨rfl, Program.hasCode_of_linkCode hlinked [] [] (by simp)⟩

theorem placed_of_link (h : a.link = .ok p) (hnodup : (a.blocks.map (·.1)).Nodup) :
    ∀ b ∈ a.blocks, ∃ start, addressOf p.entries b.1 = .ok start ∧ p.HasCode start b.2 := by
  obtain ⟨hentries, hcode⟩ := hasCode_of_link h
  rw [Program.hasCode_append_iff] at hcode
  intro b hb
  obtain ⟨start, hlookup, hstart⟩ := Program.placed_of_hasCode hnodup hcode.2 b hb
  refine ⟨start, ?_, hstart⟩
  rw [Nat.zero_add] at hlookup
  simp only [addressOf, hentries, entries, hlookup]

end Assembly

end MiniScheme
