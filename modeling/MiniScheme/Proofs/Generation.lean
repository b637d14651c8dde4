import Mathlib.Data.List.Forall2
import MiniScheme.Code.Generate
import MiniScheme.Proofs.Climbing

/-!
# Generated code

What generating the code of each form yields, where a frame finds the names bound in it, and how
the code that creates a closure runs.
-/

namespace MiniScheme

namespace Emit

variable {ω ε α β : Type} {ws : List ω}

/-- The computation gives a result, and all it emits is in a list. -/
def Yields (x : Emit ω ε α) (ws : List ω) (a : α) : Prop :=
  x.result = .ok a ∧ ∀ w ∈ x.emitted, w ∈ ws

theorem yields_pure_iff {a b : α} : (pure a : Emit ω ε α).Yields ws b ↔ b = a := by
  simp [Yields, eq_comm]

theorem yields_lift_iff {r : Except ε α} {a : α} :
    (lift r : Emit ω ε α).Yields ws a ↔ r = .ok a := by
  simp [Yields, lift]

theorem yields_emit_iff {w : ω} {u : Unit} : (emit w : Emit ω ε Unit).Yields ws u ↔ w ∈ ws := by
  simp [Yields, emit]

theorem yields_fail_iff {e : ε} {a : α} : (fail e : Emit ω ε α).Yields ws a ↔ False := by
  simp [Yields, fail]

theorem yields_bind_iff {x : Emit ω ε α} {f : α → Emit ω ε β} {b : β} :
    (x >>= f).Yields ws b ↔ ∃ a, x.Yields ws a ∧ (f a).Yields ws b := by
  constructor
  · rintro ⟨hresult, hemitted⟩
    obtain ⟨a, ha, hb⟩ := (result_bind_eq_ok_iff x f b).1 hresult
    rw [emitted_bind_of_ok ha, List.forall_mem_append] at hemitted
    exact ⟨a, ⟨ha, hemitted.1⟩, ⟨hb, hemitted.2⟩⟩
  · rintro ⟨a, ⟨ha, hxs⟩, ⟨hb, hys⟩⟩
    refine ⟨(result_bind_eq_ok_iff x f b).2 ⟨a, ha, hb⟩, ?_⟩
    rw [emitted_bind_of_ok ha, List.forall_mem_append]
    exact ⟨hxs, hys⟩

end Emit

/-! ### Names in frames -/

theorem getElem?_of_idxOf? {xs : List Name} {x : Name} {k : Nat} (h : xs.idxOf? x = some k) :
    xs[k]? = some x := by
  obtain ⟨hlt, hx, _⟩ := List.idxOf?_eq_some_iff.1 h
  rw [List.getElem?_eq_getElem hlt, hx]

theorem idxOf?_of_getElem? {xs : List Name} (hnodup : xs.Nodup) {x : Name} {k : Nat}
    (h : xs[k]? = some x) : xs.idxOf? x = some k := by
  obtain ⟨hlt, hx⟩ := List.getElem?_eq_some_iff.1 h
  refine List.idxOf?_eq_some_iff.2 ⟨hlt, hx, fun j hj heq => ?_⟩
  have hne := List.pairwise_iff_getElem.1 hnodup j k (by omega) hlt hj
  exact hne (heq.trans hx.symm)

theorem getElem?_of_forall₂ {α β : Type} {R : α → β → Prop} {xs : List α} {ys : List β}
    (h : List.Forall₂ R xs ys) {k : Nat} {x : α} (hx : xs[k]? = some x) :
    ∃ y, ys[k]? = some y ∧ R x y := by
  induction h generalizing k with
  | nil => simp at hx
  | cons hxy _ ih =>
    cases k with
    | zero =>
      simp only [List.getElem?_cons_zero, Option.some.injEq] at hx
      exact ⟨_, List.getElem?_cons_zero, hx ▸ hxy⟩
    | succ k =>
      rw [List.getElem?_cons_succ] at hx ⊢
      exact ih hx

section Group

variable {β : Type} {ms : List (Member Nat β)}

theorem map_fst_groupLabels : (groupLabels ms).map (·.1) = ms.map (·.name) := by
  simp [groupLabels, Function.comp_def]

theorem getElem?_groupLabels {k : Nat} {m : Member Nat β} (h : ms[k]? = some m) :
    (groupLabels ms)[k]? = some (m.name, ⟨m.tag⟩) := by
  simp [groupLabels, h]

theorem mem_of_lookup_groupLabels {x : Name} {l : Label}
    (h : (groupLabels ms).reverse.lookup x = some l) : ∃ m ∈ ms, m.name = x ∧ l = ⟨m.tag⟩ := by
  obtain ⟨before, after, hsplit, _⟩ := List.lookup_eq_some_iff.1 h
  have hmem : (x, l) ∈ groupLabels ms := by
    rw [← List.mem_reverse, hsplit]
    simp
  obtain ⟨m, hm, heq⟩ := List.mem_map.1 hmem
  cases heq
  exact ⟨m, hm, rfl, rfl⟩

end Group

namespace Frame

theorem reference_bind_of_ne (f : Frame) {x y : Name} (h : y ≠ x) :
    (f.bind x).reference y = f.reference y := by
  simp [reference, bind, List.lookup_cons, beq_false_of_ne h]

theorem reference_bind_self {f : Frame} {x : Name} (h : x ∉ f.params) :
    (f.bind x).reference x = .ok (.refTemp f.height) := by
  simp [reference, bind, List.idxOf?_eq_none_iff.2 h]

/-- The frame in which the next cells pushed are temporaries. -/
def bindAll (f : Frame) (xs : List Name) : Frame :=
  xs.foldl bind f

theorem params_bindAll (f : Frame) (xs : List Name) : (f.bindAll xs).params = f.params := by
  induction xs generalizing f with
  | nil => rfl
  | cons x xs ih => exact ih (f.bind x)

theorem height_bindAll (f : Frame) (xs : List Name) :
    (f.bindAll xs).height = f.height + xs.length := by
  induction xs generalizing f with
  | nil => rfl
  | cons x xs ih =>
    have hrest : (f.bindAll (x :: xs)).height = f.height + 1 + xs.length := ih (f.bind x)
    rw [hrest, List.length_cons, Nat.add_right_comm, Nat.add_assoc]

theorem reference_bindAll_of_notMem (f : Frame) {xs : List Name} {y : Name} (h : y ∉ xs) :
    (f.bindAll xs).reference y = f.reference y := by
  induction xs generalizing f with
  | nil => rfl
  | cons x xs ih =>
    rw [List.mem_cons, not_or] at h
    exact (ih (f.bind x) h.2).trans (f.reference_bind_of_ne h.1)

theorem reference_bindAll {f : Frame} {xs : List Name} (hnodup : xs.Nodup)
    (hparams : ∀ x ∈ xs, x ∉ f.params) {k : Nat} {x : Name} (hx : xs[k]? = some x) :
    (f.bindAll xs).reference x = .ok (.refTemp (f.height + k)) := by
  induction xs generalizing f k with
  | nil => simp at hx
  | cons y ys ih =>
    rw [List.nodup_cons] at hnodup
    obtain ⟨hy, hys⟩ := List.forall_mem_cons.1 hparams
    cases k with
    | zero =>
      simp only [List.getElem?_cons_zero, Option.some.injEq] at hx
      subst hx
      exact ((f.bind y).reference_bindAll_of_notMem hnodup.1).trans (reference_bind_self hy)
    | succ k =>
      rw [List.getElem?_cons_succ] at hx
      have hrest := ih (f := f.bind y) hnodup.2 hys hx
      have hslot : f.height + (k + 1) = (f.bind y).height + k := by
        simp only [bind]
        omega
      rw [hslot]
      exact hrest

/-- A frame that leaves the primitives their names, in a scope that holds its parameters. -/
structure Suits (f : Frame) (scope : List Name) : Prop where
  prims : ∀ p : Primitive, f.reference p.name = .ok (.refGlobal p.index)
  params : ∀ x ∈ f.params, x ∈ scope

theorem Suits.raise {f : Frame} {scope : List Name} (h : f.Suits scope) (n : Nat) :
    (f.raise n).Suits scope :=
  ⟨h.prims, h.params⟩

theorem Suits.bind {f : Frame} {scope : List Name} (h : f.Suits scope) {x : Name}
    (hx : Primitive.ofName? x = none) : (f.bind x).Suits scope := by
  refine ⟨fun p => ?_, h.params⟩
  have hne : p.name ≠ x := by
    rintro rfl
    rw [Primitive.ofName?_name] at hx
    exact absurd hx (by simp)
  rw [f.reference_bind_of_ne hne]
  exact h.prims p

theorem suits_main : Frame.main.Suits [] :=
  ⟨fun p => by cases p <;> rfl, fun _ h => h⟩

theorem suits_ofProcedure {params captured scope : List Name} {group : List (Name × Label)}
    (hparams : ∀ x ∈ params, x ∈ scope) (hprims : ∀ x ∈ scope, Primitive.ofName? x = none)
    (hcaptured : ∀ x ∈ captured, Primitive.ofName? x = none) :
    (ofProcedure params captured group).Suits scope := by
  refine ⟨fun p => ?_, hparams⟩
  have hprim := Primitive.ofName?_name p
  have hp : p.name ∉ params := fun h => by
    rw [hprims _ (hparams _ h)] at hprim
    exact absurd hprim (by simp)
  have hc : p.name ∉ captured := fun h => by
    rw [hcaptured _ h] at hprim
    exact absurd hprim (by simp)
  simp [reference, ofProcedure, List.idxOf?_eq_none_iff.2 hp, List.idxOf?_eq_none_iff.2 hc, hprim]

/-- Where a procedure finds a name: a parameter, a captured name, a primitive or a member of its
group. -/
theorem reference_ofProcedure_cases {params captured : List Name} {group : List (Name × Label)}
    {x : Name} {i : Inst Label} (h : (ofProcedure params captured group).reference x = .ok i) :
    (∃ k : Nat, params[k]? = some x ∧ i = .refLocal k) ∨
      x ∉ params ∧ (∃ k : Nat, captured[k]? = some x ∧ i = .refFree k) ∨
      x ∉ params ∧ x ∉ captured ∧ (∃ p, Primitive.ofName? x = some p ∧ i = .refGlobal p.index) ∨
      x ∉ params ∧ x ∉ captured ∧ Primitive.ofName? x = none ∧
        ∃ l, group.lookup x = some l ∧ i = .refRec l := by
  simp only [reference, ofProcedure, List.lookup_nil] at h
  cases hp : params.idxOf? x with
  | some k =>
    rw [hp] at h
    exact .inl ⟨k, getElem?_of_idxOf? hp, (Except.ok.inj h).symm⟩
  | none =>
    rw [hp] at h
    have hparams := List.idxOf?_eq_none_iff.1 hp
    refine .inr ?_
    cases hc : captured.idxOf? x with
    | some k =>
      rw [hc] at h
      exact .inl ⟨hparams, k, getElem?_of_idxOf? hc, (Except.ok.inj h).symm⟩
    | none =>
      rw [hc] at h
      have hcaptured := List.idxOf?_eq_none_iff.1 hc
      refine .inr ?_
      cases hprim : Primitive.ofName? x with
      | some p =>
        rw [hprim] at h
        exact .inl ⟨hparams, hcaptured, p, rfl, (Except.ok.inj h).symm⟩
      | none =>
        rw [hprim] at h
        refine .inr ⟨hparams, hcaptured, rfl, ?_⟩
        cases hgroup : group.lookup x with
        | some l =>
          rw [hgroup] at h
          exact ⟨l, rfl, (Except.ok.inj h).symm⟩
        | none =>
          rw [hgroup] at h
          exact absurd h (by simp)

theorem reference_param {f : Frame} (hnodup : f.params.Nodup) {x : Name} {k : Nat}
    (hx : f.params[k]? = some x) : f.reference x = .ok (.refLocal k) := by
  simp only [reference, idxOf?_of_getElem? hnodup hx]

theorem pushNames_cons_ok {f : Frame} {x : Name} {xs : List Name} {code : Code} :
    f.pushNames (x :: xs) = .ok code ↔
      ∃ i rest, f.reference x = .ok i ∧ f.pushNames xs = .ok rest ∧ code = i :: .push :: rest := by
  simp only [pushNames, Results.bind_eq_ok_iff, pure, Except.pure, Except.ok.injEq]
  constructor
  · rintro ⟨i, hi, rest, hrest, rfl⟩
    exact ⟨i, rest, hi, hrest, rfl⟩
  · rintro ⟨i, rest, hi, hrest, rfl⟩
    exact ⟨i, hi, rest, hrest, rfl⟩

theorem closeMembers_cons_ok {f f' : Frame} {captured : List Name} {x : Name} {l : Label}
    {ms : List (Name × Label)} {code : Code} :
    f.closeMembers captured ((x, l) :: ms) = .ok (code, f') ↔
      ∃ values rest, f.pushNames captured = .ok values ∧
        (f.bind x).closeMembers captured ms = .ok (rest, f') ∧
        code = values ++ [.close captured.length l, .push] ++ rest := by
  simp only [closeMembers, Results.bind_eq_ok_iff, pure, Except.pure, Except.ok.injEq,
    Prod.exists, Prod.mk.injEq]
  constructor
  · rintro ⟨values, hvalues, rest, f₁, hrest, rfl, rfl⟩
    exact ⟨values, rest, hvalues, hrest, rfl⟩
  · rintro ⟨values, rest, hvalues, hrest, rfl⟩
    exact ⟨values, hvalues, rest, f', hrest, rfl, rfl⟩

theorem closeMembers_frame {f f' : Frame} {captured : List Name} {ms : List (Name × Label)}
    {code : Code} (h : f.closeMembers captured ms = .ok (code, f')) :
    f' = f.bindAll (ms.map (·.1)) := by
  induction ms generalizing f code with
  | nil =>
    simp only [closeMembers, Except.ok.injEq, Prod.mk.injEq] at h
    exact h.2.symm
  | cons m ms ih =>
    obtain ⟨x, l⟩ := m
    obtain ⟨values, rest, _, hrest, _⟩ := closeMembers_cons_ok.1 h
    exact ih hrest

/-- In a program, a frame loads a name with a value. -/
def Loads (p : Program) (f : Frame) (c : Config) (x : Name) (v : Value) : Prop :=
  ∃ i j, f.reference x = .ok i ∧ i.mapAddress (addressOf p.entries) = .ok j ∧ c.fetch j = some v

/-- In a program, a frame loads every name that it can refer to. -/
def LoadsAll (p : Program) (f : Frame) (c : Config) : Prop :=
  ∀ x i j, f.reference x = .ok i → i.mapAddress (addressOf p.entries) = .ok j →
    ∃ v, c.fetch j = some v

variable {p : Program} {f : Frame} {c : Config}

theorem Loads.unique {x : Name} {v w : Value} (hv : Loads p f c x v) (hw : Loads p f c x w) :
    v = w := by
  obtain ⟨i, j, hi, hj, hv⟩ := hv
  obtain ⟨i', j', hi', hj', hw⟩ := hw
  rw [hi] at hi'
  injection hi' with hi'
  subst hi'
  rw [hj] at hj'
  injection hj' with hj'
  subst hj'
  rw [hv] at hw
  exact Option.some.inj hw

theorem LoadsAll.after (h : LoadsAll p f c) (n : Nat) (w : Value) (ws : List Value) :
    LoadsAll p f (c.after n w ws) := by
  intro x i j hi hj
  obtain ⟨v, hv⟩ := h x i j hi hj
  exact ⟨v, Config.fetch_after hv n w ws⟩

/-- What a frame loads it has loaded already before more values were pushed. -/
theorem Loads.of_after (hall : LoadsAll p f c) {n : Nat} {w : Value} {ws : List Value} {x : Name}
    {v : Value} (h : Loads p f (c.after n w ws) x v) : Loads p f c x v := by
  obtain ⟨i, j, hi, hj, hv⟩ := h
  obtain ⟨u, hu⟩ := hall x i j hi hj
  rw [Config.fetch_after hu n w ws] at hv
  injection hv with hv
  exact ⟨i, j, hi, hj, hv ▸ hu⟩

/-! ### Creating closures -/

theorem moves_reference (hall : LoadsAll p f c) {x : Name} {i : Inst Label} {is : Code}
    (hi : f.reference x = .ok i) (hcode : p.HasCode c.pc (i :: is)) :
    ∃ v, Loads p f c x v ∧ p.Moves c (c.after 1 v []) := by
  have hlinked := hcode.1
  obtain ⟨j, hj, _⟩ := hlinked
  obtain ⟨v, hv⟩ := hall x i j hi hj
  exact ⟨v, ⟨i, j, hi, hj, hv⟩, Program.moves_fetch hcode hj hv⟩

theorem climbs_pushNames (hall : LoadsAll p f c) {xs : List Name} {code : Code}
    (hpush : f.pushNames xs = .ok code) (hcode : p.HasCode c.pc code) :
    ∃ v vs, List.Forall₂ (Loads p f c) xs vs ∧
      p.Climbs xs.length c (c.after code.length v vs.reverse) := by
  induction xs generalizing c code with
  | nil =>
    simp only [pushNames, Except.ok.injEq] at hpush
    subst hpush
    exact ⟨c.acc, [], .nil, Program.climbs_refl c⟩
  | cons x xs ih =>
    obtain ⟨i, rest, hi, hrest, rfl⟩ := pushNames_cons_ok.1 hpush
    obtain ⟨v, hv, hload⟩ := moves_reference hall hi hcode
    have hstore := Program.moves_push hcode.2 v []
    obtain ⟨w, vs, hvs, hclimb⟩ := ih (hall.after 2 v [v]) hrest hcode.2.2
    refine ⟨w, v :: vs, .cons hv ?_, ?_⟩
    · exact hvs.imp fun _ _ h => h.of_after hall
    · have hlen : 2 + rest.length = rest.length + 1 + 1 := by omega
      rw [Config.after_after, hlen, ← List.reverse_cons] at hclimb
      have hloaded : p.Climbs 0 c (c.after 1 v []) :=
        Program.climbs_of_moves hload (Nat.max_self _)
      have hstored : p.Climbs 1 c (c.after 2 v [v]) :=
        hloaded.trans (Program.climbs_of_moves hstore (Nat.max_eq_right (Nat.le_succ _)))
          (Nat.max_eq_right (Nat.le_succ _))
      refine hstored.trans hclimb ?_
      simp only [Config.after, List.length_append, List.length_cons, List.length_nil]
      omega

/-- Code that pushes names and closes over them loads the closure. -/
theorem climbs_close (hall : LoadsAll p f c) {xs : List Name} {values is : Code} {l : Label}
    (hpush : f.pushNames xs = .ok values)
    (hcode : p.HasCode c.pc (values ++ .close xs.length l :: is)) :
    ∃ a vs, addressOf p.entries l = .ok a ∧ List.Forall₂ (Loads p f c) xs vs ∧
      p.Climbs xs.length c (c.after (values.length + 1) (.closure a vs) []) := by
  rw [Program.hasCode_append_iff] at hcode
  obtain ⟨v, vs, hvs, hclimb⟩ := climbs_pushNames hall hpush hcode.1
  obtain ⟨j, hj, _⟩ := hcode.2.1
  obtain ⟨a, ha, _⟩ := Results.map_eq_ok_iff.1 hj
  have hclose := hcode.2
  rw [hvs.length_eq] at hclose
  have hmove := Program.moves_close (c := c.after values.length v vs.reverse) hclose ha rfl
  have hlen := hvs.length_eq
  refine ⟨a, vs, ha, hvs, hclimb.level (Program.climbs_of_moves hmove ?_) ?_⟩
  · simp only [Config.after, List.length_append, List.length_reverse, List.length_nil]
    omega
  · simp only [Config.after, List.length_append, List.length_reverse]
    omega

end Frame

/-! ### Inverting the generator -/

/-- A linked program with the tail calls it was generated with and the blocks of its procedure
bodies, all of them in memory. -/
structure Image where
  program : Program
  calls : List TailCall
  blocks : List (Label × Code)
  placed : ∀ b ∈ blocks, ∃ a, addressOf program.entries b.1 = .ok a ∧ program.HasCode a b.2

namespace Image

variable {M : Image} {f f' : Frame} {ctx : Context} {code : Code}

open Emit

/-- The code of an expression in a frame and a context; the blocks that belong to it are in
memory. -/
def Compiles (M : Image) (f : Frame) (ctx : Context) (e : Expr Nat) (code : Code) : Prop :=
  (e.gen M.calls f ctx).Yields M.blocks code

theorem compiles_lit_iff {v : Literal} {t : Nat} :
    M.Compiles f ctx (.lit v t) code ↔ code = .const v :: ctx.leave := by
  simp only [Compiles, Expr.gen, yields_pure_iff]

theorem compiles_var_iff {x : Name} {t : Nat} :
    M.Compiles f ctx (.var x t) code ↔
      ∃ i, f.reference x = .ok i ∧ code = i :: ctx.leave := by
  simp only [Compiles, Expr.gen, yields_bind_iff, yields_lift_iff, yields_pure_iff]

theorem compiles_cond_value_iff {test yes no : Expr Nat} {t : Nat} :
    M.Compiles f .value (.cond test yes no t) code ↔
      ∃ ct cy cn, M.Compiles f .value test ct ∧ M.Compiles f .value yes cy ∧
        M.Compiles f .value no cn ∧
        code = ct ++ [.test (cy.length + 2)] ++ cy ++ [.jump (cn.length + 1)] ++ cn := by
  simp only [Compiles, Expr.gen, yields_bind_iff, yields_pure_iff, exists_and_left]

theorem compiles_cond_tail_iff {cells : Nat} {test yes no : Expr Nat} {t : Nat} :
    M.Compiles f (.tail cells) (.cond test yes no t) code ↔
      ∃ ct cy cn, M.Compiles f .value test ct ∧ M.Compiles f (.tail cells) yes cy ∧
        M.Compiles f (.tail cells) no cn ∧
        code = ct ++ [.test (cy.length + 1)] ++ cy ++ cn := by
  simp only [Compiles, Expr.gen, yields_bind_iff, yields_pure_iff, exists_and_left]

theorem compiles_lambda_iff {params : List Name} {body : Expr Nat} {t : Nat} :
    M.Compiles f ctx (.lambda params body t) code ↔
      ∃ values cb, f.pushNames (body.free (params ++ Primitive.names)) = .ok values ∧
        M.Compiles (.ofProcedure params (body.free (params ++ Primitive.names)) [])
          (.tail params.length) body cb ∧
        (⟨t⟩, cb) ∈ M.blocks ∧
        code = values ++ [.close (body.free (params ++ Primitive.names)).length ⟨t⟩] ++
          ctx.leave := by
  simp only [Compiles, Expr.gen, yields_bind_iff, yields_lift_iff, yields_emit_iff,
    yields_pure_iff, exists_and_left, exists_const]

theorem compiles_assign_iff {x : Name} {e : Expr Nat} {t : Nat} :
    M.Compiles f ctx (.assign x e t) code ↔ False := by
  simp only [Compiles, Expr.gen, yields_fail_iff]

theorem compiles_letrec_iff {bs : List (Name × Expr Nat)} {e : Expr Nat} {t : Nat} :
    M.Compiles f ctx (.letrec bs e t) code ↔ False := by
  simp only [Compiles, Expr.gen, yields_fail_iff]

/-- The code of arguments. -/
def CompilesArgs (M : Image) (f : Frame) (es : List (Expr Nat)) (code : Code) : Prop :=
  (Expr.genArgs M.calls f es).Yields M.blocks code

theorem compilesArgs_nil_iff : M.CompilesArgs f [] code ↔ code = [] := by
  simp only [CompilesArgs, Expr.genArgs, yields_pure_iff]

theorem compilesArgs_cons_iff {e : Expr Nat} {es : List (Expr Nat)} :
    M.CompilesArgs f (e :: es) code ↔
      ∃ rest first, M.CompilesArgs f es rest ∧ M.Compiles (f.raise es.length) .value e first ∧
        code = rest ++ first ++ [.push] := by
  simp only [CompilesArgs, Compiles, Expr.genArgs, yields_bind_iff, yields_pure_iff,
    exists_and_left]

theorem compiles_app_iff {func : Expr Nat} {args : List (Expr Nat)} {t : Nat}
    (hcall : M.calls.find? (·.app = t) = none) :
    M.Compiles f ctx (.app func args t) code ↔
      ∃ pushed cf, M.CompilesArgs (f.raise 3) args pushed ∧
        M.Compiles (f.raise (3 + args.length)) .value func cf ∧
        code = [.frame (pushed.length + cf.length + 2)] ++ pushed ++ cf ++ [.apply] ++
          ctx.leave := by
  simp only [Compiles, CompilesArgs, Expr.gen, hcall, yields_bind_iff, yields_pure_iff,
    exists_and_left]

theorem compiles_tailApp_iff {func : Expr Nat} {args : List (Expr Nat)} {t : Nat}
    {call : TailCall} (hcall : M.calls.find? (·.app = t) = some call) :
    M.Compiles f ctx (.app func args t) code ↔
      ∃ pushed cf, M.CompilesArgs f args pushed ∧
        M.Compiles (f.raise args.length) .value func cf ∧
        code = pushed ++ cf ++ [.shift args.length call.cells, .apply] := by
  simp only [Compiles, CompilesArgs, Expr.gen, hcall, yields_bind_iff, yields_pure_iff,
    exists_and_left]

/-- The code of bindings, and the frame after them. -/
def CompilesBindings (M : Image) (f : Frame) (bs : List (Name × Expr Nat)) (code : Code)
    (f' : Frame) : Prop :=
  (Expr.genBindings M.calls f bs).Yields M.blocks (code, f')

theorem compilesBindings_nil_iff : M.CompilesBindings f [] code f' ↔ code = [] ∧ f' = f := by
  simp only [CompilesBindings, Expr.genBindings, yields_pure_iff, Prod.mk.injEq]

theorem compilesBindings_cons_iff {x : Name} {e : Expr Nat} {bs : List (Name × Expr Nat)} :
    M.CompilesBindings f ((x, e) :: bs) code f' ↔
      ∃ first rest, M.Compiles f .value e first ∧ M.CompilesBindings (f.bind x) bs rest f' ∧
        code = first ++ [.push] ++ rest := by
  simp only [CompilesBindings, Compiles, Expr.genBindings, yields_bind_iff, yields_pure_iff,
    Prod.exists, Prod.mk.injEq]
  constructor
  · rintro ⟨first, hfirst, rest, _, hrest, rfl, rfl⟩
    exact ⟨first, rest, hfirst, hrest, rfl⟩
  · rintro ⟨first, rest, hfirst, hrest, rfl⟩
    exact ⟨first, hfirst, rest, f', hrest, rfl, rfl⟩

theorem compilesBindings_frame {bs : List (Name × Expr Nat)}
    (h : M.CompilesBindings f bs code f') : f' = f.bindAll (bs.map (·.1)) := by
  induction bs generalizing f code with
  | nil => exact (compilesBindings_nil_iff.1 h).2
  | cons b bs ih =>
    obtain ⟨x, e⟩ := b
    obtain ⟨_, _, _, hrest, _⟩ := compilesBindings_cons_iff.1 h
    exact ih hrest

theorem compiles_letIn_iff {bs : List (Name × Expr Nat)} {body : Expr Nat} {t : Nat} :
    M.Compiles f ctx (.letIn bs body t) code ↔
      ∃ inits cb, M.CompilesBindings f bs inits (f.bindAll (bs.map (·.1))) ∧
        M.Compiles (f.bindAll (bs.map (·.1))) (ctx.deeper bs.length) body cb ∧
        code = inits ++ cb ++ ctx.drop bs.length := by
  simp only [Compiles, Expr.gen, yields_bind_iff, yields_pure_iff, Prod.exists]
  constructor
  · rintro ⟨inits, f', hinits, cb, hcb, rfl⟩
    obtain rfl := compilesBindings_frame hinits
    exact ⟨inits, cb, hinits, hcb, rfl⟩
  · rintro ⟨inits, cb, hinits, hcb, rfl⟩
    exact ⟨inits, _, hinits, cb, hcb, rfl⟩

theorem genMembers_yields_iff {captured : List Name} {group : List (Name × Label)}
    {ms : List (Member Nat (Expr Nat))} {u : Unit} :
    (Expr.genMembers M.calls captured group ms).Yields M.blocks u ↔
      ∀ m ∈ ms, ∃ cb, M.Compiles (.ofProcedure m.params captured group)
        (.tail m.params.length) m.body cb ∧ (⟨m.tag⟩, cb) ∈ M.blocks := by
  induction ms with
  | nil => simp [Expr.genMembers, yields_pure_iff]
  | cons m ms ih =>
    simp only [Expr.genMembers, yields_bind_iff, yields_emit_iff, ih, List.forall_mem_cons]
    constructor
    · rintro ⟨cb, hcb, _, hmem, hms⟩
      exact ⟨⟨cb, hcb, hmem⟩, hms⟩
    · rintro ⟨⟨cb, hcb, hmem⟩, hms⟩
      exact ⟨cb, hcb, (), hmem, hms⟩

theorem compiles_fix_iff {ms : List (Member Nat (Expr Nat))} {body : Expr Nat} {t : Nat} :
    M.Compiles f ctx (.fix ms body t) code ↔
      ∃ closures cb,
        (∀ m ∈ ms, ∃ cm, M.Compiles (.ofProcedure m.params
          (Expr.freeMembers (ms.map (·.name) ++ Primitive.names) ms) (groupLabels ms).reverse)
          (.tail m.params.length) m.body cm ∧ (⟨m.tag⟩, cm) ∈ M.blocks) ∧
        f.closeMembers (Expr.freeMembers (ms.map (·.name) ++ Primitive.names) ms)
          (groupLabels ms) = .ok (closures, f.bindAll (ms.map (·.name))) ∧
        M.Compiles (f.bindAll (ms.map (·.name))) (ctx.deeper ms.length) body cb ∧
        code = closures ++ cb ++ ctx.drop ms.length := by
  simp only [Compiles, Expr.gen, yields_bind_iff, yields_pure_iff, yields_lift_iff, Prod.exists,
    genMembers_yields_iff]
  constructor
  · rintro ⟨_, hms, closures, f', hclose, cb, hcb, rfl⟩
    obtain rfl := Frame.closeMembers_frame hclose
    rw [map_fst_groupLabels] at hclose hcb
    exact ⟨closures, cb, hms, hclose, hcb, rfl⟩
  · rintro ⟨closures, cb, hms, hclose, hcb, rfl⟩
    exact ⟨(), hms, closures, _, hclose, cb, hcb, rfl⟩

theorem compiles_seq_one_iff {e : Expr Nat} {t : Nat} :
    M.Compiles f ctx (.seq [e] t) code ↔ M.Compiles f ctx e code := by
  simp only [Compiles, Expr.gen, Expr.genSeq]

theorem compiles_seq_nil_iff {t : Nat} : M.Compiles f ctx (.seq [] t) code ↔ False := by
  simp only [Compiles, Expr.gen, Expr.genSeq, yields_fail_iff]

theorem compiles_seq_cons_iff {e e' : Expr Nat} {es : List (Expr Nat)} {t : Nat} :
    M.Compiles f ctx (.seq (e :: e' :: es) t) code ↔
      ∃ first rest, M.Compiles f .value e first ∧ M.Compiles f ctx (.seq (e' :: es) t) rest ∧
        code = first ++ rest := by
  simp only [Compiles, Expr.gen, Expr.genSeq, yields_bind_iff, yields_pure_iff,
    exists_and_left]

end Image

end MiniScheme
