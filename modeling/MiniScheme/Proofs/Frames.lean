import MiniScheme.Proofs.FreeNames
import MiniScheme.Proofs.Generation
import MiniScheme.Proofs.TailPosition

/-!
# Names in running code

What the running code of a procedure finds under the names in scope. What names are bound to is
left open: values of direct evaluation, for which a value of the machine has to stand, or types,
which it has to have.
-/

namespace MiniScheme

namespace Frame

/-- In a configuration, a frame finds a value under every name it knows, and under a name in scope
one that is right for what the name is bound to. -/
structure Holds {D : Type} (p : Program) (f : Frame) (scope : List Name) (find : Name → Option D)
    (Right : D → Value → Prop) (c : Config) : Prop where
  height : c.cells.length = c.fp + f.height
  suits : f.Suits scope
  notPrim : ∀ x ∈ scope, Primitive.ofName? x = none
  bound : ∀ x d, find x = some d → x ∈ scope
  loads : f.LoadsAll p c
  agrees : ∀ x d v, find x = some d → f.Loads p c x v → Right d v

variable {D : Type} {p : Program} {f : Frame} {scope : List Name} {find find' : Name → Option D}
  {Right Right' : D → Value → Prop} {c : Config}

theorem holds_main (hfp : c.fp = 0) (hcells : c.cells = []) (hfind : ∀ x, find x = none) :
    Frame.main.Holds p [] find Right c := by
  have hnone {x : Name} {d : D} (hd : find x = some d) : False := by
    rw [hfind] at hd
    exact nomatch hd
  refine ⟨by rw [hfp, hcells]; rfl, suits_main, nofun, fun _ _ hd => (hnone hd).elim, ?_,
    fun _ _ _ hd => (hnone hd).elim⟩
  intro x i j hi hj
  simp only [reference, main, List.idxOf?_nil, List.lookup_nil] at hi
  cases hp : Primitive.ofName? x with
  | none =>
    rw [hp] at hi
    exact absurd hi (by simp)
  | some q =>
    rw [hp] at hi
    cases hi
    cases hj
    exact ⟨.prim q, by simp [Config.fetch, Primitive.ofIndex?_index]⟩

theorem Holds.imp (h : f.Holds p scope find Right c) (himp : ∀ d v, Right d v → Right' d v) :
    f.Holds p scope find Right' c :=
  ⟨h.height, h.suits, h.notPrim, h.bound, h.loads,
    fun x d v hd hv => himp d v (h.agrees x d v hd hv)⟩

theorem Holds.after (h : f.Holds p scope find Right c) (n : Nat) (v : Value) (vs : List Value) :
    (f.raise vs.length).Holds p scope find Right (c.after n v vs) := by
  refine ⟨?_, h.suits.raise _, h.notPrim, h.bound, h.loads.after n v vs, ?_⟩
  · have hheight := h.height
    simp only [Config.after, raise, List.length_append]
    omega
  · exact fun x d w hd hw => h.agrees x d w hd (Loads.of_after h.loads hw)

theorem Holds.captures (h : f.Holds p scope find Right c) {captured : List Name}
    {vs : List Value} (hvs : List.Forall₂ (f.Loads p c) captured vs) {k : Nat} {x : Name} {d : D}
    {v : Value} (hx : captured[k]? = some x) (hd : find x = some d) (hv : vs[k]? = some v) :
    Right d v := by
  obtain ⟨v', hv', hload⟩ := getElem?_of_forall₂ hvs hx
  rw [hv] at hv'
  cases hv'
  exact h.agrees x d v hd hload

/-- A temporary whose name is not in scope hides nothing. -/
theorem Holds.bind (h : f.Holds p scope find Right c) {x : Name} (hscope : x ∉ scope)
    (hprim : Primitive.ofName? x = none) (n : Nat) (w v : Value) :
    (f.bind x).Holds p scope find Right (c.after n w [v]) := by
  have hheight := h.height
  have hparams : x ∉ f.params := fun hx => hscope (h.suits.params x hx)
  refine ⟨?_, h.suits.bind hprim, h.notPrim, h.bound, ?_, ?_⟩
  · simp only [Config.after, Frame.bind, List.length_append, List.length_singleton]
    omega
  · intro y i j hi hj
    by_cases hyx : y = x
    · subst hyx
      rw [reference_bind_self hparams] at hi
      cases hi
      cases hj
      refine ⟨v, ?_⟩
      simp only [Config.fetch, Config.after, List.reverse_append, List.reverse_singleton]
      rw [List.getElem?_append_right (by simp [hheight])]
      simp [hheight]
    · rw [f.reference_bind_of_ne hyx] at hi
      exact h.loads.after n w [v] y i j hi hj
  · rintro y d u hd ⟨i, j, hi, hj, hu⟩
    have hyx : y ≠ x := by
      rintro rfl
      exact hscope (h.bound y d hd)
    rw [f.reference_bind_of_ne hyx] at hi
    exact h.agrees y d u hd (Loads.of_after h.loads ⟨i, j, hi, hj, hu⟩)

/-- Once the values of new names are on top of the stack, the names can be brought into scope. -/
theorem Holds.enter {xs : List Name} (h : (f.bindAll xs).Holds p scope find Right c)
    (hnew : NewNames scope xs) {ws cells : List Value} (hcells : c.cells = ws.reverse ++ cells)
    (hheight : cells.length = c.fp + f.height)
    (hfind : ∀ x d, find' x = some d → find x = some d ∨
      ∃ (k : Nat) (w : Value), xs[k]? = some x ∧ ws[k]? = some w ∧ Right d w) :
    (f.bindAll xs).Holds p (xs ++ scope) find' Right c := by
  refine ⟨h.height, ⟨h.suits.prims, ?_⟩, List.forall_mem_append.2 ⟨hnew.notPrim, h.notPrim⟩, ?_,
    h.loads, ?_⟩
  · exact fun x hx => List.mem_append_right xs (h.suits.params x hx)
  · intro x d hd
    rcases hfind x d hd with hd | ⟨k, w, hx, _, _⟩
    · exact List.mem_append_right xs (h.bound x d hd)
    · exact List.mem_append_left scope (List.mem_of_getElem? hx)
  · intro x d v hd hv
    rcases hfind x d hd with hd | ⟨k, w, hx, hw, hright⟩
    · exact h.agrees x d v hd hv
    · have hparams : ∀ y ∈ xs, y ∉ f.params := fun y hy hmem =>
        hnew.notMem y hy (h.suits.params y (by rwa [params_bindAll]))
      have hload : (f.bindAll xs).Loads p c x w := by
        refine ⟨_, _, reference_bindAll hnew.nodup hparams hx, rfl, ?_⟩
        simp only [Config.fetch, hcells, List.reverse_append, List.reverse_reverse]
        rw [List.getElem?_append_right (by simp only [List.length_reverse]; omega)]
        rw [← hw]
        congr 1
        simp only [List.length_reverse]
        omega
      exact hv.unique hload ▸ hright

theorem fetch_param {ws rest : List Value} (hcells : c.cells = ws ++ rest)
    (hfp : c.fp = c.cells.length) {k : Nat} (hk : k < ws.length) :
    c.fetch (.refLocal k) = ws[k]? := by
  have hle : ws.length ≤ c.cells.length := by simp [hcells]
  have hindex : c.cells.length - 1 - (c.cells.length - 1 - k) = k := by omega
  simp only [Config.fetch]
  rw [if_pos (by omega), List.getElem?_reverse (by omega), hfp, hindex, hcells,
    List.getElem?_append_left hk]

/-- What a procedure finds under a name that is no parameter. -/
theorem loads_ofProcedure_cases {params captured : List Name} {group : List (Name × Label)}
    {x : Name} {v : Value} (h : (ofProcedure params captured group).Loads p c x v)
    (hx : x ∉ params) (hprim : Primitive.ofName? x = none) :
    (∃ k : Nat, captured[k]? = some x ∧ c.captured[k]? = some v) ∨
      ∃ l a, group.lookup x = some l ∧ addressOf p.entries l = .ok a ∧
        v = .closure a c.captured := by
  obtain ⟨i, j, hi, hj, hv⟩ := h
  rcases reference_ofProcedure_cases hi with ⟨k, hk, _⟩ | ⟨_, k, hk, rfl⟩ |
    ⟨_, _, q, hq, _⟩ | ⟨_, _, _, l, hl, rfl⟩
  · exact absurd (List.mem_of_getElem? hk) hx
  · cases hj
    exact .inl ⟨k, hk, hv⟩
  · rw [hprim] at hq
    exact nomatch hq
  · obtain ⟨a, ha, rfl⟩ := Results.map_eq_ok_iff.1 hj
    exact .inr ⟨l, a, hl, ha, (Option.some.inj hv).symm⟩

theorem loadsAll_ofProcedure {params captured : List Name} {group : List (Name × Label)}
    {ws rest : List Value} (hlen : ws.length = params.length) (hcells : c.cells = ws ++ rest)
    (hfp : c.fp = c.cells.length) (hcount : c.captured.length = captured.length) :
    (ofProcedure params captured group).LoadsAll p c := by
  intro x i j hi hj
  rcases reference_ofProcedure_cases hi with ⟨k, hx, rfl⟩ | ⟨_, k, hx, rfl⟩ |
    ⟨_, _, q, _, rfl⟩ | ⟨_, _, _, l, _, rfl⟩
  · cases hj
    have hk : k < ws.length := by
      rw [hlen]
      exact (List.getElem?_eq_some_iff.1 hx).1
    exact ⟨_, (fetch_param hcells hfp hk).trans (List.getElem?_eq_getElem hk)⟩
  · cases hj
    have hk : k < c.captured.length := by
      rw [hcount]
      exact (List.getElem?_eq_some_iff.1 hx).1
    exact ⟨_, List.getElem?_eq_getElem hk⟩
  · cases hj
    exact ⟨.prim q, by simp [Config.fetch, Primitive.ofIndex?_index]⟩
  · obtain ⟨a, _, rfl⟩ := Results.map_eq_ok_iff.1 hj
    exact ⟨_, rfl⟩

/-- A procedure that has just been entered finds its arguments, what it has captured, and the
closures of its group. -/
theorem holds_entered {params captured : List Name} {group : List (Name × Label)}
    {ws rest : List Value} (hnew : NewNames scope params)
    (hprim : ∀ x ∈ captured ++ scope, Primitive.ofName? x = none)
    (hbound : ∀ x d, find x = some d → x ∈ scope) (hlen : ws.length = params.length)
    (hcells : c.cells = ws ++ rest) (hfp : c.fp = c.cells.length)
    (hcount : c.captured.length = captured.length)
    (hvalues : ∀ (k : Nat) x d v, captured[k]? = some x → find x = some d →
      c.captured[k]? = some v → Right d v)
    (hgroup : ∀ x l a d, group.lookup x = some l → addressOf p.entries l = .ok a →
      find x = some d → Right d (.closure a c.captured))
    (hfind : ∀ x d, find' x = some d → find x = some d ∨
      ∃ (k : Nat) (w : Value), params[k]? = some x ∧ ws[k]? = some w ∧ Right d w) :
    (ofProcedure params captured group).Holds p (params ++ scope) find' Right c := by
  obtain ⟨hcaptured, hscope⟩ := List.forall_mem_append.1 hprim
  have hnames : ∀ x ∈ params ++ scope, Primitive.ofName? x = none :=
    List.forall_mem_append.2 ⟨hnew.notPrim, hscope⟩
  refine ⟨by rw [hfp]; rfl, ?_, hnames, ?_, loadsAll_ofProcedure hlen hcells hfp hcount, ?_⟩
  · exact suits_ofProcedure (fun x hx => List.mem_append_left scope hx) hnames hcaptured
  · intro x d hd
    rcases hfind x d hd with hd | ⟨k, w, hx, _, _⟩
    · exact List.mem_append_right params (hbound x d hd)
    · exact List.mem_append_left scope (List.mem_of_getElem? hx)
  · intro x d v hd hv
    rcases hfind x d hd with hd | ⟨k, w, hx, hw, hright⟩
    · have hmem := hbound x d hd
      rcases loads_ofProcedure_cases hv (fun hx => hnew.notMem x hx hmem) (hscope x hmem) with
        ⟨k, hx, hk⟩ | ⟨l, a, hl, ha, rfl⟩
      · exact hvalues k x d v hx hd hk
      · exact hgroup x l a d hl ha hd
    · have hk := (List.getElem?_eq_some_iff.1 hw).1
      have hload : (ofProcedure params captured group).Loads p c x w :=
        ⟨_, _, reference_param hnew.nodup hx, rfl, (fetch_param hcells hfp hk).trans hw⟩
      exact hv.unique hload ▸ hright

/-- How many cells higher the stack gets while the closures of a group are pushed. -/
def groupClimb (captured : Nat) : Nat → Nat
  | 0 => 0
  | members + 1 => max captured (groupClimb captured members + 1)

/-- The closures of a group are pushed in order; they all capture what the names were before. -/
theorem climbs_closeMembers {captured : List Name} {ms : List (Name × Label)} {f' : Frame}
    {code : Code} (hclose : f.closeMembers captured ms = .ok (code, f'))
    (hcode : p.HasCode c.pc code) (hin : f.Holds p scope find Right c)
    (hnew : ∀ x ∈ ms.map (·.1), x ∉ scope ∧ Primitive.ofName? x = none)
    (hcaptured : ∀ x ∈ captured, x ∉ ms.map (·.1)) :
    ∃ v ws, p.Climbs (groupClimb captured.length ms.length) c
        (c.after code.length v ws.reverse) ∧
      f'.Holds p scope find Right (c.after code.length v ws.reverse) ∧
      List.Forall₂ (fun m w => ∃ a vs, addressOf p.entries m.2 = .ok a ∧
        List.Forall₂ (f.Loads p c) captured vs ∧ w = .closure a vs) ms ws := by
  induction ms generalizing f c code with
  | nil =>
    simp only [closeMembers, Except.ok.injEq, Prod.mk.injEq] at hclose
    obtain ⟨rfl, rfl⟩ := hclose
    exact ⟨c.acc, [], Program.climbs_refl c, hin, .nil⟩
  | cons m ms ih =>
    obtain ⟨x, l⟩ := m
    obtain ⟨hx, hnew⟩ := List.forall_mem_cons.1 hnew
    obtain ⟨values, rest, hpush, hrest, rfl⟩ := closeMembers_cons_ok.1 hclose
    rw [List.append_assoc, List.cons_append, List.singleton_append] at hcode
    obtain ⟨a, vs, ha, hvs, hclimb⟩ := climbs_close hin.loads hpush hcode
    rw [Program.hasCode_append_iff] at hcode
    have hmove := Program.moves_push (c := c) (k := values.length + 1) hcode.2.2
      (.closure a vs) []
    have hin' := hin.bind hx.1 hx.2 (values.length + 1 + 1) (.closure a vs) (.closure a vs)
    have hcaptured' : ∀ y ∈ captured, y ∉ ms.map (·.1) := fun y hy hmem =>
      hcaptured y hy (List.mem_cons_of_mem _ hmem)
    obtain ⟨v, ws, hclimb', hin'', hws⟩ := ih hrest hcode.2.2.2 hin' hnew hcaptured'
    rw [Config.after_after] at hclimb' hin''
    have hlen : (values ++ [Inst.close captured.length l, .push] ++ rest).length =
        values.length + 1 + 1 + rest.length := by
      simp only [List.length_append, List.length_cons, List.length_nil]
    rw [hlen]
    refine ⟨v, .closure a vs :: ws, ?_, ?_, .cons ⟨a, vs, ha, hvs, rfl⟩ ?_⟩
    · rw [List.reverse_cons]
      have hpushed : p.Climbs 1 (c.after (values.length + 1) (.closure a vs) [])
          (c.after (values.length + 1 + 1) (.closure a vs) [.closure a vs]) :=
        Program.climbs_of_moves hmove (Nat.max_eq_right (Nat.le_succ _))
      have hsecond := hpushed.trans hclimb' (l := groupClimb captured.length ms.length + 1) (by
        simp only [Config.after, List.length_append, List.length_cons, List.length_nil]
        omega)
      refine hclimb.trans hsecond ?_
      simp only [Config.after, List.length_append, List.length_nil, List.length_cons, groupClimb]
      omega
    · rw [List.reverse_cons]
      exact hin''
    · refine hws.imp ?_
      rintro m w ⟨a', vs', ha', hvs', rfl⟩
      refine ⟨a', vs', ha', ?_, rfl⟩
      rw [List.forall₂_iff_get] at hvs' ⊢
      refine ⟨hvs'.1, fun i hi hi' => ?_⟩
      obtain ⟨j, j', hj, hj', hfetch⟩ := hvs'.2 i hi hi'
      have hne : captured.get ⟨i, hi⟩ ≠ x := by
        intro heq
        exact hcaptured _ (List.get_mem captured ⟨i, hi⟩) (List.mem_cons.2 (.inl heq))
      rw [f.reference_bind_of_ne hne] at hj
      exact Loads.of_after hin.loads ⟨j, j', hj, hj', hfetch⟩

end Frame

/-- Where a run goes on some instructions later in the same activation. -/
def Config.past (c : Config) (n : Nat) : Resume :=
  ⟨c.pc + n, c.fp, c.body, c.captured, c.cells⟩

/-- A procedure whose code is at an address, in a group and a scope. -/
structure Image.Procedure (M : Image) (captured : List Name) (group : List (Name × Label))
    (scope params : List Name) (body : Expr Nat) (a : Nat) : Prop where
  code : ∃ code, M.Compiles (.ofProcedure params captured group) (.tail params.length) body code ∧
    M.program.HasCode a code
  allowed : ∃ t, body.Allowed M.calls (some ⟨t, params.length⟩)
  newParams : NewNames scope params
  fresh : body.Fresh (params ++ scope)

namespace Image

variable {M : Image} {f : Frame} {ctx : Context} {scope : List Name} {code : Code} {t : Nat}
  {target : Option TailTarget}

/-- The names that a group captures. -/
abbrev capturedBy (ms : List (Member Nat (Expr Nat))) : List Name :=
  Expr.freeMembers (ms.map (·.name) ++ Primitive.names) ms

theorem procedure_of_fix {ms : List (Member Nat (Expr Nat))} {body : Expr Nat}
    (h : M.Compiles f ctx (.fix ms body t) code) (hfresh : (Expr.fix ms body t).Fresh scope)
    (hallowed : (Expr.fix ms body t).Allowed M.calls target) {m : Member Nat (Expr Nat)}
    (hm : m ∈ ms) :
    ∃ a, addressOf M.program.entries ⟨m.tag⟩ = .ok a ∧ M.Procedure (capturedBy ms)
      (groupLabels ms).reverse (ms.map (·.name) ++ scope) m.params m.body a := by
  obtain ⟨_, _, hprocs, _⟩ := compiles_fix_iff.1 h
  obtain ⟨cm, hcm, hblock⟩ := hprocs m hm
  obtain ⟨a, ha, hplaced⟩ := M.placed _ hblock
  obtain ⟨hparams, hbody⟩ := Expr.freshMembers_iff.1 hfresh.2.1 m hm
  exact ⟨a, ha, ⟨cm, hcm, hplaced⟩, ⟨m.tag, Expr.atCallsMembers_iff.1 hallowed.1 m hm⟩, hparams,
    hbody⟩

theorem notPrim_of_mem_captured {ms : List (Member Nat (Expr Nat))}
    (hscope : ∀ x ∈ scope, Primitive.ofName? x = none)
    (hnew : NewNames scope (ms.map (·.name))) :
    ∀ x ∈ capturedBy ms ++ (ms.map (·.name) ++ scope), Primitive.ofName? x = none :=
  List.forall_mem_append.2 ⟨fun _ hx => (Expr.notMem_and_notPrim_of_mem_freeMembers hx).2,
    List.forall_mem_append.2 ⟨hnew.notPrim, hscope⟩⟩

end Image

end MiniScheme
