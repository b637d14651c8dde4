import MiniScheme.Proofs.Poised
import MiniScheme.Proofs.Security

/-!
# Running typed code

The code of a typed tree is secure wherever the rest of the run is secure for every value of its
type. For the procedures of a group, which may call each other, this is shown for ever more
instructions; all else follows the tree.
-/

namespace MiniScheme

namespace Image

variable {M : Image} {good : Value → Prop} {n m : Nat}

/-- The machine is about to run the code of an expression, with values that keep the types of a
scope. -/
abbrev PoisedAt (M : Image) (good : Value → Prop) (n : Nat) (names : List Name) (scope : TypeScope)
    (target : Option TailTarget) (e : Expr Nat) (c : Config) (r : Resume) : Prop :=
  M.Poised names (List.lookup · scope) (fun ty v => M.program.Keeps good n v ty) target e c r

/-- The code of an expression is secure where the rest of the run is. -/
def Secured (M : Image) (good : Value → Prop) (e : Expr Nat) : Prop :=
  ∀ {n : Nat} {names : List Name} {scope : TypeScope} {target : Option TailTarget} {ty : Ty}
    {c : Config} {r : Resume}, M.PoisedAt good n names scope target e c r → Typed scope e ty →
    M.program.Awaits good n ty r → M.program.Secure good n c

variable {names : List Name} {scope : TypeScope} {target : Option TailTarget} {c : Config}
  {r : Resume} {e : Expr Nat} {ty : Ty}

theorem PoisedAt.mono (h : M.PoisedAt good n names scope target e c r) (hmn : m ≤ n) :
    M.PoisedAt good m names scope target e c r :=
  h.imp fun _ _ hv => hv.mono hmn

/-! ### Atoms -/

theorem secured_lit (v : Literal) (t : Nat) : M.Secured good (.lit v t) := by
  intro n names scope target ty c r h htyped hr
  have hty : ty = v.ty := by
    cases htyped
    rfl
  exact (hr n (Nat.le_refl n) (.lit v) (Program.keeps_lit_iff.2 hty)).of_reaches h.lit.reaches

theorem secured_var (x : Name) (t : Nat) : M.Secured good (.var x t) := by
  intro n names scope target ty c r h htyped hr
  obtain ⟨v, hclimb, hbound, hprim⟩ := h.var
  have hkeeps : M.program.Keeps good n v ty := by
    cases htyped with
    | bound h => exact hbound ty h
    | @primitive _ _ _ _ p _ hx hty =>
      rw [hprim p hx]
      exact Program.keeps_prim_iff.2 hty
  exact (hr n (Nat.le_refl n) v hkeeps).of_reaches hclimb.reaches

/-! ### Branches and sequences -/

theorem secured_cond {test yes no : Expr Nat} (htest : M.Secured good test)
    (hyes : M.Secured good yes) (hno : M.Secured good no) (t : Nat) :
    M.Secured good (.cond test yes no t) := by
  intro n names scope target ty c r h htyped hr
  cases htyped with
  | cond htypedTest htypedYes htypedNo =>
  obtain ⟨k, hpoised, hbranch⟩ := h.cond
  refine htest hpoised htypedTest fun m hm v _ => ?_
  obtain ⟨j, hclimb, hpoised'⟩ := hbranch v
  refine Program.Secure.of_reaches ?_ hclimb.reaches
  cases hfalse : v.isFalse with
  | true =>
    rw [hfalse] at hpoised'
    exact hno (PoisedAt.mono hpoised' hm) htypedNo (hr.mono hm)
  | false =>
    rw [hfalse] at hpoised'
    exact hyes (PoisedAt.mono hpoised' hm) htypedYes (hr.mono hm)

theorem secured_seq {items : List (Expr Nat)} (hitems : ∀ e ∈ items, M.Secured good e) (t : Nat) :
    M.Secured good (.seq items t) := by
  induction items with
  | nil => exact fun h => absurd h not_poised_seq_nil
  | cons e es ih =>
    obtain ⟨he, hes⟩ := List.forall_mem_cons.1 hitems
    intro n names scope target ty c r h htyped hr
    cases htyped with
    | last htyped => exact he h.seq_one htyped hr
    | before htyped htypedRest =>
      obtain ⟨k, hpoised, hrest⟩ := h.seq_cons
      refine he hpoised htyped fun m hm v _ => ?_
      exact ih hes (PoisedAt.mono (hrest v) hm) htypedRest (hr.mono hm)

/-! ### Calls -/

theorem secured_args {es : List (Expr Nat)} (hes : ∀ e ∈ es, M.Secured good e) {tys : List Ty}
    (htyped : List.Forall₂ (Typed scope) es tys) {k : Nat}
    (h : M.PoisedArgs names (List.lookup · scope) (fun ty v => M.program.Keeps good n v ty) es c k)
    (hrest : ∀ m ≤ n, ∀ v ws, List.Forall₂ (M.program.Keeps good m) ws tys →
      M.program.Secure good m (c.after k v ws)) : M.program.Secure good n c := by
  induction htyped generalizing n k with
  | nil =>
    obtain rfl := h.nil
    exact hrest n (Nat.le_refl n) c.acc [] .nil
  | @cons e ty es tys htypedFirst htypedRest ih =>
    obtain ⟨he, hes⟩ := List.forall_mem_cons.1 hes
    obtain ⟨j, hargs, hfirst⟩ := h.cons
    refine ih hes hargs fun m hm v ws hws => ?_
    obtain ⟨i, hpoised, hpush⟩ := hfirst v ws (htypedRest.length_eq.trans hws.length_eq.symm)
    refine he (PoisedAt.mono hpoised hm) htypedFirst fun l hl w hw => ?_
    refine Program.Secure.of_reaches ?_ (hpush w).reaches
    exact hrest l (Nat.le_trans hl hm) w (w :: ws) (.cons hw (Program.keeps_mono_list hws hl))

theorem secured_call {func : Expr Nat} {args : List (Expr Nat)} (hfunc : M.Secured good func)
    (hargs : ∀ e ∈ args, M.Secured good e) {sig : Signature} (htypedFunc : Typed scope func sig.ty)
    (htypedArgs : List.Forall₂ (Typed scope) args sig.params)
    (h : M.PoisedCall names (List.lookup · scope) (fun ty v => M.program.Keeps good n v ty) func
      args c r) (hr : M.program.Awaits good n sig.result r) : M.program.Secure good n c := by
  obtain ⟨k, hpoisedArgs, hrest⟩ := h.run
  refine secured_args hargs htypedArgs hpoisedArgs fun m hm v ws hws => ?_
  obtain ⟨j, hpoised, hcall⟩ := hrest v ws (htypedArgs.length_eq.trans hws.length_eq.symm)
  refine hfunc (PoisedAt.mono hpoised hm) htypedFunc fun l hl w hw => ?_
  obtain ⟨c', hclimb, ⟨is, hcode⟩, hacc, hcells⟩ := hcall w
  refine Program.Secure.of_reaches ?_ hclimb.reaches
  rw [← hacc] at hw
  exact Program.secure_apply hw (Program.keeps_mono_list hws hl) hcode hcells
    (hr.mono (Nat.le_trans hl hm))

theorem secured_app {func : Expr Nat} {args : List (Expr Nat)} (hfunc : M.Secured good func)
    (hargs : ∀ e ∈ args, M.Secured good e) (t : Nat) : M.Secured good (.app func args t) := by
  intro n names scope target ty c r h htyped hr
  cases htyped with
  | @app _ _ _ _ sig htypedFunc hlen htypedArgs =>
  have htypedArgs' := List.forall₂_iff_zip.2 ⟨hlen, fun {e ty} => htypedArgs e ty⟩
  rcases h.app with ⟨_, back, _, hmove, hcall, hreturn⟩ | ⟨_, _, hcall, _⟩
  · refine Program.Secure.of_reaches ?_ (.single hmove)
    exact secured_call hfunc hargs htypedFunc htypedArgs' hcall fun m hm v hv =>
      (hr m hm v hv).of_reaches (hreturn v).reaches
  · exact secured_call hfunc hargs htypedFunc htypedArgs' hcall hr

/-! ### Scopes -/

theorem extends_enter {ws : List Value} {tys : List Ty}
    (hws : List.Forall₂ (M.program.Keeps good n) ws tys) (xs : List Name) :
    Extends (List.lookup · scope) (List.lookup · (scope.enter xs tys))
      (fun ty v => M.program.Keeps good n v ty) xs ws := by
  intro x ty hty
  rcases TypeScope.lookup_enter_cases hty with hty | ⟨k, hx, hk⟩
  · exact .inl hty
  · obtain ⟨w, hw, hkeeps⟩ := getElem?_of_forall₂ hws.flip hk
    exact .inr ⟨k, w, hx, hw, hkeeps⟩

theorem secured_bindings {bs : List (Name × Expr Nat)} (hbs : ∀ b ∈ bs, M.Secured good b.2)
    {tys : List Ty} (htyped : List.Forall₂ (fun b ty => Typed scope b.2 ty) bs tys) {k : Nat}
    {f' : Frame}
    (h : M.PoisedBindings names (List.lookup · scope) (fun ty v => M.program.Keeps good n v ty) bs
      c k f')
    (hrest : ∀ m ≤ n, ∀ v ws, List.Forall₂ (M.program.Keeps good m) ws tys →
      f'.Holds M.program names (List.lookup · scope) (fun ty v => M.program.Keeps good m v ty)
        (c.after k v ws.reverse) →
      M.program.Secure good m (c.after k v ws.reverse)) : M.program.Secure good n c := by
  induction htyped generalizing n c k with
  | nil =>
    obtain ⟨rfl, hin⟩ := h.nil
    exact hrest n (Nat.le_refl n) c.acc [] .nil hin
  | @cons b ty bs tys htypedFirst _ ih =>
    obtain ⟨x, e⟩ := b
    obtain ⟨he, hbs⟩ := List.forall_mem_cons.1 hbs
    obtain ⟨j, i, rfl, hpoised, hbindings⟩ := h.cons
    refine he hpoised htypedFirst fun m hm w hw => ?_
    obtain ⟨hpush, hbindings⟩ := hbindings w
    refine Program.Secure.of_reaches ?_ hpush.reaches
    refine ih hbs (hbindings.imp fun _ _ hv => hv.mono hm) fun l hl v ws hws hin => ?_
    rw [Config.after_after, ← List.reverse_cons] at hin ⊢
    exact hrest l (Nat.le_trans hl hm) v (w :: ws) (.cons (hw.mono hl) hws) hin

theorem secured_letIn {bs : List (Name × Expr Nat)} {body : Expr Nat}
    (hbs : ∀ b ∈ bs, M.Secured good b.2) (hbody : M.Secured good body) (t : Nat) :
    M.Secured good (.letIn bs body t) := by
  intro n names scope target ty c r h htyped hr
  cases htyped with
  | @letIn _ _ _ _ tys _ hlen htypedInits htypedBody =>
  have htypedInits' := List.forall₂_iff_zip.2 ⟨hlen, fun {b ty} => htypedInits b ty⟩
  obtain ⟨k, f', hinits, hscope⟩ := h.letIn
  refine secured_bindings hbs htypedInits' hinits fun m hm v ws hws hin => ?_
  exact hbody (hscope _ _ v ws (hlen.trans hws.length_eq.symm) hin (extends_enter hws _))
    htypedBody (hr.mono hm)

/-! ### Procedures -/

/-- A procedure of a group whose body has the types of a signature. -/
structure Callable (M : Image) (good : Value → Prop) (captured : List Name)
    (group : List (Name × Label)) (names : List Name) (scope : TypeScope) (sig : Signature)
    (params : List Name) (body : Expr Nat) (a : Nat) : Prop
    extends M.Procedure captured group names params body a where
  secured : M.Secured good body
  arity : sig.params.length = params.length
  typed : Typed (scope.enter params sig.params) body sig.result

/-- The induction is on the number of instructions: entering a procedure takes one, after which
the closures of its group are only asked to keep their types for fewer. -/
theorem keeps_closure_of_callable {captured : List Name} {group : List (Name × Label)}
    {sig : Signature} {params : List Name} {body : Expr Nat} {a : Nat} {vs : List Value}
    (hproc : M.Callable good captured group names scope sig params body a)
    (hprim : ∀ x ∈ captured ++ names, Primitive.ofName? x = none)
    (hbound : ∀ x ty, scope.lookup x = some ty → x ∈ names)
    (hgroup : ∀ x l a ty, group.lookup x = some l → addressOf M.program.entries l = .ok a →
      scope.lookup x = some ty → ∃ sig params body, ty = sig.ty ∧
        M.Callable good captured group names scope sig params body a)
    (hcount : vs.length = captured.length)
    (hvalues : ∀ (k : Nat) x ty v, captured[k]? = some x → scope.lookup x = some ty →
      vs[k]? = some v → M.program.Keeps good n v ty) :
    M.program.Keeps good n (.closure a vs) sig.ty := by
  induction n using Nat.strongRecOn generalizing sig params body a with
  | ind n ih =>
  refine Program.keeps_closure_iff.2 ⟨sig, rfl, fun m hm args r acc hargs hr => ?_⟩
  have hvalues' : ∀ (k : Nat) x ty v, captured[k]? = some x → scope.lookup x = some ty →
      vs[k]? = some v → M.program.Keeps good m v ty := fun k x ty v hx hty hv =>
    (hvalues k x ty v hx hty hv).mono (Nat.le_of_lt hm)
  have hin : (Frame.ofProcedure params captured group).Holds M.program (params ++ names)
      (List.lookup · (scope.enter params sig.params)) (fun ty v => M.program.Keeps good m v ty)
      ⟨acc, a, (args ++ r.saved).length, a, vs, args ++ r.saved⟩ := by
    refine Frame.holds_entered hproc.newParams hprim hbound (hargs.length_eq.trans hproc.arity)
      rfl rfl hcount hvalues' ?_ (extends_enter hargs params)
    intro x l a' ty hl ha' hty
    obtain ⟨sig', params', body', rfl, hproc'⟩ := hgroup x l a' ty hl ha' hty
    exact ih m hm hproc' hvalues'
  obtain ⟨target, hpoised⟩ :=
    hproc.toProcedure.poised hin rfl (hargs.length_eq.trans hproc.arity) rfl
  exact hproc.secured hpoised hproc.typed hr

theorem secured_lambda {body : Expr Nat} (hbody : M.Secured good body) (params : List Name)
    (t : Nat) : M.Secured good (.lambda params body t) := by
  intro n names scope target ty c r h htyped hr
  cases htyped with
  | @lambda _ _ _ _ sig hlenParams htypedBody =>
  obtain ⟨a, vs, hclimb, hproc, hlen, hvalues⟩ := h.lambda
  refine (hr n (Nat.le_refl n) (.closure a vs) ?_).of_reaches hclimb.reaches
  exact keeps_closure_of_callable ⟨hproc, hbody, hlenParams, htypedBody⟩
    (List.forall_mem_append.2 ⟨fun x => Expr.notPrim_of_mem_free, h.notPrim⟩) h.bound nofun hlen
    hvalues

section Group

variable {ms : List (Member Nat (Expr Nat))} {sigs : List Signature}
  (hbound : ∀ x ty, scope.lookup x = some ty → x ∈ names)

include hbound

theorem mem_of_lookup_enter_members (x : Name) (ty : Ty)
    (hty : (scope.enter (ms.map (·.name)) (sigs.map Signature.ty)).lookup x = some ty) :
    x ∈ ms.map (·.name) ++ names := by
  rcases TypeScope.lookup_enter_members hty with hty | ⟨k, m, _, hm, rfl, _⟩
  · exact List.mem_append_right _ (hbound x ty hty)
  · exact List.mem_append_left names (List.mem_map_of_mem (List.mem_of_getElem? hm))

/-- A label of a group belongs to the member whose type the scope gives. -/
theorem member_of_lookup_group (hnew : NewNames names (ms.map (·.name))) {x : Name} {l : Label}
    {ty : Ty} (hl : (groupLabels ms).reverse.lookup x = some l)
    (hty : (scope.enter (ms.map (·.name)) (sigs.map Signature.ty)).lookup x = some ty) :
    ∃ m sig, (m, sig) ∈ ms.zip sigs ∧ l = ⟨m.tag⟩ ∧ ty = sig.ty := by
  obtain ⟨m, hm, rfl, rfl⟩ := mem_of_lookup_groupLabels hl
  rcases TypeScope.lookup_enter_members hty with hty | ⟨k, m', sig, hm', hname, hzip, rfl⟩
  · exact absurd (hbound _ ty hty) (hnew.notMem _ (List.mem_map_of_mem hm))
  · obtain rfl := List.inj_on_of_nodup_map hnew.nodup (List.mem_of_getElem? hm') hm hname
    exact ⟨m', sig, hzip, rfl, rfl⟩

end Group

/-- The closures of a group keep the types of its members. -/
theorem keeps_member {ms : List (Member Nat (Expr Nat))} {sigs : List Signature}
    (hmembers : ∀ m sig, (m, sig) ∈ ms.zip sigs → ∃ a,
      addressOf M.program.entries ⟨m.tag⟩ = .ok a ∧
      M.Callable good (capturedBy ms) (groupLabels ms).reverse (ms.map (·.name) ++ names)
        (scope.enter (ms.map (·.name)) (sigs.map Signature.ty)) sig m.params m.body a)
    (hnew : NewNames names (ms.map (·.name))) (hprim : ∀ x ∈ names, Primitive.ofName? x = none)
    (hbound : ∀ x ty, scope.lookup x = some ty → x ∈ names)
    {m : Member Nat (Expr Nat)} {sig : Signature} (hm : (m, sig) ∈ ms.zip sigs) {a : Nat}
    {vs : List Value} (ha : addressOf M.program.entries ⟨m.tag⟩ = .ok a)
    (hvs : Captures (capturedBy ms) (List.lookup · scope)
      (fun ty v => M.program.Keeps good n v ty) vs) :
    M.program.Keeps good n (.closure a vs) sig.ty := by
  obtain ⟨a', ha', hcallable⟩ := hmembers m sig hm
  rw [ha] at ha'
  cases ha'
  refine keeps_closure_of_callable hcallable (notPrim_of_mem_captured hprim hnew)
    (mem_of_lookup_enter_members hbound) ?_ hvs.1 ?_
  · intro x l a' ty hl ha' hty
    obtain ⟨m', sig', hzip, rfl, rfl⟩ := member_of_lookup_group hbound hnew hl hty
    obtain ⟨a'', ha'', hcallable'⟩ := hmembers m' sig' hzip
    rw [ha'] at ha''
    cases ha''
    exact ⟨sig', _, _, rfl, hcallable'⟩
  · intro k x ty w hx hty hw
    rcases TypeScope.lookup_enter_members hty with hty | ⟨j, m', _, hm', rfl, _⟩
    · exact hvs.2 k x ty w hx hty hw
    · have hmem := List.mem_map_of_mem (f := (·.name)) (List.mem_of_getElem? hm')
      exact absurd hmem (Expr.notMem_and_notPrim_of_mem_freeMembers (List.mem_of_getElem? hx)).1

theorem secured_fix {ms : List (Member Nat (Expr Nat))} {body : Expr Nat}
    (hms : ∀ m ∈ ms, M.Secured good m.body) (hbody : M.Secured good body) (t : Nat) :
    M.Secured good (.fix ms body t) := by
  intro n names scope target ty c r h htyped hr
  cases htyped with
  | @fix _ _ _ _ sigs _ hlenSigs hlenParams htypedMembers htypedBody =>
  obtain ⟨k, v, ws, hclimb, _, hprocs, hws, hscope⟩ := h.fix
  have hmembers : ∀ m sig, (m, sig) ∈ ms.zip sigs → ∃ a,
      addressOf M.program.entries ⟨m.tag⟩ = .ok a ∧
      M.Callable good (capturedBy ms) (groupLabels ms).reverse (ms.map (·.name) ++ names)
        (scope.enter (ms.map (·.name)) (sigs.map Signature.ty)) sig m.params m.body a := by
    intro m sig hzip
    have hm := (List.of_mem_zip hzip).1
    obtain ⟨a, ha, hproc⟩ := hprocs m hm
    exact ⟨a, ha, hproc, hms m hm, hlenParams m sig hzip, htypedMembers m sig hzip⟩
  have hextends : Extends (List.lookup · scope)
      (List.lookup · (scope.enter (ms.map (·.name)) (sigs.map Signature.ty)))
      (fun ty v => M.program.Keeps good n v ty) (ms.map (·.name)) ws := by
    intro x ty hty
    rcases TypeScope.lookup_enter_members hty with hty | ⟨i, m, sig, hm, rfl, hzip, rfl⟩
    · exact .inl hty
    · obtain ⟨a, vs, hw, ha, hvs⟩ := hws i m hm
      exact .inr ⟨i, _, by simp [hm], hw,
        keeps_member hmembers h.fresh.1 h.notPrim h.bound hzip ha hvs⟩
  exact (hbody (hscope _ hextends) htypedBody hr).of_reaches hclimb.reaches

/-! ### The whole program -/

theorem secured (M : Image) (good : Value → Prop) (e : Expr Nat) : M.Secured good e := by
  induction e with
  | lit v t => exact secured_lit v t
  | var x t => exact secured_var x t
  | cond test yes no t htest hyes hno => exact secured_cond htest hyes hno t
  | lambda params body t hbody => exact secured_lambda hbody params t
  | assign x value t _ => exact fun h => absurd h not_poised_assign
  | app func args t hfunc hargs => exact secured_app hfunc hargs t
  | letIn bindings body t hbindings hbody => exact secured_letIn hbindings hbody t
  | letrec bindings body t _ _ => exact fun h => absurd h not_poised_letrec
  | fix members body t hmembers hbody => exact secured_fix hmembers hbody t
  | seq items t hitems => exact secured_seq hitems t

end Image

end MiniScheme
