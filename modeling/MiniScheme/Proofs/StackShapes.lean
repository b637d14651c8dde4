import MiniScheme.Proofs.TypedCode

/-!
# Shapes of the stack

Above its frame pointer a running procedure keeps values and the links of calls it has not entered
yet. Every point of the code of a typed tree expects one such shape: the generator knows how many
cells there are, and typing knows what is in them.
-/

namespace MiniScheme

/-- What a procedure pushes at once: a value, or the link of a call that is to give a value. -/
inductive Cell where
  | value (ty : Ty)
  | link (ty : Ty)

def Cell.size : Cell → Nat
  | value _ => 1
  | link _ => 3

/-- What is above the frame pointer, the latest first. -/
abbrev Shape := List Cell

namespace Shape

def size : Shape → Nat
  | [] => 0
  | cell :: shape => cell.size + size shape

/-- Values on top of each other, the first one on top. -/
def values (tys : List Ty) : Shape :=
  tys.map .value

theorem size_nil : size [] = 0 := rfl

theorem size_cons (cell : Cell) (shape : Shape) : size (cell :: shape) = cell.size + size shape :=
  rfl

theorem size_append (above below : Shape) : size (above ++ below) = size above + size below := by
  induction above with
  | nil => exact (Nat.zero_add _).symm
  | cons cell above ih =>
    show cell.size + size (above ++ below) = cell.size + size above + size below
    omega

theorem size_values (tys : List Ty) : size (values tys) = tys.length := by
  induction tys with
  | nil => rfl
  | cons ty tys ih =>
    show 1 + size (values tys) = tys.length + 1
    omega

theorem values_append (tys tys' : List Ty) : values (tys ++ tys') = values tys ++ values tys' :=
  List.map_append ..

theorem values_reverse_cons (ty : Ty) (tys : List Ty) (shape : Shape) :
    values (ty :: tys).reverse ++ shape = values tys.reverse ++ .value ty :: shape := by
  simp [values]

end Shape

/-- Types of what a running procedure works with. The main block gives its value to nobody. -/
structure Activation where
  params : List Ty
  captured : List Ty
  result : Option Ty

def Activation.main : Activation :=
  ⟨[], [], none⟩

def Signature.activation (sig : Signature) (captured : List Ty) : Activation :=
  ⟨sig.params, captured, some sig.result⟩

/-- A scope gives names their types. -/
abbrev TypeScope.HasTypes (scope : TypeScope) : List Name → List Ty → Prop :=
  List.Forall₂ fun x ty => scope.lookup x = some ty

open Shape

namespace Image

/-- At an address is a procedure with a signature, in a group and a scope. -/
def HasProcedure (M : Image) (captured : List Name) (group : List (Name × Label))
    (names : List Name) (scope : TypeScope) (sig : Signature) (a : Nat) : Prop :=
  ∃ params body, M.Procedure captured group names params body a ∧
    sig.params.length = params.length ∧ Typed (scope.enter params sig.params) body sig.result

/-- A scope gives the members of a group types that their procedures have. -/
structure HasGroup (M : Image) (captured : List Name) (group : List (Name × Label))
    (names : List Name) (scope : TypeScope) : Prop where
  notPrim : ∀ x ∈ captured ++ names, Primitive.ofName? x = none
  bound : ∀ x ty, scope.lookup x = some ty → x ∈ names
  members : ∀ x l a ty, group.lookup x = some l → addressOf M.program.entries l = .ok a →
    scope.lookup x = some ty → ∃ sig, ty = sig.ty ∧ M.HasProcedure captured group names scope sig a

/-- At an address is a procedure with a signature that has captured values of some types. -/
def Provides (M : Image) (a : Nat) (sig : Signature) (tys : List Ty) : Prop :=
  ∃ captured group names scope, M.HasGroup captured group names scope ∧
    M.HasProcedure captured group names scope sig a ∧ scope.HasTypes captured tys

/-- What a reference loads has a type, above whatever the running procedure was called from. -/
inductive Fetches (M : Image) (act : Activation) (shape : Shape) : Inst Nat → Ty → Prop where
  | prim {q : Primitive} {ty : Ty} (hq : q.HasTy ty) : Fetches M act shape (.refGlobal q.index) ty
  | param {k : Nat} {ty : Ty} (hk : act.params[k]? = some ty) :
      Fetches M act shape (.refLocal k) ty
  | temp {above below : Shape} {ty : Ty} (hshape : shape = above ++ .value ty :: below) :
      Fetches M act shape (.refTemp (size below)) ty
  | captured {k : Nat} {ty : Ty} (hk : act.captured[k]? = some ty) :
      Fetches M act shape (.refFree k) ty
  | member {a : Nat} {sig : Signature} (ha : M.Provides a sig act.captured) :
      Fetches M act shape (.refRec a) sig.ty

/-- The code at an address can go on in an activation with a shape of the stack, and with a value
of a type in the accumulator if one is given. -/
inductive Accepts (M : Image) (act : Activation) : Nat → Shape → Option Ty → Prop where
  | const {pc : Nat} {shape : Shape} {acc : Option Ty} {v : Literal} {is : Code}
      (hcode : M.program.HasCode pc (.const v :: is))
      (hrest : Accepts M act (pc + 1) shape (some v.ty)) : Accepts M act pc shape acc
  | fetch {pc : Nat} {shape : Shape} {acc : Option Ty} {i : Inst Label} {j : Inst Nat} {ty : Ty}
      {is : Code} (hcode : M.program.HasCode pc (i :: is))
      (hj : i.mapAddress (addressOf M.program.entries) = .ok j) (hty : M.Fetches act shape j ty)
      (hrest : Accepts M act (pc + 1) shape (some ty)) : Accepts M act pc shape acc
  | push {pc : Nat} {shape : Shape} {ty : Ty} {is : Code}
      (hcode : M.program.HasCode pc (.push :: is))
      (hrest : Accepts M act (pc + 1) (.value ty :: shape) (some ty)) :
      Accepts M act pc shape (some ty)
  | close {pc : Nat} {shape : Shape} {acc : Option Ty} {l : Label} {a : Nat} {sig : Signature}
      {tys : List Ty} {is : Code} (hcode : M.program.HasCode pc (.close tys.length l :: is))
      (ha : addressOf M.program.entries l = .ok a) (hproc : M.Provides a sig tys)
      (hrest : Accepts M act (pc + 1) shape (some sig.ty)) :
      Accepts M act pc (values tys.reverse ++ shape) acc
  | test {pc n : Nat} {shape : Shape} {acc : Option Ty} {is : Code}
      (hcode : M.program.HasCode pc (.test n :: is)) (hyes : Accepts M act (pc + 1) shape acc)
      (hno : Accepts M act (pc + n) shape acc) : Accepts M act pc shape acc
  | jump {pc n : Nat} {shape : Shape} {acc : Option Ty} {is : Code}
      (hcode : M.program.HasCode pc (.jump n :: is)) (hrest : Accepts M act (pc + n) shape acc) :
      Accepts M act pc shape acc
  | frame {pc n : Nat} {shape : Shape} {acc : Option Ty} {ty : Ty} {is : Code}
      (hcode : M.program.HasCode pc (.frame n :: is))
      (hcall : Accepts M act (pc + 1) (.link ty :: shape) acc)
      (hrest : Accepts M act (pc + n) shape (some ty)) : Accepts M act pc shape acc
  | apply {pc : Nat} {shape : Shape} {sig : Signature} {is : Code}
      (hcode : M.program.HasCode pc (.apply :: is)) :
      Accepts M act pc (values sig.params ++ .link sig.result :: shape) (some sig.ty)
  | shift {pc : Nat} {sig : Signature} {tys : List Ty} {is : Code}
      (hcode : M.program.HasCode pc
        (.shift sig.params.length (tys.length + act.params.length) :: .apply :: is))
      (hresult : act.result = some sig.result) :
      Accepts M act pc (values sig.params ++ values tys) (some sig.ty)
  | pop {pc : Nat} {shape : Shape} {acc : Option Ty} {tys : List Ty} {is : Code}
      (hcode : M.program.HasCode pc (.pop tys.length :: is))
      (hrest : Accepts M act (pc + 1) shape acc) : Accepts M act pc (values tys ++ shape) acc
  | ret {pc : Nat} {tys : List Ty} {ty : Ty} {is : Code}
      (hcode : M.program.HasCode pc (.ret (tys.length + act.params.length) :: is))
      (hresult : act.result = some ty) : Accepts M act pc (values tys) (some ty)
  | halt {pc : Nat} {acc : Option Ty} {is : Code}
      (hcode : M.program.HasCode pc (.halt :: is)) (hact : act = .main) : Accepts M act pc [] acc

/-- What becomes of the value of an expression is right for its type. -/
def Receives (M : Image) (ctx : Context) (act : Activation) (pc : Nat) (shape : Shape)
    (ty : Ty) : Prop :=
  match ctx with
  | .value => M.Accepts act pc shape (some ty)
  | .tail cells => act.result = some ty ∧
    ∃ tys, shape = values tys ∧ cells = tys.length + act.params.length

variable {M : Image} {act : Activation} {pc pc' : Nat} {shape : Shape} {acc : Option Ty} {ty : Ty}
  {ctx : Context}

theorem Fetches.append {j : Inst Nat} (h : M.Fetches act shape j ty) (above : Shape) :
    M.Fetches act (above ++ shape) j ty := by
  cases h with
  | prim hq => exact .prim hq
  | param hk => exact .param hk
  | temp hshape =>
    rw [hshape, ← List.append_assoc]
    exact .temp rfl
  | captured hk => exact .captured hk
  | member ha => exact .member ha

theorem Accepts.move (h : M.Accepts act pc' shape acc) (hpc : pc = pc') :
    M.Accepts act pc shape acc :=
  hpc ▸ h

theorem Receives.move (h : M.Receives ctx act pc' shape ty) (hpc : pc = pc') :
    M.Receives ctx act pc shape ty :=
  hpc ▸ h

theorem accepts_leave (hcode : M.program.HasCode pc ctx.leave)
    (h : M.Receives ctx act (pc + ctx.leave.length) shape ty) :
    M.Accepts act pc shape (some ty) := by
  cases ctx with
  | value => exact h
  | tail cells =>
    obtain ⟨hresult, tys, rfl, rfl⟩ := h
    exact .ret hcode hresult

end Image

/-! ### Types of free names -/

theorem TypeScope.lookup_enter_of_notMem {scope : TypeScope} {xs : List Name} {x : Name}
    (hx : x ∉ xs) (tys : List Ty) : (scope.enter xs tys).lookup x = scope.lookup x := by
  have hnone : (xs.zip tys).reverse.lookup x = none := by
    refine List.lookup_eq_none_iff.2 fun b hb => ?_
    have hmem := (List.of_mem_zip (List.mem_reverse.1 hb)).1
    have hne : x ≠ b.1 := by
      rintro rfl
      exact hx hmem
    simpa using hne
  rw [enter, List.lookup_append, hnone, Option.none_or]

theorem Typed.lookup_of_freeIn {scope : TypeScope} {e : Expr Nat} {ty : Ty} {x : Name}
    (h : Typed scope e ty) (hx : e.FreeIn x) (hprim : Primitive.ofName? x = none) :
    ∃ ty, scope.lookup x = some ty := by
  induction h with
  | lit => exact (Expr.freeIn_lit.1 hx).elim
  | bound h =>
    obtain rfl := Expr.freeIn_var.1 hx
    exact ⟨_, h⟩
  | primitive _ h _ =>
    obtain rfl := Expr.freeIn_var.1 hx
    rw [hprim] at h
    exact nomatch h
  | cond _ _ _ htest hyes hno =>
    rcases Expr.freeIn_cond.1 hx with hx | hx | hx
    · exact htest hx
    · exact hyes hx
    · exact hno hx
  | lambda _ _ hbody =>
    obtain ⟨hx, hparams⟩ := Expr.freeIn_lambda.1 hx
    rw [← TypeScope.lookup_enter_of_notMem hparams]
    exact hbody hx
  | app _ hlen _ hfunc hargs =>
    rcases Expr.freeIn_app.1 hx with hx | ⟨e, he, hx⟩
    · exact hfunc hx
    · obtain ⟨ty, hzip⟩ := exists_of_mem_zip hlen he
      exact hargs e ty hzip hx
  | letIn hlen _ _ hbindings hbody =>
    rcases Expr.freeIn_letIn.1 hx with ⟨b, hb, hx⟩ | ⟨hx, hnames⟩
    · obtain ⟨ty, hzip⟩ := exists_of_mem_zip hlen hb
      exact hbindings b ty hzip hx
    · rw [← TypeScope.lookup_enter_of_notMem hnames]
      exact hbody hx
  | fix hlen _ _ _ hmembers hbody =>
    obtain ⟨hx, hnames⟩ := Expr.freeIn_fix.1 hx
    rw [← TypeScope.lookup_enter_of_notMem hnames]
    rcases hx with ⟨m, hm, hx, hparams⟩ | hx
    · obtain ⟨sig, hzip⟩ := exists_of_mem_zip hlen hm
      rw [← TypeScope.lookup_enter_of_notMem hparams]
      exact hmembers m sig hzip hx
    · exact hbody hx
  | last _ he =>
    obtain ⟨e, hmem, hx⟩ := Expr.freeIn_seq.1 hx
    cases List.mem_singleton.1 hmem
    exact he hx
  | before _ _ he hes =>
    obtain ⟨item, hmem, hitem⟩ := Expr.freeIn_seq.1 hx
    rcases List.mem_cons.1 hmem with rfl | hmem
    · exact he hitem
    · exact hes (Expr.freeIn_seq.2 ⟨item, hmem, hitem⟩)

/-! ### Frames -/

/-- In an activation with a shape of the stack, a frame loads names with values of the types that
a scope gives them. -/
def Frame.Fetches (f : Frame) (M : Image) (scope : TypeScope) (act : Activation)
    (shape : Shape) : Prop :=
  ∀ x ty i j, scope.lookup x = some ty → f.reference x = .ok i →
    i.mapAddress (addressOf M.program.entries) = .ok j → M.Fetches act shape j ty

/-- A frame fits an activation with a shape of the stack, in a scope. -/
structure Frame.Matches (f : Frame) (M : Image) (names : List Name) (scope : TypeScope)
    (act : Activation) (shape : Shape) : Prop where
  height : f.height = size shape
  suits : f.Suits names
  notPrim : ∀ x ∈ names, Primitive.ofName? x = none
  bound : ∀ x ty, scope.lookup x = some ty → x ∈ names
  fetches : f.Fetches M scope act shape

namespace Frame

variable {M : Image} {f : Frame} {names : List Name} {scope : TypeScope} {act : Activation}
  {shape : Shape}

theorem Fetches.append (h : f.Fetches M scope act shape) (above : Shape) :
    f.Fetches M scope act (above ++ shape) := by
  intro x ty i j hx hi hj
  exact (h x ty i j hx hi hj).append above

theorem matches_main (M : Image) : Frame.main.Matches M [] [] .main [] := by
  refine ⟨rfl, suits_main, nofun, ?_, ?_⟩
  · intro x ty h
    exact nomatch h
  · intro x ty i j h
    exact nomatch h

theorem Matches.raise (h : f.Matches M names scope act shape) (above : Shape) :
    (f.raise (size above)).Matches M names scope act (above ++ shape) := by
  refine ⟨?_, h.suits.raise _, h.notPrim, h.bound, h.fetches.append above⟩
  have hheight := h.height
  simp only [Frame.raise, size_append]
  omega

theorem Matches.bind (h : f.Matches M names scope act shape) {x : Name} (hnames : x ∉ names)
    (hprim : Primitive.ofName? x = none) (ty : Ty) :
    (f.bind x).Matches M names scope act (.value ty :: shape) := by
  refine ⟨?_, h.suits.bind hprim, h.notPrim, h.bound, ?_⟩
  · have hheight := h.height
    simp only [Frame.bind, size_cons, Cell.size]
    omega
  · intro y ty' i j hy hi hj
    have hyx : y ≠ x := by
      rintro rfl
      exact hnames (h.bound y ty' hy)
    rw [f.reference_bind_of_ne hyx] at hi
    exact (h.fetches y ty' i j hy hi hj).append [.value ty]

theorem fetches_temp {tys : List Ty} {k : Nat} {ty : Ty} (hk : tys[k]? = some ty) :
    M.Fetches act (values tys.reverse ++ shape) (.refTemp (size shape + k)) ty := by
  obtain ⟨hlt, hty⟩ := List.getElem?_eq_some_iff.1 hk
  obtain ⟨before, after, rfl, rfl⟩ : ∃ before after, tys = before ++ ty :: after ∧
      before.length = k := by
    refine ⟨tys.take k, tys.drop (k + 1), ?_, ?_⟩
    · rw [← hty, List.getElem_cons_drop, List.take_append_drop]
    · rw [List.length_take]
      omega
  have hsize : size (values before.reverse ++ shape) = size shape + before.length := by
    rw [size_append, size_values, List.length_reverse, Nat.add_comm]
  have hshape : values (before ++ ty :: after).reverse ++ shape =
      values after.reverse ++ .value ty :: (values before.reverse ++ shape) := by
    simp [values]
  rw [← hsize]
  exact .temp hshape

/-- Once the values of new names are on top of the stack, the names can be brought into scope. -/
theorem Matches.enter {xs : List Name} {tys : List Ty}
    (h : (f.bindAll xs).Matches M names scope act (values tys.reverse ++ shape))
    (hnew : NewNames names xs) (hheight : f.height = size shape) :
    (f.bindAll xs).Matches M (xs ++ names) (scope.enter xs tys) act
      (values tys.reverse ++ shape) := by
  refine ⟨h.height, ⟨h.suits.prims, ?_⟩, List.forall_mem_append.2 ⟨hnew.notPrim, h.notPrim⟩, ?_,
    ?_⟩
  · exact fun x hx => List.mem_append_right xs (h.suits.params x hx)
  · intro x ty hty
    rcases TypeScope.lookup_enter_cases hty with hty | ⟨k, hx, _⟩
    · exact List.mem_append_right xs (h.bound x ty hty)
    · exact List.mem_append_left names (List.mem_of_getElem? hx)
  · intro x ty i j hty hi hj
    rcases TypeScope.lookup_enter_cases hty with hty | ⟨k, hx, hk⟩
    · exact h.fetches x ty i j hty hi hj
    · have hparams : ∀ y ∈ xs, y ∉ f.params := fun y hy hmem =>
        hnew.notMem y hy (h.suits.params y (by rwa [params_bindAll]))
      rw [reference_bindAll hnew.nodup hparams hx] at hi
      cases hi
      cases hj
      rw [hheight]
      exact fetches_temp hk

end Frame

namespace Image

variable {M : Image} {act : Activation} {pc : Nat} {shape : Shape} {acc : Option Ty} {ty : Ty}
  {f : Frame} {names : List Name} {scope : TypeScope} {code : Code} {e : Expr Nat} {t : Nat}

/-- A procedure that has just been entered finds its arguments, what it has captured, and the
closures of its group. -/
theorem matches_entered {captured params : List Name} {group : List (Name × Label)}
    (sig : Signature) {tys : List Ty} (hgroup : M.HasGroup captured group names scope)
    (hnew : NewNames names params) (htys : scope.HasTypes captured tys) :
    (Frame.ofProcedure params captured group).Matches M (params ++ names)
      (scope.enter params sig.params) (sig.activation tys) [] := by
  obtain ⟨hcaptured, hnames⟩ := List.forall_mem_append.1 hgroup.notPrim
  have hall : ∀ x ∈ params ++ names, Primitive.ofName? x = none :=
    List.forall_mem_append.2 ⟨hnew.notPrim, hnames⟩
  refine ⟨rfl, ?_, hall, ?_, ?_⟩
  · exact Frame.suits_ofProcedure (fun x hx => List.mem_append_left names hx) hall hcaptured
  · intro x ty hty
    rcases TypeScope.lookup_enter_cases hty with hty | ⟨k, hx, _⟩
    · exact List.mem_append_right params (hgroup.bound x ty hty)
    · exact List.mem_append_left names (List.mem_of_getElem? hx)
  · intro x ty i j hty hi hj
    rcases TypeScope.lookup_enter_cases hty with hty | ⟨k, hx, hk⟩
    · have hmem := hgroup.bound x ty hty
      rcases Frame.reference_ofProcedure_cases hi with ⟨k, hk, _⟩ | ⟨_, k, hk, rfl⟩ |
        ⟨_, _, q, hq, _⟩ | ⟨_, _, _, l, hl, rfl⟩
      · exact absurd hmem (hnew.notMem x (List.mem_of_getElem? hk))
      · cases hj
        obtain ⟨ty', hty', hlookup⟩ := getElem?_of_forall₂ htys hk
        rw [hty] at hlookup
        cases hlookup
        exact .captured hty'
      · rw [hnames x hmem] at hq
        exact nomatch hq
      · obtain ⟨a, ha, rfl⟩ := Results.map_eq_ok_iff.1 hj
        obtain ⟨sig', rfl, hproc⟩ := hgroup.members x l a ty hl ha hty
        exact .member ⟨_, _, _, _, hgroup, hproc, htys⟩
    · rw [Frame.reference_param (f := .ofProcedure params captured group) hnew.nodup hx] at hi
      cases hi
      cases hj
      exact .param hk

/-! ### The code of expressions -/

/-- What is known of an expression whose code is checked. -/
structure Checked (M : Image) (names : List Name) (target : Option TailTarget)
    (scope : TypeScope) (e : Expr Nat) (ty : Ty) : Prop where
  fresh : e.Fresh names
  allowed : e.Allowed M.calls target
  typed : Typed scope e ty

theorem checked_list {names : List Name} {scope : TypeScope} {es : List (Expr Nat)}
    {tys : List Ty} (hfresh : Expr.FreshList names es)
    (hallowed : Expr.AtCallsList (Expr.TableAllows M.calls) es) (hlen : es.length = tys.length)
    (htyped : ∀ e ty, (e, ty) ∈ es.zip tys → Typed scope e ty) :
    List.Forall₂ (fun e ty => M.Checked names none scope e ty) es tys := by
  refine List.forall₂_iff_zip.2 ⟨hlen, fun {e ty} h => ?_⟩
  have he := (List.of_mem_zip h).1
  exact ⟨Expr.freshList_iff.1 hfresh e he, Expr.atCallsList_iff.1 hallowed e he, htyped e ty h⟩

theorem checked_bindings {names : List Name} {scope : TypeScope}
    {bs : List (Name × Expr Nat)} {tys : List Ty} (hfresh : Expr.FreshBindings names bs)
    (hallowed : Expr.AtCallsBindings (Expr.TableAllows M.calls) bs) (hlen : bs.length = tys.length)
    (htyped : ∀ b ty, (b, ty) ∈ bs.zip tys → Typed scope b.2 ty) :
    List.Forall₂ (fun b ty => M.Checked names none scope b.2 ty) bs tys := by
  refine List.forall₂_iff_zip.2 ⟨hlen, fun {b ty} h => ?_⟩
  have hb := (List.of_mem_zip h).1
  exact ⟨Expr.freshBindings_iff.1 hfresh b hb, Expr.atCallsBindings_iff.1 hallowed b hb,
    htyped b ty h⟩

/-- The code of an expression can be run where what follows is right for its type. -/
def Accepted (M : Image) (e : Expr Nat) : Prop :=
  ∀ (target : Option TailTarget) {f : Frame} {code : Code} {names : List Name}
    {scope : TypeScope} {ty : Ty} {act : Activation} {pc : Nat} {shape : Shape} {acc : Option Ty},
    M.Compiles f (.ofTarget target) e code → M.program.HasCode pc code →
    f.Matches M names scope act shape → M.Checked names target scope e ty →
    M.Receives (.ofTarget target) act (pc + code.length) shape ty → M.Accepts act pc shape acc

theorem accepted_lit (v : Literal) (t : Nat) : M.Accepted (.lit v t) := by
  intro target f code names scope ty act pc shape acc hcompiles hcode hin hchecked hrest
  obtain rfl := compiles_lit_iff.1 hcompiles
  cases hchecked.typed
  refine .const hcode (accepts_leave hcode.2 (hrest.move ?_))
  rw [List.length_cons]
  omega

theorem accepted_var (x : Name) (t : Nat) : M.Accepted (.var x t) := by
  intro target f code names scope ty act pc shape acc hcompiles hcode hin hchecked hrest
  obtain ⟨i, hi, rfl⟩ := compiles_var_iff.1 hcompiles
  have hrest' : M.Accepts act (pc + 1) shape (some ty) := by
    refine accepts_leave hcode.2 (hrest.move ?_)
    rw [List.length_cons]
    omega
  obtain ⟨j, hj, _⟩ := hcode.1
  refine .fetch hcode hj ?_ hrest'
  cases hchecked.typed with
  | bound h => exact hin.fetches x ty i j h hi hj
  | @primitive _ _ _ _ p _ hx hty =>
    obtain rfl := Primitive.name_of_ofName? hx
    rw [hin.suits.prims p] at hi
    cases hi
    cases hj
    exact .prim hty

theorem accepted_cond {test yes no : Expr Nat} (htest : M.Accepted test) (hyes : M.Accepted yes)
    (hno : M.Accepted no) (t : Nat) : M.Accepted (.cond test yes no t) := by
  intro target f code names scope ty act pc shape acc hcompiles hcode hin hchecked hrest
  obtain ⟨hfresh, hallowed, htyped⟩ := hchecked
  cases htyped with
  | cond htypedTest htypedYes htypedNo =>
  have hcheckedTest : M.Checked names none scope test .bool := ⟨hfresh.1, hallowed.1, htypedTest⟩
  have hcheckedYes : M.Checked names target scope yes ty := ⟨hfresh.2.1, hallowed.2.1, htypedYes⟩
  have hcheckedNo : M.Checked names target scope no ty := ⟨hfresh.2.2, hallowed.2.2, htypedNo⟩
  cases target with
  | none =>
    obtain ⟨ct, cy, cn, h₁, h₂, h₃, rfl⟩ := compiles_cond_value_iff.1 hcompiles
    simp only [Program.hasCode_append_iff, List.length_append, List.length_singleton] at hcode hrest
    obtain ⟨⟨⟨⟨hct, hbranch⟩, hcy⟩, hjump⟩, hcn⟩ := hcode
    have hfirst : M.Accepts act (pc + (ct.length + 1) + cy.length) shape (some ty) :=
      .jump (hjump.move (by omega)) (hrest.move (by omega))
    have hsecond : M.Receives .value act (pc + ct.length + (cy.length + 2) + cn.length) shape ty :=
      hrest.move (by omega)
    refine htest none h₁ hct hin hcheckedTest (.test hbranch ?_ ?_)
    · exact hyes none h₂ hcy hin hcheckedYes hfirst
    · exact hno none h₃ (hcn.move (by omega)) hin hcheckedNo hsecond
  | some target =>
    obtain ⟨ct, cy, cn, h₁, h₂, h₃, rfl⟩ := compiles_cond_tail_iff.1 hcompiles
    simp only [Program.hasCode_append_iff, List.length_append, List.length_singleton] at hcode
    obtain ⟨⟨⟨hct, hbranch⟩, hcy⟩, hcn⟩ := hcode
    refine htest none h₁ hct hin hcheckedTest (.test hbranch ?_ ?_)
    · exact hyes (some target) h₂ hcy hin hcheckedYes hrest
    · exact hno (some target) h₃ (hcn.move (by omega)) hin hcheckedNo hrest

theorem accepted_seq {items : List (Expr Nat)} (hitems : ∀ e ∈ items, M.Accepted e) (t : Nat) :
    M.Accepted (.seq items t) := by
  induction items with
  | nil =>
    intro target f code names scope ty act pc shape acc hcompiles
    exact absurd hcompiles compiles_seq_nil_iff.1
  | cons e es ih =>
    obtain ⟨he, hes⟩ := List.forall_mem_cons.1 hitems
    intro target f code names scope ty act pc shape acc hcompiles hcode hin hchecked hrest
    obtain ⟨hfresh, hallowed, htyped⟩ := hchecked
    cases htyped with
    | last htyped =>
      exact he target (compiles_seq_one_iff.1 hcompiles) hcode hin ⟨hfresh.1, hallowed, htyped⟩
        hrest
    | before htyped htypedRest =>
      obtain ⟨first, rest, h₁, h₂, rfl⟩ := compiles_seq_cons_iff.1 hcompiles
      rw [Program.hasCode_append_iff] at hcode
      rw [List.length_append] at hrest
      refine he none h₁ hcode.1 hin ⟨hfresh.1, hallowed.1, htyped⟩ ?_
      exact ih hes target h₂ hcode.2 hin ⟨hfresh.2, hallowed.2, htypedRest⟩ (hrest.move (by omega))

/-! ### Calls -/

theorem accepts_args {es : List (Expr Nat)} (hes : ∀ e ∈ es, M.Accepted e) {tys : List Ty}
    (htyped : List.Forall₂ (fun e ty => M.Checked names none scope e ty) es tys)
    (hcompiles : M.CompilesArgs f es code) (hcode : M.program.HasCode pc code)
    (hin : f.Matches M names scope act shape)
    (hrest : ∀ acc, M.Accepts act (pc + code.length) (values tys ++ shape) acc) :
    M.Accepts act pc shape acc := by
  induction htyped generalizing code acc with
  | nil =>
    obtain rfl := compilesArgs_nil_iff.1 hcompiles
    exact hrest acc
  | @cons e ty es tys hchecked htypedRest ih =>
    obtain ⟨he, hes⟩ := List.forall_mem_cons.1 hes
    obtain ⟨rest, first, h₁, h₂, rfl⟩ := compilesArgs_cons_iff.1 hcompiles
    simp only [Program.hasCode_append_iff, List.length_append, List.length_singleton] at hcode hrest
    obtain ⟨⟨hrestCode, hfirst⟩, hpush⟩ := hcode
    have hin' := hin.raise (values tys)
    rw [size_values, ← htypedRest.length_eq] at hin'
    refine ih hes h₁ hrestCode fun acc => he none h₂ hfirst hin' hchecked ?_
    exact .push (hpush.move (by omega)) ((hrest (some ty)).move (by omega))

theorem accepted_app {func : Expr Nat} {args : List (Expr Nat)} (hfunc : M.Accepted func)
    (hargs : ∀ e ∈ args, M.Accepted e) (t : Nat) : M.Accepted (.app func args t) := by
  intro target f code names scope ty act pc shape acc hcompiles hcode hin hchecked hrest
  obtain ⟨hfresh, hallowed, htyped⟩ := hchecked
  cases htyped with
  | @app _ _ _ _ sig htypedFunc hlenArgs htypedArgs =>
  have hcheckedFunc : M.Checked names none scope func sig.ty :=
    ⟨hfresh.1, hallowed.2.1, htypedFunc⟩
  have hcheckedArgs := checked_list hfresh.2 hallowed.2.2 hlenArgs htypedArgs
  cases hcall : M.calls.find? (·.app = t) with
  | none =>
    obtain ⟨pushed, cf, h₁, h₂, rfl⟩ := (compiles_app_iff hcall).1 hcompiles
    simp only [Program.hasCode_append_iff, List.length_append, List.length_singleton] at hcode hrest
    obtain ⟨⟨⟨⟨hframe, hpushed⟩, hcf⟩, happly⟩, hleave⟩ := hcode
    -- the link stays below the arguments until the call is entered
    have hlinked := hin.raise [.link sig.result]
    have hraised := hin.raise (values sig.params ++ [.link sig.result])
    rw [size_append, size_values, ← hlenArgs, Nat.add_comm, List.append_assoc] at hraised
    have hreturned : M.Accepts act (pc + (pushed.length + cf.length + 2)) shape
        (some sig.result) :=
      accepts_leave (hleave.move (by omega)) (hrest.move (by omega))
    refine .frame hframe ?_ hreturned
    refine accepts_args hargs hcheckedArgs h₁ hpushed hlinked fun acc => ?_
    refine hfunc none h₂ (hcf.move (by omega)) hraised hcheckedFunc ?_
    exact .apply (happly.move (by omega))
  | some call =>
    obtain ⟨pushed, cf, h₁, h₂, rfl⟩ := (compiles_tailApp_iff hcall).1 hcompiles
    obtain ⟨target, rfl, rfl⟩ := Option.map_eq_some_iff.1 (hallowed.1 call hcall)
    simp only [Program.hasCode_append_iff, List.length_append] at hcode
    obtain ⟨⟨hpushed, hcf⟩, hshift⟩ := hcode
    obtain ⟨hresult, tys, rfl, hcells⟩ := hrest
    have hraised := hin.raise (values sig.params)
    rw [size_values, ← hlenArgs] at hraised
    refine accepts_args hargs hcheckedArgs h₁ hpushed hin fun acc => ?_
    refine hfunc none h₂ hcf hraised hcheckedFunc ?_
    rw [hcells, hlenArgs] at hshift
    exact .shift (hshift.move (by omega)) hresult

/-! ### Scopes -/

/-- The body of a form that has bound names to the cells on top of the stack. -/
theorem Accepted.scoped (h : M.Accepted e) (target : Option TailTarget) {tys : List Ty} {cb : Code}
    (hcompiles : M.Compiles f ((Context.ofTarget target).deeper tys.length) e cb)
    (hcode : M.program.HasCode pc (cb ++ (Context.ofTarget target).drop tys.length))
    (hin : f.Matches M names scope act (values tys ++ shape))
    (hchecked : M.Checked names (target.map (·.deeper tys.length)) scope e ty)
    (hrest : M.Receives (.ofTarget target) act
      (pc + cb.length + ((Context.ofTarget target).drop tys.length).length) shape ty) :
    M.Accepts act pc (values tys ++ shape) acc := by
  rw [Program.hasCode_append_iff] at hcode
  cases target with
  | none =>
    refine h none hcompiles hcode.1 hin hchecked ?_
    cases tys with
    | nil => exact hrest
    | cons ty' tys =>
      show M.Accepts act (pc + cb.length) (values (ty' :: tys) ++ shape) (some ty)
      exact .pop hcode.2 hrest
  | some target =>
    obtain ⟨hresult, tys', rfl, hcells⟩ := hrest
    refine h (some (target.deeper tys.length)) hcompiles hcode.1 hin hchecked ?_
    refine ⟨hresult, tys ++ tys', (values_append ..).symm, ?_⟩
    show target.cells + tys.length = (tys ++ tys').length + act.params.length
    rw [hcells, List.length_append]
    omega

theorem accepts_bindings {bs : List (Name × Expr Nat)} (hbs : ∀ b ∈ bs, M.Accepted b.2)
    {tys : List Ty}
    (htyped : List.Forall₂ (fun b ty => M.Checked names none scope b.2 ty) bs tys) {f' : Frame}
    (hcompiles : M.CompilesBindings f bs code f') (hcode : M.program.HasCode pc code)
    (hin : f.Matches M names scope act shape)
    (hnew : ∀ x ∈ bs.map (·.1), x ∉ names ∧ Primitive.ofName? x = none)
    (hrest : f'.Matches M names scope act (values tys.reverse ++ shape) →
      ∀ acc, M.Accepts act (pc + code.length) (values tys.reverse ++ shape) acc) :
    M.Accepts act pc shape acc := by
  induction htyped generalizing f code pc shape acc with
  | nil =>
    obtain ⟨rfl, rfl⟩ := compilesBindings_nil_iff.1 hcompiles
    exact hrest hin acc
  | @cons b ty bs tys hchecked _ ih =>
    obtain ⟨x, e⟩ := b
    obtain ⟨he, hbs⟩ := List.forall_mem_cons.1 hbs
    obtain ⟨hx, hnew⟩ := List.forall_mem_cons.1 hnew
    obtain ⟨first, rest, h₁, h₂, rfl⟩ := compilesBindings_cons_iff.1 hcompiles
    simp only [Program.hasCode_append_iff, List.length_append, List.length_singleton] at hcode hrest
    obtain ⟨⟨hfirst, hpush⟩, hrestCode⟩ := hcode
    rw [values_reverse_cons] at hrest
    refine he none h₁ hfirst hin hchecked (.push hpush ?_)
    refine ih hbs h₂ (hrestCode.move (by omega)) (hin.bind hx.1 hx.2 ty) hnew fun hin' acc => ?_
    exact (hrest hin' acc).move (by omega)

theorem accepted_letIn {bs : List (Name × Expr Nat)} {body : Expr Nat}
    (hbs : ∀ b ∈ bs, M.Accepted b.2) (hbody : M.Accepted body) (t : Nat) :
    M.Accepted (.letIn bs body t) := by
  intro target f code names scope ty act pc shape acc hcompiles hcode hin hchecked hrest
  obtain ⟨⟨hnew, hfreshInits, hfreshBody⟩, hallowed, htyped⟩ := hchecked
  cases htyped with
  | @letIn _ _ _ _ tys _ hlenTys htypedInits htypedBody =>
  obtain ⟨inits, cb, h₁, h₂, rfl⟩ := compiles_letIn_iff.1 hcompiles
  have hcheckedInits := checked_bindings hfreshInits hallowed.1 hlenTys htypedInits
  have hnames : ∀ x ∈ bs.map (·.1), x ∉ names ∧ Primitive.ofName? x = none := fun x hx =>
    ⟨hnew.notMem x hx, hnew.notPrim x hx⟩
  have hcheckedBody : M.Checked (bs.map (·.1) ++ names) (target.map (·.deeper bs.length))
      (scope.enter (bs.map (·.1)) tys) body ty := ⟨hfreshBody, hallowed.2, htypedBody⟩
  have hlen : bs.length = tys.reverse.length := by rw [List.length_reverse, hlenTys]
  rw [List.append_assoc, Program.hasCode_append_iff] at hcode
  simp only [List.length_append] at hrest
  rw [hlen] at h₂ hcode hcheckedBody hrest
  refine accepts_bindings hbs hcheckedInits h₁ hcode.1 hin hnames fun hin' acc => ?_
  exact hbody.scoped target h₂ hcode.2 (hin'.enter hnew hin.height) hcheckedBody
    (hrest.move (by omega))

/-! ### Procedures -/

theorem accepts_pushNames {xs : List Name} {tys : List Ty} (htys : scope.HasTypes xs tys)
    (hpush : f.pushNames xs = .ok code) (hcode : M.program.HasCode pc code)
    (hin : f.Fetches M scope act shape)
    (hrest : ∀ acc, M.Accepts act (pc + code.length) (values tys.reverse ++ shape) acc) :
    M.Accepts act pc shape acc := by
  induction htys generalizing code pc shape acc with
  | nil =>
    simp only [Frame.pushNames, Except.ok.injEq] at hpush
    subst hpush
    exact hrest acc
  | @cons x ty xs tys hx _ ih =>
    obtain ⟨i, rest, hi, hrestPush, rfl⟩ := Frame.pushNames_cons_ok.1 hpush
    obtain ⟨j, hj, _⟩ := hcode.1
    rw [values_reverse_cons] at hrest
    refine .fetch hcode hj (hin x ty i j hx hi hj) (.push hcode.2 ?_)
    refine ih hrestPush hcode.2.2 (hin.append [.value ty]) fun acc => (hrest acc).move ?_
    simp only [List.length_cons]
    omega

theorem exists_types {xs : List Name} (h : ∀ x ∈ xs, ∃ ty, scope.lookup x = some ty) :
    ∃ tys, scope.HasTypes xs tys := by
  induction xs with
  | nil => exact ⟨[], .nil⟩
  | cons x xs ih =>
    obtain ⟨⟨ty, hty⟩, h⟩ := List.forall_mem_cons.1 h
    obtain ⟨tys, htys⟩ := ih h
    exact ⟨ty :: tys, .cons hty htys⟩

theorem accepted_lambda (params : List Name) (body : Expr Nat) (t : Nat) :
    M.Accepted (.lambda params body t) := by
  intro target f code names scope ty act pc shape acc hcompiles hcode hin hchecked hrest
  obtain ⟨hfresh, hallowed, htyped⟩ := hchecked
  cases htyped with
  | @lambda _ _ _ _ sig hlenParams htypedBody =>
  obtain ⟨values, cb, hpush, hbody, hblock, rfl⟩ := compiles_lambda_iff.1 hcompiles
  obtain ⟨a, ha, hplaced⟩ := M.placed _ hblock
  -- the body is in a block of its own: nothing is asked of its code before it is entered
  obtain ⟨tys, htys⟩ : ∃ tys, scope.HasTypes (body.free (params ++ Primitive.names)) tys := by
    refine exists_types fun x hx => ?_
    obtain ⟨hfree, hparams⟩ := (Expr.mem_freeOccurrences_iff _).1 (Expr.mem_free.1 hx)
    rw [List.mem_append, not_or] at hparams
    rw [← TypeScope.lookup_enter_of_notMem hparams.1]
    exact htypedBody.lookup_of_freeIn hfree (Expr.notPrim_of_mem_free hx)
  have hproc : M.Provides a sig tys := by
    refine ⟨_, [], names, scope, ⟨?_, hin.bound, nofun⟩, ⟨params, body, ?_, hlenParams, htypedBody⟩,
      htys⟩
    · exact List.forall_mem_append.2 ⟨fun x => Expr.notPrim_of_mem_free, hin.notPrim⟩
    · exact ⟨⟨cb, hbody, hplaced⟩, ⟨t, hallowed⟩, hfresh.1, hfresh.2⟩
  rw [List.append_assoc, List.singleton_append, Program.hasCode_append_iff] at hcode
  simp only [List.length_append, List.length_singleton] at hrest
  refine accepts_pushNames htys hpush hcode.1 hin.fetches fun acc => ?_
  have hclose := hcode.2
  rw [htys.length_eq] at hclose
  exact .close hclose ha hproc (accepts_leave hclose.2 (hrest.move (by omega)))

theorem accepts_closeMembers {captured : List Name} {tys : List Ty} {ms : List (Name × Label)}
    {sigs : List Signature} {f' : Frame}
    (hms : List.Forall₂ (fun m sig => ∃ a, addressOf M.program.entries m.2 = .ok a ∧
      M.Provides a sig tys) ms sigs)
    (htys : scope.HasTypes captured tys)
    (hclose : f.closeMembers captured ms = .ok (code, f')) (hcode : M.program.HasCode pc code)
    (hin : f.Matches M names scope act shape)
    (hnew : ∀ x ∈ ms.map (·.1), x ∉ names ∧ Primitive.ofName? x = none)
    (hrest : f'.Matches M names scope act (values (sigs.map Signature.ty).reverse ++ shape) →
      ∀ acc, M.Accepts act (pc + code.length)
        (values (sigs.map Signature.ty).reverse ++ shape) acc) :
    M.Accepts act pc shape acc := by
  induction hms generalizing f code pc shape acc with
  | nil =>
    simp only [Frame.closeMembers, Except.ok.injEq, Prod.mk.injEq] at hclose
    obtain ⟨rfl, rfl⟩ := hclose
    exact hrest hin acc
  | @cons m sig ms sigs hm _ ih =>
    obtain ⟨x, l⟩ := m
    obtain ⟨a, ha, hproc⟩ := hm
    obtain ⟨hx, hnew⟩ := List.forall_mem_cons.1 hnew
    obtain ⟨pushed, rest, hpush, hrestClose, rfl⟩ := Frame.closeMembers_cons_ok.1 hclose
    simp only [Program.hasCode_append_iff, List.length_append, List.length_cons,
      List.length_nil] at hcode hrest
    obtain ⟨⟨hpushed, hclosed⟩, hrestCode⟩ := hcode
    rw [htys.length_eq] at hclosed
    rw [List.map_cons, values_reverse_cons] at hrest
    refine accepts_pushNames htys hpush hpushed hin.fetches fun acc => ?_
    refine .close hclosed ha hproc (.push hclosed.2 ?_)
    refine ih hrestClose (hrestCode.move (by omega)) (hin.bind hx.1 hx.2 sig.ty) hnew
      fun hin' acc => ?_
    exact (hrest hin' acc).move (by omega)

theorem exists_types_captured {ms : List (Member Nat (Expr Nat))} {body : Expr Nat}
    (h : Typed scope (.fix ms body t) ty) :
    ∃ tys, scope.HasTypes (capturedBy ms) tys := by
  refine exists_types fun x hx => ?_
  obtain ⟨hnames, hprim⟩ := Expr.notMem_and_notPrim_of_mem_freeMembers hx
  rw [capturedBy, Expr.freeMembers, List.mem_eraseDups, Expr.mem_freeOccurrencesMembers] at hx
  obtain ⟨m, hm, hx⟩ := hx
  obtain ⟨hfree, hparams⟩ := (Expr.mem_freeOccurrences_iff _).1 hx
  rw [List.mem_append, not_or] at hparams
  exact h.lookup_of_freeIn (Expr.freeIn_fix.2 ⟨.inl ⟨m, hm, hfree, hparams.1⟩, hnames⟩) hprim

theorem hasGroup_of_members {ms : List (Member Nat (Expr Nat))} {sigs : List Signature}
    (hmembers : ∀ m sig, (m, sig) ∈ ms.zip sigs → ∃ a,
      addressOf M.program.entries ⟨m.tag⟩ = .ok a ∧
      M.HasProcedure (capturedBy ms) (groupLabels ms).reverse (ms.map (·.name) ++ names)
        (scope.enter (ms.map (·.name)) (sigs.map Signature.ty)) sig a)
    (hnew : NewNames names (ms.map (·.name))) (hin : f.Matches M names scope act shape) :
    M.HasGroup (capturedBy ms) (groupLabels ms).reverse (ms.map (·.name) ++ names)
      (scope.enter (ms.map (·.name)) (sigs.map Signature.ty)) := by
  refine ⟨?_, mem_of_lookup_enter_members hin.bound, ?_⟩
  · exact List.forall_mem_append.2 ⟨fun x hx => (Expr.notMem_and_notPrim_of_mem_freeMembers hx).2,
      List.forall_mem_append.2 ⟨hnew.notPrim, hin.notPrim⟩⟩
  · intro x l a ty hl ha hty
    obtain ⟨m, sig, hzip, rfl, rfl⟩ := member_of_lookup_group hin.bound hnew hl hty
    obtain ⟨a', ha', hproc⟩ := hmembers m sig hzip
    rw [ha] at ha'
    cases ha'
    exact ⟨sig, rfl, hproc⟩

theorem accepted_fix {ms : List (Member Nat (Expr Nat))} {body : Expr Nat}
    (hbody : M.Accepted body) (t : Nat) : M.Accepted (.fix ms body t) := by
  intro target f code names scope ty act pc shape acc hcompiles hcode hin hchecked hrest
  obtain ⟨hfresh, hallowed, htyped⟩ := hchecked
  obtain ⟨tys, htys⟩ := exists_types_captured htyped
  cases htyped with
  | @fix _ _ _ _ sigs _ hlenSigs hlenParams htypedMembers htypedBody =>
  have hnew := hfresh.1
  have hmembers : ∀ m sig, (m, sig) ∈ ms.zip sigs → ∃ a,
      addressOf M.program.entries ⟨m.tag⟩ = .ok a ∧
      M.HasProcedure (capturedBy ms) (groupLabels ms).reverse (ms.map (·.name) ++ names)
        (scope.enter (ms.map (·.name)) (sigs.map Signature.ty)) sig a := by
    intro m sig h
    obtain ⟨a, ha, hproc⟩ := procedure_of_fix hcompiles hfresh hallowed (List.of_mem_zip h).1
    exact ⟨a, ha, m.params, m.body, hproc, hlenParams m sig h, htypedMembers m sig h⟩
  have hgroup := hasGroup_of_members hmembers hnew hin
  have htys' : (scope.enter (ms.map (·.name)) (sigs.map Signature.ty)).HasTypes
      (capturedBy ms) tys := by
    refine List.forall₂_iff_zip.2 ⟨htys.length_eq, fun {x ty} hzip => ?_⟩
    have hx := Expr.notMem_and_notPrim_of_mem_freeMembers (List.of_mem_zip hzip).1
    rw [TypeScope.lookup_enter_of_notMem hx.1]
    exact (List.forall₂_iff_zip.1 htys).2 hzip
  obtain ⟨closures, cb, _, hclose, h₂, rfl⟩ := compiles_fix_iff.1 hcompiles
  have hclosed : List.Forall₂ (fun m sig => ∃ a, addressOf M.program.entries m.2 = .ok a ∧
      M.Provides a sig tys) (groupLabels ms) sigs := by
    rw [groupLabels, List.forall₂_map_left_iff]
    refine List.forall₂_iff_zip.2 ⟨hlenSigs, fun {m sig} hzip => ?_⟩
    obtain ⟨a, ha, hproc⟩ := hmembers m sig hzip
    exact ⟨a, ha, _, _, _, _, hgroup, hproc, htys'⟩
  have hcheckedBody : M.Checked (ms.map (·.name) ++ names) (target.map (·.deeper ms.length))
      (scope.enter (ms.map (·.name)) (sigs.map Signature.ty)) body ty :=
    ⟨hfresh.2.2, hallowed.2, htypedBody⟩
  have hnames : ∀ x ∈ (groupLabels ms).map (·.1), x ∉ names ∧ Primitive.ofName? x = none := by
    rw [map_fst_groupLabels]
    exact fun x hx => ⟨hnew.notMem x hx, hnew.notPrim x hx⟩
  have hlen : ms.length = (sigs.map Signature.ty).reverse.length := by
    rw [List.length_reverse, List.length_map, hlenSigs]
  rw [List.append_assoc, Program.hasCode_append_iff] at hcode
  simp only [List.length_append] at hrest
  rw [hlen] at h₂ hcode hcheckedBody hrest
  refine accepts_closeMembers hclosed htys hclose hcode.1 hin hnames fun hin' acc => ?_
  exact hbody.scoped target h₂ hcode.2 (hin'.enter hnew hin.height) hcheckedBody
    (hrest.move (by omega))

/-! ### Whole blocks -/

theorem accepted (M : Image) (e : Expr Nat) : M.Accepted e := by
  induction e with
  | lit v t => exact accepted_lit v t
  | var x t => exact accepted_var x t
  | cond test yes no t htest hyes hno => exact accepted_cond htest hyes hno t
  | lambda params body t _ => exact accepted_lambda params body t
  | assign x value t _ =>
    intro target f code names scope ty act pc shape acc hcompiles
    exact absurd hcompiles compiles_assign_iff.1
  | app func args t hfunc hargs => exact accepted_app hfunc hargs t
  | letIn bindings body t hbindings hbody => exact accepted_letIn hbindings hbody t
  | letrec bindings body t _ _ =>
    intro target f code names scope ty act pc shape acc hcompiles
    exact absurd hcompiles compiles_letrec_iff.1
  | fix members body t _ hbody => exact accepted_fix hbody t
  | seq items t hitems => exact accepted_seq hitems t

/-- A procedure can be entered with arguments of its parameter types. -/
theorem Provides.accepts {a : Nat} {sig : Signature} {tys : List Ty} (h : M.Provides a sig tys) :
    M.Accepts (sig.activation tys) a [] acc := by
  obtain ⟨captured, group, names, scope, hgroup, ⟨params, body, hproc, hlen, htyped⟩, htys⟩ := h
  have hin := matches_entered sig hgroup hproc.newParams htys
  obtain ⟨code, hcompiles, hcode⟩ := hproc.code
  obtain ⟨t, hallowed⟩ := hproc.allowed
  refine M.accepted body (some ⟨t, params.length⟩) hcompiles hcode hin
    ⟨hproc.fresh, hallowed, htyped⟩ ⟨rfl, [], rfl, ?_⟩
  show params.length = 0 + sig.params.length
  omega

end Image

end MiniScheme
