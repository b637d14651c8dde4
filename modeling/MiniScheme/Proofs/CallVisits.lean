import MiniScheme.Proofs.CodeFaults
import MiniScheme.Proofs.Generation
import MiniScheme.Proofs.Subtrees
import MiniScheme.Proofs.TailPosition

/-!
# Visits to calls

A second code generator records in addition where it stands whenever it comes to a call: the block
it is writing, the frame and the context. Without these records it is the generator itself. At
every call it comes to, also if it fails later, the table of tail calls and the context say the
same, and the cells in the table are those of the frame at that point.
-/

namespace MiniScheme

namespace Emit

variable {ω ω' ε α β : Type}

/-- The same computation with only some of its items emitted. -/
def filterEmitted (g : ω → Option ω') (x : Emit ω ε α) : Emit ω' ε α :=
  ⟨x.emitted.filterMap g, x.result⟩

variable {g : ω → Option ω'}

theorem filterEmitted_pure (a : α) :
    (pure a : Emit ω ε α).filterEmitted g = pure a := rfl

theorem filterEmitted_lift (r : Except ε α) :
    (lift r : Emit ω ε α).filterEmitted g = lift r := rfl

theorem filterEmitted_bind (x : Emit ω ε α) (f : α → Emit ω ε β) :
    (x >>= f).filterEmitted g = x.filterEmitted g >>= fun a => (f a).filterEmitted g := by
  show (andThen x f).filterEmitted g =
    andThen (x.filterEmitted g) fun a => (f a).filterEmitted g
  obtain ⟨emitted, result⟩ := x
  cases result with
  | error e => rfl
  | ok a =>
    show (⟨List.filterMap g (emitted ++ (f a).emitted), (f a).result⟩ : Emit ω' ε β) =
      ⟨List.filterMap g emitted ++ List.filterMap g (f a).emitted, (f a).result⟩
    rw [List.filterMap_append]

/-- Everything that the computation emits and, if there is one, its result are as stated. -/
def Ensures (x : Emit ω ε α) (P : ω → Prop) (Q : α → Prop) : Prop :=
  (∀ w ∈ x.emitted, P w) ∧ ∀ a, x.result = .ok a → Q a

variable {P : ω → Prop} {Q : α → Prop}

theorem Ensures.pure {a : α} (h : Q a) : (Pure.pure a : Emit ω ε α).Ensures P Q :=
  ⟨nofun, fun _ ha => Except.ok.inj ha ▸ h⟩

theorem Ensures.lift {r : Except ε α} (h : ∀ a, r = .ok a → Q a) :
    (Emit.lift r : Emit ω ε α).Ensures P Q :=
  ⟨nofun, h⟩

theorem Ensures.fail (e : ε) : (Emit.fail e : Emit ω ε α).Ensures P Q :=
  ⟨nofun, nofun⟩

theorem Ensures.emit {w : ω} (h : P w) : (Emit.emit w : Emit ω ε Unit).Ensures P fun _ => True :=
  ⟨fun _ hw => List.mem_singleton.1 hw ▸ h, fun _ _ => trivial⟩

theorem Ensures.bind {R : β → Prop} {x : Emit ω ε α} {f : α → Emit ω ε β} (hx : x.Ensures P Q)
    (hf : ∀ a, Q a → (f a).Ensures P R) : (x >>= f).Ensures P R := by
  refine ⟨fun w hw => ?_, fun b hb => ?_⟩
  · cases hresult : x.result with
    | error e =>
      have hsame : (x >>= f).emitted = x.emitted := by
        show (andThen x f).emitted = _
        unfold andThen
        rw [hresult]
      exact hx.1 w (hsame ▸ hw)
    | ok a =>
      rw [emitted_bind_of_ok hresult, List.mem_append] at hw
      rcases hw with hw | hw
      · exact hx.1 w hw
      · exact (hf a (hx.2 a hresult)).1 w hw
  · obtain ⟨a, ha, hb⟩ := (result_bind_eq_ok_iff x f b).1 hb
    exact (hf a (hx.2 a ha)).2 b hb

end Emit

/-! ### The recording generator -/

/-- A call that the generator has come to: where it stands, and the call itself. -/
structure Visit where
  /-- Label of the block that is being written; the main block has none. -/
  block : Option Label
  frame : Frame
  ctx : Context
  func : Expr Nat
  args : List (Expr Nat)
  /-- Number of the call. -/
  app : Nat

/-- What the recording generator emits. -/
inductive GenEvent where
  | visit (v : Visit)
  | block (label : Label) (code : Code)

namespace GenEvent

def visit? : GenEvent → Option Visit
  | visit v => some v
  | block _ _ => none

def block? : GenEvent → Option (Label × Code)
  | visit _ => none
  | block l code => some (l, code)

end GenEvent

namespace Expr

mutual
/-- `gen` with a record of every call it comes to; `block` labels the block being written. -/
def genTraced (calls : List TailCall) (block : Option Label) (f : Frame) (ctx : Context) :
    Expr Nat → Emit GenEvent Error Code
  | lit v _ => return .const v :: ctx.leave
  | var x _ => do
    let i ← Emit.lift (f.reference x)
    return i :: ctx.leave
  | cond test yes no _ => do
    let test ← genTraced calls block f .value test
    let yes ← genTraced calls block f ctx yes
    let no ← genTraced calls block f ctx no
    match ctx with
    | .value =>
      return test ++ [.test (yes.length + 2)] ++ yes ++ [.jump (no.length + 1)] ++ no
    | .tail _ => return test ++ [.test (yes.length + 1)] ++ yes ++ no
  | lambda params body t => do
    let captured := body.free (params ++ Primitive.names)
    let values ← Emit.lift (f.pushNames captured)
    let code ← genTraced calls (some ⟨t⟩) (.ofProcedure params captured []) (.tail params.length)
      body
    Emit.emit (.block ⟨t⟩ code)
    return values ++ [.close captured.length ⟨t⟩] ++ ctx.leave
  | assign _ _ _ => Emit.fail (.rejected .assign)
  | app func args t => do
    Emit.emit (.visit ⟨block, f, ctx, func, args, t⟩)
    match calls.find? (·.app = t) with
    | some call => do
      let pushed ← genArgsTraced calls block f args
      let func ← genTraced calls block (f.raise args.length) .value func
      return pushed ++ func ++ [.shift args.length call.cells, .apply]
    | none => do
      let pushed ← genArgsTraced calls block (f.raise 3) args
      let func ← genTraced calls block (f.raise (3 + args.length)) .value func
      return [.frame (pushed.length + func.length + 2)] ++ pushed ++ func ++ [.apply] ++ ctx.leave
  | letIn bindings body _ => do
    let (inits, f') ← genBindingsTraced calls block f bindings
    let body ← genTraced calls block f' (ctx.deeper bindings.length) body
    return inits ++ body ++ ctx.drop bindings.length
  | letrec _ _ _ => Emit.fail (.rejected .letrec)
  | fix members body _ => do
    let captured := freeMembers (members.map (·.name) ++ Primitive.names) members
    let group := groupLabels members
    genMembersTraced calls captured group.reverse members
    let (closures, f') ← Emit.lift (f.closeMembers captured group)
    let body ← genTraced calls block f' (ctx.deeper members.length) body
    return closures ++ body ++ ctx.drop members.length
  | seq items _ => genSeqTraced calls block f ctx items
termination_by structural e => e

def genArgsTraced (calls : List TailCall) (block : Option Label) (f : Frame) :
    List (Expr Nat) → Emit GenEvent Error Code
  | [] => return []
  | e :: es => do
    let rest ← genArgsTraced calls block f es
    let first ← genTraced calls block (f.raise es.length) .value e
    return rest ++ first ++ [.push]
termination_by structural es => es

def genBindingsTraced (calls : List TailCall) (block : Option Label) (f : Frame) :
    List (Name × Expr Nat) → Emit GenEvent Error (Code × Frame)
  | [] => return ([], f)
  | (x, e) :: bs => do
    let first ← genTraced calls block f .value e
    let (rest, f') ← genBindingsTraced calls block (f.bind x) bs
    return (first ++ [.push] ++ rest, f')
termination_by structural bs => bs

def genMembersTraced (calls : List TailCall) (captured : List Name)
    (group : List (Name × Label)) : List (Member Nat (Expr Nat)) → Emit GenEvent Error Unit
  | [] => return ()
  | ⟨_, t, params, body⟩ :: ms => do
    let code ← genTraced calls (some ⟨t⟩) (.ofProcedure params captured group)
      (.tail params.length) body
    Emit.emit (.block ⟨t⟩ code)
    genMembersTraced calls captured group ms
termination_by structural ms => ms

def genSeqTraced (calls : List TailCall) (block : Option Label) (f : Frame) (ctx : Context) :
    List (Expr Nat) → Emit GenEvent Error Code
  | [] => Emit.fail .emptySequence
  | [e] => genTraced calls block f ctx e
  | e :: e' :: es => do
    let first ← genTraced calls block f .value e
    let rest ← genSeqTraced calls block f ctx (e' :: es)
    return first ++ rest
termination_by structural es => es
end

/-- `genMain` with a record of every call it comes to. -/
def genMainTraced (calls : List TailCall) (e : Expr Nat) : Emit GenEvent Error Code := do
  let code ← genTraced calls none .main .value e
  return code ++ [.halt]

/-- The calls that the generator comes to, in this order. -/
def visits (calls : List TailCall) (e : Expr Nat) : List Visit :=
  (e.genMainTraced calls).emitted.filterMap GenEvent.visit?

/-! ### Without the records -/

open Emit

variable {calls : List TailCall}

/-- Without its records, the recording generator treats the tree as the generator does. -/
def Forgets (e : Expr Nat) : Prop :=
  ∀ calls block f ctx, (genTraced calls block f ctx e).filterEmitted GenEvent.block? =
    gen calls f ctx e

theorem filterEmitted_visit {α : Type} (v : Visit) (k : Unit → Emit GenEvent Error α) :
    (emit (.visit v) >>= k).filterEmitted GenEvent.block? =
      (k ()).filterEmitted GenEvent.block? := by
  rw [filterEmitted_bind]
  rfl

theorem filterEmitted_block (l : Label) (code : Code) :
    (emit (.block l code) : Emit GenEvent Error Unit).filterEmitted GenEvent.block? =
      emit (l, code) := rfl

theorem forgets_args {es : List (Expr Nat)} (h : ∀ e ∈ es, Forgets e) (block : Option Label)
    (f : Frame) :
    (genArgsTraced calls block f es).filterEmitted GenEvent.block? = genArgs calls f es := by
  induction es with
  | nil => rfl
  | cons e es ih =>
    obtain ⟨he, hes⟩ := List.forall_mem_cons.1 h
    simp only [genArgsTraced, genArgs, filterEmitted_bind, filterEmitted_pure, ih hes,
      he calls block]

theorem forgets_bindings {bs : List (Name × Expr Nat)} (h : ∀ b ∈ bs, Forgets b.2)
    (block : Option Label) (f : Frame) :
    (genBindingsTraced calls block f bs).filterEmitted GenEvent.block? =
      genBindings calls f bs := by
  induction bs generalizing f with
  | nil => rfl
  | cons b bs ih =>
    obtain ⟨x, e⟩ := b
    obtain ⟨he, hbs⟩ := List.forall_mem_cons.1 h
    simp only [genBindingsTraced, genBindings, filterEmitted_bind, filterEmitted_pure, ih hbs,
      he calls block]

theorem forgets_members {ms : List (Member Nat (Expr Nat))} (h : ∀ m ∈ ms, Forgets m.body)
    (captured : List Name) (group : List (Name × Label)) :
    (genMembersTraced calls captured group ms).filterEmitted GenEvent.block? =
      genMembers calls captured group ms := by
  induction ms with
  | nil => rfl
  | cons m ms ih =>
    obtain ⟨x, t, params, body⟩ := m
    obtain ⟨hm, hms⟩ := List.forall_mem_cons.1 h
    simp only [genMembersTraced, genMembers, filterEmitted_bind, filterEmitted_block, ih hms,
      hm calls]

theorem forgets_seq {es : List (Expr Nat)} (h : ∀ e ∈ es, Forgets e) (block : Option Label)
    (f : Frame) (ctx : Context) :
    (genSeqTraced calls block f ctx es).filterEmitted GenEvent.block? = genSeq calls f ctx es := by
  induction es with
  | nil => rfl
  | cons e es ih =>
    obtain ⟨he, hes⟩ := List.forall_mem_cons.1 h
    cases es with
    | nil => exact he calls block f ctx
    | cons e' es =>
      simp only [genSeqTraced, genSeq, filterEmitted_bind, filterEmitted_pure, ih hes,
        he calls block]

theorem forgets (e : Expr Nat) : Forgets e := by
  induction e with
  | lit v t => exact fun _ _ _ _ => rfl
  | var x t =>
    intro calls block f ctx
    simp only [genTraced, gen, filterEmitted_bind, filterEmitted_lift, filterEmitted_pure]
  | cond test yes no t htest hyes hno =>
    intro calls block f ctx
    simp only [genTraced, gen, filterEmitted_bind, htest calls block, hyes calls block,
      hno calls block]
    cases ctx <;> rfl
  | lambda params body t hbody =>
    intro calls block f ctx
    simp only [genTraced, gen, filterEmitted_bind, filterEmitted_lift, filterEmitted_block,
      filterEmitted_pure, hbody calls]
  | assign x value t hvalue => exact fun _ _ _ _ => rfl
  | app func args t hfunc hargs =>
    intro calls block f ctx
    rw [genTraced, gen, filterEmitted_visit]
    cases calls.find? (·.app = t) with
    | some call =>
      simp only [filterEmitted_bind, filterEmitted_pure, forgets_args hargs, hfunc calls block]
    | none =>
      simp only [filterEmitted_bind, filterEmitted_pure, forgets_args hargs, hfunc calls block]
  | letIn bindings body t hbindings hbody =>
    intro calls block f ctx
    simp only [genTraced, gen, filterEmitted_bind, filterEmitted_pure,
      forgets_bindings hbindings, hbody calls block]
  | letrec bindings body t hbindings hbody => exact fun _ _ _ _ => rfl
  | fix members body t hmembers hbody =>
    intro calls block f ctx
    simp only [genTraced, gen, filterEmitted_bind, filterEmitted_lift, filterEmitted_pure,
      forgets_members hmembers, hbody calls block]
  | seq items t hitems => exact fun calls block f ctx => forgets_seq hitems block f ctx

theorem filterEmitted_genMainTraced (calls : List TailCall) (e : Expr Nat) :
    (e.genMainTraced calls).filterEmitted GenEvent.block? = e.genMain calls := by
  simp only [genMainTraced, genMain, filterEmitted_bind, filterEmitted_pure,
    forgets e calls none]

/-! ### Every call is visited -/

/-- If the computation succeeds, it has recorded every call of the tree. -/
def Records {α : Type} (x : Emit GenEvent Error α) (e : Expr Nat) : Prop :=
  ∀ a, x.result = .ok a → ∀ func args t, Occurs (app func args t) e →
    ∃ block f ctx, .visit ⟨block, f, ctx, func, args, t⟩ ∈ x.emitted

section

variable {α β : Type} {x : Emit GenEvent Error α} {k : α → Emit GenEvent Error β} {e : Expr Nat}

theorem Records.left (h : Records x e) : Records (x >>= k) e := by
  intro b hb func args t hoccurs
  obtain ⟨a, ha, _⟩ := (result_bind_eq_ok_iff x k b).1 hb
  obtain ⟨block, f, ctx, hvisit⟩ := h a ha func args t hoccurs
  rw [emitted_bind_of_ok ha]
  exact ⟨block, f, ctx, List.mem_append_left _ hvisit⟩

theorem Records.right (h : ∀ a, Records (k a) e) : Records (x >>= k) e := by
  intro b hb func args t hoccurs
  obtain ⟨a, ha, hb⟩ := (result_bind_eq_ok_iff x k b).1 hb
  obtain ⟨block, f, ctx, hvisit⟩ := h a b hb func args t hoccurs
  rw [emitted_bind_of_ok ha]
  exact ⟨block, f, ctx, List.mem_append_right _ hvisit⟩

theorem records_of_children (hroot : ∀ func args t, e ≠ app func args t)
    (h : ∀ d ∈ e.children, Records x d) : Records x e := by
  intro a ha func args t hoccurs
  cases hoccurs with
  | self => exact absurd rfl (hroot func args t)
  | inside hd hoccurs => exact h _ hd a ha func args t hoccurs

end

/-- The recording generator records every call of the tree, if it succeeds. -/
def Recorded (e : Expr Nat) : Prop :=
  ∀ calls block f ctx, Records (genTraced calls block f ctx e) e

theorem recorded_args {es : List (Expr Nat)} (h : ∀ e ∈ es, Recorded e) (block : Option Label)
    (f : Frame) : ∀ e ∈ es, Records (genArgsTraced calls block f es) e := by
  induction es with
  | nil => exact nofun
  | cons e es ih =>
    obtain ⟨he, hes⟩ := List.forall_mem_cons.1 h
    rw [genArgsTraced]
    refine List.forall_mem_cons.2 ⟨?_, fun d hd => ?_⟩
    · exact .right fun rest => .left (he calls block _ _)
    · exact .left (ih hes d hd)

theorem recorded_bindings {bs : List (Name × Expr Nat)} (h : ∀ b ∈ bs, Recorded b.2)
    (block : Option Label) (f : Frame) :
    ∀ b ∈ bs, Records (genBindingsTraced calls block f bs) b.2 := by
  induction bs generalizing f with
  | nil => exact nofun
  | cons b bs ih =>
    obtain ⟨x, e⟩ := b
    obtain ⟨he, hbs⟩ := List.forall_mem_cons.1 h
    rw [genBindingsTraced]
    refine List.forall_mem_cons.2 ⟨?_, fun b hb => ?_⟩
    · exact .left (he calls block _ _)
    · exact .right fun first => .left (ih hbs _ b hb)

theorem recorded_members {ms : List (Member Nat (Expr Nat))} (h : ∀ m ∈ ms, Recorded m.body)
    (captured : List Name) (group : List (Name × Label)) :
    ∀ m ∈ ms, Records (genMembersTraced calls captured group ms) m.body := by
  induction ms with
  | nil => exact nofun
  | cons m ms ih =>
    obtain ⟨x, t, params, body⟩ := m
    obtain ⟨hm, hms⟩ := List.forall_mem_cons.1 h
    rw [genMembersTraced]
    refine List.forall_mem_cons.2 ⟨?_, fun m hm => ?_⟩
    · exact .left (hm calls _ _ _)
    · exact .right fun code => .right fun _ => ih hms m hm

theorem recorded_seq {es : List (Expr Nat)} (h : ∀ e ∈ es, Recorded e) (block : Option Label)
    (f : Frame) (ctx : Context) : ∀ e ∈ es, Records (genSeqTraced calls block f ctx es) e := by
  induction es with
  | nil => exact nofun
  | cons e es ih =>
    obtain ⟨he, hes⟩ := List.forall_mem_cons.1 h
    cases es with
    | nil => exact List.forall_mem_singleton.2 (he calls block f ctx)
    | cons e' es =>
      rw [genSeqTraced]
      refine List.forall_mem_cons.2 ⟨?_, fun d hd => ?_⟩
      · exact .left (he calls block _ _)
      · exact .right fun first => .left (ih hes d hd)

theorem records_app {α : Type} {func : Expr Nat} {args : List (Expr Nat)} {t : Nat}
    {block : Option Label} {f : Frame} {ctx : Context} {k : Unit → Emit GenEvent Error α}
    (hfunc : Records (k ()) func) (hargs : ∀ e ∈ args, Records (k ()) e) :
    Records (emit (.visit ⟨block, f, ctx, func, args, t⟩) >>= k) (app func args t) := by
  intro a ha func' args' t' hoccurs
  cases hoccurs with
  | self =>
    rw [emitted_bind_of_ok (show (emit _ : Emit GenEvent Error Unit).result = .ok () from rfl)]
    exact ⟨block, f, ctx, List.mem_append_left _ (List.mem_singleton_self _)⟩
  | inside hd hoccurs =>
    have hbelow : Records (emit (.visit ⟨block, f, ctx, func, args, t⟩) >>= k) _ :=
      .right fun _ => List.forall_mem_cons.2 ⟨hfunc, hargs⟩ _ hd
    exact hbelow a ha func' args' t' hoccurs

theorem recorded (e : Expr Nat) : Recorded e := by
  induction e with
  | lit v t => exact fun _ _ _ _ => records_of_children (by simp) (by simp [children])
  | var x t => exact fun _ _ _ _ => records_of_children (by simp) (by simp [children])
  | cond test yes no t htest hyes hno =>
    intro calls block f ctx
    refine records_of_children (by simp) ?_
    rw [genTraced]
    refine List.forall_mem_cons.2 ⟨.left (htest calls block _ _), List.forall_mem_cons.2
      ⟨.right fun ct => .left (hyes calls block _ _), List.forall_mem_singleton.2 ?_⟩⟩
    exact .right fun ct => .right fun cy => .left (hno calls block _ _)
  | lambda params body t hbody =>
    intro calls block f ctx
    refine records_of_children (by simp) ?_
    rw [genTraced]
    exact List.forall_mem_singleton.2 (.right fun values => .left (hbody calls _ _ _))
  | assign x value t hvalue => exact fun _ _ _ _ _ h => by cases h
  | app func args t hfunc hargs =>
    intro calls block f ctx
    rw [genTraced]
    refine records_app ?_ fun d hd => ?_
    · split
      · exact .right fun pushed => .left (hfunc calls block _ _)
      · exact .right fun pushed => .left (hfunc calls block _ _)
    · split
      · exact .left (recorded_args hargs block _ d hd)
      · exact .left (recorded_args hargs block _ d hd)
  | letIn bindings body t hbindings hbody =>
    intro calls block f ctx
    refine records_of_children (by simp) ?_
    rw [genTraced, children, List.forall_mem_append, List.forall_mem_map,
      List.forall_mem_singleton]
    refine ⟨fun b hb => .left (recorded_bindings hbindings block f b hb), ?_⟩
    exact .right fun r => .left (hbody calls block _ _)
  | letrec bindings body t hbindings hbody => exact fun _ _ _ _ _ h => by cases h
  | fix members body t hmembers hbody =>
    intro calls block f ctx
    refine records_of_children (by simp) ?_
    rw [genTraced, children, List.forall_mem_append, List.forall_mem_map,
      List.forall_mem_singleton]
    refine ⟨fun m hm => .left (recorded_members hmembers _ _ m hm), ?_⟩
    exact .right fun _ => .right fun r => .left (hbody calls block _ _)
  | seq items t hitems =>
    intro calls block f ctx
    exact records_of_children (by simp) (recorded_seq hitems block f ctx)

theorem mem_visits_iff {e : Expr Nat} {v : Visit} :
    v ∈ e.visits calls ↔ .visit v ∈ (e.genMainTraced calls).emitted := by
  rw [visits, List.mem_filterMap]
  constructor
  · rintro ⟨event, hmem, hevent⟩
    cases event with
    | visit v' =>
      injection hevent with hevent
      exact hevent ▸ hmem
    | block l code => cases hevent
  · exact fun hmem => ⟨.visit v, hmem, rfl⟩

/-! ### The table and the context -/

/-- The block and the frame are those that the target of a tail call at this place has. -/
def Stands (block : Option Label) (f : Frame) (target : Option TailTarget) : Prop :=
  ∀ goal, target = some goal →
    block = some ⟨goal.proc⟩ ∧ goal.cells = f.params.length + f.height

theorem stands_none {block : Option Label} {f : Frame} : Stands block f none :=
  nofun

theorem stands_procedure {t : Nat} {params captured : List Name} {group : List (Name × Label)} :
    Stands (some ⟨t⟩) (.ofProcedure params captured group) (some ⟨t, params.length⟩) := by
  intro goal hgoal
  injection hgoal with hgoal
  subst hgoal
  exact ⟨rfl, rfl⟩

theorem Stands.bindAll {block : Option Label} {f : Frame} {target : Option TailTarget}
    (h : Stands block f target) (xs : List Name) :
    Stands block (f.bindAll xs) (target.map (·.deeper xs.length)) := by
  intro goal hgoal
  obtain ⟨goal', hgoal', rfl⟩ := Option.map_eq_some_iff.1 hgoal
  obtain ⟨hblock, hcells⟩ := h goal' hgoal'
  refine ⟨hblock, ?_⟩
  rw [Frame.params_bindAll, Frame.height_bindAll]
  simp only [TailTarget.deeper]
  omega

end Expr

/-- What the table of tail calls says of a call is what the place of the call says. -/
structure Visit.Agrees (calls : List TailCall) (v : Visit) : Prop where
  listed_iff : (∃ call, calls.find? (·.app = v.app) = some call) ↔ ∃ cells, v.ctx = .tail cells
  cells_eq : ∀ call cells, calls.find? (·.app = v.app) = some call → v.ctx = .tail cells →
    call.cells = cells ∧ cells = v.frame.params.length + v.frame.height ∧
      v.block = some ⟨call.proc⟩
  /-- A tail call slides its arguments over exactly the cells of the frame. -/
  shift_eq : ∀ call code, calls.find? (·.app = v.app) = some call →
    ((Expr.app v.func v.args v.app).gen calls v.frame v.ctx).result = .ok code →
      ∃ before, code = before ++
        [.shift v.args.length (v.frame.params.length + v.frame.height), .apply]

def GenEvent.Agrees (calls : List TailCall) : GenEvent → Prop
  | visit v => v.Agrees calls
  | block _ _ => True

namespace Expr

open Emit

variable {calls : List TailCall}

theorem shift_of_gen {func : Expr Nat} {args : List (Expr Nat)} {t : Nat} {f : Frame}
    {ctx : Context} {call : TailCall} {code : Code} (hcall : calls.find? (·.app = t) = some call)
    (h : ((app func args t).gen calls f ctx).result = .ok code) :
    ∃ before, code = before ++ [.shift args.length call.cells, .apply] := by
  simp only [gen, hcall] at h
  obtain ⟨pushed, _, h⟩ := (result_bind_eq_ok_iff ..).1 h
  obtain ⟨cf, _, h⟩ := (result_bind_eq_ok_iff ..).1 h
  exact ⟨pushed ++ cf, (Except.ok.inj h).symm⟩

theorem agrees_of_tableTells {target : Option TailTarget} {block : Option Label} {f : Frame}
    {func : Expr Nat} {args : List (Expr Nat)} {t : Nat} (htells : TableTells calls target t)
    (hstands : Stands block f target) :
    Visit.Agrees calls ⟨block, f, .ofTarget target, func, args, t⟩ := by
  cases target with
  | none =>
    have hnone : calls.find? (·.app = t) = none := htells
    refine ⟨?_, fun call cells hcall => ?_, fun call code hcall => ?_⟩
    · simp [hnone, Context.ofTarget]
    · cases hnone.symm.trans hcall
    · cases hnone.symm.trans hcall
  | some goal =>
    have hsome : calls.find? (·.app = t) = some ⟨t, goal.proc, goal.cells⟩ := htells
    obtain ⟨hblock, hcells⟩ := hstands goal rfl
    refine ⟨?_, fun call cells hcall hctx => ?_, fun call code hcall hcode => ?_⟩
    · simp [hsome, Context.ofTarget]
    · cases hsome.symm.trans hcall
      cases hctx
      exact ⟨rfl, hcells, hblock⟩
    · cases hsome.symm.trans hcall
      rw [← hcells]
      exact shift_of_gen hsome hcode

/-- In a marked tree whose place is known, all visits agree with the table. -/
def AgreesInside (e : Expr Nat) : Prop :=
  ∀ calls target block f, Marked calls target e → Stands block f target →
    (genTraced calls block f (.ofTarget target) e).Ensures (GenEvent.Agrees calls) fun _ => True

theorem agrees_args {es : List (Expr Nat)} (h : ∀ e ∈ es, AgreesInside e)
    (hmarked : ∀ e ∈ es, Marked calls none e) (block : Option Label) (f : Frame) :
    (genArgsTraced calls block f es).Ensures (GenEvent.Agrees calls) fun _ => True := by
  induction es with
  | nil => exact .pure trivial
  | cons e es ih =>
    obtain ⟨he, hes⟩ := List.forall_mem_cons.1 h
    obtain ⟨hmarked₁, hmarked₂⟩ := List.forall_mem_cons.1 hmarked
    rw [genArgsTraced]
    exact .bind (ih hes hmarked₂) fun rest _ =>
      .bind (he calls none block _ hmarked₁ stands_none) fun first _ => .pure trivial

theorem genBindingsTraced_frame {bs : List (Name × Expr Nat)} {block : Option Label} {f : Frame}
    {r : Code × Frame} (h : (genBindingsTraced calls block f bs).result = .ok r) :
    r.2 = f.bindAll (bs.map (·.1)) := by
  have hsame : (genBindingsTraced calls block f bs).filterEmitted GenEvent.block? =
      genBindings calls f bs :=
    forgets_bindings (fun b _ => forgets b.2) block f
  have hplain : (genBindings calls f bs).result = .ok r := by
    rw [← hsame]
    exact h
  exact genBindings_frame hplain

theorem agrees_bindings {bs : List (Name × Expr Nat)} (h : ∀ b ∈ bs, AgreesInside b.2)
    (hmarked : ∀ b ∈ bs, Marked calls none b.2) (block : Option Label) (f : Frame) :
    (genBindingsTraced calls block f bs).Ensures (GenEvent.Agrees calls) fun _ => True := by
  induction bs generalizing f with
  | nil => exact .pure trivial
  | cons b bs ih =>
    obtain ⟨x, e⟩ := b
    obtain ⟨he, hbs⟩ := List.forall_mem_cons.1 h
    obtain ⟨hmarked₁, hmarked₂⟩ := List.forall_mem_cons.1 hmarked
    rw [genBindingsTraced]
    exact .bind (he calls none block _ hmarked₁ stands_none) fun first _ =>
      .bind (ih hbs hmarked₂ _) fun r _ => .pure trivial

theorem agrees_members {ms : List (Member Nat (Expr Nat))} (h : ∀ m ∈ ms, AgreesInside m.body)
    (hmarked : ∀ m ∈ ms, Marked calls (some ⟨m.tag, m.params.length⟩) m.body)
    (captured : List Name) (group : List (Name × Label)) :
    (genMembersTraced calls captured group ms).Ensures (GenEvent.Agrees calls) fun _ => True := by
  induction ms with
  | nil => exact .pure trivial
  | cons m ms ih =>
    obtain ⟨x, t, params, body⟩ := m
    obtain ⟨hm, hms⟩ := List.forall_mem_cons.1 h
    obtain ⟨hmarked₁, hmarked₂⟩ := List.forall_mem_cons.1 hmarked
    rw [genMembersTraced]
    exact .bind (hm calls _ _ _ hmarked₁ stands_procedure) fun code _ =>
      .bind (.emit trivial) fun _ _ => ih hms hmarked₂

theorem agrees_seq {es : List (Expr Nat)} (h : ∀ e ∈ es, AgreesInside e)
    {target : Option TailTarget} (hmarked : AtCallsSeq (TableTells calls) target es)
    {block : Option Label} {f : Frame} (hstands : Stands block f target) :
    (genSeqTraced calls block f (.ofTarget target) es).Ensures (GenEvent.Agrees calls)
      fun _ => True := by
  induction es with
  | nil => exact .fail _
  | cons e es ih =>
    obtain ⟨he, hes⟩ := List.forall_mem_cons.1 h
    cases es with
    | nil => exact he calls target block f hmarked hstands
    | cons e' es =>
      rw [genSeqTraced]
      exact .bind (he calls none block _ hmarked.1 stands_none) fun first _ =>
        .bind (ih hes hmarked.2) fun rest _ => .pure trivial

theorem agreesInside (e : Expr Nat) : AgreesInside e := by
  induction e with
  | lit v t => exact fun _ _ _ _ _ _ => .pure trivial
  | var x t =>
    intro calls target block f _ _
    rw [genTraced]
    exact .bind (.lift fun i hi => hi) fun i _ => .pure trivial
  | cond test yes no t htest hyes hno =>
    intro calls target block f hmarked hstands
    rw [genTraced]
    refine .bind (htest calls none block f hmarked.1 stands_none) fun ct _ =>
      .bind (hyes calls target block f hmarked.2.1 hstands) fun cy _ =>
      .bind (hno calls target block f hmarked.2.2 hstands) fun cn _ => ?_
    cases target <;> exact .pure trivial
  | lambda params body t hbody =>
    intro calls target block f hmarked _
    rw [genTraced]
    exact .bind (.lift fun values hvalues => hvalues) fun values _ =>
      .bind (hbody calls _ _ _ hmarked stands_procedure) fun code _ =>
      .bind (.emit trivial) fun _ _ => .pure trivial
  | assign x value t hvalue => exact fun _ _ _ _ _ _ => .fail _
  | app func args t hfunc hargs =>
    intro calls target block f hmarked hstands
    obtain ⟨htells, hmarkedFunc, hmarkedArgs⟩ := hmarked
    rw [atCallsList_iff] at hmarkedArgs
    rw [genTraced]
    refine .bind (.emit (agrees_of_tableTells htells hstands)) fun _ _ => ?_
    split
    · exact .bind (agrees_args hargs hmarkedArgs block _) fun pushed _ =>
        .bind (hfunc calls none block _ hmarkedFunc stands_none) fun cf _ => .pure trivial
    · exact .bind (agrees_args hargs hmarkedArgs block _) fun pushed _ =>
        .bind (hfunc calls none block _ hmarkedFunc stands_none) fun cf _ => .pure trivial
  | letIn bindings body t hbindings hbody =>
    intro calls target block f hmarked hstands
    have hinits := agrees_bindings hbindings (atCallsBindings_iff.1 hmarked.1) block f
    have hframe := hstands.bindAll (bindings.map (·.1))
    rw [List.length_map] at hframe
    have hrest := hbody calls _ block _ hmarked.2 hframe
    rw [Context.ofTarget_deeper] at hrest
    rw [genTraced]
    refine .bind ⟨hinits.1, fun r hr => genBindingsTraced_frame hr⟩ fun r hr => ?_
    obtain ⟨inits, f'⟩ := r
    obtain rfl : f' = f.bindAll (bindings.map (·.1)) := hr
    exact .bind hrest fun cb _ => .pure trivial
  | letrec bindings body t hbindings hbody => exact fun _ _ _ _ _ _ => .fail _
  | fix members body t hmembers hbody =>
    intro calls target block f hmarked hstands
    have hprocs := agrees_members hmembers (atCallsMembers_iff.1 hmarked.1)
      (freeMembers (members.map (·.name) ++ Primitive.names) members)
      (groupLabels members).reverse
    have hframe := hstands.bindAll ((groupLabels members).map (·.1))
    rw [List.length_map, groupLabels, List.length_map] at hframe
    have hrest := hbody calls _ block _ hmarked.2 hframe
    rw [Context.ofTarget_deeper] at hrest
    rw [genTraced]
    refine .bind hprocs fun _ _ =>
      .bind (.lift fun r hr => Frame.closeMembers_frame hr) fun r hr => ?_
    obtain ⟨closures, f'⟩ := r
    obtain rfl : f' = f.bindAll ((groupLabels members).map (·.1)) := hr
    exact .bind hrest fun cb _ => .pure trivial
  | seq items t hitems =>
    intro calls target block f hmarked hstands
    exact agrees_seq hitems hmarked hstands

/-- At every call that the generator comes to, the table of tail calls has an entry exactly if the
call is in tail position; the entry then has the cells of the frame at that point and the procedure
whose block is being written, and the call slides its arguments over exactly these cells. No call
is left out if the generator succeeds. -/
theorem tailCalls_agree_at_visits {e : Expr Nat} (h : e.tags.Nodup) :
    (e.genMainTraced e.tailCalls).filterEmitted GenEvent.block? = e.genMain e.tailCalls ∧
      (∀ v ∈ e.visits e.tailCalls, v.Agrees e.tailCalls) ∧
      ∀ code, (e.genMain e.tailCalls).result = .ok code → ∀ func args t,
        Occurs (app func args t) e →
          ∃ block f ctx, ⟨block, f, ctx, func, args, t⟩ ∈ e.visits e.tailCalls := by
  have hforget := filterEmitted_genMainTraced e.tailCalls e
  refine ⟨hforget, fun v hv => ?_, fun code hcode func args t hoccurs => ?_⟩
  · have hmain : (e.genMainTraced e.tailCalls).Ensures (GenEvent.Agrees e.tailCalls)
        fun _ => True :=
      .bind (agreesInside e e.tailCalls none none .main (marked_tailCalls h) stands_none)
        fun code _ => .pure trivial
    exact hmain.1 (.visit v) (mem_visits_iff.1 hv)
  · have hrecords : Records (e.genMainTraced e.tailCalls) e :=
      .left (recorded e e.tailCalls none .main .value)
    rw [← hforget] at hcode
    obtain ⟨block, f, ctx, hvisit⟩ := hrecords code hcode func args t hoccurs
    exact ⟨block, f, ctx, mem_visits_iff.2 hvisit⟩

/-- A procedure with a call that binds a temporary, and a call in tail position below it. -/
def calledTwice : Expr Nat :=
  .lambda ["f", "n"]
    (.letIn [("m", .app (.var "f" 0) [.var "n" 1] 2)] (.app (.var "f" 3) [.var "m" 4] 5) 6) 7

theorem tailCalls_agree_at_calledTwice : calledTwice.tags.Nodup ∧
    ∃ v ∈ calledTwice.visits calledTwice.tailCalls, v.app = 5 ∧ v.ctx = .tail 3 ∧
      calledTwice.tailCalls = [⟨5, 7, 3⟩] ∧ v.Agrees calledTwice.tailCalls := by
  have hnodup : calledTwice.tags.Nodup := by decide
  have hvisit : (⟨some ⟨7⟩, ⟨["f", "n"], [("m", 0)], [], [], 1⟩, .tail 3, .var "f" 3,
      [.var "m" 4], 5⟩ : Visit) ∈ calledTwice.visits calledTwice.tailCalls :=
    .tail _ (.head _)
  exact ⟨hnodup, _, hvisit, rfl, rfl, rfl, (tailCalls_agree_at_visits hnodup).2.1 _ hvisit⟩

end Expr

end MiniScheme
