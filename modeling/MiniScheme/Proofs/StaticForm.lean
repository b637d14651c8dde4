import MiniScheme.Proofs.ControlFlow
import MiniScheme.Proofs.Generation
import MiniScheme.Proofs.Linking
import MiniScheme.Proofs.Placement
import MiniScheme.Proofs.TailPosition

/-!
# Form of generated code

Every block of generated code has one stack height for each instruction, whichever way control
reaches it, and reads and drops only what is there at that height. There is one block for each
lambda and each member of a group, and it is entered with as many captured values as it expects.
-/

namespace MiniScheme

open MiniScheme.Flow

namespace Expr

mutual
/-- The lambdas and the members of groups of a tree, in the order of their blocks. -/
def procedures : Expr Nat → List Proc
  | lit _ _ => []
  | var _ _ => []
  | cond test yes no _ => procedures test ++ (procedures yes ++ procedures no)
  | lambda params body t =>
    procedures body ++ [⟨t, params.length, (body.free (params ++ Primitive.names)).length⟩]
  | assign _ value _ => procedures value
  | app func args _ => proceduresArgs args ++ procedures func
  | letIn bindings body _ => proceduresBindings bindings ++ procedures body
  | letrec bindings body _ => proceduresBindings bindings ++ procedures body
  | fix members body _ =>
    proceduresMembers (freeMembers (members.map (·.name) ++ Primitive.names) members).length
      members ++ procedures body
  | seq items _ => proceduresList items
termination_by structural e => e

/-- The procedures of arguments; the code of the last argument comes first. -/
def proceduresArgs : List (Expr Nat) → List Proc
  | [] => []
  | e :: es => proceduresArgs es ++ procedures e
termination_by structural es => es

def proceduresList : List (Expr Nat) → List Proc
  | [] => []
  | e :: es => procedures e ++ proceduresList es
termination_by structural es => es

def proceduresBindings : List (Name × Expr Nat) → List Proc
  | [] => []
  | (_, e) :: bs => procedures e ++ proceduresBindings bs
termination_by structural bs => bs

/-- The members of a group, of which all capture the same values, and the procedures in them. -/
def proceduresMembers (captured : Nat) : List (Member Nat (Expr Nat)) → List Proc
  | [] => []
  | ⟨_, t, params, body⟩ :: ms =>
    procedures body ++ (⟨t, params.length, captured⟩ :: proceduresMembers captured ms)
termination_by structural ms => ms
end

theorem mem_proceduresMembers {captured : Nat} {ms : List (Member Nat (Expr Nat))}
    {m : Member Nat (Expr Nat)} (hm : m ∈ ms) :
    ⟨m.tag, m.params.length, captured⟩ ∈ proceduresMembers captured ms := by
  induction ms with
  | nil => cases hm
  | cons m' ms ih =>
    obtain ⟨x, t, params, body⟩ := m'
    rw [proceduresMembers, List.mem_append, List.mem_cons]
    rcases List.mem_cons.1 hm with rfl | hm
    · exact .inr (.inl rfl)
    · exact .inr (.inr (ih hm))

end Expr

/-! ### Blocks and what they belong to -/

namespace Emit

variable {α β : Type} {R : Label × Code → Proc → Prop} {ps qs : List Proc}

/-- If the computation succeeds, the blocks it emits belong to these procedures in this order, and
the result is as stated. -/
def Builds (x : Gen α) (R : Label × Code → Proc → Prop) (ps : List Proc) (Q : α → Prop) : Prop :=
  ∀ a, x.result = .ok a → List.Forall₂ R x.emitted ps ∧ Q a

theorem Builds.pure {Q : α → Prop} {a : α} (h : Q a) : (Pure.pure a : Gen α).Builds R [] Q := by
  intro a' ha'
  rw [result_pure, Except.ok.injEq] at ha'
  exact ⟨.nil, ha' ▸ h⟩

theorem Builds.fail {Q : α → Prop} (err : Error) : (Emit.fail err : Gen α).Builds R ps Q :=
  nofun

theorem Builds.emit {b : Label × Code} {p : Proc} (h : R b p) :
    (Emit.emit b : Gen Unit).Builds R [p] fun _ => True :=
  fun _ _ => ⟨.cons h .nil, trivial⟩

theorem Builds.bind {x : Gen α} {g : α → Gen β} {P : α → Prop} {Q : β → Prop}
    (hx : x.Builds R ps P) (hg : ∀ a, P a → (g a).Builds R qs Q) :
    (x >>= g).Builds R (ps ++ qs) Q := by
  intro b hb
  obtain ⟨a, ha, hb⟩ := (result_bind_eq_ok_iff x g b).1 hb
  obtain ⟨hblocks, hP⟩ := hx a ha
  obtain ⟨hblocks', hQ⟩ := hg a hP b hb
  rw [emitted_bind_of_ok ha]
  exact ⟨List.rel_append hblocks hblocks', hQ⟩

theorem Builds.lift {r : Except Error α} {g : α → Gen β} {Q : β → Prop}
    (hg : ∀ a, r = .ok a → (g a).Builds R ps Q) : (Emit.lift r >>= g).Builds R ps Q := by
  intro b hb
  obtain ⟨a, ha, hb⟩ := (result_bind_eq_ok_iff (Emit.lift r) g b).1 hb
  rw [emitted_bind_of_ok ha]
  exact hg a ha b hb

/-- The last step of a computation, which emits nothing more. -/
theorem Builds.last {x : Gen α} {g : α → β} {P : α → Prop} {Q : β → Prop} (hx : x.Builds R ps P)
    (hg : ∀ a, P a → Q (g a)) : (x >>= fun a => Pure.pure (g a)).Builds R ps Q := by
  have hall := hx.bind fun a ha => Builds.pure (R := R) (hg a ha)
  rw [List.append_nil] at hall
  exact hall

end Emit

/-- The points that the code of an expression leads to: the one behind it, unless it returns. -/
def Context.exits : Context → Nat → Point → Nat → Point → Prop
  | value, k, pt => At k pt
  | tail _, _, _ => Nowhere

/-- A frame of a block, at a point where the calls `returns` are being prepared and where `target`
would be left by a tail call, describes the stack. -/
structure Frame.Describes (procs : List Proc) (owner : Option Proc) (f : Frame)
    (returns : List (Nat × Nat)) (target : Option TailTarget) : Prop where
  params_eq : f.params.length = paramsOf owner
  captured_eq : f.captured.length = capturedOf owner
  temps_lt : ∀ t ∈ f.temps, t.2 < f.height
  group : ∀ m ∈ f.group, Captures procs m.2 (capturedOf owner)
  floor_le : floor returns ≤ f.height
  leaves : ∀ goal, target = some goal →
    owner.isSome ∧ returns = [] ∧ goal.cells = paramsOf owner + f.height

namespace Frame

variable {procs : List Proc} {owner : Option Proc} {f : Frame} {returns : List (Nat × Nat)}
  {target : Option TailTarget}

theorem describes_main : Frame.main.Describes procs none [] none :=
  ⟨rfl, rfl, nofun, nofun, Nat.le_refl 0, nofun⟩

theorem describes_ofProcedure {t : Nat} {params captured : List Name}
    {group : List (Name × Label)} (hgroup : ∀ m ∈ group, Captures procs m.2 captured.length) :
    (ofProcedure params captured group).Describes procs (some ⟨t, params.length, captured.length⟩)
      [] (some ⟨t, params.length⟩) := by
  refine ⟨rfl, rfl, nofun, hgroup, Nat.le_refl 0, fun goal hgoal => ?_⟩
  cases hgoal
  exact ⟨rfl, rfl, rfl⟩

namespace Describes

theorem value (h : f.Describes procs owner returns target) : f.Describes procs owner returns none :=
  { h with leaves := nofun }

theorem raise (h : f.Describes procs owner returns target) (n : Nat) :
    (f.raise n).Describes procs owner returns none := by
  refine ⟨h.params_eq, h.captured_eq, fun t ht => ?_, h.group, ?_, nofun⟩
  · exact Nat.lt_of_lt_of_le (h.temps_lt t ht) (Nat.le_add_right ..)
  · exact Nat.le_trans h.floor_le (Nat.le_add_right ..)

/-- While a call is being prepared, what is below its three cells stays. -/
theorem prepare (h : f.Describes procs owner returns target) (k : Nat) :
    (f.raise 3).Describes procs owner ((k, f.height) :: returns) none :=
  { h.raise 3 with floor_le := Nat.le_refl _, leaves := nofun }

theorem bind (h : f.Describes procs owner returns target) (x : Name) :
    (f.bind x).Describes procs owner returns (target.map (·.deeper 1)) := by
  refine ⟨h.params_eq, h.captured_eq, fun t ht => ?_, h.group, ?_, fun goal hgoal => ?_⟩
  · rcases List.mem_cons.1 ht with rfl | ht
    · exact Nat.lt_succ_self _
    · exact Nat.lt_succ_of_lt (h.temps_lt t ht)
  · exact Nat.le_succ_of_le h.floor_le
  · obtain ⟨goal', hgoal', rfl⟩ := Option.map_eq_some_iff.1 hgoal
    obtain ⟨howner, hreturns, hcells⟩ := h.leaves goal' hgoal'
    refine ⟨howner, hreturns, ?_⟩
    simp only [TailTarget.deeper, hcells, Frame.bind, Nat.add_assoc]

theorem bindAll (h : f.Describes procs owner returns target) (xs : List Name) :
    (f.bindAll xs).Describes procs owner returns (target.map (·.deeper xs.length)) := by
  induction xs generalizing f target with
  | nil =>
    have hsame : target.map (·.deeper 0) = target := by cases target <;> rfl
    exact hsame.symm ▸ h
  | cons x xs ih =>
    have hsame : (target.map (·.deeper 1)).map (·.deeper xs.length) =
        target.map (·.deeper (x :: xs).length) := by
      cases target with
      | none => rfl
      | some goal =>
        simp only [Option.map_some, TailTarget.deeper, List.length_cons, Nat.add_assoc,
          Nat.add_comm 1]
    exact hsame ▸ ih (h.bind x)

/-- A name is loaded without changing the height, also if more cells have been pushed. -/
theorem reference (h : f.Describes procs owner returns target) {x : Name} {i : Inst Label}
    (hi : f.reference x = .ok i) {height : Nat} (hle : f.height ≤ height) (k : Nat) :
    Runs procs owner k (.inside height returns) [i] (At (k + 1) (.inside height returns)) := by
  refine runs_step ?_
  unfold Frame.reference at hi
  split at hi
  · rename_i j hj
    cases hi
    obtain ⟨hlt, _⟩ := List.idxOf?_eq_some_iff.1 hj
    exact onlyIf_of (h.params_eq ▸ hlt)
  · split at hi
    · rename_i slot hslot
      cases hi
      obtain ⟨before, after, htemps, _⟩ := List.lookup_eq_some_iff.1 hslot
      have hlt := h.temps_lt (x, slot) (by simp [htemps])
      exact onlyIf_of (Nat.lt_of_lt_of_le hlt hle)
    · split at hi
      · rename_i j hj
        cases hi
        obtain ⟨hlt, _⟩ := List.idxOf?_eq_some_iff.1 hj
        exact onlyIf_of (h.captured_eq ▸ hlt)
      · split at hi
        · cases hi
          rfl
        · split at hi
          · rename_i l hl
            cases hi
            obtain ⟨before, after, hgroup, _⟩ := List.lookup_eq_some_iff.1 hl
            exact onlyIf_of (h.group (x, l) (by simp [hgroup]))
          · cases hi

theorem pushNames (h : f.Describes procs owner returns target) {xs : List Name} {code : Code}
    (hcode : f.pushNames xs = .ok code) {height : Nat} (hle : f.height ≤ height) (k : Nat) :
    Runs procs owner k (.inside height returns) code
      (At (k + code.length) (.inside (height + xs.length) returns)) := by
  induction xs generalizing code height k with
  | nil =>
    cases hcode
    exact runs_nil ⟨rfl, rfl⟩
  | cons x xs ih =>
    obtain ⟨i, rest, hi, hrest, rfl⟩ := pushNames_cons_ok.1 hcode
    have hload := h.reference hi hle k
    have hpush : Runs procs owner (k + 1) (.inside height returns) [.push]
        (At (k + 1 + 1) (.inside (height + 1) returns)) := runs_step rfl
    have hle' : f.height ≤ height + 1 := Nat.le_succ_of_le hle
    have hmore := ih hrest hle' (k + 1 + 1)
    have hstop : k + 1 + 1 + rest.length = k + (i :: .push :: rest).length := by
      simp only [List.length_cons]
      omega
    have hheight : height + 1 + xs.length = height + (x :: xs).length := by
      simp only [List.length_cons]
      omega
    rw [hstop, hheight] at hmore
    exact hload.seq (hpush.seq hmore)

/-- A closure is made of values pushed for it, which are gone afterwards. -/
theorem close (h : f.Describes procs owner returns target) {xs : List Name} {values : Code}
    (hvalues : f.pushNames xs = .ok values) {l : Label} (hl : Captures procs l xs.length)
    (k : Nat) :
    Runs procs owner k (.inside f.height returns) (values ++ [.close xs.length l])
      (At (k + values.length + 1) (.inside f.height returns)) := by
  have hfloor := h.floor_le
  refine (h.pushNames hvalues (Nat.le_refl _) k).seq (runs_step ?_)
  have hallowed : Captures procs l xs.length ∧ floor returns + xs.length ≤ f.height + xs.length :=
    ⟨hl, Nat.add_le_add_right hfloor _⟩
  rw [successorsInside, onlyIf_of hallowed, Nat.add_sub_cancel]

theorem closeMembers (h : f.Describes procs owner returns target) {captured : List Name}
    {ms : List (Name × Label)} {code : Code} {f' : Frame}
    (hcode : f.closeMembers captured ms = .ok (code, f'))
    (hms : ∀ m ∈ ms, Captures procs m.2 captured.length) (k : Nat) :
    Runs procs owner k (.inside f.height returns) code
      (At (k + code.length) (.inside (f.height + ms.length) returns)) := by
  induction ms generalizing f target code k with
  | nil =>
    cases hcode
    exact runs_nil ⟨rfl, rfl⟩
  | cons m ms ih =>
    obtain ⟨x, l⟩ := m
    obtain ⟨hl, hms⟩ := List.forall_mem_cons.1 hms
    obtain ⟨values, rest, hvalues, hrest, rfl⟩ := closeMembers_cons_ok.1 hcode
    have hclose := h.close hvalues hl k
    have hpush : Runs procs owner (k + values.length + 1) (.inside f.height returns) [.push]
        (At (k + values.length + 1 + 1) (.inside (f.height + 1) returns)) := runs_step rfl
    have hmore := ih (h.bind x) hrest hms (k + values.length + 1 + 1)
    have hlen : k + values.length + 1 = k + (values ++ [Inst.close captured.length l]).length := by
      rw [List.length_append, List.length_singleton, Nat.add_assoc]
    have hheight : (f.bind x).height + ms.length = f.height + ((x, l) :: ms).length := by
      simp only [Frame.bind, List.length_cons]
      omega
    have hsplit : values ++ [Inst.close captured.length l, .push] ++ rest =
        values ++ [Inst.close captured.length l] ++ ([.push] ++ rest) := by
      simp only [List.append_assoc, List.cons_append, List.nil_append]
    have hstop : k + values.length + 1 + 1 + rest.length =
        k + (values ++ [Inst.close captured.length l] ++ ([Inst.push] ++ rest)).length := by
      simp only [List.length_append, List.length_singleton]
      omega
    rw [hsplit, ← hstop, ← hheight]
    rw [hlen] at hclose hpush hmore ⊢
    exact hclose.seq (hpush.seq hmore)

/-- The end of an expression in a context: the value stays, or it is returned. -/
theorem leave (h : f.Describes procs owner returns target) (k : Nat) :
    Runs procs owner k (.inside f.height returns) (Context.ofTarget target).leave
      ((Context.ofTarget target).exits (k + (Context.ofTarget target).leave.length)
        (.inside f.height returns)) := by
  cases target with
  | none => exact runs_nil ⟨rfl, rfl⟩
  | some goal =>
    obtain ⟨howner, hreturns, hcells⟩ := h.leaves goal rfl
    exact runs_single ⟨[], onlyIf_of ⟨howner, hreturns, hcells⟩, nofun⟩

/-- Code that computes a value, followed by the end of the expression. -/
theorem ending (h : f.Describes procs owner returns target) {k : Nat} {pt : Point} {code : Code}
    (hcode : Runs procs owner k pt code (At (k + code.length) (.inside f.height returns)))
    {stop : Nat} (hstop : stop = k + (code ++ (Context.ofTarget target).leave).length) :
    Runs procs owner k pt (code ++ (Context.ofTarget target).leave)
      ((Context.ofTarget target).exits stop (.inside f.height returns)) := by
  have hleave := h.leave (k + code.length)
  rw [Nat.add_assoc, ← List.length_append, ← hstop] at hleave
  exact hcode.seq hleave

/-- Code that pushes temporaries, and a body after which they are dropped. -/
theorem dropping (h : f.Describes procs owner returns target) {n k : Nat} {inits body : Code}
    (hinits : Runs procs owner k (.inside f.height returns) inits
      (At (k + inits.length) (.inside (f.height + n) returns)))
    (hbody : Runs procs owner (k + inits.length) (.inside (f.height + n) returns) body
      (((Context.ofTarget target).deeper n).exits (k + inits.length + body.length)
        (.inside (f.height + n) returns)))
    {stop : Nat} (hstop : stop = k + (inits ++ body ++ (Context.ofTarget target).drop n).length) :
    Runs procs owner k (.inside f.height returns)
      (inits ++ body ++ (Context.ofTarget target).drop n)
      ((Context.ofTarget target).exits stop (.inside f.height returns)) := by
  have hlen : k + inits.length + body.length = k + (inits ++ body).length := by
    rw [List.length_append, Nat.add_assoc]
  rw [List.length_append, ← Nat.add_assoc] at hstop
  subst hstop
  cases target with
  | some goal =>
    simp only [Context.ofTarget, Context.drop, List.append_nil]
    exact hinits.seq hbody
  | none =>
    rw [hlen] at hbody
    refine (hinits.seq hbody).seq ?_
    cases n with
    | zero => exact runs_nil ⟨rfl, rfl⟩
    | succ n =>
      have hfloor : floor returns + (n + 1) ≤ f.height + (n + 1) :=
        Nat.add_le_add_right h.floor_le _
      have hpop : successorsInside procs owner (k + (inits ++ body).length) (f.height + (n + 1))
          returns (.pop (n + 1)) =
            some [(k + (inits ++ body).length + 1, .inside f.height returns)] := by
        rw [successorsInside, onlyIf_of hfloor, Nat.add_sub_cancel]
      exact runs_step hpop

end Describes

end Frame

/-! ### Generated code -/

/-- In every frame that describes the stack, the code of an expression starts at the height of the
frame and ends as the context says. -/
def RunsIn (procs : List Proc) (f : Frame) (target : Option TailTarget) (code : Code) : Prop :=
  ∀ owner returns k stop, f.Describes procs owner returns target → stop = k + code.length →
    Runs procs owner k (.inside f.height returns) code
      ((Context.ofTarget target).exits stop (.inside f.height returns))

/-- In every frame that describes the stack, the code pushes a number of cells. -/
def Pushes (procs : List Proc) (f : Frame) (n : Nat) (code : Code) : Prop :=
  ∀ owner returns k stop, f.Describes procs owner returns none → stop = k + code.length →
    Runs procs owner k (.inside f.height returns) code (At stop (.inside (f.height + n) returns))

section

variable {procs : List Proc} {f : Frame} {target : Option TailTarget}

theorem RunsIn.single {i : Inst Label} (h : ∀ owner returns k,
    f.Describes procs owner returns target → successorsInside procs owner k f.height returns i =
      some [(k + 1, .inside f.height returns)]) :
    RunsIn procs f target (i :: (Context.ofTarget target).leave) := by
  intro owner returns k stop hf hstop
  have hload : Runs procs owner k (.inside f.height returns) [i]
      (At (k + [i].length) (.inside f.height returns)) := runs_step (h owner returns k hf)
  exact hf.ending hload hstop

theorem RunsIn.push {code : Code} (h : RunsIn procs f none code) :
    Pushes procs f 1 (code ++ [.push]) := by
  intro owner returns k stop hf hstop
  have hpush : Runs procs owner (k + code.length) (.inside f.height returns) [.push]
      (At (k + code.length + 1) (.inside (f.height + 1) returns)) := runs_step rfl
  rw [List.length_append, List.length_singleton, ← Nat.add_assoc] at hstop
  subst hstop
  exact (h owner returns k _ hf rfl).seq hpush

theorem Pushes.append {f' : Frame} {n m : Nat} {code code' : Code} (h : Pushes procs f n code)
    (h' : Pushes procs f' m code') (hheight : f'.height = f.height + n)
    (hframe : ∀ owner returns, f.Describes procs owner returns none →
      f'.Describes procs owner returns none) : Pushes procs f (n + m) (code ++ code') := by
  intro owner returns k stop hf hstop
  rw [List.length_append, ← Nat.add_assoc] at hstop
  have hrest := h' owner returns (k + code.length) stop (hframe owner returns hf) hstop
  rw [hheight, Nat.add_assoc] at hrest
  exact (h owner returns k _ hf rfl).seq hrest

theorem RunsIn.seq {code code' : Code} (h : RunsIn procs f none code)
    (h' : RunsIn procs f target code') : RunsIn procs f target (code ++ code') := by
  intro owner returns k stop hf hstop
  rw [List.length_append, ← Nat.add_assoc] at hstop
  exact (h owner returns k _ hf.value rfl).seq (h' owner returns _ stop hf hstop)

theorem RunsIn.cond_value {ct cy cn : Code} (ht : RunsIn procs f none ct)
    (hy : RunsIn procs f none cy) (hn : RunsIn procs f none cn) :
    RunsIn procs f none
      (ct ++ [.test (cy.length + 2)] ++ cy ++ [.jump (cn.length + 1)] ++ cn) := by
  intro owner returns k stop hf hstop
  simp only [List.length_append, List.length_singleton] at hstop
  have htest := ht owner returns k _ hf rfl
  have hyes := hy owner returns (k + ct.length + 1) _ hf rfl
  have hjump : Runs procs owner (k + ct.length + 1 + cy.length) (.inside f.height returns)
      [.jump (cn.length + 1)] (At stop (.inside f.height returns)) := by
    refine runs_single ⟨_, onlyIf_of (Nat.succ_pos cn.length), List.forall_mem_singleton.2 ?_⟩
    exact ⟨by omega, rfl⟩
  have hno := hn owner returns (k + ct.length + 1 + (cy ++ [Inst.jump (cn.length + 1)]).length) stop
    hf (by simp only [List.length_append, List.length_singleton]; omega)
  have hall := htest.cond (hyes.seq hjump) hno
  rw [List.length_append, List.length_singleton] at hall
  simp only [List.append_assoc] at hall ⊢
  exact hall

theorem RunsIn.cond_tail {goal : TailTarget} {ct cy cn : Code} (ht : RunsIn procs f none ct)
    (hy : RunsIn procs f (some goal) cy) (hn : RunsIn procs f (some goal) cn) :
    RunsIn procs f (some goal) (ct ++ [.test (cy.length + 1)] ++ cy ++ cn) := by
  intro owner returns k stop hf _
  have htest := ht owner returns k _ hf.value rfl
  have hyes := hy owner returns (k + ct.length + 1) _ hf rfl
  have hno := hn owner returns (k + ct.length + 1 + cy.length) _ hf rfl
  have hall := htest.cond hyes hno
  simp only [List.append_assoc]
  exact hall

theorem runsIn_close {xs : List Name} {values : Code} {l : Label}
    (hvalues : f.pushNames xs = .ok values) (hl : Captures procs l xs.length) :
    RunsIn procs f target (values ++ [.close xs.length l] ++ (Context.ofTarget target).leave) := by
  intro owner returns k stop hf hstop
  have hclose := hf.close hvalues hl k
  refine hf.ending ?_ hstop
  rw [List.length_append, List.length_singleton, ← Nat.add_assoc]
  exact hclose

theorem pushes_closeMembers {captured : List Name} {ms : List (Name × Label)} {code : Code}
    {f' : Frame} (hcode : f.closeMembers captured ms = .ok (code, f'))
    (hms : ∀ m ∈ ms, Captures procs m.2 captured.length) : Pushes procs f ms.length code := by
  intro owner returns k stop hf hstop
  subst hstop
  exact hf.closeMembers hcode hms k

/-- A call that is not in tail position saves three cells and returns behind its own code. -/
theorem Pushes.call {pushed cf : Code} {n : Nat} (hpushed : Pushes procs (f.raise 3) n pushed)
    (hfunc : RunsIn procs (f.raise (3 + n)) none cf) :
    RunsIn procs f none
      ([.frame (pushed.length + cf.length + 2)] ++ pushed ++ cf ++ [.apply]) := by
  intro owner returns k stop hf hstop
  simp only [List.length_append, List.length_singleton] at hstop
  have hreturn : stop = k + (pushed.length + cf.length + 2) := by omega
  have hinner := hf.prepare stop
  have hcalled := hinner.raise n
  have hraise : (f.raise 3).raise n = f.raise (3 + n) := by simp only [Frame.raise, Nat.add_assoc]
  have hheight : (f.raise 3).height + n = (f.raise (3 + n)).height := Nat.add_assoc ..
  rw [hraise] at hcalled
  have hargs := hpushed owner _ (k + 1) _ hinner rfl
  have hfunc' := hfunc owner _ (k + 1 + pushed.length) _ hcalled rfl
  have happly : Runs procs owner (k + 1 + pushed.length + cf.length)
      (.inside (f.height + (3 + n)) ((stop, f.height) :: returns)) [.apply]
      (At stop (.inside f.height returns)) :=
    runs_apply (by omega)
  subst hreturn
  rw [hheight] at hargs
  rw [List.append_assoc, List.append_assoc]
  exact .call (Nat.succ_pos _) (hargs.seq (hfunc'.seq happly))

/-- A call in tail position slides its arguments over the whole frame. -/
theorem Pushes.tailCall {goal : TailTarget} {pushed cf : Code} {n : Nat}
    (hpushed : Pushes procs f n pushed) (hfunc : RunsIn procs (f.raise n) none cf) :
    RunsIn procs f (some goal) (pushed ++ cf ++ [.shift n goal.cells, .apply]) := by
  intro owner returns k stop hf _
  obtain ⟨howner, hreturns, hcells⟩ := hf.leaves goal rfl
  subst hreturns
  have hcode := hpushed owner [] k _ hf.value rfl
  have hload := hfunc owner [] (k + pushed.length) _ (hf.raise n) rfl
  have hshift : Runs procs owner (k + pushed.length + cf.length) (.inside (f.height + n) [])
      [.shift n goal.cells, .apply] Nowhere :=
    runs_tailApply howner (Nat.le_add_left ..) (by omega)
  rw [List.append_assoc]
  exact hcode.seq (hload.seq hshift)

theorem Pushes.body {xs : List Name} {inits cb : Code} (hinits : Pushes procs f xs.length inits)
    (hbody : RunsIn procs (f.bindAll xs) (target.map (·.deeper xs.length)) cb) :
    RunsIn procs f target (inits ++ cb ++ (Context.ofTarget target).drop xs.length) := by
  intro owner returns k stop hf hstop
  have hcode := hinits owner returns k _ hf.value rfl
  have hrest := hbody owner returns (k + inits.length) _ (hf.bindAll xs) rfl
  rw [Frame.height_bindAll, Context.ofTarget_deeper] at hrest
  exact hf.dropping hcode hrest hstop

end

/-- A block has the label of the procedure and is sound as its body. -/
def SoundBlock (procs : List Proc) (b : Label × Code) (p : Proc) : Prop :=
  b.1 = ⟨p.tag⟩ ∧ ∃ points, Assigns procs (some p) b.2 points

/-- The body of a procedure runs from its entry and never past its end. -/
theorem soundBlock_of_runsIn {procs : List Proc} {t : Nat} {params captured : List Name}
    {group : List (Name × Label)} {code : Code}
    (hgroup : ∀ m ∈ group, Captures procs m.2 captured.length)
    (h : RunsIn procs (.ofProcedure params captured group) (some ⟨t, params.length⟩) code) :
    SoundBlock procs (⟨t⟩, code) ⟨t, params.length, captured.length⟩ :=
  ⟨rfl, (h _ [] 0 _ (Frame.describes_ofProcedure hgroup) rfl).assigns⟩

namespace Expr

open Emit

variable {procs : List Proc} {calls : List TailCall}

/-- In a marked tree all blocks are sound, and so is the code of the tree itself. -/
def Sound (e : Expr Nat) : Prop :=
  ∀ procs calls f target, Marked calls target e → (∀ p ∈ e.procedures, p ∈ procs) →
    (gen calls f (.ofTarget target) e).Builds (SoundBlock procs) e.procedures
      (RunsIn procs f target)

theorem sound_args {es : List (Expr Nat)} (h : ∀ e ∈ es, Sound e)
    (hmarked : ∀ e ∈ es, Marked calls none e) (hprocs : ∀ p ∈ proceduresArgs es, p ∈ procs)
    (f : Frame) :
    (genArgs calls f es).Builds (SoundBlock procs) (proceduresArgs es)
      (Pushes procs f es.length) := by
  induction es with
  | nil => exact .pure fun owner returns k stop _ hstop => runs_nil ⟨hstop.symm, rfl⟩
  | cons e es ih =>
    obtain ⟨he, hes⟩ := List.forall_mem_cons.1 h
    obtain ⟨hmarked₁, hmarked₂⟩ := List.forall_mem_cons.1 hmarked
    obtain ⟨hprocs₂, hprocs₁⟩ := List.forall_mem_append.1 hprocs
    rw [genArgs]
    refine .bind (ih hes hmarked₂ hprocs₂) fun rest hrest =>
      .last (he procs calls (f.raise es.length) none hmarked₁ hprocs₁) fun first hfirst => ?_
    rw [List.append_assoc]
    exact hrest.append hfirst.push rfl fun owner returns hf => hf.raise es.length

theorem sound_bindings {bs : List (Name × Expr Nat)} (h : ∀ b ∈ bs, Sound b.2)
    (hmarked : ∀ b ∈ bs, Marked calls none b.2) (hprocs : ∀ p ∈ proceduresBindings bs, p ∈ procs)
    (f : Frame) :
    (genBindings calls f bs).Builds (SoundBlock procs) (proceduresBindings bs) fun r =>
      r.2 = f.bindAll (bs.map (·.1)) ∧ Pushes procs f bs.length r.1 := by
  induction bs generalizing f with
  | nil =>
    exact .pure ⟨rfl, fun owner returns k stop _ hstop => runs_nil ⟨hstop.symm, rfl⟩⟩
  | cons b bs ih =>
    obtain ⟨x, e⟩ := b
    obtain ⟨he, hbs⟩ := List.forall_mem_cons.1 h
    obtain ⟨hmarked₁, hmarked₂⟩ := List.forall_mem_cons.1 hmarked
    obtain ⟨hprocs₁, hprocs₂⟩ := List.forall_mem_append.1 hprocs
    rw [genBindings]
    refine .bind (he procs calls f none hmarked₁ hprocs₁) fun first hfirst =>
      .last (ih hbs hmarked₂ hprocs₂ (f.bind x)) fun r hr => ⟨hr.1, ?_⟩
    have hall := hfirst.push.append hr.2 rfl fun owner returns hf => hf.bind x
    rw [Nat.add_comm] at hall
    exact hall

theorem sound_members {ms : List (Member Nat (Expr Nat))} (h : ∀ m ∈ ms, Sound m.body)
    (hmarked : ∀ m ∈ ms, Marked calls (some ⟨m.tag, m.params.length⟩) m.body)
    {captured : List Name} {group : List (Name × Label)}
    (hgroup : ∀ m ∈ group, Captures procs m.2 captured.length)
    (hprocs : ∀ p ∈ proceduresMembers captured.length ms, p ∈ procs) :
    (genMembers calls captured group ms).Builds (SoundBlock procs)
      (proceduresMembers captured.length ms) fun _ => True := by
  induction ms with
  | nil => exact .pure trivial
  | cons m ms ih =>
    obtain ⟨x, t, params, body⟩ := m
    obtain ⟨hm, hms⟩ := List.forall_mem_cons.1 h
    obtain ⟨hmarked₁, hmarked₂⟩ := List.forall_mem_cons.1 hmarked
    obtain ⟨hprocs₁, hprocs₂⟩ := List.forall_mem_append.1 hprocs
    rw [genMembers]
    exact .bind (hm procs calls (.ofProcedure params captured group) _ hmarked₁ hprocs₁)
      fun code hcode => .bind (.emit (soundBlock_of_runsIn hgroup hcode)) fun _ _ =>
      ih hms hmarked₂ (List.forall_mem_cons.1 hprocs₂).2

theorem sound_seq {es : List (Expr Nat)} (h : ∀ e ∈ es, Sound e) {target : Option TailTarget}
    (hmarked : AtCallsSeq (TableTells calls) target es)
    (hprocs : ∀ p ∈ proceduresList es, p ∈ procs) (f : Frame) :
    (genSeq calls f (.ofTarget target) es).Builds (SoundBlock procs) (proceduresList es)
      (RunsIn procs f target) := by
  induction es with
  | nil => exact .fail _
  | cons e es ih =>
    obtain ⟨he, hes⟩ := List.forall_mem_cons.1 h
    obtain ⟨hprocs₁, hprocs₂⟩ := List.forall_mem_append.1 hprocs
    cases es with
    | nil =>
      have hone := he procs calls f target hmarked hprocs₁
      rw [← List.append_nil e.procedures] at hone
      exact hone
    | cons e' es =>
      rw [genSeq]
      exact .bind (he procs calls f none hmarked.1 hprocs₁) fun first hfirst =>
        .last (ih hes hmarked.2 hprocs₂) fun rest hrest => hfirst.seq hrest

theorem sound (e : Expr Nat) : Sound e := by
  induction e with
  | lit v t => exact fun procs calls f target _ _ => .pure (RunsIn.single fun _ _ _ _ => rfl)
  | var x t =>
    intro procs calls f target _ _
    rw [gen]
    refine .lift fun i hi => .pure ?_
    intro owner returns k stop hf hstop
    exact hf.ending (hf.reference hi (Nat.le_refl _) k) hstop
  | cond test yes no t htest hyes hno =>
    intro procs calls f target hmarked hprocs
    simp only [procedures, List.forall_mem_append] at hprocs
    obtain ⟨hprocs₁, hprocs₂, hprocs₃⟩ := hprocs
    obtain ⟨hmarked₁, hmarked₂, hmarked₃⟩ := hmarked
    cases target with
    | none =>
      exact .bind (htest procs calls f none hmarked₁ hprocs₁) fun ct hct =>
        .bind (hyes procs calls f none hmarked₂ hprocs₂) fun cy hcy =>
        .last (hno procs calls f none hmarked₃ hprocs₃) fun cn hcn => hct.cond_value hcy hcn
    | some goal =>
      exact .bind (htest procs calls f none hmarked₁ hprocs₁) fun ct hct =>
        .bind (hyes procs calls f (some goal) hmarked₂ hprocs₂) fun cy hcy =>
        .last (hno procs calls f (some goal) hmarked₃ hprocs₃) fun cn hcn => hct.cond_tail hcy hcn
  | lambda params body t hbody =>
    intro procs calls f target hmarked hprocs
    obtain ⟨hprocs₁, hprocs₂⟩ := List.forall_mem_append.1 hprocs
    have hproc := List.forall_mem_singleton.1 hprocs₂
    rw [gen]
    exact .lift fun values hvalues =>
      .bind (hbody procs calls (.ofProcedure params _ []) _ hmarked hprocs₁) fun code hcode =>
      .last (.emit (soundBlock_of_runsIn (List.forall_mem_nil _) hcode)) fun _ _ =>
      runsIn_close hvalues ⟨_, hproc, rfl, rfl⟩
  | assign x value t hvalue => exact fun _ _ _ _ _ _ => .fail _
  | app func args t hfunc hargs =>
    intro procs calls f target hmarked hprocs
    obtain ⟨htells, hmarkedFunc, hmarkedArgs⟩ := hmarked
    rw [atCallsList_iff] at hmarkedArgs
    obtain ⟨hprocs₁, hprocs₂⟩ := List.forall_mem_append.1 hprocs
    cases target with
    | none =>
      have hcall : calls.find? (·.app = t) = none := htells
      simp only [gen, hcall, Context.ofTarget, Context.leave, List.append_nil]
      exact .bind (sound_args hargs hmarkedArgs hprocs₁ (f.raise 3)) fun pushed hpushed =>
        .last (hfunc procs calls (f.raise (3 + args.length)) none hmarkedFunc hprocs₂)
        fun cf hcf => hpushed.call hcf
    | some goal =>
      have hcall : calls.find? (·.app = t) = some ⟨t, goal.proc, goal.cells⟩ := htells
      simp only [gen, hcall]
      exact .bind (sound_args hargs hmarkedArgs hprocs₁ f) fun pushed hpushed =>
        .last (hfunc procs calls (f.raise args.length) none hmarkedFunc hprocs₂) fun cf hcf =>
        hpushed.tailCall hcf
  | letIn bindings body t hbindings hbody =>
    intro procs calls f target hmarked hprocs
    obtain ⟨hprocs₁, hprocs₂⟩ := List.forall_mem_append.1 hprocs
    have hinits := sound_bindings hbindings (atCallsBindings_iff.1 hmarked.1) hprocs₁ f
    have hrest := hbody procs calls (f.bindAll (bindings.map (·.1)))
      (target.map (·.deeper bindings.length)) hmarked.2 hprocs₂
    rw [Context.ofTarget_deeper] at hrest
    rw [gen]
    refine .bind hinits fun r hr => ?_
    obtain ⟨inits, f'⟩ := r
    obtain ⟨rfl, hpushes⟩ : f' = f.bindAll (bindings.map (·.1)) ∧
      Pushes procs f bindings.length inits := hr
    refine .last hrest fun cb hcb => ?_
    rw [← List.length_map (·.1)] at hpushes hcb ⊢
    exact hpushes.body hcb
  | letrec bindings body t hbindings hbody => exact fun _ _ _ _ _ _ => .fail _
  | fix members body t hmembers hbody =>
    intro procs calls f target hmarked hprocs
    obtain ⟨hprocs₁, hprocs₂⟩ := List.forall_mem_append.1 hprocs
    have hlabels : ∀ m ∈ groupLabels members, Captures procs m.2
        (freeMembers (members.map (·.name) ++ Primitive.names) members).length := by
      intro m hm
      obtain ⟨m', hm', rfl⟩ := List.mem_map.1 hm
      exact ⟨_, hprocs₁ _ (mem_proceduresMembers hm'), rfl, rfl⟩
    have hgroup := sound_members hmembers (atCallsMembers_iff.1 hmarked.1)
      (fun m hm => hlabels m (List.mem_reverse.1 hm)) hprocs₁
    have hlen : members.length = ((groupLabels members).map (·.1)).length := by
      rw [List.length_map, groupLabels, List.length_map]
    have hrest := hbody procs calls (f.bindAll ((groupLabels members).map (·.1)))
      (target.map (·.deeper members.length)) hmarked.2 hprocs₂
    rw [Context.ofTarget_deeper] at hrest
    rw [gen]
    refine .bind hgroup fun _ _ => .lift fun r hr => ?_
    obtain ⟨closures, f'⟩ := r
    obtain rfl := Frame.closeMembers_frame hr
    have hpushes := pushes_closeMembers hr hlabels
    refine .last hrest fun cb hcb => ?_
    rw [hlen] at hcb ⊢
    rw [← List.length_map (·.1)] at hpushes
    exact hpushes.body hcb
  | seq items t hitems =>
    intro procs calls f target hmarked hprocs
    exact sound_seq hitems hmarked hprocs f

theorem sound_main {e : Expr Nat} (h : e.tags.Nodup) :
    (e.genMain e.tailCalls).Builds (SoundBlock e.procedures) e.procedures fun code =>
      ∃ points, Assigns e.procedures none code points := by
  refine .last (sound e e.procedures e.tailCalls .main none (marked_tailCalls h) fun p hp => hp)
    fun code hcode => ?_
  have hruns := hcode none [] 0 code.length Frame.describes_main (Nat.zero_add _).symm
  have hends : successorsInside e.procedures none (0 + code.length) 0 [] .halt = some [] :=
    onlyIf_of ⟨rfl, rfl, rfl⟩
  have hhalt : Runs e.procedures none (0 + code.length) (.inside 0 []) [.halt] Nowhere :=
    runs_single ⟨[], hends, nofun⟩
  rw [← Nat.zero_add code.length] at hruns
  exact (hruns.seq hhalt).assigns

end Expr

/-- A block of an assembly and the procedure it is the body of; the main block belongs to none. -/
def Assembly.HasBlock (a : Assembly) (procs : List Proc) (owner : Option Proc) (code : Code) :
    Prop :=
  match owner with
  | none => code = a.main
  | some p => p ∈ procs ∧ (⟨p.tag⟩, code) ∈ a.blocks

/-- An assembly of the blocks of these procedures that can be run without looking at the values it
computes: nothing is read, dropped or jumped to that is not there. -/
structure Assembly.WellFormed (a : Assembly) (procs : List Proc) : Prop where
  labels_defined : ∀ l ∈ Code.labels a.flatten, l ∈ a.blocks.map (·.1)
  labels_eq : a.blocks.map (·.1) = procs.map fun p => ⟨p.tag⟩
  nodup_labels : (a.blocks.map (·.1)).Nodup
  captured_eq : ∀ n l, .close n l ∈ a.flatten → ∀ p ∈ procs, l = ⟨p.tag⟩ → n = p.captured
  branch_lt : ∀ owner code k i n, a.HasBlock procs owner code → code[k]? = some i →
    i.branchOffset? = some n → 0 < n ∧ k + n < code.length
  main_halts : ∃ code, a.main = code ++ [.halt]
  /-- A path through a block never runs past its end. -/
  path_continues : ∀ owner code k pt, a.HasBlock procs owner code → Path procs owner code k pt →
    k < code.length ∧ ((∃ i succs q, code[k]? = some i ∧
      successors procs owner k pt i = some succs ∧ q ∈ succs) ∨ Ends owner code k)
  /-- Each instruction has one point, whichever path leads to it. -/
  points : ∀ owner code, a.HasBlock procs owner code →
    ∃ points, Assigns procs owner code points ∧
      ∀ k pt, Path procs owner code k pt → points[k]? = some pt

/-- Blocks that all have points make a well-formed assembly, if no two of them have one label. -/
theorem Assembly.wellFormed {a : Assembly} {procs : List Proc}
    (hlabels : ∀ l ∈ Code.labels a.flatten, l ∈ a.blocks.map (·.1))
    (hnodup : (a.blocks.map (·.1)).Nodup) (hhalts : ∃ code, a.main = code ++ [.halt])
    (hmain : ∃ points, Assigns procs none a.main points)
    (hblocks : List.Forall₂ (SoundBlock procs) a.blocks procs) : a.WellFormed procs := by
  have hlabel : List.Forall₂ (fun b p => b.1 = (⟨p.tag⟩ : Label)) a.blocks procs :=
    hblocks.imp fun _ _ h => h.1
  have heq : a.blocks.map (·.1) = procs.map fun p => ⟨p.tag⟩ := Expr.map_eq_map_of_forall₂ hlabel
  have hsound : ∀ b ∈ a.blocks, ∃ p ∈ procs, SoundBlock procs b p := by
    intro b hb
    obtain ⟨k, hk⟩ := List.mem_iff_getElem?.1 hb
    obtain ⟨p, hp, hbp⟩ := getElem?_of_forall₂ hblocks hk
    exact ⟨p, List.mem_of_getElem? hp, hbp⟩
  have hinj : ∀ p ∈ procs, ∀ q ∈ procs, p.tag = q.tag → p = q := by
    intro p hp q hq htag
    rw [heq] at hnodup
    exact List.inj_on_of_nodup_map hnodup hp hq (congrArg Label.mk htag)
  have hall : ∀ owner code, a.HasBlock procs owner code →
      ∃ points, Assigns procs owner code points := by
    intro owner code hblock
    cases owner with
    | none =>
      obtain rfl : code = a.main := hblock
      exact hmain
    | some p =>
      obtain ⟨hp, hmem⟩ := hblock
      obtain ⟨q, hq, hpq, hpoints⟩ := hsound _ hmem
      obtain rfl := hinj p hp q hq (congrArg Label.index hpq)
      exact hpoints
  have hclosed : ∀ n l, .close n l ∈ a.flatten → Captures procs l n := by
    intro n l hmem
    rcases List.mem_append.1 hmem with hmem | hmem
    · obtain ⟨points, hpoints⟩ := hmain
      exact hpoints.captures_of_close hmem
    · obtain ⟨b, hb, hmem⟩ := List.mem_flatMap.1 hmem
      obtain ⟨q, hq, _, points, hpoints⟩ := hsound b hb
      exact hpoints.captures_of_close hmem
  refine ⟨hlabels, heq, hnodup, fun n l hmem p hp hl => ?_, fun owner code k i n hblock => ?_,
    hhalts, fun owner code k pt hblock => ?_, fun owner code hblock => ?_⟩
  · obtain ⟨q, hq, hl', hn⟩ := hclosed n l hmem
    obtain rfl := hinj p hp q hq (congrArg Label.index (hl.symm.trans hl'))
    exact hn
  · obtain ⟨points, hpoints⟩ := hall owner code hblock
    exact hpoints.branch
  · obtain ⟨points, hpoints⟩ := hall owner code hblock
    exact hpoints.path_continues
  · obtain ⟨points, hpoints⟩ := hall owner code hblock
    exact ⟨points, hpoints, fun k pt => hpoints.path⟩

namespace Expr

/-- Code generated for a tree with different numbers is well formed: there is one block for each
lambda and each member of a group, every label has a block, every branch goes forward inside its
block, no path runs past the end of a block, and the instructions have stack heights at which all
they read and drop is there. -/
theorem assemble_wellFormed {e : Expr Nat} {a : Assembly} (h : e.tags.Nodup)
    (ha : e.assemble e.tailCalls = .ok a) : a.WellFormed e.procedures := by
  have hlabels := names_of_assemble ha
  obtain ⟨main, hmain, rfl⟩ := Results.map_eq_ok_iff.1 ha
  have hdistinct := nodup_labels h e.tailCalls
  have hblocks : Table.ofPairs (e.genMain e.tailCalls).emitted = (e.genMain e.tailCalls).emitted :=
    Table.ofPairs_of_nodup hdistinct
  obtain ⟨hsound, hpoints⟩ := sound_main h main hmain
  obtain ⟨code, _, hcode⟩ := (Emit.result_bind_eq_ok_iff ..).1 hmain
  have hhalts : ∃ code, main = code ++ [.halt] := ⟨code, (Except.ok.inj hcode).symm⟩
  rw [hblocks] at hlabels ⊢
  exact Assembly.wellFormed hlabels hdistinct hhalts hpoints hsound

/-- A procedure that counts down to zero and makes a procedure of what it was called with. -/
def countdown : Expr Nat :=
  .fix [⟨"count", 0, ["n", "m"],
      .cond (.app (.var "=" 1) [.var "n" 2, .lit (.int 0) 3] 4)
        (.lambda ["k"] (.app (.var "+" 5) [.var "k" 6, .var "m" 7] 8) 9)
        (.letIn [("next", .app (.var "-" 10) [.var "n" 11, .lit (.int 1) 12] 13)]
          (.app (.var "count" 14) [.var "next" 15, .var "m" 16] 17) 18) 19⟩]
    (.app (.app (.var "count" 20) [.lit (.int 3) 21, .lit (.int 4) 22] 23)
      [.lit (.int 5) 24] 25) 26

theorem assemble_countdown_wellFormed : countdown.tags.Nodup ∧
    ∃ a, countdown.assemble countdown.tailCalls = .ok a ∧ a.blocks.map (·.1) = [⟨9⟩, ⟨0⟩] ∧
      a.WellFormed countdown.procedures := by
  have hnodup : countdown.tags.Nodup := by decide
  obtain ⟨a, ha⟩ : ∃ a, countdown.assemble countdown.tailCalls = .ok a := ⟨_, rfl⟩
  have hwell := assemble_wellFormed hnodup ha
  exact ⟨hnodup, a, ha, hwell.labels_eq, hwell⟩

end Expr

end MiniScheme
