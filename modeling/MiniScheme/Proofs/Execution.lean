import Mathlib.Logic.Relation
import MiniScheme.Machine.Run
import MiniScheme.Proofs.Results

/-!
# Executing code in memory

What single instructions do to the part of a machine state that later instructions can see. The
number of executed instructions and the largest stack height are left out: only `time` reads the
first and nothing reads the second.
-/

namespace MiniScheme

namespace Program

/-- From an address on, the program has the given code with its labels resolved. -/
def HasCode (p : Program) : Nat → Code → Prop
  | _, [] => True
  | pc, i :: is =>
    (∃ j, i.mapAddress (addressOf p.entries) = .ok j ∧ p.code[pc]? = some j) ∧
      p.HasCode (pc + 1) is

theorem hasCode_append_iff {p : Program} {pc : Nat} {is is' : Code} :
    p.HasCode pc (is ++ is') ↔ p.HasCode pc is ∧ p.HasCode (pc + is.length) is' := by
  induction is generalizing pc with
  | nil => simp [HasCode]
  | cons i is ih =>
    have hpc : pc + 1 + is.length = pc + (is.length + 1) := by omega
    simp only [List.cons_append, HasCode, ih, List.length_cons, hpc, and_assoc]

theorem HasCode.move {p : Program} {pc pc' : Nat} {is : Code} (h : p.HasCode pc is)
    (hpc : pc' = pc) : p.HasCode pc' is :=
  hpc ▸ h

/-- The instruction at an address, if it names no label. -/
theorem HasCode.fetched {p : Program} {pc : Nat} {i : Inst Label} {is : Code} {j : Inst Nat}
    (h : p.HasCode pc (i :: is)) (hj : i.mapAddress (addressOf p.entries) = .ok j) :
    p.code[pc]? = some j := by
  obtain ⟨⟨j', hj', hcode⟩, _⟩ := h
  rw [hj] at hj'
  injection hj' with hj'
  rw [hj', hcode]

end Program

/-! ### Configurations -/

/-- The part of a machine state that a program without `time` can see. -/
@[ext]
structure Config where
  acc : Value
  pc : Nat
  fp : Nat
  body : Nat
  captured : List Value
  cells : List Value

namespace Config

/-- The value that a reference loads. -/
def fetch (c : Config) : Inst Nat → Option Value
  | .refGlobal i => (Primitive.ofIndex? i).map .prim
  | .refLocal i => if i < c.fp then c.cells.reverse[c.fp - 1 - i]? else none
  | .refTemp i => c.cells.reverse[c.fp + i]?
  | .refFree i => c.captured[i]?
  | .refRec a => some (.closure a c.captured)
  | _ => none

/-- The configuration some instructions later in the same activation, with a value loaded and
values pushed. -/
def after (c : Config) (n : Nat) (v : Value) (vs : List Value) : Config :=
  { c with pc := c.pc + n, acc := v, cells := vs ++ c.cells }

theorem after_after (c : Config) (n m : Nat) (v w : Value) (vs ws : List Value) :
    (c.after n v vs).after m w ws = c.after (n + m) w (ws ++ vs) := by
  simp only [after, Nat.add_assoc, List.append_assoc]

/-- Values pushed above do not hide what a reference loads. -/
theorem fetch_after {c : Config} {j : Inst Nat} {v : Value} (h : c.fetch j = some v) (n : Nat)
    (w : Value) (ws : List Value) : (c.after n w ws).fetch j = some v := by
  have hcell : ∀ i : Nat, c.cells.reverse[i]? = some v → (ws ++ c.cells).reverse[i]? = some v := by
    intro i hi
    have hlt := (List.getElem?_eq_some_iff.1 hi).1
    rw [List.reverse_append, List.getElem?_append_left hlt, hi]
  cases j with
  | refLocal i =>
    have hlocal : (if i < c.fp then c.cells.reverse[c.fp - 1 - i]? else none) = some v := h
    show (if i < c.fp then (ws ++ c.cells).reverse[c.fp - 1 - i]? else none) = some v
    by_cases hi : i < c.fp
    · rw [if_pos hi] at hlocal ⊢
      exact hcell _ hlocal
    · rw [if_neg hi] at hlocal
      exact absurd hlocal (by simp)
  | refTemp i => exact hcell _ h
  | _ => exact h

end Config

/-- Where a run goes on after a call: all of a configuration except the accumulator. -/
structure Resume where
  pc : Nat
  fp : Nat
  body : Nat
  captured : List Value
  cells : List Value

/-- The configuration in which a run goes on with a value. -/
def Resume.config (r : Resume) (v : Value) : Config :=
  ⟨v, r.pc, r.fp, r.body, r.captured, r.cells⟩

/-- What a call saves on the stack. -/
def Resume.link (r : Resume) : List Value :=
  [.codeAddr r.pc, .stackAddr r.fp, .closure r.body r.captured]

/-- The cells of a stack that a call will return from: what it saved is on top. -/
def Resume.saved (r : Resume) : List Value :=
  r.link ++ r.cells

theorem Resume.length_saved (r : Resume) : r.saved.length = r.cells.length + 3 := rfl

def State.config (s : State) : Config :=
  ⟨s.acc, s.pc, s.fp, s.body, s.captured, s.stack.cells⟩

theorem Stack.cellAt?_eq (s : Stack) (i : Nat) : s.cellAt? i = s.cells.reverse[i]? := by
  unfold cellAt?
  have hlen := s.height_eq
  by_cases h : i < s.height
  · rw [if_pos h, List.getElem?_reverse (by omega)]
    congr 1
    omega
  · rw [if_neg h, List.getElem?_eq_none (by simp only [List.length_reverse]; omega)]

namespace Program

/-- One instruction leads from a configuration to another, whatever the machine has counted. -/
def Moves (p : Program) (c c' : Config) : Prop :=
  ∀ s : State, s.halted = false → s.config = c →
    ∃ s', s.step p none = (s', .ok true) ∧ s'.halted = false ∧ s'.config = c'

/-- Some instructions lead from a configuration to another. -/
def Reaches (p : Program) : Config → Config → Prop :=
  Relation.ReflTransGen p.Moves

/-- The next instruction traps. -/
def Traps (p : Program) (c : Config) : Prop :=
  ∀ s : State, s.halted = false → s.config = c → ∃ s' t, s.step p none = (s', .error t)

variable {p : Program}

theorem next_of_fetched {s : State} {j : Inst Nat} (hrun : s.halted = false)
    (hj : p.code[s.pc]? = some j) : s.next p none = .ok (some j) := by
  simp [State.next, hrun, hj]

theorem step_of_halted {s : State} (h : s.halted = true) : s.step p none = (s, .ok false) := by
  simp [State.step, State.next, h]

theorem step_of_exec {s s' : State} {j : Inst Nat} (hrun : s.halted = false)
    (hj : p.code[s.pc]? = some j)
    (hexec : State.exec { s with pc := s.pc + 1 } s.pc j = (s', none)) :
    s.step p none = ({ s' with steps := s'.steps + 1 }, .ok !s'.halted) := by
  unfold State.step
  rw [next_of_fetched hrun hj]
  dsimp only
  rw [hexec]

theorem step_of_exec_trap {s s' : State} {j : Inst Nat} {t : Trap} (hrun : s.halted = false)
    (hj : p.code[s.pc]? = some j)
    (hexec : State.exec { s with pc := s.pc + 1 } s.pc j = (s', some t)) :
    s.step p none = (s', .error t) := by
  unfold State.step
  rw [next_of_fetched hrun hj]
  dsimp only
  rw [hexec]

theorem moves_of_exec {c c' : Config} {j : Inst Nat} (hj : p.code[c.pc]? = some j)
    (h : ∀ s : State, s.halted = false → s.config = { c with pc := c.pc + 1 } →
      ∃ s', s.exec c.pc j = (s', none) ∧ s'.halted = false ∧ s'.config = c') :
    p.Moves c c' := by
  intro s hrun hs
  subst hs
  obtain ⟨s', hexec, hrun', hs'⟩ := h { s with pc := s.pc + 1 } hrun rfl
  refine ⟨{ s' with steps := s'.steps + 1 }, ?_, hrun', hs'⟩
  rw [step_of_exec hrun hj hexec, hrun']
  rfl

theorem traps_of_exec {c : Config} {j : Inst Nat} (hj : p.code[c.pc]? = some j)
    (h : ∀ s : State, s.config = { c with pc := c.pc + 1 } →
      ∃ s' t, s.exec c.pc j = (s', some t)) : p.Traps c := by
  intro s hrun hs
  subst hs
  obtain ⟨s', t, hexec⟩ := h { s with pc := s.pc + 1 } rfl
  exact ⟨s', t, step_of_exec_trap hrun hj hexec⟩

/-! ### Loading -/

theorem moves_const {c : Config} {v : Literal} {is : Code}
    (h : p.HasCode c.pc (.const v :: is)) : p.Moves c (c.after 1 (.lit v) []) := by
  refine moves_of_exec (h.fetched rfl) fun s hrun hs => ?_
  refine ⟨_, rfl, hrun, ?_⟩
  simp only [State.config, Config.mk.injEq] at hs ⊢
  simp [Config.after, hs]

theorem exec_of_fetch {s : State} {pc : Nat} {j : Inst Nat} {v : Value}
    (h : s.config.fetch j = some v) : s.exec pc j = ({ s with acc := v }, none) := by
  cases j with
  | refGlobal i =>
    simp only [Config.fetch, Option.map_eq_some_iff] at h
    obtain ⟨q, hq, rfl⟩ := h
    simp [State.exec, hq]
  | refLocal i =>
    have hlocal : s.stack.getLocal s.fp i = .ok v := by
      have hcell : (if i < s.fp then s.stack.cells.reverse[s.fp - 1 - i]? else none) = some v := h
      unfold Stack.getLocal
      rw [Stack.cellAt?_eq, hcell]
    simp only [State.exec, hlocal, State.load]
  | refTemp i =>
    simp only [Config.fetch, State.config] at h
    simp only [State.exec, Stack.getTemp, Stack.cellAt?_eq, h, State.load]
  | refFree i =>
    simp only [Config.fetch, State.config] at h
    simp only [State.exec, h]
  | refRec a =>
    simp only [Config.fetch, State.config, Option.some.injEq] at h
    simp only [State.exec, h]
  | _ => simp [Config.fetch] at h

theorem moves_fetch {c : Config} {i : Inst Label} {is : Code} {j : Inst Nat} {v : Value}
    (h : p.HasCode c.pc (i :: is)) (hj : i.mapAddress (addressOf p.entries) = .ok j)
    (hv : c.fetch j = some v) : p.Moves c (c.after 1 v []) := by
  refine moves_of_exec (h.fetched hj) fun s hrun hs => ?_
  have hfetch : s.config.fetch j = some v := by
    rw [hs]
    cases j <;> exact hv
  refine ⟨_, exec_of_fetch hfetch, hrun, ?_⟩
  simp only [State.config, Config.mk.injEq] at hs ⊢
  simp [Config.after, hs]

/-! ### Moving values -/

theorem moves_push {c : Config} {k : Nat} {is : Code} (h : p.HasCode (c.pc + k) (.push :: is))
    (v : Value) (vs : List Value) : p.Moves (c.after k v vs) (c.after (k + 1) v (v :: vs)) := by
  refine moves_of_exec (h.fetched rfl) fun s hrun hs => ?_
  refine ⟨_, rfl, hrun, ?_⟩
  simp only [State.config, Config.after, Config.mk.injEq] at hs ⊢
  simp [hs, Nat.add_assoc]

theorem moves_pop {c : Config} {n : Nat} {is : Code} (h : p.HasCode c.pc (.pop n :: is))
    (hn : n ≤ c.cells.length) :
    p.Moves c { c with pc := c.pc + 1, cells := c.cells.drop n } := by
  refine moves_of_exec (h.fetched rfl) fun s hrun hs => ?_
  simp only [State.config, Config.mk.injEq] at hs
  have hle : n ≤ s.stack.height := by rw [s.stack.height_eq, hs.2.2.2.2.2]; exact hn
  refine ⟨{ s with stack := s.stack.drop n }, ?_, hrun, ?_⟩
  · simp [State.exec, Stack.popMany, hle, State.setStack]
  · simp [State.config, hs]

theorem moves_shift {c : Config} (kept dropped rest : List Value) {is : Code}
    (h : p.HasCode c.pc (.shift kept.length dropped.length :: is))
    (hcells : c.cells = kept ++ dropped ++ rest) :
    p.Moves c { c with pc := c.pc + 1, cells := kept ++ rest } := by
  refine moves_of_exec (h.fetched rfl) fun s hrun hs => ?_
  simp only [State.config, Config.mk.injEq] at hs
  have hstack : s.stack.cells = kept ++ dropped ++ rest := hs.2.2.2.2.2.trans hcells
  have hle : kept.length + dropped.length ≤ s.stack.height := by
    rw [s.stack.height_eq, hstack]
    simp only [List.length_append]
    omega
  have hdrop : s.stack.cells.drop (kept.length + dropped.length) = rest := by
    rw [hstack, ← List.length_append, List.drop_left]
  have htake : s.stack.cells.take kept.length = kept := by
    rw [hstack, List.append_assoc, List.take_left]
  have hshift : ∃ stack, s.stack.shift kept.length dropped.length = .ok stack ∧
      stack.cells = kept ++ rest := by
    rw [Stack.shift, dif_pos hle]
    exact ⟨_, rfl, by simp only [htake, hdrop]⟩
  obtain ⟨stack, hok, hstack'⟩ := hshift
  refine ⟨{ s with stack }, ?_, hrun, ?_⟩
  · simp only [State.exec, hok, State.setStack]
  · simp [State.config, hstack', hs]

theorem moves_close {c : Config} {vs rest : List Value} {l : Label} {a : Nat} {is : Code}
    (h : p.HasCode c.pc (.close vs.length l :: is)) (ha : addressOf p.entries l = .ok a)
    (hcells : c.cells = vs.reverse ++ rest) :
    p.Moves c { c with pc := c.pc + 1, acc := .closure a vs, cells := rest } := by
  have hj : (Inst.close vs.length l).mapAddress (addressOf p.entries) =
      .ok (.close vs.length a) := by
    simp [Inst.mapAddress, ha, Except.map]
  refine moves_of_exec (h.fetched hj) fun s hrun hs => ?_
  simp only [State.config, Config.mk.injEq] at hs
  have hstack : s.stack.cells = vs.reverse ++ rest := hs.2.2.2.2.2.trans hcells
  have hle : vs.length ≤ s.stack.height := by
    rw [s.stack.height_eq, hstack]
    simp
  have htake : (s.stack.cells.take vs.length).reverse = vs := by
    rw [hstack, ← List.length_reverse, List.take_left, List.reverse_reverse]
  have hdrop : s.stack.cells.drop vs.length = rest := by
    rw [hstack, ← List.length_reverse, List.drop_left]
  refine ⟨{ s with acc := .closure a vs, stack := s.stack.drop vs.length }, ?_, hrun, ?_⟩
  · simp [State.exec, Stack.takeTop, hle, htake]
  · simp only [State.config, Stack.cells_drop, hdrop]
    simp only [hs]

/-! ### Branching -/

theorem moves_test_of_isFalse {c : Config} {k n : Nat} {is : Code} {v : Value}
    (h : p.HasCode (c.pc + k) (.test n :: is)) (hv : v.isFalse = true) :
    p.Moves (c.after k v []) (c.after (k + n) v []) := by
  refine moves_of_exec (h.fetched rfl) fun s hrun hs => ?_
  simp only [State.config, Config.after, Config.mk.injEq] at hs
  refine ⟨{ s with pc := c.pc + k + n }, ?_, hrun, ?_⟩
  · simp [State.exec, Config.after, hs, hv]
  · simp [State.config, Config.after, hs, Nat.add_assoc]

theorem moves_test_of_not_isFalse {c : Config} {k n : Nat} {is : Code} {v : Value}
    (h : p.HasCode (c.pc + k) (.test n :: is)) (hv : v.isFalse = false) :
    p.Moves (c.after k v []) (c.after (k + 1) v []) := by
  refine moves_of_exec (h.fetched rfl) fun s hrun hs => ?_
  simp only [State.config, Config.after, Config.mk.injEq] at hs
  refine ⟨s, ?_, hrun, ?_⟩
  · simp [State.exec, hs, hv]
  · simp [State.config, Config.after, hs, Nat.add_assoc]

theorem moves_jump {c : Config} {n : Nat} {is : Code} (h : p.HasCode c.pc (.jump n :: is)) :
    p.Moves c (c.after n c.acc []) := by
  refine moves_of_exec (h.fetched rfl) fun s hrun hs => ?_
  refine ⟨_, rfl, hrun, ?_⟩
  simp only [State.config, Config.mk.injEq] at hs ⊢
  simp [Config.after, hs]

/-! ### Calling and returning -/

theorem moves_frame {c : Config} {n : Nat} {is : Code} {r : Resume}
    (h : p.HasCode c.pc (.frame n :: is))
    (hr : r = ⟨c.pc + n, c.fp, c.body, c.captured, c.cells⟩) :
    p.Moves c (c.after 1 c.acc r.link) := by
  subst hr
  refine moves_of_exec (h.fetched rfl) fun s hrun hs => ?_
  refine ⟨_, rfl, hrun, ?_⟩
  simp only [State.config, Config.mk.injEq] at hs ⊢
  simp [Config.after, Resume.link, hs]

theorem returnToCaller_of_saved {s : State} {r : Resume} (h : s.stack.cells = r.saved) :
    ∃ s', s.returnToCaller = (s', none) ∧ s'.halted = s.halted ∧
      s'.config = r.config s.acc := by
  have h1 : s.stack.pop = .ok (.codeAddr r.pc, s.stack.drop 1) := by
    simp [Stack.pop, h, Resume.saved, Resume.link]
  have h2 : (s.stack.drop 1).pop = .ok (.stackAddr r.fp, (s.stack.drop 1).drop 1) := by
    simp [Stack.pop, h, Resume.saved, Resume.link]
  have h3 : ((s.stack.drop 1).drop 1).pop =
      .ok (.closure r.body r.captured, ((s.stack.drop 1).drop 1).drop 1) := by
    simp [Stack.pop, h, Resume.saved, Resume.link]
  refine ⟨{ s with
    pc := r.pc
    fp := r.fp
    body := r.body
    captured := r.captured
    stack := ((s.stack.drop 1).drop 1).drop 1 }, ?_, rfl, ?_⟩
  · simp only [State.returnToCaller, h1, State.restoreFrame, h2, State.restoreClosure, h3]
  · simp [State.config, Resume.config, h, Resume.saved, Resume.link]

theorem moves_ret {c : Config} {dropped : List Value} {r : Resume} {is : Code}
    (h : p.HasCode c.pc (.ret dropped.length :: is)) (hcells : c.cells = dropped ++ r.saved) :
    p.Moves c (r.config c.acc) := by
  refine moves_of_exec (h.fetched rfl) fun s hrun hs => ?_
  simp only [State.config, Config.mk.injEq] at hs
  have hstack : s.stack.cells = dropped ++ r.saved := hs.2.2.2.2.2.trans hcells
  have hle : dropped.length ≤ s.stack.height := by
    rw [s.stack.height_eq, hstack]
    simp
  have hsaved : ({ s with stack := s.stack.drop dropped.length } : State).stack.cells =
      r.saved := by
    simp [hstack]
  obtain ⟨s', hreturn, hrun', hs'⟩ := returnToCaller_of_saved hsaved
  refine ⟨s', ?_, hrun'.trans hrun, ?_⟩
  · simp only [State.exec, Stack.popMany, if_pos hle, hreturn]
  · rw [hs', ← hs.1]

theorem moves_apply_closure {c : Config} {a : Nat} {captured : List Value} {is : Code}
    (h : p.HasCode c.pc (.apply :: is)) (hacc : c.acc = .closure a captured) :
    p.Moves c ⟨c.acc, a, c.cells.length, a, captured, c.cells⟩ := by
  refine moves_of_exec (h.fetched rfl) fun s hrun hs => ?_
  simp only [State.config, Config.mk.injEq] at hs
  have hacc' : s.acc = .closure a captured := hs.1.trans hacc
  refine ⟨{ s with pc := a, fp := s.stack.height, body := a, captured }, ?_, hrun, ?_⟩
  · simp only [State.exec, State.applyAcc, hacc']
  · simp [State.config, hs, s.stack.height_eq]

/-- The operands of a primitive on top of the stack. -/
theorem operands_of_literals {s : State} {q : Primitive} (ls : List Literal)
    (above rest : List Value) (h : s.stack.cells = above ++ (ls.map .lit ++ rest)) :
    s.operands q ls.length above.length = .ok ls := by
  induction ls generalizing above with
  | nil => rfl
  | cons l ls ih =>
    have hpeek : s.stack.peek above.length = .ok (.lit l) := by
      simp [Stack.peek, h]
    have hrest := ih (above ++ [.lit l]) (by simp [h])
    rw [List.length_append] at hrest
    have hlit : (Value.lit l).literal? = some l := rfl
    simp only [List.length_cons, State.operands, hpeek, bind, Except.bind, hlit]
    simp only [List.length_singleton] at hrest
    rw [hrest]
    rfl

theorem operands_of_notLiteral {s : State} {q : Primitive} (ws above rest : List Value)
    (h : s.stack.cells = above ++ (ws ++ rest)) (hbad : ∃ w ∈ ws, w.literal? = none) :
    ∃ w ∈ ws, w.literal? = none ∧
      s.operands q ws.length above.length = .error (.notLiteral q w.text) := by
  induction ws generalizing above with
  | nil => simp at hbad
  | cons w ws ih =>
    have hpeek : s.stack.peek above.length = .ok w := by
      simp [Stack.peek, h]
    cases hw : w.literal? with
    | none =>
      refine ⟨w, List.mem_cons_self .., hw, ?_⟩
      simp only [List.length_cons, State.operands, hpeek, bind, Except.bind, hw]
      rfl
    | some l =>
      have hrest : ∃ w ∈ ws, w.literal? = none := by simpa [hw] using hbad
      obtain ⟨w', hmem, hw', hops⟩ := ih (above ++ [w]) (by simp [h]) hrest
      rw [List.length_append, List.length_singleton] at hops
      refine ⟨w', List.mem_cons_of_mem _ hmem, hw', ?_⟩
      simp only [List.length_cons, State.operands, hpeek, bind, Except.bind, hw, hops]

theorem length_of_apply_ok {q : Primitive} {ls : List Literal} {n : Nat} {v : Literal}
    (h : q.apply ls n = .ok v) : ls.length = q.arity := by
  refine Decidable.byContradiction fun hlen => ?_
  unfold Primitive.apply at h
  rw [if_pos hlen] at h
  cases h

/-- A primitive whose operands are on top of the stack returns its result. -/
theorem exec_apply_prim {s : State} {pc : Nat} {q : Primitive} {ls : List Literal} {v : Literal}
    {r : Resume} (hacc : s.acc = .prim q) (hcells : s.stack.cells = ls.map .lit ++ r.saved)
    (hv : q.apply ls s.steps = .ok v) :
    ∃ s', s.exec pc .apply = (s', none) ∧ s'.halted = s.halted ∧ s'.config = r.config (.lit v) := by
  have hlen : ls.length = q.arity := length_of_apply_ok hv
  have hargs : s.operands q q.arity 0 = .ok ls := by
    rw [← hlen]
    exact operands_of_literals ls [] r.saved hcells
  have hle : q.arity ≤ s.stack.height := by
    rw [s.stack.height_eq, hcells, ← hlen]
    simp
  have hdrop : s.stack.cells.drop q.arity = r.saved := by
    rw [hcells, ← hlen, ← List.length_map Value.lit, List.drop_left]
  have hsaved : ({ s with acc := .lit v, stack := s.stack.drop q.arity } : State).stack.cells =
      r.saved := hdrop
  obtain ⟨s', hreturn, hrun', hs'⟩ := returnToCaller_of_saved hsaved
  refine ⟨s', ?_, hrun', hs'⟩
  simp only [State.exec, State.applyAcc, hacc, State.applyPrimitive, hargs, bind, Except.bind, hv,
    Stack.popMany, if_pos hle, hreturn]

theorem exec_apply_prim_trap {s : State} {pc : Nat} {q : Primitive} {t : Trap}
    (hacc : s.acc = .prim q)
    (h : (s.operands q q.arity 0 >>= fun args => q.apply args s.steps) = .error t) :
    s.exec pc .apply = (s, some t) := by
  simp only [State.exec, State.applyAcc, hacc, State.applyPrimitive, h]

/-- Only `time` reads the number of instructions executed. -/
theorem apply_of_ne_time {q : Primitive} (hq : q ≠ .time) (ls : List Literal) (n m : Nat) :
    q.apply ls n = q.apply ls m := by
  match ls with
  | [a, b] =>
    cases q with
    | time => exact absurd rfl hq
    | _ => cases a <;> cases b <;> rfl
  | [] | [_] | _ :: _ :: _ :: _ =>
    cases q with
    | time => exact absurd rfl hq
    | _ => rfl

theorem moves_apply_prim {c : Config} {q : Primitive} {ls : List Literal} {v : Literal}
    {r : Resume} {is : Code} (h : p.HasCode c.pc (.apply :: is)) (hacc : c.acc = .prim q)
    (hq : q ≠ .time) (hcells : c.cells = ls.map .lit ++ r.saved) (hv : q.apply ls 0 = .ok v) :
    p.Moves c (r.config (.lit v)) := by
  refine moves_of_exec (h.fetched rfl) fun s hrun hs => ?_
  simp only [State.config, Config.mk.injEq] at hs
  have hv' : q.apply ls s.steps = .ok v := (apply_of_ne_time hq ls _ _).trans hv
  obtain ⟨s', hexec, hrun', hs'⟩ :=
    exec_apply_prim (hs.1.trans hacc) (hs.2.2.2.2.2.trans hcells) hv'
  exact ⟨s', hexec, hrun'.trans hrun, hs'⟩

theorem traps_apply_lit {c : Config} {l : Literal} {is : Code}
    (h : p.HasCode c.pc (.apply :: is)) (hacc : c.acc = .lit l) : p.Traps c := by
  refine traps_of_exec (h.fetched rfl) fun s hs => ?_
  simp only [State.config, Config.mk.injEq] at hs
  exact ⟨s, .notProcedure (Value.lit l).text, by
    simp only [State.exec, State.applyAcc, hs.1.trans hacc]⟩

/-- A primitive traps on an operand that is no literal and on literals of the wrong kind. -/
theorem traps_apply_prim {c : Config} {q : Primitive} {ws rest : List Value} {is : Code}
    (h : p.HasCode c.pc (.apply :: is)) (hacc : c.acc = .prim q) (hq : q ≠ .time)
    (hcells : c.cells = ws ++ rest) (hlen : ws.length = q.arity)
    (hbad : (∃ w ∈ ws, w.literal? = none) ∨
      ∃ ls t, ws = ls.map .lit ∧ q.apply ls 0 = .error t) : p.Traps c := by
  refine traps_of_exec (h.fetched rfl) fun s hs => ?_
  simp only [State.config, Config.mk.injEq] at hs
  have hstack : s.stack.cells = [] ++ (ws ++ rest) := hs.2.2.2.2.2.trans hcells
  have htrap : ∃ t, (s.operands q q.arity 0 >>= fun args => q.apply args s.steps) = .error t := by
    rcases hbad with hbad | ⟨ls, t, rfl, ht⟩
    · obtain ⟨w, _, _, hops⟩ := operands_of_notLiteral ws [] rest hstack hbad
      rw [← hlen]
      exact ⟨_, by rw [List.length_nil] at hops; rw [hops]; rfl⟩
    · have hops : s.operands q ls.length 0 = .ok ls := operands_of_literals ls [] rest hstack
      rw [List.length_map] at hlen
      rw [← hlen, hops]
      exact ⟨t, (apply_of_ne_time hq ls _ _).trans ht⟩
  obtain ⟨t, ht⟩ := htrap
  exact ⟨s, t, exec_apply_prim_trap (hs.1.trans hacc) ht⟩

/-! ### Runs -/

theorem step_of_halt {s : State} {is : Code} (hrun : s.halted = false)
    (h : p.HasCode s.pc (.halt :: is)) :
    s.step p none = ({ s with halted := true, steps := s.steps + 1 }, .ok false) := by
  rw [step_of_exec hrun (h.fetched rfl) rfl]
  rfl

theorem runFor_of_step {s s' : State} (h : s.step p none = (s', .ok true)) (n : Nat) :
    s.runFor p none (n + 1) = s'.runFor p none n := by
  simp only [State.runFor, h]

/-- A run that halts on its way does so with the same result from every configuration before. -/
theorem runFor_of_reaches {c c' : Config} (h : p.Reaches c c') {s : State}
    (hrun : s.halted = false) (hs : s.config = c) :
    ∃ (s' : State) (k : Nat), s'.halted = false ∧ s'.config = c' ∧
      ∀ n, s.runFor p none (n + k) = s'.runFor p none n := by
  induction h with
  | refl => exact ⟨s, 0, hrun, hs, fun _ => rfl⟩
  | tail _ hmove ih =>
    obtain ⟨s₁, k, hrun₁, hs₁, hfor⟩ := ih
    obtain ⟨s₂, hstep, hrun₂, hs₂⟩ := hmove s₁ hrun₁ hs₁
    refine ⟨s₂, k + 1, hrun₂, hs₂, fun n => ?_⟩
    have hn : n + (k + 1) = n + 1 + k := by omega
    rw [hn, hfor (n + 1), runFor_of_step hstep]

theorem runFor_of_halt {c : Config} {is : Code} (hreach : p.Reaches State.initial.config c)
    (hcode : p.HasCode c.pc (.halt :: is)) :
    ∃ fuel s, p.runFor none fuel = some ⟨s, .ok c.acc⟩ ∧ s.halted = true ∧
      s.stack.cells = c.cells := by
  obtain ⟨s, k, hrun, hs, hfor⟩ := runFor_of_reaches hreach rfl rfl
  subst hs
  refine ⟨1 + k, { s with halted := true, steps := s.steps + 1 }, ?_, rfl, rfl⟩
  rw [Program.runFor, hfor 1, State.runFor, step_of_halt hrun hcode]
  rfl

theorem runFor_mono {s : State} {n m : Nat} {r : RunEnd} (hnm : n ≤ m)
    (h : s.runFor p none n = some r) : s.runFor p none m = some r := by
  induction n generalizing s m with
  | zero => simp [State.runFor] at h
  | succ n ih =>
    obtain ⟨m, rfl⟩ : ∃ m', m = m' + 1 := ⟨m - 1, by omega⟩
    unfold State.runFor at h ⊢
    rcases hstep : s.step p none with ⟨s', _ | b⟩
    · rw [hstep] at h
      exact h
    · cases b with
      | false =>
        rw [hstep] at h
        exact h
      | true =>
        rw [hstep] at h
        exact ih (by omega) h

/-- From a configuration, no run ends with a result within a number of instructions. -/
def Unfinished (p : Program) (n : Nat) (c : Config) : Prop :=
  ∀ s : State, s.halted = false → s.config = c →
    ∀ r, s.runFor p none n = some r → ∀ v, r.result ≠ .ok v

theorem unfinished_zero (c : Config) : p.Unfinished 0 c := by
  intro s _ _ r hr
  simp [State.runFor] at hr

theorem Unfinished.of_traps {c : Config} (h : p.Traps c) (n : Nat) : p.Unfinished n c := by
  intro s hrun hs r hr v
  obtain ⟨s', t, hstep⟩ := h s hrun hs
  cases n with
  | zero => simp [State.runFor] at hr
  | succ n =>
    simp only [State.runFor, hstep, Option.some.injEq] at hr
    subst hr
    simp

/-- The instruction that starts a call counts towards the instructions of a run. -/
theorem Unfinished.of_moves {c c' : Config} {n : Nat} (h : p.Unfinished n c')
    (hmove : p.Moves c c') : p.Unfinished (n + 1) c := by
  intro s hrun hs r hr
  obtain ⟨s', hstep, hrun', hs'⟩ := hmove s hrun hs
  rw [runFor_of_step hstep] at hr
  exact h s' hrun' hs' r hr

theorem Unfinished.of_reaches {c c' : Config} {n : Nat} (h : p.Unfinished n c')
    (hreach : p.Reaches c c') : p.Unfinished n c := by
  intro s hrun hs r hr
  obtain ⟨s', k, hrun', hs', hfor⟩ := runFor_of_reaches hreach hrun hs
  refine h s' hrun' hs' r ?_
  by_cases hnk : n ≤ k
  · have hnone : s'.runFor p none 0 = some r := by
      rw [← hfor 0, Nat.zero_add]
      exact runFor_mono hnk hr
    simp [State.runFor] at hnone
  · obtain ⟨m, rfl⟩ : ∃ m, n = m + k := ⟨n - k, by omega⟩
    rw [hfor m] at hr
    exact runFor_mono (by omega) hr

end Program

end MiniScheme
