import Mathlib.Data.List.Basic
import MiniScheme.Code.Generate

/-!
# Control flow inside a block

What is known of the stack before an instruction without running the program: how many cells are
above the frame pointer, and which calls are being prepared. Each instruction is allowed at some of
these points only and leads from there to known points of other instructions. A block is sound if
its instructions can be given one point each such that every instruction leads to the points given;
then no path through the block leaves it but by an instruction that ends it.
-/

namespace MiniScheme.Flow

/-- A procedure: the number of its body, and how many parameters and captured values it has. -/
structure Proc where
  tag : Nat
  params : Nat
  captured : Nat
  deriving DecidableEq

/-- What is known before an instruction. -/
inductive Point where
  /-- There are `height` cells above the frame pointer. For each call that is being prepared, the
  latest first, `returns` has the position it returns to and the height there. -/
  | inside (height : Nat) (returns : List (Nat × Nat))
  /-- The frame has been given up; only arguments are left. -/
  | leaving (args : Nat)
  deriving DecidableEq

/-- The height below which nothing may be dropped: the cells that a call has saved are there. -/
def floor : List (Nat × Nat) → Nat
  | [] => 0
  | (_, height) :: _ => height + 3

/-- The main block has no parameters. -/
def paramsOf (owner : Option Proc) : Nat :=
  owner.elim 0 (·.params)

def capturedOf (owner : Option Proc) : Nat :=
  owner.elim 0 (·.captured)

/-- There is a procedure with this body that captures so many values. -/
def Captures (procs : List Proc) (l : Label) (n : Nat) : Prop :=
  ∃ p ∈ procs, l = ⟨p.tag⟩ ∧ n = p.captured

instance (procs : List Proc) (l : Label) (n : Nat) : Decidable (Captures procs l n) :=
  inferInstanceAs (Decidable (∃ p ∈ procs, l = ⟨p.tag⟩ ∧ n = p.captured))

/-- The points that may follow if the condition holds. -/
def onlyIf (p : Prop) [Decidable p] (next : List (Nat × Point)) : Option (List (Nat × Point)) :=
  if p then some next else none

/-- Where an instruction at position `k` leads to from inside the frame of a block. There is no
answer if it is not allowed there: it would read a cell that does not exist, drop cells that belong
to a call or to the caller, or leave cells of its own frame behind. -/
def successorsInside (procs : List Proc) (owner : Option Proc) (k height : Nat)
    (returns : List (Nat × Nat)) : Inst Label → Option (List (Nat × Point))
  | .halt => onlyIf (owner = none ∧ height = 0 ∧ returns = []) []
  | .const _ => some [(k + 1, .inside height returns)]
  | .refGlobal _ => some [(k + 1, .inside height returns)]
  | .refLocal i => onlyIf (i < paramsOf owner) [(k + 1, .inside height returns)]
  | .refTemp slot => onlyIf (slot < height) [(k + 1, .inside height returns)]
  | .refFree i => onlyIf (i < capturedOf owner) [(k + 1, .inside height returns)]
  | .refRec l => onlyIf (Captures procs l (capturedOf owner)) [(k + 1, .inside height returns)]
  | .close n l =>
    onlyIf (Captures procs l n ∧ floor returns + n ≤ height)
      [(k + 1, .inside (height - n) returns)]
  | .test n => onlyIf (0 < n) [(k + 1, .inside height returns), (k + n, .inside height returns)]
  | .jump n => onlyIf (0 < n) [(k + n, .inside height returns)]
  | .frame n =>
    onlyIf (0 < n) [(k + 1, .inside (height + 3) ((k + n, height) :: returns)),
      (k + n, .inside height returns)]
  | .push => some [(k + 1, .inside (height + 1) returns)]
  | .apply =>
    match returns with
    | [] => none
    | (target, height') :: returns' =>
      onlyIf (height' + 3 ≤ height) [(target, .inside height' returns')]
  | .shift kept dropped =>
    onlyIf (owner.isSome ∧ returns = [] ∧ kept ≤ height ∧
      kept + dropped = paramsOf owner + height) [(k + 1, .leaving kept)]
  | .pop n => onlyIf (floor returns + n ≤ height) [(k + 1, .inside (height - n) returns)]
  | .ret n => onlyIf (owner.isSome ∧ returns = [] ∧ n = paramsOf owner + height) []

/-- Where an instruction at position `k` leads to. -/
def successors (procs : List Proc) (owner : Option Proc) (k : Nat) :
    Point → Inst Label → Option (List (Nat × Point))
  | .inside height returns, i => successorsInside procs owner k height returns i
  | .leaving _, i => if i = .apply then some [] else none

/-- The code has been given one point for each instruction, from which all control flow goes to
the points given. -/
structure Assigns (procs : List Proc) (owner : Option Proc) (code : Code) (points : List Point) :
    Prop where
  length_eq : points.length = code.length
  start : points[0]? = some (.inside 0 [])
  next : ∀ {k : Nat} {i : Inst Label} {pt : Point}, code[k]? = some i → points[k]? = some pt →
    ∃ succs, successors procs owner k pt i = some succs ∧ ∀ q ∈ succs, points[q.1]? = some q.2
  shifted : ∀ {k args : Nat}, points[k]? = some (.leaving args) →
    ∃ j dropped, k = j + 1 ∧ code[j]? = some (.shift args dropped)

/-- A path through a block from its first instruction. -/
inductive Path (procs : List Proc) (owner : Option Proc) (code : Code) : Nat → Point → Prop where
  | start : Path procs owner code 0 (.inside 0 [])
  | step {k : Nat} {pt : Point} {i : Inst Label} {succs : List (Nat × Point)} {q : Nat × Point}
      (h : Path procs owner code k pt) (hi : code[k]? = some i)
      (hs : successors procs owner k pt i = some succs) (hq : q ∈ succs) :
      Path procs owner code q.1 q.2

/-- The instruction at a position ends the block: the main block halts, a procedure returns or
calls another procedure in its place. -/
def Ends (owner : Option Proc) (code : Code) (k : Nat) : Prop :=
  match owner with
  | none => code[k]? = some .halt
  | some _ => (∃ n, code[k]? = some (.ret n)) ∨ code[k]? = some .apply ∧
      ∃ j kept dropped, k = j + 1 ∧ code[j]? = some (.shift kept dropped)

section

variable {procs : List Proc} {owner : Option Proc} {code : Code} {points : List Point}

theorem onlyIf_eq_some_iff {p : Prop} [Decidable p] {next succs : List (Nat × Point)} :
    onlyIf p next = some succs ↔ p ∧ next = succs := by
  unfold onlyIf
  split
  · rename_i h
    simp [h]
  · rename_i h
    simp [h]

theorem onlyIf_of {p : Prop} [Decidable p] (h : p) {next : List (Nat × Point)} :
    onlyIf p next = some next :=
  if_pos h

namespace Assigns

theorem lt_length (h : Assigns procs owner code points) {k : Nat} {pt : Point}
    (hpt : points[k]? = some pt) : k < code.length := by
  obtain ⟨hlt, _⟩ := List.getElem?_eq_some_iff.1 hpt
  rw [h.length_eq] at hlt
  exact hlt

theorem point_of_inst (h : Assigns procs owner code points) {k : Nat} {i : Inst Label}
    (hi : code[k]? = some i) : ∃ pt, points[k]? = some pt := by
  obtain ⟨hlt, _⟩ := List.getElem?_eq_some_iff.1 hi
  rw [← h.length_eq] at hlt
  exact ⟨_, List.getElem?_eq_getElem hlt⟩

/-- Every branch goes forward to an instruction of the block. -/
theorem branch (h : Assigns procs owner code points) {k n : Nat} {i : Inst Label}
    (hi : code[k]? = some i) (hn : i.branchOffset? = some n) : 0 < n ∧ k + n < code.length := by
  obtain ⟨pt, hpt⟩ := h.point_of_inst hi
  obtain ⟨succs, hsuccs, hpoints⟩ := h.next hi hpt
  cases pt with
  | leaving args =>
    have happly : i = .apply := by
      by_contra hne
      simp [successors, hne] at hsuccs
    subst happly
    cases hn
  | inside height returns =>
    have htarget : 0 < n ∧ (k + n, .inside height returns) ∈ succs := by
      cases i with
      | test m | jump m | frame m =>
        cases hn
        obtain ⟨hpos, rfl⟩ := onlyIf_eq_some_iff.1 hsuccs
        exact ⟨hpos, by simp⟩
      | _ => cases hn
    exact ⟨htarget.1, h.lt_length (hpoints _ htarget.2)⟩

/-- A closure is made with as many values as its body captures. -/
theorem captures_of_close (h : Assigns procs owner code points) {n : Nat} {l : Label}
    (hmem : .close n l ∈ code) : Captures procs l n := by
  obtain ⟨k, hk⟩ := List.mem_iff_getElem?.1 hmem
  obtain ⟨pt, hpt⟩ := h.point_of_inst hk
  obtain ⟨succs, hsuccs, _⟩ := h.next hk hpt
  cases pt with
  | leaving args => cases hsuccs
  | inside height returns => exact (onlyIf_eq_some_iff.1 hsuccs).1.1

theorem path (h : Assigns procs owner code points) {k : Nat} {pt : Point}
    (hpath : Path procs owner code k pt) : points[k]? = some pt := by
  induction hpath with
  | start => exact h.start
  | step hbefore hi hs hq ih =>
    obtain ⟨succs, hsuccs, hpoints⟩ := h.next hi ih
    rw [hs] at hsuccs
    cases hsuccs
    exact hpoints _ hq

/-- Only a procedure gives up its frame, and it does so for a call that follows at once. -/
theorem ends_of_leaving (h : Assigns procs owner code points) {k args : Nat} {i : Inst Label}
    (hi : code[k]? = some i) (hpt : points[k]? = some (.leaving args)) : Ends owner code k := by
  obtain ⟨succs, hsuccs, _⟩ := h.next hi hpt
  have happly : i = .apply := by
    by_contra hne
    simp [successors, hne] at hsuccs
  subst happly
  obtain ⟨j, dropped, rfl, hshift⟩ := h.shifted hpt
  obtain ⟨pt, hbefore⟩ := h.point_of_inst hshift
  obtain ⟨succs', hsuccs', _⟩ := h.next hshift hbefore
  cases pt with
  | leaving args' => cases hsuccs'
  | inside height returns =>
    obtain ⟨⟨howner, _⟩, _⟩ := onlyIf_eq_some_iff.1 hsuccs'
    obtain ⟨p, rfl⟩ := Option.isSome_iff_exists.1 howner
    exact .inr ⟨hi, j, args, dropped, rfl, hshift⟩

/-- Inside its frame, an instruction that leads nowhere is the end of the block. -/
theorem ends_of_inside {k height : Nat} {returns : List (Nat × Nat)} {i : Inst Label}
    (hi : code[k]? = some i) (hs : successorsInside procs owner k height returns i = some []) :
    Ends owner code k := by
  cases i with
  | halt =>
    obtain ⟨⟨rfl, _⟩, _⟩ := onlyIf_eq_some_iff.1 hs
    exact hi
  | ret n =>
    obtain ⟨⟨howner, _⟩, _⟩ := onlyIf_eq_some_iff.1 hs
    obtain ⟨p, rfl⟩ := Option.isSome_iff_exists.1 howner
    exact .inl ⟨n, hi⟩
  | apply =>
    cases returns with
    | nil => cases hs
    | cons r returns => cases (onlyIf_eq_some_iff.1 hs).2
  | const v | refGlobal j | push => cases hs
  | _ => cases (onlyIf_eq_some_iff.1 hs).2

/-- A path never runs past the end of the block: where it cannot go on, the block ends. -/
theorem path_continues (h : Assigns procs owner code points) {k : Nat} {pt : Point}
    (hpath : Path procs owner code k pt) :
    k < code.length ∧ ((∃ i succs q, code[k]? = some i ∧
      successors procs owner k pt i = some succs ∧ q ∈ succs) ∨ Ends owner code k) := by
  have hpt := h.path hpath
  have hlt := h.lt_length hpt
  have hi := List.getElem?_eq_getElem hlt
  obtain ⟨succs, hsuccs, _⟩ := h.next hi hpt
  refine ⟨hlt, ?_⟩
  cases succs with
  | cons q succs => exact .inl ⟨_, _, q, hi, hsuccs, List.mem_cons_self ..⟩
  | nil =>
    refine .inr ?_
    cases pt with
    | leaving args => exact h.ends_of_leaving hi hpt
    | inside height returns => exact ends_of_inside hi hsuccs

end Assigns

end

/-! ### Parts of blocks -/

/-- Instructions with the points they are given. -/
abbrev Marking := List (Inst Label × Point)

/-- A position has a point in a marked part of a block that starts at position `k`, or it is one
of those that the part leads to. -/
def Marks (k : Nat) (part : Marking) (out : Nat → Point → Prop) (q : Nat) (pt : Point) : Prop :=
  (∃ i, k ≤ q ∧ part[q - k]? = some (i, pt)) ∨ out q pt

/-- The instruction is allowed at the point and leads only to such points. -/
def Permits (procs : List Proc) (owner : Option Proc) (k : Nat) (pt : Point) (i : Inst Label)
    (out : Nat → Point → Prop) : Prop :=
  ∃ succs, successors procs owner k pt i = some succs ∧ ∀ q ∈ succs, out q.1 q.2

/-- From the point `pt` at position `k`, the marked part of a block leads to itself and to the
points `out`. -/
structure Leads (procs : List Proc) (owner : Option Proc) (k : Nat) (pt : Point) (part : Marking)
    (out : Nat → Point → Prop) : Prop where
  entry : Marks k part out k pt
  next : ∀ {j : Nat} {i : Inst Label} {pt : Point}, part[j]? = some (i, pt) →
    Permits procs owner (k + j) pt i (Marks k part out)
  shifted : ∀ {j args : Nat} {i : Inst Label}, part[j]? = some (i, .leaving args) →
    ∃ j' dropped pt, j = j' + 1 ∧ part[j']? = some (.shift args dropped, pt)

/-- Only this point at this position. -/
def At (k : Nat) (pt : Point) (q : Nat) (pt' : Point) : Prop :=
  q = k ∧ pt' = pt

/-- No point. -/
def Nowhere (_ : Nat) (_ : Point) : Prop :=
  False

section

variable {procs : List Proc} {owner : Option Proc} {k k' : Nat} {pt pt' : Point}
  {c c₁ c₂ : Marking} {out out₁ : Nat → Point → Prop}

theorem Permits.imp {i : Inst Label} (h : Permits procs owner k pt i out₁)
    (hout : ∀ q pt, out₁ q pt → out q pt) : Permits procs owner k pt i out := by
  obtain ⟨succs, hsuccs, hq⟩ := h
  exact ⟨succs, hsuccs, fun q hmem => hout _ _ (hq q hmem)⟩

theorem Marks.append_right {q : Nat} (h : Marks (k + c₁.length) c₂ out q pt) :
    Marks k (c₁ ++ c₂) out q pt := by
  rcases h with ⟨i, hle, hi⟩ | h
  · refine .inl ⟨i, by omega, ?_⟩
    rw [List.getElem?_append_right (by omega), Nat.sub_sub]
    exact hi
  · exact .inr h

theorem Marks.append_left {q : Nat} (h : Marks k c₁ out₁ q pt)
    (hout : ∀ q pt, out₁ q pt → Marks (k + c₁.length) c₂ out q pt) :
    Marks k (c₁ ++ c₂) out q pt := by
  rcases h with ⟨i, hle, hi⟩ | h
  · refine .inl ⟨i, hle, ?_⟩
    obtain ⟨hlt, _⟩ := List.getElem?_eq_some_iff.1 hi
    rw [List.getElem?_append_left hlt]
    exact hi
  · exact (hout q pt h).append_right

theorem leads_nil (h : out k pt) : Leads procs owner k pt [] out :=
  ⟨.inr h, fun h => by simp at h, fun h => by simp at h⟩

theorem leads_single {height : Nat} {returns : List (Nat × Nat)} {i : Inst Label}
    (h : Permits procs owner k (.inside height returns) i out) :
    Leads procs owner k (.inside height returns) [(i, .inside height returns)] out := by
  refine ⟨.inl ⟨i, Nat.le_refl k, by simp⟩, fun {j} {i'} {pt} hj => ?_,
    fun {j} {args} {i'} hj => ?_⟩
  · match j, hj with
    | 0, hj =>
      cases hj
      exact h.imp fun q pt hout => .inr hout
    | j + 1, hj => simp at hj
  · match j, hj with
    | 0, hj => cases hj
    | j + 1, hj => simp at hj

/-- Two parts one after the other; the first leads only to points of the second or beyond it. -/
theorem Leads.append (h₁ : Leads procs owner k pt c₁ out₁)
    (h₂ : Leads procs owner (k + c₁.length) pt' c₂ out)
    (hout : ∀ q pt, out₁ q pt → Marks (k + c₁.length) c₂ out q pt) :
    Leads procs owner k pt (c₁ ++ c₂) out := by
  refine ⟨h₁.entry.append_left hout, fun {j} {i} {pt} hj => ?_, fun {j} {args} {i} hj => ?_⟩
  · by_cases hlt : j < c₁.length
    · rw [List.getElem?_append_left hlt] at hj
      exact (h₁.next hj).imp fun q pt h => h.append_left hout
    · rw [List.getElem?_append_right (by omega)] at hj
      have hnext := h₂.next hj
      have hpos : k + c₁.length + (j - c₁.length) = k + j := by omega
      rw [hpos] at hnext
      exact hnext.imp fun q pt h => h.append_right
  · by_cases hlt : j < c₁.length
    · rw [List.getElem?_append_left hlt] at hj
      obtain ⟨j', dropped, pt, rfl, hshift⟩ := h₁.shifted hj
      refine ⟨j', dropped, pt, rfl, ?_⟩
      rw [List.getElem?_append_left (by omega)]
      exact hshift
    · rw [List.getElem?_append_right (by omega)] at hj
      obtain ⟨j', dropped, pt, hj', hshift⟩ := h₂.shifted hj
      refine ⟨c₁.length + j', dropped, pt, by omega, ?_⟩
      rw [List.getElem?_append_right (by omega), Nat.add_sub_cancel_left]
      exact hshift

/-- The first part leads only to the second. -/
theorem Leads.seq (h₁ : Leads procs owner k pt c₁ (At (k + c₁.length) pt'))
    (h₂ : Leads procs owner (k + c₁.length) pt' c₂ out) :
    Leads procs owner k pt (c₁ ++ c₂) out := by
  refine h₁.append h₂ ?_
  rintro q pt ⟨rfl, rfl⟩
  exact h₂.entry

/-- The frame is given up for a call. -/
theorem leads_tailApply {kept dropped height : Nat} (howner : owner.isSome)
    (hkept : kept ≤ height) (hcells : kept + dropped = paramsOf owner + height) :
    Leads procs owner k (.inside height [])
      [(.shift kept dropped, .inside height []), (.apply, .leaving kept)] out := by
  have hentry : Marks k [(.shift kept dropped, .inside height []), (.apply, .leaving kept)] out k
      (.inside height []) :=
    .inl ⟨.shift kept dropped, Nat.le_refl k, by simp⟩
  refine ⟨hentry, fun {j} {i} {pt} hj => ?_, fun {j} {args} {i} hj => ?_⟩
  · match j, hj with
    | 0, hj =>
      cases hj
      refine ⟨_, onlyIf_of ⟨howner, rfl, hkept, hcells⟩, ?_⟩
      refine List.forall_mem_singleton.2 (.inl ⟨.apply, by omega, ?_⟩)
      simp
    | 1, hj =>
      cases hj
      exact ⟨[], by simp [successors], nofun⟩
    | j + 2, hj => simp at hj
  · match j, hj with
    | 0, hj => cases hj
    | 1, hj =>
      cases hj
      exact ⟨0, dropped, _, rfl, rfl⟩
    | j + 2, hj => simp at hj

theorem Leads.assigns (h : Leads procs owner 0 (.inside 0 []) c Nowhere) :
    Assigns procs owner (c.map (·.1)) (c.map (·.2)) := by
  have hmarks : ∀ {q : Nat} {pt : Point}, Marks 0 c Nowhere q pt → (c.map (·.2))[q]? = some pt := by
    rintro q pt (⟨i, _, hi⟩ | hnowhere)
    · rw [List.getElem?_map, ← Nat.sub_zero q, hi]
      rfl
    · exact hnowhere.elim
  refine ⟨by simp, hmarks h.entry, fun {k} {i} {pt} hi hpt => ?_, fun {k} {args} hpt => ?_⟩
  · rw [List.getElem?_map, Option.map_eq_some_iff] at hi hpt
    obtain ⟨x, hx, rfl⟩ := hi
    obtain ⟨y, hy, rfl⟩ := hpt
    cases hx.symm.trans hy
    obtain ⟨i, pt⟩ := x
    obtain ⟨succs, hsuccs, hq⟩ := h.next hx
    rw [Nat.zero_add] at hsuccs
    exact ⟨succs, hsuccs, fun q hmem => hmarks (hq q hmem)⟩
  · rw [List.getElem?_map, Option.map_eq_some_iff] at hpt
    obtain ⟨⟨i, pt⟩, hx, rfl⟩ := hpt
    obtain ⟨j, dropped, pt, rfl, hshift⟩ := h.shifted hx
    exact ⟨j, dropped, rfl, by rw [List.getElem?_map, hshift]; rfl⟩

end

/-! ### Code -/

/-- The instructions can be given points such that the code leads from `pt` to `out` only. -/
def Runs (procs : List Proc) (owner : Option Proc) (k : Nat) (pt : Point) (code : Code)
    (out : Nat → Point → Prop) : Prop :=
  ∃ c : Marking, c.map (·.1) = code ∧ Leads procs owner k pt c out

section

variable {procs : List Proc} {owner : Option Proc} {k stop : Nat} {pt pt' : Point}
  {code code₁ code₂ : Code} {out : Nat → Point → Prop}

theorem runs_nil (h : out k pt) : Runs procs owner k pt [] out :=
  ⟨[], rfl, leads_nil h⟩

theorem runs_single {height : Nat} {returns : List (Nat × Nat)} {i : Inst Label}
    (h : Permits procs owner k (.inside height returns) i out) :
    Runs procs owner k (.inside height returns) [i] out :=
  ⟨[(i, .inside height returns)], rfl, leads_single h⟩

theorem runs_tailApply {kept dropped height : Nat} (howner : owner.isSome) (hkept : kept ≤ height)
    (hcells : kept + dropped = paramsOf owner + height) :
    Runs procs owner k (.inside height []) [.shift kept dropped, .apply] out :=
  ⟨_, rfl, leads_tailApply howner hkept hcells⟩

/-- An instruction that leads to the next one only. -/
theorem runs_step {height : Nat} {returns : List (Nat × Nat)} {i : Inst Label}
    (h : successorsInside procs owner k height returns i = some [(k + 1, pt')]) :
    Runs procs owner k (.inside height returns) [i] (At (k + 1) pt') :=
  runs_single ⟨_, h, List.forall_mem_singleton.2 ⟨rfl, rfl⟩⟩

theorem Runs.seq (h₁ : Runs procs owner k pt code₁ (At (k + code₁.length) pt'))
    (h₂ : Runs procs owner (k + code₁.length) pt' code₂ out) :
    Runs procs owner k pt (code₁ ++ code₂) out := by
  obtain ⟨c₁, rfl, h₁⟩ := h₁
  obtain ⟨c₂, rfl, h₂⟩ := h₂
  rw [List.length_map] at h₁ h₂
  exact ⟨c₁ ++ c₂, List.map_append, h₁.seq h₂⟩

/-- Both branches of a conditional start where the test leads to; the first one ends before the
second one or goes where that goes. -/
theorem Runs.cond {height : Nat} {returns : List (Nat × Nat)} {ct cy cn : Code}
    (htest : Runs procs owner k pt ct (At (k + ct.length) (.inside height returns)))
    (hyes : Runs procs owner (k + ct.length + 1) (.inside height returns) cy out)
    (hno : Runs procs owner (k + ct.length + 1 + cy.length) (.inside height returns) cn out) :
    Runs procs owner k pt (ct ++ ([.test (cy.length + 1)] ++ (cy ++ cn))) out := by
  obtain ⟨c₁, rfl, hyes⟩ := hyes
  obtain ⟨c₂, rfl, hno⟩ := hno
  rw [List.length_map] at hno ⊢
  have hbranches := hyes.append hno fun q pt hout => .inr hout
  have htests : Permits procs owner (k + ct.length) (.inside height returns)
      (.test (c₁.length + 1)) (Marks (k + ct.length + 1) (c₁ ++ c₂) out) := by
    refine ⟨_, onlyIf_of (Nat.succ_pos c₁.length), ?_⟩
    refine List.forall_mem_cons.2 ⟨hbranches.entry, List.forall_mem_singleton.2 ?_⟩
    have hpos : k + ct.length + (c₁.length + 1) = k + ct.length + 1 + c₁.length := by omega
    rw [hpos]
    exact hno.entry.append_right
  have hrest := (leads_single htests).append hbranches fun q pt hmarks => hmarks
  refine htest.seq ⟨_, ?_, hrest⟩
  simp

/-- The code of a call, from saving the cells to the call itself, leads to where it returns to. -/
theorem Runs.call {height n : Nat} {returns : List (Nat × Nat)} (hn : 0 < n)
    (h : Runs procs owner (k + 1) (.inside (height + 3) ((k + n, height) :: returns)) code
      (At (k + n) (.inside height returns))) :
    Runs procs owner k (.inside height returns) ([.frame n] ++ code)
      (At (k + n) (.inside height returns)) := by
  obtain ⟨c, rfl, h⟩ := h
  have hframe : Permits procs owner k (.inside height returns) (.frame n)
      (Marks (k + 1) c (At (k + n) (.inside height returns))) := by
    refine ⟨_, onlyIf_of hn, List.forall_mem_cons.2 ⟨h.entry, List.forall_mem_singleton.2 ?_⟩⟩
    exact .inr ⟨rfl, rfl⟩
  exact ⟨_, rfl, (leads_single hframe).append h fun q pt hmarks => hmarks⟩

theorem runs_apply {height height' target : Nat} {returns : List (Nat × Nat)}
    (hle : height' + 3 ≤ height) :
    Runs procs owner k (.inside height ((target, height') :: returns)) [.apply]
      (At target (.inside height' returns)) :=
  runs_single ⟨_, onlyIf_of hle, List.forall_mem_singleton.2 ⟨rfl, rfl⟩⟩

theorem Runs.assigns (h : Runs procs owner 0 (.inside 0 []) code Nowhere) :
    ∃ points, Assigns procs owner code points := by
  obtain ⟨c, rfl, h⟩ := h
  exact ⟨_, h.assigns⟩

end

end MiniScheme.Flow
