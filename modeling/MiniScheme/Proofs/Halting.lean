import MiniScheme.Proofs.CodeFaults
import MiniScheme.Proofs.Refinement
import MiniScheme.Proofs.TypedEvaluation

/-!
# When compiled programs exist and when they halt

A typed tree always has a program, whatever its table of tail calls. The machine halts on the
program exactly if direct evaluation gives a value once calls may be nested deep enough, and the
accumulator then holds the literal that the value is, if it is one.
-/

namespace MiniScheme

/-- The machine halts on a program, in this state and with this value. -/
def Program.HaltsWith (p : Program) (s : State) (v : Value) : Prop :=
  ∃ fuel, p.runFor none fuel = some ⟨s, .ok v⟩

theorem Program.HaltsWith.unique {p : Program} {s s' : State} {v v' : Value}
    (h : p.HaltsWith s v) (h' : p.HaltsWith s' v') : s = s' ∧ v = v' := by
  obtain ⟨fuel, hrun⟩ := h
  obtain ⟨fuel', hrun'⟩ := h'
  have hmax := runFor_mono (Nat.le_max_left fuel fuel') hrun
  have hmax' := runFor_mono (Nat.le_max_right fuel fuel') hrun'
  cases hmax.symm.trans hmax'
  exact ⟨rfl, rfl⟩

/-- The machine halts on both programs or on neither of them, and where it does, it ends with the
same literal or with no literal. -/
structure Program.HaltsLike (p p' : Program) : Prop where
  halts : (∃ s v, p.HaltsWith s v) ↔ ∃ s v, p'.HaltsWith s v
  literal : ∀ {s v s' v'}, p.HaltsWith s v → p'.HaltsWith s' v' → v.literal? = v'.literal?

/-- Evaluation gives a value once calls may be nested deep enough, and the value is this literal or
none. -/
def Expr.ConvergesTo {α : Type} (e : Expr α) (l : Option Literal) : Prop :=
  ∃ d, Eval.Converges .empty e d ∧ d.literal? = l

/-- The machine halts on a program in memory exactly if evaluation converges, and with the same
literal. -/
theorem Image.Hosts.halts_iff {M : Image} {e : Expr Nat} (h : M.Hosts e) (htime : e.Timeless)
    {ty : Ty} (htyped : Typed [] e ty) (l : Option Literal) :
    (∃ s v, M.program.HaltsWith s v ∧ v.literal? = l) ↔ e.ConvergesTo l := by
  -- a run of as many instructions as calls may be nested tells whether evaluation was cut off
  have hfollows (n : Nat) := h.follows htime fun _ : True => Eval.safe_of_typed htyped n
  have hhalts {n : Nat} {d : Eval.Value Nat}
      (hd : Eval.evalWith (Eval.call n) .empty e = .ok d) :
      ∃ s v, M.program.HaltsWith s v ∧ v.literal? = d.literal? := by
    obtain ⟨length, hhalt, hfollows⟩ := hfollows n
    obtain ⟨_, hreach, v, hv, rfl⟩ := hfollows.ok d hd
    obtain ⟨fuel, s, hrun, _⟩ := Program.runFor_of_halt hreach (hhalt.move (Nat.zero_add _))
    exact ⟨s, v, ⟨fuel, hrun⟩, hv.literal?_eq⟩
  constructor
  · rintro ⟨s, v, hrun, rfl⟩
    obtain ⟨fuel, hfuel⟩ := id hrun
    cases heval : Eval.evalWith (Eval.call fuel) .empty e with
    | ok d =>
      obtain ⟨s', v', hrun', hv'⟩ := hhalts heval
      obtain ⟨_, rfl⟩ := hrun.unique hrun'
      exact ⟨d, Eval.converges_of_ok heval, hv'.symm⟩
    | error er =>
      obtain ⟨length, _, hfollows⟩ := hfollows fuel
      have hunfinished := hfollows.error er heval trivial State.initial rfl rfl
      exact absurd rfl (hunfinished _ hfuel v)
  · rintro ⟨d, hd, rfl⟩
    obtain ⟨n, hn⟩ := hd.exists
    exact hhalts hn

/-- Programs in memory whose trees converge alike halt alike. -/
theorem Image.Hosts.haltsLike {M M' : Image} {e e' : Expr Nat} (h : M.Hosts e) (h' : M'.Hosts e')
    (htime : e.Timeless) (htime' : e'.Timeless) {ty ty' : Ty} (htyped : Typed [] e ty)
    (htyped' : Typed [] e' ty') (hiff : ∀ l, e.ConvergesTo l ↔ e'.ConvergesTo l) :
    M.program.HaltsLike M'.program := by
  have hsame (l : Option Literal) : (∃ s v, M.program.HaltsWith s v ∧ v.literal? = l) ↔
      ∃ s v, M'.program.HaltsWith s v ∧ v.literal? = l := by
    rw [h.halts_iff htime htyped, h'.halts_iff htime' htyped', hiff]
  refine ⟨⟨?_, ?_⟩, ?_⟩
  · rintro ⟨s, v, hrun⟩
    obtain ⟨s', v', hrun', _⟩ := (hsame _).1 ⟨s, v, hrun, rfl⟩
    exact ⟨s', v', hrun'⟩
  · rintro ⟨s, v, hrun⟩
    obtain ⟨s', v', hrun', _⟩ := (hsame _).2 ⟨s, v, hrun, rfl⟩
    exact ⟨s', v', hrun'⟩
  · intro s v s' v' hrun hrun'
    obtain ⟨s'', v'', hrun'', hv⟩ := (hsame _).1 ⟨s, v, hrun, rfl⟩
    obtain ⟨_, rfl⟩ := hrun'.unique hrun''
    exact hv.symm

/-! ### Typed trees have programs -/

namespace Expr

theorem lowered_of_typed {scope : TypeScope} {e : Expr Nat} {ty : Ty} (h : Typed scope e ty) :
    e.Lowered := by
  intro d hd
  obtain ⟨scope, ty, htyped⟩ := (typedBy_of_typed h fun _ _ => False).everywhere d hd
  constructor
  · rintro t rfl
    cases htyped with
    | seq hlen _ hlast _ =>
      obtain rfl := List.length_eq_zero_iff.1 hlen.symm
      cases hlast
  · rintro bs body t rfl
    cases htyped

theorem exists_program_of_typed {e : Expr Nat} {ty : Ty} (h : Typed [] e ty)
    (hclosed : ∀ x, e.FreeIn x → x ∈ Primitive.names) (calls : List TailCall) :
    ∃ assembly program, e.assemble calls = .ok assembly ∧ assembly.link = .ok program := by
  refine exists_program (lowered_of_typed h) (fun x value t hassign => ?_) hclosed calls
  obtain ⟨scope, ty, htyped⟩ := (typedBy_of_typed h fun _ _ => False).everywhere _ hassign
  cases htyped

end Expr

end MiniScheme
