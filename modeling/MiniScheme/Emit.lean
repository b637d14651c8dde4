/-!
# Emitting computations

A computation that may fail and that emits items on its way. A failure keeps what was emitted
before it.
-/

namespace MiniScheme

/-- A result or an error of type `ε`, with the items of type `ω` emitted before it was
reached. -/
structure Emit (ω ε α : Type) where
  emitted : List ω
  result : Except ε α

namespace Emit

variable {ω ε α β : Type}

/-- Runs `f` on the result of `x`, if there is one. -/
def andThen (x : Emit ω ε α) (f : α → Emit ω ε β) : Emit ω ε β :=
  match x.result with
  | .error e => ⟨x.emitted, .error e⟩
  | .ok a =>
    let y := f a
    ⟨x.emitted ++ y.emitted, y.result⟩

instance : Monad (Emit ω ε) where
  pure a := ⟨[], .ok a⟩
  bind := andThen

/-- Fails without emitting anything. -/
def fail (e : ε) : Emit ω ε α :=
  ⟨[], .error e⟩

/-- Emits one item. -/
def emit (w : ω) : Emit ω ε Unit :=
  ⟨[w], .ok ()⟩

/-- A result or an error without emitted items. -/
def lift (r : Except ε α) : Emit ω ε α :=
  ⟨[], r⟩

/-- The same computation with every emitted item changed. -/
def mapEmitted {ω' : Type} (g : ω → ω') (x : Emit ω ε α) : Emit ω' ε α :=
  ⟨x.emitted.map g, x.result⟩

@[simp] theorem result_pure (a : α) : (pure a : Emit ω ε α).result = .ok a := rfl

@[simp] theorem emitted_pure (a : α) : (pure a : Emit ω ε α).emitted = [] := rfl

theorem result_bind (x : Emit ω ε α) (f : α → Emit ω ε β) :
    (x >>= f).result = x.result >>= fun a => (f a).result := by
  show (andThen x f).result = _
  unfold andThen
  cases h : x.result with
  | error e => rfl
  | ok a => rfl

/-- A sequence of two computations succeeds exactly when both do. -/
theorem result_bind_eq_ok_iff (x : Emit ω ε α) (f : α → Emit ω ε β) (b : β) :
    (x >>= f).result = .ok b ↔ ∃ a, x.result = .ok a ∧ (f a).result = .ok b := by
  rw [result_bind]
  cases x.result with
  | error e => simp [bind, Except.bind]
  | ok a => simp [bind, Except.bind]

theorem emitted_bind_of_ok {x : Emit ω ε α} {a : α} (h : x.result = .ok a)
    (f : α → Emit ω ε β) : (x >>= f).emitted = x.emitted ++ (f a).emitted := by
  show (andThen x f).emitted = _
  unfold andThen
  rw [h]

end Emit

end MiniScheme
