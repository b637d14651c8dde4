/-!
# Results and errors

When a chain of computations that may fail succeeds, and when it fails.
-/

namespace MiniScheme.Results

variable {ε α β : Type}

theorem map_eq_ok_iff {f : α → β} {x : Except ε α} {b : β} :
    x.map f = .ok b ↔ ∃ a, x = .ok a ∧ f a = b := by
  cases x with
  | error e => simp [Except.map]
  | ok a => simp [Except.map]

theorem map_eq_error_iff {f : α → β} {x : Except ε α} {e : ε} :
    x.map f = .error e ↔ x = .error e := by
  cases x with
  | error e => simp [Except.map]
  | ok a => simp [Except.map]

theorem bind_eq_ok_iff {f : α → Except ε β} {x : Except ε α} {b : β} :
    (x >>= f) = .ok b ↔ ∃ a, x = .ok a ∧ f a = .ok b := by
  cases x with
  | error e => simp [bind, Except.bind]
  | ok a => simp [bind, Except.bind]

theorem bind_eq_error_iff {f : α → Except ε β} {x : Except ε α} {e : ε} :
    (x >>= f) = .error e ↔ x = .error e ∨ ∃ a, x = .ok a ∧ f a = .error e := by
  cases x with
  | error e => simp [bind, Except.bind]
  | ok a => simp [bind, Except.bind]

/-- The first result is the second one or was cut off. -/
def CutOff (cut : ε) (x x' : Except ε α) : Prop :=
  x = .error cut ∨ x' = x

namespace CutOff

variable {cut : ε}

theorem refl (x : Except ε α) : CutOff cut x x :=
  .inr rfl

theorem bind {x x' : Except ε α} {f f' : α → Except ε β} (h : CutOff cut x x')
    (hf : ∀ a, CutOff cut (f a) (f' a)) : CutOff cut (x >>= f) (x' >>= f') := by
  rcases h with rfl | rfl
  · exact .inl rfl
  · cases x' with
    | error e => exact .refl _
    | ok a => exact hf a

end CutOff

/-- Every error that can come out is one of these. -/
def FailsIn (Q : ε → Prop) (x : Except ε α) : Prop :=
  ∀ e, x = .error e → Q e

namespace FailsIn

variable {Q : ε → Prop} {x : Except ε α}

theorem ok (a : α) : FailsIn Q (.ok a) :=
  nofun

theorem error {e : ε} (h : Q e) : FailsIn Q (.error e : Except ε α) := by
  intro e' he'
  injection he' with he'
  exact he' ▸ h

theorem bind {f : α → Except ε β} (hx : FailsIn Q x) (hf : ∀ a, x = .ok a → FailsIn Q (f a)) :
    FailsIn Q (x >>= f) := by
  intro e h
  rcases bind_eq_error_iff.1 h with h | ⟨a, ha, h⟩
  · exact hx e h
  · exact hf a ha e h

theorem map {f : α → β} (hx : FailsIn Q x) : FailsIn Q (x.map f) :=
  fun e h => hx e (map_eq_error_iff.1 h)

end FailsIn

/-- What comes out is one of these errors or one of these results. -/
def EndsIn (Q : ε → Prop) (P : α → Prop) (x : Except ε α) : Prop :=
  FailsIn Q x ∧ ∀ a, x = .ok a → P a

namespace EndsIn

variable {Q : ε → Prop} {P : α → Prop} {x : Except ε α}

theorem ok {a : α} (h : P a) : EndsIn Q P (.ok a) := by
  refine ⟨.ok a, fun b hb => ?_⟩
  injection hb with hb
  exact hb ▸ h

theorem error {e : ε} (h : Q e) : EndsIn Q P (.error e) :=
  ⟨.error h, nofun⟩

theorem bind {P' : β → Prop} {f : α → Except ε β} (hx : EndsIn Q P x)
    (hf : ∀ a, P a → EndsIn Q P' (f a)) : EndsIn Q P' (x >>= f) := by
  refine ⟨hx.1.bind fun a ha => (hf a (hx.2 a ha)).1, fun b hb => ?_⟩
  obtain ⟨a, ha, hb⟩ := bind_eq_ok_iff.1 hb
  exact (hf a (hx.2 a ha)).2 b hb

theorem map {P' : β → Prop} {f : α → β} (hx : EndsIn Q P x) (hf : ∀ a, P a → P' (f a)) :
    EndsIn Q P' (x.map f) := by
  refine ⟨hx.1.map, fun b hb => ?_⟩
  obtain ⟨a, ha, rfl⟩ := map_eq_ok_iff.1 hb
  exact hf a (hx.2 a ha)

end EndsIn

end MiniScheme.Results
