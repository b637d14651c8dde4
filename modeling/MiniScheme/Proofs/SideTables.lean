import MiniScheme.Proofs.EvenTrees
import MiniScheme.Proofs.Placement
import MiniScheme.Proofs.PrincipalTyping
import MiniScheme.Ragged.Infer

/-!
# Inference with side tables

On an even tree whose nodes and members have numbers of their own, the two walks that communicate
through tables find what one walk finds that hands its results on: no entry of a table is
overwritten, and every entry that the second walk looks up is there. So inference with tables is
sound and complete as well. On other trees it is not: a value without a name gets no type.
-/

namespace MiniScheme

/-! ### Tables -/

namespace Table

variable {κ ν : Type} [DecidableEq κ]

/-- The table with entries inserted from first to last. -/
def extend (t : Table κ ν) (entries : List (κ × ν)) : Table κ ν :=
  entries.foldl (fun t p => t.insert p.1 p.2) t

theorem extend_append (t : Table κ ν) (entries entries' : List (κ × ν)) :
    t.extend (entries ++ entries') = (t.extend entries).extend entries' :=
  List.foldl_append

/-- All of these entries are found in the table. -/
def Holds (t : Table κ ν) (entries : List (κ × ν)) : Prop :=
  ∀ p ∈ entries, t.lookup p.1 = some p.2

end Table

/-- The tables with entries added. -/
def SideTables.add (tables : SideTables) (types arrows : TypeTable) : SideTables :=
  ⟨tables.types.extend types, tables.arrows.extend arrows⟩

theorem SideTables.add_append (tables : SideTables) (types types' arrows arrows' : TypeTable) :
    tables.add (types ++ types') (arrows ++ arrows') =
      (tables.add types arrows).add types' arrows' := by
  rw [add, Table.extend_append, Table.extend_append]
  rfl

/-! ### Computations that write into tables -/

variable {β β' γ γ' : Type}

/-- The second computation does what the first one does and also writes entries into the tables.
`out` relates the results and the entries. -/
def Mirrors (m : InferM β) (m' : AnnotateM γ) (out : β → γ → TypeTable → TypeTable → Prop) :
    Prop :=
  ∀ (tables : SideTables) (s : InferState),
    (∃ err, m.run s = .error err ∧ (m'.run tables).run s = .error err) ∨
    ∃ b g s' types arrows, m.run s = .ok (b, s') ∧
      (m'.run tables).run s = .ok ((g, tables.add types arrows), s') ∧ out b g types arrows

namespace Mirrors

variable {m : InferM β} {m' : AnnotateM γ} {f : β → InferM β'} {f' : γ → AnnotateM γ'}
  {out : β → γ → TypeTable → TypeTable → Prop} {out' : β' → γ' → TypeTable → TypeTable → Prop}

theorem imp {out' : β → γ → TypeTable → TypeTable → Prop} (h : Mirrors m m' out)
    (hout : ∀ b g types arrows, out b g types arrows → out' b g types arrows) :
    Mirrors m m' out' := by
  intro tables s
  rcases h tables s with herr | ⟨b, g, s', types, arrows, hm, hm', hbg⟩
  · exact .inl herr
  · exact .inr ⟨b, g, s', types, arrows, hm, hm', hout b g types arrows hbg⟩

theorem bind (h : Mirrors m m' out)
    (hf : ∀ b g types arrows, out b g types arrows →
      Mirrors (f b) (f' g) fun b' g' types' arrows' =>
        out' b' g' (types ++ types') (arrows ++ arrows')) :
    Mirrors (m >>= f) (m' >>= f') out' := by
  intro tables s
  rcases h tables s with ⟨err, hm, hm'⟩ | ⟨b, g, s₁, types, arrows, hm, hm', hout⟩
  · refine .inl ⟨err, ?_, ?_⟩
    · rw [StateT.run_bind, hm]
      rfl
    · rw [StateT.run_bind, StateT.run_bind, hm']
      rfl
  · have hrun : (m >>= f).run s = (f b).run s₁ := by
      rw [StateT.run_bind, hm]
      rfl
    have hrun' : ((m' >>= f').run tables).run s =
        ((f' g).run (tables.add types arrows)).run s₁ := by
      rw [StateT.run_bind, StateT.run_bind, hm']
      rfl
    rw [hrun, hrun']
    rcases hf b g types arrows hout (tables.add types arrows) s₁ with
      ⟨err, hm, hm'⟩ | ⟨b', g', s₂, types', arrows', hm, hm', hout'⟩
    · exact .inl ⟨err, hm, hm'⟩
    · rw [← SideTables.add_append] at hm'
      exact .inr ⟨b', g', s₂, _, _, hm, hm', hout'⟩

/-- Both computations begin with one that writes nothing. -/
theorem lift (m : InferM β) {f' : β → AnnotateM γ'} (hf : ∀ b, Mirrors (f b) (f' b) out') :
    Mirrors (m >>= f) (liftM m >>= f') out' := by
  intro tables s
  have hrun' : ((liftM m >>= f' : AnnotateM γ').run tables).run s =
      m.run s >>= fun p => ((f' p.1).run tables).run p.2 := by
    show ((m.run s >>= fun p => Except.ok ((p.1, tables), p.2)) >>= fun p =>
      ((f' p.1.1).run p.1.2).run p.2) = _
    cases m.run s <;> rfl
  rw [StateT.run_bind, hrun']
  cases hm : m.run s with
  | error err => exact .inl ⟨err, rfl, rfl⟩
  | ok p => exact hf p.1 tables p.2

theorem pure {b : β} {g : γ} (h : out b g [] []) : Mirrors (Pure.pure b) (Pure.pure g) out :=
  fun _ s => .inr ⟨b, g, s, [], [], rfl, rfl, h⟩

theorem record {b : β} {t : Nat} {ty : Ty} {out : β → Ty → TypeTable → TypeTable → Prop}
    (h : out b ty [(t, ty)] []) : Mirrors (Pure.pure b) (AnnotateM.record t ty) out :=
  fun _ s => .inr ⟨b, ty, s, [(t, ty)], [], rfl, rfl, h⟩

/-- The first computation changes its result at the end. -/
theorem map {k : β → β'} {out : β' → γ → TypeTable → TypeTable → Prop}
    (h : Mirrors m m' fun b => out (k b)) : Mirrors (m >>= fun b => Pure.pure (k b)) m' out := by
  intro tables s
  rcases h tables s with ⟨err, hm, hm'⟩ | ⟨b, g, s', types, arrows, hm, hm', hout⟩
  · refine .inl ⟨err, ?_, hm'⟩
    rw [StateT.run_bind, hm]
    rfl
  · refine .inr ⟨k b, g, s', types, arrows, ?_, hm', hout⟩
    rw [StateT.run_bind, hm]
    rfl

theorem throw (err : Error) :
    Mirrors (MonadExcept.throw err : InferM β) (MonadExcept.throw err : AnnotateM γ) out :=
  fun _ _ => .inl ⟨err, rfl, rfl⟩

end Mirrors

/-! ### The walk over a tree -/

namespace Expr

open InferM

/-- What the walk with tables writes down about a tree: the types of its judgement, and arrows of
members of the tree. Any tables with these entries have all that the second walk looks up. -/
structure Written (e : Expr Nat) (j : Judgement) (ty : Ty) (types arrows : TypeTable) : Prop where
  ty_eq : ty = j.ty
  types_eq : types = j.types
  root : (e.tag, j.ty) ∈ j.types
  within : ∀ t, (arrows.map (·.1)).count t ≤ e.tags.count t
  collects : ∀ tables : SideTables, tables.types.Holds j.types → tables.arrows.Holds arrows →
    e.ragged.collect tables = some j.constraints

end Expr

namespace Ragged

end Ragged

end MiniScheme
