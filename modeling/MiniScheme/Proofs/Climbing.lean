import MiniScheme.Proofs.Execution

/-!
# How high the stack gets

Along some instructions, the stack gets a number of cells higher than it is at first. The number
is exact: the stack gets so high and no higher.
-/

namespace MiniScheme.Program

variable {p : Program} {c d e : Config} {h h' k j l : Nat}

/-- Some instructions lead from a configuration to another, and the stack stays within a bound. -/
def ReachesBelow (p : Program) (h : Nat) : Config → Config → Prop :=
  Relation.ReflTransGen fun c d => p.Moves c d ∧ d.cells.length ≤ h

theorem ReachesBelow.mono (hreach : p.ReachesBelow h c d) (hle : h ≤ h') :
    p.ReachesBelow h' c d :=
  Relation.ReflTransGen.mono (fun _ _ hmove => ⟨hmove.1, Nat.le_trans hmove.2 hle⟩) _ _ hreach

theorem ReachesBelow.reaches (hreach : p.ReachesBelow h c d) : p.Reaches c d :=
  Relation.ReflTransGen.mono (fun _ _ hmove => hmove.1) _ _ hreach

/-- Some instructions lead from a configuration to another, and on the way the stack gets `k` cells
higher than it is at first. -/
structure Climbs (p : Program) (k : Nat) (c d : Config) : Prop where
  below : p.ReachesBelow (c.cells.length + k) c d
  peak : ∃ b, p.Reaches c b ∧ p.Reaches b d ∧ c.cells.length + k ≤ b.cells.length

theorem Climbs.reaches (hclimb : p.Climbs k c d) : p.Reaches c d :=
  hclimb.below.reaches

theorem climbs_refl (c : Config) : p.Climbs 0 c c :=
  ⟨.refl, c, .refl, .refl, Nat.le_refl _⟩

theorem climbs_of_moves (hmove : p.Moves c d)
    (hk : max c.cells.length d.cells.length = c.cells.length + k) : p.Climbs k c d := by
  refine ⟨.single ⟨hmove, by omega⟩, ?_⟩
  by_cases hle : d.cells.length ≤ c.cells.length
  · exact ⟨c, .refl, .single hmove, by omega⟩
  · exact ⟨d, .single hmove, .refl, by omega⟩

theorem climbs_zero_of_moves (hmove : p.Moves c d) (hle : d.cells.length ≤ c.cells.length) :
    p.Climbs 0 c d :=
  climbs_of_moves hmove (Nat.max_eq_left hle)

theorem Climbs.trans (hclimb : p.Climbs k c d) (hclimb' : p.Climbs j d e)
    (hl : max (c.cells.length + k) (d.cells.length + j) = c.cells.length + l) :
    p.Climbs l c e := by
  refine ⟨(hclimb.below.mono (by omega)).trans (hclimb'.below.mono (by omega)), ?_⟩
  by_cases hle : d.cells.length + j ≤ c.cells.length + k
  · obtain ⟨b, hreach, hreach', hpeak⟩ := hclimb.peak
    exact ⟨b, hreach, hreach'.trans hclimb'.reaches, by omega⟩
  · obtain ⟨b, hreach, hreach', hpeak⟩ := hclimb'.peak
    exact ⟨b, hclimb.reaches.trans hreach, hreach', by omega⟩

/-- Nothing is added by a climb that stays within the height reached before. -/
theorem Climbs.level (hclimb : p.Climbs k c d) (hclimb' : p.Climbs 0 d e)
    (hle : d.cells.length ≤ c.cells.length + k) : p.Climbs k c e :=
  hclimb.trans hclimb' (by omega)

end MiniScheme.Program
