/-!
# Tables in insertion order

A table lists its keys with their values in the order in which the keys were first inserted.
Inserting a key again replaces its value and keeps its place.
-/

namespace MiniScheme

/-- Keys with their values in insertion order. -/
abbrev Table (κ ν : Type) := List (κ × ν)

namespace Table

variable {κ ν : Type} [DecidableEq κ]

/-- Inserts a key with its value. -/
def insert : Table κ ν → κ → ν → Table κ ν
  | [], k, v => [(k, v)]
  | (k', v') :: t, k, v => if k' = k then (k, v) :: t else (k', v') :: insert t k v

/-- The table of a list of pairs, inserted from first to last. -/
def ofPairs (pairs : List (κ × ν)) : Table κ ν :=
  pairs.foldl (fun t p => t.insert p.1 p.2) []

theorem lookup_insert (t : Table κ ν) (k k' : κ) (v : ν) :
    (t.insert k v).lookup k' = if k' = k then some v else t.lookup k' := by
  induction t with
  | nil =>
    by_cases h : k' = k
    · simp [insert, h]
    · simp [insert, List.lookup_cons, h, beq_false_of_ne h]
  | cons p t ih =>
    obtain ⟨k₀, v₀⟩ := p
    by_cases h₀ : k₀ = k
    · subst h₀
      by_cases h : k' = k₀
      · simp [insert, h]
      · simp [insert, List.lookup_cons, h, beq_false_of_ne h]
    · by_cases h : k' = k₀
      · subst h
        simp [insert, h₀]
      · simp only [insert, if_neg h₀, List.lookup_cons, beq_false_of_ne h, ih]

/-- In a table without repeated keys every entry is found. -/
theorem lookup_of_mem {t : Table κ ν} (hkeys : (t.map (·.1)).Nodup) {k : κ} {v : ν}
    (h : (k, v) ∈ t) : t.lookup k = some v := by
  induction t with
  | nil => exact absurd h List.not_mem_nil
  | cons p t ih =>
    rw [List.map_cons, List.nodup_cons] at hkeys
    rcases List.mem_cons.1 h with rfl | h
    · simp
    · have hne : k ≠ p.1 := by
        rintro rfl
        exact hkeys.1 (List.mem_map.2 ⟨(p.1, v), h, rfl⟩)
      rw [List.lookup_cons, beq_false_of_ne hne]
      exact ih hkeys.2 h

end Table

end MiniScheme
