import MiniScheme.Code.Program
import MiniScheme.Proofs.Results

/-!
# Resolved labels

Linking lays out the sections of an assembly, its main block and then its other blocks, one after
the other and puts the address of a block in place of its label. It fails only at a label without a
block. A section keeps its instructions and their distances, so a branch inside of it still leads
to the same instruction.
-/

namespace MiniScheme

/-! ### Instructions with other addresses -/

namespace Inst

variable {ρ σ ε : Type}

/-- The same instruction with another address, if it names one. -/
def map (f : ρ → σ) : Inst ρ → Inst σ
  | refRec a => refRec (f a)
  | close n a => close n (f a)
  | halt => halt
  | const v => const v
  | refGlobal n => refGlobal n
  | refLocal n => refLocal n
  | refTemp n => refTemp n
  | refFree n => refFree n
  | test n => test n
  | jump n => jump n
  | frame n => frame n
  | push => push
  | apply => apply
  | shift n m => shift n m
  | pop n => pop n
  | ret n => ret n

theorem branchOffset?_map (f : ρ → σ) (i : Inst ρ) : (i.map f).branchOffset? = i.branchOffset? := by
  cases i <;> rfl

theorem mapAddress_eq_ok {g : ρ → Except ε σ} {f : ρ → σ} {i : Inst ρ}
    (h : ∀ a, i.address? = some a → g a = .ok (f a)) : i.mapAddress g = .ok (i.map f) := by
  cases i with
  | refRec a => simp only [mapAddress, map, h a rfl, Except.map]
  | close n a => simp only [mapAddress, map, h a rfl, Except.map]
  | _ => rfl

theorem mapAddress_eq_error {g : ρ → Except ε σ} {i : Inst ρ} {a : ρ} {err : ε}
    (ha : i.address? = some a) (h : g a = .error err) : i.mapAddress g = .error err := by
  cases i with
  | refRec a' =>
    cases ha
    simp only [mapAddress, h, Except.map]
  | close n a' =>
    cases ha
    simp only [mapAddress, h, Except.map]
  | _ => cases ha

end Inst

/-! ### Labels with and without addresses -/

/-- Labels that code refers to. -/
def Code.labels (code : Code) : List Label :=
  code.filterMap Inst.address?

/-- The address that a label has in a table, zero if it has none. -/
def Table.address (entries : Table Label Nat) (l : Label) : Nat :=
  (entries.lookup l).getD 0

section

variable {entries : Table Label Nat} {l : Label}

theorem addressOf_of_mem (h : l ∈ entries.map (·.1)) :
    addressOf entries l = .ok (entries.address l) := by
  unfold addressOf Table.address
  cases hlookup : entries.lookup l with
  | some a => rfl
  | none =>
    obtain ⟨entry, hmem, rfl⟩ := List.mem_map.1 h
    have hne := List.lookup_eq_none_iff.1 hlookup entry hmem
    simp at hne

theorem addressOf_of_notMem (h : l ∉ entries.map (·.1)) :
    addressOf entries l = .error (.unresolvedLabel l) := by
  have hlookup : entries.lookup l = none := by
    refine List.lookup_eq_none_iff.2 fun entry hmem => bne_iff_ne.2 ?_
    rintro rfl
    exact h (List.mem_map_of_mem hmem)
  simp only [addressOf, hlookup]

theorem linkCode_cons {i : Inst Label} (code : Code)
    (h : ∀ l, i.address? = some l → l ∈ entries.map (·.1)) :
    linkCode entries (i :: code) = (linkCode entries code).map (i.map entries.address :: ·) := by
  have hinst : i.mapAddress (addressOf entries) = .ok (i.map entries.address) :=
    Inst.mapAddress_eq_ok fun l hl => addressOf_of_mem (h l hl)
  simp only [linkCode, hinst]
  rfl

theorem linkCode_of_defined {code : Code} (h : ∀ l ∈ code.labels, l ∈ entries.map (·.1)) :
    linkCode entries code = .ok (code.map (Inst.map entries.address)) := by
  induction code with
  | nil => rfl
  | cons i code ih =>
    have hi : ∀ l, i.address? = some l → l ∈ entries.map (·.1) := fun l hl =>
      h l (List.mem_filterMap.2 ⟨i, List.mem_cons_self .., hl⟩)
    have hcode : ∀ l ∈ Code.labels code, l ∈ entries.map (·.1) := by
      intro l hl
      obtain ⟨j, hj, hjl⟩ := List.mem_filterMap.1 hl
      exact h l (List.mem_filterMap.2 ⟨j, List.mem_cons_of_mem i hj, hjl⟩)
    rw [linkCode_cons code hi, ih hcode]
    rfl

/-- Linking stops at the first label without an address. -/
theorem linkCode_of_undefined {code : Code}
    (h : code.labels.find? (· ∉ entries.map (·.1)) = some l) :
    linkCode entries code = .error (.unresolvedLabel l) := by
  induction code with
  | nil => cases h
  | cons i code ih =>
    cases hi : i.address? with
    | none =>
      rw [Code.labels, List.filterMap_cons_none hi] at h
      rw [linkCode_cons code (by simp [hi]), ih h]
      rfl
    | some l' =>
      rw [Code.labels, List.filterMap_cons_some hi, List.find?_cons] at h
      by_cases hmem : l' ∈ entries.map (·.1)
      · simp only [hmem, not_true_eq_false, decide_false] at h
        rw [linkCode_cons code (by simpa [hi] using hmem), ih h]
        rfl
      · simp only [hmem, not_false_eq_true, decide_true, Option.some.injEq] at h
        have hinst := Inst.mapAddress_eq_error hi (addressOf_of_notMem hmem)
        simp only [linkCode, hinst, h]
        rfl

end

theorem map_fst_placeBlocks (start : Nat) (blocks : Table Label Code) :
    (placeBlocks start blocks).map (·.1) = blocks.map (·.1) := by
  induction blocks generalizing start with
  | nil => rfl
  | cons b blocks ih => simp only [placeBlocks, List.map_cons, ih]

theorem getElem?_placeBlocks {start k : Nat} {blocks : Table Label Code} {l : Label} {code : Code}
    (h : blocks[k]? = some (l, code)) :
    (placeBlocks start blocks)[k]? =
      some (l, start + ((blocks.take k).flatMap (·.2)).length) := by
  induction blocks generalizing start k with
  | nil => cases h
  | cons b blocks ih =>
    cases k with
    | zero =>
      cases h
      rfl
    | succ k =>
      have hrest := @ih (start + b.2.length) k h
      simp only [placeBlocks, List.getElem?_cons_succ, hrest, List.take_succ_cons,
        List.flatMap_cons, List.length_append, Nat.add_assoc]

namespace Assembly

theorem map_fst_entries (a : Assembly) : a.entries.map (·.1) = a.blocks.map (·.1) :=
  map_fst_placeBlocks _ _

/-- The first label, in the order of the code, that has no block. -/
def undefined? (a : Assembly) : Option Label :=
  a.flatten.labels.find? (· ∉ a.blocks.map (·.1))

theorem undefined?_eq_none_iff {a : Assembly} :
    a.undefined? = none ↔ ∀ l ∈ a.flatten.labels, l ∈ a.blocks.map (·.1) := by
  simp [undefined?]

theorem link_of_defined {a : Assembly} (h : a.undefined? = none) :
    a.link = .ok ⟨(a.flatten.map (Inst.map a.entries.address)).toArray, a.entries⟩ := by
  rw [undefined?_eq_none_iff, ← map_fst_entries] at h
  simp only [link, linkCode_of_defined h]
  rfl

theorem link_of_undefined {a : Assembly} {l : Label} (h : a.undefined? = some l) :
    a.link = .error (.unresolvedLabel l) := by
  rw [undefined?, ← map_fst_entries] at h
  simp only [link, linkCode_of_undefined h]
  rfl

/-! ### Places of sections -/

/-- The main block and the other blocks in their order. -/
def sections (a : Assembly) : List Code :=
  a.main :: a.blocks.map (·.2)

/-- The address of a section: the sections before it stand in front of it. -/
def start (a : Assembly) (k : Nat) : Nat :=
  (a.sections.take k).flatten.length

theorem flatten_eq_sections (a : Assembly) : a.flatten = a.sections.flatten :=
  rfl

theorem start_succ (a : Assembly) (k : Nat) :
    a.start (k + 1) = a.main.length + ((a.blocks.take k).flatMap (·.2)).length := by
  rw [start, sections, List.take_succ_cons, List.flatten_cons, List.length_append, ← List.map_take,
    List.flatMap_def]

theorem getElem?_flatten {a : Assembly} {k i : Nat} {code : Code} (hk : a.sections[k]? = some code)
    (hi : i < code.length) : a.flatten[a.start k + i]? = code[i]? := by
  obtain ⟨hlt, hcode⟩ := List.getElem?_eq_some_iff.1 hk
  have hsplit : a.sections = a.sections.take k ++ code :: a.sections.drop (k + 1) := by
    rw [← hcode, List.getElem_cons_drop, List.take_append_drop]
  have hbefore : (a.sections.take k).flatten.length = a.start k := rfl
  rw [flatten_eq_sections, hsplit, List.flatten_append, List.flatten_cons,
    List.getElem?_append_right (by omega), hbefore, Nat.add_sub_cancel_left,
    List.getElem?_append_left hi]

/-- In a table without repeated labels every block has the address of its section. -/
theorem lookup_entries {a : Assembly} (hkeys : (a.blocks.map (·.1)).Nodup) {k : Nat} {l : Label}
    {code : Code} (h : a.blocks[k]? = some (l, code)) :
    a.entries.lookup l = some (a.start (k + 1)) := by
  have hplace : a.entries[k]? = some (l, a.start (k + 1)) := by
    rw [start_succ]
    exact getElem?_placeBlocks h
  rw [← map_fst_entries] at hkeys
  exact Table.lookup_of_mem hkeys (List.mem_of_getElem? hplace)

end Assembly

/-! ### Linked programs -/

/-- The program is the assembly with its sections one after the other and its labels resolved. -/
structure Program.LaysOut (p : Program) (a : Assembly) : Prop where
  code_eq : p.code.toList = a.sections.flatten.map (Inst.map p.entries.address)
  labels_eq : p.entries.map (·.1) = a.blocks.map (·.1)
  /-- The address of a label is where its block starts. -/
  entry_eq : ∀ k l code, a.blocks[k]? = some (l, code) →
    p.entries.lookup l = some (a.start (k + 1))
  /-- Every instruction has its place in its section, and only its label has changed. -/
  inst_eq : ∀ k code i inst, a.sections[k]? = some code → code[i]? = some inst →
    p.code[a.start k + i]? = some (inst.map p.entries.address)
  /-- A branch that stays in its section has its distance and leads to the same instruction. -/
  branch_eq : ∀ k code i inst n, a.sections[k]? = some code → code[i]? = some inst →
    inst.branchOffset? = some n → i + n < code.length →
    ∃ inst' target, p.code[a.start k + i]? = some inst' ∧ inst'.branchOffset? = some n ∧
      code[i + n]? = some target ∧
      p.code[a.start k + i + n]? = some (target.map p.entries.address)

namespace Assembly

theorem laysOut_of_link {a : Assembly} (hkeys : (a.blocks.map (·.1)).Nodup) {p : Program}
    (h : a.link = .ok p) : p.LaysOut a := by
  cases hdefined : a.undefined? with
  | some l =>
    rw [link_of_undefined hdefined] at h
    cases h
  | none =>
    rw [link_of_defined hdefined] at h
    cases h
    have hinst : ∀ k code i inst, a.sections[k]? = some code → code[i]? = some inst →
        (a.flatten.map (Inst.map a.entries.address)).toArray[a.start k + i]? =
          some (inst.map a.entries.address) := by
      intro k code i inst hk hi
      have hlt := (List.getElem?_eq_some_iff.1 hi).1
      rw [List.getElem?_toArray, List.getElem?_map, getElem?_flatten hk hlt, hi]
      rfl
    refine ⟨rfl, map_fst_entries a, fun k l code hk => lookup_entries hkeys hk, hinst, ?_⟩
    intro k code i inst n hk hi hn hlt
    refine ⟨inst.map a.entries.address, code.get ⟨i + n, hlt⟩, hinst k code i inst hk hi, ?_,
      List.getElem?_eq_getElem hlt, ?_⟩
    · rw [Inst.branchOffset?_map, hn]
    · rw [Nat.add_assoc]
      exact hinst k code (i + n) _ hk (List.getElem?_eq_getElem hlt)

/-- Linking succeeds exactly if every label that the code mentions has a block, and otherwise fails
with the first one that has none. A linked program is the sections of the assembly in their order:
each label has the address where its block starts, each instruction is at its place in its section
with only its label replaced, and branches inside a section lead where they led. -/
theorem link_lays_out (a : Assembly) (hkeys : (a.blocks.map (·.1)).Nodup) :
    ((∃ p, a.link = .ok p) ↔ ∀ l ∈ a.flatten.labels, l ∈ a.blocks.map (·.1)) ∧
      (∀ err, a.link = .error err ↔ ∃ l, a.undefined? = some l ∧ err = .unresolvedLabel l) ∧
      ∀ p, a.link = .ok p → p.LaysOut a := by
  refine ⟨?_, ?_, fun p => laysOut_of_link hkeys⟩
  · rw [← undefined?_eq_none_iff]
    cases hdefined : a.undefined? with
    | none => simp [link_of_defined hdefined]
    | some l => simp [link_of_undefined hdefined]
  · intro err
    cases hdefined : a.undefined? with
    | none => simp [link_of_defined hdefined]
    | some l => simp [link_of_undefined hdefined, eq_comm]

/-- Blocks that refer forwards, backwards and to themselves, with an empty block between them. -/
def knotted : Assembly :=
  ⟨[.close 0 ⟨2⟩, .jump 1, .halt],
    [(⟨9⟩, [.refRec ⟨2⟩, .ret 0]), (⟨5⟩, []), (⟨2⟩, [.test 2, .refRec ⟨9⟩, .close 1 ⟨2⟩, .ret 1])]⟩

theorem link_knotted : (knotted.blocks.map (·.1)).Nodup ∧
    ∃ p, knotted.link = .ok p ∧ p.LaysOut knotted ∧
      p.entries = [(⟨9⟩, 3), (⟨5⟩, 5), (⟨2⟩, 5)] := by
  have hkeys : (knotted.blocks.map (·.1)).Nodup := by decide
  obtain ⟨hok, _, hlays⟩ := link_lays_out knotted hkeys
  obtain ⟨p, hp⟩ := hok.2 (by decide)
  exact ⟨hkeys, p, hp, hlays p hp, by cases hp; rfl⟩

end Assembly

end MiniScheme
