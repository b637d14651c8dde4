import Mathlib.Data.List.Basic
import MiniScheme.Datum

/-!
# Parsing tokens

The tokens that spell a datum are parsed back to it, in any open list that leaves room for its
nesting, and no datum that is parsed nests deeper than the limit.
-/

namespace MiniScheme.Datum

/-- Lists nest at most this deep in the datum. -/
def NestedWithin : Nat → Datum → Prop
  | _, atom _ _ => True
  | 0, list _ _ => False
  | n + 1, list items _ => ∀ d ∈ items, NestedWithin n d

theorem nestedWithin_atom (n : Nat) (a : Atom) (o : Nat) : NestedWithin n (atom a o) := by
  cases n <;> trivial

theorem NestedWithin.succ {n : Nat} {d : Datum} (h : d.NestedWithin n) :
    d.NestedWithin (n + 1) := by
  induction n generalizing d with
  | zero =>
    cases d with
    | atom a o => trivial
    | list items o => cases h
  | succ n ih =>
    cases d with
    | atom a o => trivial
    | list items o => exact fun d hd => ih (h d hd)

theorem NestedWithin.item {n o : Nat} {items : List Datum} (h : (list items o).NestedWithin n)
    {d : Datum} (hd : d ∈ items) : d.NestedWithin n := by
  cases n with
  | zero => cases h
  | succ n => exact (h d hd).succ

/-! ### Nesting of what is parsed -/

/-- The items of all open lists leave room for the lists around them. -/
def Fits : List OpenList → Prop
  | [] => True
  | l :: ls => (∀ d ∈ l.items, d.NestedWithin (maxNesting - (ls.length + 1))) ∧
      ls.length + 1 ≤ maxNesting ∧ Fits ls

theorem Fits.add {l : OpenList} {ls : List OpenList} (h : Fits (l :: ls)) {d : Datum}
    (hd : d.NestedWithin (maxNesting - (ls.length + 1))) : Fits (l.add d :: ls) :=
  ⟨List.forall_mem_cons.2 ⟨hd, h.1⟩, h.2⟩

theorem Fits.close {l : OpenList} {ls : List OpenList} (h : Fits (l :: ls)) :
    l.close.NestedWithin (maxNesting - ls.length) := by
  obtain ⟨hitems, hroom, _⟩ := h
  have hlevel : maxNesting - ls.length = maxNesting - (ls.length + 1) + 1 := by omega
  rw [hlevel]
  exact fun d hd => hitems d (List.mem_reverse.1 hd)

/-- The counter is the number of open lists. So it keeps what is parsed within the limit, and it is
back at zero at the end. -/
theorem nestedWithin_of_parse {fileEnd depth depth' : Nat} {opened : List OpenList}
    {ts rest : List Located} {d : Datum} (h : parse fileEnd depth opened ts = .ok (d, rest, depth'))
    (hdepth : depth = opened.length) (hfits : Fits opened) :
    d.NestedWithin maxNesting ∧ depth' = 0 := by
  fun_induction parse fileEnd depth opened ts with
  | case1 => cases h
  | case2 => cases h
  | case3 depth a o ts =>
    cases h
    exact ⟨nestedWithin_atom _ _ _, hdepth⟩
  | case4 depth l ls a o ts ih => exact ih h hdepth (hfits.add (nestedWithin_atom _ _ _))
  | case5 => cases h
  | case6 depth l o ts =>
    cases h
    exact ⟨hfits.close, by rw [hdepth]; rfl⟩
  | case7 depth l l' ls o ts ih =>
    exact ih h (by rw [hdepth]; rfl) (hfits.2.2.add hfits.close)
  | case8 => cases h
  | case9 depth ls o ts hroom ih =>
    have hle : ls.length ≤ maxNesting := by
      cases ls with
      | nil => exact Nat.zero_le _
      | cons l ls => exact hfits.2.1
    exact ih h (congrArg Nat.succ hdepth) ⟨nofun, by omega, hfits⟩

theorem nestedWithin_of_ofText {source : String} {d : Datum} (h : ofText source = .ok d) :
    d.NestedWithin maxNesting := by
  unfold ofText at h
  cases hts : Token.ofText source with
  | error err => simp [hts, bind, Except.bind] at h
  | ok ts =>
    cases hparse : parse source.utf8ByteSize 0 [] ts with
    | error err => simp [hts, hparse, bind, Except.bind] at h
    | ok r =>
      obtain ⟨d', rest, depth⟩ := r
      cases rest with
      | nil =>
        simp only [hts, hparse, bind, Except.bind, pure, Except.pure, Except.ok.injEq] at h
        exact h ▸ (nestedWithin_of_parse hparse rfl trivial).1
      | cons t rest => simp [hts, hparse, bind, Except.bind, throw, throwThe,
          MonadExceptOf.throw] at h

/-! ### Spelling -/

/-- A datum is spelled by its tokens: an atom by one token, a list by its items between
brackets. -/
inductive Spells : Datum → List Located → Prop
  | atom (a : Atom) (o : Nat) : Spells (atom a o) [⟨.atom a, o⟩]
  | list (parts : List (Datum × List Located)) (o o' : Nat)
      (h : ∀ p ∈ parts, Spells p.1 p.2) :
      Spells (list (parts.map (·.1)) o)
        (⟨.opening, o⟩ :: (parts.flatMap (·.2) ++ [⟨.closing, o'⟩]))

variable {fileEnd depth : Nat} {opened : List OpenList} {rest : List Located}

/-- What is done with a datum that has been read. -/
def resume (fileEnd depth : Nat) : List OpenList → Datum → List Located →
    Except Error (Datum × List Located × Nat)
  | [], d, rest => .ok (d, rest, depth)
  | l :: ls, d, rest => parse fileEnd depth (l.add d :: ls) rest

theorem parse_atom (a : Atom) (o : Nat) :
    parse fileEnd depth opened (⟨.atom a, o⟩ :: rest) =
      resume fileEnd depth opened (atom a o) rest := by
  cases opened <;> simp only [parse, resume]

theorem parse_opening {o : Nat} (h : depth ≠ maxNesting) :
    parse fileEnd depth opened (⟨.opening, o⟩ :: rest) =
      parse fileEnd (depth + 1) (⟨o, []⟩ :: opened) rest := by
  rw [parse, if_neg h]

theorem parse_closing {l : OpenList} {o : Nat} :
    parse fileEnd (depth + 1) (l :: opened) (⟨.closing, o⟩ :: rest) =
      resume fileEnd depth opened l.close rest := by
  cases opened <;> simp only [parse, resume, Nat.add_sub_cancel]

theorem parse_items {parts : List (Datum × List Located)} {o : Nat} {done : List Datum}
    (h : ∀ p ∈ parts, ∀ (l : OpenList) (rest : List Located),
      parse fileEnd depth (l :: opened) (p.2 ++ rest) =
        parse fileEnd depth (l.add p.1 :: opened) rest) :
    parse fileEnd depth (⟨o, done⟩ :: opened) (parts.flatMap (·.2) ++ rest) =
      parse fileEnd depth (⟨o, (parts.map (·.1)).reverse ++ done⟩ :: opened) rest := by
  induction parts generalizing done with
  | nil => rfl
  | cons p parts ih =>
    obtain ⟨hp, hparts⟩ := List.forall_mem_cons.1 h
    rw [List.flatMap_cons, List.append_assoc, hp]
    show parse fileEnd depth (⟨o, p.1 :: done⟩ :: opened) _ = _
    rw [ih hparts, List.map_cons, List.reverse_cons, List.append_assoc]
    rfl

theorem parse_spells {d : Datum} {ts : List Located} (h : Spells d ts)
    (hroom : depth ≤ maxNesting) (hnest : d.NestedWithin (maxNesting - depth)) :
    parse fileEnd depth opened (ts ++ rest) = resume fileEnd depth opened d rest := by
  induction h generalizing depth opened rest with
  | atom a o => exact parse_atom a o
  | list parts o o' _ ih =>
    obtain ⟨n, hn⟩ : ∃ n, maxNesting - depth = n + 1 := by
      cases hlevel : maxNesting - depth with
      | zero => rw [hlevel] at hnest; cases hnest
      | succ n => exact ⟨n, rfl⟩
    rw [hn] at hnest
    have hitems : ∀ p ∈ parts, ∀ (l : OpenList) (rest : List Located),
        parse fileEnd (depth + 1) (l :: opened) (p.2 ++ rest) =
          parse fileEnd (depth + 1) (l.add p.1 :: opened) rest := by
      intro p hp l rest
      have hlevel : maxNesting - (depth + 1) = n := by omega
      exact ih p hp (by omega) (hlevel ▸ hnest p.1 (List.mem_map_of_mem hp))
    rw [List.cons_append, List.append_assoc, parse_opening (by omega), parse_items hitems,
      List.append_nil, List.singleton_append, parse_closing, OpenList.close, List.reverse_reverse]

/-! ### Nesting of tokens -/

/-- The deepest level of lists reached by tokens that start at a level. -/
def tokenDepth : (level : Nat) → List Token → Nat
  | level, [] => level
  | level, .opening :: ts => tokenDepth (level + 1) ts
  | level, .closing :: ts => max level (tokenDepth (level - 1) ts)
  | level, .atom _ :: ts => tokenDepth level ts

theorem nestedWithin_of_tokenDepth {d : Datum} {ts : List Located} (h : Spells d ts)
    {level limit : Nat} {rest : List Token}
    (hdepth : tokenDepth level (ts.map (·.token) ++ rest) ≤ limit) :
    d.NestedWithin (limit - level) ∧ tokenDepth level rest ≤ limit := by
  induction h generalizing level rest with
  | atom a o => exact ⟨nestedWithin_atom _ _ _, hdepth⟩
  | list parts o o' _ ih =>
    have hitems : ∀ (ps : List (Datum × List Located)), (∀ p ∈ ps, p ∈ parts) →
        ∀ rest, tokenDepth (level + 1) ((ps.flatMap (·.2)).map (·.token) ++ rest) ≤ limit →
        (∀ p ∈ ps, p.1.NestedWithin (limit - (level + 1))) ∧
          tokenDepth (level + 1) rest ≤ limit := by
      intro ps
      induction ps with
      | nil => exact fun _ rest h => ⟨nofun, h⟩
      | cons p ps ihps =>
        intro hps rest h
        obtain ⟨hp, hps⟩ := List.forall_mem_cons.1 hps
        rw [List.flatMap_cons, List.map_append, List.append_assoc] at h
        obtain ⟨hfirst, h⟩ := ih p hp h
        obtain ⟨hrest, h⟩ := ihps hps rest h
        exact ⟨List.forall_mem_cons.2 ⟨hfirst, hrest⟩, h⟩
    simp only [List.map_cons, List.map_append, List.map_nil, List.cons_append,
      List.append_assoc, tokenDepth] at hdepth
    obtain ⟨hparts, hclose⟩ := hitems parts (fun p hp => hp) _ hdepth
    have hmax : max (level + 1) (tokenDepth level rest) ≤ limit := hclose
    have hlevel : limit - level = limit - (level + 1) + 1 := by omega
    refine ⟨?_, by omega⟩
    rw [hlevel]
    intro d hd
    obtain ⟨p, hp, rfl⟩ := List.mem_map.1 hd
    exact hparts p hp

end MiniScheme.Datum
