import MiniScheme.Proofs.Parsing

/-!
# What the parser accepts

A datum is parsed from the front of a list of tokens exactly if the tokens there spell it and its
lists do not nest too deep. The tokens read so far are those of the lists that are open, each of
them spelled up to its last item; a closing bracket completes the innermost one. The counter of
brackets is back where it started when the datum is complete.
-/

namespace MiniScheme.Datum

variable {fileEnd depth depth' : Nat} {opened ls : List OpenList} {l : OpenList}
  {before ts rest : List Located} {d : Datum}

/-! ### Tokens of open lists -/

/-- The tokens that have been read for the lists that are open, the innermost one first. -/
inductive ReadSoFar : List OpenList → List Located → Prop
  | start : ReadSoFar [] []
  | inside {ls : List OpenList} {before : List Located} (h : ReadSoFar ls before) (o : Nat)
      (parts : List (Datum × List Located)) (hparts : ∀ p ∈ parts, Spells p.1 p.2) :
      ReadSoFar (⟨o, (parts.map (·.1)).reverse⟩ :: ls)
        (before ++ ⟨.opening, o⟩ :: parts.flatMap (·.2))

namespace ReadSoFar

theorem opening (h : ReadSoFar ls before) (o : Nat) :
    ReadSoFar (⟨o, []⟩ :: ls) (before ++ [⟨.opening, o⟩]) :=
  h.inside o [] (List.forall_mem_nil _)

theorem add (h : ReadSoFar (l :: ls) before) (hd : Spells d ts) :
    ReadSoFar (l.add d :: ls) (before ++ ts) := by
  cases h with
  | @inside _ outer h o parts hparts =>
    have hall : ∀ p ∈ parts ++ [(d, ts)], Spells p.1 p.2 := by
      rw [List.forall_mem_append, List.forall_mem_singleton]
      exact ⟨hparts, hd⟩
    have hmore := h.inside o (parts ++ [(d, ts)]) hall
    have hitems : ((parts ++ [(d, ts)]).map (·.1)).reverse = d :: (parts.map (·.1)).reverse := by
      rw [List.map_append, List.reverse_append]
      rfl
    have htokens : (parts ++ [(d, ts)]).flatMap (·.2) = parts.flatMap (·.2) ++ ts := by
      rw [List.flatMap_append, List.flatMap_cons, List.flatMap_nil, List.append_nil]
    rw [hitems, htokens] at hmore
    rw [List.append_assoc, List.cons_append]
    exact hmore

/-- A closing bracket completes the spelling of the innermost list. -/
theorem close (h : ReadSoFar (l :: ls) before) (o : Nat) :
    ∃ outer inner, before = outer ++ inner ∧ ReadSoFar ls outer ∧
      Spells l.close (inner ++ [⟨.closing, o⟩]) := by
  cases h with
  | @inside _ outer h o' parts hparts =>
    refine ⟨outer, _, rfl, h, ?_⟩
    unfold OpenList.close
    rw [List.reverse_reverse]
    exact Spells.list parts o' o hparts

end ReadSoFar

/-- Whatever is open, the tokens that are parsed complete the spelling of the datum. -/
theorem spells_of_parse (h : parse fileEnd depth opened ts = .ok (d, rest, depth'))
    (hread : ReadSoFar opened before) :
    ∃ front, ts = front ++ rest ∧ Spells d (before ++ front) := by
  fun_induction parse fileEnd depth opened ts generalizing before with
  | case1 => cases h
  | case2 => cases h
  | case3 depth a o ts =>
    cases h
    cases hread
    exact ⟨[⟨.atom a, o⟩], rfl, .atom a o⟩
  | case4 depth l ls a o ts ih =>
    obtain ⟨front, hts, hd⟩ := ih h (hread.add (.atom a o))
    exact ⟨⟨.atom a, o⟩ :: front, congrArg (_ :: ·) hts, by simpa using hd⟩
  | case5 => cases h
  | case6 depth l o ts =>
    cases h
    obtain ⟨outer, inner, hbefore, hstart, hclosed⟩ := hread.close o
    cases hstart
    exact ⟨[⟨.closing, o⟩], rfl, hbefore ▸ hclosed⟩
  | case7 depth l l' ls o ts ih =>
    obtain ⟨outer, inner, hbefore, houter, hclosed⟩ := hread.close o
    obtain ⟨front, hts, hd⟩ := ih h (houter.add hclosed)
    refine ⟨⟨.closing, o⟩ :: front, congrArg (_ :: ·) hts, ?_⟩
    simpa [hbefore] using hd
  | case8 => cases h
  | case9 depth ls o ts hroom ih =>
    obtain ⟨front, hts, hd⟩ := ih h (hread.opening o)
    exact ⟨⟨.opening, o⟩ :: front, congrArg (_ :: ·) hts, by simpa using hd⟩

theorem parse_of_spells (hd : d.Spells ts) (hnest : d.NestedWithin maxNesting) :
    parse fileEnd 0 [] (ts ++ rest) = .ok (d, rest, 0) :=
  parse_spells hd (Nat.zero_le _) hnest

/-- A datum is taken off the front of a list of tokens exactly if the tokens there spell it, each
part of it having the offset of its first token, and its lists do not nest deeper than the limit.
The counter is then back at zero, and no other datum is spelled at the front of the tokens. -/
theorem parse_ok_iff_spells (fileEnd : Nat) (ts rest : List Located) (d : Datum) :
    ((∃ depth, parse fileEnd 0 [] ts = .ok (d, rest, depth)) ↔
      ∃ front, ts = front ++ rest ∧ d.Spells front ∧ d.NestedWithin maxNesting) ∧
    ∀ depth, parse fileEnd 0 [] ts = .ok (d, rest, depth) →
      depth = 0 ∧
      ∀ d' front' rest', ts = front' ++ rest' → d'.Spells front' → d'.NestedWithin maxNesting →
        d' = d ∧ rest' = rest := by
  refine ⟨⟨?_, ?_⟩, fun depth h => ⟨(nestedWithin_of_parse h rfl trivial).2, ?_⟩⟩
  · rintro ⟨depth, h⟩
    obtain ⟨front, hts, hd⟩ := spells_of_parse h .start
    exact ⟨front, hts, hd, (nestedWithin_of_parse h rfl trivial).1⟩
  · rintro ⟨front, rfl, hd, hnest⟩
    exact ⟨0, parse_of_spells hd hnest⟩
  · rintro d' front' rest' rfl hd' hnest'
    have h' : parse fileEnd 0 [] (front' ++ rest') = .ok (d', rest', 0) :=
      parse_of_spells hd' hnest'
    cases h.symm.trans h'
    exact ⟨rfl, rfl⟩

/-- The tokens of `((f) 1) x`. -/
def callBeforeName : List Located :=
  [⟨.opening, 0⟩, ⟨.opening, 1⟩, ⟨.atom (.name "f"), 2⟩, ⟨.closing, 3⟩, ⟨.atom (.lit (.int 1)), 5⟩,
    ⟨.closing, 6⟩, ⟨.atom (.name "x"), 8⟩]

theorem parse_callBeforeName :
    let call := list [list [atom (.name "f") 2] 1, atom (.lit (.int 1)) 5] 0
    parse 9 0 [] callBeforeName = .ok (call, [⟨.atom (.name "x"), 8⟩], 0) ∧
    (∃ front, callBeforeName = front ++ [⟨.atom (.name "x"), 8⟩] ∧ call.Spells front ∧
      call.NestedWithin maxNesting) ∧
    ∀ d' front' rest', callBeforeName = front' ++ rest' → d'.Spells front' →
      d'.NestedWithin maxNesting → d' = call ∧ rest' = [⟨.atom (.name "x"), 8⟩] := by
  intro call
  have hparse : parse 9 0 [] callBeforeName = .ok (call, [⟨.atom (.name "x"), 8⟩], 0) := rfl
  have hspelled := parse_ok_iff_spells 9 callBeforeName [⟨.atom (.name "x"), 8⟩] call
  exact ⟨hparse, hspelled.1.1 ⟨0, hparse⟩, (hspelled.2 0 hparse).2⟩

end MiniScheme.Datum
