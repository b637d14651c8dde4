import MiniScheme.Expr.Free
import MiniScheme.Proofs.EvenTrees
import MiniScheme.Ragged.Passes

/-!
# Where free names occur

A node mentions a name if it is a reference to it or an assignment to it. The mention is free in a
tree if no node between it and the root binds the name around it. Places in a tree are ordered from
left to right, a node before what is below it, and the free names of a tree are listed in the order
of their first free mentions. A name binds whether or not it has a value, and a value is searched
whether or not it has a name.
-/

namespace MiniScheme

variable {α : Type}

/-- The way from the root to a node, as the index of the child to go to at each node. -/
abbrev Place := List Nat

namespace Ragged

/-! ### Scopes -/

/-- The name that the root itself mentions. -/
def mention? : Ragged α → Option Name
  | var x _ => some x
  | assign x _ _ => some x
  | _ => none

/-- The expressions directly below the root, from left to right, with the names that the root binds
in each of them. -/
def scopedChildren : Ragged α → List (List Name × Ragged α)
  | lit _ _ => []
  | var _ _ => []
  | cond test yes no _ => [([], test), ([], yes), ([], no)]
  | lambda params body _ => [(params, body)]
  | assign _ value _ => [([], value)]
  | app func args _ => ([], func) :: args.map fun e => ([], e)
  | letIn names inits body _ => (inits.map fun e => ([], e)) ++ [(names, body)]
  | letrec names inits body _ => (inits.map fun e => (names, e)) ++ [(names, body)]
  | fix names _ procs body _ =>
    (procs.map fun p => (p.params ++ names, p.body)) ++ [(names, body)]
  | seq items _ => items.map fun e => ([], e)

theorem map_snd_scopedChildren (e : Ragged α) : e.scopedChildren.map (·.2) = e.children := by
  cases e <;> simp [scopedChildren, children, Function.comp_def]

theorem mem_children_of_mem_scopedChildren {e : Ragged α} {c : List Name × Ragged α}
    (hc : c ∈ e.scopedChildren) : c.2 ∈ e.children := by
  rw [← map_snd_scopedChildren]
  exact List.mem_map_of_mem hc

theorem freeOccurrencesList_eq_flatMap (bound : List Name) (es : List (Ragged α)) :
    freeOccurrencesList bound es = es.flatMap (freeOccurrences bound) := by
  induction es with
  | nil => rfl
  | cons e es ih => simp only [freeOccurrencesList, List.flatMap_cons, ih]

theorem freeOccurrencesProcs_eq_flatMap (bound : List Name) (ps : List (Procedure (Ragged α))) :
    freeOccurrencesProcs bound ps =
      ps.flatMap fun p => freeOccurrences (p.params ++ bound) p.body := by
  induction ps with
  | nil => rfl
  | cons p ps ih => simp only [freeOccurrencesProcs, List.flatMap_cons, ih]

/-- The free occurrences in a tree are the mention of its root and then those in its children. -/
theorem freeOccurrences_eq_flatMap (bound : List Name) (e : Ragged α) :
    freeOccurrences bound e = e.mention?.toList.filter (· ∉ bound) ++
      e.scopedChildren.flatMap fun c => freeOccurrences (c.1 ++ bound) c.2 := by
  cases e with
  | var x t => by_cases hx : x ∈ bound <;> simp [freeOccurrences, mention?, scopedChildren, hx]
  | assign x value t =>
    by_cases hx : x ∈ bound <;> simp [freeOccurrences, mention?, scopedChildren, hx]
  | _ =>
    simp [freeOccurrences, mention?, scopedChildren, freeOccurrencesList_eq_flatMap,
      freeOccurrencesProcs_eq_flatMap, List.flatMap_map]

theorem freeOccurrences_eq_filter (bound : List Name) (e : Ragged α) :
    freeOccurrences bound e = (freeOccurrences [] e).filter (· ∉ bound) := by
  induction e using induct_children generalizing bound with
  | node e ih =>
    have hbelow : ∀ c ∈ e.scopedChildren, freeOccurrences (c.1 ++ bound) c.2 =
        (freeOccurrences (c.1 ++ []) c.2).filter (· ∉ bound) := by
      intro c hc
      have hmem := mem_children_of_mem_scopedChildren hc
      rw [ih c.2 hmem (c.1 ++ bound), ih c.2 hmem (c.1 ++ []), List.filter_filter]
      refine List.filter_congr fun x _ => ?_
      simp [and_comm]
    rw [freeOccurrences_eq_flatMap, freeOccurrences_eq_flatMap [], List.filter_append,
      List.filter_flatMap, List.flatMap_congr hbelow]
    simp

/-! ### Places -/

/-- The node at a place mentions a name that no node on the way to it binds around it. -/
inductive FreeAt (x : Name) : Place → Ragged α → Prop
  | here {e : Ragged α} (h : e.mention? = some x) : FreeAt x [] e
  | inside {i : Nat} {place : Place} {scope : List Name} {d e : Ragged α}
    (hd : e.scopedChildren[i]? = some (scope, d)) (hx : x ∉ scope) (h : FreeAt x place d) :
    FreeAt x (i :: place) e

theorem freeAt_nil_iff {x : Name} {e : Ragged α} : FreeAt x [] e ↔ e.mention? = some x := by
  constructor
  · intro h
    cases h with
    | here h => exact h
  · exact .here

theorem freeAt_cons_iff {x : Name} {i : Nat} {place : Place} {e : Ragged α} :
    FreeAt x (i :: place) e ↔ ∃ scope d, e.scopedChildren[i]? = some (scope, d) ∧ x ∉ scope ∧
      FreeAt x place d := by
  constructor
  · intro h
    cases h with
    | inside hd hx h => exact ⟨_, _, hd, hx, h⟩
  · rintro ⟨scope, d, hd, hx, h⟩
    exact .inside hd hx h

/-- The free mentions of a tree with their places, from left to right. -/
structure Sites (e : Ragged α) (sites : List (Place × Name)) : Prop where
  ordered : sites.Pairwise fun s s' => s.1 < s'.1
  mem_iff : ∀ p x, (p, x) ∈ sites ↔ FreeAt x p e
  names_eq : sites.map (·.2) = freeOccurrences [] e

theorem exists_sites_below {cs : List (List Name × Ragged α)}
    (h : ∀ c ∈ cs, ∃ sites, Sites c.2 sites) (k : Nat) :
    ∃ sites : List (Place × Name), (sites.Pairwise fun s s' => s.1 < s'.1) ∧
      (∀ p x, (p, x) ∈ sites ↔ ∃ i place scope d, p = (k + i) :: place ∧
        cs[i]? = some (scope, d) ∧ x ∉ scope ∧ FreeAt x place d) ∧
      sites.map (·.2) = cs.flatMap fun c => freeOccurrences (c.1 ++ []) c.2 := by
  induction cs generalizing k with
  | nil => exact ⟨[], .nil, by simp, rfl⟩
  | cons c cs ih =>
    obtain ⟨⟨sites, hsites⟩, hcs⟩ := List.forall_mem_cons.1 h
    obtain ⟨rest, hordered, hmem, hnames⟩ := ih hcs (k + 1)
    -- the sites of the first child are one step further down and lose the names bound there;
    -- those of the other children all have a larger first index
    refine ⟨(sites.filter (·.2 ∉ c.1)).map (fun s => (k :: s.1, s.2)) ++ rest, ?_, ?_, ?_⟩
    · refine List.pairwise_append.2 ⟨?_, hordered, ?_⟩
      · refine List.pairwise_map.2 ((hsites.ordered.filter _).imp fun hlt => ?_)
        exact List.cons_lt_cons_iff.2 (.inr ⟨rfl, hlt⟩)
      · intro s hs s' hs'
        obtain ⟨s, _, rfl⟩ := List.mem_map.1 hs
        obtain ⟨i, place, _, _, hplace, _⟩ := (hmem s'.1 s'.2).1 hs'
        rw [hplace]
        exact List.cons_lt_cons_iff.2 (.inl (by omega))
    · intro p x
      rw [List.mem_append, hmem]
      constructor
      · rintro (hp | ⟨i, place, scope, d, rfl, hd, hx, hfree⟩)
        · obtain ⟨⟨place, y⟩, hs, heq⟩ := List.mem_map.1 hp
          obtain ⟨rfl, rfl⟩ := Prod.mk.inj heq
          obtain ⟨hs, hy⟩ := List.mem_filter.1 hs
          exact ⟨0, place, c.1, c.2, rfl, rfl, of_decide_eq_true hy, (hsites.mem_iff _ _).1 hs⟩
        · exact ⟨i + 1, place, scope, d, by rw [Nat.add_assoc, Nat.add_comm 1], hd, hx, hfree⟩
      · rintro ⟨i, place, scope, d, rfl, hd, hx, hfree⟩
        cases i with
        | zero =>
          obtain rfl : c = (scope, d) := Option.some.inj hd
          have hs : (place, x) ∈ sites.filter (·.2 ∉ scope) :=
            List.mem_filter.2 ⟨(hsites.mem_iff _ _).2 hfree, decide_eq_true hx⟩
          exact .inl (List.mem_map.2 ⟨(place, x), hs, rfl⟩)
        | succ i =>
          exact .inr ⟨i, place, scope, d, by rw [Nat.add_assoc, Nat.add_comm 1], hd, hx, hfree⟩
    · have hfirst : (sites.filter (·.2 ∉ c.1)).map (·.2) = freeOccurrences (c.1 ++ []) c.2 := by
        rw [List.append_nil, freeOccurrences_eq_filter, ← hsites.names_eq, List.filter_map]
        rfl
      rw [List.map_append, List.map_map, List.flatMap_cons, hnames, ← hfirst]
      rfl

theorem exists_sites (e : Ragged α) : ∃ sites, Sites e sites := by
  induction e using induct_children with
  | node e ih =>
    obtain ⟨sites, hordered, hmem, hnames⟩ := exists_sites_below
      (fun c hc => ih c.2 (mem_children_of_mem_scopedChildren hc)) 0
    refine ⟨e.mention?.toList.map ([], ·) ++ sites, ?_, ?_, ?_⟩
    · refine List.pairwise_append.2 ⟨?_, hordered, ?_⟩
      · cases e.mention? with
        | none => exact .nil
        | some x => exact List.pairwise_singleton _ _
      · intro s hs s' hs'
        obtain ⟨x, _, rfl⟩ := List.mem_map.1 hs
        obtain ⟨i, place, _, _, hplace, _⟩ := (hmem s'.1 s'.2).1 hs'
        rw [hplace]
        exact List.nil_lt_cons _ _
    · intro p x
      rw [List.mem_append, hmem]
      cases p with
      | nil => simp [freeAt_nil_iff]
      | cons i place => simp [freeAt_cons_iff]
    · rw [List.map_append, hnames, freeOccurrences_eq_flatMap]
      simp [Function.comp_def]

/-! ### First mentions -/

theorem eraseDups_filter (p : Name → Bool) (xs : List Name) :
    (xs.filter p).eraseDups = xs.eraseDups.filter p := by
  match xs with
  | [] => rfl
  | x :: xs =>
    have hrest := eraseDups_filter p (xs.filter fun y => !y == x)
    rw [List.filter_filter] at hrest
    cases hx : p x with
    | true =>
      rw [List.filter_cons_of_pos hx, List.eraseDups_cons, List.eraseDups_cons,
        List.filter_cons_of_pos hx, List.filter_filter, ← hrest]
      simp only [Bool.and_comm]
    | false =>
      have hne : xs.filter p = xs.filter fun y => p y && !y == x := by
        refine List.filter_congr fun y _ => ?_
        by_cases hy : y = x
        · simp [hy, hx]
        · simp [hy]
      rw [List.filter_cons_of_neg (by simp [hx]), List.eraseDups_cons,
        List.filter_cons_of_neg (by simp [hx]), ← hrest, hne]
termination_by xs.length
decreasing_by
  exact Nat.lt_succ_of_le (List.length_filter_le _ _)

/-- Of names listed by ascending keys, each without its repetitions stands before those whose keys
are all larger than its first. -/
theorem pairwise_eraseDups {κ : Type} {lt : κ → κ → Prop} (sites : List (κ × Name))
    (h : sites.Pairwise fun s s' => lt s.1 s'.1) :
    (sites.map (·.2)).eraseDups.Pairwise fun x y =>
      ∃ p, (p, x) ∈ sites ∧ ∀ q, (q, y) ∈ sites → lt p q := by
  match sites with
  | [] => exact .nil
  | s :: sites =>
    obtain ⟨hfirst, hordered⟩ := List.pairwise_cons.1 h
    have hrest := pairwise_eraseDups (sites.filter fun s' => !s'.2 == s.2) (hordered.filter _)
    have hlater : ∀ {q y}, y ≠ s.2 → (q, y) ∈ s :: sites →
        (q, y) ∈ sites.filter fun s' => !s'.2 == s.2 := by
      intro q y hne hq
      rcases List.mem_cons.1 hq with hq | hq
      · exact absurd (congrArg Prod.snd hq) hne
      · exact List.mem_filter.2 ⟨hq, by simpa using hne⟩
    have hnames : (sites.map (·.2)).filter (fun y => !y == s.2) =
        (sites.filter fun s' => !s'.2 == s.2).map (·.2) := List.filter_map
    rw [List.map_cons, List.eraseDups_cons, hnames]
    have hother : ∀ y ∈ ((sites.filter fun s' => !s'.2 == s.2).map (·.2)).eraseDups,
        y ≠ s.2 := by
      intro y hy
      obtain ⟨s', hs', rfl⟩ := List.mem_map.1 (List.mem_eraseDups.1 hy)
      simpa using (List.mem_filter.1 hs').2
    refine List.pairwise_cons.2 ⟨fun y hy => ⟨s.1, List.mem_cons_self .., fun q hq => ?_⟩, ?_⟩
    · exact hfirst _ (List.mem_filter.1 (hlater (hother y hy) hq)).1
    · refine hrest.imp_of_mem fun _ hy => ?_
      rintro ⟨p, hp, hbefore⟩
      exact ⟨p, List.mem_cons_of_mem _ (List.mem_filter.1 hp).1,
        fun q hq => hbefore q (hlater (hother _ hy) hq)⟩
termination_by sites.length
decreasing_by
  exact Nat.lt_succ_of_le (List.length_filter_le _ _)

/-- A name is mentioned freely at a place to the left of all free mentions of another one. -/
def FreeBefore (e : Ragged α) (x y : Name) : Prop :=
  ∃ p, FreeAt x p e ∧ ∀ q, FreeAt y q e → p < q

/-- The list holds the names that are free in the tree and not bound from outside, each once, in the
order of their first free mentions. -/
structure ListsFree (e : Ragged α) (bound names : List Name) : Prop where
  nodup : names.Nodup
  mem_iff : ∀ x, x ∈ names ↔ x ∉ bound ∧ ∃ p, FreeAt x p e
  ordered : names.Pairwise e.FreeBefore

theorem FreeBefore.asymm {e : Ragged α} {x y : Name} (hxy : e.FreeBefore x y) :
    ¬ e.FreeBefore y x := by
  rintro ⟨q, hq, hbefore⟩
  obtain ⟨p, hp, hafter⟩ := hxy
  exact List.lt_asymm (hafter q hq) (hbefore p hp)

theorem ListsFree.unique {e : Ragged α} {bound names names' : List Name}
    (h : e.ListsFree bound names) (h' : e.ListsFree bound names') : names = names' := by
  have hperm : names.Perm names' := by
    rw [List.perm_ext_iff_of_nodup h.nodup h'.nodup]
    intro x
    rw [h.mem_iff, h'.mem_iff]
  exact hperm.eq_of_pairwise (fun x y _ _ hxy hyx => absurd hyx hxy.asymm) h.ordered h'.ordered

theorem listsFree_nil (e : Ragged α) : e.ListsFree [] (e.free []) := by
  obtain ⟨sites, hsites⟩ := exists_sites e
  have hordered : (e.free []).Pairwise e.FreeBefore := by
    rw [free, ← hsites.names_eq]
    refine (pairwise_eraseDups sites hsites.ordered).imp ?_
    rintro x y ⟨p, hp, hbefore⟩
    exact ⟨p, (hsites.mem_iff p x).1 hp, fun q hq => hbefore q ((hsites.mem_iff q y).2 hq)⟩
  refine ⟨hordered.imp ?_, fun x => ?_, hordered⟩
  · rintro x _ hxy rfl
    exact hxy.asymm hxy
  · rw [free, List.mem_eraseDups, ← hsites.names_eq, List.mem_map]
    constructor
    · rintro ⟨⟨p, y⟩, hs, rfl⟩
      exact ⟨List.not_mem_nil, p, (hsites.mem_iff p y).1 hs⟩
    · rintro ⟨_, p, hp⟩
      exact ⟨(p, x), (hsites.mem_iff p x).2 hp, rfl⟩

theorem free_eq_filter (bound : List Name) (e : Ragged α) :
    e.free bound = (e.free []).filter (· ∉ bound) := by
  rw [free, freeOccurrences_eq_filter, eraseDups_filter, free]

theorem listsFree (e : Ragged α) (bound : List Name) : e.ListsFree bound (e.free bound) := by
  have h := listsFree_nil e
  rw [free_eq_filter]
  refine ⟨h.nodup.filter _, fun x => ?_, h.ordered.filter _⟩
  rw [List.mem_filter, h.mem_iff, decide_eq_true_eq]
  simp only [List.not_mem_nil, not_false_eq_true, true_and]
  exact and_comm

/-- The free names of a tree are the one list of the names that are mentioned in it outside all of
their binders and that are not bound from outside, each once and by first mention. Names bound from
outside drop out of the list and change nothing else. -/
theorem free_eq_iff_mentions (e : Ragged α) (bound : List Name) :
    (∀ names, e.free bound = names ↔ e.ListsFree bound names) ∧
      e.free bound = (e.free []).filter (· ∉ bound) := by
  refine ⟨fun names => ⟨?_, fun h => (listsFree e bound).unique h⟩, free_eq_filter bound e⟩
  rintro rfl
  exact listsFree e bound

end Ragged

namespace Expr

/-! ### Even trees -/

/-- The name that the root itself mentions. -/
def mention? : Expr α → Option Name
  | var x _ => some x
  | assign x _ _ => some x
  | _ => none

/-- The expressions directly below the root, from left to right, with the names that the root binds
in each of them. -/
def scopedChildren : Expr α → List (List Name × Expr α)
  | lit _ _ => []
  | var _ _ => []
  | cond test yes no _ => [([], test), ([], yes), ([], no)]
  | lambda params body _ => [(params, body)]
  | assign _ value _ => [([], value)]
  | app func args _ => ([], func) :: args.map fun e => ([], e)
  | letIn bindings body _ =>
    (bindings.map fun b => ([], b.2)) ++ [(bindings.map (·.1), body)]
  | letrec bindings body _ =>
    (bindings.map fun b => (bindings.map (·.1), b.2)) ++ [(bindings.map (·.1), body)]
  | fix members body _ =>
    (members.map fun m => (m.params ++ members.map (·.name), m.body)) ++
      [(members.map (·.name), body)]
  | seq items _ => items.map fun e => ([], e)

theorem freeOccurrencesList_eq_flatMap (bound : List Name) (es : List (Expr α)) :
    freeOccurrencesList bound es = es.flatMap (freeOccurrences bound) := by
  induction es with
  | nil => rfl
  | cons e es ih => simp only [freeOccurrencesList, List.flatMap_cons, ih]

theorem freeOccurrencesBindings_eq_flatMap (bound : List Name) (bs : List (Name × Expr α)) :
    freeOccurrencesBindings bound bs = bs.flatMap fun b => freeOccurrences bound b.2 := by
  induction bs with
  | nil => rfl
  | cons b bs ih => simp only [freeOccurrencesBindings, List.flatMap_cons, ih]

theorem freeOccurrencesMembers_eq_flatMap (bound : List Name) (ms : List (Member α (Expr α))) :
    freeOccurrencesMembers bound ms =
      ms.flatMap fun m => freeOccurrences (m.params ++ bound) m.body := by
  induction ms with
  | nil => rfl
  | cons m ms ih => simp only [freeOccurrencesMembers, List.flatMap_cons, ih]

/-- The free occurrences in a tree are the mention of its root and then those in its children. -/
theorem freeOccurrences_eq_flatMap (bound : List Name) (e : Expr α) :
    freeOccurrences bound e = e.mention?.toList.filter (· ∉ bound) ++
      e.scopedChildren.flatMap fun c => freeOccurrences (c.1 ++ bound) c.2 := by
  cases e with
  | var x t => by_cases hx : x ∈ bound <;> simp [freeOccurrences, mention?, scopedChildren, hx]
  | assign x value t =>
    by_cases hx : x ∈ bound <;> simp [freeOccurrences, mention?, scopedChildren, hx]
  | _ =>
    simp [freeOccurrences, mention?, scopedChildren, freeOccurrencesList_eq_flatMap,
      freeOccurrencesBindings_eq_flatMap, freeOccurrencesMembers_eq_flatMap, List.flatMap_map]

theorem mention?_ragged (e : Expr α) : e.ragged.mention? = e.mention? := by
  cases e <;> rfl

theorem scopedChildren_ragged (e : Expr α) :
    e.ragged.scopedChildren = e.scopedChildren.map fun c => (c.1, c.2.ragged) := by
  cases e <;> simp [ragged, Ragged.scopedChildren, scopedChildren, raggedList_eq_map,
    raggedBindings_eq_map, raggedMembers_eq_map]

theorem map_snd_scopedChildren (e : Expr α) : e.scopedChildren.map (·.2) = e.children := by
  cases e <;> simp [scopedChildren, children, Function.comp_def]

theorem mem_children_of_mem_scopedChildren {e : Expr α} {c : List Name × Expr α}
    (hc : c ∈ e.scopedChildren) : c.2 ∈ e.children := by
  rw [← map_snd_scopedChildren]
  exact List.mem_map_of_mem hc

theorem freeOccurrences_ragged (bound : List Name) (e : Expr α) :
    e.ragged.freeOccurrences bound = e.freeOccurrences bound := by
  induction e using induct_children generalizing bound with
  | node e ih =>
    have hbelow : ∀ c ∈ e.scopedChildren, c.2.ragged.freeOccurrences (c.1 ++ bound) =
        c.2.freeOccurrences (c.1 ++ bound) :=
      fun c hc => ih c.2 (mem_children_of_mem_scopedChildren hc) _
    rw [Ragged.freeOccurrences_eq_flatMap, freeOccurrences_eq_flatMap, mention?_ragged,
      scopedChildren_ragged, List.flatMap_map, List.flatMap_congr hbelow]

theorem free_ragged (bound : List Name) (e : Expr α) : e.ragged.free bound = e.free bound := by
  rw [Ragged.free, freeOccurrences_ragged, free]

theorem freeOccurrences_eq_filter (bound : List Name) (e : Expr α) :
    freeOccurrences bound e = (freeOccurrences [] e).filter (· ∉ bound) := by
  rw [← freeOccurrences_ragged, ← freeOccurrences_ragged, Ragged.freeOccurrences_eq_filter]

/-- The node at a place mentions a name that no node on the way to it binds around it. -/
inductive FreeAt (x : Name) : Place → Expr α → Prop
  | here {e : Expr α} (h : e.mention? = some x) : FreeAt x [] e
  | inside {i : Nat} {place : Place} {scope : List Name} {d e : Expr α}
    (hd : e.scopedChildren[i]? = some (scope, d)) (hx : x ∉ scope) (h : FreeAt x place d) :
    FreeAt x (i :: place) e

/-- A name is mentioned freely at a place to the left of all free mentions of another one. -/
def FreeBefore (e : Expr α) (x y : Name) : Prop :=
  ∃ p, FreeAt x p e ∧ ∀ q, FreeAt y q e → p < q

/-- The list holds the names that are free in the tree and not bound from outside, each once, in the
order of their first free mentions. -/
structure ListsFree (e : Expr α) (bound names : List Name) : Prop where
  nodup : names.Nodup
  mem_iff : ∀ x, x ∈ names ↔ x ∉ bound ∧ ∃ p, FreeAt x p e
  ordered : names.Pairwise e.FreeBefore

theorem freeAt_ragged {x : Name} {p : Place} {e : Expr α} :
    Ragged.FreeAt x p e.ragged ↔ FreeAt x p e := by
  induction p generalizing e with
  | nil =>
    rw [Ragged.freeAt_nil_iff, mention?_ragged]
    exact ⟨.here, fun h => by cases h with | here h => exact h⟩
  | cons i place ih =>
    rw [Ragged.freeAt_cons_iff, scopedChildren_ragged]
    constructor
    · rintro ⟨scope, d, hd, hx, h⟩
      rw [List.getElem?_map, Option.map_eq_some_iff] at hd
      obtain ⟨⟨scope', d'⟩, hd', heq⟩ := hd
      obtain ⟨rfl, rfl⟩ := Prod.mk.inj heq
      exact .inside hd' hx (ih.1 h)
    · intro h
      cases h with
      | @inside _ _ scope d _ hd hx h =>
        exact ⟨scope, d.ragged, by rw [List.getElem?_map, hd]; rfl, hx, ih.2 h⟩

theorem listsFree_ragged {e : Expr α} {bound names : List Name} :
    e.ragged.ListsFree bound names ↔ e.ListsFree bound names := by
  have hbefore : e.ragged.FreeBefore = e.FreeBefore := by
    funext x y
    simp only [Ragged.FreeBefore, FreeBefore, freeAt_ragged]
  constructor
  · rintro ⟨hnodup, hmem, hordered⟩
    simp only [freeAt_ragged] at hmem
    exact ⟨hnodup, hmem, hbefore ▸ hordered⟩
  · rintro ⟨hnodup, hmem, hordered⟩
    simp only [← freeAt_ragged] at hmem
    exact ⟨hnodup, hmem, hbefore ▸ hordered⟩

/-- The free names of a tree with paired names and values are listed in the same way. -/
theorem free_eq_iff_listsFree (e : Expr α) (bound : List Name) :
    (∀ names, e.free bound = names ↔ e.ListsFree bound names) ∧
      e.free bound = (e.free []).filter (· ∉ bound) := by
  rw [← free_ragged, ← free_ragged]
  refine ⟨fun names => ?_, Ragged.free_eq_filter bound e.ragged⟩
  rw [← listsFree_ragged]
  refine ⟨?_, fun h => (Ragged.listsFree e.ragged bound).unique h⟩
  rintro rfl
  exact Ragged.listsFree e.ragged bound

end Expr

end MiniScheme
