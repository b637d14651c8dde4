import MiniScheme.Proofs.Inference

/-!
# Types without empty arrows

An arrow lists at least its result. Inference starts from variables, ground types and arrows that
end in a result, and putting such types in for variables leaves no empty arrow either; so neither
an inferred type nor a type that an error shows has one.
-/

namespace MiniScheme

open Results

namespace Ty

/-- No arrow of the type has an empty element list. -/
inductive Proper : Ty → Prop
  | var (x : Nat) : Proper (.var x)
  | int : Proper .int
  | bool : Proper .bool
  | arrow {ts : List Ty} (hne : ts ≠ []) (helements : ∀ t ∈ ts, Proper t) : Proper (.arrow ts)

theorem proper_arrow_iff {ts : List Ty} : (arrow ts).Proper ↔ ts ≠ [] ∧ ∀ t ∈ ts, t.Proper := by
  constructor
  · rintro (_ | _ | _ | ⟨hne, helements⟩)
    exact ⟨hne, helements⟩
  · rintro ⟨hne, helements⟩
    exact .arrow hne helements

theorem Proper.arrow_append {ts : List Ty} {t : Ty} (hts : ∀ t ∈ ts, t.Proper) (ht : t.Proper) :
    (Ty.arrow (ts ++ [t])).Proper := by
  refine .arrow (by simp) fun r hr => ?_
  rcases List.mem_append.1 hr with hr | hr
  · exact hts r hr
  · exact List.mem_singleton.1 hr ▸ ht

theorem Proper.replace {t : Ty} {σ : Nat → Ty} (ht : t.Proper) (hσ : ∀ x, (σ x).Proper) :
    (t.replace σ).Proper := by
  induction ht with
  | var x => exact hσ x
  | int => exact .int
  | bool => exact .bool
  | arrow hne _ ih =>
    rw [Ty.replace, replaceList_eq_map]
    exact .arrow (mt List.map_eq_nil_iff.1 hne) (List.forall_mem_map.2 ih)

theorem Proper.subst {t r : Ty} (ht : t.Proper) (x : Nat) (hr : r.Proper) :
    (t.subst x r).Proper := by
  refine ht.replace fun y => ?_
  split
  · exact hr
  · exact .var y

end Ty

/-! ### Types in tables -/

/-- All types of a table are proper, whatever its keys are. -/
def ProperEntries {κ : Type} (entries : List (κ × Ty)) : Prop :=
  ∀ b ∈ entries, b.2.Proper

namespace ProperEntries

variable {κ : Type} {as bs : List (κ × Ty)}

theorem nil : ProperEntries ([] : List (κ × Ty)) :=
  List.forall_mem_nil _

theorem singleton {k : κ} {t : Ty} (h : t.Proper) : ProperEntries [(k, t)] :=
  List.forall_mem_singleton.2 h

theorem append (ha : ProperEntries as) (hb : ProperEntries bs) : ProperEntries (as ++ bs) :=
  List.forall_mem_append.2 ⟨ha, hb⟩

theorem zip {ks : List κ} {ts : List Ty} (h : ∀ t ∈ ts, t.Proper) : ProperEntries (ks.zip ts) :=
  fun _ hb => h _ (List.of_mem_zip hb).2

theorem lookup [DecidableEq κ] {k : κ} {t : Ty} (h : ProperEntries bs)
    (hk : bs.lookup k = some t) : t.Proper := by
  obtain ⟨before, after, hsplit, _⟩ := List.lookup_eq_some_iff.1 hk
  exact h (k, t) (by simp [hsplit])

theorem enter {scope : TypeScope} {xs : List Name} {ts : List Ty} (h : ProperEntries scope)
    (hts : ∀ t ∈ ts, t.Proper) : ProperEntries (scope.enter xs ts) :=
  append (fun b hb => zip hts b (List.mem_reverse.1 hb)) h

theorem apply {s : Subst} {t : Ty} (hs : ProperEntries s) (ht : t.Proper) : (s.apply t).Proper := by
  induction s with
  | nil => exact ht
  | cons b s ih =>
    obtain ⟨hb, hs⟩ := List.forall_mem_cons.1 hs
    exact (ih hs).subst b.1 hb

end ProperEntries

theorem Primitive.proper_instantiate (p : Primitive) (next : Nat) :
    (p.scheme.instantiate next).1.Proper := by
  have hscheme : p.scheme.ty.Proper := by
    cases p <;> simp [scheme, Scheme.mono, Ty.proper_arrow_iff, Ty.Proper.int,
      Ty.Proper.bool, Ty.Proper.var]
  refine hscheme.replace fun x => ?_
  cases hx : List.lookup x _ with
  | none => exact .var x
  | some t =>
    refine ProperEntries.lookup (fun b hb => ?_) hx
    obtain ⟨g, _, rfl⟩ := List.mem_map.1 (List.mem_reverse.1 hb)
    exact .var g.2

/-! ### Solving -/

/-- Both sides of every constraint are proper. -/
def ProperSides (cs : List Constraint) : Prop :=
  ∀ c ∈ cs, c.1.Proper ∧ c.2.Proper

namespace ProperSides

variable {cs ds : List Constraint}

theorem nil : ProperSides [] :=
  List.forall_mem_nil _

theorem append (hc : ProperSides cs) (hd : ProperSides ds) : ProperSides (cs ++ ds) :=
  List.forall_mem_append.2 ⟨hc, hd⟩

theorem singleton {a b : Ty} (ha : a.Proper) (hb : b.Proper) : ProperSides [(a, b)] :=
  List.forall_mem_singleton.2 ⟨ha, hb⟩

theorem zip {xs ys : List Ty} (hx : ∀ t ∈ xs, t.Proper) (hy : ∀ t ∈ ys, t.Proper) :
    ProperSides (xs.zip ys) :=
  fun _ hc => ⟨hx _ (List.of_mem_zip hc).1, hy _ (List.of_mem_zip hc).2⟩

theorem substAll (hc : ProperSides cs) (x : Nat) {r : Ty} (hr : r.Proper) :
    ProperSides (Constraint.substAll x r cs) :=
  List.forall_mem_map.2 fun c h => ⟨(hc c h).1.subst x hr, (hc c h).2.subst x hr⟩

end ProperSides

/-- The types that the text of a type error shows. -/
def TypeError.types : TypeError → List Ty
  | mismatch a b => [a, b]
  | infinite _ t => [t]

def Error.types : Error → List Ty
  | illTyped cause => cause.types
  | _ => []

theorem endsIn_unify {cs : List Constraint} (h : ProperSides cs) :
    EndsIn (fun cause => ∀ t ∈ cause.types, t.Proper) ProperEntries (unify cs) := by
  fun_induction unify cs with
  | case1 => exact .ok .nil
  | case2 x cs ih => exact ih (List.forall_mem_cons.1 h).2
  | case3 x b cs hne hocc =>
    exact .error (List.forall_mem_singleton.2 (List.forall_mem_cons.1 h).1.2)
  | case4 x b cs hne hocc ih =>
    obtain ⟨⟨_, hb⟩, hcs⟩ := List.forall_mem_cons.1 h
    exact (ih (ProperSides.substAll hcs x hb)).map fun s hs => hs.append (.singleton hb)
  | case5 a x cs hvar hocc =>
    exact .error (List.forall_mem_singleton.2 (List.forall_mem_cons.1 h).1.1)
  | case6 a x cs hvar hocc ih =>
    obtain ⟨⟨ha, _⟩, hcs⟩ := List.forall_mem_cons.1 h
    exact (ih (ProperSides.substAll hcs x ha)).map fun s hs => hs.append (.singleton ha)
  | case7 cs ih => exact ih (List.forall_mem_cons.1 h).2
  | case8 cs ih => exact ih (List.forall_mem_cons.1 h).2
  | case9 xs ys cs hlen ih =>
    obtain ⟨⟨hx, hy⟩, hcs⟩ := List.forall_mem_cons.1 h
    have hzip := ProperSides.zip (Ty.proper_arrow_iff.1 hx).2 (Ty.proper_arrow_iff.1 hy).2
    exact ih (hzip.append hcs)
  | case10 xs ys cs hlen =>
    obtain ⟨ha, hb⟩ := (List.forall_mem_cons.1 h).1
    exact .error (List.forall_mem_cons.2 ⟨ha, List.forall_mem_singleton.2 hb⟩)
  | case11 a b cs hvar hvar' hint hbool harrow =>
    obtain ⟨ha, hb⟩ := (List.forall_mem_cons.1 h).1
    exact .error (List.forall_mem_cons.2 ⟨ha, List.forall_mem_singleton.2 hb⟩)

/-! ### Drawing types -/

namespace InferM

variable {α β : Type}

/-- Started where the unknown names have proper types, a computation ends in such a state with one
of these results, or in an error that shows proper types only. -/
def Yields (P : α → Prop) (x : InferM α) : Prop :=
  ∀ s, ProperEntries s.unknown → EndsIn (fun err : Error => ∀ t ∈ err.types, t.Proper)
    (fun r => P r.1 ∧ ProperEntries r.2.unknown) (x.run s)

theorem Yields.pure {P : α → Prop} {a : α} (h : P a) : Yields P (Pure.pure a : InferM α) :=
  fun _ hs => .ok ⟨h, hs⟩

theorem Yields.throw {P : α → Prop} {err : Error} (h : err.types = []) :
    Yields P (MonadExcept.throw err : InferM α) := by
  intro s _
  refine .error ?_
  rw [h]
  exact List.forall_mem_nil _

theorem Yields.bind {P : α → Prop} {P' : β → Prop} {x : InferM α} {f : α → InferM β}
    (hx : Yields P x) (hf : ∀ a, P a → Yields P' (f a)) : Yields P' (x >>= f) := by
  intro s hs
  rw [StateT.run_bind]
  exact (hx s hs).bind fun r hr => hf r.1 hr.1 r.2 hr.2

theorem yields_fresh : Yields Ty.Proper fresh :=
  fun s hs => .ok ⟨.var s.next, hs⟩

theorem yields_freshFor (xs : List Name) : Yields (fun ts => ∀ t ∈ ts, t.Proper) (freshFor xs) := by
  induction xs with
  | nil => exact .pure (List.forall_mem_nil _)
  | cons x xs ih =>
    exact yields_fresh.bind fun t ht => ih.bind fun ts hts =>
      .pure (List.forall_mem_cons.2 ⟨ht, hts⟩)

theorem yields_typeOfName {scope : TypeScope} (hscope : ProperEntries scope) (x : Name) :
    Yields Ty.Proper (typeOfName scope x) := by
  unfold typeOfName
  cases hx : scope.lookup x with
  | some t => exact .pure (hscope.lookup hx)
  | none =>
    cases Primitive.ofName? x with
    | some p => exact fun s hs => .ok ⟨p.proper_instantiate s.next, hs⟩
    | none =>
      have hget : Yields (fun s => ProperEntries s.unknown) (get : InferM InferState) :=
        fun s hs => .ok ⟨hs, hs⟩
      refine hget.bind fun seen hseen => ?_
      cases ht : seen.unknown.lookup x with
      | some t => exact .pure (hseen.lookup ht)
      | none =>
        exact yields_fresh.bind fun t ht s hs => .ok ⟨ht, List.forall_mem_cons.2 ⟨ht, hs⟩⟩

end InferM

/-! ### Judgements -/

structure Judgement.Proper (j : Judgement) : Prop where
  ty : j.ty.Proper
  types : ProperEntries j.types
  constraints : ProperSides j.constraints

structure Judgements.Proper (js : Judgements) : Prop where
  tys : ∀ t ∈ js.tys, t.Proper
  types : ProperEntries js.types
  constraints : ProperSides js.constraints

theorem Judgements.Proper.nil : Judgements.Proper ⟨[], [], []⟩ :=
  ⟨List.forall_mem_nil _, .nil, .nil⟩

theorem Judgement.Proper.cons {t : Ty} {j : Judgement} {js : Judgements} (ht : t.Proper)
    (hj : j.Proper) (hjs : js.Proper) : Judgements.Proper
      ⟨t :: js.tys, j.types ++ js.types, j.constraints ++ js.constraints⟩ :=
  ⟨List.forall_mem_cons.2 ⟨ht, hjs.tys⟩, hj.types.append hjs.types,
    hj.constraints.append hjs.constraints⟩

namespace Expr

open InferM

def AnnotatesProperly (e : Expr Nat) : Prop :=
  ∀ scope : TypeScope, ProperEntries scope → Yields Judgement.Proper (annotate scope e)

theorem yields_list {es : List (Expr Nat)} (h : ∀ e ∈ es, AnnotatesProperly e)
    {scope : TypeScope} (hscope : ProperEntries scope) :
    Yields Judgements.Proper (annotateList scope es) := by
  induction es with
  | nil => exact .pure .nil
  | cons e es ih =>
    obtain ⟨he, hes⟩ := List.forall_mem_cons.1 h
    exact (he scope hscope).bind fun first hfirst => (ih hes).bind fun rest hrest =>
      .pure (hfirst.cons hfirst.ty hrest)

theorem yields_members {ms : List (Member Nat (Expr Nat))}
    (h : ∀ m ∈ ms, AnnotatesProperly m.body) {scope : TypeScope} (hscope : ProperEntries scope) :
    Yields Judgements.Proper (annotateMembers scope ms) := by
  induction ms with
  | nil => exact .pure .nil
  | cons m ms ih =>
    obtain ⟨hm, hms⟩ := List.forall_mem_cons.1 h
    exact (yields_freshFor _).bind fun tys htys =>
      (hm _ (hscope.enter htys)).bind fun body hbody => (ih hms).bind fun rest hrest =>
        .pure (hbody.cons (.arrow_append htys hbody.ty) hrest)

theorem annotatesProperly (e : Expr Nat) : AnnotatesProperly e := by
  induction e with
  | lit v t =>
    have hv : v.ty.Proper := by
      cases v with
      | int n => exact .int
      | bool b => exact .bool
    exact fun scope _ => .pure ⟨hv, .singleton hv, .nil⟩
  | var x t =>
    intro scope hscope
    exact (yields_typeOfName hscope x).bind fun ty hty => .pure ⟨hty, .singleton hty, .nil⟩
  | cond test yes no t htest hyes hno =>
    intro scope hscope
    refine (htest scope hscope).bind fun jt ht => (hyes scope hscope).bind fun jy hy =>
      (hno scope hscope).bind fun jn hn => yields_fresh.bind fun ty hty => .pure ⟨hty, ?_, ?_⟩
    · exact ((ht.types.append hy.types).append hn.types).append (.singleton hty)
    · exact ((ht.constraints.append hy.constraints).append hn.constraints).append
        ((ProperSides.singleton ht.ty .bool).append
          ((ProperSides.singleton hy.ty hn.ty).append (.singleton hy.ty hty)))
  | lambda params body t hbody =>
    intro scope hscope
    refine (yields_freshFor params).bind fun tys htys =>
      (hbody _ (hscope.enter htys)).bind fun jb hb => ?_
    have harrow := Ty.Proper.arrow_append htys hb.ty
    exact .pure ⟨harrow, hb.types.append (.singleton harrow), hb.constraints⟩
  | assign x value t _ => exact fun scope _ => .throw rfl
  | app func args t hfunc hargs =>
    intro scope hscope
    refine (hfunc scope hscope).bind fun jf hf => (yields_list hargs hscope).bind fun ja ha =>
      yields_fresh.bind fun ty hty => .pure ⟨hty, ?_, ?_⟩
    · exact (hf.types.append ha.types).append (.singleton hty)
    · exact (hf.constraints.append ha.constraints).append
        (.singleton hf.ty (.arrow_append ha.tys hty))
  | letIn bindings body t hbindings hbody =>
    intro scope hscope
    have hinits : Yields Judgements.Proper (annotateBindings scope bindings) := by
      rw [annotateBindings_eq]
      exact yields_list (List.forall_mem_map.2 hbindings) hscope
    refine hinits.bind fun ji hi => (hbody _ (hscope.enter hi.tys)).bind fun jb hb =>
      yields_fresh.bind fun ty hty => .pure ⟨hty, ?_, ?_⟩
    · exact (hi.types.append hb.types).append (.singleton hty)
    · exact (hi.constraints.append hb.constraints).append (.singleton hty hb.ty)
  | letrec bindings body t _ _ => exact fun scope _ => .throw rfl
  | fix members body t hmembers hbody =>
    intro scope hscope
    refine (yields_freshFor _).bind fun tys htys => ?_
    have henter : ProperEntries (scope.enter (members.map (·.name)) tys) := hscope.enter htys
    refine (yields_members hmembers henter).bind fun jm hm => (hbody _ henter).bind fun jb hb =>
      yields_fresh.bind fun ty hty => .pure ⟨hty, ?_, ?_⟩
    · exact (((ProperEntries.zip htys).append hm.types).append hb.types).append (.singleton hty)
    · exact (((ProperSides.zip htys hm.tys).append hm.constraints).append hb.constraints).append
        (.singleton hty hb.ty)
  | seq items t hitems =>
    intro scope hscope
    refine (yields_list hitems hscope).bind fun ji hi => ?_
    cases hlast : ji.tys.getLast? with
    | some ty =>
      have hty := hi.tys ty (List.mem_of_getLast? hlast)
      exact .pure ⟨hty, hi.types.append (.singleton hty), hi.constraints⟩
    | none => exact .throw rfl

/-- Every type in an answer of inference is proper, be it the root's, a node's or one in the text of
an error. -/
theorem endsIn_infer (e : Expr Nat) : EndsIn (fun err : Error => ∀ t ∈ err.types, t.Proper)
    (fun typing : Typing => typing.root.Proper ∧ ProperEntries typing.types) e.infer := by
  have hproblem : EndsIn (fun err : Error => ∀ t ∈ err.types, t.Proper)
      (fun problem : TypingProblem => problem.judgement.Proper) (TypingProblem.ofExpr e) :=
    (annotatesProperly e [] .nil ⟨0, []⟩ .nil).bind fun r hr => .ok hr.1
  -- the walk collects proper types only, and solving keeps to them in its answer and its errors
  refine hproblem.bind fun problem hj => ?_
  have hsolved := endsIn_unify hj.constraints
  unfold TypingProblem.solve
  cases hunify : unify problem.judgement.constraints with
  | error cause => exact .error (hsolved.1 cause hunify)
  | ok s =>
    have hs := hsolved.2 s hunify
    exact .ok ⟨hs.apply hj.ty, List.forall_mem_map.2 fun b hb => hs.apply (hj.types b hb)⟩

end Expr

end MiniScheme
