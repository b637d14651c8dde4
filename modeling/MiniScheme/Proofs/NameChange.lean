import Mathlib.Data.Option.Basic
import MiniScheme.Compile
import MiniScheme.Proofs.FreeNames

/-!
# Changing names

The passes after renaming look at names only to compare them with each other and with those of
primitives. So a change of names that keeps different names different and leaves primitives alone
passes through all of them: each gives for the changed tree what it gives for the tree itself, with
the names in it changed.
-/

namespace MiniScheme

/-! ### Computations with changed results -/

/-- One computation fails where another does, and gives what it gives with a change. -/
inductive Results.Maps {ε α β : Type} (g : α → β) : Except ε α → Except ε β → Prop where
  | ok (a : α) : Maps g (.ok a) (.ok (g a))
  | error (e e' : ε) : Maps g (.error e) (.error e')

theorem Results.Maps.eq_ok {ε α β : Type} {g : α → β} {a : α} {y : Except ε β}
    (h : Maps g (.ok a) y) : y = .ok (g a) := by
  cases h
  rfl

theorem Results.Maps.refl {ε α : Type} (x : Except ε α) : Maps id x x := by
  cases x with
  | ok a => exact .ok a
  | error e => exact .error e e

theorem Results.Maps.bind {ε α β γ δ : Type} {g : α → β} {g' : γ → δ} {x : Except ε α}
    {x' : Except ε β} {k : α → Except ε γ} {k' : β → Except ε δ} (h : Maps g x x')
    (hk : ∀ a, Maps g' (k a) (k' (g a))) : Maps g' (x >>= k) (x' >>= k') := by
  cases h with
  | ok a => exact hk a
  | error e e' => exact .error e e'

theorem Results.Maps.map {ε α β γ δ : Type} {g : α → β} {g' : γ → δ} {x : Except ε α}
    {x' : Except ε β} {f : α → γ} {f' : β → δ} (h : Maps g x x') (hf : ∀ a, f' (g a) = g' (f a)) :
    Maps g' (x.map f) (x'.map f') := by
  cases h with
  | ok a =>
    show Maps g' (.ok (f a)) (.ok (f' (g a)))
    rw [hf a]
    exact .ok (f a)
  | error e e' => exact .error e e'

namespace Emit

variable {ω ω' ε α β γ δ : Type}

/-- One computation emits what another does with a change, fails where it fails, and gives what it
gives with a change. -/
structure Maps (w : ω → ω') (g : α → β) (m : Emit ω ε α) (m' : Emit ω' ε β) : Prop where
  emitted : m'.emitted = m.emitted.map w
  result : Results.Maps g m.result m'.result

variable {w : ω → ω'} {g : α → β} {g' : γ → δ} {m : Emit ω ε α} {m' : Emit ω' ε β}

theorem Maps.pure (a : α) : Maps w g (pure a : Emit ω ε α) (pure (g a)) :=
  ⟨rfl, .ok a⟩

theorem Maps.fail (e e' : ε) : Maps w g (fail e) (fail e') :=
  ⟨rfl, .error e e'⟩

theorem Maps.emit (x : ω) : Maps w id (emit x : Emit ω ε Unit) (emit (w x)) :=
  ⟨rfl, .ok ()⟩

theorem Maps.lift {x : Except ε α} {x' : Except ε β} (h : Results.Maps g x x') :
    Maps w g (lift x) (lift x') :=
  ⟨rfl, h⟩

theorem Maps.bind {k : α → Emit ω ε γ} {k' : β → Emit ω' ε δ} (h : Maps w g m m')
    (hk : ∀ a, Maps w g' (k a) (k' (g a))) : Maps w g' (m >>= k) (m' >>= k') := by
  obtain ⟨emitted, result⟩ := m
  obtain ⟨emitted', result'⟩ := m'
  obtain ⟨hemitted, hresult⟩ := h
  replace hemitted : emitted' = emitted.map w := hemitted
  cases hresult with
  | ok a =>
    refine ⟨?_, (hk a).result⟩
    show emitted' ++ (k' (g a)).emitted = (emitted ++ (k a).emitted).map w
    rw [List.map_append, hemitted, (hk a).emitted]
  | error e e' => exact ⟨hemitted, .error e e'⟩

/-- A step that loses nothing does not hide that the computations before it correspond. -/
theorem Maps.of_bind_pure {h : α → γ} {h' : β → δ}
    (hbind : Maps w g' (m >>= fun a => Pure.pure (h a)) (m' >>= fun b => Pure.pure (h' b)))
    (hinj : ∀ a b, h' b = g' (h a) → b = g a) : Maps w g m m' := by
  obtain ⟨emitted, x⟩ := m
  obtain ⟨emitted', x'⟩ := m'
  obtain ⟨hemitted, hresult⟩ := hbind
  cases x with
  | error e =>
    cases x' with
    | error e' => exact ⟨hemitted, .error e e'⟩
    | ok b => cases hresult
  | ok a =>
    cases x' with
    | error e' => cases hresult
    | ok b =>
      replace hemitted : emitted' ++ [] = (emitted ++ []).map w := hemitted
      rw [List.append_nil, List.append_nil] at hemitted
      replace hresult : Results.Maps g' (.ok (h a)) (.ok (h' b)) := hresult
      obtain rfl : b = g a := hinj a b (Except.ok.inj hresult.eq_ok)
      exact ⟨hemitted, .ok a⟩

end Emit

namespace Expr

variable {α : Type} (f : Name → Name)

mutual
/-- Changes every name of a tree, of binders and of references. -/
def mapNames : Expr α → Expr α
  | lit v t => lit v t
  | var x t => var (f x) t
  | cond test yes no t => cond (mapNames test) (mapNames yes) (mapNames no) t
  | lambda params body t => lambda (params.map f) (mapNames body) t
  | assign x value t => assign (f x) (mapNames value) t
  | app func args t => app (mapNames func) (mapNamesList args) t
  | letIn bindings body t => letIn (mapNamesBindings bindings) (mapNames body) t
  | letrec bindings body t => letrec (mapNamesBindings bindings) (mapNames body) t
  | fix members body t => fix (mapNamesMembers members) (mapNames body) t
  | seq items t => seq (mapNamesList items) t
termination_by structural e => e

def mapNamesList : List (Expr α) → List (Expr α)
  | [] => []
  | e :: es => mapNames e :: mapNamesList es
termination_by structural es => es

def mapNamesBindings : List (Name × Expr α) → List (Name × Expr α)
  | [] => []
  | (x, e) :: bs => (f x, mapNames e) :: mapNamesBindings bs
termination_by structural bs => bs

def mapNamesMembers : List (Member α (Expr α)) → List (Member α (Expr α))
  | [] => []
  | ⟨x, t, params, body⟩ :: ms =>
    ⟨f x, t, params.map f, mapNames body⟩ :: mapNamesMembers ms
termination_by structural ms => ms
end

theorem mapNamesList_eq_map (es : List (Expr α)) : mapNamesList f es = es.map (mapNames f) := by
  induction es with
  | nil => rfl
  | cons e es ih => simp only [mapNamesList, List.map_cons, ih]

theorem mapNamesBindings_eq_map (bs : List (Name × Expr α)) :
    mapNamesBindings f bs = bs.map fun b => (f b.1, b.2.mapNames f) := by
  induction bs with
  | nil => rfl
  | cons b bs ih => simp only [mapNamesBindings, List.map_cons, ih]

theorem mapNamesMembers_eq_map (ms : List (Member α (Expr α))) :
    mapNamesMembers f ms =
      ms.map fun m => ⟨f m.name, m.tag, m.params.map f, m.body.mapNames f⟩ := by
  induction ms with
  | nil => rfl
  | cons m ms ih => simp only [mapNamesMembers, List.map_cons, ih]

@[simp] theorem length_mapNamesList (es : List (Expr α)) :
    (mapNamesList f es).length = es.length := by
  rw [mapNamesList_eq_map, List.length_map]

@[simp] theorem length_mapNamesBindings (bs : List (Name × Expr α)) :
    (mapNamesBindings f bs).length = bs.length := by
  rw [mapNamesBindings_eq_map, List.length_map]

@[simp] theorem length_mapNamesMembers (ms : List (Member α (Expr α))) :
    (mapNamesMembers f ms).length = ms.length := by
  rw [mapNamesMembers_eq_map, List.length_map]

@[simp] theorem map_fst_mapNamesBindings (bs : List (Name × Expr α)) :
    (mapNamesBindings f bs).map (·.1) = (bs.map (·.1)).map f := by
  rw [mapNamesBindings_eq_map, List.map_map, List.map_map]
  rfl

@[simp] theorem map_name_mapNamesMembers (ms : List (Member α (Expr α))) :
    (mapNamesMembers f ms).map (·.name) = (ms.map (·.name)).map f := by
  rw [mapNamesMembers_eq_map, List.map_map, List.map_map]
  rfl

@[simp] theorem map_tag_mapNamesMembers (ms : List (Member α (Expr α))) :
    (mapNamesMembers f ms).map (·.tag) = ms.map (·.tag) := by
  rw [mapNamesMembers_eq_map, List.map_map]
  rfl

/-! ### Passes that do not look at names -/

theorem recoverLet_mapNames (e : Expr α) :
    (e.mapNames f).recoverLet = e.recoverLet.mapNames f := by
  have hlist {es : List (Expr α)}
      (h : ∀ e ∈ es, (e.mapNames f).recoverLet = e.recoverLet.mapNames f) :
      recoverLetList (mapNamesList f es) = mapNamesList f (recoverLetList es) := by
    simp only [recoverLetList_eq_map, mapNamesList_eq_map, List.map_map]
    exact List.map_congr_left h
  have hbindings {bs : List (Name × Expr α)}
      (h : ∀ b ∈ bs, (b.2.mapNames f).recoverLet = b.2.recoverLet.mapNames f) :
      recoverLetBindings (mapNamesBindings f bs) = mapNamesBindings f (recoverLetBindings bs) := by
    simp only [recoverLetBindings_eq_map, mapNamesBindings_eq_map, List.map_map]
    exact List.map_congr_left fun b hb => Prod.ext rfl (h b hb)
  induction e with
  | lit v t => rfl
  | var x t => rfl
  | cond test yes no t htest hyes hno => simp only [mapNames, recoverLet, htest, hyes, hno]
  | lambda params body t hbody => simp only [mapNames, recoverLet, hbody]
  | assign x value t hvalue => simp only [mapNames, recoverLet, hvalue]
  | app func args t hfunc hargs =>
    by_cases hlambda : ∃ params body t', func = lambda params body t' ∧ params.length = args.length
    · obtain ⟨params, body, t', rfl, hlen⟩ := hlambda
      have hlen' : (params.map f).length = (mapNamesList f args).length := by simpa using hlen
      simp only [mapNames, recoverLet, lambda.injEq, true_and, and_true] at hfunc
      rw [recoverLet_app_lambda body t' t hlen, mapNames, mapNames,
        recoverLet_app_lambda (body.mapNames f) t' t hlen', mapNames, hfunc, hlist hargs,
        mapNamesList_eq_map, mapNamesBindings_eq_map, List.zip_map]
      rfl
    · have hkept : ∀ params body t', func.mapNames f = lambda params body t' →
          params.length ≠ (mapNamesList f args).length := by
        intro params body t' hf hlen
        cases func with
        | lambda params' body' t'' =>
          cases hf
          exact hlambda ⟨params', body', t', rfl, by simpa using hlen⟩
        | _ => cases hf
      rw [recoverLet_app t fun params body t' hf hlen => hlambda ⟨params, body, t', hf, hlen⟩,
        mapNames, recoverLet_app t hkept, mapNames, hfunc, hlist hargs]
  | letIn bindings body t hbs hbody => simp only [mapNames, recoverLet, hbindings hbs, hbody]
  | letrec bindings body t hbs hbody => simp only [mapNames, recoverLet, hbindings hbs, hbody]
  | fix members body t hms hbody =>
    have hmembers : recoverLetMembers (mapNamesMembers f members) =
        mapNamesMembers f (recoverLetMembers members) := by
      simp only [recoverLetMembers_eq_map, mapNamesMembers_eq_map, List.map_map]
      exact List.map_congr_left fun m hm => congrArg _ (hms m hm)
    simp only [mapNames, recoverLet, hmembers, hbody]
  | seq items t hitems => simp only [mapNames, recoverLet, hlist hitems]

/-- A tree is fixed the same under other names. -/
def FixedAlike (e : Expr α) : Prop :=
  Emit.Maps (List.map f) (mapNames f) e.fixLetrec (e.mapNames f).fixLetrec

theorem fixedAlike_members_of_bindings {bs : List (Name × Expr α)}
    (h : ∀ b ∈ bs, FixedAlike f b.2) :
    Emit.Maps (List.map f) (mapNamesMembers f) (membersOfBindings bs)
      (membersOfBindings (mapNamesBindings f bs)) := by
  induction bs with
  | nil => exact .pure []
  | cons b bs ih =>
    obtain ⟨x, e⟩ := b
    obtain ⟨hb, hbs⟩ := List.forall_mem_cons.1 h
    cases e with
    | lambda params body t =>
      have hbody : FixedAlike f body := by
        refine hb.of_bind_pure fun body' body'' heq => ?_
        injection heq
      exact hbody.bind fun body' => (ih hbs).bind fun ms => .pure _
    | _ => exact .fail _ _

theorem fixedAlike (e : Expr α) : FixedAlike f e := by
  have hlist {es : List (Expr α)} (h : ∀ e ∈ es, FixedAlike f e) :
      Emit.Maps (List.map f) (mapNamesList f) (fixLetrecList es)
        (fixLetrecList (mapNamesList f es)) := by
    induction es with
    | nil => exact .pure []
    | cons e es ih =>
      obtain ⟨he, hes⟩ := List.forall_mem_cons.1 h
      exact Emit.Maps.bind he fun e' => (ih hes).bind fun es' => .pure _
  have hbindings {bs : List (Name × Expr α)} (h : ∀ b ∈ bs, FixedAlike f b.2) :
      Emit.Maps (List.map f) (mapNamesBindings f) (fixLetrecBindings bs)
        (fixLetrecBindings (mapNamesBindings f bs)) := by
    induction bs with
    | nil => exact .pure []
    | cons b bs ih =>
      obtain ⟨hb, hbs⟩ := List.forall_mem_cons.1 h
      exact Emit.Maps.bind hb fun e' => (ih hbs).bind fun bs' => .pure _
  have hmembers {ms : List (Member α (Expr α))} (h : ∀ m ∈ ms, FixedAlike f m.body) :
      Emit.Maps (List.map f) (mapNamesMembers f) (fixLetrecMembers ms)
        (fixLetrecMembers (mapNamesMembers f ms)) := by
    induction ms with
    | nil => exact .pure []
    | cons m ms ih =>
      obtain ⟨hm, hms⟩ := List.forall_mem_cons.1 h
      exact Emit.Maps.bind hm fun body => (ih hms).bind fun ms' => .pure _
  induction e with
  | lit v t => exact .pure _
  | var x t => exact .pure _
  | cond test yes no t htest hyes hno =>
    exact Emit.Maps.bind htest fun test' => Emit.Maps.bind hyes fun yes' =>
      Emit.Maps.bind hno fun no' => .pure _
  | lambda params body t hbody => exact Emit.Maps.bind hbody fun body' => .pure _
  | assign x value t hvalue => exact Emit.Maps.bind hvalue fun value' => .pure _
  | app func args t hfunc hargs =>
    exact Emit.Maps.bind hfunc fun func' => (hlist hargs).bind fun args' => .pure _
  | letIn bindings body t hbs hbody =>
    exact (hbindings hbs).bind fun bindings' => Emit.Maps.bind hbody fun body' => .pure _
  | letrec bindings body t hbs hbody =>
    have hnames : (mapNamesBindings f bindings).map (·.1) = (bindings.map (·.1)).map f :=
      map_fst_mapNamesBindings f bindings
    simp only [FixedAlike, mapNames, fixLetrec, hnames]
    exact (fixedAlike_members_of_bindings f hbs).bind fun members => (Emit.Maps.emit _).bind
      fun _ => Emit.Maps.bind hbody fun body' => .pure _
  | fix members body t hms hbody =>
    exact (hmembers hms).bind fun members' => Emit.Maps.bind hbody fun body' => .pure _
  | seq items t hitems => exact (hlist hitems).bind fun items' => .pure _

/-- A tree is numbered the same under other names. -/
def NumberedAlike (e : Expr α) : Prop :=
  ∀ n, tagFrom (e.mapNames f) n = ((tagFrom e n).1.mapNames f, (tagFrom e n).2)

theorem numberedAlike (e : Expr α) : NumberedAlike f e := by
  have hlist {es : List (Expr α)} (h : ∀ e ∈ es, NumberedAlike f e) (n : Nat) :
      tagListFrom (mapNamesList f es) n =
        (mapNamesList f (tagListFrom es n).1, (tagListFrom es n).2) := by
    induction es generalizing n with
    | nil => rfl
    | cons e es ih =>
      obtain ⟨he, hes⟩ := List.forall_mem_cons.1 h
      simp only [mapNamesList, tagListFrom, he n, ih hes]
  have hbindings {bs : List (Name × Expr α)} (h : ∀ b ∈ bs, NumberedAlike f b.2) (n : Nat) :
      tagBindingsFrom (mapNamesBindings f bs) n =
        (mapNamesBindings f (tagBindingsFrom bs n).1, (tagBindingsFrom bs n).2) := by
    induction bs generalizing n with
    | nil => rfl
    | cons b bs ih =>
      obtain ⟨hb, hbs⟩ := List.forall_mem_cons.1 h
      simp only [mapNamesBindings, tagBindingsFrom, hb n, ih hbs]
  have hmembers {ms : List (Member α (Expr α))} (h : ∀ m ∈ ms, NumberedAlike f m.body)
      (reserved n : Nat) :
      tagMembersFrom reserved (mapNamesMembers f ms) n =
        (mapNamesMembers f (tagMembersFrom reserved ms n).1, (tagMembersFrom reserved ms n).2) := by
    induction ms generalizing reserved n with
    | nil => rfl
    | cons m ms ih =>
      obtain ⟨hm, hms⟩ := List.forall_mem_cons.1 h
      simp only [mapNamesMembers, tagMembersFrom, hm n, ih hms]
  induction e with
  | lit v t => exact fun n => rfl
  | var x t => exact fun n => rfl
  | cond test yes no t htest hyes hno =>
    intro n
    simp only [mapNames, tagFrom, htest n, hyes _, hno _]
  | lambda params body t hbody =>
    intro n
    simp only [mapNames, tagFrom, hbody n]
  | assign x value t hvalue =>
    intro n
    simp only [mapNames, tagFrom, hvalue n]
  | app func args t hfunc hargs =>
    intro n
    simp only [mapNames, tagFrom, hfunc n, hlist hargs]
  | letIn bindings body t hbs hbody =>
    intro n
    simp only [mapNames, tagFrom, hbindings hbs, hbody _]
  | letrec bindings body t hbs hbody =>
    intro n
    simp only [mapNames, tagFrom, hbindings hbs, hbody _]
  | fix members body t hms hbody =>
    intro n
    simp only [mapNames, tagFrom, length_mapNamesMembers, hmembers hms, hbody _]
  | seq items t hitems =>
    intro n
    simp only [mapNames, tagFrom, hlist hitems]

theorem tagged_mapNames (e : Expr α) : (e.mapNames f).tagged = e.tagged.mapNames f := by
  rw [tagged, numberedAlike f e 0]
  rfl

theorem tailCallsIn_mapNames (target : Option TailTarget) (e : Expr Nat) :
    tailCallsIn target (e.mapNames f) = tailCallsIn target e := by
  have hlist {es : List (Expr Nat)}
      (h : ∀ e ∈ es, ∀ target, tailCallsIn target (e.mapNames f) = tailCallsIn target e) :
      tailCallsList (mapNamesList f es) = tailCallsList es := by
    induction es with
    | nil => rfl
    | cons e es ih =>
      obtain ⟨he, hes⟩ := List.forall_mem_cons.1 h
      simp only [mapNamesList, tailCallsList, he none, ih hes]
  have hseq {es : List (Expr Nat)}
      (h : ∀ e ∈ es, ∀ target, tailCallsIn target (e.mapNames f) = tailCallsIn target e)
      (target : Option TailTarget) :
      tailCallsSeq target (mapNamesList f es) = tailCallsSeq target es := by
    induction es with
    | nil => rfl
    | cons e es ih =>
      obtain ⟨he, hes⟩ := List.forall_mem_cons.1 h
      cases es with
      | nil => simp only [mapNamesList, tailCallsSeq, he target]
      | cons e' es =>
        have hrest := ih hes
        simp only [mapNamesList] at hrest
        simp only [mapNamesList, tailCallsSeq, he none, hrest]
  have hbindings {bs : List (Name × Expr Nat)}
      (h : ∀ b ∈ bs, ∀ target, tailCallsIn target (b.2.mapNames f) = tailCallsIn target b.2) :
      tailCallsBindings (mapNamesBindings f bs) = tailCallsBindings bs := by
    induction bs with
    | nil => rfl
    | cons b bs ih =>
      obtain ⟨hb, hbs⟩ := List.forall_mem_cons.1 h
      simp only [mapNamesBindings, tailCallsBindings, hb none, ih hbs]
  have hmembers {ms : List (Member Nat (Expr Nat))}
      (h : ∀ m ∈ ms, ∀ target, tailCallsIn target (m.body.mapNames f) = tailCallsIn target m.body) :
      tailCallsMembers (mapNamesMembers f ms) = tailCallsMembers ms := by
    induction ms with
    | nil => rfl
    | cons m ms ih =>
      obtain ⟨hm, hms⟩ := List.forall_mem_cons.1 h
      simp only [mapNamesMembers, tailCallsMembers, List.length_map, hm _, ih hms]
  induction e generalizing target with
  | lit v t => rfl
  | var x t => rfl
  | cond test yes no t htest hyes hno => simp only [mapNames, tailCallsIn, htest, hyes, hno]
  | lambda params body t hbody => simp only [mapNames, tailCallsIn, List.length_map, hbody]
  | assign x value t hvalue => simp only [mapNames, tailCallsIn, hvalue]
  | app func args t hfunc hargs =>
    simp only [mapNames, tailCallsIn, hfunc, hlist fun e he target => hargs e he target]
  | letIn bindings body t hbs hbody =>
    simp only [mapNames, tailCallsIn, length_mapNamesBindings, hbody,
      hbindings fun b hb target => hbs b hb target]
  | letrec bindings body t hbs hbody =>
    simp only [mapNames, tailCallsIn, length_mapNamesBindings, hbody,
      hbindings fun b hb target => hbs b hb target]
  | fix members body t hms hbody =>
    simp only [mapNames, tailCallsIn, length_mapNamesMembers, hbody,
      hmembers fun m hm target => hms m hm target]
  | seq items t hitems =>
    simp only [mapNames, tailCallsIn, hseq fun e he target => hitems e he target]

theorem escapingIn_mapNames (types : TypeTable) (e : Expr Nat) :
    escapingIn types (e.mapNames f) = escapingIn types e := by
  have hlist {es : List (Expr Nat)}
      (h : ∀ e ∈ es, escapingIn types (e.mapNames f) = escapingIn types e) :
      escapingList types (mapNamesList f es) = escapingList types es := by
    induction es with
    | nil => rfl
    | cons e es ih =>
      obtain ⟨he, hes⟩ := List.forall_mem_cons.1 h
      simp only [mapNamesList, escapingList, he, ih hes]
  have hbindings {bs : List (Name × Expr Nat)}
      (h : ∀ b ∈ bs, escapingIn types (b.2.mapNames f) = escapingIn types b.2) :
      escapingBindings types (mapNamesBindings f bs) = escapingBindings types bs := by
    induction bs with
    | nil => rfl
    | cons b bs ih =>
      obtain ⟨hb, hbs⟩ := List.forall_mem_cons.1 h
      simp only [mapNamesBindings, escapingBindings, hb, ih hbs]
  have hmembers {ms : List (Member Nat (Expr Nat))}
      (h : ∀ m ∈ ms, escapingIn types (m.body.mapNames f) = escapingIn types m.body) :
      escapingMembers types (mapNamesMembers f ms) = escapingMembers types ms := by
    induction ms with
    | nil => rfl
    | cons m ms ih =>
      obtain ⟨hm, hms⟩ := List.forall_mem_cons.1 h
      simp only [mapNamesMembers, escapingMembers, hm, ih hms]
  induction e with
  | lit v t => rfl
  | var x t => rfl
  | cond test yes no t htest hyes hno => simp only [mapNames, escapingIn, htest, hyes, hno]
  | lambda params body t hbody => simp only [mapNames, escapingIn, hbody]
  | assign x value t hvalue => simp only [mapNames, escapingIn, hvalue]
  | app func args t hfunc hargs => simp only [mapNames, escapingIn, hfunc, hlist hargs]
  | letIn bindings body t hbs hbody => simp only [mapNames, escapingIn, hbindings hbs, hbody]
  | letrec bindings body t hbs hbody => simp only [mapNames, escapingIn, hbindings hbs, hbody]
  | fix members body t hms hbody => simp only [mapNames, escapingIn, hmembers hms, hbody]
  | seq items t hitems => simp only [mapNames, escapingIn, hlist hitems]

end Expr

/-! ### Passes that compare names -/

/-- A change of names that keeps different names different and leaves primitives alone. -/
structure Respelling where
  toFun : Name → Name
  injective : Function.Injective toFun
  fixes : ∀ p : Primitive, toFun p.name = p.name

instance : CoeFun Respelling fun _ => Name → Name :=
  ⟨Respelling.toFun⟩

namespace Respelling

variable (σ : Respelling)

theorem ofName?_apply (x : Name) : Primitive.ofName? (σ x) = Primitive.ofName? x := by
  cases h : Primitive.ofName? x with
  | some p =>
    rw [← Primitive.name_of_ofName? h, σ.fixes]
    exact Primitive.ofName?_name p
  | none =>
    cases h' : Primitive.ofName? (σ x) with
    | none => rfl
    | some p =>
      have hname : σ p.name = σ x := (σ.fixes p).trans (Primitive.name_of_ofName? h')
      rw [← σ.injective hname, Primitive.ofName?_name] at h
      exact nomatch h

theorem map_names : Primitive.names.map σ = Primitive.names := by
  rw [Primitive.names, List.map_map]
  exact List.map_congr_left fun p _ => σ.fixes p

theorem mem_map_iff {x : Name} {xs : List Name} : σ x ∈ xs.map σ ↔ x ∈ xs :=
  List.mem_map_of_injective σ.injective

theorem idxOf?_map (x : Name) (xs : List Name) : (xs.map σ).idxOf? (σ x) = xs.idxOf? x := by
  induction xs with
  | nil => rfl
  | cons y xs ih => simp only [List.map_cons, List.idxOf?_cons, beq_iff_eq, σ.injective.eq_iff, ih]

theorem beq_apply (x y : Name) : (σ x == σ y) = (x == y) := by
  rw [Bool.beq_eq_decide_eq, Bool.beq_eq_decide_eq, decide_eq_decide]
  exact σ.injective.eq_iff

theorem lookup_map {β : Type} (x : Name) (bs : List (Name × β)) :
    (bs.map (Prod.map σ id)).lookup (σ x) = bs.lookup x := by
  induction bs with
  | nil => rfl
  | cons b bs ih =>
    obtain ⟨y, v⟩ := b
    simp only [List.map_cons, Prod.map_apply, id_eq, List.lookup_cons, beq_apply, ih]

theorem eraseDups_map : ∀ xs : List Name, (xs.map σ).eraseDups = xs.eraseDups.map σ
  | [] => rfl
  | x :: xs => by
    have hrest := eraseDups_map (xs.filter fun y => !y == x)
    have hfilter : (xs.map σ).filter (fun y => !y == σ x) =
        (xs.filter fun y => !y == x).map σ := by
      rw [List.filter_map]
      congr 2
      funext y
      exact congrArg not (σ.beq_apply y x)
    rw [List.map_cons, List.eraseDups_cons, List.eraseDups_cons, List.map_cons, hfilter, hrest]
termination_by xs => xs.length
decreasing_by exact Nat.lt_succ_of_le (List.length_filter_le ..)

end Respelling

namespace Expr

variable {α : Type} (σ : Respelling)

theorem freeOccurrencesMembers_mapNames {ms : List (Member α (Expr α))} (bound : List Name)
    (h : ∀ m ∈ ms, ∀ bound,
      freeOccurrences (bound.map σ) (m.body.mapNames σ) = (freeOccurrences bound m.body).map σ) :
    freeOccurrencesMembers (bound.map σ) (mapNamesMembers σ ms) =
      (freeOccurrencesMembers bound ms).map σ := by
  induction ms with
  | nil => rfl
  | cons m ms ih =>
    obtain ⟨hm, hms⟩ := List.forall_mem_cons.1 h
    simp only [mapNamesMembers, freeOccurrencesMembers, ← List.map_append, hm _, ih hms]

theorem freeOccurrences_mapNames (bound : List Name) (e : Expr α) :
    freeOccurrences (bound.map σ) (e.mapNames σ) = (freeOccurrences bound e).map σ := by
  have hlist {es : List (Expr α)} (bound : List Name)
      (h : ∀ e ∈ es, ∀ bound,
        freeOccurrences (bound.map σ) (e.mapNames σ) = (freeOccurrences bound e).map σ) :
      freeOccurrencesList (bound.map σ) (mapNamesList σ es) =
        (freeOccurrencesList bound es).map σ := by
    induction es with
    | nil => rfl
    | cons e es ih =>
      obtain ⟨he, hes⟩ := List.forall_mem_cons.1 h
      simp only [mapNamesList, freeOccurrencesList, he bound, ih hes, List.map_append]
  have hbindings {bs : List (Name × Expr α)} (bound : List Name)
      (h : ∀ b ∈ bs, ∀ bound,
        freeOccurrences (bound.map σ) (b.2.mapNames σ) = (freeOccurrences bound b.2).map σ) :
      freeOccurrencesBindings (bound.map σ) (mapNamesBindings σ bs) =
        (freeOccurrencesBindings bound bs).map σ := by
    induction bs with
    | nil => rfl
    | cons b bs ih =>
      obtain ⟨hb, hbs⟩ := List.forall_mem_cons.1 h
      simp only [mapNamesBindings, freeOccurrencesBindings, hb bound, ih hbs, List.map_append]
  have hone (bound : List Name) (x : Name) :
      (if σ x ∈ bound.map σ then [] else [σ x]) = (if x ∈ bound then [] else [x]).map σ := by
    simp only [σ.mem_map_iff]
    split <;> rfl
  induction e generalizing bound with
  | lit v t => rfl
  | var x t => simp only [mapNames, freeOccurrences, hone]
  | cond test yes no t htest hyes hno =>
    simp only [mapNames, freeOccurrences, htest, hyes, hno, List.map_append]
  | lambda params body t hbody =>
    simp only [mapNames, freeOccurrences, ← List.map_append, hbody]
  | assign x value t hvalue => simp only [mapNames, freeOccurrences, hone, hvalue, List.map_append]
  | app func args t hfunc hargs =>
    simp only [mapNames, freeOccurrences, hfunc, List.map_append,
      hlist bound fun e he bound => hargs e he bound]
  | letIn bindings body t hbs hbody =>
    simp only [mapNames, freeOccurrences, map_fst_mapNamesBindings, ← List.map_append, hbody,
      hbindings bound fun b hb bound => hbs b hb bound]
  | letrec bindings body t hbs hbody =>
    simp only [mapNames, freeOccurrences, map_fst_mapNamesBindings, ← List.map_append, hbody,
      hbindings _ fun b hb bound => hbs b hb bound]
  | fix members body t hms hbody =>
    simp only [mapNames, freeOccurrences, map_name_mapNamesMembers, ← List.map_append, hbody,
      freeOccurrencesMembers_mapNames σ _ fun m hm bound => hms m hm bound]
  | seq items t hitems =>
    simp only [mapNames, freeOccurrences, hlist bound fun e he bound => hitems e he bound]

theorem free_mapNames (bound : List Name) (e : Expr α) :
    (e.mapNames σ).free (bound.map σ) = (e.free bound).map σ := by
  rw [free, freeOccurrences_mapNames, σ.eraseDups_map, free]

theorem freeMembers_mapNames (bound : List Name) (ms : List (Member α (Expr α))) :
    freeMembers (bound.map σ) (mapNamesMembers σ ms) = (freeMembers bound ms).map σ := by
  rw [freeMembers, freeOccurrencesMembers_mapNames σ bound fun m _ bound =>
    freeOccurrences_mapNames σ bound m.body, σ.eraseDups_map, freeMembers]

end Expr

/-! ### Types -/

/-- The same state of inference under other names. -/
def InferState.mapNames (σ : Respelling) (s : InferState) : InferState :=
  ⟨s.next, s.unknown.map (Prod.map σ id)⟩

/-- The same scope under other names. -/
def TypeScope.mapNames (σ : Respelling) (scope : TypeScope) : TypeScope :=
  scope.map (Prod.map σ id)

namespace InferM

variable {β γ : Type} (σ : Respelling)

/-- Two computations that do the same under other names. -/
def Commutes (m m' : InferM β) : Prop :=
  ∀ s : InferState, m' (s.mapNames σ) = (m s).map (Prod.map id (InferState.mapNames σ))

variable {σ} {m m' : InferM β} {k k' : β → InferM γ}

theorem Commutes.pure (b : β) : Commutes σ (pure b) (pure b) :=
  fun _ => rfl

theorem Commutes.throw (e : Error) : Commutes σ (throw e : InferM β) (throw e) :=
  fun _ => rfl

theorem Commutes.bind (h : Commutes σ m m') (hk : ∀ b, Commutes σ (k b) (k' b)) :
    Commutes σ (m >>= k) (m' >>= k') := by
  intro s
  show (m' (s.mapNames σ) >>= fun r => k' r.1 r.2) =
    (m s >>= fun r => k r.1 r.2).map (Prod.map id (InferState.mapNames σ))
  rw [h s]
  cases m s with
  | error e => rfl
  | ok r => exact hk r.1 r.2

theorem commutes_fresh : Commutes σ fresh fresh :=
  fun _ => rfl

theorem commutes_freshFor (xs : List Name) : Commutes σ (freshFor xs) (freshFor (xs.map σ)) := by
  induction xs with
  | nil => exact .pure []
  | cons x xs ih => exact commutes_fresh.bind fun ty => ih.bind fun tys => .pure _

theorem commutes_typeOfName (scope : TypeScope) (x : Name) :
    Commutes σ (typeOfName scope x) (typeOfName (scope.mapNames σ) (σ x)) := by
  have hscope : (scope.mapNames σ).lookup (σ x) = scope.lookup x := σ.lookup_map x scope
  unfold typeOfName
  rw [hscope, σ.ofName?_apply]
  cases scope.lookup x with
  | some ty => exact .pure ty
  | none =>
    cases Primitive.ofName? x with
    | some p => exact fun _ => rfl
    | none =>
      intro s
      have hunknown : (s.mapNames σ).unknown.lookup (σ x) = s.unknown.lookup x :=
        σ.lookup_map x s.unknown
      simp only [bind, StateT.bind, get, getThe, MonadStateOf.get, StateT.get, pure, Except.pure,
        Except.bind, hunknown]
      cases s.unknown.lookup x <;> rfl

end InferM

theorem TypeScope.enter_mapNames (σ : Respelling) (scope : TypeScope) (xs : List Name)
    (tys : List Ty) :
    (scope.mapNames σ).enter (xs.map σ) tys = (scope.enter xs tys).mapNames σ := by
  have hzip : (xs.map σ).zip tys = (xs.zip tys).map (Prod.map σ id) := by
    rw [← List.zip_map, List.map_id]
  rw [enter, enter, mapNames, mapNames, hzip, List.map_append, List.map_reverse]

namespace Expr

open InferM

variable (σ : Respelling)

/-- A tree is annotated the same under other names. -/
def AnnotatedAlike (e : Expr Nat) : Prop :=
  ∀ scope : TypeScope,
    Commutes σ (annotate scope e) (annotate (scope.mapNames σ) (e.mapNames σ))

theorem annotatedAlike (e : Expr Nat) : AnnotatedAlike σ e := by
  have hlist {es : List (Expr Nat)} (h : ∀ e ∈ es, AnnotatedAlike σ e) (scope : TypeScope) :
      Commutes σ (annotateList scope es)
        (annotateList (scope.mapNames σ) (mapNamesList σ es)) := by
    induction es with
    | nil => exact .pure _
    | cons e es ih =>
      obtain ⟨he, hes⟩ := List.forall_mem_cons.1 h
      exact (he scope).bind fun first => (ih hes).bind fun rest => .pure _
  have hbindings {bs : List (Name × Expr Nat)} (h : ∀ b ∈ bs, AnnotatedAlike σ b.2)
      (scope : TypeScope) :
      Commutes σ (annotateBindings scope bs)
        (annotateBindings (scope.mapNames σ) (mapNamesBindings σ bs)) := by
    induction bs with
    | nil => exact .pure _
    | cons b bs ih =>
      obtain ⟨hb, hbs⟩ := List.forall_mem_cons.1 h
      exact (hb scope).bind fun first => (ih hbs).bind fun rest => .pure _
  have hmembers {ms : List (Member Nat (Expr Nat))} (h : ∀ m ∈ ms, AnnotatedAlike σ m.body)
      (scope : TypeScope) :
      Commutes σ (annotateMembers scope ms)
        (annotateMembers (scope.mapNames σ) (mapNamesMembers σ ms)) := by
    induction ms with
    | nil => exact .pure _
    | cons m ms ih =>
      obtain ⟨hm, hms⟩ := List.forall_mem_cons.1 h
      simp only [mapNamesMembers, annotateMembers, TypeScope.enter_mapNames]
      exact (commutes_freshFor _).bind fun tys => (hm _).bind fun body => (ih hms).bind fun rest =>
        .pure _
  induction e with
  | lit v t => exact fun scope => .pure _
  | var x t => exact fun scope => (commutes_typeOfName scope x).bind fun ty => .pure _
  | cond test yes no t htest hyes hno =>
    intro scope
    exact (htest scope).bind fun test' => (hyes scope).bind fun yes' => (hno scope).bind fun no' =>
      commutes_fresh.bind fun ty => .pure _
  | lambda params body t hbody =>
    intro scope
    simp only [mapNames, annotate, TypeScope.enter_mapNames]
    exact (commutes_freshFor params).bind fun tys => (hbody _).bind fun body' => .pure _
  | assign x value t hvalue => exact fun scope => .throw _
  | app func args t hfunc hargs =>
    intro scope
    exact (hfunc scope).bind fun func' => (hlist hargs scope).bind fun args' =>
      commutes_fresh.bind fun ty => .pure _
  | letIn bindings body t hbs hbody =>
    intro scope
    simp only [mapNames, annotate, map_fst_mapNamesBindings, TypeScope.enter_mapNames]
    exact (hbindings hbs scope).bind fun inits => (hbody _).bind fun body' =>
      commutes_fresh.bind fun ty => .pure _
  | letrec bindings body t hbs hbody => exact fun scope => .throw _
  | fix members body t hms hbody =>
    intro scope
    simp only [mapNames, annotate, map_name_mapNamesMembers, map_tag_mapNamesMembers,
      TypeScope.enter_mapNames]
    exact (commutes_freshFor _).bind fun tys => (hmembers hms _).bind fun procs =>
      (hbody _).bind fun body' => commutes_fresh.bind fun ty => .pure _
  | seq items t hitems =>
    intro scope
    refine (hlist hitems scope).bind fun items' => ?_
    cases items'.tys.getLast? with
    | some ty => exact .pure _
    | none => exact .throw _

theorem ofExpr_mapNames (e : Expr Nat) :
    TypingProblem.ofExpr (e.mapNames σ) = TypingProblem.ofExpr e := by
  have halike : (e.mapNames σ).annotate [] ⟨0, []⟩ =
      (e.annotate [] ⟨0, []⟩).map (Prod.map id (InferState.mapNames σ)) :=
    annotatedAlike σ e [] ⟨0, []⟩
  unfold TypingProblem.ofExpr StateT.run
  rw [halike]
  cases e.annotate [] ⟨0, []⟩ <;> rfl

end Expr

/-! ### Code -/

namespace Frame

/-- The same frame under other names. -/
def mapNames (σ : Respelling) (f : Frame) : Frame :=
  ⟨f.params.map σ, f.temps.map (Prod.map σ id), f.captured.map σ, f.group.map (Prod.map σ id),
    f.height⟩

variable (σ : Respelling) (f : Frame)

theorem reference_mapNames (x : Name) :
    Results.Maps id (f.reference x) ((f.mapNames σ).reference (σ x)) := by
  simp only [reference, mapNames, σ.idxOf?_map, σ.lookup_map, σ.ofName?_apply]
  cases f.params.idxOf? x with
  | some i => exact .ok _
  | none =>
    cases f.temps.lookup x with
    | some slot => exact .ok _
    | none =>
      cases f.captured.idxOf? x with
      | some i => exact .ok _
      | none =>
        cases Primitive.ofName? x with
        | some p => exact .ok _
        | none =>
          cases f.group.lookup x with
          | some l => exact .ok _
          | none => exact .error _ _

theorem pushNames_mapNames (xs : List Name) :
    Results.Maps id (f.pushNames xs) ((f.mapNames σ).pushNames (xs.map σ)) := by
  induction xs with
  | nil => exact .ok []
  | cons x xs ih => exact (f.reference_mapNames σ x).bind fun i => ih.bind fun rest => .ok _

theorem closeMembers_mapNames (captured : List Name) (ms : List (Name × Label)) :
    Results.Maps (Prod.map id (mapNames σ)) (f.closeMembers captured ms)
      ((f.mapNames σ).closeMembers (captured.map σ) (ms.map (Prod.map σ id))) := by
  induction ms generalizing f with
  | nil => exact .ok ([], f)
  | cons m ms ih =>
    obtain ⟨x, l⟩ := m
    simp only [List.map_cons, Prod.map_apply, id_eq, closeMembers, List.length_map]
    refine (f.pushNames_mapNames σ captured).bind fun values => (ih (f.bind x)).bind ?_
    rintro ⟨rest, f'⟩
    exact .ok (_, f')

end Frame

namespace Expr

variable (σ : Respelling)

theorem groupLabels_mapNames (ms : List (Member Nat (Expr Nat))) :
    groupLabels (mapNamesMembers σ ms) = (groupLabels ms).map (Prod.map σ id) := by
  rw [groupLabels, groupLabels, mapNamesMembers_eq_map, List.map_map, List.map_map]
  rfl

/-- A tree has the same code under other names. -/
def GeneratedAlike (calls : List TailCall) (e : Expr Nat) : Prop :=
  ∀ (f : Frame) (ctx : Context),
    Emit.Maps id id (gen calls f ctx e) (gen calls (f.mapNames σ) ctx (e.mapNames σ))

variable {calls : List TailCall}

theorem generatedAlike_args {es : List (Expr Nat)} (h : ∀ e ∈ es, GeneratedAlike σ calls e)
    (f : Frame) :
    Emit.Maps id id (genArgs calls f es) (genArgs calls (f.mapNames σ) (mapNamesList σ es)) := by
  induction es with
  | nil => exact .pure []
  | cons e es ih =>
    obtain ⟨he, hes⟩ := List.forall_mem_cons.1 h
    simp only [mapNamesList, genArgs, length_mapNamesList]
    exact (ih hes).bind fun rest => (he (f.raise es.length) .value).bind fun first => .pure _

theorem generatedAlike_bindings {bs : List (Name × Expr Nat)}
    (h : ∀ b ∈ bs, GeneratedAlike σ calls b.2) (f : Frame) :
    Emit.Maps id (Prod.map id (Frame.mapNames σ)) (genBindings calls f bs)
      (genBindings calls (f.mapNames σ) (mapNamesBindings σ bs)) := by
  induction bs generalizing f with
  | nil => exact .pure ([], f)
  | cons b bs ih =>
    obtain ⟨x, e⟩ := b
    obtain ⟨hb, hbs⟩ := List.forall_mem_cons.1 h
    refine (hb f .value).bind fun first => (ih hbs (f.bind x)).bind ?_
    rintro ⟨rest, f'⟩
    exact .pure (_, f')

theorem generatedAlike_members {ms : List (Member Nat (Expr Nat))}
    (h : ∀ m ∈ ms, GeneratedAlike σ calls m.body) (captured : List Name)
    (group : List (Name × Label)) :
    Emit.Maps id id (genMembers calls captured group ms)
      (genMembers calls (captured.map σ) (group.map (Prod.map σ id)) (mapNamesMembers σ ms)) := by
  induction ms with
  | nil => exact .pure ()
  | cons m ms ih =>
    obtain ⟨x, t, params, body⟩ := m
    obtain ⟨hm, hms⟩ := List.forall_mem_cons.1 h
    simp only [mapNamesMembers, genMembers, List.length_map]
    exact (hm (.ofProcedure params captured group) (.tail params.length)).bind fun code =>
      (Emit.Maps.emit _).bind fun _ => ih hms

theorem generatedAlike_seq {es : List (Expr Nat)} (h : ∀ e ∈ es, GeneratedAlike σ calls e)
    (f : Frame) (ctx : Context) :
    Emit.Maps id id (genSeq calls f ctx es)
      (genSeq calls (f.mapNames σ) ctx (mapNamesList σ es)) := by
  induction es with
  | nil => exact .fail _ _
  | cons e es ih =>
    obtain ⟨he, hes⟩ := List.forall_mem_cons.1 h
    cases es with
    | nil => exact he f ctx
    | cons e' es => exact (he f .value).bind fun first => (ih hes).bind fun rest => .pure _

theorem generatedAlike (calls : List TailCall) (e : Expr Nat) : GeneratedAlike σ calls e := by
  induction e with
  | lit v t => exact fun f ctx => .pure _
  | var x t => exact fun f ctx => (Emit.Maps.lift (f.reference_mapNames σ x)).bind fun i => .pure _
  | cond test yes no t htest hyes hno =>
    intro f ctx
    refine (htest f .value).bind fun test' => (hyes f ctx).bind fun yes' =>
      (hno f ctx).bind fun no' => ?_
    cases ctx with
    | value => exact .pure _
    | tail cells => exact .pure _
  | lambda params body t hbody =>
    intro f ctx
    have hcaptured : (body.mapNames σ).free (params.map σ ++ Primitive.names) =
        (body.free (params ++ Primitive.names)).map σ := by
      rw [← free_mapNames, List.map_append, σ.map_names]
    simp only [mapNames, gen, hcaptured, List.length_map]
    refine (Emit.Maps.lift (f.pushNames_mapNames σ _)).bind fun values => ?_
    refine (hbody (.ofProcedure params _ []) (.tail params.length)).bind fun code => ?_
    exact (Emit.Maps.emit _).bind fun _ => .pure _
  | assign x value t hvalue => exact fun f ctx => .fail _ _
  | app func args t hfunc hargs =>
    intro f ctx
    simp only [mapNames, gen, length_mapNamesList]
    cases calls.find? (·.app = t) with
    | some call =>
      exact (generatedAlike_args σ hargs f).bind fun pushed =>
        (hfunc (f.raise args.length) .value).bind fun func' => .pure _
    | none =>
      exact (generatedAlike_args σ hargs (f.raise 3)).bind fun pushed =>
        (hfunc (f.raise (3 + args.length)) .value).bind fun func' => .pure _
  | letIn bindings body t hbs hbody =>
    intro f ctx
    simp only [mapNames, gen, length_mapNamesBindings]
    refine (generatedAlike_bindings σ hbs f).bind ?_
    rintro ⟨inits, f'⟩
    exact (hbody f' (ctx.deeper bindings.length)).bind fun body' => .pure _
  | letrec bindings body t hbs hbody => exact fun f ctx => .fail _ _
  | fix members body t hms hbody =>
    intro f ctx
    have hcaptured : freeMembers ((members.map (·.name)).map σ ++ Primitive.names)
        (mapNamesMembers σ members) =
          (freeMembers (members.map (·.name) ++ Primitive.names) members).map σ := by
      rw [← freeMembers_mapNames, List.map_append, σ.map_names]
    simp only [mapNames, gen, map_name_mapNamesMembers, hcaptured, groupLabels_mapNames,
      length_mapNamesMembers, ← List.map_reverse]
    refine (generatedAlike_members σ hms _ _).bind fun _ => ?_
    refine (Emit.Maps.lift (f.closeMembers_mapNames σ _ _)).bind ?_
    rintro ⟨closures, f'⟩
    exact (hbody f' (ctx.deeper members.length)).bind fun body' => .pure _
  | seq items t hitems => exact fun f ctx => generatedAlike_seq σ hitems f ctx

theorem assemble_mapNames (calls : List TailCall) (e : Expr Nat) :
    Results.Maps id (e.assemble calls) ((e.mapNames σ).assemble calls) := by
  have hmain : Emit.Maps id id (e.genMain calls) ((e.mapNames σ).genMain calls) :=
    (generatedAlike σ calls e .main .value).bind fun code => .pure _
  have hblocks : ((e.mapNames σ).genMain calls).emitted = (e.genMain calls).emitted :=
    hmain.emitted.trans (List.map_id _)
  refine hmain.result.map fun main => ?_
  rw [hblocks]
  rfl

end Expr

end MiniScheme
