import MiniScheme.Expr.Read
import MiniScheme.Proofs.Depth
import MiniScheme.Proofs.Parsing
import MiniScheme.Proofs.Results

/-!
# Trees that are read

Every list of a program text becomes at most two nested nodes of the tree, its form and a sequence
for its body, so a tree that is read is at most twice as deep as its text. No sequence in it is
empty.
-/

namespace MiniScheme.Expr

open Datum Results

/-- Read from the items of one list: an item, or several items as a sequence. -/
def ReadBody (P : Expr Unit → Prop) (e : Expr Unit) : Prop :=
  P e ∨ ∃ es t, e = seq es t ∧ es ≠ [] ∧ ∀ d ∈ es, P d

section

variable {D : Datum → Prop} {P : Expr Unit → Prop}
  (hread : ∀ d e, D d → ofDatum d = .ok e → P e)

include hread

theorem forall_of_ofData {ds : List Datum} {es : List (Expr Unit)} (hds : ∀ d ∈ ds, D d)
    (h : ofData ds = .ok es) : ∀ e ∈ es, P e := by
  induction ds generalizing es with
  | nil =>
    cases h
    exact nofun
  | cons d ds ih =>
    obtain ⟨hd, hds⟩ := List.forall_mem_cons.1 hds
    simp only [ofData, Results.bind_eq_ok_iff, pure, Except.pure, Except.ok.injEq] at h
    obtain ⟨e, he, es, hes, rfl⟩ := h
    exact List.forall_mem_cons.2 ⟨hread d e hd he, ih hds hes⟩

theorem readBody_of_ofBody {o : Nat} {ds : List Datum} {e : Expr Unit} (hds : ∀ d ∈ ds, D d)
    (h : ofBody o ds = .ok e) : ReadBody P e := by
  match ds with
  | [] => cases h
  | [d] => exact .inl (hread d e (hds d (List.mem_singleton_self d)) h)
  | d :: d' :: ds =>
    simp only [ofBody, Results.bind_eq_ok_iff, pure, Except.pure, Except.ok.injEq] at h
    obtain ⟨e, he, e', he', es, hes, rfl⟩ := h
    simp only [List.forall_mem_cons] at hds
    refine .inr ⟨_, (), rfl, by simp, ?_⟩
    simp only [List.forall_mem_cons]
    exact ⟨hread d e hds.1 he, hread d' e' hds.2.1 he',
      forall_of_ofData hread hds.2.2 hes⟩

variable (hitem : ∀ {items o}, D (.list items o) → ∀ d ∈ items, D d)

include hitem

theorem forall_of_ofBindings {ds : List Datum} {bs : List (Name × Expr Unit)}
    (hds : ∀ d ∈ ds, D d) (h : ofBindings ds = .ok bs) : ∀ b ∈ bs, P b.2 := by
  induction ds generalizing bs with
  | nil =>
    cases h
    exact nofun
  | cons d ds ih =>
    obtain ⟨hd, htail⟩ := List.forall_mem_cons.1 hds
    match d with
    | .atom a o => simp [ofBindings] at h
    | .list [x, init] o =>
      simp only [ofBindings, Results.bind_eq_ok_iff, pure, Except.pure, Except.ok.injEq] at h
      obtain ⟨name, _, e, he, bs, hbs, rfl⟩ := h
      exact List.forall_mem_cons.2 ⟨hread init e (hitem hd init (by simp)) he, ih htail hbs⟩
    | .list [] o => simp [ofBindings] at h
    | .list [x] o => simp [ofBindings] at h
    | .list (x :: y :: z :: items) o => simp [ofBindings] at h

theorem forall_of_ofMembers {ds : List Datum} {ms : List (Member Unit (Expr Unit))}
    (hds : ∀ d ∈ ds, D d) (h : ofMembers ds = .ok ms) : ∀ m ∈ ms, ReadBody P m.body := by
  induction ds generalizing ms with
  | nil =>
    cases h
    exact nofun
  | cons d ds ih =>
    obtain ⟨hd, htail⟩ := List.forall_mem_cons.1 hds
    match d with
    | .atom a o => simp [ofMembers] at h
    | .list (x :: params :: items) o =>
      simp only [ofMembers, Results.bind_eq_ok_iff, pure, Except.pure, Except.ok.injEq] at h
      obtain ⟨name, _, names, _, body, hbody, ms, hms, rfl⟩ := h
      have hitems : ∀ d ∈ items, D d := fun d hmem => hitem hd d (by simp [hmem])
      exact List.forall_mem_cons.2 ⟨readBody_of_ofBody hread hitems hbody, ih htail hms⟩
    | .list [] o => simp [ofMembers] at h
    | .list [x] o => simp [ofMembers] at h

/-- The node of a list is no empty sequence, and below it stand items and bodies. -/
theorem children_of_ofDatum {items : List Datum} {o : Nat} {e : Expr Unit}
    (hitems : ∀ d ∈ items, D d) (h : ofDatum (.list items o) = .ok e) :
    (∀ t, e ≠ seq [] t) ∧ ∀ c ∈ e.children, ReadBody P c := by
  cases items with
  | nil => cases h
  | cons head rest =>
    obtain ⟨hhead, hrest⟩ := List.forall_mem_cons.1 hitems
    have hbinding : ∀ {d bs}, D d → ofBindingList d = .ok bs → ∀ b ∈ bs, ReadBody P b.2 := by
      intro d bs hd hbs b hb
      cases d with
      | atom a o => cases hbs
      | list ds o => exact .inl (forall_of_ofBindings hread hitem (hitem hd) hbs b hb)
    have hmember : ∀ {d ms}, D d → ofMemberList d = .ok ms → ∀ m ∈ ms, ReadBody P m.body := by
      intro d ms hd hms m hm
      cases d with
      | atom a o => cases hms
      | list ds o => exact forall_of_ofMembers hread hitem (hitem hd) hms m hm
    cases hk : head.keyword? with
    | none =>
      simp only [ofDatum, hk, Results.bind_eq_ok_iff, pure, Except.pure, Except.ok.injEq] at h
      obtain ⟨func, hfunc, args, hargs, rfl⟩ := h
      refine ⟨by simp, List.forall_mem_cons.2 ⟨.inl (hread head func hhead hfunc), ?_⟩⟩
      exact fun e he => .inl (forall_of_ofData hread hrest hargs e he)
    | some k =>
      unfold ofDatum at h
      rw [hk] at h
      match k, rest with
      | .lambda, [] => cases h
      | .lambda, params :: items =>
        simp only [Results.bind_eq_ok_iff, pure, Except.pure, Except.ok.injEq] at h
        obtain ⟨names, _, body, hbody, rfl⟩ := h
        have hitems := (List.forall_mem_cons.1 hrest).2
        exact ⟨by simp, List.forall_mem_singleton.2 (readBody_of_ofBody hread hitems hbody)⟩
      | .letIn, [] => cases h
      | .letIn, bindings :: items =>
        simp only [Results.bind_eq_ok_iff, pure, Except.pure, Except.ok.injEq] at h
        obtain ⟨bs, hbs, body, hbody, rfl⟩ := h
        obtain ⟨hbindings, hitems⟩ := List.forall_mem_cons.1 hrest
        refine ⟨by simp, List.forall_mem_append.2 ⟨List.forall_mem_map.2 ?_, ?_⟩⟩
        · exact hbinding hbindings hbs
        · exact List.forall_mem_singleton.2 (readBody_of_ofBody hread hitems hbody)
      | .letrec, [] => cases h
      | .letrec, bindings :: items =>
        simp only [Results.bind_eq_ok_iff, pure, Except.pure, Except.ok.injEq] at h
        obtain ⟨bs, hbs, body, hbody, rfl⟩ := h
        obtain ⟨hbindings, hitems⟩ := List.forall_mem_cons.1 hrest
        refine ⟨by simp, List.forall_mem_append.2 ⟨List.forall_mem_map.2 ?_, ?_⟩⟩
        · exact hbinding hbindings hbs
        · exact List.forall_mem_singleton.2 (readBody_of_ofBody hread hitems hbody)
      | .fix, [] => cases h
      | .fix, members :: items =>
        simp only [Results.bind_eq_ok_iff, pure, Except.pure, Except.ok.injEq] at h
        obtain ⟨ms, hms, body, hbody, rfl⟩ := h
        obtain ⟨hmembers, hitems⟩ := List.forall_mem_cons.1 hrest
        refine ⟨by simp, List.forall_mem_append.2 ⟨List.forall_mem_map.2 ?_, ?_⟩⟩
        · exact hmember hmembers hms
        · exact List.forall_mem_singleton.2 (readBody_of_ofBody hread hitems hbody)
      | .cond, [test, yes, no] =>
        simp only [Results.bind_eq_ok_iff, pure, Except.pure, Except.ok.injEq] at h
        obtain ⟨test', htest, yes', hyes, no', hno, rfl⟩ := h
        simp only [List.forall_mem_cons] at hrest
        have h₁ := hread test test' hrest.1 htest
        have h₂ := hread yes yes' hrest.2.1 hyes
        have h₃ := hread no no' hrest.2.2.1 hno
        refine ⟨by simp, ?_⟩
        simp only [children, List.forall_mem_cons]
        exact ⟨.inl h₁, .inl h₂, .inl h₃, fun _ hd => absurd hd List.not_mem_nil⟩
      | .cond, [] => cases h
      | .cond, [_] => cases h
      | .cond, [_, _] => cases h
      | .cond, _ :: _ :: _ :: _ :: _ => cases h
      | .sequence, [] => cases h
      | .sequence, item :: items =>
        simp only [Results.bind_eq_ok_iff, pure, Except.pure, Except.ok.injEq] at h
        obtain ⟨e, he, es, hes, rfl⟩ := h
        obtain ⟨hd, hds⟩ := List.forall_mem_cons.1 hrest
        refine ⟨by simp, List.forall_mem_cons.2 ⟨.inl (hread item e hd he), ?_⟩⟩
        exact fun e he => .inl (forall_of_ofData hread hds hes e he)
      | .assign, [x, value] =>
        simp only [Results.bind_eq_ok_iff, pure, Except.pure, Except.ok.injEq] at h
        obtain ⟨name, _, e, he, rfl⟩ := h
        have hvalue := hread value e (hrest value (by simp)) he
        exact ⟨by simp, List.forall_mem_singleton.2 (.inl hvalue)⟩
      | .assign, [] => cases h
      | .assign, [_] => cases h
      | .assign, _ :: _ :: _ :: _ => cases h

end

/-! ### Depth and sequences -/

/-- A body is one level deeper than its items. -/
theorem deeperThan_of_readBody {n : Nat} {e : Expr Unit}
    (h : ReadBody (·.deeperThan n = false) e) : e.deeperThan (n + 1) = false := by
  rcases h with h | ⟨es, t, rfl, _, hes⟩
  · exact deeperThan_mono h
  · exact deeperThan_succ.2 hes

theorem full_of_readBody {e : Expr Unit} (h : ReadBody Full e) : e.Full := by
  rcases h with h | ⟨es, t, rfl, hne, hes⟩
  · exact h
  · exact everywhere_iff.2 ⟨by simp [hne], hes⟩

theorem deeperThan_of_ofDatum {n : Nat} {d : Datum} {e : Expr Unit} (hd : d.NestedWithin n)
    (h : ofDatum d = .ok e) : e.deeperThan (2 * n) = false := by
  induction n generalizing d e with
  | zero =>
    match d with
    | .atom (.lit v) o => cases h; rfl
    | .atom (.name x) o => cases h; rfl
    | .list items o => cases hd
  | succ n ih =>
    match d with
    | .atom (.lit v) o => cases h; rfl
    | .atom (.name x) o => cases h; rfl
    | .list items o =>
      have hbelow := (children_of_ofDatum (D := NestedWithin n) (fun d e => ih)
        (fun h d hd => h.item hd) hd h).2
      exact deeperThan_succ.2 fun c hc => deeperThan_of_readBody (hbelow c hc)

theorem full_of_ofDatum {n : Nat} {d : Datum} {e : Expr Unit} (hd : d.NestedWithin n)
    (h : ofDatum d = .ok e) : e.Full := by
  induction n generalizing d e with
  | zero =>
    match d with
    | .atom (.lit v) o => cases h; exact everywhere_lit.2 (by simp)
    | .atom (.name x) o => cases h; exact everywhere_var.2 (by simp)
    | .list items o => cases hd
  | succ n ih =>
    match d with
    | .atom (.lit v) o => cases h; exact everywhere_lit.2 (by simp)
    | .atom (.name x) o => cases h; exact everywhere_var.2 (by simp)
    | .list items o =>
      obtain ⟨hroot, hbelow⟩ := children_of_ofDatum (D := NestedWithin n) (fun d e => ih)
        (fun h d hd => h.item hd) hd h
      exact everywhere_iff.2 ⟨hroot, fun c hc => full_of_readBody (hbelow c hc)⟩

theorem read_ok {source : String} {e : Expr Unit} (h : Expr.read source = .ok e) :
    e.deeperThan maxDepth = false ∧ e.Full := by
  rw [Expr.read, Results.bind_eq_ok_iff] at h
  obtain ⟨d, hd, h⟩ := h
  have hnest := nestedWithin_of_ofText hd
  exact ⟨deeperThan_of_ofDatum hnest h, full_of_ofDatum hnest h⟩

/-! ### Failures of reading -/

/-- The error is about program text. -/
def OfText (err : Error) : Prop :=
  ∃ offset fault, err = .read offset fault

theorem OfText.read (offset : Nat) (fault : ReadFault) : OfText (.read offset fault) :=
  ⟨offset, fault, rfl⟩

theorem failsIn_scan (offset : Nat) (cs : List Char) :
    FailsIn OfText (Token.scan offset cs) := by
  fun_induction Token.scan offset cs with
  | case1 => exact .ok _
  | case2 offset c cs hblank ih => exact ih
  | case3 offset cs hblank ih => exact ih
  | case4 offset c cs hblank hcomment hopen ih => exact ih.map
  | case5 offset c cs hblank hcomment hopen hclose ih => exact ih.map
  | case6 offset c cs hblank hcomment hopen hclose word fault => exact .error (.read ..)
  | case7 offset c cs hblank hcomment hopen hclose word a ha ih => exact ih.map

theorem failsIn_parse (fileEnd depth : Nat) (opened : List OpenList) (ts : List Located) :
    FailsIn OfText (parse fileEnd depth opened ts) := by
  fun_induction parse fileEnd depth opened ts with
  | case1 => exact .error (.read ..)
  | case2 => exact .error (.read ..)
  | case3 => exact .ok _
  | case4 depth l ls a o ts ih => exact ih
  | case5 => exact .error (.read ..)
  | case6 => exact .ok _
  | case7 depth l l' ls o ts ih => exact ih
  | case8 => exact .error (.read ..)
  | case9 depth ls o ts hroom ih => exact ih

theorem failsIn_ofText (source : String) : FailsIn OfText (Datum.ofText source) := by
  refine (failsIn_scan 0 _).bind fun ts _ => (failsIn_parse _ 0 [] ts).bind fun r _ => ?_
  obtain ⟨d, rest, depth⟩ := r
  cases rest with
  | nil => exact .ok d
  | cons t rest => exact .error (.read ..)

theorem failsIn_toName (d : Datum) : FailsIn OfText d.toName := by
  match d with
  | .atom (.name x) o => exact .ok x
  | .atom (.lit v) o => exact .error (.read ..)
  | .list items o => exact .error (.read ..)

theorem failsIn_toNames (d : Datum) : FailsIn OfText d.toNames := by
  match d with
  | .atom a o => exact .error (.read ..)
  | .list items o =>
    rw [toNames]
    induction items with
    | nil => exact .ok _
    | cons d ds ih =>
      rw [List.mapM_cons]
      exact (failsIn_toName d).bind fun x _ => ih.bind fun xs _ => .ok _

section

variable {D : Datum → Prop} (hread : ∀ d, D d → FailsIn OfText (ofDatum d))

include hread

theorem failsIn_ofData {ds : List Datum} (hds : ∀ d ∈ ds, D d) : FailsIn OfText (ofData ds) := by
  induction ds with
  | nil => exact .ok _
  | cons d ds ih =>
    obtain ⟨hd, hds⟩ := List.forall_mem_cons.1 hds
    exact (hread d hd).bind fun e _ => (ih hds).bind fun es _ => .ok _

theorem failsIn_ofBody (o : Nat) {ds : List Datum} (hds : ∀ d ∈ ds, D d) :
    FailsIn OfText (ofBody o ds) := by
  match ds with
  | [] => exact .error (.read ..)
  | [d] => exact hread d (hds d (List.mem_singleton_self d))
  | d :: d' :: ds =>
    simp only [List.forall_mem_cons] at hds
    exact (hread d hds.1).bind fun e _ => (hread d' hds.2.1).bind fun e' _ =>
      (failsIn_ofData hread hds.2.2).bind fun es _ => .ok _

variable (hitem : ∀ {items o}, D (.list items o) → ∀ d ∈ items, D d)

include hitem

theorem failsIn_ofBindingList {d : Datum} (hd : D d) : FailsIn OfText (ofBindingList d) := by
  match d with
  | .atom a o => exact .error (.read ..)
  | .list ds o =>
    have hds := hitem hd
    rw [ofBindingList]
    clear hd
    induction ds with
    | nil => exact .ok _
    | cons d ds ih =>
      obtain ⟨hd, htail⟩ := List.forall_mem_cons.1 hds
      match d with
      | .atom a o => exact .error (.read ..)
      | .list [x, init] o =>
        exact (failsIn_toName x).bind fun name _ =>
          (hread init (hitem hd init (by simp))).bind fun e _ => (ih htail).bind fun bs _ => .ok _
      | .list [] o => exact .error (.read ..)
      | .list [x] o => exact .error (.read ..)
      | .list (x :: y :: z :: items) o => exact .error (.read ..)

theorem failsIn_ofMemberList {d : Datum} (hd : D d) : FailsIn OfText (ofMemberList d) := by
  match d with
  | .atom a o => exact .error (.read ..)
  | .list ds o =>
    have hds := hitem hd
    rw [ofMemberList]
    clear hd
    induction ds with
    | nil => exact .ok _
    | cons d ds ih =>
      obtain ⟨hd, htail⟩ := List.forall_mem_cons.1 hds
      match d with
      | .atom a o => exact .error (.read ..)
      | .list (x :: params :: items) o =>
        have hitems : ∀ d ∈ items, D d := fun d hmem => hitem hd d (by simp [hmem])
        exact (failsIn_toName x).bind fun name _ => (failsIn_toNames params).bind fun names _ =>
          (failsIn_ofBody hread o hitems).bind fun body _ => (ih htail).bind fun ms _ => .ok _
      | .list [] o => exact .error (.read ..)
      | .list [x] o => exact .error (.read ..)

theorem failsIn_list (o : Nat) {items : List Datum} (hitems : ∀ d ∈ items, D d) :
    FailsIn OfText (ofDatum (.list items o)) := by
  cases items with
  | nil => exact .error (.read ..)
  | cons head rest =>
    obtain ⟨hhead, hrest⟩ := List.forall_mem_cons.1 hitems
    unfold ofDatum
    split
    case h_1 params items _ =>
      have hitems := (List.forall_mem_cons.1 hrest).2
      exact (failsIn_toNames params).bind fun names _ =>
        (failsIn_ofBody hread o hitems).bind fun body _ => .ok _
    case h_2 bindings items _ =>
      obtain ⟨hbindings, hitems⟩ := List.forall_mem_cons.1 hrest
      exact (failsIn_ofBindingList hread hitem hbindings).bind fun bs _ =>
        (failsIn_ofBody hread o hitems).bind fun body _ => .ok _
    case h_3 bindings items _ =>
      obtain ⟨hbindings, hitems⟩ := List.forall_mem_cons.1 hrest
      exact (failsIn_ofBindingList hread hitem hbindings).bind fun bs _ =>
        (failsIn_ofBody hread o hitems).bind fun body _ => .ok _
    case h_4 members items _ =>
      obtain ⟨hmembers, hitems⟩ := List.forall_mem_cons.1 hrest
      exact (failsIn_ofMemberList hread hitem hmembers).bind fun ms _ =>
        (failsIn_ofBody hread o hitems).bind fun body _ => .ok _
    case h_5 test yes no _ =>
      simp only [List.forall_mem_cons] at hrest
      exact (hread test hrest.1).bind fun e _ => (hread yes hrest.2.1).bind fun e' _ =>
        (hread no hrest.2.2.1).bind fun e'' _ => .ok _
    case h_6 => exact .error (.read ..)
    case h_7 => exact .error (.read ..)
    case h_8 item items _ =>
      obtain ⟨hd, hds⟩ := List.forall_mem_cons.1 hrest
      exact (hread item hd).bind fun e _ => (failsIn_ofData hread hds).bind fun es _ => .ok _
    case h_9 x value _ =>
      exact (failsIn_toName x).bind fun name _ =>
        (hread value (hrest value (by simp))).bind fun e _ => .ok _
    case h_10 => exact .error (.read ..)
    case h_11 =>
      exact (hread head hhead).bind fun e _ => (failsIn_ofData hread hrest).bind fun es _ => .ok _

end

theorem failsIn_ofDatum {n : Nat} {d : Datum} (hd : d.NestedWithin n) :
    FailsIn OfText (ofDatum d) := by
  induction n generalizing d with
  | zero =>
    match d with
    | .atom (.lit v) o => exact .ok _
    | .atom (.name x) o => exact .ok _
    | .list items o => cases hd
  | succ n ih =>
    match d with
    | .atom (.lit v) o => exact .ok _
    | .atom (.name x) o => exact .ok _
    | .list items o =>
      exact failsIn_list (D := NestedWithin n) (fun d => ih) (fun h d hd => h.item hd) o hd

theorem read_error {source : String} {err : Error} (h : Expr.read source = .error err) :
    ∃ offset fault, err = .read offset fault := by
  rcases Results.bind_eq_error_iff.1 h with h | ⟨d, hd, h⟩
  · exact failsIn_ofText source err h
  · exact failsIn_ofDatum (nestedWithin_of_ofText hd) err h

end MiniScheme.Expr
