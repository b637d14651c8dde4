import MiniScheme.Expr.Printer
import MiniScheme.Expr.Read
import MiniScheme.Proofs.Layouts
import MiniScheme.Proofs.Results
import MiniScheme.Proofs.Subtrees

/-!
# Reading printed trees

A printed tree consists of the same tokens in every layout, and these tokens are read back as
the tree.
-/

namespace MiniScheme

/-! ### Data from tokens -/

namespace Datum

/-- However the tokens are located, they spell a datum as in `R`. -/
def Reads (ts : List Token) (R : Datum → Prop) : Prop :=
  ∀ located : List Located, located.map (·.token) = ts → ∃ d, Spells d located ∧ R d

/-- However the tokens are located, they spell data as in `R`, one after another. -/
def ReadsAll (ts : List Token) (R : List Datum → Prop) : Prop :=
  ∀ located : List Located, located.map (·.token) = ts →
    ∃ parts : List (Datum × List Located), parts.flatMap (·.2) = located ∧
      (∀ p ∈ parts, Spells p.1 p.2) ∧ R (parts.map (·.1))

/-- Tokens between brackets. -/
def bracketed (ts : List Token) : List Token :=
  .opening :: (ts ++ [.closing])

variable {ts us : List Token}

theorem reads_atom (a : Atom) : Reads [.atom a] fun d => ∃ o, d = atom a o := by
  intro located h
  obtain ⟨⟨t, o⟩, rfl, rfl⟩ := List.map_eq_singleton_iff.1 h
  exact ⟨atom a o, .atom a o, o, rfl⟩

theorem readsAll_nil : ReadsAll [] (· = []) := by
  intro located h
  obtain rfl := List.map_eq_nil_iff.1 h
  exact ⟨[], rfl, nofun, rfl⟩

theorem Reads.cons {R : Datum → Prop} {S : List Datum → Prop} (hd : Reads ts R)
    (hds : ReadsAll us S) :
    ReadsAll (ts ++ us) fun items => ∃ d ds, items = d :: ds ∧ R d ∧ S ds := by
  intro located h
  obtain ⟨first, rest, rfl, hfirst, hrest⟩ := List.map_eq_append_iff.1 h
  obtain ⟨d, hspell, hR⟩ := hd first hfirst
  obtain ⟨parts, rfl, hspells, hS⟩ := hds rest hrest
  refine ⟨(d, first) :: parts, by simp, List.forall_mem_cons.2 ⟨hspell, hspells⟩, ?_⟩
  exact ⟨d, parts.map (·.1), rfl, hR, hS⟩

theorem ReadsAll.list {S : List Datum → Prop} (h : ReadsAll ts S) :
    Reads (bracketed ts) fun d => ∃ items o, d = list items o ∧ S items := by
  intro located hlocated
  obtain ⟨⟨t, o⟩, rest, rfl, rfl, hrest⟩ := List.map_eq_cons_iff.1 hlocated
  obtain ⟨mid, last, rfl, hmid, hlast⟩ := List.map_eq_append_iff.1 hrest
  obtain ⟨⟨t', o'⟩, rfl, rfl⟩ := List.map_eq_singleton_iff.1 hlast
  obtain ⟨parts, rfl, hspells, hS⟩ := h mid hmid
  exact ⟨_, .list parts o o' hspells, _, o, rfl, hS⟩

theorem ReadsAll.imp {S S' : List Datum → Prop} (h : ReadsAll ts S)
    (himp : ∀ items, S items → S' items) : ReadsAll ts S' := by
  intro located hlocated
  obtain ⟨parts, hparts, hspells, hS⟩ := h located hlocated
  exact ⟨parts, hparts, hspells, himp _ hS⟩

theorem Reads.imp {R R' : Datum → Prop} (h : Reads ts R) (himp : ∀ d, R d → R' d) :
    Reads ts R' := by
  intro located hlocated
  obtain ⟨d, hspells, hR⟩ := h located hlocated
  exact ⟨d, hspells, himp d hR⟩

theorem Reads.single {R : Datum → Prop} (h : Reads ts R) :
    ReadsAll ts fun items => ∃ d, items = [d] ∧ R d := by
  have hone := h.cons readsAll_nil
  rw [List.append_nil] at hone
  refine hone.imp ?_
  rintro _ ⟨d, ds, rfl, hR, rfl⟩
  exact ⟨d, rfl, hR⟩

theorem readsAll_names (xs : List Name) :
    ReadsAll (xs.map fun x => .atom (.name x)) fun items => items.mapM toName = .ok xs := by
  induction xs with
  | nil => exact readsAll_nil.imp fun items h => h ▸ rfl
  | cons x xs ih =>
    refine (Reads.cons (reads_atom (.name x)) ih).imp ?_
    rintro _ ⟨_, ds, rfl, ⟨o, rfl⟩, hds⟩
    simp only [List.mapM_cons, toName, hds]
    rfl

/-- Spelled text is read as the datum that its tokens spell. -/
theorem ofText_of_spelled {source : String} (h : Spelled source.toList ts)
    (hdepth : tokenDepth 0 ts ≤ maxNesting) {R : Datum → Prop} (hreads : Reads ts R) :
    ∃ d, ofText source = .ok d ∧ R d := by
  obtain ⟨⟨located, rfl, hscan⟩, _⟩ := h
  have htokens : Token.ofText source = .ok located := ofText_of_scans hscan
  obtain ⟨d, hspells, hR⟩ := hreads located rfl
  have hdepth' : tokenDepth 0 (located.map (·.token) ++ []) ≤ maxNesting := by
    rw [List.append_nil]
    exact hdepth
  have hnest := (nestedWithin_of_tokenDepth hspells hdepth').1
  have hparse : parse source.utf8ByteSize 0 [] (located ++ []) = .ok (d, [], 0) :=
    parse_spells hspells (Nat.zero_le _) hnest
  rw [List.append_nil] at hparse
  refine ⟨d, ?_, hR⟩
  simp only [ofText, htokens, hparse, bind, Except.bind]
  rfl

end Datum

namespace Expr

open Datum

variable {α : Type}

/-! ### Tokens of a tree -/

mutual
/-- The tokens a tree is printed with. -/
def tokens : Expr α → List Token
  | lit v _ => [.atom (.lit v)]
  | var x _ => [.atom (.name x)]
  | cond test yes no _ =>
    bracketed ([.atom (.name Keyword.cond.text)] ++ (tokens test ++ (tokens yes ++ tokens no)))
  | lambda params body _ =>
    bracketed ([.atom (.name Keyword.lambda.text)] ++
      (bracketed (params.map fun x => .atom (.name x)) ++ tokens body))
  | assign x value _ =>
    bracketed ([.atom (.name Keyword.assign.text)] ++ ([.atom (.name x)] ++ tokens value))
  | app func args _ => bracketed (tokens func ++ tokensList args)
  | letIn bindings body _ =>
    bracketed ([.atom (.name Keyword.letIn.text)] ++
      (bracketed (tokensBindings bindings) ++ tokens body))
  | letrec bindings body _ =>
    bracketed ([.atom (.name Keyword.letrec.text)] ++
      (bracketed (tokensBindings bindings) ++ tokens body))
  | fix members body _ =>
    bracketed ([.atom (.name Keyword.fix.text)] ++
      (bracketed (tokensMembers members) ++ tokens body))
  | seq items _ => bracketed ([.atom (.name Keyword.sequence.text)] ++ tokensList items)
termination_by structural e => e

def tokensList : List (Expr α) → List Token
  | [] => []
  | e :: es => tokens e ++ tokensList es
termination_by structural es => es

def tokensBindings : List (Name × Expr α) → List Token
  | [] => []
  | (x, e) :: bs => bracketed ([.atom (.name x)] ++ tokens e) ++ tokensBindings bs
termination_by structural bs => bs

def tokensMembers : List (Member α (Expr α)) → List Token
  | [] => []
  | ⟨x, _, params, body⟩ :: ms =>
    bracketed ([.atom (.name x)] ++
      (bracketed (params.map fun y => .atom (.name y)) ++ tokens body)) ++ tokensMembers ms
termination_by structural ms => ms
end

/-- What has to hold at the root for the tree to be read back: names are identifiers, sequences
are not empty, and no keyword is applied. -/
def ReadableRoot : Expr α → Prop
  | lit _ _ => True
  | var x _ => isIdentifier x = true
  | cond _ _ _ _ => True
  | lambda params _ _ => ∀ x ∈ params, isIdentifier x = true
  | assign x _ _ => isIdentifier x = true
  | app func _ _ => ∀ k : Keyword, ∀ t, func ≠ var k.text t
  | letIn bindings _ _ => ∀ b ∈ bindings, isIdentifier b.1 = true
  | letrec bindings _ _ => ∀ b ∈ bindings, isIdentifier b.1 = true
  | fix members _ _ =>
    ∀ m ∈ members, isIdentifier m.name = true ∧ ∀ x ∈ m.params, isIdentifier x = true
  | seq items _ => items ≠ []

/-- The tree can be written as a program. -/
def Readable (e : Expr α) : Prop :=
  Everywhere ReadableRoot e

theorem Readable.child {d e : Expr α} (h : e.Readable) (hd : d ∈ e.children) : d.Readable :=
  Everywhere.child h hd

/-! ### From the tree to its tokens -/

theorem isDelimiter_of_mem_identifier {x : Name} (h : isIdentifier x = true) :
    ∀ c ∈ x.toList, isDelimiter c = false := by
  simp only [isIdentifier, Bool.and_eq_true, List.all_eq_true, Bool.not_eq_true'] at h
  exact h.1.1.2

theorem shows_name {style : Style} {x : Name} (h : isIdentifier x = true) :
    Doc.Shows (.text style x) [.atom (.name x)] :=
  Doc.shows_word (scans_name h) (isDelimiter_of_mem_identifier h)

theorem shows_keyword (k : Keyword) : k.doc.Shows [.atom (.name k.text)] :=
  shows_name (by cases k <;> decide)

theorem shows_literal (v : Literal) : Doc.Shows (.text .literal v.text) [.atom (.lit v)] :=
  Doc.shows_word v.scans_text v.isDelimiter_of_mem_text

theorem shows_formDoc {content : Doc} {ts : List Token} (h : content.Shows ts) :
    (formDoc content).Shows (bracketed ts) :=
  h.nest.group.parens

theorem shows_paramsDoc {params : List Name} (h : ∀ x ∈ params, isIdentifier x = true) :
    (paramsDoc params).Shows (bracketed (params.map fun x => .atom (.name x))) := by
  have hall : Doc.ShowsAll (params.map .plain) (params.map fun x => .atom (.name x)) := by
    induction params with
    | nil => exact .nil
    | cons x params ih =>
      obtain ⟨hx, hparams⟩ := List.forall_mem_cons.1 h
      exact .cons (shows_name hx) (ih hparams)
  exact (hall.joinWith Doc.separates_space).parens

theorem showsAll_list {es : List (Expr Unit)} (h : ∀ e ∈ es, e.doc.Shows e.tokens) :
    Doc.ShowsAll (docList es) (tokensList es) := by
  induction es with
  | nil => exact .nil
  | cons e es ih =>
    obtain ⟨he, hes⟩ := List.forall_mem_cons.1 h
    exact .cons he (ih hes)

theorem showsAll_bindings {bs : List (Name × Expr Unit)}
    (hname : ∀ b ∈ bs, isIdentifier b.1 = true) (h : ∀ b ∈ bs, b.2.doc.Shows b.2.tokens) :
    Doc.ShowsAll (docBindings bs) (tokensBindings bs) := by
  induction bs with
  | nil => exact .nil
  | cons b bs ih =>
    obtain ⟨hx, hname⟩ := List.forall_mem_cons.1 hname
    obtain ⟨he, h⟩ := List.forall_mem_cons.1 h
    exact .cons ((shows_name hx).separate Doc.separates_space he).group.parens (ih hname h)

theorem showsAll_members {ms : List (Member Unit (Expr Unit))}
    (hname : ∀ m ∈ ms, isIdentifier m.name = true ∧ ∀ x ∈ m.params, isIdentifier x = true)
    (h : ∀ m ∈ ms, m.body.doc.Shows m.body.tokens) :
    Doc.ShowsAll (docMembers ms) (tokensMembers ms) := by
  induction ms with
  | nil => exact .nil
  | cons m ms ih =>
    obtain ⟨hm, hname⟩ := List.forall_mem_cons.1 hname
    obtain ⟨hbody, h⟩ := List.forall_mem_cons.1 h
    rw [tokensMembers, ← List.append_assoc [_]]
    exact .cons (shows_formDoc (((shows_name hm.1).separate Doc.separates_space
      (shows_paramsDoc hm.2)).separate Doc.separates_line hbody)) (ih hname h)

theorem shows_bindingForm {k : Keyword} {bindings : List Doc} {body : Doc} {ts us : List Token}
    (hbindings : Doc.ShowsAll bindings ts) (hbody : body.Shows us) :
    (bindingFormDoc k bindings body).Shows
      (bracketed ([.atom (.name k.text)] ++ (bracketed ts ++ us))) := by
  rw [← List.append_assoc]
  exact shows_formDoc (((shows_keyword k).separate Doc.separates_space
    (hbindings.joinWith Doc.separates_line).align.parens).separate Doc.separates_line hbody)

theorem shows_doc {e : Expr Unit} (h : e.Readable) : e.doc.Shows e.tokens := by
  induction e with
  | lit v t => exact shows_literal v
  | var x t => exact shows_name h.root
  | cond test yes no t htest hyes hno =>
    have h₁ := htest (h.child (by simp [children]))
    have h₂ := hyes (h.child (by simp [children]))
    have h₃ := hno (h.child (by simp [children]))
    rw [tokens, ← List.append_assoc, ← List.append_assoc]
    exact shows_formDoc ((((shows_keyword .cond).separate Doc.separates_space h₁).separate
      Doc.separates_line h₂).separate Doc.separates_line h₃)
  | lambda params body t hbody =>
    have hb := hbody (h.child (List.mem_singleton_self _))
    rw [tokens, ← List.append_assoc]
    exact shows_formDoc (((shows_keyword .lambda).separate Doc.separates_space
      (shows_paramsDoc h.root)).separate Doc.separates_line hb)
  | assign x value t hvalue =>
    have hv := hvalue (h.child (List.mem_singleton_self _))
    rw [tokens, ← List.append_assoc]
    exact shows_formDoc (((shows_keyword .assign).separate Doc.separates_space
      (shows_name h.root)).separate Doc.separates_line hv)
  | app func args t hfunc hargs =>
    have hf := hfunc (h.child (List.mem_cons_self ..))
    have ha : ∀ e ∈ args, e.doc.Shows e.tokens := fun e he =>
      hargs e he (h.child (List.mem_cons_of_mem _ he))
    cases args with
    | nil =>
      rw [tokens, tokensList, List.append_nil]
      exact hf.parens
    | cons arg args =>
      exact shows_formDoc (hf.separate Doc.separates_line
        ((showsAll_list ha).joinWith Doc.separates_line))
  | letIn bindings body t hbindings hbody =>
    have hb := hbody (h.child (body_mem_children_letIn _))
    exact shows_bindingForm (showsAll_bindings h.root fun b hb =>
      hbindings b hb (h.child (mem_children_of_letIn hb))) hb
  | letrec bindings body t hbindings hbody =>
    have hb := hbody (h.child (body_mem_children_letrec _))
    exact shows_bindingForm (showsAll_bindings h.root fun b hb =>
      hbindings b hb (h.child (mem_children_of_letrec hb))) hb
  | fix members body t hmembers hbody =>
    have hb := hbody (h.child (body_mem_children_fix _))
    exact shows_bindingForm (showsAll_members h.root fun m hm =>
      hmembers m hm (h.child (mem_children_of_fix hm))) hb
  | seq items t hitems =>
    exact shows_formDoc ((shows_keyword .sequence).separate Doc.separates_line
      ((showsAll_list fun e he => hitems e he (h.child he)).joinWith Doc.separates_line))

/-! ### From the tokens to the tree -/

theorem forall_ne_text_iff {x : Name} :
    (∀ k : Keyword, ¬x = k.text) ↔ Keyword.ofName? x = none := by
  constructor
  · intro h
    cases hk : Keyword.ofName? x with
    | none => rfl
    | some k =>
      have hx := List.find?_some hk
      rw [decide_eq_true_eq] at hx
      exact absurd hx.symm (h k)
  · rintro h k rfl
    rw [Keyword.ofName?_text] at h
    cases h

theorem keyword?_eq_none {d : Datum} {e : Expr Unit} (hread : ofDatum d = .ok e)
    (h : ∀ k : Keyword, ∀ t, e ≠ var k.text t) : d.keyword? = none := by
  cases d with
  | list items o => rfl
  | atom a o =>
    cases a with
    | lit v => rfl
    | name x =>
      rw [ofDatum, Except.ok.injEq] at hread
      subst hread
      exact forall_ne_text_iff.1 fun k hx => h k () (hx ▸ rfl)

theorem readsAll_list {es : List (Expr Unit)}
    (h : ∀ e ∈ es, Reads e.tokens fun d => ofDatum d = .ok e) :
    ReadsAll (tokensList es) fun ds => ofData ds = .ok es := by
  induction es with
  | nil => exact readsAll_nil.imp fun ds hds => hds ▸ rfl
  | cons e es ih =>
    obtain ⟨he, hes⟩ := List.forall_mem_cons.1 h
    refine (he.cons (ih hes)).imp ?_
    rintro _ ⟨d, ds, rfl, hd, hds⟩
    simp only [ofData, hd, hds]
    rfl

theorem readsAll_bindings {bs : List (Name × Expr Unit)}
    (h : ∀ b ∈ bs, Reads b.2.tokens fun d => ofDatum d = .ok b.2) :
    ReadsAll (tokensBindings bs) fun ds => ofBindings ds = .ok bs := by
  induction bs with
  | nil => exact readsAll_nil.imp fun ds hds => hds ▸ rfl
  | cons b bs ih =>
    obtain ⟨x, e⟩ := b
    obtain ⟨he, hbs⟩ := List.forall_mem_cons.1 h
    refine (((reads_atom (.name x)).cons he.single).list.cons (ih hbs)).imp ?_
    rintro _ ⟨_, ds, rfl, ⟨_, o, rfl, _, _, rfl, ⟨o', rfl⟩, d, rfl, hd⟩, hds⟩
    simp only [ofBindings, toName, hd, hds]
    rfl

theorem readsAll_members {ms : List (Member Unit (Expr Unit))}
    (h : ∀ m ∈ ms, Reads m.body.tokens fun d => ofDatum d = .ok m.body) :
    ReadsAll (tokensMembers ms) fun ds => ofMembers ds = .ok ms := by
  induction ms with
  | nil => exact readsAll_nil.imp fun ds hds => hds ▸ rfl
  | cons m ms ih =>
    obtain ⟨x, t, params, body⟩ := m
    obtain ⟨hm, hms⟩ := List.forall_mem_cons.1 h
    refine (((reads_atom (.name x)).cons ((readsAll_names params).list.cons
      hm.single)).list.cons (ih hms)).imp ?_
    rintro _ ⟨_, ds, rfl, ⟨_, o, rfl, _, _, rfl, ⟨o', rfl⟩, _, _, rfl, ⟨ps, o'', rfl, hps⟩, d, rfl,
      hd⟩, hds⟩
    simp only [ofMembers, toName, toNames, hps, ofBody, hd, hds]
    rfl

theorem reads_tokens {e : Expr Unit} (h : e.Readable) :
    Reads e.tokens fun d => ofDatum d = .ok e := by
  induction e with
  | lit v t =>
    refine (reads_atom (.lit v)).imp ?_
    rintro _ ⟨o, rfl⟩
    rfl
  | var x t =>
    refine (reads_atom (.name x)).imp ?_
    rintro _ ⟨o, rfl⟩
    rfl
  | cond test yes no t htest hyes hno =>
    have h₁ := htest (h.child (by simp [children]))
    have h₂ := hyes (h.child (by simp [children]))
    have h₃ := hno (h.child (by simp [children]))
    refine ((reads_atom _).cons (h₁.cons (h₂.cons h₃.single))).list.imp ?_
    rintro _ ⟨_, o, rfl, _, _, rfl, ⟨o', rfl⟩, d₁, _, rfl, hd₁, d₂, _, rfl, hd₂, d₃, rfl, hd₃⟩
    simp only [ofDatum, keyword?, Keyword.ofName?_text, hd₁, hd₂, hd₃]
    rfl
  | lambda params body t hbody =>
    have hb := hbody (h.child (List.mem_singleton_self _))
    refine ((reads_atom _).cons ((readsAll_names params).list.cons hb.single)).list.imp ?_
    rintro _ ⟨_, o, rfl, _, _, rfl, ⟨o', rfl⟩, _, _, rfl, ⟨ps, o'', rfl, hps⟩, d, rfl, hd⟩
    simp only [ofDatum, keyword?, Keyword.ofName?_text, toNames, hps, ofBody, hd]
    rfl
  | assign x value t hvalue =>
    have hv := hvalue (h.child (List.mem_singleton_self _))
    refine ((reads_atom _).cons ((reads_atom (.name x)).cons hv.single)).list.imp ?_
    rintro _ ⟨_, o, rfl, _, _, rfl, ⟨o', rfl⟩, _, _, rfl, ⟨o'', rfl⟩, d, rfl, hd⟩
    simp only [ofDatum, keyword?, Keyword.ofName?_text, toName, hd]
    rfl
  | app func args t hfunc hargs =>
    have hf := hfunc (h.child (List.mem_cons_self ..))
    have ha := readsAll_list fun e he => hargs e he (h.child (List.mem_cons_of_mem _ he))
    refine (hf.cons ha).list.imp ?_
    rintro _ ⟨_, o, rfl, d, ds, rfl, hd, hds⟩
    have hkeyword := keyword?_eq_none hd h.root
    simp only [ofDatum, hkeyword, hd, hds]
    rfl
  | letIn bindings body t hbindings hbody =>
    have hb := hbody (h.child (body_mem_children_letIn _))
    have hbs := readsAll_bindings fun b hb => hbindings b hb (h.child (mem_children_of_letIn hb))
    refine ((reads_atom _).cons (hbs.list.cons hb.single)).list.imp ?_
    rintro _ ⟨_, o, rfl, _, _, rfl, ⟨o', rfl⟩, _, _, rfl, ⟨ds, o'', rfl, hds⟩, d, rfl, hd⟩
    simp only [ofDatum, keyword?, Keyword.ofName?_text, ofBindingList, hds, ofBody, hd]
    rfl
  | letrec bindings body t hbindings hbody =>
    have hb := hbody (h.child (body_mem_children_letrec _))
    have hbs := readsAll_bindings fun b hb => hbindings b hb (h.child (mem_children_of_letrec hb))
    refine ((reads_atom _).cons (hbs.list.cons hb.single)).list.imp ?_
    rintro _ ⟨_, o, rfl, _, _, rfl, ⟨o', rfl⟩, _, _, rfl, ⟨ds, o'', rfl, hds⟩, d, rfl, hd⟩
    simp only [ofDatum, keyword?, Keyword.ofName?_text, ofBindingList, hds, ofBody, hd]
    rfl
  | fix members body t hmembers hbody =>
    have hb := hbody (h.child (body_mem_children_fix _))
    have hms := readsAll_members fun m hm => hmembers m hm (h.child (mem_children_of_fix hm))
    refine ((reads_atom _).cons (hms.list.cons hb.single)).list.imp ?_
    rintro _ ⟨_, o, rfl, _, _, rfl, ⟨o', rfl⟩, _, _, rfl, ⟨ds, o'', rfl, hds⟩, d, rfl, hd⟩
    simp only [ofDatum, keyword?, Keyword.ofName?_text, ofMemberList, hds, ofBody, hd]
    rfl
  | seq items t hitems =>
    have hread : ∀ e ∈ items, Reads e.tokens fun d => ofDatum d = .ok e := fun e he =>
      hitems e he (h.child he)
    cases items with
    | nil => exact absurd rfl h.root
    | cons e es =>
      obtain ⟨he, hes⟩ := List.forall_mem_cons.1 hread
      refine ((reads_atom _).cons (he.cons (readsAll_list hes))).list.imp ?_
      rintro _ ⟨_, o, rfl, _, _, rfl, ⟨o', rfl⟩, d, ds, rfl, hd, hds⟩
      simp only [ofDatum, keyword?, Keyword.ofName?_text, hd, hds]
      rfl

/-! ### Round trip -/

theorem nesting_of_laid {e : Expr Unit} (h : e.Readable) {s : String} (hs : e.doc.Laid s.toList) :
    Text.nesting s = tokenDepth 0 e.tokens := by
  rw [Text.nesting, (shows_doc h s.toList hs).2, tokenDepth_filter]

theorem read_of_laid {e : Expr Unit} (h : e.Readable)
    (hnest : tokenDepth 0 e.tokens ≤ maxNesting) {s : String} (hs : e.doc.Laid s.toList) :
    Expr.read s = .ok e := by
  obtain ⟨d, hd, he⟩ := ofText_of_spelled (shows_doc h s.toList hs) hnest (reads_tokens h)
  rw [Expr.read, hd]
  exact he

/-- Reading undoes printing, whichever line breaks a layout chooses: a tree of identifiers,
non-empty sequences and no applied keyword is read back from its text. -/
theorem read_text {e : Expr Unit} (h : e.Readable)
    (hnest : Text.nesting e.text ≤ maxNesting) :
    Expr.read e.text = .ok e ∧ ∀ s : String, e.doc.Laid s.toList → Expr.read s = .ok e := by
  have hdepth : tokenDepth 0 e.tokens ≤ maxNesting :=
    nesting_of_laid h e.doc.laid_render ▸ hnest
  exact ⟨read_of_laid h hdepth e.doc.laid_render, fun s hs => read_of_laid h hdepth hs⟩

/-- A program with a form of each kind. -/
def everyForm : Expr Unit :=
  letrec [("even?", lambda ["n"] (cond (app (var "=" ()) [var "n" (), lit (.int 0) ()] ())
      (lit (.bool true) ()) (app (var "even?" ()) [app (var "-" ()) [var "n" (), lit (.int 2) ()]
        ()] ()) ()) ())]
    (fix [⟨"loop", (), ["k", "list"], seq [assign "k" (lit (.int (-7)) ()) (),
        app (var "loop" ()) [var "k" (), var "lambda" ()] ()] ()⟩]
      (letIn [("x", app (var "read" ()) [] ()), ("-1+", lit (.bool false) ())]
        (app (lambda [] (var "x" ()) ()) [] ()) ()) ()) ()

theorem read_everyForm :
    everyForm.Readable ∧ Text.nesting everyForm.text ≤ maxNesting ∧
      Expr.read everyForm.text = .ok everyForm := by
  have h : everyForm.Readable := by
    simp +decide [everyForm, Readable, ReadableRoot, forall_ne_text_iff]
  have hnest : Text.nesting everyForm.text ≤ maxNesting := by
    rw [text, nesting_of_laid h everyForm.doc.laid_render]
    decide
  exact ⟨h, hnest, (read_text h hnest).1⟩

end Expr

end MiniScheme
