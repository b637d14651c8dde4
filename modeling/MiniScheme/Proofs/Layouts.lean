import MiniScheme.Layout
import MiniScheme.Proofs.Parsing
import MiniScheme.Proofs.Scanning

/-!
# Layouts and their tokens

A layout of a document turns each possible break into a space or into a line break with any
indentation. What `render` chooses is one of these layouts. Documents that put blanks between
words are scanned as the same tokens in every layout.
-/

namespace MiniScheme

namespace Doc

/-- The text is the document with each possible break filled in one way or the other. -/
inductive Laid : Doc → List Char → Prop
  | empty : Laid empty []
  | text (style : Style) (s : String) : Laid (text style s) s.toList
  | space : Laid line [' ']
  | newline (n : Nat) : Laid line ('\n' :: List.replicate n ' ')
  | append {a b : Doc} {cs cs' : List Char} (ha : Laid a cs) (hb : Laid b cs') :
      Laid (append a b) (cs ++ cs')
  | nest {d : Doc} {cs : List Char} (h : Laid d cs) : Laid (nest d) cs
  | align {d : Doc} {cs : List Char} (h : Laid d cs) : Laid (align d) cs
  | group {d : Doc} {cs : List Char} (h : Laid d cs) : Laid (group d) cs

theorem laid_layout (d : Doc) (indent : Nat) (next : Option Nat) (flat : Bool)
    (rest : Nat → Bool) (column : Nat) :
    Laid d ((layout d indent next flat rest column).1.flatMap (·.plainText.toList)) := by
  induction d generalizing indent next flat rest column with
  | empty => exact .empty
  | text style s =>
    simp only [layout, List.flatMap_cons, List.flatMap_nil, List.append_nil, Piece.plainText]
    exact .text style s
  | line =>
    cases flat with
    | true => exact .space
    | false =>
      have htext : ("\n" ++ String.ofList (List.replicate (next.getD indent) ' ')).toList =
          '\n' :: List.replicate (next.getD indent) ' ' := by
        simp
      simp only [layout, List.flatMap_cons, List.flatMap_nil, List.append_nil, Piece.plainText,
        htext]
      exact .newline _
  | append a b iha ihb =>
    simp only [layout, List.flatMap_append]
    exact .append (iha ..) (ihb ..)
  | nest d ih => exact .nest (ih ..)
  | align d ih => exact .align (ih ..)
  | group d ih => exact .group (ih ..)

theorem laid_render (d : Doc) : Laid d d.render.toList := by
  have htext : d.render.toList = d.pieces.flatMap (·.plainText.toList) := by
    rw [render, String.toList_join, List.flatMap_map]
  rw [htext]
  exact laid_layout ..

end Doc

/-! ### Brackets in text -/

namespace Token

/-- The bracket that a character is. -/
def ofBracket? (c : Char) : Option Token :=
  if c = '(' ∨ c = '[' then some .opening
  else if c = ')' ∨ c = ']' then some .closing
  else none

def isBracket : Token → Bool
  | .opening => true
  | .closing => true
  | .atom _ => false

theorem ofBracket?_of_word {c : Char} (h : isDelimiter c = false) : ofBracket? c = none := by
  simp only [isDelimiter, Bool.or_eq_false_iff, decide_eq_false_iff_not] at h
  simp [ofBracket?, h]

theorem ofBracket?_of_blank {c : Char} (h : Text.isBlank c = true) : ofBracket? c = none := by
  have hne : ∀ d : Char, Text.isBlank d = false → c ≠ d := by
    rintro d hd rfl
    exact absurd h (by simp [hd])
  simp only [ofBracket?, hne '(' (by decide), hne ')' (by decide), hne '[' (by decide),
    hne ']' (by decide), or_self, if_false]

end Token

/-- The deepest nesting of brackets in a text. -/
def Text.nesting (s : String) : Nat :=
  Datum.tokenDepth 0 (s.toList.filterMap Token.ofBracket?)

theorem tokenDepth_filter (level : Nat) (ts : List Token) :
    Datum.tokenDepth level (ts.filter Token.isBracket) = Datum.tokenDepth level ts := by
  induction ts generalizing level with
  | nil => rfl
  | cons t ts ih =>
    cases t with
    | opening => exact ih (level + 1)
    | closing => exact congrArg (max level) (ih (level - 1))
    | atom a => exact ih level

/-! ### Documents that show tokens -/

/-- The text is scanned as the tokens if it ends or a delimiter follows it, and all brackets in
it are among the tokens. -/
def Spelled (cs : List Char) (ts : List Token) : Prop :=
  (∃ located : List Located, located.map (·.token) = ts ∧ Scans Ends cs located) ∧
    cs.filterMap Token.ofBracket? = ts.filter Token.isBracket

theorem map_token_moved (located : List Located) (n : Nat) :
    (located.map (·.moved n)).map (·.token) = located.map (·.token) := by
  rw [List.map_map]
  rfl

theorem spelled_word {w : List Char} {a : Atom} (hscan : Scans Ends w [⟨.atom a, 0⟩])
    (h : ∀ c ∈ w, isDelimiter c = false) : Spelled w [.atom a] := by
  refine ⟨⟨_, rfl, hscan⟩, ?_⟩
  rw [List.filterMap_eq_nil_iff.2 fun c hc => Token.ofBracket?_of_word (h c hc)]
  rfl

theorem Spelled.separate {cs sep cs' : List Char} {ts ts' : List Token} (h : Spelled cs ts)
    (h' : Spelled cs' ts') (hne : sep ≠ []) (hsep : ∀ c ∈ sep, Text.isBlank c = true) :
    Spelled (cs ++ sep ++ cs') (ts ++ ts') := by
  obtain ⟨⟨located, rfl, hscan⟩, hbrackets⟩ := h
  obtain ⟨⟨located', rfl, hscan'⟩, hbrackets'⟩ := h'
  have hgap : Gap sep := .of_blanks hsep
  refine ⟨⟨_, ?_, (hscan.append hgap.scans fun rest _ => hgap.ends hne rest).append hscan'
    fun _ _ => trivial⟩, ?_⟩
  · simp only [List.map_append, map_token_moved, List.map_nil, List.append_nil]
  · rw [List.filterMap_append, List.filterMap_append, hbrackets, hbrackets', List.filter_append,
      List.filterMap_eq_nil_iff.2 fun c hc => Token.ofBracket?_of_blank (hsep c hc),
      List.append_nil]

theorem Spelled.parens {cs : List Char} {ts : List Token} (h : Spelled cs ts) :
    Spelled ('(' :: (cs ++ [')'])) (.opening :: (ts ++ [.closing])) := by
  obtain ⟨⟨located, rfl, hscan⟩, hbrackets⟩ := h
  have hclose : ∀ rest, Anything rest → Ends ([')'] ++ rest) :=
    fun rest _ => ends_cons (by decide) rest
  have hinner := hscan.append (Scans.closing (.inl rfl)) hclose
  have houter := (Scans.opening (.inl rfl)).append hinner fun _ _ => trivial
  refine ⟨⟨_, ?_, houter.imp fun _ _ => trivial⟩, ?_⟩
  · simp only [List.map_append, map_token_moved, List.map_cons, List.map_nil,
      List.singleton_append]
    rfl
  · have hround : Token.ofBracket? '(' = some .opening := by decide
    have hround' : Token.ofBracket? ')' = some .closing := by decide
    rw [List.filterMap_cons_some hround, List.filterMap_append, hbrackets,
      List.filterMap_cons_some hround', List.filterMap_nil, List.filter_cons_of_pos rfl,
      List.filter_append]
    rfl

namespace Doc

/-- Every layout of the document is scanned as these tokens. -/
def Shows (d : Doc) (ts : List Token) : Prop :=
  ∀ cs, Laid d cs → Spelled cs ts

/-- Every layout of the document is a run of blanks. -/
def Separates (d : Doc) : Prop :=
  ∀ cs, Laid d cs → cs ≠ [] ∧ ∀ c ∈ cs, Text.isBlank c = true

theorem separates_line : Separates line := by
  intro cs h
  cases h with
  | space => exact ⟨by simp, List.forall_mem_singleton.2 rfl⟩
  | newline n =>
    refine ⟨by simp, List.forall_mem_cons.2 ⟨by decide, fun c hc => ?_⟩⟩
    rw [List.eq_of_mem_replicate hc]
    decide

theorem separates_space : Separates space := by
  intro cs h
  cases h
  exact ⟨by simp, List.forall_mem_singleton.2 rfl⟩

variable {a b d : Doc} {ts ts' : List Token}

theorem shows_empty : Shows empty [] := by
  intro cs h
  cases h
  exact ⟨⟨[], rfl, .nil⟩, rfl⟩

theorem shows_word {style : Style} {s : String} {t : Atom}
    (hscan : Scans Ends s.toList [⟨.atom t, 0⟩]) (h : ∀ c ∈ s.toList, isDelimiter c = false) :
    Shows (text style s) [.atom t] := by
  intro cs hcs
  cases hcs
  exact spelled_word hscan h

theorem Shows.nest (h : Shows d ts) : Shows (nest d) ts := by
  intro cs hcs
  cases hcs with
  | nest hcs => exact h cs hcs

theorem Shows.align (h : Shows d ts) : Shows (align d) ts := by
  intro cs hcs
  cases hcs with
  | align hcs => exact h cs hcs

theorem Shows.group (h : Shows d ts) : Shows (group d) ts := by
  intro cs hcs
  cases hcs with
  | group hcs => exact h cs hcs

theorem Shows.separate {sep : Doc} (ha : Shows a ts) (hsep : Separates sep)
    (hb : Shows b ts') : Shows (a ++ sep ++ b) (ts ++ ts') := by
  intro cs hcs
  cases hcs with
  | append hfirst hlast =>
    cases hfirst with
    | append hfirst hmid =>
      obtain ⟨hne, hblank⟩ := hsep _ hmid
      exact (ha _ hfirst).separate (hb _ hlast) hne hblank

theorem Shows.parens (h : Shows d ts) : Shows (parens d) (.opening :: (ts ++ [.closing])) := by
  intro cs hcs
  cases hcs with
  | append hfirst hlast =>
    cases hfirst with
    | append hopen hmid =>
      cases hopen
      cases hlast
      exact (h _ hmid).parens

/-- The documents show the tokens, one after another. -/
inductive ShowsAll : List Doc → List Token → Prop
  | nil : ShowsAll [] []
  | cons {d : Doc} {ds : List Doc} {ts us : List Token} (hd : Shows d ts) (hds : ShowsAll ds us) :
      ShowsAll (d :: ds) (ts ++ us)

theorem ShowsAll.joinWith {sep : Doc} (hsep : Separates sep) {ds : List Doc} {ts : List Token}
    (h : ShowsAll ds ts) : Shows (joinWith sep ds) ts := by
  induction h with
  | nil => exact shows_empty
  | cons hd hds ih =>
    cases hds with
    | nil => exact (List.append_nil _).symm ▸ hd
    | cons => exact hd.separate hsep ih

end Doc

end MiniScheme
