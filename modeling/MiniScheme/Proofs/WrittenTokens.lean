import Mathlib.Data.List.Induction
import Mathlib.Data.Nat.Digits.Defs
import MiniScheme.Proofs.Scanning

/-!
# Written tokens

A token can be written in several ways, and blank characters and comments may stand around it.
However a list of tokens is laid out as text, scanning the text finds the tokens again, each with
the number of bytes before it, as long as no two words run together.
-/

namespace MiniScheme

/-! ### Decimal notation -/

def digitChar (d : Fin 10) : Char :=
  Nat.digitChar d

/-- The number that decimal digits stand for, the leading digit first. -/
def digitsValue (ds : List (Fin 10)) : Nat :=
  Nat.ofDigits 10 (ds.reverse.map Fin.val)

/-- Decimal notation of an integer: digits, zeros in front included, after an optional minus. -/
inductive Numeral : Int → List Char → Prop
  | plain (ds : List (Fin 10)) (hne : ds ≠ []) : Numeral (digitsValue ds) (ds.map digitChar)
  | minus (ds : List (Fin 10)) (hne : ds ≠ []) :
      Numeral (-(digitsValue ds)) ('-' :: ds.map digitChar)

theorem isDigit_digitChar (d : Fin 10) : (digitChar d).isDigit = true := by
  revert d
  decide

theorem all_isDigit_digits (ds : List (Fin 10)) : (ds.map digitChar).all Char.isDigit = true := by
  simp [isDigit_digitChar]

theorem decimalValue_digits (ds : List (Fin 10)) :
    decimalValue (ds.map digitChar) = digitsValue ds := by
  have hdigit : ∀ d : Fin 10, (digitChar d).toNat - '0'.toNat = d := by decide
  induction ds using List.reverseRecOn with
  | nil => rfl
  | append_singleton ds d ih =>
    -- the last digit is added to ten times the others on both sides
    have hlast : digitsValue (ds ++ [d]) = d + 10 * digitsValue ds := by
      simp only [digitsValue, List.reverse_append, List.reverse_singleton, List.singleton_append,
        List.map_cons, Nat.ofDigits_cons]
    rw [hlast, ← ih, List.map_append, decimalValue, List.foldl_append, ← decimalValue,
      List.map_singleton, List.foldl_cons, List.foldl_nil, hdigit]
    omega

theorem exists_digit {c : Char} (h : c.isDigit = true) : ∃ d, digitChar d = c := by
  have hcode : ∀ d : Fin 10, (digitChar d).toNat = 48 + d := by decide
  obtain ⟨hlow, hhigh⟩ := toNat_of_isDigit h
  refine ⟨⟨c.toNat - 48, by omega⟩, Char.toNat_inj.1 ?_⟩
  rw [hcode]
  exact Nat.add_sub_of_le hlow

theorem exists_digits {cs : List Char} (h : cs.all Char.isDigit = true) :
    ∃ ds : List (Fin 10), ds.map digitChar = cs := by
  induction cs with
  | nil => exact ⟨[], rfl⟩
  | cons c cs ih =>
    rw [List.all_cons, Bool.and_eq_true] at h
    obtain ⟨d, rfl⟩ := exists_digit h.1
    obtain ⟨ds, rfl⟩ := ih h.2
    exact ⟨d :: ds, rfl⟩

/-- Integers are printed in decimal notation. -/
theorem numeral_toString (n : Int) : Numeral n (toString n).toList := by
  have hdigits (m : Nat) : ∃ ds : List (Fin 10), ds ≠ [] ∧
      ds.map digitChar = Nat.toDigits 10 m ∧ digitsValue ds = m := by
    obtain ⟨ds, hds⟩ := exists_digits (all_isDigit_toDigits m)
    refine ⟨ds, ?_, hds, ?_⟩
    · rintro rfl
      exact Nat.toDigits_ne_nil hds.symm
    · rw [← decimalValue_digits, hds, decimalValue_toDigits]
  rw [toList_toString_int]
  cases n with
  | ofNat m =>
    obtain ⟨ds, hne, hds, hvalue⟩ := hdigits m
    have hplain := Numeral.plain ds hne
    rw [hds, hvalue] at hplain
    exact hplain
  | negSucc m =>
    obtain ⟨ds, hne, hds, hvalue⟩ := hdigits (m + 1)
    have hminus := Numeral.minus ds hne
    rw [hds, hvalue] at hminus
    exact hminus

namespace Numeral

variable {n : Int} {w : List Char}

theorem integer?_eq (h : Numeral n w) : integer? w = some n := by
  cases h with
  | plain ds hne =>
    rw [integer?_of_digits (by simpa using hne) (all_isDigit_digits _), decimalValue_digits]
  | minus ds hne =>
    rw [integer?_of_minus (by simpa using hne) (all_isDigit_digits _), decimalValue_digits]

theorem isDelimiter_of_mem (h : Numeral n w) {c : Char} (hc : c ∈ w) : isDelimiter c = false := by
  have hdigit {ds : List (Fin 10)} (hc : c ∈ ds.map digitChar) : isDelimiter c = false := by
    obtain ⟨d, _, rfl⟩ := List.mem_map.1 hc
    exact isDelimiter_of_isDigit (isDigit_digitChar d)
  cases h with
  | plain ds hne => exact hdigit hc
  | minus ds hne =>
    rcases List.mem_cons.1 hc with rfl | hc
    · decide
    · exact hdigit hc

end Numeral

/-! ### Ways to write a token -/

inductive Token.Written : Token → List Char → Prop
  | roundOpening : Written .opening ['(']
  | squareOpening : Written .opening ['[']
  | roundClosing : Written .closing [')']
  | squareClosing : Written .closing [']']
  | shortTrue : Written (.atom (.lit (.bool true))) "#t".toList
  | longTrue : Written (.atom (.lit (.bool true))) "#true".toList
  | shortFalse : Written (.atom (.lit (.bool false))) "#f".toList
  | longFalse : Written (.atom (.lit (.bool false))) "#false".toList
  | int {n : Int64} {w : List Char} (h : Numeral n.toInt w) : Written (.atom (.lit (.int n))) w
  | name {x : Name} (h : isIdentifier x = true) : Written (.atom (.name x)) x.toList

/-- Text that may follow a token directly. Only a word needs an end. -/
def Token.Admits : Token → List Char → Prop
  | .atom _, rest => Ends rest
  | _, _ => True

namespace Token.Written

variable {t : Token} {w : List Char}

theorem scans (h : t.Written w) : Scans t.Admits w [⟨t, 0⟩] := by
  have hbool {w : List Char} {b : Bool} (hne : w ≠ []) (hchars : w.all (!isDelimiter ·) = true)
      (hword : Atom.ofWord w = .ok (.lit (.bool b))) :
      Scans Ends w [⟨.atom (.lit (.bool b)), 0⟩] :=
    .word hne (fun c hc => by simpa using List.all_eq_true.1 hchars c hc) hword
  cases h with
  | roundOpening => exact .opening (.inl rfl)
  | squareOpening => exact .opening (.inr rfl)
  | roundClosing => exact .closing (.inl rfl)
  | squareClosing => exact .closing (.inr rfl)
  | shortTrue => exact hbool (by decide) (by decide) (by decide)
  | longTrue => exact hbool (by decide) (by decide) (by decide)
  | shortFalse => exact hbool (by decide) (by decide) (by decide)
  | longFalse => exact hbool (by decide) (by decide) (by decide)
  | int hn =>
    have hne : w ≠ [] := by
      rintro rfl
      cases hn.integer?_eq
    exact .word hne (fun c hc => hn.isDelimiter_of_mem hc) (ofWord_of_integer? hn.integer?_eq)
  | name hx => exact scans_name hx

/-- A bracket ends a word that stands before it. -/
theorem ends_of_bracket (h : t.Written w) (hbracket : ∀ a, t ≠ .atom a) (rest : List Char) :
    Ends (w ++ rest) := by
  cases h with
  | roundOpening => exact ends_cons (by decide) rest
  | squareOpening => exact ends_cons (by decide) rest
  | roundClosing => exact ends_cons (by decide) rest
  | squareClosing => exact ends_cons (by decide) rest
  | _ => exact absurd rfl (hbracket _)

end Token.Written

/-! ### Tokens laid out as text -/

/-- A token as it stands in a text, with what follows it up to the next token. -/
structure Lexeme where
  token : Token
  word : List Char
  gap : List Char
  written : token.Written word
  isGap : Gap gap

namespace Lexeme

def text (ls : List Lexeme) : List Char :=
  ls.flatMap fun l => l.word ++ l.gap

/-- A lexeme may stand before another one: something stands between two words. -/
def Before (l l' : Lexeme) : Prop :=
  ∀ a a', l.token = .atom a → l'.token = .atom a' → l.gap ≠ []

/-- The tokens of lexemes, each with the number of bytes before it. -/
def located (ls : List Lexeme) : List Located :=
  ls.mapIdx fun i l => ⟨l.token, byteLength (text (ls.take i))⟩

variable {l : Lexeme} {ls : List Lexeme}

theorem text_cons (l : Lexeme) (ls : List Lexeme) :
    text (l :: ls) = l.word ++ (l.gap ++ text ls) := by
  rw [text, List.flatMap_cons, List.append_assoc, ← text]

theorem map_moved_located (ls : List Lexeme) (n : Nat) : (located ls).map (·.moved n) =
    ls.mapIdx fun i l => ⟨l.token, n + byteLength (text (ls.take i))⟩ := by
  simp only [located, List.mapIdx_eq_zipIdx_map, List.map_map]
  rfl

theorem located_cons (l : Lexeme) (ls : List Lexeme) : located (l :: ls) =
    ⟨l.token, 0⟩ :: (located ls).map (·.moved (byteLength l.word + byteLength l.gap)) := by
  rw [located, List.mapIdx_cons, map_moved_located]
  simp only [List.take_succ_cons, text_cons, byteLength_append, Nat.add_assoc]
  rfl

theorem admits (h : (l :: ls).IsChain Before) {rest : List Char} (hrest : Ends rest) :
    l.token.Admits (l.gap ++ text ls ++ rest) := by
  cases ht : l.token with
  | opening => trivial
  | closing => trivial
  | atom a =>
    show Ends _
    rw [List.append_assoc]
    by_cases hgap : l.gap = []
    · -- where two words may not touch, the text ends or a bracket comes next
      rw [hgap, List.nil_append]
      cases ls with
      | nil => exact hrest
      | cons l' ls =>
        have hbefore := (List.isChain_cons_cons.1 h).1
        rw [text_cons, List.append_assoc]
        exact l'.written.ends_of_bracket (fun a' ht' => hbefore a a' ht ht' hgap) _
    · exact l.isGap.ends hgap _

theorem scans (h : ls.IsChain Before) : Scans Ends (text ls) (located ls) := by
  induction ls with
  | nil => exact .nil
  | cons l ls ih =>
    have htail := l.isGap.scans.append (ih h.of_cons) fun _ _ => trivial
    have hall := l.written.scans.append htail fun rest hrest => admits h hrest
    rw [text_cons, located_cons]
    simpa [moved_moved, Function.comp_def] using hall

end Lexeme

theorem byteLength_eq_utf8ByteSize (cs : List Char) :
    byteLength cs = (String.ofList cs).utf8ByteSize := by
  induction cs with
  | nil => rfl
  | cons c cs ih =>
    have hsplit : String.ofList (c :: cs) = String.singleton c ++ String.ofList cs := by
      rw [String.singleton_eq_ofList, ← String.ofList_append]
      rfl
    rw [hsplit, String.utf8ByteSize_append, String.utf8ByteSize_singleton, ← ih,
      ← List.singleton_append, byteLength_append]
    simp [byteLength]

/-- Tokens are found again in every layout. Whatever stands before the first token, between the
tokens and after the last one, and however each of them is written, they come out in their order,
each with the number of bytes of the text before it. -/
theorem ofText_of_lexemes (lead : List Char) (ls : List Lexeme) (hlead : Gap lead)
    (hls : ls.IsChain Lexeme.Before) :
    Token.ofText (String.ofList (lead ++ Lexeme.text ls)) = .ok (ls.mapIdx fun i l =>
      ⟨l.token, (String.ofList (lead ++ Lexeme.text (ls.take i))).utf8ByteSize⟩) := by
  have hscans := hlead.scans.append (Lexeme.scans hls) fun _ _ => trivial
  rw [← String.toList_ofList (l := lead ++ Lexeme.text ls)] at hscans
  rw [ofText_of_scans hscans, List.nil_append, Lexeme.map_moved_located]
  simp only [← byteLength_eq_utf8ByteSize, byteLength_append]

/-- Six tokens with and without something between them. -/
def mixedLexemes : List Lexeme :=
  [⟨.opening, ['['], [], .squareOpening, .nil⟩,
    ⟨.atom (.name "λ"), "λ".toList, ";(\n".toList, .name (by decide),
      .comment ['('] (by decide) .nil⟩,
    ⟨.atom (.lit (.int (-7))), "-007".toList, [], .int (.minus [0, 0, 7] (by decide)), .nil⟩,
    ⟨.closing, [']'], [], .squareClosing, .nil⟩,
    ⟨.atom (.lit (.bool false)), "#false".toList, ['\u2028'], .longFalse, .blank (by decide) .nil⟩,
    ⟨.atom (.lit (.int Int64.minValue)), (toString Int64.minValue.toInt).toList, [],
      .int (numeral_toString _), .nil⟩]

theorem ofText_mixedLexemes : Gap "\u3000;é)\n".toList ∧ mixedLexemes.IsChain Lexeme.Before ∧
    Token.ofText "\u3000;é)\n[λ;(\n-007]#false\u2028-9223372036854775808" =
      .ok [⟨.opening, 8⟩, ⟨.atom (.name "λ"), 9⟩, ⟨.atom (.lit (.int (-7))), 14⟩, ⟨.closing, 18⟩,
        ⟨.atom (.lit (.bool false)), 19⟩, ⟨.atom (.lit (.int Int64.minValue)), 28⟩] := by
  have hlead : Gap "\u3000;é)\n".toList :=
    .blank (by decide) (.comment ['é', ')'] (by decide) .nil)
  have hbefore : mixedLexemes.IsChain Lexeme.Before := by
    simp [mixedLexemes, Lexeme.Before]
  refine ⟨hlead, hbefore, ?_⟩
  refine (congrArg Token.ofText ?_).trans
    ((ofText_of_lexemes _ mixedLexemes hlead hbefore).trans (congrArg Except.ok ?_))
  · decide +kernel
  · decide +kernel

end MiniScheme
