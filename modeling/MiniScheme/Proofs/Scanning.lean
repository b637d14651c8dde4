import Mathlib.Data.List.Basic
import MiniScheme.Token

/-!
# Scanning text

How tokens are found in text that is put together from blanks, brackets and words. A word ends
where the text ends or a delimiter follows; blanks and brackets need nothing after them.
-/

namespace MiniScheme

theorem foldl_utf8Size (cs : List Char) (n : Nat) :
    cs.foldl (fun n c => n + c.utf8Size) n = n + byteLength cs := by
  unfold byteLength
  induction cs generalizing n with
  | nil => rfl
  | cons c cs ih =>
    rw [List.foldl_cons, List.foldl_cons, ih, ih (0 + c.utf8Size)]
    omega

theorem byteLength_append (cs cs' : List Char) :
    byteLength (cs ++ cs') = byteLength cs + byteLength cs' := by
  rw [byteLength, List.foldl_append, foldl_utf8Size]
  rfl

/-- A token of a text that starts at an offset. -/
def Located.moved (t : Located) (offset : Nat) : Located :=
  ⟨t.token, offset + t.offset⟩

theorem moved_moved (t : Located) (m n : Nat) : (t.moved m).moved n = t.moved (n + m) := by
  simp only [Located.moved, Nat.add_assoc]

/-- Before any text as in `Q`, the characters are scanned as these tokens, whose offsets count
from the first of the characters. -/
def Scans (Q : List Char → Prop) (cs : List Char) (ts : List Located) : Prop :=
  ∀ offset rest, Q rest → Token.scan offset (cs ++ rest) =
    (Token.scan (offset + byteLength cs) rest).map (ts.map (·.moved offset) ++ ·)

/-- The text is empty or starts with a delimiter. -/
def Ends (rest : List Char) : Prop :=
  ∀ c, rest.head? = some c → isDelimiter c = true

theorem ends_cons {c : Char} (h : isDelimiter c = true) (rest : List Char) : Ends (c :: rest) := by
  intro c' hc'
  injection hc' with hc'
  exact hc' ▸ h

/-- Text that may stand anywhere. -/
abbrev Anything (_ : List Char) : Prop :=
  True

variable {Q Q' : List Char → Prop} {cs cs' : List Char} {ts ts' : List Located}

namespace Scans

theorem map_nothing (r : Except Error (List Located)) (offset : Nat) :
    r.map (([] : List Located).map (·.moved offset) ++ ·) = r := by
  cases r <;> rfl

theorem nil : Scans Q [] [] :=
  fun _ _ _ => (map_nothing ..).symm

theorem append (h : Scans Q cs ts) (h' : Scans Q' cs' ts')
    (hQ : ∀ rest, Q' rest → Q (cs' ++ rest)) :
    Scans Q' (cs ++ cs') (ts ++ ts'.map (·.moved (byteLength cs))) := by
  intro offset rest hrest
  rw [List.append_assoc, h offset (cs' ++ rest) (hQ rest hrest), h' _ rest hrest,
    byteLength_append, ← Nat.add_assoc]
  cases Token.scan (offset + byteLength cs + byteLength cs') rest with
  | error err => rfl
  | ok us => simp [Except.map, moved_moved]

theorem imp (h : Scans Q cs ts) (hQ : ∀ rest, Q' rest → Q rest) : Scans Q' cs ts :=
  fun offset rest hrest => h offset rest (hQ rest hrest)

theorem blank {c : Char} (h : Text.isBlank c = true) : Scans Anything [c] [] := by
  intro offset rest _
  rw [List.singleton_append, Token.scan, if_pos h, map_nothing]
  simp [byteLength]

/-- A comment is skipped up to the line break, which is blank. -/
theorem comment {cs : List Char} (h : '\n' ∉ cs) : Scans Anything (';' :: (cs ++ ['\n'])) [] := by
  have hskipped : Scans (·.head? = some '\n') (';' :: cs) [] := by
    intro offset rest hrest
    have hcs : ∀ c ∈ cs, decide (c ≠ '\n') = true := by
      intro c hc
      exact decide_eq_true fun heq => h (heq ▸ hc)
    cases rest with
    | nil => cases hrest
    | cons c rest =>
      injection hrest with hrest
      subst hrest
      rw [List.cons_append, Token.scan, if_neg (by decide), if_pos rfl,
        List.takeWhile_append_of_pos hcs, List.dropWhile_append_of_pos hcs,
        List.takeWhile_cons_of_neg (by decide), List.dropWhile_cons_of_neg (by decide),
        List.append_nil, map_nothing]
  exact hskipped.append (blank (by decide)) fun _ _ => rfl

theorem opening {c : Char} (h : c = '(' ∨ c = '[') : Scans Anything [c] [⟨.opening, 0⟩] := by
  intro offset rest _
  have hblank : Text.isBlank c = false := by rcases h with rfl | rfl <;> decide
  have hcomment : c ≠ ';' := by rcases h with rfl | rfl <;> decide
  rw [List.singleton_append, Token.scan, if_neg (by simp [hblank]), if_neg hcomment, if_pos h]
  simp [byteLength, Located.moved]

theorem closing {c : Char} (h : c = ')' ∨ c = ']') : Scans Anything [c] [⟨.closing, 0⟩] := by
  intro offset rest _
  have hblank : Text.isBlank c = false := by rcases h with rfl | rfl <;> decide
  have hcomment : c ≠ ';' := by rcases h with rfl | rfl <;> decide
  have hopen : ¬(c = '(' ∨ c = '[') := by rcases h with rfl | rfl <;> decide
  rw [List.singleton_append, Token.scan, if_neg (by simp [hblank]), if_neg hcomment,
    if_neg hopen, if_pos h]
  simp [byteLength, Located.moved]

theorem takeWhile_of_ends {w rest : List Char} (h : ∀ c ∈ w, isDelimiter c = false)
    (hrest : Ends rest) : (w ++ rest).takeWhile (!isDelimiter ·) = w ∧
      (w ++ rest).dropWhile (!isDelimiter ·) = rest := by
  have hw : ∀ c ∈ w, (!isDelimiter c) = true := fun c hc => by simp [h c hc]
  rw [List.takeWhile_append_of_pos hw, List.dropWhile_append_of_pos hw]
  cases rest with
  | nil => simp
  | cons c rest => simp [hrest c rfl]

theorem word {w : List Char} {a : Atom} (hne : w ≠ []) (h : ∀ c ∈ w, isDelimiter c = false)
    (ha : Atom.ofWord w = .ok a) : Scans Ends w [⟨.atom a, 0⟩] := by
  intro offset rest hrest
  cases w with
  | nil => exact absurd rfl hne
  | cons c cs =>
    obtain ⟨hc, hcs⟩ := List.forall_mem_cons.1 h
    simp only [isDelimiter, Bool.or_eq_false_iff, decide_eq_false_iff_not] at hc
    obtain ⟨⟨⟨⟨⟨hblank, hround⟩, hround'⟩, hcomment⟩, hsquare⟩, hsquare'⟩ := hc
    obtain ⟨htake, hdrop⟩ := takeWhile_of_ends hcs hrest
    rw [List.cons_append, Token.scan, if_neg (by simp [hblank]), if_neg hcomment,
      if_neg (not_or.2 ⟨hround, hsquare⟩), if_neg (not_or.2 ⟨hround', hsquare'⟩)]
    simp only [htake, hdrop, ha]
    rfl

end Scans

/-! ### Between tokens -/

/-- What may stand around tokens: blank characters, and comments with the line breaks that end
them. -/
inductive Gap : List Char → Prop
  | nil : Gap []
  | blank {c : Char} {cs : List Char} (h : Text.isBlank c = true) (hcs : Gap cs) : Gap (c :: cs)
  | comment (text : List Char) {cs : List Char} (h : '\n' ∉ text) (hcs : Gap cs) :
      Gap (';' :: (text ++ '\n' :: cs))

namespace Gap

theorem of_blanks (h : ∀ c ∈ cs, Text.isBlank c = true) : Gap cs := by
  induction cs with
  | nil => exact .nil
  | cons c cs ih =>
    obtain ⟨hc, hcs⟩ := List.forall_mem_cons.1 h
    exact .blank hc (ih hcs)

theorem scans (h : Gap cs) : Scans Anything cs [] := by
  induction h with
  | nil => exact .nil
  | blank hc _ ih => exact (Scans.blank hc).append ih fun _ _ => trivial
  | comment text htext _ ih =>
    rw [List.append_cons, ← List.cons_append]
    exact (Scans.comment htext).append ih fun _ _ => trivial

theorem ends (h : Gap cs) (hne : cs ≠ []) (rest : List Char) : Ends (cs ++ rest) := by
  cases h with
  | nil => exact absurd rfl hne
  | blank hblank _ => exact ends_cons (by simp [isDelimiter, hblank]) _
  | comment _ _ _ => exact ends_cons (by decide) _

end Gap

/-! ### Literals as words -/

theorem decimalValue_toDigits (n : Nat) : decimalValue (Nat.toDigits 10 n) = n :=
  Nat.ofDigitChars_ten_toDigits

theorem all_isDigit_toDigits (n : Nat) : (Nat.toDigits 10 n).all Char.isDigit = true :=
  List.all_eq_true.2 fun _ hc => Nat.isDigit_of_mem_toDigits (by decide) (by decide) hc

theorem integer?_of_digits {cs : List Char} (hne : cs ≠ []) (h : cs.all Char.isDigit = true) :
    integer? cs = some (decimalValue cs : Int) := by
  cases cs with
  | nil => exact absurd rfl hne
  | cons c cs =>
    have hsign : c ≠ '-' := by
      rintro rfl
      simp at h
    unfold integer?
    split
    · rename_i heq
      exact absurd (List.cons.inj heq).1 hsign
    · rename_i heq
      rw [← heq, if_pos h]
    · rename_i heq
      cases heq

theorem integer?_of_minus {cs : List Char} (hne : cs ≠ []) (h : cs.all Char.isDigit = true) :
    integer? ('-' :: cs) = some (-(decimalValue cs : Int)) := by
  cases cs with
  | nil => exact absurd rfl hne
  | cons c cs => rw [integer?, if_pos h]

theorem toList_toString_int (n : Int) : (toString n).toList = match n with
    | .ofNat m => Nat.toDigits 10 m
    | .negSucc m => '-' :: Nat.toDigits 10 (m + 1) := by
  rw [Int.toString_eq_repr]
  cases n with
  | ofNat m => exact Nat.toList_repr
  | negSucc m =>
    show ("-" ++ (m + 1).repr).toList = _
    rw [String.toList_append, Nat.toList_repr]
    rfl

theorem integer?_toString (n : Int) : integer? (toString n).toList = some n := by
  rw [toList_toString_int]
  cases n with
  | ofNat m =>
    show integer? (Nat.toDigits 10 m) = some (m : Int)
    rw [integer?_of_digits Nat.toDigits_ne_nil (all_isDigit_toDigits m), decimalValue_toDigits]
  | negSucc m =>
    show integer? ('-' :: Nat.toDigits 10 (m + 1)) = some (Int.negSucc m)
    rw [integer?_of_minus Nat.toDigits_ne_nil (all_isDigit_toDigits _), decimalValue_toDigits]
    rfl

theorem inWordRange_toInt (n : Int64) : inWordRange n.toInt = true := by
  simp only [inWordRange, Bool.and_eq_true, decide_eq_true_eq]
  exact ⟨n.minValue_le_toInt, n.toInt_le⟩

theorem toNat_of_isDigit {c : Char} (h : c.isDigit = true) : 48 ≤ c.toNat ∧ c.toNat ≤ 57 := by
  simp only [Char.isDigit, Bool.and_eq_true, decide_eq_true_eq, ge_iff_le,
    UInt32.le_iff_toNat_le] at h
  exact h

theorem isDelimiter_of_isDigit {c : Char} (h : c.isDigit = true) : isDelimiter c = false := by
  have hrange := toNat_of_isDigit h
  have hdigits : ∀ n < 58, 48 ≤ n → Text.inRanges Text.blankRanges n = false := by decide
  have hblank : Text.isBlank c = false := hdigits c.toNat (by omega) hrange.1
  have hne : ∀ d : Char, d.isDigit = false → c ≠ d := by
    rintro d hd rfl
    exact absurd h (by simp [hd])
  simp only [isDelimiter, hblank, hne '(' rfl, hne ')' rfl, hne ';' rfl, hne '[' rfl, hne ']' rfl,
    decide_false, Bool.or_self]

theorem mem_toString_int {n : Int} {c : Char} (h : c ∈ (toString n).toList) :
    c.isDigit = true ∨ c = '-' := by
  rw [toList_toString_int] at h
  cases n with
  | ofNat m => exact .inl (Nat.isDigit_of_mem_toDigits (by decide) (by decide) h)
  | negSucc m =>
    rcases List.mem_cons.1 h with h | h
    · exact .inr h
    · exact .inl (Nat.isDigit_of_mem_toDigits (by decide) (by decide) h)

/-- A word that does not start with `#` means an integer if it looks like one. -/
theorem ofWord_of_head {w : List Char} (h : w.head? ≠ some '#') :
    Atom.ofWord w = match integer? w with
      | some n => if inWordRange n then .ok (.lit (.int (.ofInt n)))
        else .error (.integerRange (String.ofList w))
      | none => .ok (.name (String.ofList w)) := by
  unfold Atom.ofWord
  refine (if_neg ?_).trans ((if_neg ?_).trans (if_neg h))
  · rintro (rfl | rfl) <;> exact h rfl
  · rintro (rfl | rfl) <;> exact h rfl

/-- A word that is read as a 64-bit integer means that integer. -/
theorem ofWord_of_integer? {n : Int64} {w : List Char} (h : integer? w = some n.toInt) :
    Atom.ofWord w = .ok (.lit (.int n)) := by
  have hhead : w.head? ≠ some '#' := by
    intro hhead
    obtain ⟨cs, rfl⟩ := List.head?_eq_some_iff.1 hhead
    simp [integer?] at h
  rw [ofWord_of_head hhead, h]
  simp only [inWordRange_toInt, if_true, Int64.ofInt_toInt]

theorem Literal.isDelimiter_of_mem_text (v : Literal) :
    ∀ c ∈ v.text.toList, isDelimiter c = false := by
  intro c hc
  cases v with
  | bool b =>
    have hall : ∀ b : Bool, (Literal.bool b).text.toList.all (!isDelimiter ·) = true := by decide
    simpa using List.all_eq_true.1 (hall b) c hc
  | int n =>
    rcases mem_toString_int hc with h | rfl
    · exact isDelimiter_of_isDigit h
    · decide

theorem Literal.scans_text (v : Literal) : Scans Ends v.text.toList [⟨.atom (.lit v), 0⟩] := by
  have hchars := v.isDelimiter_of_mem_text
  cases v with
  | bool b => cases b <;> exact .word (by decide) hchars (by decide)
  | int n =>
    refine .word ?_ hchars (ofWord_of_integer? (integer?_toString _))
    intro hnil
    have hvalue := integer?_toString n.toInt
    rw [show (toString n.toInt).toList = [] from hnil] at hvalue
    cases hvalue

/-! ### Names as words -/

/-- Whether a word is an optional minus followed by at least one digit and digits only. -/
def isIntegerWord (cs : List Char) : Bool :=
  let digits := if cs.head? = some '-' then cs.tail else cs
  !digits.isEmpty && digits.all Char.isDigit

theorem integer?_eq_none {cs : List Char} (h : isIntegerWord cs = false) : integer? cs = none := by
  unfold integer?
  split
  · rename_i c cs
    rw [if_neg]
    intro hdigits
    simp [isIntegerWord, hdigits] at h
  · rename_i c cs hsign
    rw [if_neg]
    intro hdigits
    have hminus : c ≠ '-' := by
      rintro rfl
      simp at hdigits
    simp [isIntegerWord, hminus, hdigits] at h
  · rfl

/-- Whether a text is an identifier of the language: not empty, without delimiters, not starting
with `#`, and no integer. -/
def isIdentifier (x : Name) : Bool :=
  !x.toList.isEmpty && x.toList.all (!isDelimiter ·) && x.toList.head? != some '#' &&
    !isIntegerWord x.toList

theorem scans_name {x : Name} (h : isIdentifier x = true) :
    Scans Ends x.toList [⟨.atom (.name x), 0⟩] := by
  simp only [isIdentifier, Bool.and_eq_true, Bool.not_eq_true', bne_iff_ne, List.all_eq_true,
    List.isEmpty_eq_false_iff] at h
  obtain ⟨⟨⟨hne, hchars⟩, hhead⟩, hinteger⟩ := h
  refine .word hne hchars ?_
  rw [ofWord_of_head hhead, integer?_eq_none hinteger, String.ofList_toList]

/-! ### Whole texts -/

theorem ofText_of_scans {source : String} (h : Scans Ends source.toList ts) :
    Token.ofText source = .ok ts := by
  have hall := h 0 [] nofun
  have hplace : ts.map (·.moved 0) = ts := by
    simp only [Located.moved, Nat.zero_add, List.map_id']
  rw [List.append_nil, Token.scan, Except.map, hplace, List.append_nil] at hall
  exact hall

end MiniScheme
