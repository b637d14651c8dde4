import MiniScheme.Proofs.ProperTypes

/-!
# The written form of types

An arrow among the elements of an arrow stands in parentheses and a procedure without parameters
shows an empty list of them, so the text of a type without empty arrows determines the type: an
element ends where a blank or a closing parenthesis stands, and only an empty parameter list starts
with two parentheses that close at once.
-/

namespace MiniScheme

namespace Ty

/-! ### Elements of arrows -/

/-- A type as it is written among the elements of an arrow. -/
def elementText (t : Ty) : List Char :=
  if t.isArrow then '(' :: (t.text.toList ++ [')']) else t.text.toList

/-- The elements of an arrow after its first one. -/
def tailText (ts : List Ty) : List Char :=
  ts.flatMap fun t => " -> ".toList ++ elementText t

@[simp] theorem elementText_var (x : Nat) : elementText (var x) = 't' :: Nat.toDigits 10 x := by
  simp [elementText, isArrow, text, varText, Nat.repr]

@[simp] theorem elementText_int : elementText int = ['i', 'n', 't'] := by
  simp [elementText, isArrow, text]

@[simp] theorem elementText_bool : elementText bool = ['b', 'o', 'o', 'l'] := by
  simp [elementText, isArrow, text]

@[simp] theorem elementText_arrow (ts : List Ty) :
    elementText (arrow ts) = '(' :: ((arrow ts).text.toList ++ [')']) :=
  rfl

theorem map_toList_elementTexts (ts : List Ty) :
    (elementTexts ts).map String.toList = ts.map elementText := by
  induction ts with
  | nil => rfl
  | cons t ts ih =>
    rw [elementTexts, List.map_cons, List.map_cons, ih]
    cases h : t.isArrow with
    | true => simp [elementText, h]
    | false => simp [elementText, h]

theorem intercalate_elementText (t : Ty) (ts : List Ty) :
    " -> ".toList.intercalate ((t :: ts).map elementText) = elementText t ++ tailText ts := by
  induction ts generalizing t with
  | nil => simp [tailText]
  | cons u us ih =>
    rw [List.map_cons, List.map_cons, List.intercalate_cons_cons, ← List.map_cons, ih]
    simp [tailText]

theorem toList_text_arrow (t : Ty) (ts : List Ty) : (arrow (t :: ts)).text.toList =
    (if ts = [] then "() -> ".toList else []) ++ (elementText t ++ tailText ts) := by
  rw [text, String.toList_append, String.toList_intercalate, map_toList_elementTexts,
    intercalate_elementText]
  cases ts with
  | nil => simp
  | cons u us => simp

/-- What may follow an element: nothing, a blank or a closing parenthesis. -/
def Ends (r : List Char) : Prop :=
  ∀ c ∈ r.head?, c = ' ' ∨ c = ')'

/-- What may follow a whole type: nothing or a closing parenthesis. -/
def Closes (r : List Char) : Prop :=
  ∀ c ∈ r.head?, c = ')'

theorem closes_nil : Closes [] :=
  nofun

theorem closes_cons (r : List Char) : Closes (')' :: r) := by
  intro c hc
  exact (Option.mem_some.1 hc).symm

theorem ends_tailText (ts : List Ty) {r : List Char} (hr : Closes r) : Ends (tailText ts ++ r) := by
  cases ts with
  | nil => exact fun c hc => .inr (hr c hc)
  | cons t ts => exact fun c hc => .inl (Option.mem_some.1 hc).symm

/-! ### Where an element ends -/

theorem takeWhile_isDigit {x : Nat} {r : List Char} (hr : Ends r) :
    (Nat.toDigits 10 x ++ r).takeWhile Char.isDigit = Nat.toDigits 10 x := by
  have hdigits : ∀ c ∈ Nat.toDigits 10 x, c.isDigit = true :=
    fun c hc => Nat.isDigit_of_mem_toDigits (by decide) (by decide) hc
  have hrest : r.takeWhile Char.isDigit = [] := by
    cases r with
    | nil => rfl
    | cons c r =>
      have hc : c.isDigit = false := by
        rcases hr c rfl with rfl | rfl
        · decide
        · decide
      rw [List.takeWhile_cons, hc]
      rfl
  rw [List.takeWhile_append_of_pos hdigits, hrest, List.append_nil]

theorem toDigits_append_inj {x y : Nat} {r r' : List Char} (hr : Ends r) (hr' : Ends r')
    (h : Nat.toDigits 10 x ++ r = Nat.toDigits 10 y ++ r') : x = y ∧ r = r' := by
  have hdigits : Nat.toDigits 10 x = Nat.toDigits 10 y := by
    rw [← takeWhile_isDigit hr, h, takeWhile_isDigit hr']
  have hvalue := congrArg (fun ds => Nat.ofDigitChars 10 ds 0) hdigits
  simp only [Nat.ofDigitChars_ten_toDigits] at hvalue
  rw [hdigits] at h
  exact ⟨hvalue, List.append_cancel_left h⟩

/-- The text of the element shows which type it is and where it ends. -/
def Splits (a : Ty) : Prop :=
  ∀ {b : Ty} {r r' : List Char}, b.Proper → Ends r → Ends r' →
    elementText a ++ r = elementText b ++ r' → a = b ∧ r = r'

theorem tailText_append_inj {ts us : List Ty} {r r' : List Char} (hts : ∀ t ∈ ts, Splits t)
    (hus : ∀ u ∈ us, u.Proper) (hr : Closes r) (hr' : Closes r')
    (h : tailText ts ++ r = tailText us ++ r') : ts = us ∧ r = r' := by
  -- a list that goes on shows a blank where one that is over shows a parenthesis or nothing
  have hblank {v : Ty} {vs : List Ty} {q q' : List Char} (hq : Closes q) :
      q ≠ tailText (v :: vs) ++ q' := by
    rintro rfl
    exact absurd (hq ' ' rfl) (by decide)
  induction ts generalizing us with
  | nil =>
    cases us with
    | nil => exact ⟨rfl, h⟩
    | cons u us => exact absurd h (hblank hr)
  | cons t ts ih =>
    cases us with
    | nil => exact absurd h.symm (hblank hr')
    | cons u us =>
      obtain ⟨ht, hts'⟩ := List.forall_mem_cons.1 hts
      obtain ⟨hu, hus'⟩ := List.forall_mem_cons.1 hus
      simp only [tailText, List.flatMap_cons, List.append_assoc] at h
      obtain ⟨rfl, hrest⟩ := ht hu (ends_tailText ts hr) (ends_tailText us hr')
        (List.append_cancel_left h)
      obtain ⟨rfl, rfl⟩ := ih hts' hus' hrest
      exact ⟨rfl, rfl⟩

/-! ### The two forms of a type -/

/-- The elements of an arrow; any other type stands alone. -/
def spine : Ty → List Ty
  | arrow ts => ts
  | t => [t]

/-- The type whose elements are joined in its text. -/
def chain (t : Ty) : List Ty → Ty
  | [] => t
  | u :: us => arrow (t :: u :: us)

theorem Proper.of_mem_spine {a t : Ty} (ha : a.Proper) (ht : t ∈ a.spine) : t.Proper := by
  cases ha with
  | var x => exact List.mem_singleton.1 ht ▸ .var x
  | int => exact List.mem_singleton.1 ht ▸ .int
  | bool => exact List.mem_singleton.1 ht ▸ .bool
  | arrow _ h => exact h t ht

theorem Proper.text_cases {a : Ty} (ha : a.Proper) :
    (∃ t, a = .arrow [t] ∧ a.text.toList = "() -> ".toList ++ elementText t) ∨
    ∃ t ts, a = chain t ts ∧ a.spine = t :: ts ∧
      a.text.toList = elementText t ++ tailText ts := by
  cases ha with
  | var x => exact .inr ⟨.var x, [], rfl, rfl, (List.append_nil _).symm⟩
  | int => exact .inr ⟨.int, [], rfl, rfl, (List.append_nil _).symm⟩
  | bool => exact .inr ⟨.bool, [], rfl, rfl, (List.append_nil _).symm⟩
  | @arrow ts hne _ =>
    match ts with
    | [] => exact absurd rfl hne
    | [t] => exact .inl ⟨t, rfl, by simp [toList_text_arrow, tailText]⟩
    | t :: u :: us => exact .inr ⟨t, u :: us, rfl, rfl, by simp [toList_text_arrow]⟩

theorem elementText_eq_cons (t : Ty) : ∃ c cs, elementText t = c :: cs ∧ c ≠ ')' := by
  cases t with
  | var x => exact ⟨_, _, elementText_var x, by decide⟩
  | int => exact ⟨_, _, elementText_int, by decide⟩
  | bool => exact ⟨_, _, elementText_bool, by decide⟩
  | arrow ts => exact ⟨_, _, elementText_arrow ts, by decide⟩

theorem Proper.text_eq_cons {a : Ty} (ha : a.Proper) :
    ∃ c cs, a.text.toList = c :: cs ∧ c ≠ ')' := by
  rcases ha.text_cases with ⟨t, _, htext⟩ | ⟨t, ts, _, _, htext⟩
  · exact ⟨_, _, htext, by decide⟩
  · obtain ⟨c, cs, ht, hc⟩ := elementText_eq_cons t
    exact ⟨c, cs ++ tailText ts, by rw [htext, ht, List.cons_append], hc⟩

theorem Proper.elementText_append_ne {t : Ty} (ht : t.Proper) (l l' : List Char) :
    elementText t ++ l ≠ "() -> ".toList ++ l' := by
  intro h
  cases ht with
  | var x => simp at h
  | int => simp at h
  | bool => simp at h
  | arrow hne helements =>
    -- an element that starts with a parenthesis does not close it at once
    obtain ⟨c, cs, htext, hc⟩ := (Proper.arrow hne helements).text_eq_cons
    rw [elementText_arrow, htext] at h
    simp [hc] at h

theorem text_append_inj {a b : Ty} {r r' : List Char} (ha : a.Proper) (hb : b.Proper)
    (hsplits : ∀ t ∈ a.spine, Splits t) (hr : Closes r) (hr' : Closes r')
    (h : a.text.toList ++ r = b.text.toList ++ r') : a = b ∧ r = r' := by
  rcases ha.text_cases with ⟨t, rfl, htext⟩ | ⟨t, ts, hchain, hspine, htext⟩
  · rcases hb.text_cases with ⟨u, rfl, htext'⟩ | ⟨u, us, hchain', hspine', htext'⟩
    · have hu : u.Proper := hb.of_mem_spine (List.mem_singleton_self u)
      rw [htext, htext', List.append_assoc, List.append_assoc] at h
      obtain ⟨rfl, hrest⟩ := hsplits t (List.mem_singleton_self t) hu (ends_tailText [] hr)
        (ends_tailText [] hr') (List.append_cancel_left h)
      exact ⟨rfl, hrest⟩
    · have hu : u.Proper := hb.of_mem_spine (hspine' ▸ List.mem_cons_self ..)
      rw [htext, htext', List.append_assoc, List.append_assoc] at h
      exact absurd h.symm (hu.elementText_append_ne _ _)
  · have ht : t ∈ a.spine := hspine ▸ List.mem_cons_self ..
    rw [htext, List.append_assoc] at h
    rcases hb.text_cases with ⟨u, rfl, htext'⟩ | ⟨u, us, hchain', hspine', htext'⟩
    · rw [htext', List.append_assoc] at h
      exact absurd h ((ha.of_mem_spine ht).elementText_append_ne _ _)
    · have hproper : ∀ v ∈ u :: us, v.Proper := fun v hv => hb.of_mem_spine (hspine' ▸ hv)
      obtain ⟨hu, hus⟩ := List.forall_mem_cons.1 hproper
      rw [htext', List.append_assoc] at h
      obtain ⟨rfl, hrest⟩ := hsplits t ht hu (ends_tailText ts hr) (ends_tailText us hr') h
      obtain ⟨rfl, rfl⟩ := tailText_append_inj
        (fun v hv => hsplits v (hspine ▸ List.mem_cons_of_mem _ hv)) hus hr hr' hrest
      exact ⟨hchain.trans hchain'.symm, rfl⟩

theorem Proper.splits {a : Ty} (ha : a.Proper) : Splits a := by
  induction ha with
  | var x =>
    intro b r r' hb hr hr' h
    cases hb with
    | var y =>
      simp only [elementText_var, List.cons_append, List.cons.injEq, true_and] at h
      obtain ⟨rfl, hrest⟩ := toDigits_append_inj hr hr' h
      exact ⟨rfl, hrest⟩
    | int => simp at h
    | bool => simp at h
    | arrow _ _ => simp at h
  | int =>
    intro b r r' hb hr hr' h
    cases hb with
    | var y => simp at h
    | int => exact ⟨rfl, List.append_cancel_left h⟩
    | bool => simp at h
    | arrow _ _ => simp at h
  | bool =>
    intro b r r' hb hr hr' h
    cases hb with
    | var y => simp at h
    | int => simp at h
    | bool => exact ⟨rfl, List.append_cancel_left h⟩
    | arrow _ _ => simp at h
  | arrow hne helements ih =>
    intro b r r' hb hr hr' h
    cases hb with
    | var y => simp at h
    | int => simp at h
    | bool => simp at h
    | arrow hne' helements' =>
      -- both arrows are followed by the parentheses that close them
      simp only [elementText_arrow, List.cons_append, List.append_assoc, List.nil_append,
        List.cons.injEq, true_and] at h
      obtain ⟨harrow, hrest⟩ := text_append_inj (.arrow hne helements) (.arrow hne' helements') ih
        (closes_cons r) (closes_cons r') h
      exact ⟨harrow, (List.cons.inj hrest).2⟩

theorem Proper.eq_of_text_eq {a b : Ty} (ha : a.Proper) (hb : b.Proper) (h : a.text = b.text) :
    a = b :=
  (text_append_inj ha hb (fun _ ht => (ha.of_mem_spine ht).splits) closes_nil closes_nil
    (congrArg (fun s => s.toList ++ []) h)).1

-- with empty arrows two types may share a text
example : (arrow [arrow []]).text = (arrow [arrow [], arrow []]).text := by
  decide

/-- The text of a type without empty arrows determines the type, and inference shows no other
types. -/
theorem text_unambiguous :
    (∀ a b : Ty, a.Proper → b.Proper → a.text = b.text → a = b) ∧
    (∀ (e : Expr Nat) (typing : Typing), e.infer = .ok typing →
      typing.root.Proper ∧ ∀ b ∈ typing.types, b.2.Proper) ∧
    ∀ (e : Expr Nat) (err : Error), e.infer = .error err → ∀ t ∈ err.types, t.Proper :=
  ⟨fun _ _ => Proper.eq_of_text_eq, fun e => (Expr.endsIn_infer e).2,
    fun e => (Expr.endsIn_infer e).1⟩

/-- A procedure that takes a procedure without parameters and returns one with two. -/
def delayed : Expr Nat :=
  .lambda ["f"] (.lambda ["x", "y"] (.app (.var "f" 3) [] 2) 1) 0

theorem delayed_type_read_back : ∃ typing, delayed.infer = .ok typing ∧
    typing.root.text = "(() -> t3) -> (t1 -> t2 -> t3)" ∧
    ∀ b : Ty, b.Proper → b.text = "(() -> t3) -> (t1 -> t2 -> t3)" → b = typing.root := by
  have hunify : unify [(var 0, arrow [var 3])] = .ok [(0, arrow [var 3])] := by
    simp [unify, Constraint.substAll, occurs, vars, varsList, Except.map]
  have hinfer : delayed.infer = .ok ⟨arrow [arrow [var 3], arrow [var 1, var 2, var 3]], _⟩ :=
    Expr.infer_eq_ok_iff.2 ⟨_, _, _, rfl, hunify, rfl⟩
  have htext : (arrow [arrow [var 3], arrow [var 1, var 2, var 3]]).text =
      "(() -> t3) -> (t1 -> t2 -> t3)" := by
    decide
  refine ⟨_, hinfer, htext, fun b hb hbtext => ?_⟩
  exact text_unambiguous.1 b _ hb (text_unambiguous.2.1 _ _ hinfer).1 (hbtext.trans htext.symm)

end Ty

end MiniScheme
