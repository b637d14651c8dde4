/-!
# Types

Types are variables, `int`, `bool` and arrows. An arrow lists its parameter types and then its
result type; it is never curried, and an arrow of one element is the type of a procedure without
parameters.
-/

namespace MiniScheme

/-- A type. Variables are numbered. -/
inductive Ty where
  | var (index : Nat)
  | int
  | bool
  | arrow (elements : List Ty)

namespace Ty

/-! ### Equality -/

mutual
/-- Decides equality of two types. -/
def decEq : (a b : Ty) → Decidable (a = b)
  | var x, var y =>
    if h : x = y then isTrue (congrArg var h) else isFalse (fun e => h (var.inj e))
  | int, int => isTrue rfl
  | bool, bool => isTrue rfl
  | arrow xs, arrow ys =>
    match decEqList xs ys with
    | isTrue h => isTrue (congrArg arrow h)
    | isFalse h => isFalse (fun e => h (arrow.inj e))
  | var _, int => isFalse nofun
  | var _, bool => isFalse nofun
  | var _, arrow _ => isFalse nofun
  | int, var _ => isFalse nofun
  | int, bool => isFalse nofun
  | int, arrow _ => isFalse nofun
  | bool, var _ => isFalse nofun
  | bool, int => isFalse nofun
  | bool, arrow _ => isFalse nofun
  | arrow _, var _ => isFalse nofun
  | arrow _, int => isFalse nofun
  | arrow _, bool => isFalse nofun
termination_by structural a => a

def decEqList : (as bs : List Ty) → Decidable (as = bs)
  | [], [] => isTrue rfl
  | [], _ :: _ => isFalse nofun
  | _ :: _, [] => isFalse nofun
  | a :: as, b :: bs =>
    match decEq a b, decEqList as bs with
    | isTrue h, isTrue hs => isTrue (h ▸ hs ▸ rfl)
    | isFalse h, _ => isFalse (fun e => h (List.cons.inj e).1)
    | _, isFalse hs => isFalse (fun e => hs (List.cons.inj e).2)
termination_by structural as => as
end

instance : DecidableEq Ty := decEq

/-! ### Variables and replacement -/

/-- Whether a type is an arrow. -/
def isArrow : Ty → Bool
  | arrow _ => true
  | _ => false

mutual
/-- Variables of a type from left to right, with repetitions. -/
def vars : Ty → List Nat
  | var x => [x]
  | int => []
  | bool => []
  | arrow ts => varsList ts
termination_by structural t => t

/-- Variables of a list of types from left to right, with repetitions. -/
def varsList : List Ty → List Nat
  | [] => []
  | t :: ts => vars t ++ varsList ts
termination_by structural ts => ts
end

/-- Whether a variable appears in a type. -/
def occurs (t : Ty) (x : Nat) : Bool :=
  t.vars.contains x

mutual
/-- Replaces all variables of a type at once. -/
def replace (σ : Nat → Ty) : Ty → Ty
  | var x => σ x
  | int => int
  | bool => bool
  | arrow ts => arrow (replaceList σ ts)
termination_by structural t => t

/-- Replaces all variables of each type of a list at once. -/
def replaceList (σ : Nat → Ty) : List Ty → List Ty
  | [] => []
  | t :: ts => replace σ t :: replaceList σ ts
termination_by structural ts => ts
end

/-- Replaces one variable by a type. -/
def subst (t : Ty) (x : Nat) (r : Ty) : Ty :=
  t.replace fun y => if y = x then r else var y

/-- Replaces the variables of a list of pairs at once; of two pairs for one variable the later
one counts. -/
def substAll (t : Ty) (pairs : List (Nat × Ty)) : Ty :=
  t.replace fun y => (pairs.reverse.lookup y).getD (var y)

theorem varsList_eq_flatMap (ts : List Ty) : varsList ts = ts.flatMap vars := by
  induction ts with
  | nil => rfl
  | cons t ts ih => simp [varsList, ih]

theorem replaceList_eq_map (σ : Nat → Ty) (ts : List Ty) :
    replaceList σ ts = ts.map (replace σ) := by
  induction ts with
  | nil => rfl
  | cons t ts ih => simp [replaceList, ih]

/-! ### Text -/

/-- Name of a type variable. -/
def varText (x : Nat) : String :=
  "t" ++ toString x

mutual
/-- How a type is written. The elements of an arrow are joined by ` -> `, arrows among them
stand in parentheses, and an arrow of one element shows its empty parameter list. -/
def text : Ty → String
  | var x => varText x
  | int => "int"
  | bool => "bool"
  | arrow ts => (if ts.length = 1 then "() -> " else "") ++ " -> ".intercalate (elementTexts ts)
termination_by structural t => t

/-- The elements of an arrow as they are written inside it. -/
def elementTexts : List Ty → List String
  | [] => []
  | t :: ts => (if t.isArrow then "(" ++ text t ++ ")" else text t) :: elementTexts ts
termination_by structural ts => ts
end

end Ty

/-! ### Schemes -/

/-- The type of a global. Every use replaces the generic variables by new ones. -/
structure Scheme where
  generics : List Nat
  ty : Ty
  deriving DecidableEq

namespace Scheme

/-- A scheme without generic variables. -/
def mono (ty : Ty) : Scheme :=
  ⟨[], ty⟩

/-- One use of a scheme with the new variables `next`, `next + 1`, …, one for each generic
variable, together with the next unused variable. -/
def instantiate (s : Scheme) (next : Nat) : Ty × Nat :=
  (s.ty.substAll ((s.generics.zipIdx next).map fun g => (g.1, .var g.2)), next + s.generics.length)

end Scheme

end MiniScheme
