import MiniScheme.Primitive.Basic

/-!
# Machine values

What the accumulator, the cells of the stack and closures hold. Addresses are only found among
the cells that a call saves for its return.
-/

namespace MiniScheme

/-- A value of the machine. -/
inductive Value where
  | lit (value : Literal)
  | stackAddr (address : Nat)
  | codeAddr (address : Nat)
  | closure (body : Nat) (captured : List Value)
  | prim (primitive : Primitive)

namespace Value

/-! ### Equality -/

mutual
/-- Decides equality of two values. -/
def decEq : (a b : Value) → Decidable (a = b)
  | lit v, lit w =>
    if h : v = w then isTrue (congrArg lit h) else isFalse (fun e => h (lit.inj e))
  | stackAddr n, stackAddr m =>
    if h : n = m then isTrue (congrArg stackAddr h) else isFalse (fun e => h (stackAddr.inj e))
  | codeAddr n, codeAddr m =>
    if h : n = m then isTrue (congrArg codeAddr h) else isFalse (fun e => h (codeAddr.inj e))
  | prim p, prim q =>
    if h : p = q then isTrue (congrArg prim h) else isFalse (fun e => h (prim.inj e))
  | closure n vs, closure m ws =>
    if h : n = m then
      match decEqList vs ws with
      | isTrue hs => isTrue (h ▸ hs ▸ rfl)
      | isFalse hs => isFalse (fun e => hs (closure.inj e).2)
    else isFalse (fun e => h (closure.inj e).1)
  | lit _, stackAddr _ => isFalse nofun
  | lit _, codeAddr _ => isFalse nofun
  | lit _, closure _ _ => isFalse nofun
  | lit _, prim _ => isFalse nofun
  | stackAddr _, lit _ => isFalse nofun
  | stackAddr _, codeAddr _ => isFalse nofun
  | stackAddr _, closure _ _ => isFalse nofun
  | stackAddr _, prim _ => isFalse nofun
  | codeAddr _, lit _ => isFalse nofun
  | codeAddr _, stackAddr _ => isFalse nofun
  | codeAddr _, closure _ _ => isFalse nofun
  | codeAddr _, prim _ => isFalse nofun
  | closure _ _, lit _ => isFalse nofun
  | closure _ _, stackAddr _ => isFalse nofun
  | closure _ _, codeAddr _ => isFalse nofun
  | closure _ _, prim _ => isFalse nofun
  | prim _, lit _ => isFalse nofun
  | prim _, stackAddr _ => isFalse nofun
  | prim _, codeAddr _ => isFalse nofun
  | prim _, closure _ _ => isFalse nofun
termination_by structural a => a

def decEqList : (as bs : List Value) → Decidable (as = bs)
  | [], [] => isTrue rfl
  | [], _ :: _ => isFalse nofun
  | _ :: _, [] => isFalse nofun
  | a :: as, b :: bs =>
    match decEq a b, decEqList as bs with
    | isTrue h, isTrue hs => isTrue (h ▸ hs ▸ rfl)
    | isFalse h, _ => isFalse (fun e => h (List.cons.inj e).1)
    | _, isFalse hs => isFalse (fun e => hs (List.cons.inj e).2)
termination_by structural as => as
end

instance : DecidableEq Value := decEq

/-! ### Views -/

/-- The literal a value is, if it is one. -/
def literal? : Value → Option Literal
  | lit v => some v
  | _ => none

/-- Whether a value makes a test fail. -/
def isFalse : Value → Bool
  | lit v => v.isFalse
  | _ => false

/-- Whether a value can be called. -/
def isProcedure : Value → Bool
  | closure _ _ => true
  | prim _ => true
  | _ => false

def text : Value → String
  | lit v => v.text
  | stackAddr n => "#<stack " ++ toString n ++ ">"
  | codeAddr n => "#<code " ++ toString n ++ ">"
  | closure body captured =>
    "#<closure " ++ toString body ++ " (" ++ toString captured.length ++ " captured)>"
  | prim p => "#<primitive " ++ p.name ++ ">"

end Value

end MiniScheme
