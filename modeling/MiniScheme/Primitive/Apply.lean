import MiniScheme.Trap

/-!
# Applying primitives

Arithmetic wraps around at 64 bits. Equality compares two integers or two booleans.
-/

namespace MiniScheme.Primitive

/-- The result of a primitive on literals, `steps` being the number of instructions executed so
far. A wrong number of arguments is reported before their kinds. -/
def apply (p : Primitive) (args : List Literal) (steps : Nat) : Except Trap Literal :=
  if args.length ≠ p.arity then .error (.primitiveArity p args.length)
  else
    match p, args with
    | add, [.int a, .int b] => .ok (.int (a + b))
    | sub, [.int a, .int b] => .ok (.int (a - b))
    | mul, [.int a, .int b] => .ok (.int (a * b))
    | eq, [.int a, .int b] => .ok (.bool (a == b))
    | eq, [.bool a, .bool b] => .ok (.bool (a == b))
    | time, [] => .ok (.int (.ofNat steps))
    | _, _ => .error (.badOperands p args)

end MiniScheme.Primitive
