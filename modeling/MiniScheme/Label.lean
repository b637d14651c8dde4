/-!
# Labels

A label names a block of code before the block has an address.
-/

namespace MiniScheme

structure Label where
  index : Nat
  deriving DecidableEq

def Label.text (l : Label) : String :=
  "L" ++ toString l.index

end MiniScheme
