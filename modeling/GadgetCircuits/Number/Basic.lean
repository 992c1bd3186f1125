/-!
Powers of two and ten, and sums of lists.
-/

namespace GadgetCircuits

def pow2 (k : Nat) : Nat :=
  Nat.pow 2 k

def pow10 (k : Nat) : Nat :=
  Nat.pow 10 k

def natSum (ns : List Nat) : Nat :=
  ns.foldr Nat.add 0

def intSum (ns : List Int) : Int :=
  ns.foldr Int.add 0

end GadgetCircuits
