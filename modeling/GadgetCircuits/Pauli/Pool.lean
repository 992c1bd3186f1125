import GadgetCircuits.Pauli.Gadget

/-!
Polynomials that share gadgets. Moving a gate through one of them is seen by all that have the same
gadgets.
-/

namespace GadgetCircuits

structure SharedPolynomial where
  size : Value
  members : List Nat := []

structure PauliPool where
  gadgets : Array PauliGadget := #[]
  polynomials : Array SharedPolynomial := #[]

namespace PauliPool

def shared (pool : PauliPool) (p : Nat) : SharedPolynomial :=
  (pool.polynomials[p]?).getD { size := .null }

def gadget (pool : PauliPool) (i : Nat) : PauliGadget :=
  (pool.gadgets[i]?).getD default

def view (pool : PauliPool) (p : Nat) : PauliPolynomial :=
  ⟨(pool.shared p).size, (pool.shared p).members.map pool.gadget⟩

def add (p : SharedPolynomial) : Update PauliPool Nat := do
  let pool ← get
  set { pool with polynomials := pool.polynomials.push p }
  return pool.polynomials.size

def append (p : Nat) (g : PauliGadget) : Update PauliPool Unit := do
  let pool ← get
  let s := pool.shared p
  Update.check (PauliPolynomial.checkLength s.size g)
  set ({ gadgets := pool.gadgets.push g
         polynomials := pool.polynomials.setIfInBounds p
           { s with members := s.members ++ [pool.gadgets.size] } } : PauliPool)

def compose (a b : Nat) : Update PauliPool Unit :=
  modify fun pool =>
    let s := pool.shared a
    { pool with
      polynomials := pool.polynomials.setIfInBounds a
        { s with members := s.members ++ (pool.shared b).members } }

/-- Moves a gate through one gadget, for all polynomials that have it. -/
def propagateMember (g : CliffordItem) (i : Nat) : Update PauliPool Unit := do
  let pool ← get
  let (r, q) := (PauliGadget.propagate g).runFrom (pool.gadget i)
  set { pool with gadgets := pool.gadgets.setIfInBounds i q }
  Update.check r

/-- Moves a gate through a polynomial, gadget by gadget. The result shares the gadgets. -/
def propagate (p : Nat) (g : CliffordItem) : Update PauliPool Nat := do
  let s := (← get).shared p
  s.members.forM fun i => do
    propagateMember g i
    Update.check (PauliPolynomial.checkLength s.size ((← get).gadget i))
  add s

def copy (p : Nat) : Update PauliPool Nat := do
  let v := (← get).view p
  Update.check v.check
  let pool ← get
  let first := pool.gadgets.size
  set { pool with gadgets := pool.gadgets ++ v.gadgets.toArray }
  add ⟨v.size, (List.range v.gadgets.length).map (first + ·)⟩

end PauliPool

end GadgetCircuits
