import GadgetCircuits.Topology.Routes

/-!
Matchings: sets of couplings of which no two share a qubit, changed by flipping one coupling at a
time.
-/

namespace GadgetCircuits

/-- A matching of a topology: its couplings, the qubits they match, and for every qubit the coupling
that matches it. -/
structure Matching where
  topology : Topology
  couplings : List (Nat × Nat) := []
  qubits : List Nat := []
  partners : List (Option (Nat × Nat))
  deriving Inhabited

namespace Matching

def empty (t : Topology) : Matching where
  topology := t
  partners := t.qubits.map fun _ => none

def incident (m : Matching) (q : Nat) : Option (Nat × Nat) :=
  (m.partners[q]?).getD none

def isFlippable (m : Matching) (c : Nat × Nat) : Bool :=
  m.couplings.contains c || !(m.qubits.contains c.1 || m.qubits.contains c.2)

def flippable (m : Matching) : List (Nat × Nat) :=
  m.topology.couplings.filter m.isFlippable

def remove (m : Matching) (c : Nat × Nat) : Matching :=
  { m with
    couplings := m.couplings.filter (· != c)
    qubits := m.qubits.filter fun q => q != c.1 && q != c.2
    partners := (m.partners.set c.1 none).set c.2 none }

def insert (m : Matching) (c : Nat × Nat) : Matching :=
  { m with
    couplings := m.couplings ++ [c]
    qubits := m.qubits ++ [c.1, c.2]
    partners := (m.partners.set c.1 (some c)).set c.2 (some c) }

def flip (m : Matching) (c : Nat × Nat) : Except Error Matching :=
  if !m.isFlippable c then .error (.alreadyMatched (Coupling.text c))
  else if m.couplings.contains c then .ok (m.remove c)
  else .ok (m.insert c)

/-- A pair of distinct qubits, as a coupling. It need not be one of the topology. -/
def couplingOf (m : Matching) (v : Value) : Except Error (Nat × Nat) :=
  (Coupling.check m.topology.size v).map Coupling.toNats

def flipValue (m : Matching) (v : Value) : Except Error Matching := do
  m.flip (← m.couplingOf v)

def isFlippableValue (m : Matching) (v : Value) : Except Error Bool := do
  let c ← m.couplingOf v
  if !m.topology.couplings.contains c then throw (.notInTopology (Coupling.text c))
  return m.isFlippable c

def incidentValue (m : Matching) (v : Value) : Except Error (Option (Nat × Nat)) :=
  match v.int? with
  | none => .error .operands
  | some n =>
    let k := if n < 0 then n + m.partners.length else n
    if 0 ≤ k && k < m.partners.length then .ok (m.incident k.toNat) else .error .outOfRange

end Matching

end GadgetCircuits
