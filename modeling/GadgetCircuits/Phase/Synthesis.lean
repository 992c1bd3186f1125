import GadgetCircuits.CX.Circuit
import GadgetCircuits.Phase.Simplify

/-!
Synthesis of phase circuits on a topology: a circuit becomes a sequence of single-qubit gadgets and
CX gates on couplings. Every CX gate that is placed conjugates the rest of the circuit, and all of
them have to be undone at the end.
-/

namespace GadgetCircuits

inductive Placed where
  | gadget (g : Gadget)
  | cx (g : CX)

/-- The circuit that is left, what has been placed, and the CX gates among it. -/
structure Synthesis where
  circuit : PhaseCircuit
  placed : List Placed := []
  cxs : List CX := []

abbrev Synth := StateT Synthesis (Except Error)

namespace Synthesis

def placeCX (ctrl trgt : Nat) : Synth Unit :=
  modify fun s =>
    { circuit := s.circuit.conjugate ctrl trgt
      placed := s.placed ++ [Placed.cx (ctrl, trgt)]
      cxs := s.cxs ++ [(ctrl, trgt)] }

def placeGadget (b : Basis) (j : Nat) (legs : List Nat) : Synth Unit := do
  let s ← get
  let angle := (((s.circuit.table b).positions[j]?).bind fun i => s.circuit.angles[i]?).getD default
  if legs.isEmpty then throw .noLegs
  let g : Gadget := { basis := b, angle, legs := sortInts (legs.map Int.ofNat) }
  set { s with placed := s.placed ++ [Placed.gadget g] }

def hasLeg (b : Basis) (j q : Nat) : Synth Bool := do
  match ((← get).circuit.table b |>.column j)[q]? with
  | some bit => return bit
  | none => throw .outOfRange

def legsAmong (b : Basis) (j : Nat) (qs : List Nat) : Synth (List Nat) :=
  qs.filterM fun q => hasLeg b j q

def legCount (b : Basis) (j : Nat) : Synth Nat := do
  return (GadgetTable.legsOf ((← get).circuit.table b |>.column j)).length

def runs : List (Basis × Nat) → List (Basis × List Nat)
  | [] => []
  | (b, j) :: rest =>
    match runs rest with
    | (b', js) :: more => if b' == b then (b, j :: js) :: more else (b, [j]) :: (b', js) :: more
    | [] => [(b, [j])]

/-- The CX gates that undo the placed ones, one in a layer. -/
def undoing (t : Topology) (cxs : List CX) : Except Error (CXCircuit CXLayer) := do
  let layers ← cxs.reverse.mapM fun g => (CXLayer.empty t).flip g.1 g.2
  CXCircuit.ofLayers t layers

def treeEdges (g : Graph) (root : Nat) : Except Error (List (Nat × Nat)) :=
  if g.hasNode root then .ok (g.bfsEdges root) else .error .unknownNode

def leastAt (ns : List Nat) : Option Nat :=
  match ns with
  | [] => none
  | n :: _ => let least := ns.foldl min n; ns.findIdx? (· == least)

def greatestAt (ns : List Nat) : Option Nat :=
  match ns with
  | [] => none
  | n :: _ => let greatest := ns.foldl max n; ns.findIdx? (· == greatest)

/-- The result of a synthesis: what is placed, the CX gates that undo, and what is left of the
circuit. -/
structure Result where
  placed : List Placed
  undo : CXCircuit CXLayer
  residual : PhaseCircuit

/-- Runs a synthesis of a circuit; one without gadgets needs none. -/
def perform (c : PhaseCircuit) (t : Topology) (body : Synth Unit) : Except Error Result := do
  if (← c.gadgets).isEmpty then
    return { placed := [], undo := { topology := t }, residual := c }
  let (_, s) ← body.run { circuit := c }
  return { placed := s.placed, undo := ← undoing t s.cxs, residual := s.circuit }

end Synthesis

end GadgetCircuits
