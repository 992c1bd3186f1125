import GadgetCircuits.Circuit.Basic
import GadgetCircuits.Tableau.Compose
import GadgetCircuits.Tableau.Routing

/-!
Synthesis of tableaux on a topology. The inverse tableau is reduced to the identity qubit by qubit;
the gates that do so are the circuit.
-/

namespace GadgetCircuits

structure TableauSynthesis where
  remaining : Tableau
  circuit : Circuit
  placement : Placement
  free : List Nat

namespace TableauSynthesis

abbrev Step (α : Type) := Update TableauSynthesis α

def onTableau (x : Update Tableau Unit) : Step Unit := do
  let (r, t) := x.runFrom (← get).remaining
  modify fun s => { s with remaining := t }
  Update.check r

def onPlacement {α : Type} (x : Update Placement α) : Step α := do
  let (r, p) := x.runFrom (← get).placement
  modify fun s => { s with placement := p }
  Update.check r

def emit (kind : GateKind) (qubits : List Nat) : Step Unit :=
  Update.replace fun s => do
    return { s with
      circuit := ← s.circuit.add (.gate { kind, qubits := qubits.map Value.ofNat }) }

def h (q : Nat) : Step Unit := do
  onTableau (Tableau.hAt (.ofNat q))
  emit .h [q]

def s (q : Nat) : Step Unit := do
  onTableau (Tableau.sAt (.ofNat q))
  emit .s [q]

/-- A CX gate. Its qubits are no longer free, and its edge becomes heavier. -/
def cx (c t : Nat) : Step Unit := do
  onTableau (Tableau.cxAt (.ofNat c) (.ofNat t))
  emit .cx [c, t]
  modify fun s => { s with free := s.free.filter fun q => q != c && q != t }
  Update.replace fun s =>
    match s.placement.graph.setWeight? c t 2 with
    | some graph => .ok { s with placement := { s.placement with graph } }
    | none => .error .noKey

def xOut (i j : Nat) : Step Int := do
  (← get).remaining.xOutAt i j

def zOut (i j : Nat) : Step Int := do
  (← get).remaining.zOutAt i j

def graph : Step Graph :=
  return (← get).placement.graph

/-- The qubits on which an image of the pivot acts. -/
def acting (out : Nat → Step Int) : Step (List Nat) := do
  (← graph).nodes.filterM fun col => do return (← out col) ≠ 0

def alignX (pivot : Nat) (row : List Nat) : Step Unit :=
  row.forM fun col => do
    if (← xOut pivot col) = 3 then s col
    if (← xOut pivot col) = 2 then h col

def alignZ (pivot : Nat) (row : List Nat) : Step Unit := do
  row.forM fun col => do
    if (← zOut pivot col) = 3 then s col
    if (← zOut pivot col) = 1 then h col
  if (← xOut pivot pivot) = 3 then s pivot

section Trees

variable [GraphLibrary]

/-- A tree over the qubits of a row; free qubits may move towards the pivot. -/
def tree (pivot : Nat) (row : List Nat) (swaps : Bool) : Step (List (Nat × Nat)) := do
  let marks ← (← graph).nodes.mapM fun q => do
    return (q, if (← xOut pivot q) = 0 then (0 : Int) else 1)
  let st ← get
  let rules : Placement.SwapRules :=
    { mark := fun q => (marks.find? fun m => m.1 == q).map Prod.snd
      free := st.free
      rounds := st.remaining.n }
  onPlacement (Placement.treeEdges pivot (pivot :: row) (.ok (if swaps then some rules else none)))

def clearX (pivot : Nat) (row : List Nat) (swaps : Bool) : Step Unit := do
  let edges ← tree pivot row swaps
  edges.forM fun (parent, child) => do if (← xOut pivot parent) = 0 then cx child parent
  edges.forM fun (parent, child) => cx parent child

def clearZ (pivot : Nat) (row : List Nat) (swaps : Bool) : Step Unit := do
  let edges ← tree pivot row swaps
  edges.forM fun (parent, child) => do if (← zOut pivot parent) = 0 then cx parent child
  edges.forM fun (parent, child) => cx child parent

def reduce (pivot : Nat) (swaps : Bool) : Step Unit := do
  let rowX ← acting (xOut pivot)
  alignX pivot rowX
  clearX pivot rowX swaps
  let rowZ ← acting (zOut pivot)
  alignZ pivot rowZ
  clearZ pivot rowZ swaps
  if (← xOut pivot pivot) ≠ 1 then throw .failedAssertion
  if (← zOut pivot pivot) ≠ 2 then throw .failedAssertion

/-- Picks a qubit, brings it to the rim if it separates the others, and clears it. -/
def clearOne (swaps : Bool) : Step Unit := do
  let st ← get
  let pivot ← st.remaining.pivot st.placement.graph st.free swaps
  if st.placement.graph.isCut pivot && swaps then
    let other ← st.placement.graph.nearestRemovable pivot st.free
    onPlacement (Placement.exchangeNodes other pivot)
    onPlacement (Placement.exchange pivot other)
  reduce pivot swaps
  modify fun s =>
    { s with
      free := s.free.filter (· != pivot)
      placement := { s.placement with graph := s.placement.graph.removeNode pivot } }

def clearAll (swaps : Bool) : Nat → Step Unit
  | 0 => return ()
  | k + 1 => do
    if (← graph).nodes.isEmpty then return ()
    clearOne swaps
    clearAll swaps k

end Trees

/-- Removes the signs that are left: those of the Z images first, then those of the X images. -/
def clearSigns : Step Unit := do
  let n := (← get).remaining.n
  let flipped := (← get).remaining.signs.drop n
  let cols := (List.range n).filter fun q => (flipped[q]?).getD 0 ≠ 0
  cols.forM h
  cols.forM fun q => do s q; s q
  cols.forM h
  (List.range n).forM fun q => do
    if ((← get).remaining.signs[q]?).getD 0 ≠ 0 then
      s q
      s q

end TableauSynthesis

def Tableau.synthesize [GraphLibrary] (t : Tableau) (topology : Topology) (swaps : Bool) :
    Except Error (Circuit × List Nat) := do
  let g := topology.toGraph
  let graph := g.edges.foldl (fun (acc : Graph) e => acc.addEdge e.1 e.2 0) g
  let start : TableauSynthesis :=
    { remaining := ← t.inverse
      circuit := { size := .ofNat t.n }
      placement := { graph, permutation := List.range t.n }
      free := List.range t.n }
  let steps : TableauSynthesis.Step Unit := do
    TableauSynthesis.clearAll swaps g.nodes.length
    TableauSynthesis.clearSigns
  match steps.runFrom start with
  | (.ok (), s) => return (s.circuit, s.placement.permutation)
  | (.error e, _) => throw e

end GadgetCircuits
