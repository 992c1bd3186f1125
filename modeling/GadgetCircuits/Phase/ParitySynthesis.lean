import GadgetCircuits.Phase.Synthesis

/-!
Synthesis gadget by gadget. In each run of one basis the gadget with the smallest tree comes first:
its tree is filled up, then contracted to the root that leaves the remaining gadgets with the fewest
legs.
-/

namespace GadgetCircuits

namespace ParitySynthesis

open Synthesis

/-- The runs that are still to be done: the columns left of the current one, and the later ones. -/
abbrev Pending := List (Basis × List Nat)

/-- For a Z gadget a tree edge is contracted by a CX gate towards the parent, for an X gadget by one
from the parent. -/
def contraction (b : Basis) (edge : Nat × Nat) : CX :=
  match b with
  | .z => (edge.2, edge.1)
  | .x => (edge.1, edge.2)

/-- The gate that gives the parent of an edge a leg. -/
def filling (b : Basis) (edge : Nat × Nat) : CX :=
  match b with
  | .z => (edge.1, edge.2)
  | .x => (edge.2, edge.1)

/-- Columns after CX gates: in Z columns the control takes the sum, in X columns the target. -/
def afterCXs (b : Basis) (gates : List CX) (column : List Bool) : List Bool :=
  gates.foldl
    (fun col g =>
      let c := (col[g.1]?).getD false
      let t := (col[g.2]?).getD false
      match b with
      | .z => col.set g.1 (xor c t)
      | .x => col.set g.2 (xor c t))
    column

def remainingLegs (c : PhaseCircuit) (rest : Pending) (gates : List CX) : Nat :=
  natSum (rest.map fun (b, js) =>
    natSum (js.map fun j => ((afterCXs b gates ((c.table b).column j)).filter id).length))

/-- The best root: a later one replaces an earlier one that leaves more legs, or none. -/
def pickRoot (c : PhaseCircuit) (rest : Pending) (b : Basis) (tree : Graph) : Option Nat :=
  (tree.nodes.foldl
    (fun (best : Option (Nat × Nat)) root =>
      let score := remainingLegs c rest ((tree.bfsEdges root).reverse.map (contraction b))
      match best with
      | some (r, least) => if least = 0 || score < least then some (root, score) else some (r, least)
      | none => some (root, score))
    none).map Prod.fst

section Trees

variable [GraphLibrary]

/-- Places one gadget of the current run; `rest` holds all that is left, this gadget included. -/
def placeNext (t : Topology) (rest : Pending) (b : Basis) (j : Nat) : Synth Unit := do
  let terminals ← legsAmong b j t.qubits
  let root ← match terminals with
    | [] => throw .outOfRange
    | [q] => pure q
    | q :: _ => do
      let tree ← t.steinerTree terminals []
      for edge in (← treeEdges tree q).reverse do
        if !(← hasLeg b j edge.1) then placeCX (filling b edge).1 (filling b edge).2
      let root := (pickRoot (← get).circuit rest b tree).getD q
      for edge in (← treeEdges tree root).reverse do
        placeCX (contraction b edge).1 (contraction b edge).2
      pure root
  placeGadget b j [root]
  if (← legCount b j) ≠ 1 then throw .failedAssertion

def cheapest (t : Topology) (b : Basis) (js : List Nat) : Synth Nat := do
  let sizes ← js.mapM fun j => do
    return (← t.steinerTree (← legsAmong b j t.qubits) []).edges.length
  match (leastAt sizes).bind fun k => js[k]? with
  | some j => return j
  | none => throw .emptyChoice

def placeRun (t : Topology) (b : Basis) (later : Pending) : Nat → List Nat → Synth Unit
  | 0, _ => pure ()
  | _, [] => pure ()
  | rounds + 1, js => do
    let j ← cheapest t b js
    placeNext t ((b, js) :: later) b j
    placeRun t b later rounds (js.filter (· != j))

def placeRuns (t : Topology) : Pending → Synth Unit
  | [] => pure ()
  | (b, js) :: later => do
    placeRun t b later js.length js
    placeRuns t later

end Trees

end ParitySynthesis

def PhaseCircuit.paritySynthesis [GraphLibrary] (c : PhaseCircuit) (t : Topology) :
    Except Error Synthesis.Result :=
  Synthesis.perform c t (ParitySynthesis.placeRuns t (Synthesis.runs c.places))

end GadgetCircuits
