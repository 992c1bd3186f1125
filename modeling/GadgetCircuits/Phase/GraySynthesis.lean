import GadgetCircuits.Phase.Synthesis

/-!
Synthesis by recursion on qubits. The gadgets of a run are split by whether they have a leg on a
chosen qubit; those without it are done on the remaining qubits, those with it lose the leg to a
neighbour.
-/

namespace GadgetCircuits

namespace GraySynthesis

open Synthesis

/-- Places a CX gate for Z gadgets, or its opposite for X gadgets. -/
def placeFor (b : Basis) (ctrl trgt : Nat) : Synth Unit :=
  match b with
  | .z => placeCX ctrl trgt
  | .x => placeCX trgt ctrl

/-- A pass over a list that takes out items as it goes: after an item that is taken out the next one
is passed over unseen. Gives the items that stay. -/
def sweep (take : Nat → Synth Bool) : List Nat → Synth (List Nat)
  | [] => return []
  | j :: rest => do
    if ← take j then
      match rest with
      | [] => return []
      | k :: more => return k :: (← sweep take more)
    else return j :: (← sweep take rest)

def removable [SetOrder] (t : Topology) (part : List Nat) : List Nat :=
  let g := t.part part
  part.filter fun q => !g.isCut q

def split (b : Basis) (js : List Nat) (q : Nat) : Synth (List Nat × List Nat) := do
  let without ← js.filterM fun j => do return !(← hasLeg b j q)
  let having ← js.filterM fun j => hasLeg b j q
  return (without, having)

def placeSingle (t : Topology) (b : Basis) (j : Nat) : Synth Bool := do
  if (← legCount b j) = 1 then
    placeGadget b j (← legsAmong b j t.qubits)
    return true
  else return false

def placeSingleIn (part : List Nat) (b : Basis) (j : Nat) : Synth Bool := do
  let legs ← legsAmong b j part
  if legs.length = 1 then
    placeGadget b j legs
    return true
  else return false

section Order

variable [SetOrder]

/-- The qubit to split by: the one on which the largest gadget is greatest; a qubit without legs
counts as large as the topology. -/
def splitQubit (t : Topology) (b : Basis) (js part : List Nat) : Synth Nat := do
  let rows := removable t part
  let sizes ← rows.mapM fun r => do
    let counts ← (← js.filterM fun j => hasLeg b j r).mapM fun j => legCount b j
    match counts with
    | [] => return t.size
    | n :: more => return more.foldl max n
  match (greatestAt sizes).bind fun k => rows[k]? with
  | some r => return r
  | none => throw .emptyChoice

/-- The neighbour in a part of the topology on which most gadgets have a leg, and their number. -/
def busiestNeighbour (t : Topology) (b : Basis) (js part : List Nat) (row : Nat) :
    Synth (Nat × Nat) := do
  let neighbours := (SetOrder.arrange (some row) (t.adjacent row)).filter part.contains
  let counts ← neighbours.mapM fun q => do return (← js.filterM fun j => hasLeg b j q).length
  match greatestAt counts with
  | none => throw .emptyChoice
  | some k => return ((neighbours[k]?).getD 0, (counts[k]?).getD 0)

mutual

def placeOn (t : Topology) (b : Basis) : Nat → List Nat → List Nat → Synth Unit
  | 0, _, _ => pure ()
  | fuel + 1, js, part => do
    if part.isEmpty || js.isEmpty then return
    let row ← splitQubit t b js part
    let (without, having) ← split b js row
    placeOn t b fuel without (part.filter (· != row))
    placeAt t b fuel having part row

def placeAt (t : Topology) (b : Basis) : Nat → List Nat → List Nat → Nat → Synth Unit
  | 0, _, _, _ => pure ()
  | fuel + 1, js, part, row => do
    let js ← js.filterM fun j => do return !(← placeSingle t b j)
    if js.isEmpty then return
    let (n, count) ← busiestNeighbour t b js part row
    let js ←
      if 0 < count then do
        placeFor b row n
        sweep (placeSingleIn part b) js
      else do
        placeFor b n row
        placeFor b row n
        pure js
    let (without, having) ← split b js row
    placeOn t b fuel without (part.filter (· != row))
    placeAt t b fuel having part row

end

/-- Places the gadgets of a run. Every step on a part either takes a gadget or goes on with a
smaller part, which bounds the depth. -/
def placeRun (t : Topology) (b : Basis) (js : List Nat) : Synth Unit := do
  let js ← sweep (placeSingle t b) js
  placeOn t b ((t.size + 2) * (js.length + 3)) js t.qubits

def placeRuns (t : Topology) : List (Basis × List Nat) → Synth Unit
  | [] => pure ()
  | (b, js) :: later => do
    placeRun t b js
    placeRuns t later

end Order

end GraySynthesis

def PhaseCircuit.graySynthesis [SetOrder] (c : PhaseCircuit) (t : Topology) :
    Except Error Synthesis.Result :=
  Synthesis.perform c t (GraySynthesis.placeRuns t (Synthesis.runs c.places))

end GadgetCircuits
