import GadgetCircuits.Annealing.Schedule
import GadgetCircuits.CX.Circuit
import GadgetCircuits.Phase.Simplify

/-!
Conjugated circuits: a block of CX gates in reverse, a block of phase gadgets that is repeated, and
the block of CX gates. Flipping a gate of the CX block is made good by conjugating the phase block,
so the circuit that is represented stays the same.
-/

namespace GadgetCircuits

/-- The numbers of CX gates at the start and now, of the whole circuit and of its CX blocks. -/
structure BlockCounts where
  initial : Int := 0
  current : Int := 0
  initialBlocks : Int := 0
  currentBlocks : Int := 0

structure ConjugatedCircuit where
  topology : Topology
  repetitions : Int := 1
  phase : PhaseCircuit
  cx : CXCircuit CXLayer
  counts : BlockCounts := {}
  cxMethod : Value := .str "naive"
  /-- Names for angles that are variables, in drawings. -/
  fresh : Option (Nat → AngleVar) := none

namespace ConjugatedCircuit

def touching (l : CXLayer) (qubits : List Nat) : List CX :=
  (qubits.filterMap l.incident).eraseDups

def qubitsOf (gates : List CX) : List Nat :=
  gates.flatMap fun g => [g.1, g.2]

/-- Conjugates a word of gates by the gates of the layers before it that it depends on, the nearest
layer first. -/
def conjugators : List CXLayer → List Nat → List CX → List CX
  | [], _, word => word
  | l :: ls, qubits, word =>
    let gates := touching l qubits
    conjugators ls (qubits ++ qubitsOf gates).eraseDups (gates.reverse ++ word ++ gates)

def flipWord (layers : List CXLayer) (layer : Nat) (g : CX) : List CX :=
  conjugators (layers.take layer).reverse [g.1, g.2] [g]

def conjugate (g : CX) : Update ConjugatedCircuit Unit := do
  let c ← get
  set { c with phase := ← c.phase.conjugateValues (.ofNat g.1) (.ofNat g.2) }

def flipAt (layer : Nat) (ctrl trgt : Value) : Update ConjugatedCircuit Unit := do
  let c ← get
  let some l := c.cx.layers[layer]? | throw .outOfRange
  let flipped ← l.flipValue ctrl trgt
  set { c with cx := { c.cx with layers := c.cx.layers.set layer flipped } }
  let word := flipWord c.cx.layers layer (← CXLayer.qubit ctrl, ← CXLayer.qubit trgt)
  word.forM conjugate

def layerAt (c : ConjugatedCircuit) (layer : Value) : Except Error Nat :=
  match layer.int? with
  | none => .error (.conjugation (.layerIndex layer))
  | some n =>
    if 0 ≤ n && n < c.cx.layers.length then .ok n.toNat
    else .error (.conjugation (.layerIndex layer))

def isFlippable (c : ConjugatedCircuit) (layer ctrl trgt : Value) : Except Error Bool := do
  let i ← c.layerAt layer
  ((c.cx.layers[i]?).getD default).isFlippableValue ctrl trgt

def flip (layer ctrl trgt : Value) : Update ConjugatedCircuit Unit := do
  let c ← get
  if ← c.isFlippable layer ctrl trgt then
    flipAt (← c.layerAt layer) ctrl trgt
  else throw (.conjugation (.notFlippable ctrl trgt layer))

def isRedundant (layers : List CXLayer) (layer : Int) (g : CX) : Bool :=
  let inLayer (i : Int) : Bool :=
    ((Slice.position? layers.length i).bind fun k => layers[k]?).any fun l => l.hasGate g
  (decide (layer < layers.length - 1) && inLayer (layer + 1)) ||
    (decide (0 < layer) && inLayer (layer - 1))

/-- Flips the gate that draws select: a layer, then one of its gates. As long as the gate is redundant
in its layer, further draws are taken. Gives the layer, the gate and the draws that are left. -/
def randomFlip : List Int → Update ConjugatedCircuit (Int × CX × List Int)
  | layer :: draw :: rest => do
    let c ← get
    let some k := Slice.position? c.cx.layers.length layer | throw .outOfRange
    let g ← ((c.cx.layers[k]?).getD default).drawn draw
    if isRedundant c.cx.layers layer g then randomFlip rest
    else do
      flipAt k (.ofNat g.1) (.ofNat g.2)
      return (layer, g, rest)
  | _ => throw .outOfRange

/-- Why the CX gates of the whole circuit cannot be counted: they are counted in a circuit of another
library. -/
def countError (cxMethod : Value) : Error :=
  if cxMethod.same (.str "naive") then .noLibrary "qiskit"
  else if cxMethod.same (.str "permrowcol") then .noLibrary "galois"
  else .conjugation .noMethod

def phaseCounts (c : ConjugatedCircuit) : Except Error (Int × Int) :=
  if c.repetitions = 0 then .error .divisionByZero
  else .ok (Int.fdiv (c.counts.initial - c.counts.initialBlocks) c.repetitions,
    Int.fdiv (c.counts.current - c.counts.currentBlocks) c.repetitions)

def simplifiedPhase (c : ConjugatedCircuit) : Except Error PhaseCircuit := do
  let first ← c.phase.cloned
  let all ← (List.replicate (c.repetitions - 1).toNat ()).foldlM
    (fun (acc : PhaseCircuit) _ => do acc.addAll (← c.phase.gadgets)) first
  all.simplified

def simplify : Update ConjugatedCircuit Unit := do
  let c ← get
  let phase ← c.simplifiedPhase
  set { c with phase, repetitions := 1 }
  throw (countError c.cxMethod)

def same (c d : ConjugatedCircuit) : Except Error Bool := do
  if c.repetitions ≠ d.repetitions then return false
  if !(← c.phase.same d.phase) then return false
  return c.cx.same d.cx

end ConjugatedCircuit

def ConjugatedCircuit.iterations (v : Value) : Except Error Nat :=
  match v.int? with
  | some n => if 0 < n then .ok n.toNat else .error (.conjugation (.iterations v))
  | none => .error (.conjugation (.iterations v))

def ConjugatedCircuit.annealArguments (count : Value) (given : List (String × Value)) :
    Except Error Schedule := do
  match ← Param.bind [.named "schedule" (.tuple [.str "linear", .float 1.0, .float 0.1]),
      .named "loggers" (.dict [])] [] given with
  | [schedule, loggers] =>
    let _ ← iterations count
    let schedule ← Schedule.ofValue schedule
    let _ ← (Loggers.ofValue loggers).absent
    return schedule
  | _ => throw .arguments

def ConjugatedCircuit.annealFirst (schedule : Schedule) (count : Value) (draws : List Int) :
    Update ConjugatedCircuit Unit := do
  let _ ← schedule.temperature (.int 0) count
  let _ ← randomFlip draws
  throw (countError (← get).cxMethod)

end GadgetCircuits
