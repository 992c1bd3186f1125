import GadgetCircuits.Annealing.Schedule
import GadgetCircuits.CX.Circuit
import GadgetCircuits.Graph.Standard
import GadgetCircuits.Phase.Drawing
import GadgetCircuits.Phase.OfProgram
import GadgetCircuits.Phase.Random
import GadgetCircuits.Phase.Simplify
import GadgetCircuits.Qasm.Reader
import GadgetCircuits.Tableau.Synthesis
import GadgetCircuits.Topology.Family

/-!
Workloads. A workload has a size, and what it computes shows whether the parts it uses agree with each
other.
-/

namespace GadgetCircuits.Workload

def threeLegged (chance : Chance) (gadgets : Value) (seed : Int) : Except Error PhaseCircuit :=
  RandomPhase.ofValues chance [.int 5, gadgets] [("max_legs", .int 3), ("rng_seed", .int seed)]

def drawings (chance : Chance) (gadgets : Value) : Except Error Nat := do
  let c ← threeLegged chance gadgets 7
  return (← c.display).length + (← (← c.cloned).display).length

def halfTurns (n : Nat) : Except Error PhaseCircuit :=
  let legs := (List.range n).map Value.ofNat
  PhaseCircuit.ofGadgets n ([Basis.z, .x].map fun b => Gadget.ofItems b (.angle ⟨1⟩) legs)

/-- The numbers of gadgets after simplification: of a random circuit, of one whose bases alternate,
and of half turns on all qubits, which come apart into a gate for every qubit. -/
def simplifications (chance : Chance) (gadgets : Value) : Except Error (List Nat) := do
  let mixed ← threeLegged chance gadgets 42
  let alternating ← RandomPhase.ofValues chance [.int 5, gadgets]
    [("diagonal", .bool true), ("rng_seed", .int 5)]
  [mixed, alternating, ← halfTurns 5].mapM fun c => return (← c.simplified).numGadgets

def randomLayer (t : Topology) : Update Draws CXLayer := do
  let l := CXLayer.empty t
  let g ← Update.check (l.drawn (← Draws.between 0 l.flippable.length))
  Update.check (l.flip g.1 g.2)

structure CXProfile where
  layers : Nat
  gates : Nat
  rereadSame : Bool
  rereadLayers : Nat
  extendedLayers : Nat

def cxCircuit (chance : Chance) (layers : Int) : Except Error CXProfile := do
  let t ← Topology.line (.int 4)
  let draws ← chance.generator (some 7)
  let ls ← (((List.range layers.toNat).mapM fun _ => randomLayer t).runFrom draws).1
  let c ← CXCircuit.ofLayers t ls
  let reread ← c.dag
  match ls.head?, ls.getLast? with
  | some first, some last =>
    return {
      layers := c.layers.length
      gates := c.numGates
      rereadSame := c.same reread
      rereadLayers := reread.layers.length
      extendedLayers := (c.extend [first, last]).layers.length }
  | _, _ => throw .outOfRange

def families (size : Value) : Except Error (List Topology) := do
  let line ← Topology.line size
  let cycle ← Topology.cycle size
  let half := line.size / 2
  let complete ← Topology.complete (.ofNat (max 3 half))
  let rows := Value.ofNat (max 2 half)
  let grid ← Topology.grid rows (.int 2)
  return [line, cycle, complete, grid, ← Topology.periodicGrid rows (.int 2)]

structure TopologyProfile where
  couplings : Nat
  distance : Option Nat
  firstDegree : Nat
  firstCoupling : String
  hasFirstCoupling : Bool
  route : List Nat
  sizes : List Nat
  restored : List Bool
  degrees : List Nat

def reversal (t : Topology) : Value :=
  .ofNats t.qubits.reverse

def profile (t : Topology) : Except Error TopologyProfile := do
  let last := t.size - 1
  let forward ← t.mapForward (reversal t)
  let back ← forward.mapBackward (reversal t)
  let read ← Topology.ofDocument t.document
  return {
    couplings := t.couplings.length
    distance := t.routes.distance 0 last
    firstDegree := (t.adjacent 0).length
    firstCoupling := Coupling.valueCode (.int 0, .int 1)
    hasFirstCoupling := t.hasCoupling 0 1
    route := ← t.routes.route 0 last
    sizes := [t.size, forward.size, back.size]
    restored := [back.same t, read.same t]
    degrees := t.qubits.map fun q => (t.adjacent q).length }

/-- Flips every coupling that can be flipped, in order, and notes the size of the matching after
each flip. -/
def greedy : List (Nat × Nat) → Matching → Except Error (List Nat × Matching)
  | [], m => .ok ([], m)
  | c :: cs, m =>
    if m.isFlippable c then do
      let next ← m.flip c
      let (sizes, final) ← greedy cs next
      return (next.couplings.length :: sizes, final)
    else greedy cs m

def matching (size : Value) : Except Error Nat := do
  let t ← Topology.complete size
  let (sizes, m) ← greedy t.couplings (.empty t)
  return t.couplings.length + natSum sizes + m.couplings.length + m.qubits.length

def temperatures (steps : Int) : Except Error Float := do
  let first := Value.float 2.0
  let last := Value.float 0.01
  let shapes : List ScheduleShape := [.linear, .geometric, .reciprocal, .logarithmic]
  let schedules ← shapes.mapM fun s => Schedule.make s first last
  let add (it : Nat) (total : Float) (s : Schedule) : Except Error Float := do
    match ← s.temperature (.ofNat it) (.int steps) with
    | .real v => return total + (← v.toFloat)
    | .complex _ _ => throw .operands
  (List.range steps.toNat).foldlM (fun total it => schedules.foldlM (add it) total) 0.0

abbrev StatementKind := String → String → String

def onOne (gate : String) : StatementKind :=
  fun a _ => gate ++ " " ++ a ++ ";"

def onTwo (gate : String) : StatementKind :=
  fun a b => gate ++ " " ++ a ++ "," ++ b ++ ";"

def wire (register : String) (i : Nat) : String :=
  register ++ "[" ++ toString (i % 4) ++ "]"

def statements (kinds : List StatementKind) (count : Nat) : List String :=
  (List.range count).filterMap fun i =>
    (kinds[i % kinds.length]?).map fun kind => kind (wire "q" i) (wire "q" (i + 1))

def programText (lines : List String) : String :=
  "\n".intercalate lines ++ "\n"

def allKinds : List StatementKind :=
  ["h", "x", "y", "z", "s", "t", "rx(pi/2)", "ry(pi/4)", "rz(3*pi/4)", "u3(pi/2,0,pi)"].map onOne ++
    ["cx", "cz", "crz(pi/8)"].map onTwo ++
    [onOne "U(0,pi/2,pi)", onTwo "CX", onTwo "barrier",
      fun a _ => "measure " ++ a ++ " -> c[0];", onOne "reset", fun a _ => "if(c==1) x " ++ a ++ ";"]

def mixedProgram (count : Nat) : Except Error Qasm.Program :=
  Qasm.Program.ofText (programText
    (["OPENQASM 2.0;", "include \"qelib1.inc\";", "// sample program", "qreg q[4];", "creg c[4];"] ++
      statements allKinds count))

def gateKinds : List StatementKind :=
  ["h", "x", "y", "z", "s", "t", "i", "rx(pi/4)", "ry(pi/4)", "rz(pi/4)",
      "u3(pi/2,pi/4,pi/8)"].map onOne ++
    ["cx", "cy", "cz", "crx(pi/4)", "cry(pi/4)", "crz(pi/4)", "cu1(pi/4)"].map onTwo ++
    [onOne "U(pi/2,pi/4,pi/8)", onTwo "CX"]

def gateProgram (count : Nat) : Except Error Qasm.Program :=
  Qasm.Program.ofText (programText
    (["OPENQASM 2.0;", "include \"qelib1.inc\";", "qreg q[4];"] ++ statements gateKinds count))

def gateCircuits (count : Nat) : Except Error (List PhaseCircuit) := do
  let p ← gateProgram count
  let reversed := (List.range 4).reverse
  let entries := reversed.zipIdx.map fun (q, i) => (Value.ofNat i, Value.ofNat q)
  [Value.null, .ofNats reversed, .dict entries].mapM fun m => PhaseCircuit.ofProgram p m true

def randomGate (n : Nat) : Update Draws (Update Tableau Unit) := do
  match ← Draws.between 0 3 with
  | 0 => return Tableau.hAt (.int (← Draws.between 0 n))
  | 1 => return Tableau.sAt (.int (← Draws.between 0 n))
  | _ =>
    match ← Draws.sample n 2 with
    | [c, t] => return Tableau.cxAt (.ofNat c) (.ofNat t)
    | _ => throw .emptyChoice

def randomTableau (n gates : Nat) (draws : Draws) : Except Error Tableau := do
  let steps ← (((List.range gates).mapM fun _ => randomGate n).runFrom draws).1
  let (result, t) := (steps.forM id).runFrom (Tableau.identity n)
  result
  return t

structure SynthesisProfile where
  gates : Nat
  permutation : List Nat

def syntheses (chance : Chance) (n : Nat) : Except Error (List SynthesisProfile) := do
  let t ← randomTableau n (5 * n) (← chance.generator (some 9))
  let line ← Topology.line (.ofNat n)
  [false, true].mapM fun swaps => do
    let (c, permutation) ← t.synthesize line swaps
    return { gates := c.gates.length, permutation }

end GadgetCircuits.Workload
