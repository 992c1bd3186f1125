import GadgetCircuits.CX.Layer
import GadgetCircuits.Call

/-!
Circuits of CX layers and their parity matrices. Circuits can share layers: layers live in a pool, a
circuit names them by their numbers there, and a flip in one circuit shows in every circuit that
names the layer.
-/

namespace GadgetCircuits

/-- A sequence of layers on a topology. The layers are given directly or by number. -/
structure CXCircuit (ι : Type) where
  topology : Topology
  layers : List ι := []
  outputMapping : Value := .ofNats topology.qubits
  deriving Inhabited

namespace CXCircuit

variable {ι : Type}

def extend (c : CXCircuit ι) (ls : List ι) : CXCircuit ι :=
  { c with layers := c.layers ++ ls }

def andThen (c : CXCircuit ι) (ls : List ι) : CXCircuit ι :=
  extend { topology := c.topology } ls

def numGates (c : CXCircuit CXLayer) : Nat :=
  natSum (c.layers.map fun l => l.gates.length)

def same (c d : CXCircuit CXLayer) : Bool :=
  c.topology.same d.topology && c.layers.length == d.layers.length &&
    (c.layers.zip d.layers).all fun p => p.1.same p.2

def ofLayers (t : Topology) (ls : List CXLayer) : Except Error (CXCircuit CXLayer) :=
  if ls.all fun l => l.topology.same t then .ok { topology := t, layers := ls }
  else .error .layerTopology

def dag (c : CXCircuit CXLayer) : Except Error (CXCircuit CXLayer) :=
  ofLayers c.topology c.layers

end CXCircuit

abbrev Parity := List (List Nat)

def Parity.identity (n : Nat) : Parity :=
  (List.range n).map fun i => (List.range n).map fun j => if i = j then 1 else 0

def Parity.addRow (m : Parity) (source goal : Nat) : Except Error Parity :=
  match m[source]?, m[goal]? with
  | some r, some s => .ok (m.set goal (List.zipWith (fun a b => (a + b) % 2) r s))
  | _, _ => .error .outOfRange

def CXCircuit.parityMatrix (c : CXCircuit CXLayer) (asColumns : Bool) : Except Error Parity :=
  let start := Parity.identity c.topology.size
  if asColumns then
    (c.layers.reverse.flatMap CXLayer.gates).foldlM (fun m g => m.addRow g.2 g.1) start
  else
    (c.layers.flatMap CXLayer.gates).foldlM (fun m g => m.addRow g.1 g.2) start

structure LayerPool where
  layers : Array CXLayer := #[]

namespace LayerPool

def layer (p : LayerPool) (i : Nat) : CXLayer :=
  (p.layers[i]?).getD default

def push (p : LayerPool) (l : CXLayer) : LayerPool × Nat :=
  ({ layers := p.layers.push l }, p.layers.size)

def put (p : LayerPool) (i : Nat) (l : CXLayer) : LayerPool :=
  { layers := p.layers.setIfInBounds i l }

def resolve (p : LayerPool) (c : CXCircuit Nat) : CXCircuit CXLayer where
  topology := c.topology
  layers := c.layers.map p.layer
  outputMapping := c.outputMapping

def pushAll (p : LayerPool) : List CXLayer → LayerPool × List Nat
  | [] => (p, [])
  | l :: ls =>
    let (p, i) := p.push l
    let (p, is) := p.pushAll ls
    (p, i :: is)

def make (p : LayerPool) (t : Topology) (is : List Nat) : Except Error (CXCircuit Nat) :=
  if is.all fun i => (p.layer i).topology.same t then .ok { topology := t, layers := is }
  else .error .layerTopology

def dag (p : LayerPool) (c : CXCircuit Nat) : Except Error (CXCircuit Nat) :=
  p.make c.topology c.layers

/-- A circuit with layers of its own that are equal to the given ones. -/
def clone (p : LayerPool) (c : CXCircuit Nat) : Except Error (LayerPool × CXCircuit Nat) :=
  let (p, is) := p.pushAll (c.layers.map p.layer)
  (p.make c.topology is).map fun d => (p, d)

def flip (p : LayerPool) (c : CXCircuit Nat) (layer ctrl trgt : Value) : Except Error LayerPool := do
  let k ← Slice.position c.layers.length layer
  let i := (c.layers[k]?).getD 0
  return p.put i (← (p.layer i).flipValue ctrl trgt)

end LayerPool

structure CXSite where
  pool : LayerPool
  circuit : CXCircuit Nat

def CXSite.attach (i : Nat) : Update CXSite Unit :=
  modify fun s => { s with circuit := s.circuit.extend [i] }

def CXSite.attachNew (l : CXLayer) : Update CXSite Unit :=
  modify fun s =>
    let (p, i) := s.pool.push l
    { pool := p, circuit := s.circuit.extend [i] }

/-- One layer to append: a layer, which is shared; a layer of another circuit or one seen through a
view, which is copied; or the gates of a new layer. -/
inductive LayerOperand where
  | shared (i : Nat)
  | copied (i : Nat)
  | gates (v : Value)

def LayerOperand.value? : LayerOperand → Option Value
  | .gates v => some v
  | .shared _ | .copied _ => none

def LayerOperand.append : LayerOperand → Update CXSite Unit
  | .shared i => CXSite.attach i
  | .copied i => do CXSite.attachNew ((← get).pool.layer i)
  | .gates v => do
    if v.sequence?.isNone then throw (.notPairSequence v)
    CXSite.attachNew (← Update.check (CXLayer.ofValue (← get).circuit.topology v))

/-- What can be appended to a circuit: a layer; the layers of another circuit; a plain value; or a
sequence in which layers and plain values may be mixed. -/
inductive CXOperand where
  | layer (i : Nat)
  | copies (is : List Nat)
  | raw (v : Value)
  | sequence (xs : List LayerOperand)

namespace CXOperand

def isPair (v : Value) : Bool :=
  match v.items? with
  | some [a, b] => a.int?.isSome && b.int?.isSome
  | _ => false

/-- The layers of a sequence of plain values. A sequence of pairs is one layer; any other sequence is
one of layers. -/
def plainLayers (v : Value) (items : List Value) : List LayerOperand :=
  if items.all isPair then [.gates v] else items.map .gates

def layers : CXOperand → Except Error (List LayerOperand)
  | .layer i => .ok [.shared i]
  | .copies is => .ok (is.map .copied)
  | .raw v =>
    match v.sequence? with
    | none => .error (.notLayerSequence v)
    | some items => .ok (plainLayers v items)
  | .sequence xs =>
    match xs.mapM LayerOperand.value? with
    | some items => .ok (plainLayers (.list items) items)
    | none => .ok xs

def append (x : CXOperand) : Update CXSite Unit := do
  (← Update.check x.layers).forM LayerOperand.append

def alone (p : LayerPool) (c : CXCircuit Nat) (x : CXOperand) :
    Except Error (LayerPool × CXCircuit Nat) :=
  match x.append.runFrom { pool := p, circuit := c.andThen [] } with
  | (.ok _, s) => .ok (s.pool, s.circuit)
  | (.error e, _) => .error e

end CXOperand

/-- The circuit of a parity matrix. The one method that finds it needs another library. -/
def CXCircuit.ofParities (given : List (String × Value)) : Except Error Unit := do
  match ← Param.bind [.optional "parities_as_columns" (.bool false),
      .optional "reallocate" (.bool false), .optional "method" (.str "permrowcol")] [] given with
  | [_, _, method] =>
    if method.same (.str "permrowcol") then throw (.noLibrary "galois")
    throw (.conjugation .noMethod)
  | _ => throw .arguments

end GadgetCircuits
