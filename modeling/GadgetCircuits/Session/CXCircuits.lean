import GadgetCircuits.CX.Circuit
import GadgetCircuits.Session.Script

/-!
Sessions on CX layers and on named CX circuits.
-/

namespace GadgetCircuits

namespace Report

def layer (l : CXLayer) : Report :=
  .pairs l.gates

def cxCircuit (c : CXCircuit CXLayer) : Report :=
  .list (c.layers.map layer)

def matrix (m : List (List Nat)) : Report :=
  .list (m.map .nats)

end Report

namespace Read

def layer (topology gates : Value) : Except Error CXLayer := do
  CXLayer.ofValue (← checkedTopology topology) gates

/-- An item of a list of layers: gates on a given topology, a layer with a topology of its own, or a
value that is none. -/
def layerItem (topology v : Value) : Except Error (CXLayer ⊕ Value) :=
  match v with
  | .list _ => (layer topology v).map .inl
  | .dict es =>
    match Value.get? es "topo", Value.get? es "gates" with
    | some t, some gates => (layer t gates).map .inl
    | _, _ => .ok (.inr v)
  | v => .ok (.inr v)

def layerItems (topology layers : Value) : Except Error (List (CXLayer ⊕ Value)) :=
  match layers with
  | .list vs => vs.mapM (layerItem topology)
  | .str s => .ok (s.toList.map fun c => .inr (.str (String.ofList [c])))
  | v => .error (.notLayers v)

def onTopology (t : Topology) : List (CXLayer ⊕ Value) → Except Error (List CXLayer)
  | [] => .ok []
  | .inr v :: _ => .error (.notLayer v)
  | .inl l :: rest =>
    if l.topology.same t then (onTopology t rest).map (l :: ·) else .error .layerTopology

def cxCircuitOn (topology layersOn layers : Value) : Except Error (CXCircuit CXLayer) := do
  match layers with
  | .list _ | .str _ =>
    let items ← layerItems layersOn layers
    let t ← checkedTopology topology
    CXCircuit.ofLayers t (← onTopology t items)
  | v =>
    let _ ← checkedTopology topology
    throw (.notLayers v)

def cxCircuit (topology layers : Value) : Except Error (CXCircuit CXLayer) :=
  cxCircuitOn topology topology layers

end Read

namespace Session

structure LayerState where
  layer : CXLayer
  saved : Named CXLayer := []

def layerView (l : CXLayer) : Report :=
  .record [("gates", .layer l), ("num_gates", .nat l.gates.length),
    ("num_flippable", .int l.numFlippable), ("flippable", .pairs l.flippable)]

def layerCommand (v : Value) : Script LayerState Report := do
  let s ← Script.state
  let l := s.layer
  match v with
  | .list [.str "flip", c, t] =>
    Script.setState { s with layer := ← l.flipValue c t }
    return .done
  | .list [.str "append", gates] =>
    let (r, l) := (CXLayer.extend gates).runFrom l
    Script.setState { s with layer := l }
    r
    return .done
  | .list [.str "has", c, t] => return .bool (← l.hasGateValue c t)
  | .list [.str "is_flippable", c, t] => return .bool (← l.isFlippableValue c t)
  | .list [.str "incident", q] =>
    match ← l.incidentValue q with
    | some g => return .pair g
    | none => return .nothing
  | .list [.str "random_flip", .int n] => return .pair (← l.drawn n)
  | .list [.str "snapshot", name] =>
    Script.setState { s with saved := s.saved.put name l }
    return .layer l
  | .list [.str "eq", name] =>
    let b := l.same (← s.saved.find name)
    return .bools [b, b, b]
  | .list [.str "eq_new", t, gates] =>
    let b := l.same (← Read.layer t gates)
    return .bools [b, b, false, false]
  | _ => throw .arguments

def layer {σ : Type} (v : Value) : Script σ Report := do
  let l ← Read.layer (v.field "topo") ((v.field? "gates").getD (.list []))
  Script.inside { layer := l : LayerState } do
    let steps ← Script.eachWithState layerCommand (fun s => layerView s.layer)
      (v.field "ops").listItems
    return .record [("init", layerView l), ("steps", .list steps)]

structure CXState where
  own : Value
  pool : LayerPool := {}
  circuits : Named (CXCircuit Nat) := []

def CXState.adopt (s : CXState) (name : Value) (c : CXCircuit CXLayer) : CXState :=
  let (p, is) := s.pool.pushAll c.layers
  { s with pool := p, circuits := s.circuits.put name ⟨c.topology, is, c.outputMapping⟩ }

def CXState.circuit (s : CXState) (name : Value) : Except Error (CXCircuit CXLayer) :=
  (s.circuits.find name).map s.pool.resolve

def layerNumber (c : CXCircuit Nat) (i : Value) : Except Error Nat := do
  return (c.layers[← Slice.position c.layers.length i]?).getD 0

def cxOperand (s : CXState) (v : Value) : Except Error (LayerPool × CXOperand) :=
  match v with
  | .dict [(.str "layer", gates)] => do
    let (p, i) := s.pool.push (← Read.layer s.own gates)
    return (p, .layer i)
  | .dict [(.str "layer_view", gates)] => do
    let (p, i) := s.pool.push (← Read.layer s.own gates)
    return (p, .copies [i])
  | .dict [(.str "circuit", layers)] | .dict [(.str "circuit_view", layers)] => do
    let (p, is) := s.pool.pushAll (← Read.cxCircuit s.own layers).layers
    return (p, .copies is)
  | .dict [(.str "ref", name)] | .dict [(.str "ref_view", name)] =>
    return (s.pool, .copies (← s.circuits.find name).layers)
  | .dict [(.str "ref_layer", .list [name, i])] =>
    return (s.pool, .layer (← layerNumber (← s.circuits.find name) i))
  | .dict [(.str "ref_layer_view", .list [name, i])] =>
    return (s.pool, .copies [← layerNumber (← s.circuits.find name) i])
  | v => .ok (s.pool, .raw v)

def cxCommand (v : Value) : Script CXState Report := do
  let s ← Script.state
  match v with
  | .list [.str "new", dst, t, layers] =>
    Script.setState (s.adopt dst (← Read.cxCircuitOn t s.own layers))
    return .done
  | .list [.str "append", name, x] =>
    let c ← s.circuits.find name
    let (p, x) ← cxOperand s x
    let (r, site) := x.append.runFrom { pool := p, circuit := c }
    Script.setState { s with pool := site.pool, circuits := s.circuits.put name site.circuit }
    r
    return .done
  | .list [.str "compose", name, x, dst] =>
    let c ← s.circuits.find name
    let (p, x) ← cxOperand s x
    let (p, d) ← x.alone p c
    Script.setState { s with pool := p, circuits := s.circuits.put dst d }
    return .done
  | .list [.str "dag", src, dst] =>
    Script.setState { s with circuits := s.circuits.put dst (← s.pool.dag (← s.circuits.find src)) }
    return .done
  | .list [.str "clone", src, dst] =>
    let (p, d) ← s.pool.clone (← s.circuits.find src)
    Script.setState { s with pool := p, circuits := s.circuits.put dst d }
    return .done
  | .list [.str "flip", name, i, c, t] =>
    Script.setState { s with pool := ← s.pool.flip (← s.circuits.find name) i c t }
    return .done
  | .list (.str "parity" :: name :: rest) =>
    return .matrix (← (← s.circuit name).parityMatrix (rest.headD .null).truthy)
  | .list [.str "get", name, i] =>
    let c ← s.circuit name
    return .layer ((c.layers[← Slice.position c.layers.length i]?).getD default)
  | .list (.str "slice" :: name :: start :: stop :: rest) =>
    let c ← s.circuit name
    let ps ← Slice.positions c.layers.length start stop (rest.headD .null)
    return .list ((Slice.pick c.layers ps).map .layer)
  | .list [.str "info", name] =>
    let c ← s.circuit name
    return .list [.nat c.layers.length, .nat c.numGates, .cxCircuit c, .value c.topology.document]
  | .list [.str "eq", a, b] =>
    let r := (← s.circuit a).same (← s.circuit b)
    return .bools [r, r, r]
  | .list [.str "eq_value", a, _] =>
    let _ ← s.circuits.find a
    return .bools [false, false, true]
  | _ => throw .arguments

def cxState (s : CXState) : Report :=
  .record (s.circuits.map fun e => (e.1, .cxCircuit (s.pool.resolve e.2)))

def cxCircuit {σ : Type} (v : Value) : Script σ Report := do
  let own := v.field "topo"
  let c ← Read.cxCircuit own ((v.field? "layers").getD (.list []))
  Script.inside (CXState.adopt { own } (.str "c") c) do
    return .list (← Script.eachWithState cxCommand cxState (v.field "ops").listItems)

end Session

end GadgetCircuits
