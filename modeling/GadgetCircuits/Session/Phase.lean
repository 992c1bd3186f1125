import GadgetCircuits.Phase.Drawing
import GadgetCircuits.Phase.GraySynthesis
import GadgetCircuits.Phase.ParitySynthesis
import GadgetCircuits.Session.CXCircuits

/-!
Sessions on named phase circuits, and reports on gadgets and syntheses.
-/

namespace GadgetCircuits

namespace Report

def gadget (g : Gadget) : Report :=
  .list [.text g.basis.name, .text g.angle.code, .value (.list g.shownLegs)]

def gadgets (gs : List Gadget) : Report :=
  .list (gs.map gadget)

def phase (c : PhaseCircuit) : Report :=
  .ofExcept (c.gadgets.map gadgets)

end Report

namespace Read

variable {σ : Type}

def gadget (v : Value) : Script σ (Gadget ⊕ Value) :=
  match v with
  | .list [b, a, qs] => do
    let a ← angle a
    return .inl (← Gadget.ofValues b a qs)
  | .list _ => throw .unreadable
  | v => return .inr v

def itemValue : Gadget ⊕ Value → Value
  | .inl g => .object "pauliopt.phase.phase_circuits.PhaseGadget" (some g.text) (some g.code)
  | .inr v => v

def gadgets (v : Value) : Script σ (List Gadget ⊕ Value) := do
  match v with
  | .list vs =>
    let items ← vs.mapM gadget
    let gs := items.filterMap fun i => match i with | .inl g => some g | .inr _ => none
    if gs.length = items.length then return .inl gs
    return .inr (.list (items.map itemValue))
  | .str "" => return .inl []
  | v => return .inr v

def phase (size gs : Value) : Script σ PhaseCircuit := do
  match ← gadgets gs with
  | .inl gs => PhaseCircuit.make size (some gs)
  | .inr _ => PhaseCircuit.make size none

end Read

namespace Session

variable {σ : Type}

def rotation (basis : Value) (a : AngleOperand) (qs : Value) : Except Error Gadget :=
  let b := if basis.textOr == "X" then Basis.x else Basis.z
  match qs.collection?, a with
  | some items, a => Gadget.rotation b a items qs.text
  | none, .plain v => .error (.rotationAngle v)
  | none, .expr _ => .error (.legsType qs.text)

def gadget (v : Value) : Script σ Report := do
  let a ← Read.angle (v.field "angle")
  let build := if (v.field "head").isTrue then rotation else Gadget.ofValues
  let g ← build (v.field "basis") a (v.field "qubits")
  let equality ← match v.field? "eq" with
    | none => pure []
    | some e => do
      match ← Read.gadget e with
      | .inl h => pure [("eq", Report.bool (g.equal h)), ("same_hash", Report.bool (g.same h))]
      | .inr _ => pure [("eq", Report.bool false)]
  let counts := match v.field? "topo" with
    | none => []
    | some t =>
      let count : Except Error Report := do
        return .nat (← g.cxCount (← Read.checkedTopology t) (Read.mapping (v.field "mapping")))
      let info : Except Error Report := do return .text (← g.report (← Read.checkedTopology t))
      [("cx_count", .ofExcept count), ("info", .ofExcept info)]
  return .record ([("gadget", .gadget g), ("str", .text g.text), ("repr", .text g.code)] ++
    equality ++ counts)

def gateGadgets (v : Value) : Script σ Report := do
  let args ← (v.field "args").listItems.mapM Read.argument
  return .gadgets (← PhaseGate.gadgets (v.field "name").textOr args)

abbrev PhaseState := Named PhaseCircuit

def changePhase (name : Value) (x : Update PhaseCircuit Unit) : Script PhaseState Report := do
  let s ← Script.state
  let (r, c) := x.runFrom (← s.find name)
  Script.setState (s.put name c)
  r
  return .phase c

def keepPhase (dst : Value) (c : PhaseCircuit) : Script PhaseState Report := do
  Script.setState ((← Script.state).put dst c)
  return .phase c

def phaseDrawing (c : PhaseCircuit) (options : Value) : Except Error Report := do
  let given := options.named
  if given.any fun e => e.1 == "svg_code_only" then throw .arguments
  return .text (← c.drawing (given ++ [("svg_code_only", .bool true)]))

/-- A sequence of gadgets to append: those of another circuit, a single one, or a list. -/
def phaseOperand (v : Value) : Script PhaseState (List Gadget) := do
  match v with
  | .dict [(.str "ref", name)] => (← (← Script.state).find name).gadgets
  | .dict [(.str "gadget", g)] =>
    match ← Read.gadget g with
    | .inl g => return [g]
    | .inr (.str "") => return []
    | .inr v => throw (.notGadgetSequence v)
  | v =>
    match ← Read.gadgets v with
    | .inl gs => return gs
    | .inr v => throw (.notGadgetSequence v)

def occurrences (gs : List Gadget) (g : Gadget ⊕ Value) : Report :=
  let isIt (h : Gadget) : Bool := match g with | .inl g => h.equal g | .inr _ => false
  let first := match gs.findIdx? isIt with
    | some i => Report.nat i
    | none => .error .unreadable
  .list [.bool (gs.any isIt), .nat (gs.filter isIt).length, first]

def phaseCommand (v : Value) : Script PhaseState Report := do
  let s ← Script.state
  match v with
  | .list [.str "new", dst, n, gs] => keepPhase dst (← Read.phase n gs)
  | .list (.str "gate" :: name :: method :: args) =>
    let _ ← s.find name
    let args ← args.mapM Read.argument
    changePhase name (PhaseCircuit.gate method.textOr args)
  | .list [.str "add", name, g] =>
    let _ ← s.find name
    match ← Read.gadget g with
    | .inl g => changePhase name (PhaseCircuit.addAllSteps [g])
    | .inr v => throw (.notGadget v)
  | .list [.str "append", name, x] =>
    let _ ← s.find name
    let gs ← phaseOperand x
    changePhase name (PhaseCircuit.addAllSteps gs)
  | .list [.str "compose", name, x, dst] =>
    let c ← s.find name
    let gs ← phaseOperand x
    keepPhase dst (← c.andThen gs)
  | .list [.str "conj", name, a, b] =>
    changePhase name (Update.replace fun c => c.conjugateValues a b)
  | .list [.str "simplified", src, dst] => keepPhase dst (← (← s.find src).simplified)
  | .list [.str "normalize", src, dst] => keepPhase dst (← (← s.find src).normalize)
  | .list [.str "dagger", src, dst] => keepPhase dst (← (← s.find src).dagger)
  | .list [.str "color_flip", src, dst] => keepPhase dst (← (← s.find src).colorFlip)
  | .list [.str "cloned", src, dst] => keepPhase dst (← (← s.find src).cloned)
  | .list [.str "mapped", src, m, dst] =>
    keepPhase dst (← (← s.find src).mapped (Read.mapping m))
  | .list [.str "slice", src, a, b, k, dst] => keepPhase dst (← (← s.find src).slice a b k)
  | .list [.str "get", name, i] => return .gadget (← (← s.find name).get i)
  | .list [.str "info", name] =>
    let c ← s.find name
    return .list [.nat c.numGadgets, .nat c.size, .nat c.numGadgets, .gadgets (← c.gadgets)]
  | .list [.str "iter", name] => return .gadgets (← (← s.find name).gadgets)
  | .list [.str "reversed", name] =>
    let c ← s.find name
    return .gadgets (← c.gadgetsAt (List.range c.numGadgets).reverse)
  | .list [.str "find", name, g] =>
    let c ← s.find name
    let g ← Read.gadget g
    return occurrences (← c.gadgets) g
  | .list [.str "eq", a, b] =>
    let c ← s.find a
    let d ← s.find b
    let r := Named.nameOf a == Named.nameOf b || (← c.same d)
    return .bools [r, r, r]
  | .list [.str "eq_value", a, _] =>
    let _ ← s.find a
    return .bools [false, false, true, true]
  | .list (.str "cx_count" :: name :: t :: rest) =>
    let c ← s.find name
    let t ← c.seenThrough (← Read.checkedTopology t) (Read.mapping (rest.headD .null))
    let (n, c) := (PhaseCircuit.count t).runFrom c
    Script.setState (s.put name c)
    return .nat (← n)
  | .list [.str "set_angles", name, as] =>
    let _ ← s.find name
    let angles : List AngleOperand ← match as with
      | .list vs => Read.angles vs
      | .str s => pure ((Read.characters s).map .plain)
      | v => throw (.notAngles v)
    changePhase name (Update.replace fun c => c.setAngles angles)
  | .list [.str "refresh", name, p] =>
    let c ← s.find name
    let label := match p with | .list [.str s] => s | _ => ""
    let ids ← c.angles.mapM fun _ => Script.freshId
    changePhase name (Update.replace fun c => c.refreshed fun i =>
      ⟨(ids[i]?).getD 0, label ++ toString i, label ++ toString i⟩)
  | .list (.str "svg" :: name :: rest) => phaseDrawing (← s.find name) (rest.headD .null)
  | .list [.str "display", name] => return .text (← (← s.find name).display)
  | _ => throw .arguments

def phase (v : Value) : Script σ Report := do
  let c ← Read.phase (v.field "n") ((v.field? "gadgets").getD (.list []))
  Script.inside ([("c", c)] : PhaseState) do
    let steps ← Script.each phaseCommand (v.field "ops").listItems
    let final := (← Script.state).map fun e => (e.1, Report.phase e.2)
    return .record [("steps", .list steps), ("final", .record final)]

def placed : Placed → Report
  | .gadget g => .gadget g
  | .cx g => .pair g

def synthesis (v : Value) : Script σ Report := do
  let c ← Read.phase (v.field "n") (v.field "gadgets")
  let t ← Read.plainTopology (v.field "topo")
  let c ← if (v.field "simplified").isTrue then c.simplified else pure c
  let r ← match (v.field "method").textOr with
    | "paritysynth" => c.paritySynthesis t
    | "steiner-graysynth" => c.graySynthesis t
    | _ => throw .noKey
  return .record [("gates", .list (r.placed.map placed)), ("cxs", .cxCircuit r.undo),
    ("parity", .matrix (← r.undo.parityMatrix false)), ("residual", .gadgets (← r.residual.gadgets))]

def view (v : Value) : Script σ Report := do
  let value := v.field "value"
  let goal := (v.field "of").textOr
  let refuse (w : Value) : Script σ Report :=
    match goal with
    | "phase" => throw (.viewed "PhaseCircuit" w)
    | "layer" => throw (.viewed "CXCircuitLayer" w)
    | _ => throw (.viewed "CXCircuit" w)
  let equalities := [true, true, false].map Report.bool
  match (v.field "kind").textOr with
  | "phase" => do
    let _ ← Read.phase (value.field "n") (.list [])
    if goal == "phase" then return .list equalities
    refuse (.object "pauliopt.phase.phase_circuits.PhaseCircuit" none none)
  | "layer" => do
    let l ← Read.layer (value.field "topo") (value.field "gates")
    if goal == "layer" then return .list (equalities ++ [.topology l.topology])
    refuse (.object "pauliopt.phase.cx_circuits.CXCircuitLayer" none none)
  | "cx" => do
    let c ← Read.cxCircuit (value.field "topo") (value.field "layers")
    let out := match value.field "out" with
      | .list (.null :: _) => c.outputMapping
      | .list (m :: _) => m
      | _ => c.outputMapping
    if goal == "cx" then return .list (equalities ++ [.value out, .topology c.topology])
    refuse (.object "pauliopt.phase.cx_circuits.CXCircuit" none none)
  | _ => refuse value

end Session

end GadgetCircuits
