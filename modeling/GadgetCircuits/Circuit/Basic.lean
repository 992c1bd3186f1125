import GadgetCircuits.Phase.Gates

/-!
Circuits of gates. Gates are checked when they are added: their qubits are distinct and in range.
-/

namespace GadgetCircuits

inductive GateKind where
  | h | x | z | y | s | sdg | t | tdg
  | swap | cx | cy | cz | ccx | ccz
  | rx | ry | rz | crx | cry | crz
  deriving DecidableEq, Repr

namespace GateKind

def name : GateKind → String
  | .h => "H" | .x => "X" | .z => "Z" | .y => "Y" | .s => "S" | .sdg => "Sdg" | .t => "T"
  | .tdg => "Tdg" | .swap => "SWAP" | .cx => "CX" | .cy => "CY" | .cz => "CZ" | .ccx => "CCX"
  | .ccz => "CCZ" | .rx => "Rx" | .ry => "Ry" | .rz => "Rz" | .crx => "CRx" | .cry => "CRy"
  | .crz => "CRz"

def all : List GateKind :=
  [.h, .x, .z, .y, .s, .sdg, .t, .tdg, .swap, .cx, .cy, .cz, .ccx, .ccz, .rx, .ry, .rz, .crx,
    .cry, .crz]

def ofName? (name : String) : Option GateKind :=
  if name == "CNOT" then some .cx else all.find? fun k => k.name == name

def numQubits : GateKind → Nat
  | .swap | .cx | .cy | .cz | .crx | .cry | .crz => 2
  | .ccx | .ccz => 3
  | _ => 1

def hasPhase : GateKind → Bool
  | .rx | .ry | .rz | .crx | .cry | .crz => true
  | _ => false

def drawnByParts : GateKind → Bool
  | .crx | .cry => false
  | _ => true

end GateKind

/-- A gate on qubits of any type, which are only checked when it is added to a circuit. -/
structure Gate where
  kind : GateKind
  phase : Option AngleOperand := none
  qubits : List Value

namespace Gate

def ofQubits (kind : GateKind) (phase : Option AngleOperand) (qubits : List Value) :
    Except Error Gate :=
  if qubits.length = kind.numQubits then .ok { kind, phase, qubits }
  else .error (.circuit (.arity kind.name kind.numQubits qubits.length))

def make (kind : GateKind) (args : List AngleOperand) : Except Error Gate :=
  if kind.hasPhase then
    match args with
    | [] => .error .arguments
    | p :: qs => ofQubits kind (some p) (qs.map AngleOperand.toValue)
  else ofQubits kind none (args.map AngleOperand.toValue)

def text (g : Gate) : Option String := do
  let qs := ", ".intercalate (← Value.literals g.qubits)
  match g.phase with
  | none => return g.kind.name ++ "(" ++ qs ++ ")"
  | some p => return g.kind.name ++ "(" ++ (← p.toValue.text) ++ ", " ++ qs ++ ")"

inductive Component where
  | gadget (g : Gadget)
  | gate (g : Gate)

/-- What is the same for parts in one column: the kind of a gate, or the basis of a gadget. -/
def Component.column : Component → GateKind ⊕ Basis
  | .gadget g => .inr g.basis
  | .gate g => .inl g.kind

def turn (b : Basis) (a : AngleOperand) (qs : List Value) : Except Error Component :=
  (Gadget.rotationOnSet b a qs).map .gadget

def fixed (b : Basis) (q : Rat) (qs : List Value) : Except Error Component :=
  turn b (PhaseGate.angleOf q) qs

def inner (kind : GateKind) (qs : List Value) (phase : Option AngleOperand) :
    Except Error Component :=
  .ok (.gate { kind, phase, qubits := qs })

/-- The parts of a gate in their order. A controlled Y rotation has none. -/
def components (g : Gate) : Except Error (List Component) :=
  let phase := g.phase.getD (.plain .null)
  match g.kind, g.qubits with
  | .h, [q] => [fixed .z (1/2) [q], fixed .x (1/2) [q], fixed .z (1/2) [q]].mapM id
  | .x, [q] => [fixed .x 1 [q]].mapM id
  | .z, [q] => [fixed .z 1 [q]].mapM id
  | .y, [q] => [fixed .z 1 [q], fixed .x 1 [q]].mapM id
  | .s, [q] => [fixed .z (1/2) [q]].mapM id
  | .sdg, [q] => [fixed .z (-1/2) [q]].mapM id
  | .t, [q] => [fixed .z (1/4) [q]].mapM id
  | .tdg, [q] => [fixed .z (-1/4) [q]].mapM id
  | .swap, [a, b] => [inner .cx [a, b] none, inner .cx [b, a] none, inner .cx [a, b] none].mapM id
  | .cx, [c, t] => [inner .h [t] none, inner .cz [c, t] none, inner .h [t] none].mapM id
  | .cy, [c, t] => [fixed .x (1/2) [t], inner .cz [c, t] none, fixed .x (-1/2) [t]].mapM id
  | .cz, [c, t] => [fixed .z (1/2) [c, t]].mapM id
  | .ccx, [a, b, c] => [inner .h [c] none, inner .ccz [a, b, c] none, inner .h [c] none].mapM id
  | .ccz, [a, b, c] =>
    [[a], [b], [c], [a, b], [a, c], [b, c], [a, b, c]].mapM fun qs => fixed .z (-1/2) qs
  | .rx, [q] => [turn .x phase [q]].mapM id
  | .ry, [q] => [fixed .x (1/2) [q], turn .z phase [q], fixed .x (-1/2) [q]].mapM id
  | .rz, [q] => [turn .z phase [q]].mapM id
  | .crx, [c, t] =>
    [inner .h [t] none, inner .crz [c, t] (some phase), inner .h [t] none].mapM id
  | .crz, [c, t] => do
    let first ← turn .z (← PhaseGate.minusHalf phase) [c, t]
    return [first, ← turn .z (← PhaseGate.half phase) [t]]
  | _, _ => .error .arguments

/-- The columns of the parts, and the one after them. Parts alike share a column, and a gadget with
several legs takes three. -/
def columnsFrom : Nat → Option (GateKind ⊕ Basis) → Bool → List Component → List Nat
  | n, _, wide, [] => [n + if wide then 3 else 1]
  | n, last, wide, c :: cs =>
    let fresh := last != some c.column
    let n := if fresh then n + (if wide then 3 else 1) else n
    let big := match c with | .gadget g => 1 < g.legs.length | .gate _ => false
    n :: columnsFrom n (some c.column) ((!fresh && wide) || big) cs

def columns (cs : List Component) : List Nat :=
  columnsFrom 0 none false cs

def numColumns (cs : List Component) : Nat :=
  (columns cs).getLastD 0

def bounds (g : Gate) : Except Error (Value × Value) :=
  match g.qubits with
  | [] => .error .emptyChoice
  | q :: qs => do
    let lo ← qs.foldlM Value.smaller q
    return (lo, ← qs.foldlM Value.larger q)

def boxSize (g : Gate) (lineHeight : Value) : Except Error (Value × Value) := do
  let (lo, hi) ← g.bounds
  let height ← Value.larger (.int 30) (← (← (← hi.sub lo).mul lineHeight).add (.int 10))
  let textWidth := Value.ofNat (8 * (g.text.getD "").length)
  return (← Value.larger textWidth (← height.mul (.float 1.5)), height)

def width (g : Gate) : Except Error Int :=
  match g.kind with
  | .h | .cx => .ok 40
  | k =>
    if k.drawnByParts then do
      return numColumns (← g.components) * 20 + 40
    else do
      match (← g.boxSize (.int 30)).1 with
      | .float x => Value.truncate x
      | v => return v.int?.getD 0

end Gate

inductive GateItem where
  | gate (g : Gate)
  | raw (v : Value)

structure Circuit where
  size : Value
  gates : List Gate := []

namespace Circuit

def allDistinct (vs : List Value) : Bool :=
  (Value.distinct vs).length == vs.length

def inRange (size q : Value) : Except Error Bool := do
  if ← (Value.int 0).le q then q.lt size else return false

def allInRange (size : Value) : List Value → Except Error Bool
  | [] => .ok true
  | q :: qs => do if ← inRange size q then allInRange size qs else return false

def checkGate (size : Value) : GateItem → Except Error Gate
  | .raw v => .error (.circuit (.notGate v))
  | .gate g =>
    if !g.qubits.all Value.isHashable then .error .operands
    else if !allDistinct g.qubits then .error (.circuit (.repeatedQubits g.qubits))
    else do
      if ← allInRange size g.qubits then return g
      throw (.circuit (.outOfRange g.text size))

def addAll (c : Circuit) (items : List GateItem) : Except Error Circuit := do
  let gs ← items.mapM (checkGate c.size)
  return { c with gates := c.gates ++ gs }

def add (c : Circuit) (item : GateItem) : Except Error Circuit :=
  c.addAll [item]

def ofItems (size : Value) (items : List GateItem) : Except Error Circuit :=
  addAll { size } items

def text (c : Circuit) : Option String := do
  return "Circuit(" ++ (← c.size.text) ++ ", [" ++
    ", ".intercalate (← c.gates.mapM Gate.text) ++ "])"

def instruction? (name : String) : Option GateKind :=
  GateKind.all.find? fun k => k.name.toLower == name

/-- Adds an instruction: a name, the places of its qubits in a register, and its parameters, of
which the first is the phase. -/
def addInstruction (register : List Value) (c : Circuit) (name : String) (qubits : List Value)
    (params : List AngleOperand) : Except Error Circuit := do
  let places ← qubits.mapM fun q =>
    match register.findIdx? fun r => r.same q with
    | some i => .ok (Value.ofNat i)
    | none => .error .unreadable
  match instruction? name with
  | none => throw .noKey
  | some kind =>
    let phase ←
      match kind.hasPhase, params with
      | false, _ => pure none
      | true, p :: _ => pure (some p)
      | true, [] => .error .unsuited
    c.add (.gate (← Gate.ofQubits kind phase places))

end Circuit

end GadgetCircuits
