import GadgetCircuits.Phase.Circuit
import GadgetCircuits.Qasm.Statement

/-!
Phase circuits from OpenQASM programs. Gates with unknown names are passed over; measurements and
everything classical is refused.
-/

namespace GadgetCircuits

namespace Qasm

/-- The qubits of every quantum register, renamed. -/
abbrev Wiring := List (String × List Value)

def wiringFrom (image : Nat → Value) : Nat → List Register → Wiring
  | _, [] => []
  | first, r :: rs =>
    (r.name, (List.range r.size.val).map fun i => image (first + i)) ::
      wiringFrom image (first + r.size.val) rs

def Program.wiring (p : Program) (image : Nat → Value) : Wiring :=
  wiringFrom image 0 (p.registers.filter fun r => r.nature == .quantum)

namespace Wiring

def register (w : Wiring) (name : String) : Except Error (List Value) :=
  match List.find? (fun e => e.1 == name) w with
  | some e => .ok e.2
  | none => .error .noKey

def qubit (w : Wiring) (name : String) (i : Nat) : Except Error Value := do
  match (← w.register name)[i]? with
  | some q => return q
  | none => throw .outOfRange

def qubits (w : Wiring) (t : Target) : Except Error (List Value) :=
  match t.pos with
  | some p => do return [← w.qubit t.register.name p.val]
  | none => w.register t.register.name

/-- The position of an end of a CX gate: the first one unless the end is a register of several
qubits. -/
def end? (t : Target) : Option Nat :=
  if t.size = 1 then some 0 else t.pos.map Count.val

/-- Controls and targets of a CX gate. A single qubit is paired with every qubit of a register. -/
def pairs (w : Wiring) (c t : Target) : Except Error (List (Value × Value)) :=
  let pair (i j : Nat) : Except Error (Value × Value) := do
    let a ← w.qubit c.register.name i
    return (a, ← w.qubit t.register.name j)
  match end? c, end? t with
  | none, none => (List.range c.size).mapM fun i => pair i i
  | some i, none => (List.range t.size).mapM fun j => pair i j
  | none, some j => (List.range c.size).mapM fun i => pair i j
  | some i, some j => do return [← pair i j]

/-- The position of an operand of a named gate; a register of one qubit has only its first. -/
def operand? (t : Target) : Option Nat :=
  if t.register.size.val = 1 then some 0 else t.pos.map Count.val

def operands (w : Wiring) (ts : List Target) : Except Error (List (List Value)) :=
  let positions := ts.map operand?
  if positions.all Option.isSome then do
    return [← ts.mapM fun t => w.qubit t.register.name ((operand? t).getD 0)]
  else if positions.all Option.isNone then
    let size := ((ts.head?).map fun t => t.register.size.val).getD 0
    (List.range size).mapM fun i => ts.mapM fun t => w.qubit t.register.name i
  else .error (.qasm .mixedTargets)

end Wiring

def knownGates : List (String × Nat × Nat) :=
  [("i", 1, 0), ("x", 1, 0), ("y", 1, 0), ("z", 1, 0), ("h", 1, 0), ("s", 1, 0), ("t", 1, 0),
    ("rx", 1, 1), ("ry", 1, 1), ("rz", 1, 1), ("u3", 1, 3), ("cx", 2, 0), ("cy", 2, 0),
    ("cz", 2, 0), ("crx", 2, 1), ("cry", 2, 1), ("crz", 2, 1), ("cu1", 2, 1)]

def angleOperands (params : List Angle) : List AngleOperand :=
  params.map fun a => .expr (.angle a)

def gateGadgets (w : Wiring) (name : String) (ts : List Target) (params : List Angle) :
    Except Error (List Gadget) := do
  let qubits ← w.operands ts
  match knownGates.find? fun g => g.1 == name with
  | none => return []
  | some (_, numQubits, numAngles) =>
    if ts.length ≠ numQubits then throw (.qasm (.gateQubits name numQubits ts.length))
    if params.length ≠ numAngles then throw (.qasm (.gateAngles name numAngles params.length))
    let gs ← qubits.mapM fun qs => PhaseGate.gadgets name (qs.map .plain ++ angleOperands params)
    return gs.flatten

def statementGadgets (w : Wiring) : Statement → Except Error (List Gadget)
  | .version | .comment _ | .load _ | .declare _ => .ok []
  | .u theta phi lam q => do
    let gs ← (← w.qubits q).mapM fun q =>
      PhaseGate.gadgets "u3" (.plain q :: angleOperands [theta, phi, lam])
    return gs.flatten
  | .cx c t => do
    let gs ← (← w.pairs c t).mapM fun (c, t) => PhaseGate.gadgets "cx" [.plain c, .plain t]
    return gs.flatten
  | .gate name ts params => gateGadgets w name ts params
  | s => .error (.qasm (.unsupported s.text))

def images (n : Nat) (mapping : Value) : Except Error (Nat → Value) :=
  match mapping with
  | .null => .ok Value.ofNat
  | m => do
    let vs ← QubitMapping.check n m true
    return fun i => vs[i]?.getD .null

def allowsClassical : Option Value → Except Error Bool
  | none => .ok true
  | some (.bool b) => .ok b
  | some _ => .error (.qasm .classicalFlag)

end Qasm

def PhaseCircuit.ofProgram (p : Qasm.Program) (mapping : Value) (allowClassical : Bool) :
    Except Error PhaseCircuit := do
  if !allowClassical && p.numBits != 0 then throw (.qasm .classicalRegisters)
  let w := p.wiring (← Qasm.images p.numQubits mapping)
  let gs ← p.statements.mapM (Qasm.statementGadgets w)
  make (.ofNat p.numQubits) (some gs.flatten)

end GadgetCircuits
