import GadgetCircuits.Angle.Operand
import GadgetCircuits.Pauli.Clifford
import GadgetCircuits.Pauli.Ladder
import GadgetCircuits.Topology.Family
import GadgetCircuits.Update

/-!
Pauli gadgets: a rotation by an angle about a string of Paulis. The CX gates that a gadget needs
depend only on the qubits where its string is not the identity, so counts are kept by these qubits.
-/

namespace GadgetCircuits

def AngleOperand.text : AngleOperand → String
  | .expr e => e.text
  | .plain v => v.text.getD ""

structure PauliGadget where
  angle : AngleOperand
  paulis : List Pauli
  deriving Inhabited

/-- Counts of CX gates by the support of a string. -/
abbrev CountCache := List (List Bool × Nat)

namespace PauliGadget

def size (p : PauliGadget) : Nat :=
  p.paulis.length

def text (p : PauliGadget) : String :=
  "(" ++ p.angle.text ++ ") @ \x7b " ++ ", ".intercalate (p.paulis.map Pauli.letter) ++ " \x7d"

def support (p : PauliGadget) : List Bool :=
  p.paulis.map (· != .i)

/-- Moves a gate through the gadget. The string changes first, then the sign of the angle. -/
def propagate (item : CliffordItem) : Update PauliGadget Unit := do
  let p ← get
  let g ← (← item.ruled).within p.size
  let (sign, paulis) := g.apply p.paulis
  set { p with paulis }
  let angle ← p.angle.mul (.int sign)
  set ({ angle, paulis } : PauliGadget)

def propagated (g : CliffordItem) (p : PauliGadget) : Except Error PauliGadget := do
  let (r, q) := (propagate g).runFrom p
  let _ ← r
  return q

def gateCount [GraphLibrary] (t : Topology) (support : List Bool) : Except Error Nat := do
  return 2 * (← Ladder.ofColumn t support).1.length

def count [GraphLibrary] (t : Topology) (p : PauliGadget) : Update CountCache Nat := do
  match (← get).find? fun e => e.1 == p.support with
  | some e => return e.2
  | none =>
    let n ← gateCount t p.support
    modify fun cache => cache ++ [(p.support, n)]
    return n

/-- The angle has to be a number; a gadget cannot be turned into a circuit of another library. -/
def exported (p : PauliGadget) : Except Error Unit := do
  match p.angle with
  | .plain (.float _) => pure ()
  | .expr e => let _ ← e.toFloat
  | .plain v => throw (.pauli (.angleType v))
  let _ ← Topology.complete (.ofNat p.size)
  throw (.pauli (.exportOf "Clifford Regions"))

end PauliGadget

structure PauliPolynomial where
  size : Value
  gadgets : List PauliGadget := []

namespace PauliPolynomial

def text (p : PauliPolynomial) : String :=
  "\n".intercalate (p.gadgets.map PauliGadget.text)

def checkLength (size : Value) (g : PauliGadget) : Except Error Unit :=
  if size.same (.ofNat g.size) then .ok () else .error (.pauli (.gadgetLength size g.size))

def check (p : PauliPolynomial) : Except Error Unit :=
  p.gadgets.forM (checkLength p.size)

def propagated (g : CliffordItem) (p : PauliPolynomial) : Except Error PauliPolynomial := do
  return { p with gadgets := ← p.gadgets.mapM (PauliGadget.propagated g) }

def count [GraphLibrary] (t : Topology) (p : PauliPolynomial) : Update CountCache Nat := do
  return natSum (← p.gadgets.mapM (PauliGadget.count t))

def effect [GraphLibrary] (t : Topology) (g : CliffordItem) (p : PauliPolynomial) :
    Update CountCache Int := do
  Update.check p.check
  let after ← count t (← Update.check (p.propagated g))
  let before ← count t p
  return after - before

end PauliPolynomial

end GadgetCircuits
