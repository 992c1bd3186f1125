import GadgetCircuits.Angle.Basic
import GadgetCircuits.Error

/-!
OpenQASM programs and how they are written. The version comes first, registers are declared once, and
statements use declared registers only.
-/

namespace GadgetCircuits.Qasm

structure Count where
  val : Nat
  truth : Bool := false
  deriving DecidableEq, Repr, Inhabited

namespace Count

def ofValue? : Value → Option Count
  | .int n => if 0 ≤ n then some ⟨n.toNat, false⟩ else none
  | .bool b => some ⟨if b then 1 else 0, true⟩
  | _ => none

def value (c : Count) : Value :=
  if c.truth then .bool (c.val != 0) else .ofNat c.val

def text (c : Count) : String :=
  if c.truth then Value.boolText (c.val != 0) else toString c.val

end Count

/-- `other` registers are neither quantum nor classical; they can be built but not declared. -/
inductive Nature where
  | quantum
  | classical
  | other
  deriving DecidableEq, Repr

structure Register where
  nature : Nature
  name : String
  size : Count
  deriving DecidableEq, Repr

/-- Registers of one nature with one name and size. An `other` register is not even itself. -/
def Register.same (r s : Register) : Bool :=
  r.nature != .other && r.nature == s.nature && r.name == s.name && r.size.val == s.size.val

def Register.text (r : Register) : Option String :=
  match r.nature with
  | .quantum => some ("qreg " ++ r.name ++ "[" ++ r.size.text ++ "];")
  | .classical => some ("creg " ++ r.name ++ "[" ++ r.size.text ++ "];")
  | .other => none

/-- A whole register, or one position of it. The `nature` is what the target was declared to be. -/
structure Target where
  nature : Nature
  register : Register
  pos : Option Count
  deriving DecidableEq, Repr

namespace Target

def size (t : Target) : Nat :=
  match t.pos with
  | some _ => 1
  | none => t.register.size.val

def text (t : Target) : String :=
  match t.pos with
  | some p => t.register.name ++ "[" ++ p.text ++ "]"
  | none => t.register.name

def listText (ts : List Target) : String :=
  ", ".intercalate (ts.map text)

end Target

inductive Statement where
  | version
  | declare (register : Register)
  | load (file : String)
  | comment (text : String)
  | u (theta phi lam : Angle) (qubit : Target)
  | cx (control target : Target)
  | measure (qubit bit : Target)
  | reset (qubit : Target)
  | gate (name : String) (targets : List Target) (params : List Angle)
  | barrier (targets : List Target)
  | guarded (register : Register) (value : Count) (body : Statement)
  deriving DecidableEq, Repr

namespace Statement

def className : Statement → String
  | .version => "Version"
  | .declare r =>
    match r.nature with
    | .quantum => "QReg"
    | .classical => "CReg"
    | .other => "Reg"
  | .load _ => "Include"
  | .comment _ => "Comment"
  | .u .. => "UGate"
  | .cx .. => "CXGate"
  | .measure .. => "Measure"
  | .reset _ => "Reset"
  | .gate .. => "Gate"
  | .barrier _ => "Barrier"
  | .guarded .. => "Conditional"

/-- The registers that a statement involves, those of a condition last. -/
def registers : Statement → List Register
  | .version | .load _ | .comment _ => []
  | .declare r => [r]
  | .u _ _ _ q => [q.register]
  | .cx c t => [c.register, t.register]
  | .measure q b => [q.register, b.register]
  | .reset q => [q.register]
  | .gate _ ts _ => ts.map Target.register
  | .barrier ts => ts.map Target.register
  | .guarded r _ s => s.registers ++ [r]

def anglesText (params : List Angle) : String :=
  if params.isEmpty then "" else "(" ++ ", ".intercalate (params.map Angle.code) ++ ")"

def text : Statement → Option String
  | .version => some "OPENQASM 2.0;"
  | .declare r => r.text
  | .load f => some ("include \"" ++ f ++ "\";")
  | .comment t => some ("// " ++ t)
  | .u a b c q => some ("U" ++ anglesText [a, b, c] ++ " " ++ q.text ++ ";")
  | .cx c t => some ("CX " ++ c.text ++ " " ++ t.text ++ ";")
  | .measure q b => some ("measure " ++ q.text ++ " -> " ++ b.text ++ ";")
  | .reset q => some ("reset " ++ q.text ++ ";")
  | .gate n ts ps => some (n ++ anglesText ps ++ " " ++ Target.listText ts ++ ";")
  | .barrier ts => some ("barrier " ++ Target.listText ts ++ ";")
  | .guarded r v s => s.text.map fun t => "if(" ++ r.name ++ "==" ++ v.text ++ ") " ++ t

end Statement

def checkSizes (ts : List Target) : Except Error Unit :=
  match ts with
  | [] => .ok ()
  | t :: rest =>
    match rest.find? fun s => s.size != t.size with
    | some s => .error (.qasm (.targetSize t.size s.size))
    | none => .ok ()

namespace Statement

def cx? (control target : Target) : Except Error Statement :=
  if control.pos.isNone && target.pos.isNone && control.size != target.size then
    .error (.qasm (.controlSize control.size target.size))
  else .ok (.cx control target)

def measure? (qubit bit : Target) : Except Error Statement := do
  checkSizes [qubit, bit]
  return .measure qubit bit

def gate? (name : String) (targets : List Target) (params : List Angle) :
    Except Error Statement := do
  if targets.isEmpty then throw (.qasm .noTargets)
  checkSizes targets
  return .gate name targets params

end Statement

structure Program where
  statements : List Statement
  /-- In the order of their declaration. -/
  registers : List Register

namespace Program

structure Declared where
  version : Bool := false
  registers : List Register := []

namespace Declared

def register? (d : Declared) (name : String) : Option Register :=
  d.registers.find? fun r => r.name == name

def use (d : Declared) (s : Statement) (r : Register) : Except Error Unit :=
  match d.register? r.name with
  | none => .error (.qasm (.unknownRegister r.name s.text))
  | some r' => if r.same r' then .ok () else .error (.qasm (.registerClash r.name))

def add (d : Declared) (s : Statement) : Except Error Declared :=
  match s with
  | .version =>
    if d.version then .error (.qasm (.repeatedVersion (s.text.getD "")))
    else .ok { d with version := true }
  | .comment _ => .ok d
  | s =>
    if !d.version then .error (.qasm (.versionFirst s.text))
    else
      match s with
      | .declare ⟨.quantum, n, k⟩ => declare ⟨.quantum, n, k⟩
      | .declare ⟨.classical, n, k⟩ => declare ⟨.classical, n, k⟩
      | s => do
        s.registers.forM (d.use s)
        return d
where
  declare (r : Register) : Except Error Declared :=
    match d.register? r.name with
    | some _ => .error (.qasm (.repeatedRegister r.name))
    | none => .ok { d with registers := d.registers ++ [r] }

end Declared

def ofStatements (ss : List Statement) : Except Error Program := do
  let d ← ss.foldlM Declared.add {}
  return { statements := ss, registers := d.registers }

def sizeOf (p : Program) (n : Nature) : Nat :=
  natSum ((p.registers.filter fun r => r.nature == n).map fun r => r.size.val)

def numQubits (p : Program) : Nat :=
  p.sizeOf .quantum

def numBits (p : Program) : Nat :=
  p.sizeOf .classical

def text (p : Program) : String :=
  "\n".intercalate (p.statements.map fun s => s.text.getD "") ++ "\n"

end Program

end GadgetCircuits.Qasm
