import GadgetCircuits.Call
import GadgetCircuits.Phase.Gadget
import GadgetCircuits.Qasm.Statement

/-!
Statements from parts of any type, each of which is checked.
-/

namespace GadgetCircuits.Qasm

inductive Part where
  | value (v : Value)
  | angle (a : AngleOperand)
  | target (t : Target)
  | statement (s : Statement)
  | list (parts : List Part)
  deriving Inhabited

namespace Part

mutual

def toValue : Part → Value
  | .value v => v
  | .angle a => a.toValue
  | .target t => .object "target" (some t.text) none
  | .statement s => .object s.className s.text none
  | .list ps => .list (toValues ps)

def toValues : List Part → List Value
  | [] => []
  | p :: ps => toValue p :: toValues ps

end

def items? : Part → Option (List Part)
  | .list ps => some ps
  | .value v => v.sequence?.map fun vs => vs.map .value
  | _ => none

def angle? : Part → Option Angle
  | .angle (.expr (.angle a)) => some a
  | _ => none

def target? : Part → Option Target
  | .target t => some t
  | _ => none

def targetOf? (n : Nature) : Part → Option Target
  | .target t => if t.nature = n then some t else none
  | _ => none

def register? (n : Nature) : Part → Option Register
  | .statement (.declare r) => if r.nature = n then some r else none
  | _ => none

def name? : Part → Option String
  | .value (.str s) => if s.isEmpty then none else some s
  | _ => none

def count? : Part → Option Count
  | .value v => Count.ofValue? v
  | _ => none

def all? {α : Type} (f : Part → Option α) (p : Part) : Option (List α) :=
  p.items?.bind fun ps => ps.mapM f

def demand {α : Type} (p : Part) (f : Part → Option α) (e : Value → QasmError) : Except Error α :=
  match f p with
  | some a => .ok a
  | none => .error (.qasm (e p.toValue))

def position (p : Part) : Except Error (Option Count) :=
  match p with
  | .value .null => .ok none
  | p => (p.demand count? .position).map some

def register (nature : Nature) (name size : Part) : Except Error Part := do
  let name ← name.demand name? .registerName
  let size ← size.demand (fun p => p.count?.filter fun c => c.val != 0) .registerSize
  return .statement (.declare ⟨nature, name, size⟩)

def targetFor (nature : Nature) (register pos : Part) : Except Error Part := do
  let r ←
    match nature with
    | .quantum => register.demand (register? .quantum) .quantumRegister
    | .classical => register.demand (register? .classical) .classicalRegister
    | .other =>
      register.demand (fun p => p.register? .quantum <|> p.register? .classical) .register
  return .target ⟨nature, r, ← pos.position⟩

def quantum (p : Part) : Except Error Target :=
  p.demand (targetOf? .quantum) .qubit

def angleOf (p : Part) : Except Error Angle :=
  p.demand angle? .angle

def guarded (register value body : Part) : Except Error Statement := do
  let r ← register.demand (register? .classical) .classicalRegister
  match value.count? with
  | some c =>
    if c.val < pow2 r.size.val then
      match body with
      | .statement s => return .guarded r c s
      | p => throw (.qasm (.conditioned p.toValue))
    else throw (.qasm (.condition value.toValue (.str (r.text.getD ""))))
  | none => throw (.qasm (.condition value.toValue (.str (r.text.getD ""))))

def gate (name targets params : Part) : Except Error Statement := do
  let name ← name.demand name? .gateName
  let ts ← targets.demand (all? target?) .targets
  if ts.isEmpty then throw (.qasm .noTargets)
  let ps ← params.demand (all? angle?) .parameters
  Statement.gate? name ts ps

def build (kind : String) (args : List Part) : Except Error Part := do
  let bind (params : List (Param Part)) := Param.bind params args []
  let statement (x : Except Error Statement) : Except Error Part := x.map .statement
  match kind with
  | "Version" =>
    match ← bind [.required "version"] with
    | [.value (.str "2.0")] => return .statement .version
    | [p] => throw (.qasm (.version p.toValue))
    | _ => throw .arguments
  | "QReg" => declaration .quantum
  | "CReg" => declaration .classical
  | "Reg" => declaration .other
  | "Include" =>
    match ← bind [.required "filename"] with
    | [p] => return .statement (.load (← p.demand name? .fileName))
    | _ => throw .arguments
  | "Comment" =>
    match ← bind [.required "text"] with
    | [.value (.str s)] => return .statement (.comment s)
    | [p] => throw (.qasm (.comment p.toValue))
    | _ => throw .arguments
  | "QRegTarget" => targeting .quantum
  | "CRegTarget" => targeting .classical
  | "RegTarget" => targeting .other
  | "UGate" =>
    match ← bind [.required "theta", .required "phi", .required "lam", .required "qubit"] with
    | [a, b, c, q] => statement do return .u (← a.angleOf) (← b.angleOf) (← c.angleOf) (← q.quantum)
    | _ => throw .arguments
  | "CXGate" =>
    match ← bind [.required "control", .required "target"] with
    | [c, t] => statement do Statement.cx? (← c.quantum) (← t.quantum)
    | _ => throw .arguments
  | "Measure" =>
    match ← bind [.required "qubit", .required "bit"] with
    | [q, b] => statement do
      Statement.measure? (← q.quantum) (← b.demand (targetOf? .classical) .bit)
    | _ => throw .arguments
  | "Reset" =>
    match ← bind [.required "qubit"] with
    | [q] => statement do return .reset (← q.quantum)
    | _ => throw .arguments
  | "Gate" =>
    match ← bind [.required "name", .required "targets", .optional "params" (.list [])] with
    | [n, ts, ps] => statement (gate n ts ps)
    | _ => throw .arguments
  | "Barrier" =>
    match ← bind [.required "targets"] with
    | [ts] => statement do return .barrier (← ts.demand (all? (targetOf? .quantum)) .targets)
    | _ => throw .arguments
  | "Conditional" =>
    match ← bind [.required "register", .required "value", .required "statement"] with
    | [r, v, s] => statement (guarded r v s)
    | _ => throw .arguments
  | _ => throw .noAttribute
where
  declaration (n : Nature) : Except Error Part := do
    match ← Param.bind [.required "name", .required "size"] args [] with
    | [name, size] => register n name size
    | _ => throw .arguments
  targeting (n : Nature) : Except Error Part := do
    match ← Param.bind [.required "register", .optional "pos" (.value .null)] args [] with
    | [r, p] => targetFor n r p
    | _ => throw .arguments

end Part

def Program.ofParts (ps : List Part) : Except Error Program := do
  let ss ← ps.mapM fun p =>
    match p with
    | .statement s => .ok s
    | p => .error (.qasm (.statement p.toValue))
  Program.ofStatements ss

def checkPartSizes (ps : List Part) : Except Error Unit := do
  let _ ← ps.foldlM (fun (size : Option Nat) p =>
    match p with
    | .target t =>
      match size with
      | none => .ok (some t.size)
      | some n => if t.size = n then .ok (some n) else .error (.qasm (.targetSize n t.size))
    | p => .error (.qasm (.notTarget p.toValue))) none
  return ()

end GadgetCircuits.Qasm
