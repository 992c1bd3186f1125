import GadgetCircuits.Angle.Operand
import GadgetCircuits.Call
import GadgetCircuits.Graph.Standard
import GadgetCircuits.Topology.Family
import GadgetCircuits.Update

/-!
Scripts: commands on a state, with the variables that they have named so far. Arguments are read
from loosely typed values.
-/

namespace GadgetCircuits

inductive Report where
  | value (v : Value)
  | error (e : Error)
  | list (items : List Report)
  | record (fields : List (String × Report))
  deriving Inhabited

namespace Report

def done : Report :=
  .value (.str "ok")

def text (s : String) : Report :=
  .value (.str s)

def nat (n : Nat) : Report :=
  .value (.ofNat n)

def int (n : Int) : Report :=
  .value (.int n)

def bool (b : Bool) : Report :=
  .value (.bool b)

def nothing : Report :=
  .value .null

def nats (ns : List Nat) : Report :=
  .value (.ofNats ns)

def texts (ss : List String) : Report :=
  .value (.list (ss.map .str))

def bools (bs : List Bool) : Report :=
  .value (.list (bs.map .bool))

def fraction (q : Rat) : Report :=
  text (toString q.num ++ "/" ++ toString q.den)

def decimal (x : Float) : Report :=
  text (Decimal.scientific 10 x)

def ofExcept (x : Except Error Report) : Report :=
  match x with
  | .ok r => r
  | .error e => .error e

end Report

/-- The descriptions of the variables so far. A variable is known by its position. -/
structure Names where
  known : Array String := #[]

abbrev Script (σ α : Type) := Update (Names × σ) α

namespace Script

variable {σ α : Type}

def state : Script σ σ := do
  return (← get).2

def setState (s : σ) : Script σ Unit :=
  modify fun e => (e.1, s)

def step (x : Update σ α) : Script σ α := do
  let (r, s) := x.runFrom (← state)
  setState s
  Update.check r

def orError (x : Script σ Report) : Script σ Report :=
  tryCatch x fun e => pure (.error e)

def each (command : Value → Script σ Report) (commands : List Value) : Script σ (List Report) :=
  commands.mapM fun c => orError (command c)

def eachWithState (command : Value → Script σ Report) (view : σ → Report) (commands : List Value) :
    Script σ (List Report) :=
  commands.mapM fun c => do
    let r ← orError (command c)
    return .record [("result", r), ("state", view (← state))]

def inside {τ : Type} (s : τ) (x : Script τ α) : Script σ α := do
  let (names, t) ← get
  let (r, (names, _)) := Update.runFrom x (names, s)
  set (names, t)
  Update.check r

def freshId : Script σ Nat := do
  let (names, s) ← get
  set (({ known := names.known.push "" } : Names), s)
  return names.known.size

def variableId (description : String) : Script σ Nat := do
  let (names, s) ← get
  match names.known.findIdx? (· == description) with
  | some i => return i
  | none =>
    set (({ known := names.known.push description } : Names), s)
    return names.known.size

end Script

abbrev Named (α : Type) := List (String × α)

namespace Named

variable {α : Type}

def nameOf (v : Value) : String :=
  v.text.getD ""

def find (t : Named α) (name : Value) : Except Error α :=
  match List.find? (fun e => e.1 == nameOf name) t with
  | some e => .ok e.2
  | none => .error .noKey

def put (t : Named α) (name : Value) (a : α) : Named α :=
  if List.any t fun e => e.1 == nameOf name then
    List.map (fun e => if e.1 == nameOf name then (e.1, a) else e) t
  else t ++ [(nameOf name, a)]

end Named

namespace Value

def field? (v : Value) (key : String) : Option Value :=
  match v with
  | .dict es => get? es key
  | _ => none

def field (v : Value) (key : String) : Value :=
  (v.field? key).getD .null

def listItems : Value → List Value
  | .list vs => vs
  | _ => []

def tupled : Value → Value
  | .list vs => .tuple vs
  | v => v

def isTrue : Value → Bool
  | .bool b => b
  | _ => false

end Value

namespace Read

variable {σ : Type}

def expr (a : AngleOperand) : Except Error AngleExpr :=
  match a with
  | .expr e => .ok e
  | .plain _ => .error .noAttribute

def characters (s : String) : List Value :=
  s.toList.map fun c => .str (String.ofList [c])

/-- Coefficients: those of a list are read as fractions, anything else is taken as it is. -/
def weighted (es : List AngleOperand) (coefficients : Value) : Except Error AngleOperand :=
  match coefficients with
  | .list cs => do AngleOperand.combineExact es (← cs.mapM Value.toRat)
  | .str s => AngleOperand.combine es (characters s)
  | c => AngleOperand.combine es [c]

mutual

/-- An angle in nested notation: an operation with its operands, a variable, or a number. -/
def angle (v : Value) : Script σ AngleOperand :=
  match v with
  | .list [.str "pi"] => return .expr (.angle Angle.pi)
  | .list (.str "var" :: label :: rest) => do
    let id ← Script.variableId (v.literal.getD "")
    let latex := match rest with | .str s :: _ => s | _ => label.textOr
    return .expr (.var ⟨id, label.textOr, latex⟩)
  | .list [.str "raw", w] => return .plain w
  | .list [.str "neg", a] => do (← angle a).neg
  | .list [.str "pos", a] => do (← angle a).pos
  | .list [.str "add", a, b] => do
    let x ← angle a
    x.add (← angle b)
  | .list [.str "sub", a, b] => do
    let x ← angle a
    x.sub (← angle b)
  | .list [.str "mod", a, b] => do
    let x ← angle a
    x.mod (← angle b)
  | .list [.str "mul", a, w] => do (← angle a).mul w
  | .list [.str "rmul", w, a] => do AngleOperand.rmul w (← angle a)
  | .list [.str "div", a, w] => do (← angle a).div w
  | .list [.str "sum", .list es, cs] => do weighted (← angles es) cs
  | .list [.str "modexpr", a, b] => do
    let x ← angle a
    let y ← angle b
    AngleOperand.mod (.expr (← expr x)) (.expr (← expr y))
  | .list [.str "angle", a] => do (← angle a).toAngle
  | .list [.str "sumclass", .list ts, k] => do
    let ts ← terms ts
    match ← angle k with
    | .expr (.angle a) => return .expr (← AngleExpr.sumOf ts a)
    | _ => throw .noAttribute
  | .list [.str "modclass", a, b] => do
    let x ← expr (← angle a)
    let y ← expr (← angle b)
    return .expr (← AngleExpr.modOf x y)
  | .list _ => throw .operands
  | v => AngleOperand.ofValue v

def angles : List Value → Script σ (List AngleOperand)
  | [] => return []
  | v :: vs => do
    let a ← angle v
    return a :: (← angles vs)

def terms : List Value → Script σ (List (AngleExpr × Rat))
  | [] => return []
  | .list [a, c] :: vs => do
    let e ← expr (← angle a)
    let q ← c.toRat
    return (e, q) :: (← terms vs)
  | _ :: _ => throw .operands

end

def argument : Value → Script σ AngleOperand
  | .dict [(.str "angle", a)] => angle a
  | v => return .plain v

/-- A topology by its family or its couplings; anything but a dictionary stands for itself. -/
def topology (v : Value) : Except Error (Topology ⊕ Value) :=
  match v with
  | .dict [(.str "line", n)] => (Topology.line n).map .inl
  | .dict [(.str "cycle", n)] => (Topology.cycle n).map .inl
  | .dict [(.str "complete", n)] => (Topology.complete n).map .inl
  | .dict [(.str "grid", .list [r, c])] => (Topology.grid r c).map .inl
  | .dict [(.str "periodic_grid", .list [r, c])] => (Topology.periodicGrid r c).map .inl
  | .dict [(.str "grid", _)] | .dict [(.str "periodic_grid", _)] => .error .arguments
  | .dict [(.str "dict", d)] => (Topology.ofDocument d).map .inl
  | .dict es =>
    match Value.get? es "n", Value.get? es "couplings" with
    | some n, some cs => (Topology.ofValues n cs).map .inl
    | _, _ => .error .noKey
  | v => .ok (.inr v)

def plainTopology (v : Value) : Except Error Topology := do
  match ← topology v with
  | .inl t => return t
  | .inr _ => throw .noAttribute

def checkedTopology (v : Value) : Except Error Topology := do
  match ← topology v with
  | .inl t => return t
  | .inr v => throw (.topologyClass v)

def mapping : Value → Value
  | .dict [(.str "map", .list es)] =>
    let entries := es.filterMap fun e => match e with | .list [k, v] => some (k, v) | _ => none
    .dict (entries.foldl
      (fun acc (e : Value × Value) =>
        if acc.any fun p => p.1.same e.1 then acc.map fun p => if p.1.same e.1 then (p.1, e.2) else p
        else acc ++ [e]) [])
  | .dict [(.str "raw", v)] => v
  | v => v

end Read

namespace Report

def pair (p : Nat × Nat) : Report :=
  nats [p.1, p.2]

def pairsInOrder (ps : List (Nat × Nat)) : Report :=
  .list (ps.map pair)

def pairs (ps : List (Nat × Nat)) : Report :=
  pairsInOrder (ps.mergeSort pairLe)

def topology (t : Topology) : Report :=
  .record [("n", .nat t.size), ("couplings", .value (.list t.shownCouplings)),
    ("as_dict", .value t.document)]

end Report

end GadgetCircuits
