import GadgetCircuits.Angle.Operand
import GadgetCircuits.Topology.Mapping
import GadgetCircuits.Topology.Routes

/-!
Phase gadgets: rotations by an angle about a product of Z or of X operators, one for every leg.
-/

namespace GadgetCircuits

inductive Basis where
  | z
  | x
  deriving DecidableEq, Repr, Inhabited

namespace Basis

def name : Basis → String
  | .z => "Z"
  | .x => "X"

def other : Basis → Basis
  | .z => .x
  | .x => .z

def ofValue? : Value → Option Basis
  | .str "Z" => some .z
  | .str "X" => some .x
  | _ => none

end Basis

/-- A gadget; its legs are ascending and distinct. Legs that were given as truth values are named in
`truths`, since they are shown so. -/
structure Gadget where
  basis : Basis
  angle : AngleExpr
  legs : List Int
  truths : List Int := []
  deriving Inhabited

def sortInts (ns : List Int) : List Int :=
  (ns.mergeSort fun a b => decide (a ≤ b)).eraseDups

def AngleOperand.toValue : AngleOperand → Value
  | .plain v => v
  | .expr (.angle a) => .object "pauliopt.utils.Angle" (some a.text) (some a.code)
  | .expr (.var v) => .object "pauliopt.utils.AngleVar" (some v.label) (some v.label)
  | .expr (.sum ts k) => .object "pauliopt.utils._SumprodAngleExpr" (some (AngleExpr.sum ts k).text)
      (some (AngleExpr.sum ts k).code)
  | .expr (.mod e m) => .object "pauliopt.utils._ModAngleExpr" (some (AngleExpr.mod e m).text)
      (some (AngleExpr.mod e m).code)

def setText (items : List Value) : Option String :=
  (Value.literals (Value.distinct items)).map fun ts => "\x7b" ++ ", ".intercalate ts ++ "\x7d"

namespace Gadget

def shownLeg (g : Gadget) (q : Int) : Value :=
  if g.truths.contains q then .bool (q == 1) else .int q

def shownLegs (g : Gadget) : List Value :=
  g.legs.map g.shownLeg

def ofItems (basis : Basis) (angle : AngleExpr) (items : List Value) : Gadget :=
  let items := Value.distinct items
  { basis, angle
    legs := sortInts (items.filterMap Value.int?)
    truths := items.filterMap fun v => match v with | .bool _ => v.int? | _ => none }

/-- A gadget on items that are collected under the given text. There has to be at least one leg,
and all have to be integers. -/
def make (basis : Value) (angle : AngleOperand) (items : List Value) (shown : Option String) :
    Except Error Gadget :=
  if !items.all fun v => v.int?.isSome then .error (.legsType shown)
  else if items.isEmpty then .error .noLegs
  else
    match Basis.ofValue? basis, angle with
    | none, _ => .error .basisName
    | some _, .plain v => .error (.gadgetAngle v)
    | some b, .expr e => .ok (ofItems b e items)

def ofValues (basis : Value) (angle : AngleOperand) (qubits : Value) : Except Error Gadget :=
  match qubits.collection? with
  | none => .error (.legsType qubits.text)
  | some items => make basis angle items qubits.text

def rotation (basis : Basis) (angle : AngleOperand) (items : List Value) (shown : Option String) :
    Except Error Gadget :=
  match angle with
  | .plain v => .error (.rotationAngle v)
  | .expr e => make (.str basis.name) (.expr e) items shown

def rotationOnSet (basis : Basis) (angle : AngleOperand) (items : List Value) :
    Except Error Gadget :=
  match angle with
  | .plain v => .error (.rotationAngle v)
  | .expr e =>
    if items.all Value.isHashable then
      make (.str basis.name) (.expr e) (Value.distinct items) (setText items)
    else .error .operands

def legsText (g : Gadget) : String :=
  "\x7b" ++ ", ".intercalate (g.shownLegs.map fun v => v.text.getD "") ++ "\x7d"

def text (g : Gadget) : String :=
  g.basis.name ++ "(" ++ g.angle.text ++ ") @ " ++ g.legsText

def code (g : Gadget) : String :=
  "PhaseGadget('" ++ g.basis.name ++ "', " ++ g.angle.text ++ ", " ++ g.legsText ++ ")"

def equal (g h : Gadget) : Bool :=
  g.basis == h.basis && g.angle.equal h.angle && g.legs == h.legs

def same (g h : Gadget) : Bool :=
  g.basis == h.basis && g.angle.same h.angle && g.legs == h.legs

def terminals (legs : List Int) : List Nat :=
  (legs.filter fun q => 0 ≤ q).map Int.toNat

def tree [GraphLibrary] (g : Gadget) (t : Topology) : Except Error Graph :=
  t.steinerTree (terminals g.legs) []

end Gadget

namespace QubitMapping

def put (entries : List (Value × Value)) (k v : Value) : List (Value × Value) :=
  if entries.any fun e => e.1.same k then
    entries.map fun e => if e.1.same k then (e.1, v) else e
  else entries ++ [(k, v)]

def entries (mapping : Value) : Except Error (List (Value × Value)) :=
  match mapping with
  | .dict es => .ok es
  | m =>
    match m.sequence? with
    | some items => .ok (items.zipIdx.map fun (v, i) => (.ofNat i, v))
    | none => .error .operands

/-- The dictionary from images to what is sent to them; the last of several stays. -/
def inverse (es : List (Value × Value)) : Except Error Value :=
  if es.all fun e => e.2.isHashable then
    .ok (.dict (es.foldl (fun acc e => put acc e.2 e.1) []))
  else .error .operands

end QubitMapping

/-- The number of CX gates for one side of a gadget: the edges of the tree that joins its legs. The
mapping, if any, tells on which qubit of the topology a leg sits. -/
def Gadget.cxCount [GraphLibrary] (g : Gadget) (t : Topology) (mapping : Value) :
    Except Error Nat := do
  if g.angle.isZero then return 0
  let t ← match mapping with
    | .null => pure t
    | m => t.mapForward (← QubitMapping.inverse (← QubitMapping.entries m))
  return (← g.tree t).edges.length

def Gadget.report [GraphLibrary] (g : Gadget) (t : Topology) : Except Error String := do
  let edges := (← g.tree t).edges
  let shown := ", ".intercalate (edges.map fun e => s!"({e.1}, {e.2})")
  return "MST implementation info for " ++ g.text ++ ":\n" ++
    "  - Overall CX count for gadget: " ++ toString edges.length ++ "\n" ++
    "  - MST edges: [" ++ shown ++ "]\n\n"

end GadgetCircuits
