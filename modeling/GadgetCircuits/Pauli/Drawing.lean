import GadgetCircuits.Drawing.Canvas
import GadgetCircuits.Pauli.Gadget

/-!
Drawings of Pauli polynomials: a column of boxes for each gadget, bent lines from the boxes to the
label with the angle.
-/

namespace GadgetCircuits

structure PauliLayout where
  box : Int
  label : Int
  labelGap : Int
  gap : Int

namespace PauliLayout

def ofScales (hscale vscale : Value) : Except Error PauliLayout := do
  let box ← DrawingOptions.length 20 vscale
  let label ← DrawingOptions.length 50 vscale
  let labelGap ← DrawingOptions.length 20 hscale
  let gap ← DrawingOptions.length 10 hscale
  return { box, label, labelGap, gap }

def column (l : PauliLayout) : Int :=
  l.box + l.gap + l.labelGap + l.label

def top (l : PauliLayout) (q : Nat) : Int :=
  l.gap + (l.box + l.gap) * (q + 1) + l.labelGap

def wireY (l : PauliLayout) (q : Nat) : Int :=
  l.top q + l.box / 2

end PauliLayout

namespace PauliPolynomial

def xColor : String := "#FF8888"
def zColor : String := "#CCFFCC"
def yColor : String := "ycolor"

def color? : Pauli → Option String
  | .i => none
  | .x => some xColor
  | .y => some yColor
  | .z => some zColor

abbrev WireEnds := List (Nat × Int)

def wireEnd (ends : WireEnds) (q : Nat) : Int :=
  ((ends.find? fun e => e.1 == q).map Prod.snd).getD 0

def drawBox (l : PauliLayout) (x : Int) (g : PauliGadget) (acc : Canvas × WireEnds) (q : Nat) :
    Except Error (Canvas × WireEnds) := do
  let some p := g.paulis[q]? | throw .outOfRange
  match color? p with
  | none => return acc
  | some color =>
    let corner := l.box + l.gap + l.labelGap + x
    let c ← acc.1.line (Canvas.xy (wireEnd acc.2 q) (l.wireY q)) (Canvas.xy x (l.wireY q))
    let c ← c.lineBend (Canvas.xy (corner + l.box) (l.gap + l.box)) (Canvas.xy (x + l.box) (l.top q))
      (.bool false) (.int (q * 10))
    let c ← c.square (Canvas.xy x (l.top q)) (.int l.box) (.int l.box) (.str color)
    return (c, (q, x + l.box) :: acc.2)

def drawGadget (l : PauliLayout) (qubits : List Nat) (acc : Canvas × WireEnds)
    (item : PauliGadget × Nat) : Except Error (Canvas × WireEnds) := do
  let x := l.gap + l.column * item.2
  let acc ← qubits.foldlM (drawBox l x item.1) acc
  let corner := l.box + l.gap + l.labelGap + x
  let c ← acc.1.textBox (Canvas.xy corner l.gap) (.int l.label) (.int l.box) (.str item.1.angle.text)
  return (c, acc.2)

def draw (p : PauliPolynomial) (hscale vscale : Value) : Except Error Canvas := do
  let l ← PauliLayout.ofScales hscale vscale
  let width := l.column * p.gadgets.length + l.gap
  let height ← (← (← p.size.mul (.int (l.box + l.gap))).add
    (.int (l.box + l.gap + l.labelGap))).add (.int l.gap)
  let c := (← Canvas.make (.int width) height).diagonalFill (.str xColor) (.str zColor) (.str yColor)
  let some n := p.size.int? | throw .operands
  let qubits := List.range n.toNat
  let (c, ends) ← p.gadgets.zipIdx.foldlM (drawGadget l qubits) (c, [])
  qubits.foldlM (fun c q => c.line (Canvas.xy (wireEnd ends q) (l.wireY q)) (Canvas.xy width (l.wireY q))) c

def drawing (p : PauliPolynomial) (given : List (String × Value)) : Except Error String := do
  match ← Param.bind [.optional "hscale" (.float 1.0), .optional "vscale" (.float 1.0),
      .optional "scale" (.float 1.0), .optional "svg_code_only" (.bool false)] [] given with
  | [h, v, s, o] =>
    let v ← v.mul s
    let h ← h.mul s
    let c ← p.draw h v
    if o.truthy then return c.render
    throw (.noLibrary "IPython")
  | _ => throw .arguments

end PauliPolynomial

end GadgetCircuits
