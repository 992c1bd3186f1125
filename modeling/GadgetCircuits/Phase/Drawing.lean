import GadgetCircuits.Drawing.Canvas
import GadgetCircuits.Phase.Circuit

/-!
Drawings of phase circuits. Gadgets are put into columns from the left, each in the first column
that is free on all the lines it spans.
-/

namespace GadgetCircuits

structure PhaseMeasures where
  lineHeight : Int
  rowWidth : Int
  padX : Int
  marginX : Int
  padY : Int
  radius : Int
  fontSize : Int
  digits : Nat

def PhaseMeasures.make (size : Nat) (hscale vscale : Value) : Except Error PhaseMeasures := do
  let digits := digitCount size
  let lineHeight ← DrawingOptions.length 30 vscale
  let rowWidth ← DrawingOptions.length 120 hscale
  let padX ← DrawingOptions.length 10 hscale
  let marginX ← DrawingOptions.length 40 hscale
  let padY ← DrawingOptions.length 20 vscale
  let radius := Int.fdiv padY 2 - 2
  let fontSize := 2 * radius
  return { lineHeight, rowWidth, marginX, padY, radius, fontSize, digits
           padX := padX + fontSize * (digits + 1) }

def PhaseMeasures.lineY (m : PhaseMeasures) (q : Int) : Int :=
  m.padY + (q + 1) * m.lineHeight

/-- A drawing in progress: how many columns are taken on every line. -/
structure PhaseSketch where
  canvas : Canvas
  levels : List Nat
  deepest : Nat := 0

namespace PhaseSketch

def drawGadget (m : PhaseMeasures) (o : DrawingOptions) (c : Canvas) (g : Gadget) (x : Int) :
    Except Error Canvas := do
  let fill := if g.basis == .z then o.zColor else o.xColor
  let otherFill := if g.basis == .z then o.xColor else o.zColor
  let label := Value.str g.angle.text
  let r := Value.int m.radius
  let top := g.legs.headD 0
  if 1 < g.legs.length then
    let near := x + Int.fdiv m.rowWidth 4
    let far := x + Int.fdiv (2 * m.rowWidth) 4
    let textY := m.padY + top * m.lineHeight + Int.fdiv m.lineHeight 2
    let c ← g.legs.foldlM (fun c q => Canvas.line c (Canvas.xy x (m.lineY q)) (Canvas.xy near textY)) c
    let c ← g.legs.foldlM (fun c q => Canvas.circle c (Canvas.xy x (m.lineY q)) r fill) c
    let c ← c.line (Canvas.xy near textY) (Canvas.xy far textY)
    let c ← c.circle (Canvas.xy near textY) r otherFill
    let c ← c.circle (Canvas.xy far textY) r fill
    c.text (Canvas.xy (far + 2 * m.radius) textY) label (.int m.fontSize) (.bool false)
  else
    let y := m.lineY top
    let c ← c.circle (Canvas.xy x y) r fill
    c.text (Canvas.xy (x + m.radius) (y - Int.fdiv m.lineHeight 3)) label (.int m.fontSize) (.bool false)

def span (g : Gadget) : List Nat :=
  let lo := (g.legs.headD 0).toNat
  let hi := (g.legs.getLastD 0).toNat
  (List.range (hi + 1 - lo)).map (lo + ·)

def column (s : PhaseSketch) (lines : List Nat) : Nat :=
  (lines.map fun q => (s.levels[q]?).getD 0).foldl max 0

def take (s : PhaseSketch) (lines : List Nat) (canvas : Canvas) : PhaseSketch :=
  let level := s.column lines
  { canvas
    levels := s.levels.zipIdx.map fun (l, q) => if lines.contains q then level + 1 else l
    deepest := max s.deepest level }

/-- Puts a gadget into the first column that is free on its lines; columns start at `base`. -/
def add (m : PhaseMeasures) (o : DrawingOptions) (base : Int) (s : PhaseSketch) (g : Gadget) :
    Except Error PhaseSketch := do
  let lines := span g
  return s.take lines (← drawGadget m o s.canvas g (base + s.column lines * m.rowWidth))

def drawLines (m : PhaseMeasures) (size : Nat) (width : Int) (c : Canvas) : Except Error Canvas :=
  (List.range size).foldlM
    (fun c (q : Nat) => do
      let y := m.lineY q
      let label := Value.str (padded m.digits q)
      let c ← Canvas.line c (Canvas.xy m.padX y) (Canvas.xy (width - m.padX) y)
      let c ← c.text (Canvas.xy 0 y) label (.int m.fontSize) (.bool false)
      c.text (Canvas.xy (width - m.padX + m.radius) y) label (.int m.fontSize) (.bool false))
    c

end PhaseSketch

namespace PhaseCircuit

def draw (c : PhaseCircuit) (o : DrawingOptions) : Except Error Canvas := do
  let vscale ← o.vscale.mul o.scale
  let hscale ← o.hscale.mul o.scale
  let gadgets ← c.gadgets
  let m ← PhaseMeasures.make c.size hscale vscale
  let height := m.padY + m.lineHeight * (c.size + 1)
  let canvas ← Canvas.make (.int (2 * m.padX + 2 * m.marginX + m.rowWidth * gadgets.length))
    (.int height)
  let s ← gadgets.foldlM (PhaseSketch.add m o (m.padX + m.marginX))
    { canvas, levels := List.replicate c.size 0 : PhaseSketch }
  let width := 2 * m.padX + 2 * m.marginX + Int.fdiv (m.rowWidth * (2 * s.deepest + 1)) 2
  let lines ← PhaseSketch.drawLines m c.size width (← Canvas.make (.int width) (.int height))
  return lines.merge s.canvas

def drawing (c : PhaseCircuit) (given : List (String × Value)) : Except Error String := do
  let o ← DrawingOptions.ofNamed given
  o.check
  o.finish (← c.draw o)

def display (c : PhaseCircuit) : Except Error String := do
  return (← c.draw {}).render

end PhaseCircuit

end GadgetCircuits
