import GadgetCircuits.Conjugated.Basic
import GadgetCircuits.Phase.Drawing

/-!
Drawings of conjugated circuits: the CX block in reverse, the phase gadgets, and the CX block.
-/

namespace GadgetCircuits.ConjugatedCircuit

def gateSpan (g : CX) : List Nat :=
  let lo := min g.1 g.2
  (List.range (max g.1 g.2 + 1 - lo)).map (lo + ·)

/-- A CX gate in the first column that is free on its lines. Three columns of gates are as wide as one
of gadgets. -/
def drawGate (m : PhaseMeasures) (o : DrawingOptions) (base : Int) (s : PhaseSketch) (g : CX) :
    Except Error PhaseSketch := do
  let lines := gateSpan g
  let x := base + Int.fdiv (s.column lines * m.rowWidth) 3
  let c ← s.canvas.line (Canvas.xy x (m.lineY g.1)) (Canvas.xy x (m.lineY g.2))
  let c ← c.circle (Canvas.xy x (m.lineY g.1)) (.int m.radius) o.zColor
  let c ← c.circle (Canvas.xy x (m.lineY g.2)) (.int m.radius) o.xColor
  return s.take lines c

def depth (size : Nat) (gates : List CX) : Nat :=
  let levels := gates.foldl
    (fun (levels : List Nat) g =>
      let lines := gateSpan g
      let d := (lines.map fun q => (levels[q]?).getD 0).foldl max 0
      levels.zipIdx.map fun (l, q) => if lines.contains q then d + 1 else l)
    (List.replicate size 0)
  levels.foldl max 0

def labelled (c : ConjugatedCircuit) (gs : List Gadget) : List Gadget :=
  gs.zipIdx.map fun (g, i) =>
    match g.angle, c.fresh with
    | .var _, some f => { g with angle := .var (f i) }
    | _, _ => g

def draw (c : ConjugatedCircuit) (o : DrawingOptions) : Except Error Canvas := do
  let n := c.phase.size
  let vscale ← o.vscale.mul o.scale
  let hscale ← o.hscale.mul o.scale
  let before := c.cx.layers.reverse.flatMap CXLayer.gates
  let block ← c.phase.gadgets
  let gadgets := (List.replicate c.repetitions.toNat block).flatten
  if before.any fun g => decide (n ≤ max g.1 g.2) then throw .outOfRange
  let m ← PhaseMeasures.make n hscale vscale
  let gateWidth ← DrawingOptions.length 40 hscale
  let height := m.padY + m.lineHeight * (n + 1)
  let canvas ← Canvas.make (.int (2 * m.padX + 2 * m.marginX + m.rowWidth * gadgets.length +
    2 * depth n before * gateWidth)) (.int height)
  let blank (canvas : Canvas) : PhaseSketch := { canvas, levels := List.replicate n 0 }
  let base := m.padX + m.marginX
  let s ← before.foldlM (drawGate m o base) (blank canvas)
  let base := base + Int.fdiv ((s.deepest + 1) * m.rowWidth) 3
  let s ← (c.labelled gadgets).foldlM (PhaseSketch.add m o base) (blank s.canvas)
  let base := base + (s.deepest + 1) * m.rowWidth
  let s ← before.reverse.foldlM (drawGate m o base) (blank s.canvas)
  let width := base + Int.fdiv (s.deepest * m.rowWidth) 3 + m.padX + m.marginX
  let lines ← PhaseSketch.drawLines m n width (← Canvas.make (.int width) (.int height))
  return lines.merge s.canvas

def drawing (c : ConjugatedCircuit) (given : List (String × Value)) : Except Error String := do
  let o ← DrawingOptions.ofNamed given
  o.check
  o.finish (← c.draw o)

def display (c : ConjugatedCircuit) : Except Error String := do
  return (← c.draw {}).render

end GadgetCircuits.ConjugatedCircuit
