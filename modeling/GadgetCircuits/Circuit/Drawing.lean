import GadgetCircuits.Circuit.Basic
import GadgetCircuits.Drawing.Canvas

/-!
Drawings of circuits of gates. Gates are put into columns from the left, and a column is as wide as
its widest gate.
-/

namespace GadgetCircuits

structure CircuitDrawingOptions where
  zColor : Value
  xColor : Value
  hColor : Value
  hscale : Value
  vscale : Value
  scale : Value
  codeOnly : Value

def CircuitDrawingOptions.ofNamed (given : List (String × Value)) : Except Error CircuitDrawingOptions := do
  match ← Param.bind [.named "zcolor" (.str "#CCFFCC"), .named "xcolor" (.str "#FF8888"),
      .named "hcolor" (.str "#FFFF00"), .named "hscale" (.float 1.0), .named "vscale" (.float 1.0),
      .named "scale" (.float 1.0), .named "svg_code_only" (.bool false)] [] given with
  | [z, x, h, hs, vs, s, o] => return ⟨z, x, h, hs, vs, s, o⟩
  | _ => throw .arguments

structure GateStyle where
  zColor : Value
  xColor : Value
  hColor : Value
  lineHeight : Int
  textOffset : Value × Value
  padY : Int
  fontSize : Int := 12
  radius : Int := 6

namespace GateStyle

def lineY (s : GateStyle) (q : Value) : Except Error Value := do
  (Value.int s.padY).add (← (← q.add (.int 1)).mul (.int s.lineHeight))

def drawText (s : GateStyle) (c : Canvas) (x y : Value) (label : String) (center : Bool) :
    Except Error Canvas :=
  c.text (.tuple [x, y]) (.str label) (.int s.fontSize) (.bool center)

/-- A gadget with its left end at `x`. The label of a single leg is above or below its line. -/
def drawGadget (s : GateStyle) (c : Canvas) (x : Value) (width : Int) (g : Gadget) (above : Bool) :
    Except Error Canvas := do
  let (near, far) := if g.basis == .z then (s.zColor, s.xColor) else (s.xColor, s.zColor)
  let step ← (Value.int width).div (.int 4)
  let r := Value.int s.radius
  let label := g.angle.text
  match g.legs with
  | [q] =>
    let y ← s.lineY (.int q)
    let c ← c.circle (.tuple [x, y]) r near
    let textX ← x.add s.textOffset.1
    let textY ← if above then y.add s.textOffset.2 else y.sub s.textOffset.2
    s.drawText c textX textY label false
  | legs =>
    let body ← (Value.int (legs.headD 0)).add (.float 0.5)
    let bodyX ← x.add step
    let bodyY ← s.lineY body
    let c ← legs.foldlM (fun (c : Canvas) q => do
      let y ← s.lineY (.int q)
      let c ← c.line (.tuple [x, y]) (.tuple [bodyX, bodyY])
      c.circle (.tuple [x, y]) r near) c
    let endX ← bodyX.add step
    let c ← c.line (.tuple [bodyX, bodyY]) (.tuple [endX, bodyY])
    let c ← c.circle (.tuple [bodyX, bodyY]) r far
    let c ← c.circle (.tuple [endX, bodyY]) r near
    s.drawText c (← endX.add s.textOffset.1) bodyY label false

def drawBox (s : GateStyle) (c : Canvas) (x : Value) (g : Gate) : Except Error Canvas := do
  let (lo, hi) ← g.bounds
  let middle ← (← lo.add hi).div (.int 2)
  let y ← s.lineY middle
  let (w, h) ← g.boxSize (.int s.lineHeight)
  let c ← c.rect (.tuple [x, y]) w h (.str "#FFFFFF")
  s.drawText c x y (g.text.getD "") true

def drawLink (s : GateStyle) (c : Canvas) (x : Value) (control target : Value)
    (targetColor : Value) : Except Error (Canvas × Value × Value) := do
  let yc ← s.lineY control
  let yt ← s.lineY target
  let c ← c.line (.tuple [x, yc]) (.tuple [x, yt])
  let c ← c.circle (.tuple [x, yc]) (.int s.radius) s.zColor
  let c ← c.circle (.tuple [x, yt]) (.int s.radius) targetColor
  return (c, yc, yt)

/-- Lines on which the label of a single leg has no room above. -/
abbrev Busy := List Int

/-- Draws a gate into a column that starts at `base`. The parts of a gate are drawn into the same
column, at most `depth` levels down. -/
def drawGate (s : GateStyle) (width : Int) (base : Int) :
    Nat → Canvas → Gate → Except Error Canvas
  | 0, c, _ => .ok c
  | depth + 1, c, g => do
    let middle ← (Value.int base).add (← (Value.int width).div (.int 2))
    match g.kind, g.qubits with
    | .h, [q] =>
      let side := Value.float (1.5 * 6.0)
      c.rect (.tuple [middle, ← s.lineY q]) side side s.hColor
    | .cx, [a, b] => return (← s.drawLink c middle a b s.xColor).1
    | .cz, [a, b] =>
      let (c, ya, yb) ← s.drawLink c middle a b s.zColor
      let r := Value.int s.radius
      c.rect (.tuple [middle, ← (← ya.add yb).div (.int 2)]) r r s.hColor
    | kind, _ =>
      if !kind.drawnByParts then s.drawBox c middle g
      else
        let parts ← g.components
        let step ← (Value.int width).div (.ofNat (Gate.numColumns parts))
        let (c, _) ← (parts.zip (Gate.columns parts)).foldlM
          (fun (acc : Canvas × Busy) (part, column) => do
            match part with
            | .gadget d =>
              let busy :=
                if 1 < d.legs.length then (d.legs.headD 0 + 1) :: acc.2 else acc.2
              let above := !(d.legs.length == 1 && busy.contains (d.legs.headD 0))
              let x ← (Value.int base).add (← (Value.ofNat column).mul step)
              return (← s.drawGadget acc.1 x width d above, busy)
            | .gate d =>
              let busy :=
                if 1 < d.qubits.length then
                  (((d.qubits.filterMap Value.int?).foldl min ((d.qubits.head?.bind Value.int?).getD 0)) + 1)
                    :: acc.2
                else acc.2
              return (← drawGate s width base depth acc.1 d, busy)) (c, [])
        return c

end GateStyle

structure CircuitLayout where
  levels : List Nat
  columns : List Nat := []
  widths : List Int

/-- Puts a gate into the first column that is free on all lines from its first to its last qubit. -/
def CircuitLayout.place (l : CircuitLayout) (g : Gate) : Except Error CircuitLayout := do
  let (lo, hi) ← g.bounds
  match lo, hi with
  | .float _, _ | _, .float _ => throw .operands
  | lo, hi =>
    let first := (lo.int?.getD 0).toNat
    let last := (hi.int?.getD 0).toNat
    let spanned (q : Nat) : Bool := first ≤ q && q ≤ last
    let level := ((l.levels.zipIdx.filter fun e => spanned e.2).map Prod.fst).foldl max 0
    let w ← g.width
    return { levels := l.levels.zipIdx.map fun (d, q) => if spanned q then level + 1 else d
             columns := l.columns ++ [level]
             widths := l.widths.zipIdx.map fun (v, d) => if d = level then max v w else v }

def CircuitLayout.start (l : CircuitLayout) (pad : Int) (d : Nat) : Int :=
  pad + intSum (l.widths.take d)

namespace Circuit

def numLines (size : Value) : Except Error Nat :=
  match size.int? with
  | some n => .ok n.toNat
  | none => .error .operands

def draw (c : Circuit) (o : CircuitDrawingOptions) : Except Error Canvas := do
  let vscale ← o.vscale.mul o.scale
  let hscale ← o.hscale.mul o.scale
  let n ← numLines c.size
  let layout ← c.gates.foldlM CircuitLayout.place
    { levels := List.replicate n 0, widths := c.gates.map fun _ => 0 : CircuitLayout }
  if n = 0 then throw .unreadable
  let digits := digitCount n
  let lineHeight ← DrawingOptions.length 30 vscale
  let padX := (← DrawingOptions.length 10 hscale) + 12 * (digits + 1)
  let padY ← DrawingOptions.length 20 vscale
  let total := intSum layout.widths
  let height := padY + lineHeight * (n + 1)
  let canvas ← Canvas.make (.int total) (.int height)
  let style : GateStyle :=
    { zColor := o.zColor, xColor := o.xColor, hColor := o.hColor, lineHeight, padY
      textOffset := (← (Value.int 10).mul hscale, ← (Value.int (-10)).mul vscale) }
  let gates ← (layout.columns.zip c.gates).foldlM
    (fun canvas (d, g) =>
      style.drawGate ((layout.widths[d]?).getD 0) (layout.start padX d) 4 canvas g) canvas
  let width := padX + total + padX
  let lines ← (List.range n).foldlM
    (fun (canvas : Canvas) (q : Nat) => do
      let y := padY + ((q : Int) + 1) * lineHeight
      let label := padded digits q
      let canvas ← canvas.line (Canvas.xy padX y) (Canvas.xy (width - padX) y)
      let canvas ← style.drawText canvas (.int 0) (.int y) label false
      style.drawText canvas (.int (width - padX + style.radius)) (.int y) label false)
    (← Canvas.make (.int width) (.int height))
  return lines.merge gates

def drawing (c : Circuit) (given : List (String × Value)) : Except Error String := do
  let o ← CircuitDrawingOptions.ofNamed given
  let canvas ← c.draw o
  if o.codeOnly.truthy then return canvas.render
  throw (.noLibrary "IPython")

end Circuit

end GadgetCircuits
