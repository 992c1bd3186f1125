import GadgetCircuits.Call
import GadgetCircuits.Value.Arithmetic

/-!
Vector drawings as SVG text. A canvas is a size and a list of tags; coordinates are written as they
are given, so integers stay without a point.
-/

namespace GadgetCircuits

structure Canvas where
  width : Value
  height : Value
  fills : List Value := []
  tags : Array String := #[]

namespace Canvas

def positive (v : Value) : Bool :=
  v.int?.any (0 < ·)

def make (width height : Value) : Except Error Canvas :=
  if !positive width then .error .canvasWidth
  else if !positive height then .error .canvasHeight
  else .ok { width, height }

def setWidth (c : Canvas) (v : Value) : Except Error Canvas :=
  if positive v then .ok { c with width := v } else .error .canvasWidth

def setHeight (c : Canvas) (v : Value) : Except Error Canvas :=
  if positive v then .ok { c with height := v } else .error .canvasHeight

def push (c : Canvas) (tag : String) : Canvas :=
  { c with tags := c.tags.push tag }

def shown (v : Value) : String :=
  v.text.getD ""

def attr (name : String) (v : Value) : String :=
  name ++ "=\"" ++ shown v ++ "\""

def point : Value → Except Error (Value × Value)
  | .tuple [x, y] => if x.isNumber && y.isNumber then .ok (x, y) else .error .notNumberPair
  | _ => .error .notPair

def line (c : Canvas) (start stop : Value) : Except Error Canvas := do
  let (fx, fy) ← point start
  let (tx, ty) ← point stop
  return c.push ("<path fill=\"none\" stroke=\"black\" d=\"M " ++ shown fx ++ ", " ++ shown fy ++
    " L " ++ shown tx ++ ", " ++ shown ty ++ "\"/>")

def isBool : Value → Bool
  | .bool _ => true
  | _ => false

def difference (exact : Bool) (a b : Value) : Except Error Float := do
  if exact then (← b.sub a).toFloat else return (← b.toFloat) - (← a.toFloat)

/-- The point at distance `d` from the middle of a segment, on its left or right side, cut to
integers. -/
def sidePoint (a b : Value × Value) (d : Value) (left : Bool) : Except Error (Int × Int) := do
  let all := [a.1, a.2, b.1, b.2]
  if all.all isBool then throw .operands
  let exact := all.all fun v => v.int?.isSome
  let dx ← difference exact a.1 b.1
  let dy ← difference exact a.2 b.2
  let len := Float.sqrt (dx * dx + dy * dy)
  let nx := dx / len
  let ny := dy / len
  let (ox, oy) := if left then (-ny, nx) else (ny, -nx)
  let k ← d.toFloat
  let mx := (← (← a.1.add b.1).toFloat) / 2.0
  let my := (← (← a.2.add b.2).toFloat) / 2.0
  return (← Value.truncate (mx + k * ox), ← Value.truncate (my + k * oy))

def lineBend (c : Canvas) (start stop left degree : Value) : Except Error Canvas := do
  let a ← point start
  let b ← point stop
  let (x, y) ← sidePoint a b degree left.truthy
  return c.push ("<path d=\"M " ++ shown a.1 ++ " " ++ shown a.2 ++ " Q " ++ toString x ++ " " ++
    toString y ++ " " ++ shown b.1 ++ " " ++ shown b.2 ++ "\" fill=\"none\" stroke=\"black\"/>")

def diagonalFill (c : Canvas) (color₁ color₂ id : Value) : Canvas :=
  let tag := "<linearGradient " ++ attr "id" id ++ " x1=\"0%\" x2=\"100%\" y1=\"100%\" y2=\"0%\">" ++
    "<stop offset=\"0%\"  " ++ attr "stop-color" color₁ ++ "/>" ++
    "<stop offset=\"50%\"  " ++ attr "stop-color" color₁ ++ "/>" ++
    "<stop offset=\"50%\"  " ++ attr "stop-color" color₂ ++ "/>" ++
    "<stop offset=\"100%\"  " ++ attr "stop-color" color₂ ++ "/>" ++
    "</linearGradient>"
  { (c.push tag) with fills := c.fills ++ [id] }

def isText : Value → Bool
  | .str _ => true
  | _ => false

def boxTag (fill : String) (x y width height : Value) : String :=
  "<rect fill=\"" ++ fill ++ "\" stroke=\"black\" " ++ attr "x" x ++ " " ++ attr "y" y ++
    " " ++ attr "width" width ++ " " ++ attr "height" height ++ "/>"

/-- A box with its upper left corner at a point; its fill is a colour or the name of a fill. -/
def square (c : Canvas) (corner width height fill : Value) : Except Error Canvas := do
  let (x, y) ← point corner
  if c.fills.any fun f => f.same fill then
    return c.push (boxTag ("url(#" ++ shown fill ++ ")") x y width height)
  if isText fill then return c.push (boxTag (shown fill) x y width height)
  throw (.fillUnknown fill)

def textBox (c : Canvas) (corner width height label : Value) : Except Error Canvas := do
  let (x, y) ← point corner
  return c.push ("<svg " ++ attr "x" x ++ " " ++ attr "y" y ++ " " ++
    attr "height" height ++ " " ++ attr "width" width ++ ">" ++
    "<rect x=\"0\" y=\"0\" width=\"100%\" height=\"100%\" " ++
    "stroke=\"black\" fill=\"white\" stroke-width=\"5 %\"/>" ++
    "<text x=\"50%\" y=\"50%\" width=\"100%\" height=\"100%\" font-size=\"100%\" " ++
    "dominant-baseline=\"middle\" text-anchor=\"middle\" >" ++ shown label ++ "</text></svg>")

def circle (c : Canvas) (centre radius fill : Value) : Except Error Canvas := do
  let (x, y) ← point centre
  if !isText fill then throw .fillType
  return c.push ("<circle " ++ attr "fill" fill ++ " stroke=\"black\" " ++ attr "cx" x ++
    " " ++ attr "cy" y ++ " " ++ attr "r" radius ++ "/>")

def rect (c : Canvas) (centre width height fill : Value) : Except Error Canvas := do
  let (x, y) ← point centre
  if !isText fill then throw .fillType
  let left ← x.sub (← width.floorDiv (.int 2))
  let top ← y.sub (← height.floorDiv (.int 2))
  return c.push (boxTag (shown fill) left top width height)

def text (c : Canvas) (pos label fontSize center : Value) : Except Error Canvas := do
  let (x, y) ← point pos
  if !isText label then throw .textType
  if !positive fontSize then throw .fontSize
  let base ← y.add (← fontSize.floorDiv (.int 4))
  return c.push ("<text " ++ attr "x" x ++ " " ++ attr "y" base ++ " " ++
    attr "font-size" fontSize ++ (if center.truthy then " text-anchor=\"middle\"" else "") ++
    ">" ++ shown label ++ "</text>")

def merge (c other : Canvas) : Canvas :=
  { c with tags := c.tags ++ other.tags }

def render (c : Canvas) : String :=
  "<?xml version=\"1.0\" encoding=\"utf-8\"?>\n" ++
    "<!DOCTYPE svg PUBLIC \"-//W3C//DTD SVG 1.1//EN\" " ++
    "\"http://www.w3.org/Graphics/SVG/1.1/DTD/svg11.dtd\">\n" ++
    "<svg version=\"1.1\" xmlns=\"http://www.w3.org/2000/svg\" " ++
    "xmlns:xlink=\"http://www.w3.org/1999/xlink\" " ++ attr "width" c.width ++ " " ++
    attr "height" c.height ++ ">" ++ "\n".intercalate c.tags.toList ++ "\n</svg>"

def step (c : Canvas) (name : String) (args : List Value) (given : List (String × Value)) :
    Except Error Canvas := do
  let bind (params : List (Param Value)) := Param.bind params args given
  match name with
  | "line" =>
    match ← bind [.required "fro", .required "to"] with
    | [a, b] => c.line a b
    | _ => throw .arguments
  | "line_bend" =>
    match ← bind [.required "fro", .required "to", .optional "left" (.bool false),
        .optional "degree" (.int 5)] with
    | [a, b, l, d] => c.lineBend a b l d
    | _ => throw .arguments
  | "add_diagonal_fill" =>
    match ← bind [.required "color_1", .required "color_2", .required "id"] with
    | [a, b, i] => return c.diagonalFill a b i
    | _ => throw .arguments
  | "square" =>
    match ← bind [.required "centre", .required "width", .required "height",
        .required "fill"] with
    | [p, w, h, f] => c.square p w h f
    | _ => throw .arguments
  | "text_with_square" =>
    match ← bind [.required "centre", .required "width", .required "height",
        .required "text"] with
    | [p, w, h, t] => c.textBox p w h t
    | _ => throw .arguments
  | "circle" =>
    match ← bind [.required "centre", .required "r", .required "fill"] with
    | [p, r, f] => c.circle p r f
    | _ => throw .arguments
  | "rect" =>
    match ← bind [.required "centre", .required "width", .required "height",
        .required "fill"] with
    | [p, w, h, f] => c.rect p w h f
    | _ => throw .arguments
  | "text" =>
    match ← bind [.required "pos", .required "text", .named "font_size" (.int 10),
        .named "center" (.bool false)] with
    | [p, t, s, m] => c.text p t s m
    | _ => throw .arguments
  | _ => throw .noAttribute

end Canvas

structure DrawingOptions where
  zColor : Value := .str "#CCFFCC"
  xColor : Value := .str "#FF8888"
  hscale : Value := .float 1.0
  vscale : Value := .float 1.0
  scale : Value := .float 1.0
  codeOnly : Value := .bool false

namespace DrawingOptions

def ofNamed (given : List (String × Value)) : Except Error DrawingOptions := do
  let d : DrawingOptions := {}
  match ← Param.bind [.named "zcolor" d.zColor, .named "xcolor" d.xColor,
      .named "hscale" d.hscale, .named "vscale" d.vscale, .named "scale" d.scale,
      .named "svg_code_only" d.codeOnly] [] given with
  | [z, x, h, v, s, o] => return ⟨z, x, h, v, s, o⟩
  | _ => throw .arguments

def isScale (v : Value) : Bool :=
  v.isNumber && !v.nonpositive

def check (o : DrawingOptions) : Except Error Unit :=
  if !Canvas.isText o.zColor then .error (.colourType "zcolor")
  else if !Canvas.isText o.xColor then .error (.colourType "xcolor")
  else if !isScale o.hscale then .error (.scaleType "hscale")
  else if !isScale o.vscale then .error (.scaleType "vscale")
  else if !isScale o.scale then .error (.scaleType "scale")
  else .ok ()

def length (k : Int) (scale : Value) : Except Error Int := do
  (← (Value.int k).mul scale).ceiling

/-- The drawing as text; as an object for display it needs a library that is not there. -/
def finish (o : DrawingOptions) (c : Canvas) : Except Error String :=
  if o.codeOnly.truthy then .ok c.render else .error (.noLibrary "IPython")

end DrawingOptions

def Canvas.xy (x y : Int) : Value :=
  .tuple [.int x, .int y]

/-- The least number of digits with which numbers below `n` can be written, but none for `n = 1`. -/
def digitCount (n : Nat) : Nat :=
  ((List.range (n + 1)).find? fun d => n ≤ pow10 d).getD 0

def padded (width n : Nat) : String :=
  let s := toString n
  String.ofList (List.replicate (width - s.length) ' ') ++ s

end GadgetCircuits
