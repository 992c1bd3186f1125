import GadgetCircuits.Angle.Basic
import GadgetCircuits.Error

/-!
Angle expressions: angles, variables, linear combinations and remainders. Combinations keep their
terms in descending order of coefficients, and two combinations are equal up to the order of their
terms.
-/

namespace GadgetCircuits

/-- A variable is known by its `id`; labels are only shown. -/
structure AngleVar where
  id : Nat
  label : String
  latex : String
  deriving DecidableEq, Repr, Inhabited

inductive AngleExpr where
  | angle (a : Angle)
  | var (v : AngleVar)
  | sum (terms : List (AngleExpr × Rat)) (const : Angle)
  | mod (expr modulus : AngleExpr)
  deriving Inhabited

namespace AngleExpr

mutual

/-- Equality term by term, with angles up to full turns: what makes two expressions one key. -/
def same : AngleExpr → AngleExpr → Bool
  | .angle a, .angle b => a.same b
  | .var v, .var w => v.id == w.id
  | .sum ts k, .sum us l => sameTerms ts us && k.same l
  | .mod e m, .mod f n => same e f && same m n
  | _, _ => false

def sameTerms : List (AngleExpr × Rat) → List (AngleExpr × Rat) → Bool
  | [], [] => true
  | (e, c) :: ts, (f, d) :: us => same e f && c == d && sameTerms ts us
  | _, _ => false

end

def coeff? (terms : List (AngleExpr × Rat)) (e : AngleExpr) : Option Rat :=
  (terms.find? fun t => t.1.same e).map Prod.snd

/-- Equality of expressions: combinations are compared up to the order of their terms. -/
def equal : AngleExpr → AngleExpr → Bool
  | .angle a, .angle b => a.same b
  | .var v, .var w => v.id == w.id
  | .sum ts k, .sum us l =>
    ts.length == us.length && ts.all (fun t => coeff? us t.1 == some t.2) && k.same l
  | .mod e m, .mod f n => equal e f && equal m n
  | _, _ => false

def isZero : AngleExpr → Bool
  | .angle a => a.isZero
  | .var _ => false
  | .sum ts k => ts.isEmpty && k.isZero
  | .mod e m => e.isZero || e.equal m

def isPi : AngleExpr → Bool
  | .angle a => a.isPi
  | .sum ts k => ts.isEmpty && k.isPi
  | _ => false

def isZeroOrPi (e : AngleExpr) : Bool :=
  e.isZero || e.isPi

def isAngle : AngleExpr → Bool
  | .angle _ => true
  | _ => false

/-- Adds `c · e` to a list of terms; a new expression goes to the end. -/
def addTerm : List (AngleExpr × Rat) → AngleExpr → Rat → List (AngleExpr × Rat)
  | [], e, c => [(e, c)]
  | (f, d) :: rest, e, c => if f.same e then (f, c + d) :: rest else (f, d) :: addTerm rest e c

/-- A linear combination while it is being collected. -/
structure Pending where
  terms : List (AngleExpr × Rat) := []
  const : Angle := Angle.zero

/-- Adds `c · e`. The terms of a combination are spread; its constant part is not carried over. -/
def Pending.add (p : Pending) (e : AngleExpr) (c : Rat) : Pending :=
  match e with
  | .angle a => { p with const := p.const.add (a.scale c) }
  | .sum ts _ => { p with terms := ts.foldl (fun acc t => addTerm acc t.1 (c * t.2)) p.terms }
  | e => if c = 0 then p else { p with terms := addTerm p.terms e c }

def liveTerms (terms : List (AngleExpr × Rat)) : List (AngleExpr × Rat) :=
  terms.filter fun t => t.2 != 0 && !t.1.isZero

/-- Terms by descending coefficient, without those that vanish; an angle if none is left. -/
def Pending.finish (p : Pending) : AngleExpr :=
  let terms := liveTerms (p.terms.mergeSort fun s t => decide (t.2 ≤ s.2))
  if terms.isEmpty then .angle p.const else .sum terms p.const

def combine (terms : List (AngleExpr × Rat)) : AngleExpr :=
  (terms.foldl (fun (p : Pending) t => p.add t.1 t.2) {}).finish

/-- Sets the coefficient of an expression; a new expression goes to the end. -/
def putTerm : List (AngleExpr × Rat) → AngleExpr → Rat → List (AngleExpr × Rat)
  | [], e, c => [(e, c)]
  | (f, d) :: rest, e, c => if f.same e then (f, c) :: rest else (f, d) :: putTerm rest e c

/-- A combination as given, without sorting. Of several coefficients for one expression the last one
counts. -/
def sumOf (terms : List (AngleExpr × Rat)) (const : Angle) : Except Error AngleExpr :=
  if terms.any fun t => t.1.isAngle then .error .angleKey
  else .ok (.sum (liveTerms (terms.foldl (fun acc t => putTerm acc t.1 t.2) [])) const)

def modOf : AngleExpr → AngleExpr → Except Error AngleExpr
  | .angle _, .angle _ => .error .angleModulus
  | e, m => .ok (.mod e m)

def scaleBy (e : AngleExpr) (c : Rat) : AngleExpr :=
  match e with
  | .angle a => .angle (a.scale c)
  | e => combine [(e, c)]

def neg (e : AngleExpr) : AngleExpr :=
  match e with
  | .angle a => .angle a.neg
  | e => e.scaleBy (-1)

def add : AngleExpr → AngleExpr → Except Error AngleExpr
  | .angle a, .angle b => .ok (.angle (a.add b))
  | _, _ => .error (.coefficientCount 2 1)

def sub : AngleExpr → AngleExpr → Except Error AngleExpr
  | .angle a, .angle b => .ok (.angle (a.sub b))
  | _, _ => .error (.coefficientCount 2 1)

def rem : AngleExpr → AngleExpr → Except Error AngleExpr
  | .angle a, .angle b =>
    if b.halfTurns = 0 then .error .divisionByZero
    else .ok (.angle ⟨ratMod a.halfTurns b.halfTurns⟩)
  | e, m => .ok (.mod e m)

def divInt (e : AngleExpr) (n : Int) : Except Error AngleExpr :=
  if n = 0 then .error .divisionByZero else .ok (e.scaleBy (1 / (n : Rat)))

structure Style where
  angle : Angle → String
  var : AngleVar → String
  mod : String → String → String

def ratText (q : Rat) : String :=
  if q.den = 1 then toString q.num else toString q.num ++ "/" ++ toString q.den

def termText (c : Rat) (body : String) : String :=
  (if c = 1 then "" else ratText c) ++ body

/-- The text of a combination from the texts of its terms. Positive terms are joined by plus signs;
if there are negative ones a minus sign and the positive terms follow. -/
def sumText (terms : List (Rat × String)) (const : Option String) : String :=
  let shown := (terms.filter fun t => 0 < t.1).map fun t => termText t.1 t.2
  let negative := terms.any fun t => t.1 < 0
  let shownAgain := (terms.filter fun t => 0 < t.1).map fun t => ratText t.1 ++ t.2
  "+".intercalate shown ++ (if negative then "-" ++ String.join shownAgain else "") ++
    const.getD ""

mutual

def render (s : Style) : AngleExpr → String
  | .angle a => s.angle a
  | .var v => s.var v
  | .sum ts k =>
    if ts.isEmpty then s.angle k
    else sumText (renderTerms s ts) (if k.isZero then none else some (s.angle k))
  | .mod e m => s.mod (render s e) (render s m)

def renderTerms (s : Style) : List (AngleExpr × Rat) → List (Rat × String)
  | [] => []
  | (e, c) :: ts => (c, render s e) :: renderTerms s ts

end

def text (e : AngleExpr) : String :=
  e.render ⟨Angle.text, AngleVar.label, fun a b => a ++ "%" ++ b⟩

def code (e : AngleExpr) : String :=
  e.render ⟨Angle.code, AngleVar.label, fun a b => a ++ "%" ++ b⟩

def latex (e : AngleExpr) : String :=
  e.render ⟨fun a => a.spell Angle.typeset, AngleVar.latex,
    fun a b => a ++ " mod\\left(" ++ b ++ "\\right)"⟩

def inline (e : AngleExpr) : String :=
  "$" ++ e.latex ++ "$"

def floatMod (x y : Float) : Except Error Float :=
  if y == 0.0 then .error .divisionByZero else .ok (Binary.floorDivMod x y).2

mutual

def toFloat : AngleExpr → Except Error Float
  | .angle a => .ok a.toFloat
  | .var _ => .error .noAttribute
  | .sum ts k => addFloats ts k.toFloat
  | .mod e m =>
    match toFloat e, toFloat m with
    | .ok x, .ok y => floatMod x y
    | .error e, _ => .error e
    | _, .error e => .error e

def addFloats : List (AngleExpr × Rat) → Float → Except Error Float
  | [], acc => .ok acc
  | (e, c) :: ts, acc =>
    match toFloat e with
    | .ok x => addFloats ts (acc + Binary.ofRat c * x)
    | .error e => .error e

end

end AngleExpr

end GadgetCircuits
