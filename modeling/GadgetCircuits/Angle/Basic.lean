import GadgetCircuits.Number.Binary

/-!
Angles as rational multiples of π. The multiple is kept as it was computed, since remainders by
other angles see it, and everything that is shown depends on it only modulo a full turn.
-/

namespace GadgetCircuits

/-- The remainder of a division towards minus infinity. -/
def ratMod (a b : Rat) : Rat :=
  a - b * ((a / b).floor : Rat)

/-- The angle `halfTurns · π`. -/
structure Angle where
  halfTurns : Rat
  deriving DecidableEq, Repr, Inhabited

namespace Angle

def zero : Angle := ⟨0⟩

def pi : Angle := ⟨1⟩

def reduced (a : Angle) : Rat :=
  ratMod a.halfTurns 2

def normalize (a : Angle) : Angle :=
  ⟨a.reduced⟩

def add (a b : Angle) : Angle :=
  ⟨a.halfTurns + b.halfTurns⟩

def sub (a b : Angle) : Angle :=
  ⟨a.halfTurns - b.halfTurns⟩

def neg (a : Angle) : Angle :=
  ⟨-a.halfTurns⟩

def scale (a : Angle) (q : Rat) : Angle :=
  ⟨a.halfTurns * q⟩

def same (a b : Angle) : Bool :=
  a.reduced == b.reduced

def isZero (a : Angle) : Bool :=
  a.reduced == 0

def isPi (a : Angle) : Bool :=
  a.reduced == 1

def isZeroOrPi (a : Angle) : Bool :=
  a.reduced.den == 1

/-- The least `n` such that `n` times the angle is a full number of turns. -/
def order (a : Angle) : Nat :=
  if a.reduced.num % 2 = 0 then a.reduced.den else 2 * a.reduced.den

/-- The `(k, n)` with `0 ≤ k < n`, `n` the order, and the angle equal to `k / n` of a turn. -/
def rootOfUnity (a : Angle) : Int × Nat :=
  (if a.reduced.num % 2 = 0 then a.reduced.num / 2 else a.reduced.num, a.order)

/-- How an angle is spelled: π alone, π over a number, and a multiple of π over a number. -/
structure Spelling where
  whole : String
  unitOver : Nat → String
  multiple : Int → Nat → String

def spell (s : Spelling) (a : Angle) : String :=
  let q := a.reduced
  if q.num = 0 then "0"
  else if q.num = 1 then if q.den = 1 then s.whole else s.unitOver q.den
  else s.multiple q.num q.den

def displayed : Spelling where
  whole := "π"
  unitOver d := "π/" ++ toString d
  multiple n d := toString n ++ "π/" ++ toString d

def written : Spelling where
  whole := "pi"
  unitOver d := "pi/" ++ toString d
  multiple n d := toString n ++ "*pi/" ++ toString d

def typeset : Spelling where
  whole := "\\pi"
  unitOver d := "\\frac\x7b\\pi\x7d\x7b" ++ toString d ++ "\x7d"
  multiple n d := "\\frac\x7b" ++ toString n ++ "\\pi\x7d\x7b" ++ toString d ++ "\x7d"

def text (a : Angle) : String :=
  a.spell displayed

def code (a : Angle) : String :=
  a.spell written

def piFloat : Float :=
  Float.ofBits 0x400921fb54442d18

def toFloat (a : Angle) : Float :=
  Binary.ofRat a.reduced * piFloat

end Angle

end GadgetCircuits
