import GadgetCircuits.Number.Basic

/-!
Double precision numbers as exact rationals. Decoding is exact, and encoding goes to the nearest
double with ties to the even significand.
-/

namespace GadgetCircuits.Binary

/-- The number `± significand · 2 ^ exponent`. -/
structure Scaled where
  negative : Bool
  significand : Nat
  exponent : Int
  deriving Repr

def decode? (x : Float) : Option Scaled :=
  let bits : Nat := x.toBits.toNat
  let fraction : Nat := bits % pow2 52
  let field : Nat := bits / pow2 52 % pow2 11
  let negative : Bool := pow2 63 ≤ bits
  if field = 2047 then none
  else if field = 0 then some ⟨negative, fraction, -1074⟩
  else some ⟨negative, pow2 52 + fraction, (field : Int) - 1075⟩

def scaleTwo (m : Int) (e : Int) : Rat :=
  if 0 ≤ e then ((m * pow2 e.toNat : Int) : Rat) else mkRat m (pow2 (-e).toNat)

def Scaled.toRat (s : Scaled) : Rat :=
  scaleTwo (if s.negative then -(s.significand : Int) else s.significand) s.exponent

def toRat? (x : Float) : Option Rat :=
  (decode? x).map Scaled.toRat

/-- The quotient rounded to the nearest integer, ties to the even one. -/
def roundDiv (n d : Nat) : Nat :=
  let q := n / d
  let r := n % d
  if 2 * r < d then q
  else if d < 2 * r then q + 1
  else if q % 2 = 0 then q else q + 1

/-- The bits of the double nearest to `n / d`, for positive `n` and `d`; infinity beyond the range. -/
def nearestBits (n d : Nat) : Nat :=
  let guess : Int := (n.log2 : Int) - d.log2 - 52
  let below : Bool :=
    if 0 ≤ guess then n < d * pow2 guess.toNat * pow2 52
    else n * pow2 (-guess).toNat < d * pow2 52
  let e : Int := max (if below then guess - 1 else guess) (-1074)
  let q :=
    if 0 ≤ e then roundDiv n (d * pow2 e.toNat) else roundDiv (n * pow2 (-e).toNat) d
  if q < pow2 52 then q
  else
    let bits := (e + 1075).toNat * pow2 52 + (q - pow2 52)
    min bits (2047 * pow2 52)

def ofRat (q : Rat) : Float :=
  if q.num = 0 then 0.0
  else
    let bits := nearestBits q.num.natAbs q.den
    Float.ofBits (UInt64.ofNat (if q.num < 0 then pow2 63 + bits else bits))

def ofInt (n : Int) : Float :=
  ofRat n

/-- The remainder of a division towards zero. It is exact. -/
def remainder (x y : Float) : Float :=
  match toRat? x, toRat? y with
  | some p, some q =>
    if q = 0 then 0.0 / 0.0
    else
      let t := p / q
      let whole : Int := if 0 ≤ t then t.floor else t.ceil
      let r := p - q * (whole : Rat)
      if r = 0 then (if x < 0.0 then -0.0 else 0.0) else ofRat r
  | some _, none => if y.isNaN then y else x
  | none, _ => 0.0 / 0.0

/-- Quotient and remainder of a division towards minus infinity, each rounded. -/
def floorDivMod (x y : Float) : Float × Float :=
  let r := remainder x y
  let d := (x - r) / y
  let (d, r) :=
    if r == 0.0 then (d, if y < 0.0 then -0.0 else 0.0)
    else if (y < 0.0) != (r < 0.0) then (d - 1.0, r + y)
    else (d, r)
  if d == 0.0 then (if x / y < 0.0 then -0.0 else 0.0, r)
  else
    let f := d.floor
    (if 0.5 < d - f then f + 1.0 else f, r)

def hexWord (x : Float) : String :=
  let ds := Nat.toDigits 16 x.toBits.toNat
  String.ofList (List.replicate (16 - ds.length) '0' ++ ds)

end GadgetCircuits.Binary
