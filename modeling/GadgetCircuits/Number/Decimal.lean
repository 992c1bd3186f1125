import GadgetCircuits.Number.Binary

/-!
Decimal text of double precision numbers: the fewest digits that read back, and a fixed number of
digits.
-/

namespace GadgetCircuits.Decimal

/-- The number `digits · 10 ^ exponent`. -/
structure Scaled where
  digits : Nat
  exponent : Int
  deriving Repr

def Scaled.toRat (s : Scaled) : Rat :=
  if 0 ≤ s.exponent then ((s.digits * pow10 s.exponent.toNat : Nat) : Rat)
  else mkRat s.digits (pow10 (-s.exponent).toNat)

def digitCount (n : Nat) : Nat :=
  (Nat.toDigits 10 n).length

def tenPow (e : Int) : Rat :=
  if 0 ≤ e then ((pow10 e.toNat : Nat) : Rat) else mkRat 1 (pow10 (-e).toNat)

def magnitude (q : Rat) : Int :=
  let e : Int := (digitCount q.num.natAbs : Int) - digitCount q.den
  if tenPow e ≤ q then e else e - 1

/-- The rationals that round to a given positive double: between `low` and `high`, with the ends
themselves when `closed`. -/
structure Interval where
  low : Rat
  high : Rat
  closed : Bool

def Interval.contains (i : Interval) (q : Rat) : Bool :=
  if i.closed then i.low ≤ q && q ≤ i.high else i.low < q && q < i.high

def rounding (m : Nat) (e : Int) : Interval where
  low :=
    if m = pow2 52 ∧ -1074 < e then Binary.scaleTwo (4 * (m : Int) - 1) (e - 2)
    else Binary.scaleTwo (2 * (m : Int) - 1) (e - 1)
  high := Binary.scaleTwo (2 * (m : Int) + 1) (e - 1)
  closed := m % 2 = 0

/-- The better of the two neighbours of `q` on the grid `10 ^ e`, among those in the interval. -/
def gridPoint? (i : Interval) (q : Rat) (e : Int) : Option Scaled :=
  let c := (q / tenPow e).floor.toNat
  let lower : Scaled := ⟨c, e⟩
  let upper : Scaled := ⟨c + 1, e⟩
  match i.contains lower.toRat, i.contains upper.toRat with
  | false, false => none
  | true, false => some lower
  | false, true => some upper
  | true, true =>
    let a := q - lower.toRat
    let b := upper.toRat - q
    if a < b then some lower
    else if b < a then some upper
    else if c % 2 = 0 then some lower else some upper

def stripZeros : Nat → Scaled → Scaled
  | 0, s => s
  | fuel + 1, s =>
    if s.digits ≠ 0 ∧ s.digits % 10 = 0 then stripZeros fuel ⟨s.digits / 10, s.exponent + 1⟩ else s

/-- The shortest decimal that rounds to `m · 2 ^ e`, nearest to it among those of that length.
Seventeen digits always suffice. -/
def shortest (m : Nat) (e : Int) : Scaled :=
  let q := Binary.scaleTwo m e
  let i := rounding m e
  let top := magnitude q
  let found := (List.range 17).findSome? fun (k : Nat) => gridPoint? i q (top - (k : Int))
  stripZeros 20 (found.getD ⟨0, 0⟩)

def signText (negative : Bool) : String :=
  if negative then "-" else ""

def zerosText (n : Nat) : String :=
  String.ofList (List.replicate n '0')

def exponentText (e : Int) : String :=
  let ds := toString e.natAbs
  "e" ++ (if e < 0 then "-" else "+") ++ zerosText (2 - ds.length) ++ ds

def mantissaText (ds : List Char) : String :=
  match ds with
  | [] => ""
  | [d] => String.ofList [d]
  | d :: rest => String.ofList (d :: '.' :: rest)

/-- Positional between `10 ^ -4` and `10 ^ 16`, with at least one digit after the point; else with
an exponent. -/
def place (s : Scaled) : String :=
  let ds := (toString s.digits).toList
  let point : Int := ds.length + s.exponent
  if s.digits = 0 then "0.0"
  else if point < -3 ∨ 16 < point then mantissaText ds ++ exponentText (point - 1)
  else if point ≤ 0 then "0." ++ zerosText (-point).toNat ++ String.ofList ds
  else if ds.length ≤ point.toNat then
    String.ofList ds ++ zerosText (point.toNat - ds.length) ++ ".0"
  else String.ofList (ds.take point.toNat ++ '.' :: ds.drop point.toNat)

def unbounded (x : Float) : String :=
  if x.isNaN then "nan" else if x < 0.0 then "-inf" else "inf"

/-- The fewest digits that read back as the same double. -/
def free (x : Float) : String :=
  match Binary.decode? x with
  | none => unbounded x
  | some b =>
    signText b.negative ++
      (if b.significand = 0 then "0.0" else place (shortest b.significand b.exponent))

/-- One digit before the point and `places` after it, ties to even, then the exponent. -/
def scientific (places : Nat) (x : Float) : String :=
  match Binary.decode? x with
  | none => unbounded x
  | some b =>
    let q := Binary.scaleTwo b.significand b.exponent
    if b.significand = 0 then
      signText b.negative ++ mantissaText (List.replicate (places + 1) '0') ++ exponentText 0
    else
      let top := magnitude q
      let ratio := q / tenPow (top - places)
      let c := Binary.roundDiv ratio.num.natAbs ratio.den
      let (c, top) := if c = pow10 (places + 1) then (c / 10, top + 1) else (c, top)
      signText b.negative ++ mantissaText (toString c).toList ++ exponentText top

end GadgetCircuits.Decimal
