import GadgetCircuits.Slice
import GadgetCircuits.Update

/-!
Clifford tableaux. Row `i` holds the image of a generator as bits `x₀ … xₙ₋₁ z₀ … zₙ₋₁`, with a sign;
the first `n` rows are the images of the X generators and the others those of the Z generators.
-/

namespace GadgetCircuits

/-! ### Integers in fixed storage

Bytes wrap around; wide integers are exact as far as they are used here. -/

inductive Width where
  | byte
  | wide
  deriving DecidableEq, Repr, Inhabited

namespace Width

def wrap : Width → Int → Int
  | .byte, x => x % 256
  | .wide, x => x

def join : Width → Width → Width
  | .byte, .byte => .byte
  | _, _ => .wide

def holds : Width → Int → Bool
  | .byte, x => 0 ≤ x && x < 256
  | .wide, x => -(pow2 63 : Int) ≤ x && x < pow2 63

end Width

def bitXor : Int → Int → Int
  | .ofNat m, .ofNat n => ((m ^^^ n : Nat) : Int)
  | a, b => (Int64.ofInt a ^^^ Int64.ofInt b).toInt

/-- Combines rows entry by entry. A row of one entry is stretched to the length of the other. -/
def stretch (f : Int → Int → Int) : List Int → List Int → Except Error (List Int)
  | [x], ys => .ok (ys.map (f x))
  | xs, [y] => .ok (xs.map fun x => f x y)
  | xs, ys => if xs.length = ys.length then .ok (List.zipWith f xs ys) else .error .shape

def parities (xs : List Int) : List Int :=
  xs.map (· % 2)

structure Tableau where
  n : Nat
  rows : List (List Int)
  signs : List Int
  rowWidth : Width := .byte
  signWidth : Width := .byte
  deriving DecidableEq, Repr, Inhabited

namespace Tableau

def unitRow (n i : Nat) : List Int :=
  (List.range n).map fun j => if i = j then 1 else 0

def identity (n : Nat) : Tableau where
  n
  rows := (List.range (2 * n)).map (unitRow (2 * n))
  signs := List.replicate (2 * n) 0

def ofArrays (rowWidth signWidth : Width) (rows : List (List Int)) (signs : List Int) :
    Except Error Tableau :=
  let n := rows.length / 2
  if rows.length = 2 * n && rows.all (fun r => r.length = 2 * n) && signs.length = 2 * n then
    .ok { n, rows, signs, rowWidth, signWidth }
  else .error .tableauShape

def numCols (t : Tableau) : Nat :=
  (t.rows.headD []).length

def entry (r : List Int) (j : Nat) : Int :=
  r[j]?.getD 0

def row (t : Tableau) (i : Nat) : List Int :=
  t.rows[i]?.getD []

def operator (t : Tableau) (i a b : Nat) : Int :=
  t.rowWidth.wrap (entry (t.row i) a + t.rowWidth.wrap (2 * entry (t.row i) b))

def addToSigns (t : Tableau) (ds : List Int) : Except Error Tableau :=
  match ds with
  | [d] => .ok { t with signs := parities (t.signs.map (· + d)) }
  | ds =>
    if t.signs.length = ds.length then
      .ok { t with signs := parities (List.zipWith (· + ·) t.signs ds) }
    else .error .shape

def swapEntries (a b : Nat) (r : List Int) : List Int :=
  (r.set a (entry r b)).set b (entry r a)

def xorEntry (target source : Nat) (r : List Int) : List Int :=
  r.set target (bitXor (entry r target) (entry r source))

def mapRows (t : Tableau) (f : List Int → List Int) : Tableau :=
  { t with rows := t.rows.map f }

def appendH (t : Tableau) (x z : Nat) : Except Error Tableau := do
  let t ← t.addToSigns (t.rows.map fun r => entry r x * entry r z)
  return t.mapRows (swapEntries x z)

def appendS (t : Tableau) (x z : Nat) : Except Error Tableau := do
  let t ← t.addToSigns (t.rows.map fun r => entry r x * entry r z)
  return t.mapRows (xorEntry z x)

/-- A CX gate from the bits at `xc`, `zc` to those at `xt`, `zt`. The signs change by the bits after
the gate. -/
def appendCX (t : Tableau) (xc xt zc zt : Nat) : Except Error Tableau :=
  let t := t.mapRows fun r => xorEntry zc zt (xorEntry xt xc r)
  t.addToSigns (t.rows.map fun r => entry r xc * entry r zt * (entry r xt + entry r zc + 1))

def halves (n : Nat) (p : List Int) : List Int × List Int :=
  (p.take n, p.drop n)

/-- The product of two Pauli strings given by their halves, and whether it takes a sign. -/
def multiply (p q : List Int × List Int) : Except Error (List Int × Bool) := do
  let zx ← stretch (· * ·) p.2 q.1
  let xz ← stretch (· * ·) p.1 q.2
  let anti := parities (← stretch (· + ·) zx xz)
  let x := parities (← stretch (· + ·) p.1 q.1)
  let z := parities (← stretch (· + ·) p.2 q.2)
  let turned ← stretch (· * ·) (parities (← stretch (· + ·) (← stretch (· + ·) zx x) z)) anti
  return (x ++ z, decide (1 < (intSum anti + 2 * intSum turned) % 4))

def insertRow (i : Nat) (p : List Int) (sign : Int) : Update Tableau Unit := do
  let t ← get
  let width := t.numCols
  let p ←
    match p with
    | [x] => pure (List.replicate width x)
    | p => if p.length = width then pure p else throw .shape
  set { t with rows := t.rows.set i (p.map t.rowWidth.wrap) }
  if i < t.signs.length then
    modify fun t => { t with signs := t.signs.set i sign }
  else throw .outOfRange

def xorRow (i j : Nat) : Update Tableau Unit := do
  let t ← get
  if !(i < t.signs.length && j < t.signs.length) then throw .outOfRange
  let (p, turned) ← multiply (halves t.n (t.row i)) (halves t.n (t.row j))
  let sign := (entry t.signs i + entry t.signs j + if turned then 1 else 0) % 4
  insertRow i p sign

def swapSigns (t : Tableau) (i j : Nat) : Tableau :=
  { t with signs := swapEntries i j t.signs }

def swapRows (t : Tableau) (i j : Nat) : Tableau :=
  { t with rows := (t.rows.set i (t.row j)).set j (t.row i) }

def widenSigns (t : Tableau) : Tableau :=
  { t with signWidth := .wide }

/-- A position in a sequence: an integer in range, possibly counted from the end. -/
def position (size : Nat) (v : Value) : Except Error Nat :=
  match v.int? with
  | some i =>
    match Slice.position? size i with
    | some k => .ok k
    | none => .error .outOfRange
  | none =>
    match v with
    | .null => .error .shape
    | _ => .error .outOfRange

def moved (t : Tableau) (v : Value) : Except Error Value :=
  match v with
  | .float x => .ok (.float (x + Float.ofNat t.n))
  | v =>
    match v.int? with
    | some i => .ok (.int (i + t.n))
    | none => .error .operands

def column (t : Tableau) (v : Value) : Except Error Nat :=
  position t.numCols v

def rowAt (t : Tableau) (v : Value) : Except Error Nat :=
  position t.rows.length v

def bits (t : Tableau) (q : Value) : Except Error (Nat × Nat) := do
  let m ← t.moved q
  return (← t.column q, ← t.column m)

def hAt (q : Value) : Update Tableau Unit :=
  Update.replace fun t => do
    let (x, z) ← t.bits q
    t.appendH x z

def sAt (q : Value) : Update Tableau Unit :=
  Update.replace fun t => do
    let (x, z) ← t.bits q
    t.appendS x z

def columnOrNone (t : Tableau) (v : Value) : Except Error Nat :=
  match v with
  | .null => .ok 0
  | v => t.column v

def cxAt (control target : Value) : Update Tableau Unit :=
  Update.replace fun t => do
    let xc ← t.columnOrNone control
    let xt ← t.columnOrNone target
    let zc ← t.column (← t.moved control)
    let zt ← t.column (← t.moved target)
    t.appendCX xc xt zc zt

def hBefore (q : Value) : Update Tableau Unit := do
  let m ← (← get).moved q
  Update.replace fun t => do
    return t.swapSigns (← position t.signs.length q) (← position t.signs.length m)
  Update.replace fun t => do return t.swapRows (← t.rowAt q) (← t.rowAt m)

def xorRows (i j : Value) : Update Tableau Unit := do
  let t ← get
  let a ← t.rowAt i
  xorRow a (← t.rowAt j)

def sBefore (q : Value) : Update Tableau Unit := do
  let m ← (← get).moved q
  xorRows q m

def cxBefore (control target : Value) : Update Tableau Unit := do
  modify widenSigns
  xorRows control target
  let t ← get
  let i ← t.moved target
  xorRows i (← t.moved control)

def xOut (t : Tableau) (i j : Value) : Except Error Int := do
  let r ← t.rowAt i
  let a ← t.columnOrNone j
  return t.operator r a (← t.column (← t.moved j))

def zOut (t : Tableau) (i j : Value) : Except Error Int := do
  let r ← t.rowAt (← t.moved i)
  let a ← t.columnOrNone j
  return t.operator r a (← t.column (← t.moved j))

/-- The operators of all images, by lines of X and Z images with the sign of the X image. -/
def table (t : Tableau) (sep signSep : String) : Except Error String := do
  let letter (k : Int) : Except Error String :=
    match Slice.position? 4 k with
    | some i => .ok ((["I", "X", "Z", "Y"][i]?).getD "")
    | none => .error .outOfRange
  let lines ← (List.range t.n).mapM fun i => do
    let cells ← (List.range t.n).mapM fun j => do
      let x ← letter (← t.xOut (.ofNat i) (.ofNat j))
      return x ++ "/" ++ (← letter (← t.zOut (.ofNat i) (.ofNat j))) ++ sep
    match t.signs[i]? with
    | some s => return String.join cells ++ signSep ++ (if s = 0 then "+" else "-") ++ " \n"
    | none => throw .outOfRange
  return String.join lines

end Tableau

end GadgetCircuits
