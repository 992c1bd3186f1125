import GadgetCircuits.Tableau.Basic

/-!
Composition and inversion of tableaux. Signs are found by multiplying Pauli strings qubit by qubit,
in the arithmetic of the rows' storage.
-/

namespace GadgetCircuits.Tableau

def dot (xs ys : List Int) : Int :=
  intSum (List.zipWith (· * ·) xs ys)

def columnOf (rows : List (List Int)) (j : Nat) : List Int :=
  rows.map fun r => entry r j

def product (a b : List (List Int)) (cols : Nat) : List (List Int) :=
  a.map fun r => (List.range cols).map fun j => dot r (columnOf b j) % 2

/-- The change of phase when an operator follows another on one qubit, as a number modulo three. -/
def phaseCode (w : Width) (x z x' z' : Int) : Int :=
  match w with
  | .byte =>
    w.wrap (w.wrap (w.wrap (w.wrap (3 * z') - x') - w.wrap (w.wrap (3 * z) - x)) - 1) % 3
  | .wide => (((3 * z' - x').natAbs : Int) - (3 * z - x).natAbs - 1) % 3

/-- An operator on one qubit that is being multiplied up, with the power of `i` so far. -/
structure Running where
  x : Int := 0
  z : Int := 0
  power : Int := 0

def Running.multiply (w : Width) (s : Running) (x z : Int) : Running :=
  let power :=
    if (s.x = 1 || s.z = 1) && (x = 1 || z = 1) then
      match phaseCode w s.x s.z x z with
      | 0 => s.power + 1
      | 1 => s.power - 1
      | _ => s.power
    else s.power
  { x := bitXor s.x x, z := bitXor s.z z, power }

def bitsAt (t : Tableau) (i j : Nat) : Except Error (Int × Int) := do
  match t.rows[i]? with
  | none => throw .outOfRange
  | some r =>
    match r[j]?, r[j + t.n]? with
    | some x, some z => return (x, z)
    | _, _ => throw .outOfRange

/-- The power of `i` at qubit `j` in the product of the rows that are selected by `choice`. -/
def powerAt (t : Tableau) (choice : List Int) (j : Nat) : Except Error Int := do
  let s ← (List.range (2 * t.n)).foldlM
    (fun (s : Running) i => do
      match choice[i]? with
      | none => throw .outOfRange
      | some c =>
        if c = 0 then return s
        let (x, z) ← t.bitsAt i j
        return s.multiply t.rowWidth x z) {}
  return s.power

/-- The power of `i` of the product of the rows that are selected by row `k` of another tableau. -/
def powerOf (t other : Tableau) (k : Nat) : Except Error Int := do
  match other.rows[k]? with
  | none => throw .outOfRange
  | some choice =>
    let ys ← stretch (fun a b => other.rowWidth.wrap (a * b)) (choice.take t.n) (choice.drop t.n)
    let powers ← (List.range t.n).mapM (t.powerAt choice)
    return intSum ys + intSum powers

def apply (t other : Tableau) : Except Error Tableau := do
  if t.numCols ≠ other.rows.length then throw .shape
  if other.numCols ≠ t.signs.length then throw .shape
  let rows := product t.rows other.rows other.numCols
  let phase := parities (← stretch (· + ·) (other.rows.map fun r => dot r t.signs) other.signs)
  let powers ← (List.range (2 * t.n)).mapM (t.powerOf other)
  let signs := parities (← stretch (· + ·) phase (powers.map fun p => p % 4 / 2))
  ofArrays (t.rowWidth.join other.rowWidth) .wide rows signs

def inverseRows (t : Tableau) : List (List Int) :=
  let cell (i j : Nat) : Int := entry (t.row i) j
  let n := t.n
  let line (offset r : Nat) : List Int :=
    (List.range n).map (fun c => cell (n + c) (offset + r)) ++
      (List.range n).map fun c => cell c (offset + r)
  (List.range n).map (line n) ++ (List.range n).map (line 0)

/-- The tableau of the inverse circuit. The signs are those that make the composition with it the
identity. -/
def inverse (t : Tableau) : Except Error Tableau := do
  if !(t.rows.length = 2 * t.n && t.numCols = 2 * t.n) then throw .failedAssertion
  let candidate ← ofArrays t.rowWidth t.signWidth t.inverseRows t.signs
  let composed ← t.apply candidate
  let signs ← stretch (· + ·) candidate.signs composed.signs
  return { candidate with signs := parities signs, signWidth := .wide }

end GadgetCircuits.Tableau
