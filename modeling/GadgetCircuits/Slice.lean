import GadgetCircuits.Error

/-!
Positions and ranges of positions in a sequence. A negative position counts from the end, and a
range is cut to the sequence.
-/

namespace GadgetCircuits.Slice

def position? (n : Nat) (i : Int) : Option Nat :=
  let k := if i < 0 then i + n else i
  if 0 ≤ k && k < n then some k.toNat else none

def position (n : Nat) (v : Value) : Except Error Nat :=
  match v.int? with
  | none => .error .operands
  | some i =>
    match position? n i with
    | some k => .ok k
    | none => .error .outOfRange

def bound? : Value → Except Error (Option Int)
  | .null => .ok none
  | v =>
    match v.int? with
    | some i => .ok (some i)
    | none => .error .operands

def clamp (n : Nat) (lo hi : Int) (i : Int) : Int :=
  let k := if i < 0 then i + n else i
  if k < lo then lo else if hi < k then hi else k

def range (n : Nat) (start stop : Option Int) (step : Int) : List Nat :=
  if 0 < step then
    let a := (start.map (clamp n 0 n)).getD 0
    let b := (stop.map (clamp n 0 n)).getD n
    let count := if a < b then ((b - a - 1) / step + 1).toNat else 0
    (List.range count).map fun (k : Nat) => (a + step * k).toNat
  else
    let a := (start.map (clamp n (-1) (n - 1))).getD (n - 1)
    let b := (stop.map (clamp n (-1) (n - 1))).getD (-1)
    let count := if b < a then ((a - b - 1) / (-step) + 1).toNat else 0
    (List.range count).map fun (k : Nat) => (a + step * k).toNat

def positions (n : Nat) (start stop step : Value) : Except Error (List Nat) := do
  let step := ((← bound? step)).getD 1
  if step = 0 then throw .unreadable
  let a ← bound? start
  let b ← bound? stop
  return range n a b step

def pick {α : Type} (xs : List α) (positions : List Nat) : List α :=
  positions.filterMap fun i => xs[i]?

end GadgetCircuits.Slice
