import GadgetCircuits.Error
import GadgetCircuits.Number.Numeral

/-!
Arithmetic of loosely typed values. Integers are exact, a double makes the result a double, and
division of integers gives the nearest double. Texts and sequences can be joined and repeated.
-/

namespace GadgetCircuits

/-- Arithmetic that can fail, so that a formula can be written once and read exactly, in doubles or
on loosely typed values. -/
structure Arithmetic (α : Type) where
  ofInt : Int → α
  add : α → α → Except Error α
  sub : α → α → Except Error α
  mul : α → α → Except Error α
  div : α → α → Except Error α

def Arithmetic.exact : Arithmetic Rat where
  ofInt n := n
  add a b := .ok (a + b)
  sub a b := .ok (a - b)
  mul a b := .ok (a * b)
  div a b := if b = 0 then .error .divisionByZero else .ok (a / b)

def finiteFloat (q : Rat) : Except Error Float :=
  let x := Binary.ofRat q
  if x.isInf then .error .tooLarge else .ok x

namespace Value

def toFloat : Value → Except Error Float
  | .float x => .ok x
  | v =>
    match v.int? with
    | some n => finiteFloat n
    | none => .error .operands

def arith (onInts : Int → Int → Except Error Value) (onFloats : Float → Float → Except Error Value)
    (a b : Value) : Except Error Value :=
  match a.int?, b.int? with
  | some m, some n => onInts m n
  | _, _ => do onFloats (← a.toFloat) (← b.toFloat)

def repeated {α : Type} (n : Int) (xs : List α) : List α :=
  (List.replicate n.toNat xs).flatten

def add : Value → Value → Except Error Value
  | .str s, .str t => .ok (.str (s ++ t))
  | .list xs, .list ys => .ok (.list (xs ++ ys))
  | .tuple xs, .tuple ys => .ok (.tuple (xs ++ ys))
  | a, b => arith (fun m n => .ok (.int (m + n))) (fun x y => .ok (.float (x + y))) a b

def sub (a b : Value) : Except Error Value :=
  arith (fun m n => .ok (.int (m - n))) (fun x y => .ok (.float (x - y))) a b

def timesInt (v : Value) (n : Int) : Option Value :=
  match v with
  | .str s => some (.str (String.ofList (repeated n s.toList)))
  | .list xs => some (.list (repeated n xs))
  | .tuple xs => some (.tuple (repeated n xs))
  | _ => none

def mul (a b : Value) : Except Error Value :=
  match a.int?.bind (timesInt b), b.int?.bind (timesInt a) with
  | some v, _ => .ok v
  | _, some v => .ok v
  | none, none =>
    arith (fun m n => .ok (.int (m * n))) (fun x y => .ok (.float (x * y))) a b

def div (a b : Value) : Except Error Value :=
  arith
    (fun m n =>
      if n = 0 then .error .divisionByZero
      else (finiteFloat ((m : Rat) / (n : Rat))).map .float)
    (fun x y => if y == 0.0 then .error .divisionByZero else .ok (.float (x / y))) a b

def floorDiv (a b : Value) : Except Error Value :=
  arith
    (fun m n => if n = 0 then .error .divisionByZero else .ok (.int (Int.fdiv m n)))
    (fun x y =>
      if y == 0.0 then .error .divisionByZero else .ok (.float (Binary.floorDivMod x y).1)) a b

def mod (a b : Value) : Except Error Value :=
  arith
    (fun m n => if n = 0 then .error .divisionByZero else .ok (.int (Int.fmod m n)))
    (fun x y =>
      if y == 0.0 then .error .divisionByZero else .ok (.float (Binary.floorDivMod x y).2)) a b

def neg (a : Value) : Except Error Value :=
  match a with
  | .float x => .ok (.float (-x))
  | a =>
    match a.int? with
    | some n => .ok (.int (-n))
    | none => .error .operands

def pos (a : Value) : Except Error Value :=
  match a with
  | .float x => .ok (.float x)
  | a =>
    match a.int? with
    | some n => .ok (.int n)
    | none => .error .operands

def arithmetic : Arithmetic Value where
  ofInt := .int
  add := add
  sub := sub
  mul := mul
  div := div

def order (a b : Value) : Except Error (Option Ordering) :=
  if !(a.isNumber && b.isNumber) then .error .operands
  else
    match a.rat?, b.rat? with
    | some p, some q => .ok (some (if p < q then .lt else if p = q then .eq else .gt))
    | _, _ => do
      let x ← a.toFloat
      let y ← b.toFloat
      return if x < y then some .lt else if x == y then some .eq else if y < x then some .gt
        else none

def lt (a b : Value) : Except Error Bool := do
  return (← order a b) == some .lt

def le (a b : Value) : Except Error Bool := do
  let o ← order a b
  return o == some .lt || o == some .eq

def larger (a b : Value) : Except Error Value := do
  return if ← lt a b then b else a

def smaller (a b : Value) : Except Error Value := do
  return if ← lt b a then b else a

def nonpositive (a : Value) : Bool :=
  match a with
  | .float x => x ≤ 0.0
  | a => a.int?.any (· ≤ 0)

/-- The exact rational that a value denotes: a number, or a numeral in a text. -/
def toRat : Value → Except Error Rat
  | .str s =>
    match Numeral.fraction s.toList with
    | .ok q => .ok q
    | .error .malformed => .error .unreadable
    | .error .zeroDenominator => .error .divisionByZero
  | .float x =>
    match Binary.toRat? x with
    | some q => .ok q
    | none => if x.isNaN then .error .unreadable else .error .tooLarge
  | v =>
    match v.int? with
    | some n => .ok n
    | none => .error .operands

def truncate (x : Float) : Except Error Int :=
  match Binary.toRat? x with
  | some q => .ok (if 0 ≤ q then q.floor else q.ceil)
  | none => if x.isNaN then .error .unreadable else .error .tooLarge

def ceiling (a : Value) : Except Error Int :=
  match a with
  | .float x =>
    match Binary.toRat? x with
    | some q => .ok q.ceil
    | none => if x.isNaN then .error .unreadable else .error .tooLarge
  | a =>
    match a.int? with
    | some n => .ok n
    | none => .error .operands

end Value

end GadgetCircuits
