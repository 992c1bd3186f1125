import GadgetCircuits.Call
import GadgetCircuits.Value.Arithmetic

/-!
Temperature schedules of simulated annealing. The linear and the reciprocal schedule are formulas of
field arithmetic and are written for any arithmetic; the geometric and the logarithmic one need
powers and logarithms of doubles. Loggers are called while a run goes on.
-/

namespace GadgetCircuits

/-- A temperature. A power with a negative base leaves the real line. -/
inductive Temperature where
  | real (x : Value)
  | complex (re im : Float)

inductive ScheduleShape where
  | linear
  | geometric
  | reciprocal
  | logarithmic
  deriving DecidableEq, Repr

def ScheduleShape.ofName? : String → Option ScheduleShape
  | "linear" => some .linear
  | "geometric" => some .geometric
  | "reciprocal" => some .reciprocal
  | "log" => some .logarithmic
  | _ => none

namespace Schedule

def linear {α : Type} (ar : Arithmetic α) (t₀ t₁ it n : α) : Except Error α := do
  let rise ← ar.mul (← ar.sub t₁ t₀) it
  ar.add t₀ (← ar.div rise (← ar.sub n (ar.ofInt 1)))

def reciprocal {α : Type} (ar : Arithmetic α) (t₀ t₁ it n : α) : Except Error α := do
  let num ← ar.mul (← ar.mul t₀ t₁) (← ar.sub n (ar.ofInt 1))
  let base ← ar.sub (← ar.mul t₁ n) t₀
  let slope ← ar.mul (← ar.sub t₀ t₁) (← ar.add it (ar.ofInt 1))
  ar.div num (← ar.add base slope)

def isOdd (y : Float) : Bool :=
  (Binary.toRat? y).any fun q => q.den == 1 && q.num % 2 != 0

/-- A power of doubles. A negative base with a fractional exponent gives a complex number. -/
def power (x y : Float) : Except Error Temperature :=
  if y == 0.0 then .ok (.real (.float 1.0))
  else if x == 0.0 then
    if y < 0.0 then .error .divisionByZero
    else .ok (.real (.float (if isOdd y then x else 0.0)))
  else if x < 0.0 && !x.isInf && !(y == y.floor) then
    let len := Float.pow (-x) y
    let phase := Float.atan2 0.0 x * y
    let re := len * Float.cos phase
    let im := len * Float.sin phase
    if re.isInf || im.isInf then .error .tooLarge else .ok (.complex re im)
  else
    let r := Float.pow x y
    if r.isInf && !x.isInf && !y.isInf then .error .tooLarge else .ok (.real (.float r))

def geometric (t₀ t₁ it n : Value) : Except Error Temperature := do
  let base ← (← t₁.div t₀).toFloat
  let exponent ← (← it.div (← n.sub (.float 1.0))).toFloat
  match ← power base exponent with
  | .real r => return .real (← t₀.mul r)
  | .complex re im =>
    let t ← t₀.toFloat
    return .complex (t * re - 0.0 * im) (t * im + 0.0 * re)

def log (v : Value) : Except Error Value := do
  match v with
  | .float x => if x ≤ 0.0 then .error .unreadable else .ok (.float (Float.log x))
  | v =>
    match v.int? with
    | none => .error .operands
    | some n =>
      if n ≤ 0 then .error .unreadable
      else
        let x := Binary.ofInt n
        if x.isInf then
          let shift := n.toNat.log2 - 1000
          .ok (.float (Float.log (Binary.ofInt (n / pow2 shift)) +
            Float.log 2.0 * Float.ofNat shift))
        else .ok (.float (Float.log x))

def logarithmic (t₀ t₁ it n : Value) : Except Error Value := do
  let whole ← log (← n.add (.int 1))
  let two ← log (.int 2)
  let num ← (← t₀.mul t₁).mul (← whole.sub two)
  let base ← (← t₁.mul whole).sub (← t₀.mul two)
  let slope ← (← t₀.sub t₁).mul (← log (← it.add (.int 2)))
  num.div (← base.add slope)

end Schedule

structure Schedule where
  shape : ScheduleShape
  first : Value
  last : Value

namespace Schedule

def make (shape : ScheduleShape) (first last : Value) : Except Error Schedule :=
  if !first.isNumber then .error (.temperature first)
  else if !last.isNumber then .error (.temperature last)
  else .ok ⟨shape, first, last⟩

def ofValue (v : Value) : Except Error Schedule :=
  match v with
  | .tuple [name, first, last] =>
    match name with
    | .list _ | .dict _ => .error .operands
    | .str s =>
      match ScheduleShape.ofName? s with
      | none => .error (.scheduleName name)
      | some shape =>
        if first.isNumber && last.isNumber then .ok ⟨shape, first, last⟩
        else .error .temperatures
    | _ => .error (.scheduleName name)
  | v => .error (.notSchedule v)

def temperature (s : Schedule) (it n : Value) : Except Error Temperature :=
  match s.shape with
  | .linear => (linear Value.arithmetic s.first s.last it n).map .real
  | .geometric => geometric s.first s.last it n
  | .reciprocal => (reciprocal Value.arithmetic s.first s.last it n).map .real
  | .logarithmic => (logarithmic s.first s.last it n).map .real

end Schedule

/-- What is called at the start, after each iteration, and at the end of a run, if anything. -/
structure Loggers where
  start : Value := .null
  iteration : Value := .null
  finish : Value := .null

def Loggers.ofValue (v : Value) : Loggers :=
  let logger (name : String) := (Param.lookup v.named name).getD .null
  ⟨logger "log_start", logger "log_iter", logger "log_end"⟩

def Loggers.check (v : Value) : Except Error Bool :=
  match v with
  | .null => .ok true
  | v => .error (.notLogger v)

def Loggers.absent (l : Loggers) : Except Error (List Bool) := do
  return [← check l.start, ← check l.iteration, ← check l.finish]

end GadgetCircuits
