import GadgetCircuits.Angle.Expr
import GadgetCircuits.Value.Arithmetic

/-!
Operands of angle arithmetic: an expression, or a plain value in its place. Expressions can be
scaled by integers; any other mixture is an error.
-/

namespace GadgetCircuits

inductive AngleOperand where
  | expr (e : AngleExpr)
  | plain (v : Value)
  deriving Inhabited

namespace AngleOperand

def ofValue (v : Value) : Except Error AngleOperand :=
  v.toRat.map fun q => .expr (.angle ⟨q⟩)

def toAngle : AngleOperand → Except Error AngleOperand
  | .expr (.angle a) => .ok (.expr (.angle a.normalize))
  | .expr _ => .error .operands
  | .plain v => ofValue v

def neg : AngleOperand → Except Error AngleOperand
  | .expr e => .ok (.expr e.neg)
  | .plain v => v.neg.map .plain

def pos : AngleOperand → Except Error AngleOperand
  | .expr e => .ok (.expr e)
  | .plain v => v.pos.map .plain

def binary (onExprs : AngleExpr → AngleExpr → Except Error AngleExpr)
    (onValues : Value → Value → Except Error Value) :
    AngleOperand → AngleOperand → Except Error AngleOperand
  | .expr e, .expr f => (onExprs e f).map .expr
  | .plain v, .plain w => (onValues v w).map .plain
  | _, _ => .error .operands

def add : AngleOperand → AngleOperand → Except Error AngleOperand :=
  binary AngleExpr.add Value.add

def sub : AngleOperand → AngleOperand → Except Error AngleOperand :=
  binary AngleExpr.sub Value.sub

def mod : AngleOperand → AngleOperand → Except Error AngleOperand :=
  binary AngleExpr.rem Value.mod

def mul (a : AngleOperand) (v : Value) : Except Error AngleOperand :=
  match a with
  | .plain w => (w.mul v).map .plain
  | .expr e =>
    match v.int? with
    | some n => .ok (.expr (e.scaleBy n))
    | none => .error .operands

def rmul (v : Value) (a : AngleOperand) : Except Error AngleOperand :=
  match a with
  | .plain w => (v.mul w).map .plain
  | .expr e =>
    match v.int? with
    | some n => .ok (.expr (e.scaleBy n))
    | none => .error .operands

def div (a : AngleOperand) (v : Value) : Except Error AngleOperand :=
  match a with
  | .plain w => (w.div v).map .plain
  | .expr e =>
    match v.int? with
    | some n => (e.divInt n).map .expr
    | none => .error .operands

def scaleRat (q : Rat) (c : Value) : Except Error Rat :=
  match c with
  | .float x => do Value.toRat (.float ((← finiteFloat q) * x))
  | c =>
    match c.int? with
    | some n => .ok (q * n)
    | none => .error .operands

/-- Adds one term with a coefficient of any type to a combination. Operands that are not expressions
are kept apart with their coefficients. -/
def addTo (acc : AngleExpr.Pending × List (Value × Rat)) (e : AngleOperand) (c : Value) :
    Except Error (AngleExpr.Pending × List (Value × Rat)) :=
  match e with
  | .expr (.angle a) => do
    let q ← scaleRat a.halfTurns c
    .ok ({ acc.1 with const := acc.1.const.add ⟨q⟩ }, acc.2)
  | .expr (.sum ts k) =>
    if ts.isEmpty then .ok acc
    else
      match c.int? with
      | some n => .ok (acc.1.add (.sum ts k) n, acc.2)
      | none =>
        match c with
        | .float _ => .error .noAttribute
        | _ => .error .operands
  | .expr e =>
    if c.same (.int 0) then .ok acc
    else do .ok (acc.1.add e (← c.toRat), acc.2)
  | .plain v =>
    if c.same (.int 0) then .ok acc
    else do
      let q ← c.toRat
      match v with
      | .list _ | .dict _ => .error .operands
      | v =>
        let old := ((acc.2.find? fun p => p.1.same v).map Prod.snd).getD 0
        .ok (acc.1, (v, old + q) :: acc.2.filter fun p => !p.1.same v)

def combine (es : List AngleOperand) (cs : List Value) : Except Error AngleOperand :=
  if cs.length ≠ es.length then .error (.coefficientCount es.length cs.length)
  else do
    let acc ← (es.zip cs).foldlM (fun acc t => addTo acc t.1 t.2) ({}, [])
    if acc.2.any fun p => p.2 != 0 then .error .noAttribute
    else .ok (.expr acc.1.finish)

def combineExact (es : List AngleOperand) (cs : List Rat) : Except Error AngleOperand :=
  if cs.length ≠ es.length then .error (.coefficientCount es.length cs.length)
  else do
    let acc ← (es.zip cs).foldlM
      (fun (acc : AngleExpr.Pending × List (Value × Rat)) t =>
        match t.1 with
        | .expr e => .ok (acc.1.add e t.2, acc.2)
        | .plain v =>
          if t.2 = 0 then .ok acc
          else
            match v with
            | .list _ | .dict _ => .error .operands
            | v =>
              let old := ((acc.2.find? fun p => p.1.same v).map Prod.snd).getD 0
              .ok (acc.1, (v, old + t.2) :: acc.2.filter fun p => !p.1.same v)) ({}, [])
    if acc.2.any fun p => p.2 != 0 then .error .noAttribute
    else .ok (.expr acc.1.finish)

/-- Equality. The only plain values that equal an expression are zeros, and they equal an angle of
full turns. -/
def equal : AngleOperand → AngleOperand → Bool
  | .expr e, .expr f => e.equal f
  | .expr (.angle a), .plain v => v.same (.int 0) && a.isZero
  | .plain v, .expr (.angle a) => v.same (.int 0) && a.isZero
  | .plain v, .plain w => v.same w
  | _, _ => false

end AngleOperand

end GadgetCircuits
