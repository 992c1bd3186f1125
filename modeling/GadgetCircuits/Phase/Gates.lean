import GadgetCircuits.Call
import GadgetCircuits.Phase.Gadget

/-!
Common gates as sequences of gadgets. A gate is a list of steps, so that a circuit can take them one
by one and stop at the first that does not fit.
-/

namespace GadgetCircuits

/-- A step of a gate: a rotation of one qubit, or a Z gadget between several. The angle is worked
out when the step is taken. -/
inductive GateStep where
  | turn (basis : Basis) (qubit : Value) (angle : Except Error AngleOperand)
  | link (angle : Except Error AngleOperand) (qubits : List Value)

def GateStep.gadget : GateStep → Except Error Gadget
  | .turn b q a => do Gadget.rotationOnSet b (← a) [q]
  | .link a qs => do Gadget.rotationOnSet .z (← a) qs

namespace PhaseGate

def angleOf (q : Rat) : AngleOperand :=
  .expr (.angle ⟨q⟩)

def turns (q : Rat) : Except Error AngleOperand :=
  .ok (angleOf q)

def rx (q : Value) (a : AngleOperand) : List GateStep :=
  [.turn .x q (.ok a)]

def rz (q : Value) (a : AngleOperand) : List GateStep :=
  [.turn .z q (.ok a)]

def ry (q : Value) (a : AngleOperand) : List GateStep :=
  rx q (angleOf (1/2)) ++ rz q a ++ rx q (angleOf (-1/2))

def x (q : Value) : List GateStep := rx q (angleOf 1)

def z (q : Value) : List GateStep := rz q (angleOf 1)

def y (q : Value) : List GateStep := z q ++ x q

def s (q : Value) : List GateStep := rz q (angleOf (1/2))

def sdg (q : Value) : List GateStep := rz q (angleOf (-1/2))

def v (q : Value) : List GateStep := rx q (angleOf (1/2))

def vdg (q : Value) : List GateStep := rx q (angleOf (-1/2))

def t (q : Value) : List GateStep := rz q (angleOf (1/4))

/-- A quarter turn, forwards or backwards by a sign of any type. -/
def signed (sign : Value) : Except Error AngleOperand := do
  (← AngleOperand.rmul sign (angleOf 1)).div (.int 2)

/-- Three quarter turns, the outer two about the axis that is not the given one. -/
def hTurns (q : Value) (basis : Basis) (sign : Value) : List GateStep :=
  [.turn basis.other q (signed sign), .turn basis q (signed sign),
    .turn basis.other q (signed sign)]

def h (q : Value) : List GateStep := hTurns q .z (.int 1)

def hInverse (q : Value) : List GateStep := hTurns q .z (.int (-1))

def hChecked (q basis sign : Value) : Except Error (List GateStep) :=
  match Basis.ofValue? basis with
  | none => .error (.gateBasis basis)
  | some b =>
    if sign.same (.int 1) || sign.same (.int (-1)) then .ok (hTurns q b sign)
    else .error (.gateSign sign)

def cu1 (c t : Value) (a : AngleOperand) : List GateStep :=
  [.link a.neg [c, t]] ++ rz c a ++ rz t a

def half (a : AngleOperand) : Except Error AngleOperand := a.div (.int 2)

def minusHalf (a : AngleOperand) : Except Error AngleOperand := do (← a.neg).div (.int 2)

def crz (c t : Value) (a : AngleOperand) : List GateStep :=
  [.link (minusHalf a) [c, t], .turn .z t (half a)]

def cry (c t : Value) (a : AngleOperand) : List GateStep :=
  v t ++ crz c t a ++ vdg t

def crx (c t : Value) (a : AngleOperand) : List GateStep :=
  h t ++ crz c t a ++ hInverse t

def cz (c t : Value) : List GateStep := cu1 c t (angleOf (1/2))

def cyFrom (frame c t : Value) : List GateStep :=
  v frame ++ cz c t ++ vdg t

def cy (c t : Value) : List GateStep := cyFrom t c t

def cx (c t : Value) : List GateStep := h t ++ cz c t ++ hInverse t

def u3 (q : Value) (theta phi lam : AngleOperand) : List GateStep :=
  rz q lam ++ ry q theta ++ rz q phi

def ccz (a b c : Value) : List GateStep :=
  rz a (angleOf (1/4)) ++ rz b (angleOf (1/4)) ++ rz c (angleOf (1/4)) ++
    [.link (turns (-1/4)) [a, b], .link (turns (-1/4)) [b, c], .link (turns (-1/4)) [c, a],
      .link (turns (1/4)) [a, b, c]]

def ccy (a b c : Value) : List GateStep := v c ++ ccz a b c ++ vdg c

def ccx (a b c : Value) : List GateStep := h c ++ ccz a b c ++ hInverse c

/-- The gates that are known both as gadget sequences and as steps of a circuit, from their names
and arguments. -/
def steps? (name : String) (args : List AngleOperand) : Option (Except Error (List GateStep)) :=
  let one (f : Value → List GateStep) : Except Error (List GateStep) :=
    match args with
    | [q] => .ok (f q.toValue)
    | _ => .error .arguments
  let oneTurned (f : Value → AngleOperand → List GateStep) : Except Error (List GateStep) :=
    match args with
    | [q, a] => .ok (f q.toValue a)
    | _ => .error .arguments
  let two (f : Value → Value → List GateStep) : Except Error (List GateStep) :=
    match args with
    | [c, t] => .ok (f c.toValue t.toValue)
    | _ => .error .arguments
  let twoTurned (f : Value → Value → AngleOperand → List GateStep) :
      Except Error (List GateStep) :=
    match args with
    | [c, t, a] => .ok (f c.toValue t.toValue a)
    | _ => .error .arguments
  match name with
  | "rx" => some (oneTurned rx)
  | "ry" => some (oneTurned ry)
  | "rz" => some (oneTurned rz)
  | "i" => some (one fun _ => [])
  | "x" => some (one x)
  | "y" => some (one y)
  | "z" => some (one z)
  | "s" => some (one s)
  | "sdg" => some (one sdg)
  | "v" => some (one v)
  | "vdg" => some (one vdg)
  | "t" => some (one t)
  | "h" => some do
    let bound ← Param.bind
      [.required "qubit", .optional "basis" (.plain (.str "Z")), .optional "sign" (.plain (.int 1))]
      args []
    match bound with
    | [q, b, n] => hChecked q.toValue b.toValue n.toValue
    | _ => .error .arguments
  | "cu1" => some (twoTurned cu1)
  | "crz" => some (twoTurned crz)
  | "cry" => some (twoTurned cry)
  | "crx" => some (twoTurned crx)
  | "cz" => some (two cz)
  | "cy" => some (two cy)
  | "cx" => some (two cx)
  | "u3" => some <|
    match args with
    | [q, a, b, c] => .ok (u3 q.toValue a b c)
    | _ => .error .arguments
  | _ => none

def gadgets (name : String) (args : List AngleOperand) : Except Error (List Gadget) :=
  match steps? name args with
  | none => .error .noAttribute
  | some steps => do (← steps).mapM GateStep.gadget

/-- The steps of a gate in a circuit: those above and the doubly controlled ones. The frame change
of the controlled Y gate starts on the control. -/
def circuitSteps (name : String) (args : List AngleOperand) : Except Error (List GateStep) :=
  let three (f : Value → Value → Value → List GateStep) : Except Error (List GateStep) :=
    match args with
    | [a, b, c] => .ok (f a.toValue b.toValue c.toValue)
    | _ => .error .arguments
  match name with
  | "cy" =>
    match args with
    | [c, t] => .ok (cyFrom c.toValue c.toValue t.toValue)
    | _ => .error .arguments
  | "ccz" => three ccz
  | "ccy" => three ccy
  | "ccx" => three ccx
  | name => (steps? name args).getD (.error .noAttribute)

end PhaseGate

end GadgetCircuits
