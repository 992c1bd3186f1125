import GadgetCircuits.Slice
import GadgetCircuits.Topology.Mapping
import GadgetCircuits.Topology.Matching
import GadgetCircuits.Update

/-!
Layers of CX gates: gates on pairwise disjoint couplings of a topology. A layer changes by flipping
one gate at a time, and keeps count of the gates that can be flipped.
-/

namespace GadgetCircuits

abbrev CX := Nat × Nat

def CX.coupling (g : CX) : Nat × Nat :=
  Coupling.ordered g.1 g.2

def CX.text (g : CX) : String :=
  "(" ++ toString g.1 ++ ", " ++ toString g.2 ++ ")"

structure CXLayer where
  topology : Topology
  gates : List CX := []
  matching : Matching
  numFlippable : Int
  deriving Inhabited

namespace CXLayer

def empty (t : Topology) : CXLayer where
  topology := t
  matching := Matching.empty t
  numFlippable := 2 * t.couplings.length

def gateOn (l : CXLayer) (c : Nat × Nat) : Option CX :=
  l.gates.find? fun g => g.coupling == c

def incident (l : CXLayer) (q : Nat) : Option CX :=
  (l.matching.incident q).bind l.gateOn

def hasGate (l : CXLayer) (g : CX) : Bool :=
  l.gateOn g.coupling == some g

def freeBeside (l : CXLayer) (q partner : Nat) : Nat :=
  ((l.topology.adjacent q).filter fun r => r != partner && (l.incident r).isNone).length

/-- The gates that a gate keeps from being flipped, besides its opposite. -/
def blockedBy (l : CXLayer) (g : CX) : Int :=
  2 * l.freeBeside g.1 g.2 + 2 * l.freeBeside g.2 g.1

def remove (l : CXLayer) (g : CX) : CXLayer :=
  let l' : CXLayer :=
    { l with gates := l.gates.filter (· != g), matching := l.matching.remove g.coupling }
  { l' with numFlippable := l.numFlippable + 1 + l'.blockedBy g }

def insert (l : CXLayer) (g : CX) : CXLayer :=
  let l' : CXLayer := { l with gates := l.gates ++ [g], matching := l.matching.insert g.coupling }
  { l' with numFlippable := l.numFlippable - 1 - l'.blockedBy g }

def flip (l : CXLayer) (c t : Nat) : Except Error CXLayer :=
  if !l.topology.hasQubit c then .error (.invalidQubit (.ofNat c))
  else if !l.topology.hasQubit t then .error (.invalidQubit (.ofNat t))
  else if c = t then .error .equalQubits
  else
    let k := Coupling.ordered c t
    if !l.topology.couplings.contains k then .error (.notInTopology (Coupling.text k))
    else if !l.matching.isFlippable k then .error (.blockedGate (CX.text (c, t)))
    else
      match l.gateOn k with
      | some g =>
        if g == (c, t) then .ok (l.remove (c, t))
        else .error (.opposedGate (CX.text (c, t)) (CX.text g))
      | none => .ok (l.insert (c, t))

/-- The gates that can be flipped: on each flippable coupling the gate that is there, or both. -/
def flippable (l : CXLayer) : List CX :=
  l.matching.flippable.flatMap fun c =>
    match l.gateOn c with
    | some g => [g]
    | none => [(c.1, c.2), (c.2, c.1)]

def drawn (l : CXLayer) (draw : Int) : Except Error CX :=
  if draw < 0 then .error .unreachable
  else
    match l.flippable[draw.toNat]? with
    | some g => .ok g
    | none => .error .unreachable

def sameGates (gs hs : List CX) : Bool :=
  gs.all hs.contains && hs.all gs.contains

def same (l m : CXLayer) : Bool :=
  l.topology.same m.topology && sameGates l.gates m.gates

def qubit (v : Value) : Except Error Nat :=
  match v.int? with
  | some n => if n < 0 then .error (.invalidQubit v) else .ok n.toNat
  | none => .error (.gateQubit v)

def flipValue (l : CXLayer) (c t : Value) : Except Error CXLayer := do
  if c.int?.isNone then throw (.gateQubit c)
  if t.int?.isNone then throw (.gateQubit t)
  let a ← qubit c
  if !l.topology.hasQubit a then throw (.invalidQubit c)
  l.flip a (← qubit t)

/-- A pair of distinct integers that can be compared with gates. -/
def gateOf? (c t : Value) : Except Error (Option CX) := do
  let _ ← Coupling.ofValues c t
  match c.int?, t.int? with
  | some m, some n => return if 0 ≤ m && 0 ≤ n then some (m.toNat, n.toNat) else none
  | _, _ => return none

def hasGateValue (l : CXLayer) (c t : Value) : Except Error Bool := do
  return (← gateOf? c t).any l.hasGate

def incidentValue (l : CXLayer) (v : Value) : Except Error (Option CX) := do
  let q ← Slice.position l.matching.partners.length v
  return l.incident q

/-- Whether a gate is there or touches no other gate. The coupling need not be in the topology. -/
def isFlippableValue (l : CXLayer) (c t : Value) : Except Error Bool := do
  let g ← gateOf? c t
  match g.bind fun g => l.gateOn g.coupling with
  | some h => return g == some h
  | none =>
    if (← l.matching.incidentValue c).isSome then return false
    return (← l.matching.incidentValue t).isNone

def extend (gates : Value) : Update CXLayer Unit := do
  let gates : Value :=
    match gates.items? with
    | some [a, b] => if a.int?.isSome && b.int?.isSome then .list [gates] else gates
    | _ => gates
  match gates.sequence? with
  | none => throw (.notGateSequence gates)
  | some items =>
    for gate in items do
      match gate.sequence? with
      | some [c, t] => Update.replace fun l => l.flipValue c t
      | _ => throw (.notOrderedPair gate)

def ofItems (t : Topology) (items : List Value) : Except Error CXLayer :=
  items.foldlM
    (fun l gate =>
      match gate.items? with
      | some [a, b] =>
        if !(a.isHashable && b.isHashable) then .error .operands
        else if a.same b then .error (.notGatePair gate)
        else l.flipValue a b
      | some _ | none => .error (.notGatePair gate))
    (empty t)

def ofValue (t : Topology) (gates : Value) : Except Error CXLayer :=
  match gates.collection? with
  | none => .error (.notGates gates)
  | some items => ofItems t items

end CXLayer

end GadgetCircuits
