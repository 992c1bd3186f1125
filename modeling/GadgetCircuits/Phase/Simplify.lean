import GadgetCircuits.Phase.Circuit

/-!
Simplification of phase circuits. Gadgets are collected into groups of one basis, moved to the front
through the groups that they commute with, and fused there. Gadgets with angle π are pulled to the
very front, turning the signs of the gadgets that they cross, where they become single-qubit gates.
-/

namespace GadgetCircuits

/-- Gadgets of one basis by their legs, in the order of their first appearance. -/
structure GadgetGroup where
  basis : Basis
  entries : List (List Int × AngleExpr) := []
  deriving Inhabited

namespace GadgetGroup

def angle? (g : GadgetGroup) (legs : List Int) : Option AngleExpr :=
  (g.entries.find? fun e => e.1 == legs).map Prod.snd

def put (g : GadgetGroup) (legs : List Int) (angle : AngleExpr) : GadgetGroup :=
  if (g.angle? legs).isSome then
    { g with entries := g.entries.map fun e => if e.1 == legs then (legs, angle) else e }
  else { g with entries := g.entries ++ [(legs, angle)] }

def fuse (g : GadgetGroup) (legs : List Int) (angle : AngleExpr) : Except Error GadgetGroup :=
  match g.angle? legs with
  | none => .ok (g.put legs angle)
  | some old => do return g.put legs (← old.add angle)

def oddOverlap (a b : List Int) : Bool :=
  (a.filter b.contains).length % 2 == 1

/-- Whether a gadget of the other basis commutes with the whole group. -/
def passes (g : GadgetGroup) (legs : List Int) : Bool :=
  g.entries.all fun e => e.2.isZero || !oddOverlap legs e.1

/-- The group after a gadget of the other basis and angle π has been pulled through it. -/
def crossed (g : GadgetGroup) (legs : List Int) : GadgetGroup :=
  { g with entries := g.entries.map fun e => if oddOverlap e.1 legs then (e.1, e.2.neg) else e }

end GadgetGroup

/-- Groups of alternating basis, and how many gates of angle π were pulled out on each qubit. -/
structure Simplifier where
  groups : List GadgetGroup
  zPis : List Int := []
  xPis : List Int := []

namespace Simplifier

/-- Appends a gadget: to the last group if it has the same basis, else as a new group. -/
def collect (groups : List GadgetGroup) (g : Gadget) : Except Error (List GadgetGroup) :=
  match groups.getLast? with
  | some last =>
    if last.basis == g.basis then do return groups.dropLast ++ [← last.fuse g.legs g.angle]
    else .ok (groups ++ [{ basis := g.basis, entries := [(g.legs, g.angle)] }])
  | none => .ok [{ basis := g.basis, entries := [(g.legs, g.angle)] }]

def group (s : Simplifier) (i : Nat) : GadgetGroup :=
  (s.groups[i]?).getD default

def setGroup (s : Simplifier) (i : Nat) (g : GadgetGroup) : Simplifier :=
  { s with groups := s.groups.set i g }

/-- The group that a gadget of group `i` can be moved to: two groups on as long as it commutes with
the group between. -/
def destination (s : Simplifier) (legs : List Int) : Nat → Nat
  | 0 => 0
  | 1 => 1
  | j + 2 => if (s.group (j + 1)).passes legs then s.destination legs j else j + 2

def pullPi (s : Simplifier) (basis : Basis) (legs : List Int) (j : Nat) : Simplifier :=
  let groups := s.groups.zipIdx.map fun (g, k) =>
    if k < j && (j - k) % 2 == 1 then g.crossed legs else g
  match basis with
  | .z => { s with groups := groups, zPis := s.zPis ++ legs }
  | .x => { s with groups := groups, xPis := s.xPis ++ legs }

/-- Moves one gadget of group `i` as far to the front as it goes and fuses it there. -/
def move (s : Simplifier) (i : Nat) (legs : List Int) : Except Error Simplifier := do
  let g := s.group i
  let angle := (g.angle? legs).getD (.angle Angle.zero)
  if AngleOperand.equal (.expr angle) (.plain (.int 0)) then return s
  let j := s.destination legs i
  if j < i then
    let s := s.setGroup i (g.put legs (.angle Angle.zero))
    let target ← (s.group j).fuse legs angle
    if ((target.angle? legs).getD angle).isPi then
      return (s.setGroup j (target.put legs (.angle Angle.zero))).pullPi g.basis legs j
    else return s.setGroup j target
  else if angle.isPi then
    return (s.setGroup i (g.put legs (.angle Angle.zero))).pullPi g.basis legs i
  else return s

def moveGroup (s : Simplifier) (i : Nat) : Except Error Simplifier :=
  ((s.group i).entries.map Prod.fst).foldlM (fun s legs => s.move i legs) s

def moveAll (s : Simplifier) : Except Error Simplifier :=
  (List.range s.groups.length).foldlM moveGroup s

def piGates (basis : Basis) (n : Nat) (pulled : List Int) : List Gadget :=
  ((List.range n).filter fun (q : Nat) => pulled.count (q : Int) % 2 == 1).map fun (q : Nat) =>
    { basis, angle := .angle Angle.pi, legs := [(q : Int)] }

def remaining (g : GadgetGroup) : List Gadget :=
  g.entries.filterMap fun (legs, angle) =>
    let angle := PhaseCircuit.reduceAngle angle
    if AngleOperand.equal (.expr angle) (.plain (.int 0)) then none
    else some { basis := g.basis, angle, legs }

end Simplifier

/-- The simplified circuit: Z gates of angle π, X gates of angle π, then what is left of the groups. -/
def PhaseCircuit.simplified (c : PhaseCircuit) : Except Error PhaseCircuit := do
  let live := (← c.gadgets).filter fun g => !g.angle.isZero
  let groups ← live.foldlM Simplifier.collect [{ basis := .z }]
  let s ← Simplifier.moveAll { groups }
  ofGadgets c.size (Simplifier.piGates .z c.size s.zPis ++ Simplifier.piGates .x c.size s.xPis ++
    s.groups.flatMap Simplifier.remaining)

end GadgetCircuits
