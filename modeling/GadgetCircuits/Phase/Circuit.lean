import GadgetCircuits.Phase.Gates
import GadgetCircuits.Slice
import GadgetCircuits.Update

/-!
Circuits of phase gadgets. The legs of all gadgets of one basis form a matrix of bits with a column
for every gadget, which makes conjugation by a CX gate one row operation. Tables lead from columns
to positions in the circuit and back, and the legs of a column are remembered until it changes.
-/

namespace GadgetCircuits

/-- The gadgets of one basis: a column of bits for each, its position in the circuit, and its legs
if they are known. -/
structure GadgetTable where
  columns : List (List Bool) := []
  positions : List Nat := []
  knownLegs : List (Option (List Int)) := []
  deriving Inhabited

/-- A circuit on `size` qubits. The gadget at a position has the angle there, and its basis and
column are given by `places`. -/
structure PhaseCircuit where
  size : Nat
  angles : List AngleExpr := []
  places : List (Basis × Nat) := []
  z : GadgetTable := {}
  x : GadgetTable := {}
  deriving Inhabited

namespace GadgetTable

def legsOf (column : List Bool) : List Nat :=
  column.zipIdx.filterMap fun (b, i) => if b then some i else none

def column (t : GadgetTable) (j : Nat) : List Bool :=
  (t.columns[j]?).getD []

def push (t : GadgetTable) (column : List Bool) (position : Nat) (legs : List Int) : GadgetTable where
  columns := t.columns ++ [column]
  positions := t.positions ++ [position]
  knownLegs := t.knownLegs ++ [some legs]

def remember (t : GadgetTable) (j : Nat) (legs : List Int) : GadgetTable :=
  { t with knownLegs := t.knownLegs.set j (some legs) }

/-- Adds row `source` to row `goal` modulo 2. The legs of the columns with a bit in row `source`
afterwards are forgotten. -/
def addRow (t : GadgetTable) (source goal : Nat) : GadgetTable :=
  let columns := t.columns.map fun col =>
    col.set goal (xor ((col[goal]?).getD false) ((col[source]?).getD false))
  { t with
    columns := columns
    knownLegs := List.zipWith
      (fun (col : List Bool) legs => if (col[source]?).getD false then none else legs)
      columns t.knownLegs }

end GadgetTable

namespace PhaseCircuit

def table (c : PhaseCircuit) : Basis → GadgetTable
  | .z => c.z
  | .x => c.x

def mapTable (c : PhaseCircuit) (b : Basis) (f : GadgetTable → GadgetTable) : PhaseCircuit :=
  match b with
  | .z => { c with z := f c.z }
  | .x => { c with x := f c.x }

def numGadgets (c : PhaseCircuit) : Nat :=
  c.angles.length

def reduceAngle : AngleExpr → AngleExpr
  | .angle a => .angle a.normalize
  | e => e

/-- The column of a set of legs; negative legs count from the end. -/
def columnOf (n : Nat) (legs : List Int) : Except Error (List Bool) := do
  let rows ← legs.mapM fun q =>
    match Slice.position? n q with
    | some k => .ok k
    | none => .error .outOfRange
  return (List.range n).map rows.contains

def push (c : PhaseCircuit) (g : Gadget) (column : List Bool) (angle : AngleExpr) : PhaseCircuit :=
  let c' := c.mapTable g.basis fun t => t.push column c.angles.length g.legs
  { c' with
    angles := c.angles ++ [angle]
    places := c.places ++ [(g.basis, (c.table g.basis).columns.length)] }

def add (c : PhaseCircuit) (g : Gadget) : Except Error PhaseCircuit := do
  return c.push g (← columnOf c.size g.legs) g.angle

def addAll (c : PhaseCircuit) (gs : List Gadget) : Except Error PhaseCircuit :=
  gs.foldlM add c

def strayLeg (n : Nat) (gs : List Gadget) (b : Basis) : Option Error :=
  (gs.zipIdx.filter fun (g, _) => g.basis == b).findSome? fun (g, i) =>
    (g.shownLegs.zip g.legs).findSome? fun (v, q) =>
      if 0 ≤ q && q < n then none else some (.strayLeg v i n)

def ofGadgets (n : Nat) (gs : List Gadget) : Except Error PhaseCircuit :=
  match strayLeg n gs .z, strayLeg n gs .x with
  | some e, _ => .error e
  | _, some e => .error e
  | none, none =>
    .ok (gs.foldl
      (fun c g =>
        c.push g ((List.range n).map fun (i : Nat) => g.legs.contains (i : Int))
          (reduceAngle g.angle))
      { size := n })

def gadgetOf (b : Basis) (angle : AngleExpr) (column : List Bool) : Except Error Gadget :=
  match GadgetTable.legsOf column with
  | [] => .error .noLegs
  | legs => .ok { basis := b, angle := angle, legs := legs.map Int.ofNat }

def gadgetAt (c : PhaseCircuit) (i : Nat) : Except Error Gadget :=
  match c.places[i]?, c.angles[i]? with
  | some (b, j), some angle => gadgetOf b angle ((c.table b).column j)
  | _, _ => .error .outOfRange

def gadgetsAt (c : PhaseCircuit) (positions : List Nat) : Except Error (List Gadget) :=
  positions.mapM c.gadgetAt

def gadgets (c : PhaseCircuit) : Except Error (List Gadget) :=
  c.gadgetsAt (List.range c.numGadgets)

def rebuilt (c : PhaseCircuit) (f : List Gadget → List Gadget) : Except Error PhaseCircuit := do
  ofGadgets c.size (f (← c.gadgets))

def cloned (c : PhaseCircuit) : Except Error PhaseCircuit :=
  c.rebuilt id

def colorFlip (c : PhaseCircuit) : Except Error PhaseCircuit :=
  c.rebuilt fun gs => gs.map fun g => { g with basis := g.basis.other }

def dagger (c : PhaseCircuit) : Except Error PhaseCircuit :=
  c.rebuilt fun gs => gs.reverse.map fun g => { g with angle := g.angle.neg }

def conjugate (c : PhaseCircuit) (ctrl trgt : Nat) : PhaseCircuit :=
  { c with z := c.z.addRow trgt ctrl, x := c.x.addRow ctrl trgt }

/-- Equality of sizes and gadgets. Circuits of different lengths are not looked into. -/
def same (c d : PhaseCircuit) : Except Error Bool :=
  if c.numGadgets ≠ d.numGadgets || c.size ≠ d.size then .ok false
  else
    (List.range c.numGadgets).foldlM
      (fun (eq : Bool) i => do
        if !eq then return false
        return (← c.gadgetAt i).equal (← d.gadgetAt i))
      true

/-- Fuses the gadgets of one basis that follow each other, from the second on; what was fused is
written out whenever the basis changes. -/
structure Fusion where
  basis : Option Basis := none
  fused : List (List Int × AngleOperand) := []
  result : PhaseCircuit

def Fusion.flush (f : Fusion) : Except Error PhaseCircuit :=
  f.fused.foldlM
    (fun c (legs, angle) => do
      let basis : Value := match f.basis with | some b => .str b.name | none => .null
      c.add (← Gadget.ofValues basis angle (.list (legs.map Value.int))))
    f.result

def Fusion.fuse (f : Fusion) (g : Gadget) : Except Error Fusion :=
  if f.basis == some g.basis then do
    let old := ((f.fused.find? fun e => e.1 == g.legs).map Prod.snd).getD (.plain (.int 0))
    let sum ← old.add (.expr g.angle)
    let known := f.fused.any fun e => e.1 == g.legs
    return { f with
      fused := if known then f.fused.map fun e => if e.1 == g.legs then (e.1, sum) else e
        else f.fused ++ [(g.legs, sum)] }
  else do return { f with result := ← f.flush, basis := some g.basis }

def normalize (c : PhaseCircuit) : Except Error PhaseCircuit := do
  let f ← (← c.gadgets).foldlM Fusion.fuse { result := { size := c.size } }
  f.flush

def legsAt (t : GadgetTable) (j : Nat) : List Int :=
  match t.knownLegs[j]? with
  | some (some legs) => legs
  | _ => (GadgetTable.legsOf (t.column j)).map Int.ofNat

def columnAngle (c : PhaseCircuit) (b : Basis) (j : Nat) : AngleExpr :=
  (((c.table b).positions[j]?).bind fun i => c.angles[i]?).getD default

section Counts

variable [GraphLibrary]

/-- The CX count of a column: nothing for angles 0 and π and for single legs, else the edges of the
tree that joins the legs. -/
def columnCount (c : PhaseCircuit) (t : Topology) (b : Basis) (j : Nat) : Except Error Nat :=
  let legs := legsAt (c.table b) j
  if (c.columnAngle b j).isZeroOrPi || legs.length ≤ 1 then .ok 0
  else (t.steinerTree (Gadget.terminals legs) []).map fun g => g.edges.length

def tableCount (c : PhaseCircuit) (t : Topology) (b : Basis) : Except Error Nat :=
  (List.range (c.table b).columns.length).foldlM
    (fun n j => do return n + (← c.columnCount t b j)) 0

def cxCount (c : PhaseCircuit) (t : Topology) : Except Error Nat := do
  let n ← c.tableCount t .z
  return n + (← c.tableCount t .x)

/-- Counts a column. Unless its angle is 0 or π, its legs are remembered, also if the count fails. -/
def countColumn (t : Topology) (b : Basis) (j : Nat) : Update PhaseCircuit Nat := do
  let c ← get
  if !(c.columnAngle b j).isZeroOrPi then
    set (c.mapTable b fun table => table.remember j (legsAt table j))
  Update.check (c.columnCount t b j)

def count (t : Topology) : Update PhaseCircuit Nat := do
  let c ← get
  let columns := [Basis.z, .x].flatMap fun b =>
    (List.range (c.table b).columns.length).map (Prod.mk b)
  columns.foldlM (fun n p => do return n + (← countColumn t p.1 p.2)) 0

end Counts

def mappingLength : Value → Except Error Nat
  | .dict es => .ok es.length
  | m =>
    match m.sequence? with
    | some items => .ok items.length
    | none => .error .operands

def seenThrough (c : PhaseCircuit) (t : Topology) (mapping : Value) : Except Error Topology :=
  match mapping with
  | .null => .ok t
  | m => do
    let k ← mappingLength m
    if k ≠ c.size then throw (.mappingLength c.size k)
    let es ← QubitMapping.entries m
    let images := es.map Prod.snd
    if ← Value.coversRange c.size images then
      t.mapForward (← QubitMapping.inverse es)
    else throw (.mappingImages c.size (← Value.sorted (Value.distinct images)))

/-- A circuit of a number of qubits of any type; a truth value cannot be the size of a matrix. -/
def make (size : Value) (gadgets : Option (List Gadget)) : Except Error PhaseCircuit :=
  match size.int? with
  | none => .error .circuitSize
  | some n =>
    if n ≤ 0 then .error .circuitSize
    else
      match gadgets, size with
      | none, _ => .error .notGadgets
      | _, .bool _ => .error .operands
      | some gs, _ => ofGadgets n.toNat gs

def takeStep (c : PhaseCircuit) : GateStep → Except Error PhaseCircuit
  | .turn b q a => do
    let a ← a
    match q.int? with
    | none => throw (.gateTarget q)
    | some n => if !(0 ≤ n && n < c.size) then throw (.gateTarget q)
    c.add (← Gadget.rotationOnSet b a [q])
  | .link a qs => do c.add (← Gadget.rotationOnSet .z (← a) qs)

def takeSteps (steps : List GateStep) : Update PhaseCircuit Unit :=
  for s in steps do Update.replace fun c => c.takeStep s

def gate (name : String) (args : List AngleOperand) : Update PhaseCircuit Unit := do
  takeSteps (← Update.check (PhaseGate.circuitSteps name args))

def conjugateValues (c : PhaseCircuit) (ctrl trgt : Value) : Except Error PhaseCircuit := do
  if !(← Coupling.isQubit c.size ctrl) then throw (.controlQubit ctrl)
  if !(← Coupling.isQubit c.size trgt) then throw (.targetQubit trgt)
  match ctrl.int?, trgt.int? with
  | some a, some b => return c.conjugate a.toNat b.toNat
  | _, _ => throw .outOfRange

def addAllSteps (gs : List Gadget) : Update PhaseCircuit Unit :=
  for g in gs do Update.replace fun c => c.add g

def andThen (c : PhaseCircuit) (gs : List Gadget) : Except Error PhaseCircuit := do
  (← ({ size := c.size } : PhaseCircuit).addAll (← c.gadgets)).addAll gs

def get (c : PhaseCircuit) (v : Value) : Except Error Gadget :=
  match v.int? with
  | none => .error (.notIndex v)
  | some i =>
    match Slice.position? c.numGadgets i with
    | some k => c.gadgetAt k
    | none => .error (.gadgetIndex v)

def bound (c : PhaseCircuit) (v : Value) : Except Error (Option Nat) :=
  match v with
  | .null => .ok none
  | v =>
    match v.int? with
    | some i =>
      match Slice.position? c.numGadgets i with
      | some k => .ok (some k)
      | none => .error (.gadgetIndex v)
    | none =>
      match v with
      | .float x =>
        match Binary.toRat? x with
        | some q =>
          if -(c.numGadgets : Rat) ≤ q && q < (c.numGadgets : Rat) then .error .unreadable
          else .error (.gadgetIndex v)
        | none => .error (.gadgetIndex v)
      | _ => .error .operands

def stepOf : Value → Except Error Nat
  | .null => .ok 1
  | v =>
    match v.int? with
    | some n => if 1 ≤ n then .ok n.toNat else .error .unreadable
    | none => .error .unreadable

def strided (start stop step : Nat) : List Nat :=
  (List.range ((stop - start + (step - 1)) / step)).map fun k => start + step * k

def slice (c : PhaseCircuit) (start stop step : Value) : Except Error PhaseCircuit := do
  let a ← c.bound start
  let b ← c.bound stop
  let k ← stepOf step
  ofGadgets c.size (← c.gadgetsAt (strided (a.getD 0) (b.getD c.numGadgets) k))

def mapped (c : PhaseCircuit) (mapping : Value) : Except Error PhaseCircuit := do
  let images ← QubitMapping.check c.size mapping false
  let gs ← (← c.gadgets).mapM fun g =>
    let items := g.legs.map fun q => (images[q.toNat]?).getD .null
    Gadget.ofValues (.str g.basis.name) (.expr g.angle) (.list items)
  ofGadgets c.size gs

def setAngles (c : PhaseCircuit) (angles : List AngleOperand) : Except Error PhaseCircuit := do
  let es ← angles.mapM fun a =>
    match a with
    | .expr e => .ok e
    | .plain v => .error (.notAngle v)
  if es.length ≠ c.numGadgets then throw (.angleCount c.numGadgets es.length)
  return { c with angles := es.map reduceAngle }

def refreshed (c : PhaseCircuit) (fresh : Nat → AngleVar) : Except Error PhaseCircuit :=
  c.setAngles (c.angles.zipIdx.map fun (e, i) => .expr (if e.isAngle then e else .var (fresh i)))

end PhaseCircuit

end GadgetCircuits
