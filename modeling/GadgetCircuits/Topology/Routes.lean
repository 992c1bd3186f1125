import GadgetCircuits.Graph.Planarity
import GadgetCircuits.Graph.Steiner
import GadgetCircuits.Topology.Basic

/-!
Distances and routes between qubits. One table gives all distances together with the first step of a
shortest route; between qubits that are not connected the table names qubit 1 as the first step.
-/

namespace GadgetCircuits

/-- Distances and first steps for all pairs, row by row. `none` is an infinite distance. -/
structure Routes where
  size : Nat
  dist : Array (Option Nat)
  next : Array Nat

namespace Routes

def distance (r : Routes) (i j : Nat) : Option Nat :=
  (r.dist[i * r.size + j]?).getD none

def step (r : Routes) (i j : Nat) : Nat :=
  (r.next[i * r.size + j]?).getD 1

def setEntry (r : Routes) (i j : Nat) (d : Nat) (s : Nat) : Routes :=
  { r with
    dist := r.dist.setIfInBounds (i * r.size + j) (some d)
    next := r.next.setIfInBounds (i * r.size + j) s }

def direct (t : Topology) : Routes :=
  let blank : Routes :=
    ⟨t.size, Array.replicate (t.size * t.size) none, Array.replicate (t.size * t.size) 1⟩
  let coupled := t.couplings.foldl
    (fun r c => (r.setEntry c.1 c.2 1 c.2).setEntry c.2 c.1 1 c.1) blank
  t.qubits.foldl (fun r v => r.setEntry v v 0 v) coupled

def improve (r : Routes) (k i j : Nat) : Routes :=
  match r.distance i k, r.distance k j with
  | some a, some b =>
    match r.distance i j with
    | some d => if a + b < d then r.setEntry i j (a + b) (r.step i k) else r
    | none => r.setEntry i j (a + b) (r.step i k)
  | _, _ => r

def close (r : Routes) : Routes :=
  let qs := List.range r.size
  qs.foldl (fun r k => qs.foldl (fun r i => qs.foldl (fun r j => r.improve k i j) r) r) r

/-- The stops after `i` on the way to `j`, one first step after the other, if so many steps lead there. -/
def follow (r : Routes) : Nat → Nat → Nat → Option (List Nat)
  | 0, i, j => if i = j then some [] else none
  | fuel + 1, i, j =>
    if i = j then some [] else (r.follow fuel (r.step i j) j).map fun stops => r.step i j :: stops

/-- The stops after `i` on the way to `j`. A way with more steps than there are qubits goes round in
circles. -/
def onward (r : Routes) (i j : Nat) : Except Error (List Nat) :=
  match r.follow r.size i j with
  | some stops => .ok stops
  | none => .error .endless

def route (r : Routes) (i j : Nat) : Except Error (List Nat) := do
  return i :: (← r.onward i j)

end Routes

namespace Topology

def routes (t : Topology) : Routes :=
  (Routes.direct t).close

def distanceOf (t : Topology) (a b : Value) : Except Error (Option Nat) :=
  match t.qubitOf a, t.qubitOf b with
  | none, _ => .error (.notValidQubit a)
  | _, none => .error (.notValidQubit b)
  | some i, some j => .ok (t.routes.distance i j)

/-- A row or column of the table; negative numbers count from the end. -/
def tableIndex (t : Topology) (v : Value) : Except Error Nat :=
  match v.int? with
  | none => .error .outOfRange
  | some n =>
    let k := if n < 0 then n + t.size else n
    if 0 ≤ k && k < t.size then .ok k.toNat else .error .outOfRange

/-- The route between two qubits. The first stop is shown as it was given; no later stop is a negative
number. -/
def routeOf (t : Topology) (a b : Value) : Except Error (List Int) := do
  let i ← t.tableIndex a
  let j ← t.tableIndex b
  let start := (a.int?).getD 0
  if a.int? == b.int? then return [start]
  if (b.int?).getD 0 < 0 then throw .endless
  let r := t.routes
  let rest ← r.onward (r.step i j) j
  return start :: (r.step i j :: rest).map Int.ofNat

/-- The part of a topology's graph on some qubits; all of it if none are named. -/
def part [SetOrder] (t : Topology) (chosen : List Nat) : Graph :=
  if chosen.isEmpty then t.toGraph else t.toGraph.subgraph chosen

def steinerTree [GraphLibrary] (t : Topology) (terminals : List Nat) (chosen : List Nat) :
    Except Error Graph :=
  GraphLibrary.steinerTree (t.part chosen) terminals

def isPlanar (t : Topology) : Bool :=
  t.toGraph.isPlanar

def layouts (t : Topology) : List String :=
  ["circular", "kamada_kawai", "random", "shell", "spring", "spectral", "spiral"] ++
    (if t.isPlanar then ["planar"] else [])

end Topology

end GadgetCircuits
