import GadgetCircuits.Graph.Steiner
import GadgetCircuits.Tableau.Basic

/-!
Trees and pivots for the synthesis of tableaux on a graph. Qubits that have not been used yet may
still trade places, and a permutation remembers where they are.
-/

namespace GadgetCircuits

/-- The tree edges after the names `parent` and `child` have been exchanged. Where both ends are
affected only one of them changes. -/
def Graph.exchangeIn {α : Type} [BEq α] (edges : List (α × α)) (parent child : α) : List (α × α) :=
  edges.map fun (p, c) =>
    if p == child then (parent, c)
    else if c == child then (p, parent)
    else if p == parent then (child, c)
    else if c == parent then (p, child)
    else (p, c)

structure Placement where
  graph : Graph
  permutation : List Nat

namespace Placement

def exchange (a b : Nat) : Update Placement Unit :=
  Update.replace fun s =>
    match s.permutation[a]?, s.permutation[b]? with
    | some x, some y => .ok { s with permutation := (s.permutation.set a y).set b x }
    | _, _ => .error .noKey

def exchangeNodes (a b : Nat) : Update Placement Unit :=
  modify fun s => { s with graph := s.graph.swapNodes a b }

/-- When qubits may trade places: a row of marks, the qubits that are free to move, and how often to
look. -/
structure SwapRules where
  mark : Nat → Option Int
  free : List Nat
  rounds : Nat

/-- Whether a child that is marked should take the place of its parent. -/
def SwapRules.applies (r : SwapRules) (parent child : Nat) : Except Error Bool := do
  let some p := r.mark parent | throw .noKey
  if p ≠ 0 then return false
  let some c := r.mark child | throw .noKey
  return c = 1 && r.free.contains child && r.free.contains parent

/-- Looks at the edges of a tree from the leaves up and moves marked qubits towards the root. -/
def swapPass (root : Nat) (rules : SwapRules) :
    Nat → List (Nat × Nat) → Graph → Update Placement Graph
  | 0, _, tree => return tree
  | _, [], tree => return tree
  | k + 1, (parent, child) :: rest, tree => do
    if parent ≠ root && (← rules.applies parent child) then
      exchangeNodes parent child
      exchange parent child
      swapPass root rules k (Graph.exchangeIn rest parent child) (tree.swapNodes parent child)
    else swapPass root rules k rest tree

def swapRounds (root : Nat) (rules : SwapRules) : Nat → Graph → Update Placement Unit
  | 0, _ => return ()
  | k + 1, tree => do
    if !tree.hasNode root then throw .noKey
    let edges := (tree.dfsEdges root).reverse
    swapRounds root rules k (← swapPass root rules edges.length edges tree)

def treeEdges [GraphLibrary] (root : Nat) (nodes : List Nat)
    (swaps : Except Error (Option SwapRules)) :
    Update Placement (List (Nat × Nat)) := do
  let tree := (← GraphLibrary.steinerTree (← get).graph nodes).rebuilt
  if tree.adj.isEmpty then return []
  let tree ←
    match ← swaps with
    | none => pure tree
    | some rules => do
      swapRounds root rules rules.rounds tree
      GraphLibrary.steinerTree (← get).graph nodes
  if !tree.hasNode root then throw .unknownNode
  return (tree.bfsEdges root).reverse

end Placement

namespace Tableau

def xOutAt (t : Tableau) (i j : Nat) : Except Error Int :=
  t.xOut (.ofNat i) (.ofNat j)

def zOutAt (t : Tableau) (i j : Nat) : Except Error Int :=
  t.zOut (.ofNat i) (.ofNat j)

def spread (g : Graph) (out : Nat → Except Error Int) (row : Nat) : Except Error Nat :=
  g.nodes.foldlM
    (fun total col => do
      if (← out col) ≠ 0 then return total + (← g.hops row col) else return total) 0

def reachCost (t : Tableau) (g : Graph) (row : Nat) : Except Error Nat := do
  let x ← spread g (t.xOutAt row) row
  return x + (← spread g (t.zOutAt row) row)

def firstLeast : List (Nat × Nat) → Option (Nat × Nat)
  | [] => none
  | p :: ps => some (ps.foldl (fun best q => if q.2 < best.2 then q else best) p)

/-- The qubit to be cleared next: one that can be removed, or one that is free to move away if some
free qubit can be removed. -/
def pivot (t : Tableau) (g : Graph) (free : List Nat) (swaps : Bool) : Except Error Nat := do
  let movable := free.any fun q => !g.isCut q
  let candidates := g.nodes.filter fun q => !g.isCut q || (swaps && movable && free.contains q)
  let costs ← candidates.mapM fun q => do return (q, ← t.reachCost g q)
  match firstLeast costs with
  | some (q, _) => return q
  | none => throw .failedAssertion

end Tableau

def Graph.pathWeight (g : Graph) (source target : Nat) : Except Error Nat :=
  match g.distance? source target with
  | some d => .ok d
  | none => .error .noRoute

def Graph.nearestRemovable (g : Graph) (pivot : Nat) (free : List Nat) : Except Error Nat := do
  let candidates := g.nodes.filter fun q => !g.isCut q && free.contains q
  let costs ← candidates.mapM fun q => do return (q, ← g.pathWeight q pivot)
  match Tableau.firstLeast costs with
  | some (q, _) => return q
  | none => throw .emptyChoice

end GadgetCircuits
