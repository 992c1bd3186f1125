import GadgetCircuits.Graph.Basic

/-!
Shortest paths by weight, spanning trees and approximate Steiner trees. Of the paths of one length the
first that was found is kept. A Steiner tree joins the terminals along the shortest paths of a minimum
spanning tree of their distances.
-/

namespace GadgetCircuits.Graph

/-- A path that has been found to its last node but may still be improved. -/
structure Candidate where
  dist : Nat
  stamp : Nat
  node : Nat
  path : List Nat

def popNearest : List Candidate → Option (Candidate × List Candidate)
  | [] => none
  | c :: rest =>
    match popNearest rest with
    | none => some (c, [])
    | some (d, others) =>
      if c.dist < d.dist || (c.dist == d.dist && c.stamp < d.stamp) then some (c, d :: others)
      else some (d, c :: others)

/-- State of the search: what is settled, the best distances seen, the candidates and their count. -/
structure Search where
  settled : List Candidate := []
  seen : List (Nat × Nat) := []
  fringe : List Candidate := []
  count : Nat := 0

def Search.relax (s : Search) (c : Candidate) (arc : Nat × Nat) : Search :=
  let d := c.dist + arc.2
  if s.settled.any fun t => t.node == arc.1 then s
  else if s.seen.any fun p => p.1 == arc.1 && p.2 ≤ d then s
  else
    { s with
      seen := (arc.1, d) :: s.seen.filter fun p => p.1 != arc.1
      fringe := ⟨d, s.count, arc.1, c.path ++ [arc.1]⟩ :: s.fringe
      count := s.count + 1 }

/-- Settles the nearest candidates one after the other. Every candidate but the first stems from an
arc, which bounds the rounds. -/
def searchLoop (g : Graph) : Nat → Search → List Candidate
  | 0, s => s.settled
  | fuel + 1, s =>
    match popNearest s.fringe with
    | none => s.settled
    | some (c, fringe) =>
      if s.settled.any fun t => t.node == c.node then searchLoop g fuel { s with fringe }
      else
        searchLoop g fuel
          ((g.row c.node).foldl (fun s a => s.relax c a)
            { s with settled := s.settled ++ [c], fringe })

def shortestPaths (g : Graph) (source : Nat) : List Candidate :=
  searchLoop g (g.arcCount + 1)
    { seen := [(source, 0)], fringe := [⟨0, 0, source, [source]⟩], count := 1 }

def distance? (g : Graph) (source target : Nat) : Option Nat :=
  ((g.shortestPaths source).find? fun c => c.node == target).map Candidate.dist

structure Link where
  fst : Nat
  snd : Nat
  dist : Nat
  path : List Nat

section Trees

variable [SetOrder]

/-- Links from the nodes in order, each to the set of the later ones. -/
def linksFrom (g : Graph) : List Nat → List Link
  | [] => []
  | u :: rest =>
    let paths := g.shortestPaths u
    ((SetOrder.arrange none rest).filterMap fun v =>
      (paths.find? fun c => c.node == v).map fun c => ⟨u, v, c.dist, c.path⟩) ++ linksFrom g rest

def links (g : Graph) : List Link :=
  g.linksFrom g.nodes

def closure (links : List Link) : Graph :=
  links.foldl (fun m l => m.addEdge l.fst l.snd l.dist) {}

def linkOf (links : List Link) (u v : Nat) : Option Link :=
  links.find? fun l => (l.fst == u && l.snd == v) || (l.fst == v && l.snd == u)

/-- Edges of a minimum spanning forest, taken in the given order. Every node carries the name of its
tree; nodes without a name are their own tree. -/
def joinTrees : List (Nat × Nat × Nat) → (Nat → Nat) → List (Nat × Nat)
  | [], _ => []
  | (u, v, _) :: rest, tree =>
    if tree u = tree v then joinTrees rest tree
    else (u, v) :: joinTrees rest fun x => if tree x = tree v then tree u else tree x

/-- Edges of a minimum spanning forest by ascending weight, ties in the order of the edges. -/
def kruskal (g : Graph) : List (Nat × Nat) :=
  joinTrees (g.weightedEdges.mergeSort fun a b => a.2.2 ≤ b.2.2) id

/-- A tree that joins the terminals; terminals that are not in the graph are left out. -/
def steinerTree (g : Graph) (terminals : List Nat) : Except Error Graph :=
  if g.adj.isEmpty then .error .noNodes
  else if !g.isConnected then .error .disconnected
  else
    let ls := g.links
    let tree := ((closure ls).subgraph terminals).kruskal
    let steps (p : List Nat) : List (Nat × Nat) := p.zip p.tail
    .ok (g.edgeSubgraph (tree.flatMap fun e =>
      ((linkOf ls e.1 e.2).map fun l => steps l.path).getD []))

end Trees

structure Offer where
  weight : Nat
  stamp : Nat
  source : Nat
  goal : Nat

def popCheapest : List Offer → Option (Offer × List Offer)
  | [] => none
  | o :: rest =>
    match popCheapest rest with
    | none => some (o, [])
    | some (p, others) =>
      if o.weight < p.weight || (o.weight == p.weight && o.stamp < p.stamp) then
        some (o, p :: others)
      else some (p, o :: others)

def offers (g : Graph) (stamp u : Nat) : List Offer :=
  ((g.row u).zipIdx stamp).map fun (a, i) => ⟨a.2, i, u, a.1⟩

def growTree (g : Graph) : Nat → List Offer → Nat → List Nat → List (Nat × Nat) →
    List Nat × List (Nat × Nat)
  | 0, _, _, seen, tree => (seen, tree)
  | fuel + 1, pending, stamp, seen, tree =>
    match popCheapest pending with
    | none => (seen, tree)
    | some (o, rest) =>
      if seen.contains o.goal then growTree g fuel rest stamp seen tree
      else
        let new := (g.offers stamp o.goal).filter fun p => !(o.goal :: seen).contains p.goal
        growTree g fuel (new ++ rest) (stamp + (g.row o.goal).length) (o.goal :: seen)
          (tree ++ [(o.source, o.goal)])

def prim (g : Graph) : List (Nat × Nat) :=
  (g.nodes.foldl
    (fun (acc : List Nat × List (Nat × Nat)) v =>
      if acc.1.contains v then acc
      else
        let first := g.offers 0 v
        growTree g (g.arcCount + 1) first first.length (v :: acc.1) acc.2) ([], [])).2

end GadgetCircuits.Graph
