import GadgetCircuits.Error

/-!
Finite undirected graphs with weighted edges. A graph is an ordered list of nodes, each with an
ordered list of neighbours; algorithms below follow these orders. Sets have no order of their own, and some
trees are looked for by a library: both are left open and are parameters of what uses them.
-/

namespace GadgetCircuits

/-- Each node with its neighbours and the weights of the edges to them. -/
structure Graph where
  adj : List (Nat × List (Nat × Nat)) := []
  deriving DecidableEq, Repr, Inhabited

/-- The order in which a set of numbers is gone through: the neighbours of a node, or another set. It may be
any order, and need not be the same for the neighbours of two nodes. -/
class SetOrder where
  arrange : Option Nat → List Nat → List Nat
  perm : ∀ node members, (arrange node members).Perm members

/-- What is taken from a library of graphs: a tree that joins some terminals, and a spanning forest of least
weight. -/
class GraphLibrary extends SetOrder where
  steinerTree : Graph → List Nat → Except Error Graph
  spanningForest : Graph → List (Nat × Nat)

namespace Graph

def nodes (g : Graph) : List Nat :=
  g.adj.map Prod.fst

def hasNode (g : Graph) (v : Nat) : Bool :=
  g.nodes.contains v

def row (g : Graph) (v : Nat) : List (Nat × Nat) :=
  ((g.adj.find? fun r => r.1 == v).map Prod.snd).getD []

def neighbours (g : Graph) (v : Nat) : List Nat :=
  (g.row v).map Prod.fst

def hasEdge (g : Graph) (u v : Nat) : Bool :=
  (g.neighbours u).contains v

def addNode (g : Graph) (v : Nat) : Graph :=
  if g.hasNode v then g else ⟨g.adj ++ [(v, [])]⟩

/-- Sets the weight of an arc; a new arc goes to the end. -/
def putArc (arcs : List (Nat × Nat)) (v w : Nat) : List (Nat × Nat) :=
  if arcs.any fun a => a.1 == v then arcs.map fun a => if a.1 == v then (v, w) else a
  else arcs ++ [(v, w)]

def mapRow (g : Graph) (v : Nat) (f : List (Nat × Nat) → List (Nat × Nat)) : Graph :=
  ⟨g.adj.map fun r => if r.1 == v then (r.1, f r.2) else r⟩

def addEdge (g : Graph) (u v w : Nat) : Graph :=
  let g := (g.addNode u).addNode v
  (g.mapRow u fun arcs => putArc arcs v w).mapRow v fun arcs => putArc arcs u w

def setWeight? (g : Graph) (u v w : Nat) : Option Graph :=
  if g.hasEdge u v then some (g.addEdge u v w) else none

def ofEdges (nodes : List Nat) (edges : List (Nat × Nat)) : Graph :=
  edges.foldl (fun g e => g.addEdge e.1 e.2 1) (nodes.foldl addNode {})

def removeNode (g : Graph) (v : Nat) : Graph :=
  ⟨(g.adj.filter fun r => r.1 != v).map fun r => (r.1, r.2.filter fun a => a.1 != v)⟩

def edgesFrom : List (Nat × List (Nat × Nat)) → List Nat → List (Nat × Nat × Nat)
  | [], _ => []
  | r :: rest, done =>
    ((r.2.filter fun a => !done.contains a.1).map fun a => (r.1, a.1, a.2)) ++
      edgesFrom rest (r.1 :: done)

def weightedEdges (g : Graph) : List (Nat × Nat × Nat) :=
  edgesFrom g.adj []

def edges (g : Graph) : List (Nat × Nat) :=
  g.weightedEdges.map fun e => (e.1, e.2.1)

section Views

variable [SetOrder]

/-- The order in which a view shows its nodes: that of the set of them when it has less than half of all
nodes. -/
def viewOrder (chosen all : List Nat) : List Nat :=
  if 2 * chosen.length < all.length then (SetOrder.arrange none chosen).filter all.contains
  else all.filter chosen.contains

def subgraph (g : Graph) (chosen : List Nat) : Graph :=
  let chosen := (chosen.filter g.hasNode).eraseDups
  ⟨(viewOrder chosen g.nodes).map fun v => (v, (g.row v).filter fun a => chosen.contains a.1)⟩

def edgeSubgraph (g : Graph) (chosen : List (Nat × Nat)) : Graph :=
  let ends := (chosen.flatMap fun e => [e.1, e.2]).eraseDups
  let isChosen (u v : Nat) := chosen.contains (u, v) || chosen.contains (v, u)
  ⟨(viewOrder ends g.nodes).map fun v => (v, (g.row v).filter fun a => isChosen v a.1)⟩

end Views

/-- A graph built anew from its nodes and arcs, which reorders neighbours. -/
def rebuilt (g : Graph) : Graph :=
  g.adj.foldl (fun acc r => r.2.foldl (fun acc a => acc.addEdge r.1 a.1 a.2) acc)
    (g.nodes.foldl addNode {})

/-- Gives a node another name, at the end of the order. Nothing happens to a node that is not
there. -/
def relabel (g : Graph) (old new : Nat) : Graph :=
  if g.hasNode old ∧ old ≠ new then
    let arcs := g.row old
    arcs.foldl (fun acc a => acc.addEdge new (if a.1 = old then new else a.1) a.2)
      ((g.addNode new).removeNode old)
  else g

def freshNode (g : Graph) : Nat :=
  g.nodes.foldl max 0 + 1

def swapNodes (g : Graph) (u v : Nat) : Graph :=
  let aside := max g.freshNode (max u v + 1)
  ((g.relabel u aside).relabel v u).relabel aside v

/-- Tree edges of a breadth-first search from the nodes in the queue. Each node is expanded once, so
as many rounds as there are nodes suffice. -/
def bfsLoop (g : Graph) : Nat → List Nat → List Nat → List (Nat × Nat)
  | 0, _, _ => []
  | _, [], _ => []
  | fuel + 1, parent :: queue, seen =>
    let children := (g.neighbours parent).filter fun c => !seen.contains c
    children.map (fun c => (parent, c)) ++ bfsLoop g fuel (queue ++ children) (children ++ seen)

def bfsEdges (g : Graph) (source : Nat) : List (Nat × Nat) :=
  bfsLoop g g.adj.length [source] [source]

/-- Tree edges of a depth-first search. The stack holds nodes with the neighbours that are still to
be looked at; each step looks at one neighbour or drops a node. -/
def dfsLoop (g : Graph) : Nat → List (Nat × List Nat) → List Nat → List (Nat × Nat)
  | 0, _, _ => []
  | _, [], _ => []
  | fuel + 1, (_, []) :: stack, seen => dfsLoop g fuel stack seen
  | fuel + 1, (parent, c :: cs) :: stack, seen =>
    if seen.contains c then dfsLoop g fuel ((parent, cs) :: stack) seen
    else (parent, c) ::
      dfsLoop g fuel ((c, g.neighbours c) :: (parent, cs) :: stack) (c :: seen)

def arcCount (g : Graph) : Nat :=
  natSum (g.adj.map fun r => r.2.length)

def dfsEdges (g : Graph) (source : Nat) : List (Nat × Nat) :=
  dfsLoop g (g.arcCount + g.adj.length + 1) [(source, g.neighbours source)] [source]

def reach (g : Graph) (source : Nat) : List Nat :=
  source :: (g.bfsEdges source).map Prod.snd

def isConnected (g : Graph) : Bool :=
  match g.nodes with
  | [] => true
  | v :: _ => g.nodes.all (g.reach v).contains

def isCut (g : Graph) (v : Nat) : Bool :=
  match g.neighbours v with
  | [] => false
  | a :: rest => !(rest.all ((g.removeNode v).reach a).contains)

def componentRoots (g : Graph) : List Nat :=
  (g.nodes.foldl
    (fun (acc : List Nat × List Nat) v =>
      if acc.2.contains v then acc else (acc.1 ++ [v], g.reach v ++ acc.2)) ([], [])).1

def hops? (g : Graph) (source target : Nat) : Option Nat :=
  let depth (acc : List (Nat × Nat)) (e : Nat × Nat) : List (Nat × Nat) :=
    (e.2, ((acc.find? fun d => d.1 == e.1).map Prod.snd).getD 0 + 1) :: acc
  (((g.bfsEdges source).foldl depth [(source, 0)]).find? fun d => d.1 == target).map Prod.snd

def hops (g : Graph) (source target : Nat) : Except Error Nat :=
  if !(g.hasNode source && g.hasNode target) then .error .missingNode
  else
    match g.hops? source target with
    | some d => .ok d
    | none => .error .noRoute

end Graph

end GadgetCircuits
