import GadgetCircuits.Graph.Basic

/-!
Planarity by left-right partitions: a graph is planar iff the back edges of a depth-first search can be put
on two sides such that, for any two edges out of a node, those that return above the lowest point of the
other edge are all on one side, and on different sides for the two edges.
-/

namespace GadgetCircuits.Graph

structure TreeNode where
  node : Nat
  parent : Nat
  depth : Nat

def searchTree (g : Graph) (root : Nat) : List TreeNode :=
  (g.dfsEdges root).foldl
    (fun acc e =>
      let above := ((acc.find? fun t => t.node == e.1).map TreeNode.depth).getD 0
      acc ++ [⟨e.2, e.1, above + 1⟩]) [⟨root, root, 0⟩]

def depthIn (tree : List TreeNode) (v : Nat) : Nat :=
  ((tree.find? fun t => t.node == v).map TreeNode.depth).getD 0

def parentIn (tree : List TreeNode) (v : Nat) : Nat :=
  ((tree.find? fun t => t.node == v).map TreeNode.parent).getD v

def backEdges (g : Graph) (tree : List TreeNode) : List (Nat × Nat) :=
  (tree.flatMap fun t => (g.neighbours t.node).map fun u => (t.node, u)).filter fun e =>
    depthIn tree e.2 < depthIn tree e.1 && parentIn tree e.1 != e.2

def ancestors (tree : List TreeNode) : Nat → Nat → List Nat
  | 0, v => [v]
  | fuel + 1, v => if parentIn tree v = v then [v] else v :: ancestors tree fuel (parentIn tree v)

/-- For every edge out of `v` the back edges that it leads to and that end below `v`. -/
def returns (g : Graph) (tree : List TreeNode) (v : Nat) : List (List (Nat × Nat)) :=
  let back := g.backEdges tree
  let own := (back.filter fun e => e.1 == v).map fun e => [e]
  let children := (tree.filter fun t => t.parent == v && t.node != v).map TreeNode.node
  let below := children.map fun c =>
    back.filter fun e =>
      (ancestors tree tree.length e.1).contains c && depthIn tree e.2 < depthIn tree v
  own ++ below

def lowPoint (tree : List TreeNode) (v : Nat) (es : List (Nat × Nat)) : Nat :=
  es.foldl (fun d e => min d (depthIn tree e.2)) (depthIn tree v)

/-- Two back edges that have to be on one side, or on different sides. -/
structure SideRule where
  fst : Nat × Nat
  snd : Nat × Nat
  together : Bool

def rulesOf (tree : List TreeNode) (v : Nat) : List (List (Nat × Nat)) → List SideRule
  | [] => []
  | es :: rest =>
    (rest.flatMap fun fs =>
      let a := es.filter fun e => lowPoint tree v fs < depthIn tree e.2
      let b := fs.filter fun e => lowPoint tree v es < depthIn tree e.2
      (a.zip a.tail).map (fun p => ⟨p.1, p.2, true⟩) ++
        (b.zip b.tail).map (fun p => ⟨p.1, p.2, true⟩) ++
        (match a, b with
          | x :: _, y :: _ => [⟨x, y, false⟩]
          | _, _ => [])) ++ rulesOf tree v rest

/-- The group of a back edge and its side in the group; at first each is its own group. -/
def sideOf (sides : List ((Nat × Nat) × ((Nat × Nat) × Bool))) (e : Nat × Nat) :
    (Nat × Nat) × Bool :=
  ((sides.find? fun s => s.1 == e).map Prod.snd).getD (e, false)

/-- Applies a rule by joining two groups, or finds that it cannot be kept. -/
def applyRule (sides : List ((Nat × Nat) × ((Nat × Nat) × Bool))) (r : SideRule) :
    Option (List ((Nat × Nat) × ((Nat × Nat) × Bool))) :=
  let (g₁, s₁) := sideOf sides r.fst
  let (g₂, s₂) := sideOf sides r.snd
  if g₁ == g₂ then if (s₁ == s₂) == r.together then some sides else none
  else
    let flip := (s₁ == s₂) != r.together
    some (sides.map fun s =>
      if s.2.1 == g₂ then (s.1, (g₁, s.2.2 != flip)) else s)

def treeIsPlanar (g : Graph) (root : Nat) : Bool :=
  let tree := g.searchTree root
  let sides := (g.backEdges tree).map fun e => (e, (e, false))
  let rules := tree.flatMap fun t => rulesOf tree t.node (g.returns tree t.node)
  (rules.foldlM applyRule sides).isSome

/-- Whether a graph can be drawn in the plane without crossings. A planar graph on `n ≥ 3` nodes has
at most `3n - 6` edges. -/
def isPlanar (g : Graph) : Bool :=
  let n := g.adj.length
  let m := g.edges.length
  (n < 3 || m + 6 ≤ 3 * n) && g.componentRoots.all g.treeIsPlanar

end GadgetCircuits.Graph
