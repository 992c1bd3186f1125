import GadgetCircuits.Topology.Routes

/-!
Ladders of CX gates. A ladder gathers the parity of some legs on one of them: the legs are joined by
a minimum spanning tree, and each branch of the tree is a CX gate that is routed between its ends.
-/

namespace GadgetCircuits.Ladder

/-- Gates that move the value of `prev` along a route, one pair for each stop. -/
def carry {α : Type} (prev : α) : List α → List (α × α)
  | [] => []
  | q :: qs => (q, prev) :: (prev, q) :: carry q qs

/-- The gates of one branch along a route between its ends, both of them on the route. A route
without a step has no gate to end with. -/
def branch {α : Type} (ctrl trg : α) (route : List α) : Except Error (List (α × α)) :=
  match (ctrl :: route.tail.dropLast).getLast?, route with
  | some last, _ :: _ :: _ =>
    .ok (carry ctrl route.tail.dropLast ++ [(last, trg)]).reverse
  | _, _ => .error .outOfRange

/-- The cost of a branch, in gates of the ladder and of its inverse. Qubits that are not connected
cost more than any others. -/
def cost (r : Routes) (i j : Nat) : Nat :=
  match r.distance i j with
  | some d => 4 * d - 2
  | none => 4 * (r.size + 1)

def legs (column : List Bool) : List Nat :=
  (List.range column.length).filter fun i => (column[i]?).getD false

def branches (t : Topology) (column : List Bool) : Except Error Graph := do
  let r := t.routes
  let nodes : Graph := (List.range column.length).foldl Graph.addNode {}
  let ls := legs column
  let pairs := ls.flatMap fun i => (ls.filter fun j => j != i).map fun j => (i, j)
  pairs.foldlM
    (fun (g : Graph) (p : Nat × Nat) => do
      let _ ← t.distanceOf (.ofNat p.1) (.ofNat p.2)
      return g.addEdge p.1 p.2 (cost r p.1 p.2)) nodes

def neighbours (tree : List (Nat × Nat)) (q : Nat) : List Nat :=
  (tree.filterMap fun e => if e.1 = q then some e.2 else if e.2 = q then some e.1 else none).eraseDups

/-- The branches of a tree from one leg outwards, with the outer end first. -/
def outwards [SetOrder] (tree : List (Nat × Nat)) : Nat → List Nat → List Nat → List (Nat × Nat)
  | 0, _, _ => []
  | _, [], _ => []
  | fuel + 1, q :: queue, seen =>
    let heads := (SetOrder.arrange (some q) (neighbours tree q)).filter fun h =>
      !(q :: seen).contains h
    heads.map (fun h => (h, q)) ++ outwards tree fuel (queue ++ heads) (q :: seen)

/-- The ladder of a column and the leg on which the parity is gathered. -/
def ofColumn [GraphLibrary] (t : Topology) (column : List Bool) :
    Except Error (List (Nat × Nat) × Nat) := do
  let tree := GraphLibrary.spanningForest (← branches t column)
  if column.isEmpty then throw .emptyChoice
  let root := ((legs column).head?).getD 0
  let r := t.routes
  let parts ← (outwards tree (column.length + 1) [root] []).mapM fun e => do
    branch e.1 e.2 (← r.route e.1 e.2)
  return (parts.flatten, root)

def ofIntegers [GraphLibrary] (t : Topology) (column : List Int) :
    Except Error (List (Nat × Nat) × Nat) :=
  if column.all fun k => k == 0 || k == 1 then ofColumn t (column.map (· == 1))
  else .error (.pauli (.notBinary column))

end GadgetCircuits.Ladder
