import GadgetCircuits.Session.Script
import GadgetCircuits.Tableau.Synthesis

/-!
Sessions on named tableaux, which may share their arrays, and on graphs of qubits.
-/

namespace GadgetCircuits

structure TableauRef where
  n : Nat
  grid : Nat
  signs : Nat

structure TableauStore where
  grids : Array (Width × List (List Int)) := #[]
  signs : Array (Width × List Int) := #[]
  named : Named TableauRef := []

namespace TableauStore

def load (s : TableauStore) (r : TableauRef) : Tableau :=
  let (rowWidth, rows) := (s.grids[r.grid]?).getD default
  let (signWidth, signs) := (s.signs[r.signs]?).getD default
  { n := r.n, rows, signs, rowWidth, signWidth }

def save (s : TableauStore) (r : TableauRef) (t : Tableau) : TableauStore :=
  { s with
    grids := s.grids.setIfInBounds r.grid (t.rowWidth, t.rows)
    signs := s.signs.setIfInBounds r.signs (t.signWidth, t.signs) }

def define (s : TableauStore) (name : Value) (t : Tableau) : TableauStore :=
  { grids := s.grids.push (t.rowWidth, t.rows)
    signs := s.signs.push (t.signWidth, t.signs)
    named := s.named.put name ⟨t.n, s.grids.size, s.signs.size⟩ }

end TableauStore

def Report.digits (r : List Int) : String :=
  String.join (r.map toString)

def Report.tableau (t : Tableau) : Report :=
  .record [("rows", .texts (t.rows.map digits)), ("signs", .value (.list (t.signs.map .int)))]

namespace Read

def width (v : Value) : Except Error Width :=
  match v with
  | .str "uint8" | .null => .ok .byte
  | .str "int64" => .ok .wide
  | _ => .error .operands

def stored (w : Width) (v : Value) : Except Error Int :=
  match v with
  | .float x => Value.truncate x
  | .str s =>
    match Numeral.int? s.toList with
    | some n => if w.holds n then .ok n else .error .tooLarge
    | none => .error .unreadable
  | v =>
    match v.int? with
    | some n => if w.holds n then .ok n else .error .tooLarge
    | none => .error (match v with | .list _ => .unreadable | _ => .operands)

def storedRow (w : Width) (v : Value) : Except Error (List Int) :=
  match v with
  | .list vs => if vs.any fun x => x.items?.isSome then .error .tableauShape else vs.mapM (stored w)
  | _ => .error .tableauShape

def storedRows (w : Width) (v : Value) : Except Error (List (List Int)) := do
  match v with
  | .list [] => throw .tableauShape
  | .list vs =>
    if vs.all fun r => r.items?.isSome then
      let rows ← vs.mapM (storedRow w)
      if rows.all fun r => r.length = (rows.headD []).length then return rows else throw .unreadable
    else if vs.any fun r => r.items?.isSome then throw .unreadable
    else throw .tableauShape
  | _ => throw .tableauShape

def tableauSize (v : Value) : Except Error Nat :=
  match v.int? with
  | some n => if n < 0 then .error .shape else .ok n.toNat
  | none => .error .operands

def tableauStep (name : String) (args : List Value) : Update Tableau Unit :=
  match name, args with
  | "append_h", [q] => Tableau.hAt q
  | "append_s", [q] => Tableau.sAt q
  | "append_cnot", [c, t] => Tableau.cxAt c t
  | "prepend_h", [q] => Tableau.hBefore q
  | "prepend_s", [q] => Tableau.sBefore q
  | "prepend_cnot", [c, t] => Tableau.cxBefore c t
  | "_xor_row", [i, j] => Tableau.xorRows i j
  | "append_h", _ | "append_s", _ | "append_cnot", _ | "prepend_h", _ | "prepend_s", _
  | "prepend_cnot", _ | "_xor_row", _ => throw .arguments
  | _, _ => throw .noAttribute

def tableau (size gates : Value) : Except Error Tableau := do
  let n ← tableauSize size
  gates.listItems.foldlM
    (fun t g =>
      match g with
      | .list (.str name :: args) =>
        match (tableauStep name args).runFrom t with
        | (.ok (), t) => .ok t
        | (.error e, _) => .error e
      | _ => .error .unreadable) (Tableau.identity n)

end Read

namespace Session

def node (v : Value) : Nat :=
  match v.int? with
  | some n => if 0 ≤ n then n.toNat else 1000000007
  | none => 1000000007

def nodeList : Value → Except Error (List Nat)
  | .list vs => .ok (vs.map node)
  | .null => .ok []
  | _ => .error .operands

abbrev TableauScript := Script TableauStore

def loadTableau (name : Value) : TableauScript (TableauRef × Tableau) := do
  let s ← Script.state
  let r ← s.named.find name
  return (r, s.load r)

def defineTableau (name : Value) (t : Tableau) : TableauScript Report := do
  Script.setState ((← Script.state).define name t)
  return .done

def changeTableau (name : Value) (x : Update Tableau Unit) : TableauScript Report := do
  let (r, t) ← loadTableau name
  let (result, t) := x.runFrom t
  Script.setState ((← Script.state).save r t)
  Update.check result
  return .done

def separateSigns (name : Value) : TableauScript Unit := do
  let s ← Script.state
  let r ← s.named.find name
  Script.setState
    { s with
      signs := s.signs.push ((s.signs[r.signs]?).getD default)
      named := s.named.put name { r with signs := s.signs.size } }

def insertRow (name pauli sign i : Value) : TableauScript Report := do
  let p ← Read.storedRow .byte pauli
  let (r, t) ← loadTableau name
  let k ← t.rowAt i
  let (result, t) := (Tableau.insertRow k p (Tableau.entry t.signs k)).runFrom t
  Script.setState ((← Script.state).save r t)
  Update.check result
  let value ← Read.stored t.signWidth sign
  Script.setState ((← Script.state).save r { t with signs := t.signs.set k value })
  return .done

def tableTexts (t : Tableau) (given : List (String × Value)) : Except Error String := do
  match ← Param.bind [.optional "sep" (.str " "), .optional "sign_sep" (.str "| ")] [] given with
  | [.str sep, .str signSep] => t.table sep signSep
  | [_, _] => if t.n = 0 then return "" else throw .operands
  | _ => throw .arguments

def tableauCommand (v : Value) : TableauScript Report := do
  match v with
  | .list [.str "new", name, n] => defineTableau name (Tableau.identity (← Read.tableauSize n))
  | .list [.str "matrix", name, rows, signs, dtype] =>
    let w ← Read.width dtype
    let rows ← Read.storedRows w rows
    let signs ← Read.storedRow w signs
    defineTableau name (← Tableau.ofArrays w w rows signs)
  | .list [.str "import", name, n, rows, signs, dtype] =>
    let w ← Read.width dtype
    let rows ← Read.storedRows w rows
    let signs ← Read.storedRow w signs
    defineTableau name { n := ← Read.tableauSize n, rows, signs, rowWidth := w, signWidth := w }
  | .list [.str "share", src, dst] =>
    let (r, t) ← loadTableau src
    let shared ← Tableau.ofArrays t.rowWidth t.signWidth t.rows t.signs
    let s ← Script.state
    Script.setState { s with named := s.named.put dst { r with n := shared.n } }
    return .done
  | .list [.str "inverse", src, dst] =>
    let (_, t) ← loadTableau src
    defineTableau dst (← t.inverse)
  | .list [.str "apply", a, b, dst] =>
    let (_, s) ← loadTableau a
    let (_, t) ← loadTableau b
    defineTableau dst (← s.apply t)
  | .list [.str "str", name] => return .text (← (← loadTableau name).2.table " " "| ")
  | .list [.str "string_repr", name, given] =>
    return .text (← tableTexts (← loadTableau name).2 given.named)
  | .list [.str "x_out", name, i, j] => return .int (← (← loadTableau name).2.xOut i j)
  | .list [.str "z_out", name, i, j] => return .int (← (← loadTableau name).2.zOut i j)
  | .list [.str "insert", name, pauli, sign, i] => insertRow name pauli sign i
  | .list (.str "prepend_cnot" :: name :: args) =>
    if args.length = 2 then separateSigns name
    changeTableau name (Read.tableauStep "prepend_cnot" args)
  | .list (.str step :: name :: args) => changeTableau name (Read.tableauStep step args)
  | _ => throw .unreadable

def tableauView (s : TableauStore) : Report :=
  .record (s.named.map fun e => (e.1, .tableau (s.load e.2)))

def tableau (v : Value) : Script Unit Report :=
  Script.inside ({} : TableauStore) do
    return .list (← Script.eachWithState tableauCommand tableauView (v.field "ops").listItems)

def rowHalves (n : Value) (p : List Int) : Except Error (List Int × List Int) := do
  match ← Slice.bound? n with
  | none => return (p, p)
  | some k =>
    let i := (Slice.clamp p.length 0 p.length k).toNat
    return (p.take i, p.drop i)

def pauliProduct (v : Value) : Except Error Report := do
  let w ← Read.width (v.field "dtype")
  let p ← Read.storedRow w (v.field "p1")
  let q ← Read.storedRow w (v.field "p2")
  let n := v.field "n"
  let (r, turned) ← Tableau.multiply (← rowHalves n p) (← rowHalves n q)
  let signs ← (v.field "s1").add (v.field "s2")
  let sign ← (← signs.add (.int (if turned then 1 else 0))).mod (.int 4)
  return .record [("pauli", .value (.list (r.map .int))), ("sign", .value sign)]

def synthesizeTableau (v : Value) : Except Error Report := do
  let topology ← Read.plainTopology (v.field "topo")
  let t ← Read.tableau (v.field "n") (v.field "gates")
  let swaps := ((v.field? "include_swaps").getD (.bool true)).truthy
  let (c, permutation) ← t.synthesize topology swaps
  return .record [("circuit", .text (c.text.getD "")), ("permutation", .nats permutation)]

def exchangedEdges (v : Value) : Except Error Report := do
  let number (v : Value) : Except Error Int :=
    match v.int? with
    | some n => .ok n
    | none => .error .operands
  let edges ← (v.field "dfs").listItems.mapM fun e =>
    match e with
    | .list [a, b] => do return (← number a, ← number b)
    | _ => .error .unreadable
  let parent ← number (v.field "parent")
  let child ← number (v.field "child")
  return .list ((Graph.exchangeIn edges parent child).map fun e => .list [.int e.1, .int e.2])

def markOf (lookup : List Value) (q : Nat) : Option Int :=
  (lookup[q]?).map fun v => if v.same (.int 0) then 0 else if v.same (.int 1) then 1 else 2

def swapRules (options : Value) : Except Error (Option Placement.SwapRules) := do
  let option (key : String) : Value := options.field key
  if !(option "include_swaps").truthy then return none
  let .list lookup := option "lookup" | throw (.swapsNeed "Lookup table is")
  let free ←
    match option "swappable_nodes" with
    | .null => .error (.swapsNeed "Swappable nodes are")
    | v => nodeList v
  if !(option "perm").isTrue then throw (.swapsNeed "Permutation is")
  match option "n_qubits" with
  | .null => throw (.swapsNeed "Number of qubits is")
  | n =>
    match n.int? with
    | some k => return some { mark := markOf lookup, free, rounds := k.toNat }
    | none => throw .operands

def treeCommand (v : Value) : Script Placement Report := do
  let g := (← Script.state).graph
  match v with
  | .list [.str "relabel", a, b] =>
    Script.step (Placement.exchangeNodes (node a) (node b))
    return .done
  | .list [.str "cutting", q] => return .bool (g.isCut (node q))
  | .list [.str "remove", q] =>
    if !g.hasNode (node q) then throw .unknownNode
    Script.setState { (← Script.state) with graph := g.removeNode (node q) }
    return .done
  | .list [.str "non_cutting", pivot, free] =>
    return .nat (← g.nearestRemovable (node pivot) (← nodeList free))
  | .list [.str "heuristic", row, n, gates] =>
    return .nat (← (← Read.tableau n gates).reachCost g (node row))
  | .list [.str "pivot", n, gates, free, swaps] =>
    let t ← Read.tableau n gates
    let q ← t.pivot g (← nodeList free) swaps.truthy
    return .nats [q, q]
  | .list [.str "steiner", root, nodes] => steiner root nodes .null
  | .list [.str "steiner", root, nodes, options] => steiner root nodes options
  | _ => throw .unreadable
where
  steiner (root nodes options : Value) : Script Placement Report := do
    let ns ← nodeList nodes
    let edges ← Script.step (Placement.treeEdges (node root) ns (swapRules options))
    return .pairsInOrder edges

def placementView (command : Report × Placement) : Report :=
  let (r, s) := command
  .record [("result", r),
    ("graph", .list (s.graph.adj.map fun (q, arcs) => .list [.nat q, .nats (arcs.map Prod.fst)])),
    ("permutation", .nats s.permutation)]

def tree (v : Value) : Script Unit Report := do
  let t ← Read.plainTopology (v.field "topo")
  let graph ← (v.field "weights").listItems.foldlM
    (fun (g : Graph) e => do
      match e with
      | .list [a, b, w] =>
        match g.setWeight? (node a) (node b) (node w) with
        | some g => return g
        | none => throw .noKey
      | _ => throw .unreadable) t.toGraph
  Script.inside ({ graph, permutation := List.range t.size } : Placement) do
    let steps ← (v.field "ops").listItems.mapM fun c => do
      let r ← Script.orError (treeCommand c)
      return placementView (r, ← Script.state)
    return .list steps

end Session

end GadgetCircuits
