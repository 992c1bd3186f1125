import GadgetCircuits.Topology.Basic

/-!
The standard families of topologies and the documents that topologies are saved as: the name of a
family member, or the number of qubits with the couplings.
-/

namespace GadgetCircuits.Topology

def positive? (v : Value) : Option Nat :=
  v.int?.bind fun n => if 0 < n then some n.toNat else none

def linePairs (n : Nat) : List (Nat × Nat) :=
  (List.range (n - 1)).map fun i => (i, i + 1)

def cyclePairs (n : Nat) : List (Nat × Nat) :=
  (List.range n).map fun i => (i, (i + 1) % n)

def completePairs (n : Nat) : List (Nat × Nat) :=
  (List.range n).flatMap fun i =>
    ((List.range n).filter fun j => i < j).map fun j => (i, j)

def gridPairs (rows cols : Nat) : List (Nat × Nat) :=
  (List.range rows).flatMap fun r => (List.range cols).flatMap fun c =>
    (if r + 1 < rows then [(cols * r + c, cols * (r + 1) + c)] else []) ++
      (if c + 1 < cols then [(cols * r + c, cols * r + (c + 1))] else [])

def periodicGridPairs (rows cols : Nat) : List (Nat × Nat) :=
  (List.range rows).flatMap fun r => (List.range cols).flatMap fun c =>
    [(cols * r + c, cols * ((r + 1) % rows) + c), (cols * r + c, cols * r + (c + 1) % cols)]

def named (name : String) (size : Nat) (pairs : List (Nat × Nat)) : Except Error Topology :=
  if pairs.any fun p => p.1 == p.2 then .error .equalQubits
  else .ok { ofPairs size pairs with name := some name }

def family₁ (label : String) (pairs : Nat → List (Nat × Nat)) (size : Value) :
    Except Error Topology :=
  match positive? size with
  | none => .error .familySize
  | some n => do
    let t ← named (label ++ "(" ++ (size.text).getD "" ++ ")") n (pairs n)
    if isBool size then throw .operands
    return t

def family₂ (label : String) (pairs : Nat → Nat → List (Nat × Nat)) (rows cols : Value) :
    Except Error Topology :=
  match positive? rows, positive? cols with
  | none, _ => .error .familyRows
  | _, none => .error .familyCols
  | some r, some c =>
    named (label ++ "(" ++ (rows.text).getD "" ++ "," ++ (cols.text).getD "" ++ ")") (r * c)
      (pairs r c)

def line (size : Value) : Except Error Topology :=
  family₁ "line" linePairs size

def cycle (size : Value) : Except Error Topology :=
  family₁ "cycle" cyclePairs size

def complete (size : Value) : Except Error Topology :=
  family₁ "complete" completePairs size

def grid (rows cols : Value) : Except Error Topology :=
  family₂ "grid" gridPairs rows cols

def periodicGrid (rows cols : Value) : Except Error Topology :=
  family₂ "periodic_grid" periodicGridPairs rows cols

def document (t : Topology) : Value :=
  match t.name with
  | some s => .str s
  | none =>
    .dict [(.str "num_qubits", .ofNat t.size), (.str "couplings", .list t.shownCouplings)]

def afterText? : List Char → List Char → Option (List Char)
  | [], s => some s
  | c :: cs, d :: s => if c == d then afterText? cs s else none
  | _ :: _, [] => none

def number? (s : List Char) : Option (Nat × List Char) :=
  let ds := s.takeWhile Char.isDigit
  if ds.isEmpty then none
  else some (ds.foldl (fun n c => 10 * n + (c.toNat - '0'.toNat)) 0, s.dropWhile Char.isDigit)

def parameter₁? (label : String) (s : List Char) : Option Nat := do
  let rest ← afterText? (label.toList ++ ['(']) s
  let (n, rest) ← number? rest
  let _ ← afterText? [')'] rest
  return n

def parameter₂? (label : String) (s : List Char) : Option (Nat × Nat) := do
  let rest ← afterText? (label.toList ++ ['(']) s
  let (r, rest) ← number? rest
  let rest ← afterText? [','] rest
  let (c, rest) ← number? rest
  let _ ← afterText? [')'] rest
  return (r, c)

def ofName (s : String) : Except Error Topology :=
  let cs := s.toList
  match parameter₁? "line" cs, parameter₁? "cycle" cs, parameter₁? "complete" cs,
      parameter₂? "grid" cs, parameter₂? "periodic_grid" cs with
  | some n, _, _, _, _ => line (.ofNat n)
  | _, some n, _, _, _ => cycle (.ofNat n)
  | _, _, some n, _, _ => complete (.ofNat n)
  | _, _, _, some (r, c), _ => grid (.ofNat r) (.ofNat c)
  | _, _, _, _, some (r, c) => periodicGrid (.ofNat r) (.ofNat c)
  | none, none, none, none, none => .error (.topologyName s)

def ofDocument (v : Value) : Except Error Topology :=
  match v with
  | .str s => ofName s
  | .dict entries =>
    match Value.get? entries "num_qubits", Value.get? entries "couplings" with
    | none, _ => .error .noSizeKey
    | _, none => .error .noCouplingsKey
    | some n, some cs => ofValues n cs
  | v =>
    match v.items? with
    | none => .error .operands
    | some items =>
      let has (k : String) := items.any fun i => i.same (.str k)
      if !has "num_qubits" then .error .noSizeKey
      else if !has "couplings" then .error .noCouplingsKey
      else .error .operands

end GadgetCircuits.Topology
