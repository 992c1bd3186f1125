import GadgetCircuits.Graph.Basic
import GadgetCircuits.Value.Arithmetic

/-!
Qubit topologies: a number of qubits and the couplings between them. A coupling is an unordered pair of
distinct qubits, written with the smaller one first. Couplings are kept sorted and
without repetition, so two topologies are equal iff their data are.
-/

namespace GadgetCircuits

namespace Coupling

def ordered (a b : Nat) : Nat × Nat :=
  if a < b then (a, b) else (b, a)

def orderedValues (a b : Value) : Value × Value :=
  match a.int?, b.int? with
  | some m, some n => if m < n then (a, b) else (b, a)
  | _, _ => (a, b)

def ofValues (a b : Value) : Except Error (Value × Value) :=
  match a.int?, b.int? with
  | none, _ => .error (.notInteger a)
  | _, none => .error (.notInteger b)
  | some m, some n =>
    if m = n then .error .equalQubits else .ok (orderedValues a b)

def valueText (c : Value × Value) : String :=
  "\x7b" ++ c.1.text.getD "" ++ ", " ++ c.2.text.getD "" ++ "\x7d"

def valueCode (c : Value × Value) : String :=
  "Coupling(" ++ c.1.text.getD "" ++ ", " ++ c.2.text.getD "" ++ ")"

def text (c : Nat × Nat) : String :=
  "\x7b" ++ toString c.1 ++ ", " ++ toString c.2 ++ "\x7d"

/-- Whether a number is a qubit of `n`; what is not a number cannot be compared. -/
def isQubit (n : Nat) (v : Value) : Except Error Bool :=
  match v.rat? with
  | some q => .ok (0 ≤ q && q < (n : Rat))
  | none => .error .operands

def check (n : Nat) (v : Value) : Except Error (Value × Value) :=
  match v.collection? with
  | some [a, b] => do
    if !(← isQubit n a) then throw (.invalidQubit a)
    if !(← isQubit n b) then throw (.invalidQubit b)
    ofValues a b
  | _ => .error (.notCouplingPair v.text)

def toNats (c : Value × Value) : Nat × Nat :=
  (((c.1.int?).getD 0).toNat, ((c.2.int?).getD 0).toNat)

end Coupling

/-- Qubits `0, …, size - 1` and couplings, each with its smaller qubit first. Topologies of the
standard families carry a name. Couplings whose ends were given by truth values are shown as they were
spelled. -/
structure Topology where
  size : Nat
  couplings : List (Nat × Nat)
  name : Option String := none
  spelled : List ((Nat × Nat) × (Value × Value)) := []
  deriving Inhabited

def pairLe (a b : Nat × Nat) : Bool :=
  a.1 < b.1 || (a.1 == b.1 && a.2 ≤ b.2)

def sortPairs (ps : List (Nat × Nat)) : List (Nat × Nat) :=
  (ps.mergeSort pairLe).eraseDups

namespace Topology

def ofPairs (size : Nat) (pairs : List (Nat × Nat)) : Topology where
  size := size
  couplings := sortPairs (pairs.map fun p => Coupling.ordered p.1 p.2)

def qubits (t : Topology) : List Nat :=
  List.range t.size

def hasQubit (t : Topology) (q : Nat) : Bool :=
  q < t.size

def hasCoupling (t : Topology) (a b : Nat) : Bool :=
  t.couplings.contains (Coupling.ordered a b)

/-- Equality of qubits and couplings; names do not count. -/
def same (t u : Topology) : Bool :=
  t.size == u.size && t.couplings == u.couplings

def adjacent (t : Topology) (q : Nat) : List Nat :=
  t.qubits.filter fun r => r != q && t.hasCoupling q r

def toGraph (t : Topology) : Graph :=
  Graph.ofEdges t.qubits t.couplings

def isBool : Value → Bool
  | .bool _ => true
  | _ => false

/-- A topology from checked couplings. The first of several spellings of a coupling is shown. -/
def ofChecked (size : Nat) (pairs : List (Value × Value)) : Topology :=
  let odd := (pairs.filter fun c => isBool c.1 || isBool c.2).filter fun c =>
    (pairs.find? fun d => Coupling.toNats d == Coupling.toNats c).any fun d =>
      isBool d.1 || isBool d.2
  { ofPairs size (pairs.map Coupling.toNats) with
    spelled := odd.map fun c => (Coupling.toNats c, c) }

/-- A topology from any values: a positive number of qubits and a collection of pairs. Tables of
distances cannot have a truth value as their size. -/
def ofValues (size couplings : Value) : Except Error Topology :=
  match size.int? with
  | none => .error .topologySize
  | some n =>
    if n ≤ 0 then .error .topologySize
    else
      match couplings.collection? with
      | none => .error .couplingsType
      | some items => do
        let pairs ← items.mapM (Coupling.check n.toNat)
        if isBool size then throw .operands
        return ofChecked n.toNat pairs

def shownEnds (t : Topology) (c : Nat × Nat) : Value × Value :=
  ((t.spelled.find? fun e => e.1 == c).map Prod.snd).getD (.ofNat c.1, .ofNat c.2)

def shownCouplings (t : Topology) : List Value :=
  t.couplings.map fun c => .list [(t.shownEnds c).1, (t.shownEnds c).2]

def text (t : Topology) : String :=
  if t.couplings.isEmpty then
    "Topology(\x7b" ++ ", ".intercalate (t.qubits.map toString) ++ "\x7d)"
  else
    "Topology(" ++ toString t.size ++ ", [" ++
      ", ".intercalate (t.couplings.map fun c => Coupling.valueText (t.shownEnds c)) ++ "])"

def qubitOf (t : Topology) (v : Value) : Option Nat :=
  v.int?.bind fun n => if 0 ≤ n && n < t.size then some n.toNat else none

def checkQubit (t : Topology) (v : Value) : Except Error Nat :=
  match v.int?, t.qubitOf v with
  | none, _ => .error .qubitType
  | _, none => .error (.noSuchQubit v)
  | _, some q => .ok q

def adjacentTo (t : Topology) (v : Value) : Except Error (List Nat) :=
  (t.checkQubit v).map t.adjacent

def hasCouplingOf (t : Topology) (a b : Value) : Except Error Bool := do
  let c ← Coupling.ofValues a b
  match c.1.int?, c.2.int? with
  | some m, some n => return 0 ≤ m && 0 ≤ n && t.hasCoupling m.toNat n.toNat
  | _, _ => return false

def contains (t : Topology) (v : Value) : Except Error Bool :=
  match v with
  | .tuple [a, b] =>
    if a.int?.isSome && b.int?.isSome then t.hasCouplingOf a b
    else .error (.notQubitOrCoupling v)
  | v =>
    match v.int? with
    | some n => .ok (0 ≤ n && n < t.size)
    | none => .error (.notQubitOrCoupling v)

end Topology

end GadgetCircuits
