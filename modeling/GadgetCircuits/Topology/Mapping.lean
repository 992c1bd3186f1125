import GadgetCircuits.Topology.Basic

/-!
Renaming qubits. A mapping is a sequence or a dictionary; its values have to be exactly the qubits.
-/

namespace GadgetCircuits

namespace Value

/-- Values in ascending order. Only numbers can be sorted together, or only texts. -/
def sorted (vs : List Value) : Except Error (List Value) :=
  let texts := vs.filterMap fun v => match v with | .str s => some s | _ => none
  let numbers := vs.filterMap fun v => (v.rat?).map fun q => (q, v)
  if vs.length ≤ 1 then .ok vs
  else if texts.length = vs.length then
    .ok ((texts.mergeSort fun a b => !(b < a)).map .str)
  else if numbers.length = vs.length then
    .ok ((numbers.mergeSort fun a b => decide (a.1 ≤ b.1)).map Prod.snd)
  else .error .operands

def distinct : List Value → List Value
  | [] => []
  | v :: vs => v :: (distinct vs).filter fun w => !v.same w

def isHashable : Value → Bool
  | .list _ => false
  | .dict _ => false
  | _ => true

/-- Whether the values are exactly `0, …, n - 1`, in any order and with repetitions. -/
def coversRange (n : Nat) (vs : List Value) : Except Error Bool :=
  if vs.all isHashable then
    .ok ((vs.all fun v => (List.range n).any fun i => v.same (.ofNat i)) &&
      (List.range n).all fun i => vs.any fun v => v.same (.ofNat i))
  else .error .operands

end Value

namespace QubitMapping

def entry? (entries : List (Value × Value)) (i : Nat) : Option Value :=
  (entries.find? fun e => e.1.same (.ofNat i)).map Prod.snd

/-- The images of `0, …, n - 1`: all items of a sequence that is long enough, or the entries of a
dictionary. -/
def images (n : Nat) (mapping : Value) (orNone : Bool) : Except Error (List Value) :=
  match mapping with
  | .dict entries =>
    (List.range n).mapM fun i =>
      match entry? entries i with
      | some v => .ok v
      | none => do throw (.mappingKeys n (← Value.sorted (entries.map Prod.fst)))
  | mapping =>
    match mapping.sequence? with
    | some items =>
      if items.length < n then do throw (.mappingKeys n (← Value.sorted items)) else .ok items
    | none => .error (.mappingType mapping orNone)

def check (n : Nat) (mapping : Value) (orNone : Bool) : Except Error (List Value) := do
  let vs ← images n mapping orNone
  if ← Value.coversRange n vs then return vs
  throw (.mappingValues n (← Value.sorted vs))

end QubitMapping

namespace Topology

/-- Renames the ends of all couplings. The images of two ends may coincide only if a sequence has
more items than there are qubits, and then they are no pair. -/
def renamed (t : Topology) (image : Nat → Value) : Except Error Topology := do
  let pairs ← t.couplings.mapM fun c =>
    if (image c.1).same (image c.2) then
      throw (.notCouplingPair ((image c.1).literal.map fun s => "\x7b" ++ s ++ "\x7d"))
    else Coupling.check t.size (.tuple [image c.1, image c.2])
  return ofChecked t.size pairs

def mapForward (t : Topology) (mapping : Value) : Except Error Topology := do
  let vs ← QubitMapping.check t.size mapping false
  t.renamed fun q => vs[q]?.getD .null

def itemAt (items : List Value) (i : Value) : Except Error Value :=
  match i.int? with
  | none => .error .operands
  | some n =>
    let k := if n < 0 then n + items.length else n
    if 0 ≤ k && k < items.length then .ok (items[k.toNat]?.getD .null) else .error .outOfRange

/-- The pairs of a value and what is sent to it. Those of a sequence are found by following its
items as indices. -/
def inversePairs (n : Nat) (mapping : Value) : Except Error (List (Value × Value)) :=
  match mapping with
  | .dict entries => do
    let vs ← QubitMapping.images n (.dict entries) false
    return vs.zipIdx.map fun (v, i) => (v, .ofNat i)
  | mapping =>
    match mapping.sequence? with
    | some items =>
      if items.length < n then do throw (.mappingKeys n (← Value.sorted items))
      else items.mapM fun i => do return (← itemAt items i, i)
    | none => .error (.mappingType mapping false)

def mapBackward (t : Topology) (mapping : Value) : Except Error Topology := do
  let pairs ← inversePairs t.size mapping
  let keys := pairs.map Prod.fst
  if ← Value.coversRange t.size keys then
    t.renamed fun q =>
      ((pairs.reverse.find? fun p => p.1.same (.ofNat q)).map Prod.snd).getD .null
  else throw (.mappingValues t.size (← Value.sorted (Value.distinct keys)))

end Topology

end GadgetCircuits
