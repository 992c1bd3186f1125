import GadgetCircuits.Annealing.Schedule
import GadgetCircuits.Draws
import GadgetCircuits.Pauli.Pool

/-!
Simulated annealing of Pauli polynomials: random gates are moved through a polynomial and gathered in
a region when they save CX gates, or by chance.
-/

namespace GadgetCircuits

namespace CliffordGate

def below (n : Value) : Except Error (List Nat) :=
  match n.int? with
  | some n => .ok (List.range n.toNat)
  | none => .error .operands

def random (kind : CliffordKind) (n : Value) : Update Draws (CliffordGate Nat) := do
  let qubits ← below n
  let q ← Draws.choose qubits
  match kind with
  | .one g => return .one g q
  | .two g => return .two g (← Draws.choose (qubits.filter (· != q))) q

def randomOf (kind : CliffordKind ⊕ Value) (n : Value) : Update Draws (CliffordGate Nat) := do
  match kind with
  | .inl k => random k n
  | .inr v =>
    let _ ← Draws.choose (← below n)
    throw (.pauli (.cliffordType v))

def entangling : List (CliffordKind ⊕ Value) :=
  [.inl (.two .cx), .inl (.two .cy), .inl (.two .cz)]

def pick (kinds : List (CliffordKind ⊕ Value)) (n : Value) : Update Draws (CliffordGate Nat) := do
  randomOf (← Draws.choose kinds) n

end CliffordGate

namespace PauliAnnealing

structure State where
  pool : PauliPool
  draws : Draws
  region : CliffordRegion
  cache : CountCache := []

def State.start (pool : PauliPool) (draws : Draws) (p : Nat) : State :=
  { pool, draws, region := { size := (pool.shared p).size } }

def drawing {α : Type} (x : Update Draws α) : Update State α :=
  x.within State.draws fun draws s => { s with draws }

def counting {α : Type} (x : Update CountCache α) : Update State α :=
  x.within State.cache fun cache s => { s with cache }

def onPool {α : Type} (x : Update PauliPool α) : Update State α :=
  x.within State.pool fun pool s => { s with pool }

def weight (effect : Int) (t : Temperature) : Except Error (Float × Float) := do
  let x := -(Float.log 2.0) * Binary.ofInt effect
  match t with
  | .real v => return (Float.exp (x / (← v.toFloat)), 0.0)
  | .complex re im =>
    let len := re * re + im * im
    let a := x * re / len
    let b := -(x * im) / len
    return (Float.exp a * Float.cos b, Float.exp a * Float.sin b)

/-- Gates that save something are accepted, others by chance. -/
def accepts (effect : Int) (t : Temperature) (u : Float) : Except Error Bool := do
  if effect < 0 then return true
  let (re, im) ← weight effect t
  return u < re || (u == re && 0.0 < im)

def accept (p : Nat) (gate : CliffordItem) : Update State Unit := do
  let s ← get
  let region ← s.region.add gate
  set { s with region }
  let _ ← onPool (PauliPool.propagate p gate)

def step [GraphLibrary] (topology : Topology) (p : Nat) (t : Temperature) (u : Float) :
    Update State Unit := do
  let pool := (← get).pool
  let gate ← drawing (CliffordGate.pick CliffordGate.entangling (pool.shared p).size)
  let gate := CliffordItem.gate (gate.map .ofNat)
  let change ← counting ((pool.view p).effect topology gate)
  if ← accepts (2 + change) t u then
    accept p gate

def chances (count : Value) : Update State (List Float) := do
  match count.int? with
  | none => throw .operands
  | some n =>
    if n < 0 then throw .emptyChoice
    drawing ((List.replicate n.toNat ()).mapM fun _ => Draws.unit)

def run [GraphLibrary] (topology : Topology) (p : Nat) (schedule : Schedule) (count : Value) :
    Update State Unit := do
  let us ← chances count
  us.zipIdx.forM fun (u, i) => do
    step topology p (← schedule.temperature (.ofNat i) count) u

/-- A call of the annealer. What it ends with is a circuit of another library. -/
def call [GraphLibrary] (topology : Topology) (p : Nat) (given : List (String × Value)) :
    Update State Unit := do
  match ← Param.bind [.optional "schedule" (.tuple [.str "geometric", .float 1.0, .float 0.1]),
      .optional "nr_iterations" (.int 100)] [] given with
  | [schedule, count] =>
    run topology p (← Schedule.ofValue schedule) count
    throw (.pauli (.exportOf "the circuit"))
  | _ => throw .arguments

end PauliAnnealing

end GadgetCircuits
