import GadgetCircuits.Slice
import GadgetCircuits.Value.Arithmetic

/-!
Clifford gates and what they do to Pauli strings. A gate turns the Paulis on its qubits into others,
and may change the sign.
-/

namespace GadgetCircuits

inductive Pauli where
  | i
  | x
  | y
  | z
  deriving DecidableEq, Repr, Inhabited

def Pauli.letter : Pauli → String
  | .i => "I"
  | .x => "X"
  | .y => "Y"
  | .z => "Z"

def Pauli.ofChar? : Char → Option Pauli
  | 'I' => some .i
  | 'X' => some .x
  | 'Y' => some .y
  | 'Z' => some .z
  | _ => none

inductive LocalClifford where
  | h
  | s
  | v
  deriving DecidableEq, Repr

inductive PairClifford where
  | cx
  | cy
  | cz
  deriving DecidableEq, Repr

def LocalClifford.rule : LocalClifford → Pauli → Int × Pauli
  | .h, .x => (1, .z)
  | .h, .y => (-1, .y)
  | .h, .z => (1, .x)
  | .s, .x => (-1, .y)
  | .s, .y => (1, .x)
  | .s, .z => (1, .z)
  | .v, .x => (1, .x)
  | .v, .y => (-1, .z)
  | .v, .z => (1, .y)
  | _, .i => (1, .i)

/-- A sign and the Paulis on control and target after a gate on both. -/
def PairClifford.rule : PairClifford → Pauli → Pauli → Int × Pauli × Pauli
  | _, .i, .i => (1, .i, .i)
  | _, .z, .i => (1, .z, .i)
  | .cx, .x, .x => (1, .x, .i)
  | .cx, .x, .y => (1, .y, .z)
  | .cx, .x, .z => (-1, .y, .y)
  | .cx, .x, .i => (1, .x, .x)
  | .cx, .y, .x => (1, .y, .i)
  | .cx, .y, .y => (-1, .x, .z)
  | .cx, .y, .z => (1, .x, .y)
  | .cx, .y, .i => (1, .y, .x)
  | .cx, .z, .x => (1, .z, .x)
  | .cx, .z, .y => (1, .i, .y)
  | .cx, .z, .z => (1, .i, .z)
  | .cx, .i, .x => (1, .i, .x)
  | .cx, .i, .y => (1, .z, .y)
  | .cx, .i, .z => (1, .z, .z)
  | .cy, .x, .x => (-1, .y, .z)
  | .cy, .x, .y => (1, .x, .i)
  | .cy, .x, .z => (1, .y, .x)
  | .cy, .x, .i => (1, .x, .y)
  | .cy, .y, .x => (1, .x, .z)
  | .cy, .y, .y => (1, .y, .i)
  | .cy, .y, .z => (-1, .x, .x)
  | .cy, .y, .i => (1, .y, .y)
  | .cy, .z, .x => (1, .i, .x)
  | .cy, .z, .y => (1, .z, .y)
  | .cy, .z, .z => (1, .i, .z)
  | .cy, .i, .x => (1, .z, .x)
  | .cy, .i, .y => (1, .i, .y)
  | .cy, .i, .z => (1, .z, .z)
  | .cz, .x, .x => (1, .y, .y)
  | .cz, .x, .y => (-1, .y, .x)
  | .cz, .x, .z => (1, .x, .i)
  | .cz, .x, .i => (1, .x, .z)
  | .cz, .y, .x => (-1, .x, .y)
  | .cz, .y, .y => (1, .x, .x)
  | .cz, .y, .z => (1, .y, .i)
  | .cz, .y, .i => (1, .y, .z)
  | .cz, .z, .x => (1, .i, .x)
  | .cz, .z, .y => (1, .i, .y)
  | .cz, .z, .z => (1, .z, .z)
  | .cz, .i, .x => (1, .z, .x)
  | .cz, .i, .y => (1, .z, .y)
  | .cz, .i, .z => (1, .i, .z)

inductive CliffordKind where
  | one (r : LocalClifford)
  | two (c : PairClifford)
  deriving DecidableEq, Repr

namespace CliffordKind

def all : List (String × CliffordKind) :=
  [("CX", .two .cx), ("CY", .two .cy), ("CZ", .two .cz), ("H", .one .h), ("S", .one .s),
    ("V", .one .v)]

def ofName? (name : String) : Option CliffordKind :=
  (all.find? fun e => e.1 == name).map Prod.snd

def name (k : CliffordKind) : String :=
  ((all.find? fun e => e.2 == k).map Prod.fst).getD ""

def tag (k : CliffordKind) : String :=
  k.name.toLower

end CliffordKind

/-- A gate on qubits that are given by `ι`. -/
inductive CliffordGate (ι : Type) where
  | one (gate : LocalClifford) (qubit : ι)
  | two (gate : PairClifford) (control target : ι)
  deriving DecidableEq, Repr

namespace CliffordGate

variable {ι : Type}

def kind : CliffordGate ι → CliffordKind
  | .one g _ => .one g
  | .two g _ _ => .two g

def qubits : CliffordGate ι → List ι
  | .one _ q => [q]
  | .two _ c t => [c, t]

def map {κ : Type} (f : ι → κ) : CliffordGate ι → CliffordGate κ
  | .one g q => .one g (f q)
  | .two g c t => .two g (f c) (f t)

def within (n : Nat) : CliffordGate Value → Except Error (CliffordGate Nat)
  | .one g q => return .one g (← Slice.position n q)
  | .two g c t => do
    if ← Value.le (.ofNat n) c then throw (.pauli (.pairOutside c t n))
    if ← Value.le (.ofNat n) t then throw (.pauli (.pairOutside c t n))
    return .two g (← Slice.position n c) (← Slice.position n t)

def pauliAt (ps : List Pauli) (q : Nat) : Pauli :=
  (ps[q]?).getD .i

def apply (ps : List Pauli) : CliffordGate Nat → Int × List Pauli
  | .one g q =>
    let (s, p) := g.rule (pauliAt ps q)
    (s, ps.set q p)
  | .two g c t =>
    let (s, p, r) := g.rule (pauliAt ps c) (pauliAt ps t)
    (s, (ps.set c p).set t r)

end CliffordGate

/-- A gate on any qubits, or one of no particular kind, which has no rules. -/
inductive CliffordItem where
  | gate (g : CliffordGate Value)
  | bare (qubits : List Value)

namespace CliffordItem

def ruled : CliffordItem → Except Error (CliffordGate Value)
  | .gate g => .ok g
  | .bare _ => .error (.pauli .noRules)

def qubits : CliffordItem → List Value
  | .gate g => g.qubits
  | .bare qs => qs

def tag : CliffordItem → Except Error String
  | .gate g => .ok g.kind.tag
  | .bare _ => .error .noAttribute

end CliffordItem

structure CliffordRegion where
  size : Value
  gates : List CliffordItem := []

/-- Adds a gate. A gate on one qubit has to be inside the region; of control and target, one does. -/
def CliffordRegion.add (r : CliffordRegion) (g : CliffordItem) : Except Error CliffordRegion := do
  match g.qubits with
  | [q] => if ← Value.le r.size q then throw (.pauli (.gateOutsideRegion q r.size))
  | [c, t] =>
    if ← Value.le r.size c then
      if ← Value.le r.size t then throw (.pauli (.pairOutsideRegion c t r.size))
  | _ => pure ()
  return { r with gates := r.gates ++ [g] }

end GadgetCircuits
