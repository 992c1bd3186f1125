import GadgetCircuits.Draws
import GadgetCircuits.Phase.Circuit

/-!
Random circuits of phase gadgets.
-/

namespace GadgetCircuits

namespace Angle

/-- Angles `r · π / subdivision` for random `r` below `2 · subdivision`, with or without zero. -/
def randoms (subdivision count : Nat) (nonzero : Bool) : Update Draws (List Angle) := do
  let rs ← Draws.manyBetween (if nonzero then 1 else 0) (2 * subdivision) count
  return rs.map fun (r : Int) => ⟨(r : Rat) / subdivision⟩

def seedOf (v : Value) : Except Error (Option Int) :=
  match v with
  | .null => .ok none
  | v =>
    match v.int? with
    | some s => .ok (some s)
    | none => .error .seedType

def random (chance : Chance) (args : List Value) (given : List (String × Value)) :
    Except Error (List Angle) := do
  match ← Param.bind [.optional "subdivision" (.int 4), .named "size" (.int 1),
      .named "rng_seed" .null, .named "nonzero" (.bool false)] args given with
  | [subdivision, size, seed, nonzero] =>
    match subdivision.int?, size.int?, nonzero with
    | some k, some n, .bool nz =>
      if k ≤ 0 then throw .subdivision
      if n ≤ 0 then throw .sampleSize
      let draws ← chance.generator (← seedOf seed)
      ((randoms k.toNat n.toNat nz).runFrom draws).1
    | _, _, _ => throw .subdivisionType
  | _ => throw .arguments

end Angle

structure RandomPhase where
  size : Nat
  gadgets : Nat
  subdivision : Nat := 4
  fewest : Nat := 1
  most : Option Nat := none
  diagonal : Bool := false
  seed : Option Int := none

namespace RandomPhase

/-- The seed of the angles, a bit for each gadget, and its legs. Bases alternate, starting from the
bit. -/
def shapes (r : RandomPhase) : Update Draws (Int × List Basis × List (List Nat)) := do
  let angleSeed ← Draws.between 0 65536
  let bits ← if r.diagonal then pure (List.replicate r.gadgets 0)
    else Draws.manyBetween 0 2 r.gadgets
  let counts ← Draws.manyBetween r.fewest ((r.most.getD r.size) + 1) r.gadgets
  let legs ← counts.mapM fun k => Draws.sample r.size k.toNat
  return (angleSeed, bits.zipIdx.map fun (b, i) => if (b + i) % 2 == 0 then .z else .x, legs)

/-- The gadgets of a random circuit. Names for the angles take the place of random ones. -/
def draw (chance : Chance) (r : RandomPhase) (angleName : Option (Nat → AngleVar)) :
    Except Error (List Gadget) := do
  let start ← chance.generator r.seed
  let (angleSeed, bases, legs) ← ((shapes r).runFrom start).1
  let draws ← chance.generator (some angleSeed)
  let angles ← ((Angle.randoms r.subdivision r.gadgets true).runFrom draws).1
  let angles : List AngleExpr := match angleName with
    | some f => (List.range r.gadgets).map fun i => .var (f i)
    | none => angles.map .angle
  return (bases.zip (angles.zip legs)).map fun (basis, angle, legs) =>
    Gadget.ofItems basis angle (legs.map .ofNat)

def positive? (v : Value) : Option Nat :=
  v.int?.bind fun n => if 0 < n then some n.toNat else none

def angleNames (v : Value) : Except Error (Option (Nat → AngleVar)) :=
  match v with
  | .null => .ok none
  | .str s => .ok (some fun i => ⟨i, s!"{s}[{i}]", s!"{s}_{i}"⟩)
  | _ => .error .unsuited

def ofValues (chance : Chance) (args : List Value) (given : List (String × Value)) :
    Except Error PhaseCircuit := do
  match ← Param.bind [.required "num_qubits", .required "num_gadgets", .named "parametric" .null,
      .named "angle_subdivision" (.int 4), .named "min_legs" (.int 1), .named "max_legs" .null,
      .named "diagonal" (.bool false), .named "rng_seed" .null] args given with
  | [size, gadgets, parametric, subdivision, fewest, most, diagonal, seed] =>
    let some size := positive? size | throw .circuitSize
    let some gadgets := gadgets.int? | throw .gadgetCount
    if gadgets < 0 then throw .gadgetCount
    let some subdivision := positive? subdivision | throw .angleSubdivision
    let some fewest := positive? fewest | throw .fewestLegs
    let most ← match most with
      | .null => pure none
      | v =>
        match v.int? with
        | some m => if m < fewest then throw .mostLegs else pure (some m.toNat)
        | none => throw .mostLegs
    let seed ← Angle.seedOf seed
    let r : RandomPhase :=
      { size, gadgets := gadgets.toNat, subdivision, fewest, most, diagonal := diagonal.truthy, seed }
    let gs ← match angleNames parametric with
      | .ok names => draw chance r names
      | .error e => do
        let gs ← draw chance r none
        if gs.isEmpty then pure gs else throw e
    PhaseCircuit.ofGadgets size gs
  | _ => throw .arguments

end RandomPhase

end GadgetCircuits
