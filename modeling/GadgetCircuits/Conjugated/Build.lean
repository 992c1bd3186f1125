import GadgetCircuits.Conjugated.Basic
import GadgetCircuits.Draws

/-!
Conjugated circuits from arguments of any type. Building one ends at the count of its CX gates, so
what remains is why it ends.
-/

namespace GadgetCircuits

/-- A block of CX gates: a circuit, or a number of empty layers. -/
inductive BlockOperand where
  | circuit
  | raw (v : Value)

namespace ConjugatedCircuit

def isPositive (v : Value) : Bool :=
  v.int?.any fun n => decide (0 < n)

def checkBlock : BlockOperand → Except Error Unit
  | .circuit => .ok ()
  | .raw v =>
    if v.int?.isNone then .error (.conjugation (.blockClass v))
    else if !isPositive v then .error (.conjugation (.blockLength v))
    else .ok ()

def buildError (chance : Chance) (phase : PhaseCircuit ⊕ Value) (topology : Topology ⊕ Value)
    (block : BlockOperand) (given : List (String × Value)) : Error :=
  let build : Except Error Unit := do
    match ← Param.bind [.named "circuit_rep" (.int 1), .named "rng_seed" .null,
        .named "fresh_angle_vars" .null, .named "qubit_mapping" .null,
        .named "phase_method" (.str "naive"), .named "cx_method" (.str "naive"),
        .named "reallocate" (.bool false)] [] given with
    | [repetitions, seed, _, mapping, _, cxMethod, _] =>
      let phase ← match phase with
        | .inl c => pure c
        | .inr v => throw (.viewed "PhaseCircuit" v)
      let topology ← match topology with
        | .inl t => pure t
        | .inr v => throw (.topologyClass v)
      if !isPositive repetitions then throw (.conjugation (.repetitions repetitions))
      checkBlock block
      let seed ← match seed, seed.int? with
        | .null, _ => pure none
        | _, some s => pure (some s)
        | _, none => throw (.conjugation .seedType)
      let mapping := if mapping.truthy then mapping else .ofNats topology.qubits
      let _ ← topology.mapForward mapping
      let _ ← phase.cloned
      let _ ← chance.generator seed
      throw (countError cxMethod)
    | _ => throw .arguments
  match build with
  | .error e => e
  | .ok _ => .noLibrary "qiskit"

def repeats (v : Value) : Except Error Bool :=
  match v.int? with
  | some n => .ok (0 < n)
  | none => .error .operands

/-- Repeated annealing: nothing if it is not run at all, else the first error. -/
def annealRepeatedly (chance : Chance) (phase : PhaseCircuit) (topology : Topology)
    (args : List Value) : Except Error Unit := do
  match ← Param.bind [.required "cx_blocks", .required "num_iters", .required "num_anneal_iters",
      .optional "opt_kwargs" (.dict []), .optional "anneal_kwargs" (.dict [])] args [] with
  | [block, count, _, given, _] =>
    if ← repeats count then
      throw (buildError chance (.inl phase) (.inl topology) (.raw block) given.named)
  | _ => throw .arguments

/-- Annealing there and back: the block has to be a number, or something that can be reversed. The
mapping of the qubits is not free. -/
def annealBothWays (chance : Chance) (phase : PhaseCircuit) (topology : Topology)
    (block count given : Value) : Except Error Unit := do
  if block.int?.isNone && block.sequence?.isNone then throw .operands
  if ← repeats count then
    if given.named.any fun e => e.1 == "qubit_mapping" then throw .arguments
    throw (buildError chance (.inl phase) (.inl topology) (.raw block) given.named)

def traverse (chance : Chance) (phase : PhaseCircuit) (topology : Topology) (args : List Value) :
    Except Error Unit := do
  match ← Param.bind [.required "cx_blocks", .required "num_iters", .required "num_anneal_iters",
      .optional "opt_kwargs" (.dict []), .optional "anneal_kwargs" (.dict [])] args [] with
  | [block, count, _, given, _] => annealBothWays chance phase topology block count given
  | _ => throw .arguments

/-- Annealing there and back, then once more. There is no circuit to start from if nothing was run. -/
def traverseThenAnneal (chance : Chance) (phase : PhaseCircuit) (topology : Topology)
    (args : List Value) : Except Error Unit := do
  match ← Param.bind [.required "cx_blocks", .required "num_iters",
      .optional "num_anneal_iters" (.int 0), .optional "opt_kwargs" (.dict []),
      .optional "anneal_kwargs" (.dict [])] args [] with
  | [block, count, more, given, _] =>
    annealBothWays chance phase topology block count given
    if ← Value.lt (.int 0) more then throw .noAttribute
  | _ => throw .arguments

end ConjugatedCircuit

end GadgetCircuits
