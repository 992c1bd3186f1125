import GadgetCircuits.Value

/-!
Everything that can go wrong, as causes. A cause determines its kind and its message; a cause whose
message would show a thing without a text has none.
-/

namespace GadgetCircuits

inductive ErrorKind where
  | type
  | value
  | index
  | key
  | attribute
  | zeroDivision
  | overflow
  | assertion
  | missingLibrary
  | importing
  | unfinished
  | unbound
  | exhausted
  | graph
  | noPath
  | noNode
  | general
  deriving DecidableEq, Repr

inductive CircuitError where
  | arity (gate : String) (expected found : Nat)
  | notGate (found : Value)
  | repeatedQubits (qubits : List Value)
  | outOfRange (gate : Option String) (size : Value)

def CircuitError.kind : CircuitError → ErrorKind
  | .notGate _ => .type
  | .arity .. | .repeatedQubits _ | .outOfRange .. => .value

def CircuitError.message : CircuitError → Option String
  | .arity g e f => some s!"{g} takes {e} qubits, not {f}."
  | .notGate v => v.text.map (· ++ " is not a valid gate.")
  | .repeatedQubits qs => (Value.tuple qs).text.map (· ++ " are not unique.")
  | .outOfRange g n =>
    match g, n.text with
    | some g, some n => some s!"{g} acts out of range for {n} qubit circuit."
    | _, _ => none

inductive ConjugationError where
  | layerIndex (found : Value)
  | notFlippable (control target layer : Value)
  | iterations (found : Value)
  | repetitions (found : Value)
  | blockClass (found : Value)
  | blockLength (found : Value)
  | seedType
  | noMethod

def ConjugationError.kind : ConjugationError → ErrorKind
  | .notFlippable .. => .value
  | .noMethod => .unbound
  | _ => .type

def ConjugationError.message : ConjugationError → Option String
  | .layerIndex v => v.text.map fun v => s!"Invalid layer index {v} for CX circuit."
  | .notFlippable c t l =>
    match (Value.tuple [c, t]).text, l.text with
    | some g, some l => some s!"Gate {g} cannot be flipped in layer number {l}."
    | _, _ => none
  | .iterations v => v.text.map fun v => s!"Expected a positive integer, found {v}."
  | .repetitions v => v.text.map fun v => s!"Expected positive integer, found {v}."
  | .blockClass v =>
    some ("Expected int, CXCircuit or CXCircuitView, found " ++ v.classText ++ ".")
  | .blockLength v =>
    v.text.map fun v => s!"Expected positive integer number of CX layers, found {v}."
  | .seedType => some "RNG seed must be integer or None."
  | .noMethod => none

inductive PauliError where
  | notBinary (column : List Int)
  | gadgetLength (size : Value) (found : Nat)
  | noRules
  | pairOutside (control target : Value) (size : Nat)
  | gateOutsideRegion (qubit size : Value)
  | pairOutsideRegion (control target size : Value)
  | cliffordType (found : Value)
  | angleType (found : Value)
  | exportOf (what : String)

namespace PauliError

def kind : PauliError → ErrorKind
  | .cliffordType _ | .angleType _ => .type
  | _ => .general

def rowText (ns : List Int) : String :=
  let ts := ns.map toString
  let width := (ts.map String.length).foldl Nat.max 0
  let fill (t : String) : String := String.ofList (List.replicate (width - t.length) ' ') ++ t
  "[" ++ " ".intercalate (ts.map fill) ++ "]"

def message : PauliError → Option String
  | .notBinary column => some ("Expected binary array as column, got: " ++ rowText column)
  | .gadgetLength n k => n.text.map fun n => s!"Pauli Polynomial has {n}, but Pauli gadget has: {k}"
  | .noRules => none
  | .pairOutside c t n =>
    match c.text, t.text with
    | some c, some t => some s!"Control: {c} or Target {t} out of bounds: {n}"
    | _, _ => none
  | .gateOutsideRegion q n =>
    match q.text, n.text with
    | some q, some n => some s!"Gate with {q} is out of bounds for Clifford Region with Qubits: {n}"
    | _, _ => none
  | .pairOutsideRegion c t n =>
    match c.text, t.text, n.text with
    | some c, some t, some n =>
      some s!"Control Gate  with {c}, {t} is out of bounds for Clifford Region with Qubits: {n}"
    | _, _, _ => none
  | .cliffordType v => v.text.map ("Unknown Clifford Type: " ++ ·)
  | .angleType v => some ("Angle must either be float or AngleExpr, but got " ++ v.classText)
  | .exportOf what => some ("Please install qiskit to export " ++ what)

end PauliError

inductive QasmError where
  -- parts of statements
  | version (found : Value)
  | registerName (found : Value)
  | registerSize (found : Value)
  | fileName (found : Value)
  | comment (found : Value)
  | register (found : Value)
  | position (found : Value)
  | quantumRegister (found : Value)
  | classicalRegister (found : Value)
  | angle (found : Value)
  | qubit (found : Value)
  | bit (found : Value)
  | gateName (found : Value)
  | targets (found : Value)
  | noTargets
  | parameters (found : Value)
  | condition (found register : Value)
  | conditioned (found : Value)
  | notTarget (found : Value)
  | controlSize (control target : Nat)
  | targetSize (expected found : Nat)
  -- programs
  | statement (found : Value)
  | repeatedVersion (statement : String)
  | versionFirst (statement : Option String)
  | repeatedRegister (name : String)
  | unknownRegister (name : String) (statement : Option String)
  | registerClash (name : String)
  -- texts
  | notText
  | angleNotation (found : String)
  | unterminated (line : String)
  | line (line : String)
  -- circuits
  | notProgram (found : Value)
  | classicalFlag
  | classicalRegisters
  | gateQubits (gate : String) (expected found : Nat)
  | gateAngles (gate : String) (expected found : Nat)
  | mixedTargets
  | unsupported (statement : Option String)

def QasmError.kind : QasmError → ErrorKind
  | .controlSize .. | .targetSize .. | .statement _ | .repeatedVersion _ | .versionFirst _
  | .repeatedRegister _ | .unknownRegister .. | .registerClash _ | .angleNotation _
  | .unterminated _ | .line _ | .classicalRegisters | .gateQubits .. | .gateAngles ..
  | .unsupported _ => .value
  | .mixedTargets => .general
  | _ => .type

def QasmError.message : QasmError → Option String
  | .version v => v.text.map ("Invalid version " ++ ·)
  | .registerName v => v.text.map ("Invalid register name " ++ ·)
  | .registerSize v => v.text.map ("Invalid register size " ++ ·)
  | .fileName v => v.text.map ("Invalid filename " ++ ·)
  | .comment v => v.text.map ("Invalid comment text " ++ ·)
  | .register v => v.text.map ("Invalid register " ++ ·)
  | .position v => v.text.map ("Invalid register position " ++ ·)
  | .quantumRegister v => v.text.map ("Invalid quantum register " ++ ·)
  | .classicalRegister v => v.text.map ("Invalid classical register " ++ ·)
  | .angle v => v.text.map ("Invalid angle expression " ++ ·)
  | .qubit v => v.text.map ("Invalid qubit/qreg " ++ ·)
  | .bit v => v.text.map ("Invalid bit/creg " ++ ·)
  | .gateName v => v.text.map ("Invalid gate name " ++ ·)
  | .targets v => v.text.map ("Invalid sequence of register targets: " ++ ·)
  | .noTargets => some "Empty sequence of register targets."
  | .parameters v => v.text.map ("Invalid sequence of angle parameters: " ++ ·)
  | .condition v r =>
    match v.text, r.text with
    | some t, some s => some s!"Invalid value {t} for register {s}."
    | _, _ => none
  | .conditioned v => v.text.map ("Invalid statement: " ++ ·)
  | .notTarget v => v.text.map ("Expected register target, found " ++ ·)
  | .controlSize c t => some s!"Mismatched register sizes: {c} vs {t}."
  | .targetSize e f =>
    some s!"Expected all targets of size {e}, found a target of size {f} instead."
  | .statement v => v.text.map ("Invalid statement: " ++ ·)
  | .repeatedVersion s => some ("Repeated OPENQASM version statements: " ++ s)
  | .versionFirst s =>
    s.map fun s =>
      "The first non-comment statement must be the OPENQASM version" ++
        s!"declaration. Instead, found: '{s}'"
  | .repeatedRegister n => some ("Repeated register declaration: " ++ n)
  | .unknownRegister n s => s.map fun s => s!"Unknown register {n} for statement: {s}"
  | .registerClash n => some s!"Register clash for name {n}: "
  | .notText => some "Expected a string."
  | .angleNotation s =>
    some (s!"Only fractional multiples of pi are accepted as angles.Instead, found '{s}'")
  | .unterminated l => some ("Statements should be terminated by semicolon. Instead, found: " ++ l)
  | .line l => some ("An error arose while parsing line: " ++ l)
  | .notProgram v => v.text.map ("Expected QASM object, found " ++ ·)
  | .classicalFlag => some ""
  | .classicalRegisters => some "Cannot construct from quantum circuits with classical registers."
  | .gateQubits g e f => some s!"Expected {e} qubits for {g}, found {f}"
  | .gateAngles g e f => some s!"Expected {e} angles for {g}, found {f}"
  | .mixedTargets => some "This should not happen. Please open a bug report."
  | .unsupported s => s.map ("Unsupported QASM statement: " ++ ·)

inductive Error where
  /-- Operands or arguments of types that do not fit. -/
  | operands
  | arguments
  /-- Something that is not callable, iterable or indexable. -/
  | unsuited
  /-- A text or number that cannot be read as what is asked for. -/
  | unreadable
  | divisionByZero
  | tooLarge
  | outOfRange
  | noKey
  | noAttribute
  | failedAssertion
  | emptyChoice
  | shape
  /-- A search that goes on for ever. -/
  | endless
  -- graphs
  | missingNode
  | unknownNode
  | noRoute
  | noNodes
  | disconnected
  -- angles
  | coefficientCount (expressions coefficients : Nat)
  | angleKey
  | angleModulus
  | subdivisionType
  | subdivision
  | sampleSize
  | seedType
  -- drawings
  | notPair
  | notNumberPair
  | canvasWidth
  | canvasHeight
  | fillType
  | fillUnknown (fill : Value)
  | textType
  | fontSize
  | notCanvas (found : Value)
  | colourType (option : String)
  | scaleType (option : String)
  -- schedules
  | notSchedule (found : Value)
  | scheduleName (name : Value)
  | temperatures
  | temperature (found : Value)
  | notLogger (found : Value)
  -- topologies
  | notInteger (found : Value)
  | equalQubits
  | notCouplingPair (found : Option String)
  | invalidQubit (found : Value)
  | topologySize
  | couplingsType
  | familySize
  | familyRows
  | familyCols
  | topologyName (name : String)
  | noSizeKey
  | noCouplingsKey
  | qubitType
  | noSuchQubit (found : Value)
  | notValidQubit (found : Value)
  | notQubitOrCoupling (found : Value)
  | mappingKeys (size : Nat) (found : List Value)
  | mappingValues (size : Nat) (found : List Value)
  | mappingType (found : Value) (orNone : Bool)
  | notTopology (found : Value)
  | alreadyMatched (coupling : String)
  | notInTopology (coupling : String)
  -- gates and layers
  | unreachable
  | gateQubit (found : Value)
  | notGates (found : Value)
  | notGatePair (found : Value)
  | blockedGate (gate : String)
  | opposedGate (gate other : String)
  | notGateSequence (found : Value)
  | notOrderedPair (found : Value)
  | topologyClass (found : Value)
  | notLayers (found : Value)
  | notLayer (found : Value)
  | layerTopology
  | notLayerSequence (found : Value)
  | notPairSequence (found : Value)
  | viewed (expected : String) (found : Value)
  -- phase gadgets and circuits
  | legsType (found : Option String)
  | noLegs
  | basisName
  | gadgetAngle (found : Value)
  | rotationAngle (found : Value)
  | gateBasis (found : Value)
  | gateSign (found : Value)
  | gateTarget (found : Value)
  | circuitSize
  | notGadgets
  | strayLeg (leg : Value) (gadget size : Nat)
  | notGadget (found : Value)
  | notGadgetSequence (found : Value)
  | mappingLength (expected found : Nat)
  | mappingImages (size : Nat) (found : List Value)
  | controlQubit (found : Value)
  | targetQubit (found : Value)
  | gadgetIndex (found : Value)
  | notIndex (found : Value)
  | notAngles (found : Value)
  | notAngle (found : Value)
  | angleCount (expected found : Nat)
  | gadgetCount
  | angleSubdivision
  | fewestLegs
  | mostLegs
  -- programs and circuits of gates
  | qasm (cause : QasmError)
  | circuit (cause : CircuitError)
  -- conjugated circuits
  | conjugation (cause : ConjugationError)
  -- Pauli gadgets and Clifford gates
  | pauli (cause : PauliError)
  -- tableaux
  | tableauShape
  | swapsNeed (what : String)
  -- libraries that are not there
  | noLibrary (name : String)
  | noFeature
  | noModule

def Error.kind : Error → ErrorKind
  | .unreadable | .emptyChoice | .shape | .coefficientCount .. | .angleKey | .angleModulus
  | .subdivision | .sampleSize | .equalQubits | .topologyName _ | .noSuchQubit _ | .mappingKeys ..
  | .mappingValues .. | .alreadyMatched _ | .notInTopology _ | .blockedGate _ | .opposedGate ..
  | .layerTopology | .noLegs | .controlQubit _ | .targetQubit _ | .angleCount ..
  | .tableauShape => .value
  | .outOfRange | .strayLeg .. | .gadgetIndex _ => .index
  | .unreachable | .endless | .swapsNeed _ => .general
  | .divisionByZero => .zeroDivision
  | .tooLarge => .overflow
  | .noKey => .key
  | .noAttribute => .attribute
  | .failedAssertion => .assertion
  | .missingNode => .noNode
  | .unknownNode | .disconnected => .graph
  | .noRoute => .noPath
  | .noNodes => .exhausted
  | .qasm e => e.kind
  | .circuit e => e.kind
  | .conjugation e => e.kind
  | .pauli e => e.kind
  | .noLibrary _ => .missingLibrary
  | .noFeature | .noModule => .importing
  | _ => .type

def Error.message : Error → Option String
  | .operands | .arguments | .unsuited | .unreadable | .divisionByZero | .tooLarge | .outOfRange
  | .noKey | .noAttribute | .failedAssertion | .emptyChoice | .shape | .endless | .missingNode
  | .unknownNode | .noRoute | .noNodes | .disconnected | .noModule => none
  | .coefficientCount e c => some s!"Expected a sequence of {e} coefficients, found {c}."
  | .angleKey =>
    some "Keys of 'coeff' argument of _SumprodAngleExprconstructor cannot be Angle."
  | .angleModulus => some "Arguments to _ModAngleExpr constructor cannot both be Angle."
  | .subdivisionType => some ""
  | .subdivision => some "Subdivision must be positive."
  | .sampleSize => some "Size must be positive."
  | .seedType => some "RNG seed must be integer or 'None'."
  | .notPair => some "Expected pair."
  | .notNumberPair => some "Expected pair of integers or floats."
  | .canvasWidth => some "Width should be positive integer."
  | .canvasHeight => some "Height should be positive integer."
  | .fillType => some "Fill must be string."
  | .fillUnknown v => v.text.map fun t => s!"Fill must be string or a defined Tag. Got: {t} "
  | .textType => some "Text must be string."
  | .fontSize => some "Font size must be positive integer."
  | .notCanvas v => some ("Expected SVGBuilder, found " ++ v.classText)
  | .colourType o => some s!"Keyword argument '{o}' must be string."
  | .scaleType o => some s!"Keyword argument '{o}' must be positive float."
  | .notSchedule v =>
    v.text.map fun t => "Expected triple (schedule_name, t_init, t_final), found " ++ t
  | .scheduleName v =>
    v.text.map fun t =>
      s!"Invalid standard temperature schedule name {t}, " ++
        "allowed names are: ['linear', 'geometric', 'reciprocal', 'log']"
  | .temperatures => some "Expected t_init and t_final to be int or float."
  | .temperature v => some ("Expected int or float, found " ++ v.classText ++ ".")
  | .notLogger v => some ("Expected AnnealingCostLogger, found " ++ v.classText)
  | .notInteger v => v.text.map ("Expected integer, found " ++ ·)
  | .equalQubits => some "Expected a pair of distinct qubits."
  | .notCouplingPair t => t.map fun t => s!"Expected a pair, found {t}."
  | .invalidQubit v => v.text.map fun t => s!"Invalid qubit {t}."
  | .topologySize => some "Number of qubits must be a positive integer."
  | .couplingsType => some "Couplings must be a collection of pairs of qubits."
  | .familySize => some "Number of qubits must be positive integer."
  | .familyRows => some "Number of rows must be positive integer."
  | .familyCols => some "Number of cols must be positive integer."
  | .topologyName s => some ("Unexpected special topology " ++ s)
  | .noSizeKey => some "Expected key 'qubits'."
  | .noCouplingsKey => some "Expected key 'couplings'."
  | .qubitType => some "Qubit should be an integer."
  | .noSuchQubit v => v.text.map fun t => s!"Invalid qubit {t}."
  | .notValidQubit v => v.text.map fun t => s!"Expected a valid qubit, found {t}."
  | .notQubitOrCoupling v => v.text.map ("Expected qubit or coupling, found " ++ ·)
  | .mappingKeys n vs =>
    (Value.list vs).text.map fun t => s!"Expected mapping keys [0,...,{n}], found {t} instead."
  | .mappingValues n vs =>
    (Value.list vs).text.map fun t => s!"Expected mapping values [0,...,{n}], found {t} instead."
  | .mappingType v orNone =>
    some ("Expected Sequence[int] or Mapping[int, int]" ++ (if orNone then " or None" else "") ++
      ", found " ++ v.classText ++ " instead.")
  | .notTopology v => v.text.map fun t => s!"Expected Topology, found {t}."
  | .alreadyMatched c =>
    some s!"Cannot add coupling {c} to matching:one of the qubits is already matched. "
  | .notInTopology c => some s!"Invalid coupling {c} for the given topology."
  | .unreachable => some "Cannot get here!"
  | .gateQubit v => v.text.map fun t => s!"Expected integer, found {t}."
  | .notGates v => v.text.map ("Expected collection of ordered pairs, found " ++ ·)
  | .notGatePair v =>
    v.text.map fun t => s!"Expected gates to be pairs of distinct integers, found {t}."
  | .blockedGate g =>
    some (s!"Cannot add CX gate {g} to the layer: gate is not present, but one of control or " ++
      "target is already involved in some other gate.")
  | .opposedGate g h =>
    some (s!"Invalid CX gate {g} for given topology: another gate {h} already exists for this " ++
      "qubit pair.")
  | .notGateSequence v => v.text.map ("Expected sequence of gates, found " ++ ·)
  | .notOrderedPair v => v.text.map ("Expected ordered pair, found " ++ ·)
  | .topologyClass v => some ("Expected Topology, found " ++ v.classText ++ ".")
  | .notLayers v => v.text.map ("Expected sequence of CXCircuitLayer, found " ++ ·)
  | .notLayer v => some ("Expected CXCircuitLayer, found " ++ v.classText)
  | .layerTopology => some "Layer topology different from circuit topology."
  | .notLayerSequence v => v.text.map ("Expected sequence of layers, found " ++ ·)
  | .notPairSequence v => v.text.map ("Expected a sequence of pairs of ints, found " ++ ·)
  | .viewed cls v => some ("Expected " ++ cls ++ ", found " ++ v.classText ++ ".")
  | .legsType t => t.map ("Qubits should be a collection of integers, found " ++ ·)
  | .noLegs => some "At least one qubit must be specified."
  | .basisName => some "Basis should be 'Z' or 'X'."
  | .gadgetAngle v =>
    v.text.map fun t =>
      "Angle should be an instance of `AngleExpr`, found " ++ t ++ " of type " ++ v.classText ++
        " instead."
  | .rotationAngle v =>
    v.text.map fun t =>
      "angle should be `AngleExpr`, found " ++ t ++ " of type " ++ v.classText ++ " instead."
  | .gateBasis v => v.text.map fun t => s!"Invalid basis {t}."
  | .gateSign v => v.text.map fun t => s!"Invalid sign {t}."
  | .gateTarget v => v.text.map fun t => s!"Invalid qubit {t}"
  | .circuitSize => some "Number of qubits must be a positive integer."
  | .notGadgets => some "Gadgets should be a sequence of PhaseGadget."
  | .strayLeg v i n =>
    v.text.map fun t => s!"Qubit {t} for gadget #{i} out of bounds (num_qubits = {n})"
  | .notGadget v => some ("Expected PhaseGadget, found " ++ v.classText ++ ".")
  | .notGadgetSequence v =>
    v.text.map fun t => s!"Expected phase gadget or sequence of phase gadgets, found {t}."
  | .mappingLength n k => some s!"Expected {n} mapping entries, found {k}"
  | .mappingImages n vs =>
    (Value.list vs).text.map fun t =>
      "Expected mapping images [0, ..., " ++ toString (n - 1) ++ "], found " ++ t
  | .controlQubit v => v.text.map fun t => s!"Invalid control qubit {t}."
  | .targetQubit v => v.text.map fun t => s!"Invalid target qubit {t}."
  | .gadgetIndex v => v.text.map fun t => s!"Invalid gadget index {t}"
  | .notIndex v => some ("Expected int or slice, found " ++ v.classText)
  | .notAngles v => some ("Expected Sequence[AngleExpr], found " ++ v.classText ++ ".")
  | .notAngle v => some ("Expected AngleExpr, found " ++ v.classText)
  | .angleCount n k => some s!"Expected {n} angles, found {k} instead."
  | .gadgetCount => some "Number of gadgets must be non-negative integer."
  | .angleSubdivision => some "Angle subdivision must be positive integer."
  | .fewestLegs => some "Minimum legs must be positive integer or 'None'."
  | .mostLegs => some "Maximum legs must be positive integer or 'None'."
  | .qasm e => e.message
  | .circuit e => e.message
  | .conjugation e => e.message
  | .pauli e => e.message
  | .tableauShape =>
    some "Tableau and signs must have shape (2 * n_qubits, 2 * n_qubits) and (2 * n_qubits,)"
  | .swapsNeed what => some (what ++ " required to include swaps")
  | .noLibrary name => some s!"You must install the '{name}' library."
  | .noFeature => some "Please install qiskit to use this feature."

end GadgetCircuits
