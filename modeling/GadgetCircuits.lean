import GadgetCircuits.Value.Json
import GadgetCircuits.Circuit.Drawing
import GadgetCircuits.Conjugated.Build
import GadgetCircuits.Conjugated.Drawing
import GadgetCircuits.Pauli.Drawing
import GadgetCircuits.Qasm.Parts
import GadgetCircuits.Session.Phase
import GadgetCircuits.Session.Tableaus
import GadgetCircuits.Workload
import GadgetCircuits.Proofs.GraySynthesis
import GadgetCircuits.Proofs.RandomFlips
import GadgetCircuits.Proofs.Inversion
import GadgetCircuits.Proofs.CountCache
import GadgetCircuits.Proofs.NamedGates
import GadgetCircuits.Proofs.ProgramUnitary
import GadgetCircuits.Proofs.Matching
import GadgetCircuits.Proofs.GateExpansion
import GadgetCircuits.Proofs.Conjugation
import GadgetCircuits.Proofs.Normalize
import GadgetCircuits.Proofs.SecondPass
import GadgetCircuits.Proofs.Slices
import GadgetCircuits.Proofs.RootOfUnity
import GadgetCircuits.Proofs.Schedule
import GadgetCircuits.Proofs.CXHistory
import GadgetCircuits.Proofs.TableauSigns
import GadgetCircuits.Proofs.TopologyDocument
import GadgetCircuits.Proofs.MappedProgram
import GadgetCircuits.Proofs.LinearCombination
import GadgetCircuits.Proofs.QasmProgram
