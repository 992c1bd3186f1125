import GadgetCircuits.Proofs.DiagonalGates
import GadgetCircuits.Proofs.Simplify

/-!
Normalizing passes over the first gadget of every stretch of one basis, and fails at the second, since no
angle can be added to the number that the sum starts from. A circuit whose bases alternate is emptied, and
every other circuit is refused.
-/

namespace GadgetCircuits

open AngleExpr Complex

open scoped Real

variable {n : Nat} {g : Gadget} {gs : List Gadget}

def Alternates (gs : List Gadget) : Prop :=
  gs.IsChain fun g h => g.basis ≠ h.basis

instance : DecidablePred Alternates := fun gs =>
  inferInstanceAs (Decidable (gs.IsChain fun g h => g.basis ≠ h.basis))

namespace PhaseCircuit

namespace Fusion

variable {f : Fusion}

lemma flush_nil (hf : f.fused = []) : f.flush = .ok f.result := by
  rw [flush, hf]
  rfl

lemma fuse_of_ne (hf : f.fused = []) (hb : f.basis ≠ some g.basis) :
    f.fuse g = .ok { f with basis := some g.basis } := by
  have hb' : (f.basis == some g.basis) = false := by simpa using hb
  simp only [fuse, hb', flush_nil hf, Bool.false_eq_true, if_false]
  rfl

lemma fuse_of_eq (hf : f.fused = []) (hb : f.basis = some g.basis) :
    f.fuse g = .error .operands := by
  have hb' : (f.basis == some g.basis) := by simpa using hb
  simp only [fuse, hb', hf, if_true, List.find?_nil, Option.map_none, Option.getD_none]
  rfl

lemma fuse_rest (f : Fusion) (g : Gadget) (hf : f.fused = []) (hb : f.basis = some g.basis) :
    (do (← gs.foldlM fuse f).flush) =
      if Alternates (g :: gs) then .ok f.result else .error .operands := by
  induction gs generalizing f g with
  | nil => exact flush_nil hf
  | cons h gs ih =>
    have hchain : Alternates (g :: h :: gs) ↔ g.basis ≠ h.basis ∧ Alternates (h :: gs) :=
      List.isChain_cons_cons
    rw [List.foldlM_cons]
    by_cases hgh : g.basis = h.basis
    · rw [fuse_of_eq hf (hb.trans (congrArg some hgh)), if_neg fun h' => (hchain.mp h').1 hgh]
      rfl
    · have hne : f.basis ≠ some h.basis := by
        rw [hb]
        exact fun h' => hgh (Option.some.inj h')
      rw [fuse_of_ne hf hne]
      simp only [hchain, ne_eq, hgh, not_false_eq_true, true_and]
      exact ih { f with basis := some h.basis } h hf rfl

end Fusion

variable {c : PhaseCircuit}

lemma normalize_eq (hc : c.gadgets = .ok gs) :
    c.normalize = if Alternates gs then .ok { size := c.size } else .error .operands := by
  rw [normalize, hc, ok_bind]
  cases gs with
  | nil => rfl
  | cons g gs =>
    have hfirst : Fusion.fuse { result := { size := c.size } } g =
        .ok { basis := some g.basis, result := { size := c.size } } := Fusion.fuse_of_ne rfl nofun
    rw [List.foldlM_cons, hfirst]
    exact Fusion.fuse_rest { basis := some g.basis, result := { size := c.size } } g rfl rfl

/-- The circuit after normalizing stands for the unitary of the circuit before only where no neighbours are
of one basis and the unitary is that of the empty circuit. -/
theorem normalize_keeps_iff (hc : c.WellFormed) :
    ∃ gs, c.gadgets = .ok gs ∧
      c.normalize = (if Alternates gs then .ok { size := c.size } else .error .operands) ∧
      ((∃ d ds, c.normalize = .ok d ∧ d.size = c.size ∧ d.gadgets = .ok ds ∧
          UpToPhase (inOrder (ds.map (Gadget.unitary c.size radians)))
            (inOrder (gs.map (Gadget.unitary c.size radians)))) ↔
        Alternates gs ∧
          UpToPhase 1 (inOrder (gs.map (Gadget.unitary c.size radians)))) := by
  have hgs := gadgets_eq hc
  have heq := normalize_eq hgs
  refine ⟨_, hgs, heq, ?_⟩
  by_cases halt : Alternates (c.cells.map Cell.gadget)
  · rw [heq, if_pos halt]
    constructor
    · rintro ⟨d, ds, hd, -, hds, hphase⟩
      cases hd
      cases hds
      exact ⟨halt, hphase⟩
    · rintro ⟨-, hphase⟩
      exact ⟨{ size := c.size }, [], rfl, rfl, rfl, hphase⟩
  · rw [heq, if_neg halt]
    constructor
    · rintro ⟨d, ds, hd, -⟩
      cases hd
    · rintro ⟨halt', -⟩
      exact absurd halt' halt

def quarterTurn : PhaseCircuit :=
  ({ size := 1 } : PhaseCircuit).push { basis := .z, angle := .angle ⟨1 / 2⟩, legs := [0] } [true]
    (.angle ⟨1 / 2⟩)

lemma quarterTurn_wellFormed : quarterTurn.WellFormed := by
  simp [quarterTurn]

theorem quarterTurn_normalize_keeps_iff :
    quarterTurn.WellFormed ∧ ∃ gs, quarterTurn.gadgets = .ok gs ∧
      quarterTurn.normalize =
        (if Alternates gs then .ok { size := quarterTurn.size } else .error .operands) ∧
      ((∃ d ds, quarterTurn.normalize = .ok d ∧ d.size = quarterTurn.size ∧ d.gadgets = .ok ds ∧
          UpToPhase (inOrder (ds.map (Gadget.unitary quarterTurn.size radians)))
            (inOrder (gs.map (Gadget.unitary quarterTurn.size radians)))) ↔
        Alternates gs ∧
          UpToPhase 1 (inOrder (gs.map (Gadget.unitary quarterTurn.size radians)))) :=
  ⟨quarterTurn_wellFormed, normalize_keeps_iff quarterTurn_wellFormed⟩

/-- A quarter turn is not the identity: the states where the qubit is clear and where it is set part. -/
theorem quarterTurn_moves (q : Fin n) :
    ¬ UpToPhase 1 (Matrix.diagonal (turnPhase (π / 2) [q])) := by
  intro hphase
  rw [← Matrix.diagonal_one] at hphase
  have hratio := hphase.diagonal_ratio (fun _ => false) fun _ => true
  obtain ⟨hone, htwo⟩ := GateMatrix.exp_half_mul (π / 2)
  have hclear : turnPhase (π / 2) [q] (fun _ => false) =
      exp (-(GateMatrix.half (π / 2) * I)) := rfl
  have hset : turnPhase (π / 2) [q] (fun _ => true) =
      exp (GateMatrix.half (π / 2) * I) := rfl
  rw [hclear, hset, one_mul, one_mul] at hratio
  rw [← hratio, htwo, ofReal_div, ofReal_ofNat, exp_pi_div_two_mul_I] at hone
  simpa using congrArg re hone

theorem quarterTurn_normalize_differs :
    ∃ gs d, quarterTurn.gadgets = .ok gs ∧ (∀ g ∈ gs, g.angle.isAngle = true) ∧
      quarterTurn.normalize = .ok d ∧ d.gadgets = .ok [] ∧
      ¬ UpToPhase (1 : Operator 1) (inOrder (gs.map (Gadget.unitary 1 AngleExpr.radians))) := by
  have hgs := gadgets_eq quarterTurn_wellFormed
  have hcells : quarterTurn.cells.map Cell.gadget =
      [{ basis := .z, angle := .angle ⟨1 / 2⟩, legs := [0] }] := rfl
  rw [hcells] at hgs
  refine ⟨_, { size := 1 }, hgs, by simp [isAngle], ?_, rfl, ?_⟩
  · rw [normalize_eq hgs, if_pos (by decide)]
    rfl
  · have hturn : inOrder ([({ basis := .z, angle := .angle ⟨1 / 2⟩, legs := [0] } : Gadget)].map
        (Gadget.unitary 1 radians)) =
        Matrix.diagonal (turnPhase (π / 2) [(0 : Fin 1)]) := by
      have hangle : radians (.angle ⟨1 / 2⟩) = π / 2 := by
        rw [radians]
        push_cast
        ring
      rw [← turnAbout_pauliString_z, List.map_singleton, inOrder_cons, inOrder_nil, one_mul,
        Gadget.unitary, hangle]
      rfl
    rw [hturn]
    exact quarterTurn_moves 0

end PhaseCircuit

end GadgetCircuits
