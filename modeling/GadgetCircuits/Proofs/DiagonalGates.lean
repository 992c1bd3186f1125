import GadgetCircuits.Proofs.StandardGates

/-!
Z gadgets multiply each state by a phase. The phase depends on whether an odd number of their legs is set,
so that products of Z gadgets are compared state by state.
-/

namespace GadgetCircuits

open List GateMatrix Matrix Complex
open scoped Real
open Complex (I)

variable {n : Nat} {d e : Bits n → ℂ}

def Bits.oddOn (x : Bits n) (qs : List (Fin n)) : Bool :=
  qs.foldr (fun q odd => xor (x q) odd) false

lemma pauliString_z (qs : List (Fin n)) :
    pauliString n .z (qs.map fun q : Fin n => ((q : Nat) : Int)) =
      Matrix.diagonal fun x : Bits n => if x.oddOn qs then -1 else 1 := by
  induction qs with
  | nil => exact diagonal_one.symm
  | cons q qs ih =>
    rw [pauliString] at ih
    rw [pauliString, map_cons, map_cons, prod_cons, ih, pauli_z_eq_diagonal, diagonal_mul_diagonal]
    congr 1
    funext x
    have hcons : x.oddOn (q :: qs) = xor (x q) (x.oddOn qs) := rfl
    rw [hcons]
    cases x q <;> cases x.oddOn qs <;> simp

noncomputable def turnPhase (a : ℝ) (qs : List (Fin n)) (x : Bits n) : ℂ :=
  if x.oddOn qs then exp (GateMatrix.half a * I)
  else exp (-(GateMatrix.half a * I))

lemma turnAbout_pauliString_z (a : ℝ) (qs : List (Fin n)) :
    turnAbout a (pauliString n .z (qs.map fun q : Fin n => ((q : Nat) : Int))) =
      Matrix.diagonal (turnPhase a qs) := by
  have hself := pauliString_eq (n := n) .z (qs.map fun q : Fin n => ((q : Nat) : Int))
  rw [turnAbout_eq (by rw [hself, stringOn_mul_self]), pauliString_z, ← diagonal_one,
    ← diagonal_smul, ← diagonal_smul, diagonal_sub]
  congr 1
  funext x
  rw [turnPhase, exp_half, exp_neg_half, half_eq]
  by_cases hodd : x.oddOn qs = true <;> simp [hodd, mul_comm]

lemma turnPhase_neg (a : ℝ) (qs : List (Fin n)) (x : Bits n) :
    turnPhase (-a) qs x = if x.oddOn qs then exp (-(GateMatrix.half a * I))
      else exp (GateMatrix.half a * I) := by
  rw [turnPhase, half_neg, ofReal_neg, neg_mul, neg_neg]

lemma onQubit_rz_eq_diagonal (q : Fin n) (a : ℝ) :
    onQubit q (.rz a) = Matrix.diagonal (turnPhase a [q]) := by
  rw [onQubit_rz, ← turnAbout_pauliString_z, map_singleton, pauliString,
    map_singleton, prod_singleton]

lemma controlled_diagonal (c : Fin n) (d : Bits n → ℂ) :
    controlled c (Matrix.diagonal d) = Matrix.diagonal fun x => if x c then d x else 1 := by
  ext x y
  rw [controlled_apply, diagonal_apply, diagonal_apply, Matrix.one_apply]
  by_cases hxy : x = y
  · simp [hxy]
  · simp [hxy]

lemma UpToPhase.diagonal_ratio (h : UpToPhase (Matrix.diagonal d) (Matrix.diagonal e))
    (x y : Bits n) :
    d x * e y = d y * e x := by
  obtain ⟨z, -, hz⟩ := h
  have hentry : ∀ x, d x = z * e x := by
    intro x
    simpa using congrFun (congrFun hz x) x
  rw [hentry x, hentry y]
  ring

lemma UpToPhase.of_diagonal {z : ℂ} (hz : ‖z‖ = 1) (h : ∀ x, d x = z * e x) :
    UpToPhase (Matrix.diagonal d) (Matrix.diagonal e) := by
  refine ⟨z, hz, ?_⟩
  rw [← diagonal_smul]
  exact congrArg Matrix.diagonal (funext h)

lemma controlled_z_eq_diagonal (c t : Fin n) :
    controlled c (onQubit t .z) = Matrix.diagonal fun x : Bits n => if x c && x t then -1 else 1 := by
  rw [onQubit_z, pauli_z_eq_diagonal, controlled_diagonal]
  congr 1
  funext x
  cases x c <;> simp

lemma controlled_controlled_z_eq_diagonal (a b c : Fin n) :
    controlled a (controlled b (onQubit c .z)) =
      Matrix.diagonal fun x : Bits n => if x a && (x b && x c) then -1 else 1 := by
  rw [controlled_z_eq_diagonal, controlled_diagonal]
  congr 1
  funext x
  cases x a <;> simp

/-- Turns of three qubits, back about every two of them and forth about all three: the phase is left where
all of them are set. -/
theorem turnPhase_three (r : ℝ) (a b c : Fin n) (x : Bits n) :
    turnPhase r [a] x * turnPhase r [b] x * turnPhase r [c] x * turnPhase (-r) [a, b] x *
        turnPhase (-r) [b, c] x * turnPhase (-r) [c, a] x * turnPhase r [a, b, c] x =
      exp (-(GateMatrix.half r * I)) *
        if x a && (x b && x c) then exp (GateMatrix.half r * I) ^ 8 else 1 := by
  have hone := (exp_half_mul r).1
  rw [turnPhase_neg, turnPhase_neg, turnPhase_neg]
  simp only [turnPhase, Bits.oddOn, foldr_cons, foldr_nil]
  -- eight states, each a power of the two phases, which are inverse to each other
  grind

lemma turnPhase_all (a b c : Fin n) (x : Bits n) :
    turnPhase (-(π / 2)) [a] x * turnPhase (-(π / 2)) [b] x *
        turnPhase (-(π / 2)) [c] x * turnPhase (-(π / 2)) [a, b] x *
        turnPhase (-(π / 2)) [a, c] x * turnPhase (-(π / 2)) [b, c] x *
        turnPhase (-(π / 2)) [a, b, c] x =
      exp (-(GateMatrix.half (π / 2) * I)) := by
  have hone := (exp_half_mul (π / 2)).1
  have height : exp (GateMatrix.half (π / 2) * I) ^ 8 = 1 := by
    rw [← exp_nat_mul, half_eq, ← exp_two_pi_mul_I]
    congr 1
    push_cast
    ring
  simp only [turnPhase_neg, Bits.oddOn, foldr_cons, foldr_nil]
  grind

namespace Performs

variable {steps later : List GateStep}

lemma appendDiagonal (hd : Performs steps (Matrix.diagonal d))
    (he : Performs later (Matrix.diagonal e)) :
    Performs (steps ++ later) (Matrix.diagonal fun x => d x * e x) := by
  refine (hd.append he).congr ?_
  rw [diagonal_mul_diagonal]
  exact congrArg Matrix.diagonal (funext fun x => mul_comm (e x) (d x))

lemma rzDiagonal {q : Value} {i : Fin n} (hq : Qasm.Names q i) (a : Angle) :
    Performs (PhaseGate.rz q (.expr (.angle a))) (Matrix.diagonal (turnPhase a.radians [i])) :=
  (rz hq a).congr (onQubit_rz_eq_diagonal i _)

lemma linkDiagonal {vs : List Value} {qs : List (Fin n)} (hvs : Forall₂ Qasm.Names vs qs)
    (hne : qs ≠ []) (hnodup : qs.Nodup) (a : Angle) :
    Performs [.link (.ok (.expr (.angle a))) vs] (Matrix.diagonal (turnPhase a.radians qs)) :=
  (linkAll hvs hne hnodup rfl).congr (turnAbout_pauliString_z _ _)

section TwoControls

variable {u v w : Value} {a b c : Fin n} (hu : Qasm.Names u a) (hv : Qasm.Names v b)
  (hw : Qasm.Names w c) (hab : a ≠ b) (hac : a ≠ c) (hbc : b ≠ c)

include hu hv hw hab hac hbc

lemma ccz : Performs (PhaseGate.ccz u v w) (controlled a (controlled b (onQubit c .z))) := by
  have hforth : Angle.radians ⟨1 / 4⟩ = π / 4 := by
    rw [Angle.radians]
    push_cast
    ring
  have hback : Angle.radians ⟨-1 / 4⟩ = -(π / 4) := by
    rw [Angle.radians]
    push_cast
    ring
  have hpair : ∀ {v w : Value} {b c : Fin n}, Qasm.Names v b → Qasm.Names w c → b ≠ c →
      Performs [.link (PhaseGate.turns (-1 / 4)) [v, w]]
        (Matrix.diagonal (turnPhase (Angle.radians ⟨-1 / 4⟩) [b, c])) := by
    intro v w b c hv hw hne
    exact linkDiagonal (.cons hv (.cons hw .nil)) (cons_ne_nil _ _) (by simpa using hne) _
  have hall : Performs [.link (PhaseGate.turns (1 / 4)) [u, v, w]]
      (Matrix.diagonal (turnPhase (Angle.radians ⟨1 / 4⟩) [a, b, c])) :=
    linkDiagonal (.cons hu (.cons hv (.cons hw .nil))) (cons_ne_nil _ _)
      (by simpa using ⟨⟨hab, hac⟩, hbc⟩) _
  have hsteps := ((((((rzDiagonal hu ⟨1 / 4⟩).appendDiagonal (rzDiagonal hv ⟨1 / 4⟩)).appendDiagonal
    (rzDiagonal hw ⟨1 / 4⟩)).appendDiagonal (hpair hu hv hab)).appendDiagonal
    (hpair hv hw hbc)).appendDiagonal (hpair hw hu hac.symm)).appendDiagonal hall
  rw [hforth, hback] at hsteps
  have hminus : exp (GateMatrix.half (π / 4) * I) ^ 8 = -1 := by
    rw [← exp_nat_mul, half_eq, ← exp_pi_mul_I]
    congr 1
    push_cast
    ring
  have hphase : ∀ x, _ = _ := turnPhase_three (n := n) (π / 4) a b c
  rw [hminus] at hphase
  rw [controlled_controlled_z_eq_diagonal]
  simpa only [PhaseGate.ccz, PhaseGate.angleOf, append_assoc, cons_append, nil_append] using
    hsteps.upToPhase (UpToPhase.of_diagonal (norm_exp_half _).2 hphase)

end TwoControls

end Performs

end GadgetCircuits
