import GadgetCircuits.Proofs.CliffordGate

/-!
Matrices of gates on one qubit. On a qubit of several they multiply as they do alone, so identities
between rotations are identities between matrices with four entries.
-/

namespace GadgetCircuits

open Complex Matrix Function

open scoped Real
open Complex (I)

variable {n : Nat}

abbrev GateMatrix := Matrix Bool Bool ℂ

namespace GateMatrix

def entries (a b c d : ℂ) : GateMatrix
  | false, false => a
  | false, true => b
  | true, false => c
  | true, true => d

noncomputable def half (a : ℝ) : ℝ := a / (2 : Nat)

def x : GateMatrix := entries 0 1 1 0

noncomputable def y : GateMatrix := entries 0 (-I) I 0

def z : GateMatrix := entries 1 0 0 (-1)

noncomputable def h : GateMatrix :=
  (Real.sqrt (2 : Nat) : ℂ)⁻¹ • entries 1 1 1 (-1)

noncomputable def rx (a : ℝ) : GateMatrix :=
  entries (Real.cos (half a)) (-(I * Real.sin (half a)))
    (-(I * Real.sin (half a))) (Real.cos (half a))

noncomputable def ry (a : ℝ) : GateMatrix :=
  entries (Real.cos (half a)) (-Real.sin (half a)) (Real.sin (half a)) (Real.cos (half a))

noncomputable def rz (a : ℝ) : GateMatrix :=
  entries (Complex.exp (-(half a * I))) 0 0 (Complex.exp (half a * I))

noncomputable def phase (a : ℝ) : GateMatrix :=
  entries 1 0 0 (Complex.exp (a * I))

noncomputable def u3 (theta phi lam : ℝ) : GateMatrix :=
  entries (Real.cos (half theta)) (-(Complex.exp (lam * I) * Real.sin (half theta)))
    (Complex.exp (phi * I) * Real.sin (half theta))
    (Complex.exp ((phi + lam) * I) * Real.cos (half theta))

variable {a b c d a' b' c' d' : ℂ}

lemma entries_mul : entries a b c d * entries a' b' c' d' =
    entries (a * a' + b * c') (a * b' + b * d') (c * a' + d * c') (c * b' + d * d') := by
  ext i j
  cases i <;> cases j <;> simp [mul_apply, entries, add_comm]

lemma smul_entries (s : ℂ) : s • entries a b c d = entries (s * a) (s * b) (s * c) (s * d) := by
  ext i j
  cases i <;> cases j <;> rfl

lemma entries_sub : entries a b c d - entries a' b' c' d' =
    entries (a - a') (b - b') (c - c') (d - d') := by
  ext i j
  cases i <;> cases j <;> rfl

lemma one_eq : (1 : GateMatrix) = entries 1 0 0 1 := by
  ext i j
  cases i <;> cases j <;> rfl

lemma half_eq (a : ℝ) : half a = a / 2 := by
  rw [half, Nat.cast_ofNat]

lemma half_neg (a : ℝ) : half (-a) = -half a := by
  rw [half_eq, half_eq, neg_div]

lemma cos_half_quarter : Real.cos (half (π / 2)) = Real.sqrt 2 / 2 := by
  rw [half_eq, div_div, show (2 : ℝ) * 2 = 4 by norm_num, Real.cos_pi_div_four]

lemma sin_half_quarter : Real.sin (half (π / 2)) = Real.sqrt 2 / 2 := by
  rw [half_eq, div_div, show (2 : ℝ) * 2 = 4 by norm_num, Real.sin_pi_div_four]

lemma sqrt_two_mul_self : (Real.sqrt 2 : ℂ) * Real.sqrt 2 = 2 := by
  rw [← ofReal_mul, Real.mul_self_sqrt (by norm_num)]
  norm_num

lemma exp_half (a : ℝ) : Complex.exp (half a * I) =
    Real.cos (half a) + Real.sin (half a) * I := by
  rw [exp_mul_I, ofReal_cos, ofReal_sin]

lemma exp_neg_half (a : ℝ) : Complex.exp (-(half a * I)) =
    Real.cos (half a) - Real.sin (half a) * I := by
  rw [← neg_mul, ← ofReal_neg, ← half_neg, exp_half, half_neg, Real.cos_neg, Real.sin_neg]
  push_cast
  ring

lemma rx_eq (a : ℝ) : rx a = (Real.cos (half a) : ℂ) • 1 - (I * Real.sin (half a)) • x := by
  rw [rx, one_eq, x, smul_entries, smul_entries, entries_sub]
  simp

lemma rz_eq (a : ℝ) : rz a = (Real.cos (half a) : ℂ) • 1 - (I * Real.sin (half a)) • z := by
  rw [rz, one_eq, z, smul_entries, smul_entries, entries_sub, exp_half, exp_neg_half]
  congr 1 <;> ring

lemma rz_eq_phase (a : ℝ) : rz a = Complex.exp (-(half a * I)) • phase a := by
  rw [rz, phase, smul_entries, ← Complex.exp_add, half_eq]
  congr 1
  · ring
  · ring
  · ring
  · congr 1
    push_cast
    ring

lemma quarter_rz (a : ℝ) : rx (-(π / 2)) * rz a * rx (π / 2) = ry a := by
  rw [rx, rx, rz, ry, entries_mul, entries_mul, half_neg, Real.cos_neg, Real.sin_neg, exp_half,
    exp_neg_half, cos_half_quarter, sin_half_quarter]
  push_cast
  have hroot := sqrt_two_mul_self
  generalize (Real.sqrt 2 : ℂ) = r at hroot
  generalize Complex.cos (half a : ℂ) = u
  generalize Complex.sin (half a : ℂ) = v
  have hI := I_mul_I
  congr 1 <;> grind

lemma rx_neg_mul (a : ℝ) : rx (-a) * rx a = 1 := by
  have hI := I_mul_I
  have hcircle := Complex.cos_sq_add_sin_sq (half a)
  rw [rx, rx, one_eq, entries_mul, half_neg, Real.cos_neg, Real.sin_neg]
  push_cast
  grind

lemma quarter_mul_rz (a : ℝ) : rx (-(π / 2)) * rz a = ry a * rx (-(π / 2)) := by
  have hback := rx_neg_mul (-(π / 2))
  rw [neg_neg] at hback
  rw [← quarter_rz, mul_assoc _ (rx _), hback, mul_one]

lemma quarter_mul_z : rx (-(π / 2)) * z = y * rx (-(π / 2)) := by
  have hI := I_mul_I
  rw [rx, z, y, entries_mul, entries_mul, half_neg, Real.cos_neg, Real.sin_neg, cos_half_quarter,
    sin_half_quarter]
  push_cast
  congr 1 <;> grind

lemma exp_half_mul (a : ℝ) : Complex.exp (-(half a * I)) * Complex.exp (half a * I) = 1 ∧
      Complex.exp (half a * I) * Complex.exp (half a * I) = Complex.exp (a * I) := by
  rw [← Complex.exp_add, ← Complex.exp_add, neg_add_cancel, Complex.exp_zero, half_eq]
  refine ⟨rfl, congrArg Complex.exp ?_⟩
  push_cast
  ring

lemma norm_exp_half (a : ℝ) : ‖Complex.exp (half a * I)‖ = 1 ∧
    ‖Complex.exp (-(half a * I))‖ = 1 := by
  refine ⟨norm_exp_ofReal_mul_I _, ?_⟩
  rw [← neg_mul, ← ofReal_neg]
  exact norm_exp_ofReal_mul_I _

lemma u3_eq (theta phi lam : ℝ) : u3 theta phi lam =
    (Complex.exp (half phi * I) * Complex.exp (half lam * I)) • (rz phi * ry theta * rz lam) := by
  obtain ⟨hphi, hphi'⟩ := exp_half_mul phi
  obtain ⟨hlam, hlam'⟩ := exp_half_mul lam
  rw [u3, rz, rz, ry, entries_mul, entries_mul, smul_entries, add_mul, Complex.exp_add, ← hphi',
    ← hlam']
  grind

lemma h_eq : h = (Real.sqrt 2 / 2 : ℂ) • entries 1 1 1 (-1) := by
  have hroot := sqrt_two_mul_self
  have hne : (Real.sqrt 2 : ℂ) ≠ 0 := by
    rintro hzero
    simp [hzero] at hroot
  rw [h, Nat.cast_ofNat]
  congr 1
  field_simp
  rw [← hroot, pow_two]

lemma h_mul_h : h * h = 1 := by
  have hroot := sqrt_two_mul_self
  rw [h_eq, one_eq, smul_entries, entries_mul]
  generalize (Real.sqrt 2 : ℂ) = r at hroot
  congr 1 <;> grind

lemma h_mul_z : h * z = x * h := by
  rw [h_eq, z, x, smul_entries, entries_mul, entries_mul]
  congr 1 <;> ring

lemma h_mul_rz (a : ℝ) : h * rz a = rx a * h := by
  have hx : h * (I * Real.sin (half a)) • z = (I * Real.sin (half a)) • x * h := by
    rw [mul_smul_comm, h_mul_z, smul_mul_assoc]
  rw [rz_eq, rx_eq, mul_sub, sub_mul, hx, mul_smul_comm, mul_one, smul_one_mul]

lemma quarters_eq : rx (π / 2) * rz (π / 2) * rx (π / 2) = -I • h := by
  have hroot := sqrt_two_mul_self
  have hI := I_mul_I
  rw [rx, rz, h_eq, entries_mul, entries_mul, smul_entries, smul_entries, exp_half, exp_neg_half,
    cos_half_quarter, sin_half_quarter]
  push_cast
  generalize (Real.sqrt 2 : ℂ) = r at hroot
  congr 1 <;> grind

lemma h_mul_rx (a : ℝ) : h * rx a = rz a * h := by
  calc h * rx a = h * (rx a * h) * h := by rw [mul_assoc, mul_assoc (rx a), h_mul_h, mul_one]
    _ = h * (h * rz a) * h := by rw [h_mul_rz]
    _ = rz a * h := by rw [← mul_assoc, h_mul_h, one_mul]

lemma quarters_z_eq : rz (π / 2) * rx (π / 2) * rz (π / 2) = -I • h := by
  have hpass : h * (rx (π / 2) * rz (π / 2) * rx (π / 2)) =
      rz (π / 2) * rx (π / 2) * rz (π / 2) * h := by
    rw [← mul_assoc, ← mul_assoc, h_mul_rx, mul_assoc (rz _), h_mul_rz, ← mul_assoc, mul_assoc _ h,
      h_mul_rx, ← mul_assoc]
  have hsquare : h * -I • h * h = -I • h := by
    rw [mul_smul_comm, h_mul_h, smul_one_mul]
  rw [quarters_eq] at hpass
  rw [← hsquare, hpass, mul_assoc _ h, h_mul_h, mul_one]

lemma quarters_back_eq : rx (-(π / 2)) * rz (-(π / 2)) * rx (-(π / 2)) = I • h := by
  have hroot := sqrt_two_mul_self
  have hI := I_mul_I
  rw [rx, rz, h_eq, entries_mul, entries_mul, smul_entries, smul_entries, exp_half, exp_neg_half,
    half_neg, Real.cos_neg, Real.sin_neg, cos_half_quarter, sin_half_quarter]
  push_cast
  generalize (Real.sqrt 2 : ℂ) = r at hroot
  congr 1 <;> grind

lemma rx_pi : rx π = -I • x := by
  rw [rx, x, smul_entries, half_eq, Real.cos_pi_div_two, Real.sin_pi_div_two]
  congr 1 <;> simp

lemma rz_pi : rz π = -I • z := by
  rw [rz_eq, half_eq, Real.cos_pi_div_two, Real.sin_pi_div_two]
  simp

lemma phase_pi : phase π = z := by
  rw [phase, z, exp_pi_mul_I]

lemma x_mul_z : x * z = -I • y := by
  rw [x, z, y, entries_mul, smul_entries]
  congr 1 <;> simp

end GateMatrix

def onQubit (q : Fin n) (m : GateMatrix) : Operator n :=
  fun x y => if ∀ i, i ≠ q → x i = y i then m (x q) (y q) else 0

section OnQubit

variable (q : Fin n)

lemma Bits.eq_of_off {x y : Bits n} {q : Fin n} (hoff : ∀ i, i ≠ q → x i = y i) (hq : x q = y q) :
    x = y := by
  funext i
  by_cases hi : i = q
  · rw [hi, hq]
  · exact hoff i hi

lemma onQubit_add (a b : GateMatrix) : onQubit q (a + b) = onQubit q a + onQubit q b := by
  ext x y
  rw [Matrix.add_apply, onQubit, onQubit, onQubit]
  split <;> simp

lemma onQubit_smul (s : ℂ) (a : GateMatrix) : onQubit q (s • a) = s • onQubit q a := by
  ext x y
  rw [Matrix.smul_apply, onQubit, onQubit]
  split <;> simp

lemma onQubit_one : onQubit q 1 = 1 := by
  ext x y
  rw [onQubit, one_apply, one_apply]
  grind

lemma onQubit_mul (a b : GateMatrix) : onQubit q (a * b) = onQubit q a * onQubit q b := by
  ext x y
  have hoff : ∀ v, (∀ i, i ≠ q → x i = update x q v i) := by
    intro v i hi
    rw [update_of_ne hi]
  -- Only the states that are the row up to the bit of the qubit count.
  have hsum : ∑ v, onQubit q a x (update x q v) * onQubit q b (update x q v) y =
      ∑ w, onQubit q a x w * onQubit q b w y := by
    refine Finset.sum_of_injOn (update x q) ?_ ?_ ?_ ?_
    · exact (update_injective x q).injOn
    · exact fun _ _ => Finset.mem_univ _
    · intro w _ hw
      rw [onQubit, if_neg, zero_mul]
      intro hx
      refine hw ⟨w q, Finset.mem_univ _, Bits.eq_of_off (q := q) (fun i hi => ?_) ?_⟩
      · rw [update_of_ne hi, hx i hi]
      · rw [update_self]
    · exact fun _ _ => rfl
  rw [mul_apply, ← hsum, onQubit]
  split
  · rename_i hxy
    rw [mul_apply]
    refine Finset.sum_congr rfl fun v _ => ?_
    have hyv : ∀ i, i ≠ q → update x q v i = y i := by
      intro i hi
      rw [update_of_ne hi, hxy i hi]
    rw [onQubit, onQubit, if_pos (hoff v), if_pos hyv, update_self]
  · rename_i hxy
    refine (Finset.sum_eq_zero fun v _ => ?_).symm
    rw [onQubit, onQubit, if_neg (c := ∀ i, i ≠ q → update x q v i = y i), mul_zero]
    intro hy
    exact hxy fun i hi => (hoff v i hi).trans (hy i hi)

lemma onQubit_z : onQubit q .z = pauli n .z (q : Nat) := by
  ext x y
  rw [onQubit, pauli, monomial, Bits.bit_val, id]
  by_cases hxy : x = y
  · rw [hxy, if_pos rfl, if_pos fun _ _ => rfl]
    cases y q <;> rfl
  · rw [if_neg hxy]
    split
    · rename_i hoff
      have hq : x q ≠ y q := fun hq => hxy (Bits.eq_of_off hoff hq)
      revert hq
      cases x q <;> cases y q <;> simp [GateMatrix.z, GateMatrix.entries]
    · rfl

lemma onQubit_x : onQubit q .x = pauli n .x (q : Nat) := by
  ext x y
  have hflip : ∀ i, Bits.flip ((q : Nat) : Int) y i = xor (y i) (decide (i = q)) := by
    intro i
    simp [Bits.flip, Fin.ext_iff]
  rw [onQubit, pauli, monomial]
  by_cases hxy : x = Bits.flip ((q : Nat) : Int) y
  · rw [if_pos hxy, if_pos]
    · rw [hxy, hflip]
      cases y q <;> simp [GateMatrix.x, GateMatrix.entries]
    · intro i hi
      simp [hxy, hflip, hi]
  · rw [if_neg hxy]
    split
    · rename_i hoff
      have hq : x q ≠ !y q := by grind
      revert hq
      cases x q <;> cases y q <;> simp [GateMatrix.x, GateMatrix.entries]
    · rfl

lemma onQubit_rx (a : ℝ) : onQubit q (.rx a) = turnAbout a (pauli n .x (q : Nat)) := by
  rw [turnAbout_eq (pauli_mul_self .x _), GateMatrix.rx_eq, GateMatrix.half_eq, sub_eq_add_neg,
    sub_eq_add_neg, ← neg_smul, ← neg_smul, onQubit_add, onQubit_smul, onQubit_smul, onQubit_one,
    onQubit_x]

lemma onQubit_rz (a : ℝ) : onQubit q (.rz a) = turnAbout a (pauli n .z (q : Nat)) := by
  rw [turnAbout_eq (pauli_mul_self .z _), GateMatrix.rz_eq, GateMatrix.half_eq, sub_eq_add_neg,
    sub_eq_add_neg, ← neg_smul, ← neg_smul, onQubit_add, onQubit_smul, onQubit_smul, onQubit_one,
    onQubit_z]

end OnQubit

lemma pauli_z_eq_diagonal (c : Fin n) :
    pauli n .z (c : Nat) = diagonal fun x : Bits n => if x c then -1 else 1 := by
  ext x y
  rw [pauli, monomial, diagonal_apply, Bits.bit_val, id]
  simp_all

lemma onQubit_commute_z {c t : Fin n} (hne : c ≠ t) (m : GateMatrix) :
    Commute (onQubit t m) (pauli n .z (c : Nat)) := by
  rw [Commute, SemiconjBy, pauli_z_eq_diagonal]
  ext x y
  rw [mul_diagonal, diagonal_mul, onQubit]
  split
  · rename_i hoff
    rw [hoff c hne, mul_comm]
  · rw [zero_mul, mul_zero]

variable {c t : Fin n}

lemma controlled_apply (A : Operator n) (x y : Bits n) :
    controlled c A x y = if x c then A x y else (1 : Operator n) x y := by
  rw [controlled, Nat.cast_ofNat, pauli_z_eq_diagonal, sub_mul, one_mul, Matrix.add_apply,
    Matrix.smul_apply, Matrix.smul_apply, Matrix.add_apply, Matrix.sub_apply, Matrix.diagonal_mul,
    Matrix.diagonal_apply, Matrix.one_apply]
  cases x c <;> by_cases hxy : x = y <;> simp [hxy] <;> ring

lemma turnAbout_z_mul {A : Operator n} (hA : A * A = 1) (hcomm : Commute A (pauli n .z (c : Nat)))
    (a : ℝ) : turnAbout a (pauli n .z (c : Nat) * A) =
      turnAbout a A * controlled c (turnAbout (-(a + a)) A) := by
  have hz := pauli_mul_self (n := n) .z (c : Nat)
  rw [controlled, Nat.cast_ofNat]
  generalize pauli n .z (c : Nat) = z at hcomm hz
  have hzA : z * A * (z * A) = 1 := by
    rw [mul_assoc, ← mul_assoc A, hcomm.eq, mul_assoc z A, hA, mul_one, hz]
  have hturn : Commute (turnAbout a A) (1 - z) := by
    rw [turnAbout_eq hA]
    have hone : Commute A (1 - z) := (Commute.one_right A).sub_right hcomm
    exact ((Commute.one_left _).smul_left _).sub_left (hone.smul_left _)
  -- Where the qubit is clear the rotation stays; where it is set, it is turned back twice.
  have hback : turnAbout a A * ((1 - z) * turnAbout (-(a + a)) A) = (1 - z) * turnAbout (-a) A := by
    rw [← mul_assoc, hturn.eq, mul_assoc, ← turnAbout_add hA]
    congr 2
    ring
  rw [mul_add, mul_smul_comm, mul_smul_comm, hback, turnAbout_eq hzA, turnAbout_eq hA, turnAbout_eq hA,
    neg_div, Real.cos_neg, Real.sin_neg]
  simp only [mul_add, sub_mul, mul_sub, one_mul, mul_one, smul_mul_assoc, mul_smul_comm, hcomm.eq]
  push_cast
  module

lemma turnAbout_link (hne : c ≠ t) (a : ℝ) : turnAbout a (pauli n .z (t : Nat)) *
        turnAbout (-a) (pauli n .z (c : Nat) * pauli n .z (t : Nat)) =
      controlled c (onQubit t (.rz (a + a))) := by
  have hz := pauli_mul_self (n := n) .z (t : Nat)
  rw [turnAbout_z_mul hz (pauli_commute .z .z hne.symm), ← mul_assoc, ← turnAbout_add hz,
    add_neg_cancel, turnAbout_zero, one_mul, onQubit_rz]
  congr 2
  ring

lemma turnAbout_z_eq (a : ℝ) : turnAbout a (pauli n .z (c : Nat)) =
    Complex.exp (-(GateMatrix.half a * I)) •
      controlled c (Complex.exp (a * I) • (1 : Operator n)) := by
  obtain ⟨hone, htwo⟩ := GateMatrix.exp_half_mul a
  have hset : Complex.exp (-(GateMatrix.half a * I)) * Complex.exp (a * I) =
      Complex.exp (GateMatrix.half a * I) := by
    rw [← htwo, ← mul_assoc, hone, one_mul]
  rw [turnAbout_eq (pauli_mul_self .z _), controlled, Nat.cast_ofNat, mul_smul_comm, mul_one, smul_add,
    smul_smul, smul_comm (1 / 2 : ℂ), smul_smul, smul_smul, hset, GateMatrix.exp_half,
    GateMatrix.exp_neg_half, GateMatrix.half_eq]
  module

lemma turnAbout_link_control (a : ℝ) :
    turnAbout a (pauli n .z (c : Nat)) * controlled c (onQubit t (.rz (a + a))) =
      Complex.exp (-(GateMatrix.half a * I)) • controlled c (onQubit t (.phase (a + a))) := by
  have hcomm : Commute (Complex.exp (a * I) • (1 : Operator n)) (pauli n .z (c : Nat)) :=
    (Commute.one_left _).smul_left _
  have hexp : Complex.exp (a * I) * Complex.exp (-(GateMatrix.half (a + a) * I)) = 1 := by
    rw [← Complex.exp_add, GateMatrix.half_eq, ← Complex.exp_zero]
    congr 1
    push_cast
    ring
  rw [turnAbout_z_eq, smul_mul_assoc, controlled_mul hcomm, smul_one_mul, GateMatrix.rz_eq_phase,
    onQubit_smul, smul_smul, hexp, one_smul]

lemma onQubit_phase_apply (q : Fin n) (a : ℝ) (v : Bool) :
    onQubit q (.phase a) (fun _ => v) (fun _ => v) = if v then Complex.exp (a * I) else 1 := by
  rw [onQubit, if_pos fun _ _ => rfl]
  cases v <;> rfl

lemma UpToPhase.eq_of_entries {u v : Operator n} {x y : ℂ} (h : UpToPhase u v)
    (hu : ∀ b : Bool, u (fun _ => b) (fun _ => b) = if b then x else 1)
    (hv : ∀ b : Bool, v (fun _ => b) (fun _ => b) = if b then y else 1) : x = y := by
  obtain ⟨s, -, hs⟩ := h
  have hclear := congrFun (congrFun hs fun _ => false) fun _ => false
  have hset := congrFun (congrFun hs fun _ => true) fun _ => true
  rw [Matrix.smul_apply, hu, hv] at hclear hset
  have hone : s = 1 := by simpa using hclear.symm
  simpa [hone] using hset

lemma exp_eq_of_controlled {a b : ℝ} (h : UpToPhase (controlled c (onQubit t (.phase a)))
    (controlled c (onQubit t (.phase b)))) :
    Complex.exp (a * I) = Complex.exp (b * I) := by
  have hentry : ∀ (d : ℝ) (v : Bool), controlled c (onQubit t (.phase d)) (fun _ => v) (fun _ => v) =
      if v then Complex.exp (d * I) else 1 := by
    intro d v
    rw [controlled_apply, one_apply_eq, onQubit_phase_apply]
    cases v <;> rfl
  exact h.eq_of_entries (hentry a) (hentry b)

lemma exp_eq_one_of_onQubit {q : Fin n} {a : ℝ} (h : UpToPhase 1 (onQubit q (.phase a))) :
    Complex.exp (a * I) = 1 :=
  (h.eq_of_entries (fun b => by rw [one_apply_eq, ite_self]) (onQubit_phase_apply q a)).symm

end GadgetCircuits
