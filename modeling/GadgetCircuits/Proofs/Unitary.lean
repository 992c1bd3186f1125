import Mathlib
import GadgetCircuits.Phase.Synthesis

/-!
The unitaries of gadgets and CX gates, as complex matrices over the bit strings of `n` qubits. A
gadget is the exponential of a product of Pauli operators; everything else about it follows from how
Pauli operators and CX gates pass each other.
-/

namespace GadgetCircuits

open Real

open Complex (I)

/-- Basis states of `n` qubits, also used as sets of qubits. -/
abbrev Bits (n : Nat) := Fin n → Bool

/-- Operators on `n` qubits. -/
abbrev Operator (n : Nat) := Matrix (Bits n) (Bits n) ℂ

variable {n : Nat} (b : Basis) (l m : Bits n) {p : Operator n}

def Bits.bit (x : Bits n) (q : Int) : Bool :=
  decide (∃ i : Fin n, (i : Int) = q ∧ x i = true)

def Bits.flip (q : Int) (x : Bits n) : Bits n :=
  fun i => xor (x i) (decide ((i : Int) = q))

def Bits.addBit (source goal : Nat) (x : Bits n) : Bits n :=
  fun i => if (i : Nat) = goal then xor (x i) (x.bit source) else x i

/-- The operator that sends each basis state to a multiple of a basis state. -/
def monomial (f : Bits n → Bits n) (s : Bits n → ℂ) : Operator n :=
  fun x y => if x = f y then s y else 0

noncomputable def pauli (n : Nat) : Basis → Int → Operator n
  | .z, q => monomial id fun x => if x.bit q then -1 else 1
  | .x, q => monomial (Bits.flip q) fun _ => 1

noncomputable def pauliString (n : Nat) (b : Basis) (legs : List Int) : Operator n :=
  (legs.map (pauli n b)).prod

noncomputable def turnAbout (angle : ℝ) (p : Operator n) : Operator n :=
  NormedSpace.exp (-(I * (angle / 2)) • p)

/-- The unitary of a gadget, where `value` gives the angles in radians. -/
noncomputable def Gadget.unitary (n : Nat) (value : AngleExpr → ℝ) (g : Gadget) : Operator n :=
  turnAbout (value g.angle) (pauliString n g.basis g.legs)

noncomputable def CX.unitary (n : Nat) (g : CX) : Operator n :=
  monomial (Bits.addBit g.1 g.2) fun _ => 1

noncomputable def Placed.unitary (n : Nat) (value : AngleExpr → ℝ) : Placed → Operator n
  | .gadget g => g.unitary n value
  | .cx g => CX.unitary n g

/-- Operators that are applied one after the other, first to last. -/
def inOrder (us : List (Operator n)) : Operator n :=
  us.reverse.prod

/-- Equality up to a global phase. -/
def UpToPhase (u v : Operator n) : Prop :=
  ∃ z : ℂ, ‖z‖ = 1 ∧ u = z • v

noncomputable def AngleExpr.radians : AngleExpr → ℝ
  | .angle a => a.halfTurns * Real.pi
  | _ => 0

@[simp] lemma inOrder_nil : inOrder ([] : List (Operator n)) = 1 := rfl

lemma inOrder_append (us vs : List (Operator n)) :
    inOrder (us ++ vs) = inOrder vs * inOrder us := by
  simp [inOrder]

@[simp] lemma inOrder_cons (u : Operator n) (us : List (Operator n)) :
    inOrder (u :: us) = inOrder us * u := by
  simp [inOrder]

lemma inOrder_perm {us vs : List (Operator n)} (h : us.Perm vs) (hc : us.Pairwise Commute) :
    inOrder us = inOrder vs := by
  have hp : us.reverse.Perm vs.reverse := (us.reverse_perm.trans h).trans vs.reverse_perm.symm
  exact hp.prod_eq' (List.pairwise_reverse.mpr (hc.imp fun hab => hab.symm))

namespace UpToPhase

variable {u v w : Operator n}

lemma refl (u : Operator n) : UpToPhase u u := ⟨1, by simp, by simp⟩

lemma of_eq (h : u = v) : UpToPhase u v := h ▸ refl u

lemma trans (huv : UpToPhase u v) (hvw : UpToPhase v w) : UpToPhase u w := by
  obtain ⟨y, hy, rfl⟩ := huv
  obtain ⟨z, hz, rfl⟩ := hvw
  exact ⟨y * z, by simp [hy, hz], by rw [smul_smul]⟩

lemma symm (huv : UpToPhase u v) : UpToPhase v u := by
  obtain ⟨z, hz, rfl⟩ := huv
  have hz0 : z ≠ 0 := by
    rintro rfl
    simp at hz
  exact ⟨z⁻¹, by simp [hz], by rw [smul_smul, inv_mul_cancel₀ hz0, one_smul]⟩

lemma mul {u' v' : Operator n} (h : UpToPhase u v) (h' : UpToPhase u' v') :
    UpToPhase (u * u') (v * v') := by
  obtain ⟨y, hy, rfl⟩ := h
  obtain ⟨z, hz, rfl⟩ := h'
  exact ⟨y * z, by simp [hy, hz], by rw [smul_mul_smul_comm]⟩

lemma smul (z : ℂ) (hz : ‖z‖ = 1) (u : Operator n) : UpToPhase (z • u) u := ⟨z, hz, rfl⟩

end UpToPhase

lemma monomial_mul (f g : Bits n → Bits n) (s t : Bits n → ℂ) :
    monomial f s * monomial g t = monomial (f ∘ g) fun y => s (g y) * t y := by
  ext x y
  rw [Matrix.mul_apply, Finset.sum_eq_single (g y)]
  · simp [monomial]
  · intro z _ hz
    simp [monomial, hz]
  · simp

lemma monomial_one : monomial (id : Bits n → Bits n) (fun _ => 1) = 1 := by
  ext x y
  simp [monomial, Matrix.one_apply]

lemma smul_monomial (z : ℂ) (f : Bits n → Bits n) (s : Bits n → ℂ) :
    z • monomial f s = monomial f fun y => z * s y := by
  ext x y
  simp [monomial]

namespace Bits

def add (x y : Bits n) : Bits n := fun i => xor (x i) (y i)

/-- The qubits that occur an odd number of times. -/
def ofLegs (legs : List Int) : Bits n := fun i => legs.count (i : Int) % 2 == 1

/-- `-1` for every qubit that is in both strings. -/
def sign (x y : Bits n) : ℂ := ∏ i, if x i && y i then -1 else 1

variable (x y : Bits n)

lemma sign_comm : sign x y = sign y x := by
  simp [sign, Bool.and_comm]

variable (z : Bits n)

lemma sign_add : sign x (add y z) = sign x y * sign x z := by
  rw [sign, sign, sign, ← Finset.prod_mul_distrib]
  refine Finset.prod_congr rfl fun i _ => ?_
  cases x i <;> cases hy : y i <;> cases hz : z i <;> simp [add, hy, hz]

lemma sign_add_left : sign (add x y) z = sign x z * sign y z := by
  rw [sign_comm, sign_add, sign_comm x, sign_comm y]

lemma sign_false (x : Bits n) : sign (fun _ => false) x = 1 := by
  simp [sign]

lemma add_self (x : Bits n) : add x x = fun _ => false := by
  funext i
  simp [add]

lemma add_comm : add x y = add y x := by
  funext i
  simp [add, Bool.xor_comm]

lemma add_assoc : add (add x y) z = add x (add y z) := by
  funext i
  simp [add]

lemma sign_mul_self : sign x y * sign x y = 1 := by
  rw [← sign_add, add_self, sign_comm, sign_false]

@[simp] lemma ofLegs_nil : (ofLegs [] : Bits n) = fun _ => false := by
  funext i
  simp [ofLegs]

lemma ofLegs_cons (q : Int) (legs : List Int) :
    (ofLegs (q :: legs) : Bits n) = add (ofLegs [q]) (ofLegs legs) := by
  funext i
  by_cases h : q = (i : Int)
  · subst h
    simp only [ofLegs, add, List.count_cons_self, List.count_nil]
    grind
  · simp [ofLegs, add, h]

lemma ofLegs_append (as bs : List Int) :
    (ofLegs (as ++ bs) : Bits n) = add (ofLegs as) (ofLegs bs) := by
  induction as with
  | nil =>
    funext i
    simp [add]
  | cons q as ih => rw [List.cons_append, ofLegs_cons, ih, ofLegs_cons q as, add_assoc]

lemma ofLegs_single (q : Int) (i : Fin n) : (ofLegs [q] : Bits n) i = decide ((i : Int) = q) := by
  by_cases h : q = (i : Int)
  · subst h
    simp [ofLegs]
  · simp [ofLegs, h, Ne.symm h]

lemma bit_val (x : Bits n) (i : Fin n) : x.bit (i : Int) = x i := by
  simp only [bit]
  by_cases h : x i
  · rw [h]
    exact decide_eq_true ⟨i, rfl, h⟩
  · grind

lemma sign_single (q : Int) (x : Bits n) : sign (ofLegs [q]) x = if x.bit q then -1 else 1 := by
  by_cases hq : ∃ i : Fin n, (i : Int) = q
  · obtain ⟨i, rfl⟩ := hq
    rw [bit_val, sign, Finset.prod_eq_single i]
    · simp [ofLegs_single]
    · intro j _ hj
      have hne : (j : Int) ≠ (i : Int) := by exact_mod_cast fun h => hj (Fin.ext h)
      simp [ofLegs_single, hne]
    · simp
  · have hb : x.bit q = false := decide_eq_false fun ⟨i, hi, _⟩ => hq ⟨i, hi⟩
    rw [hb, sign]
    refine Finset.prod_eq_one fun i _ => ?_
    have hne : (i : Int) ≠ q := fun h => hq ⟨i, h⟩
    simp [ofLegs_single, hne]

end Bits

noncomputable def stringOn : Basis → Bits n → Operator n
  | .z, m => monomial id (Bits.sign m)
  | .x, m => monomial (Bits.add m) fun _ => 1

lemma stringOn_mul : stringOn b l * stringOn b m = stringOn b (Bits.add l m) := by
  cases b with
  | z =>
    simp only [stringOn, monomial_mul]
    congr 1
    funext y
    rw [id, Bits.sign_add_left]
  | x =>
    simp only [stringOn, monomial_mul, mul_one]
    congr 1
    funext y
    exact (Bits.add_assoc l m y).symm

lemma stringOn_false : stringOn b (fun _ => false : Bits n) = 1 := by
  rw [← monomial_one]
  cases b with
  | z =>
    simp only [stringOn]
    congr 1
    funext y
    exact Bits.sign_false y
  | x =>
    simp only [stringOn]
    congr 1
    funext y i
    simp [Bits.add]

lemma stringOn_mul_self (m : Bits n) : stringOn b m * stringOn b m = 1 := by
  rw [stringOn_mul, Bits.add_self, stringOn_false]

lemma stringOn_commute : Commute (stringOn b l) (stringOn b m) := by
  rw [Commute, SemiconjBy, stringOn_mul, stringOn_mul, Bits.add_comm]

lemma stringOn_z_x :
    stringOn .z l * stringOn .x m = Bits.sign l m • (stringOn .x m * stringOn .z l) := by
  simp only [stringOn, monomial_mul, smul_monomial]
  congr 1
  funext y
  rw [Bits.sign_add]
  ring

lemma stringOn_other :
    stringOn b l * stringOn b.other m = Bits.sign l m • (stringOn b.other m * stringOn b l) := by
  cases b with
  | z => exact stringOn_z_x l m
  | x =>
    rw [Basis.other, stringOn_z_x, smul_smul, Bits.sign_comm l m, Bits.sign_mul_self, one_smul]

lemma pauli_eq (q : Int) : pauli n b q = stringOn b (Bits.ofLegs [q]) := by
  cases b with
  | z =>
    simp only [pauli, stringOn]
    congr 1
    funext y
    exact (Bits.sign_single q y).symm
  | x =>
    simp only [pauli, stringOn]
    congr 1
    funext y i
    rw [Bits.flip, Bits.add, Bits.ofLegs_single, Bool.xor_comm]

lemma pauliString_eq (legs : List Int) : pauliString n b legs = stringOn b (Bits.ofLegs legs) := by
  induction legs with
  | nil => rw [Bits.ofLegs_nil, stringOn_false, pauliString, List.map_nil, List.prod_nil]
  | cons q legs ih =>
    rw [Bits.ofLegs_cons, ← stringOn_mul, ← ih, ← pauli_eq, pauliString, List.map_cons,
      List.prod_cons, ← pauliString]

lemma turnAbout_eq (hp : p * p = 1) (a : ℝ) :
    turnAbout a p = (cos (a / 2) : ℂ) • (1 : Operator n) - (I * sin (a / 2)) • p := by
  have hsq : p ^ 2 = 1 := by rw [pow_two, hp]
  have hexp : ∀ z : ℂ, NormedSpace.exp (z • p) =
      Complex.cosh z • (1 : Operator n) + Complex.sinh z • p := by
    intro z
    have heven : ∀ k, (z • p) ^ (2 * k) = z ^ (2 * k) • (1 : Operator n) := by
      intro k
      rw [smul_pow, pow_mul p, hsq, one_pow]
    have hodd : ∀ k, (z • p) ^ (2 * k + 1) = z ^ (2 * k + 1) • p := by
      intro k
      rw [smul_pow, pow_succ p, pow_mul p, hsq, one_pow, one_mul]
    rw [NormedSpace.exp_eq_tsum ℂ]
    refine HasSum.tsum_eq (HasSum.even_add_odd ?_ ?_)
    · simp only [heven, smul_smul]
      simpa [div_eq_inv_mul] using (Complex.hasSum_cosh z).smul_const (1 : Operator n)
    · simp only [hodd, smul_smul]
      simpa [div_eq_inv_mul] using (Complex.hasSum_sinh z).smul_const p
  have hz : -(I * (a / 2 : ℂ)) = -((a / 2 : ℂ) * I) := by ring
  rw [turnAbout, hexp, hz, Complex.cosh_neg, Complex.sinh_neg, Complex.cosh_mul_I,
    Complex.sinh_mul_I]
  push_cast
  rw [neg_smul, sub_eq_add_neg, mul_comm I]

lemma turnAbout_zero (p : Operator n) : turnAbout 0 p = 1 := by
  simp [turnAbout, NormedSpace.exp_zero]

lemma turnAbout_add (hp : p * p = 1) (a b : ℝ) :
    turnAbout (a + b) p = turnAbout a p * turnAbout b p := by
  have hsplit : (a + b) / 2 = a / 2 + b / 2 := by ring
  rw [turnAbout_eq hp, turnAbout_eq hp, turnAbout_eq hp, hsplit, cos_add, sin_add]
  simp only [sub_mul, mul_sub, smul_mul_smul_comm, mul_one, one_mul, hp]
  push_cast
  have hI : I * (sin (a / 2) : ℂ) * (I * (sin (b / 2) : ℂ)) =
      -((sin (a / 2) : ℂ) * (sin (b / 2) : ℂ)) := by
    linear_combination (sin (a / 2) : ℂ) * (sin (b / 2) : ℂ) * Complex.I_mul_I
  push_cast at hI
  rw [hI]
  module

lemma turnAbout_pi (hp : p * p = 1) : turnAbout Real.pi p = (-I) • p := by
  rw [turnAbout_eq hp, Real.cos_pi_div_two, Real.sin_pi_div_two]
  simp

lemma turnAbout_commute {p q : Operator n} (hp : p * p = 1) (hq : q * q = 1) (h : Commute p q)
    (a b : ℝ) : Commute (turnAbout a p) (turnAbout b q) := by
  rw [turnAbout_eq hp, turnAbout_eq hq]
  have hone : ∀ (z : ℂ) (u : Operator n), Commute (z • (1 : Operator n)) u :=
    fun z u => (Commute.one_left u).smul_left z
  have hpq : ∀ y z : ℂ, Commute (y • p) (z • q) := fun y z => (h.smul_left y).smul_right z
  exact ((hone _ _).sub_left (((hone _ _).symm).sub_right (hpq _ _)))

lemma turnAbout_conj {p u : Operator n} (hp : p * p = 1) (hu : u * u = 1) (a : ℝ) :
    u * turnAbout a p * u = turnAbout a (u * p * u) := by
  have hconj : u * p * u * (u * p * u) = 1 := by
    calc u * p * u * (u * p * u) = u * (p * (u * u) * p) * u := by noncomm_ring
      _ = 1 := by rw [hu, mul_one, hp, mul_one, hu]
  rw [turnAbout_eq hp, turnAbout_eq hconj, mul_sub, sub_mul]
  simp only [mul_smul_comm, smul_mul_assoc, mul_one, hu]

lemma mul_turnAbout_neg {p q : Operator n} (hq : q * q = 1) (h : p * q = -(q * p)) (a : ℝ) :
    p * turnAbout a q = turnAbout (-a) q * p := by
  rw [turnAbout_eq hq, turnAbout_eq hq, neg_div, cos_neg, sin_neg, mul_sub, sub_mul]
  simp only [mul_smul_comm, smul_mul_assoc, mul_one, one_mul, h]
  push_cast
  module

namespace Bits

lemma bit_eq_false {x : Bits n} {q : Int} (h : ∀ i : Fin n, (i : Int) ≠ q) : x.bit q = false :=
  decide_eq_false fun ⟨i, hi, _⟩ => h i hi

variable (x y : Bits n)

lemma bit_add (q : Int) : (add x y).bit q = xor (x.bit q) (y.bit q) := by
  by_cases hq : ∃ i : Fin n, (i : Int) = q
  · obtain ⟨i, rfl⟩ := hq
    rw [bit_val, bit_val, bit_val, add]
  · have hne : ∀ i : Fin n, (i : Int) ≠ q := fun i hi => hq ⟨i, hi⟩
    simp [bit_eq_false hne]

variable (source goal : Nat)

lemma addBit_eq (x : Bits n) :
    addBit source goal x = if x.bit source then add x (ofLegs [(goal : Int)]) else x := by
  funext i
  cases hx : x.bit source with
  | false => simp [addBit, hx]
  | true =>
    by_cases hi : (i : Nat) = goal
    · subst hi
      simp [addBit, hx, add, ofLegs_single]
    · have hne : (i : Int) ≠ (goal : Int) := by exact_mod_cast hi
      simp [addBit, hi, add, ofLegs_single, hne]

lemma bit_addBit {source goal : Nat} (h : source ≠ goal) (x : Bits n) :
    (addBit source goal x).bit source = x.bit source := by
  have hne : ∀ y : Bits n, (add y (ofLegs [(goal : Int)])).bit source = y.bit source := by
    intro y
    have hoff : (ofLegs [(goal : Int)] : Bits n).bit source = false := by
      refine decide_eq_false ?_
      rintro ⟨i, hi, hl⟩
      rw [ofLegs_single, decide_eq_true_eq] at hl
      exact h (by exact_mod_cast hi.symm.trans hl)
    rw [bit_add, hoff, Bool.xor_false]
  rw [addBit_eq]
  split
  · exact hne x
  · rfl

lemma addBit_addBit {source goal : Nat} (h : source ≠ goal) (x : Bits n) :
    addBit source goal (addBit source goal x) = x := by
  rw [addBit_eq source goal (addBit source goal x), bit_addBit h, addBit_eq]
  split
  · rw [add_assoc, add_self]
    funext i
    simp [add]
  · rfl

lemma addBit_add :
    addBit source goal (add x y) = add (addBit source goal x) (addBit source goal y) := by
  funext i
  by_cases hi : (i : Nat) = goal
  · simp only [addBit, hi, add, bit_add, if_true]
    cases x i <;> cases y i <;> cases x.bit source <;> cases y.bit source <;> rfl
  · simp [addBit, hi, add]

lemma sign_addBit : sign x (addBit source goal y) = sign (addBit goal source x) y := by
  rw [addBit_eq, addBit_eq]
  cases hy : y.bit source <;> cases hx : x.bit goal <;>
    simp [sign_add, sign_add_left, sign_comm x (ofLegs _), sign_single, hx, hy]

end Bits

/-- What a CX gate makes of the legs of a gadget: in Z gadgets the control takes the sum, in X
gadgets the target. -/
def CX.onBits (g : CX) : Basis → Bits n → Bits n
  | .z => Bits.addBit g.2 g.1
  | .x => Bits.addBit g.1 g.2

lemma CX.unitary_mul_self {g : CX} (h : g.1 ≠ g.2) : CX.unitary n g * CX.unitary n g = 1 := by
  rw [CX.unitary, monomial_mul, ← monomial_one]
  congr 1
  · funext x
    exact Bits.addBit_addBit h x
  · simp

lemma CX.unitary_conj {g : CX} (h : g.1 ≠ g.2) (b : Basis) (m : Bits n) :
    CX.unitary n g * stringOn b m * CX.unitary n g = stringOn b (g.onBits b m) := by
  cases b with
  | z =>
    simp only [CX.unitary, stringOn, monomial_mul]
    congr 1
    · funext x
      exact Bits.addBit_addBit h x
    · funext x
      simp [CX.onBits, Bits.sign_addBit]
  | x =>
    simp only [CX.unitary, stringOn, monomial_mul]
    congr 1
    · funext x
      simp only [Function.comp, CX.onBits]
      rw [Bits.addBit_add, Bits.addBit_addBit h]
    · simp

section Gadgets

variable (value : AngleExpr → ℝ)

lemma Gadget.unitary_eq (g : Gadget) :
    g.unitary n value = turnAbout (value g.angle) (stringOn g.basis (Bits.ofLegs g.legs)) := by
  rw [Gadget.unitary, pauliString_eq]

lemma Gadget.unitary_commute {g h : Gadget} (hb : g.basis = h.basis) :
    Commute (g.unitary n value) (h.unitary n value) := by
  rw [Gadget.unitary_eq, Gadget.unitary_eq, hb]
  exact turnAbout_commute (stringOn_mul_self _ _) (stringOn_mul_self _ _)
    (stringOn_commute _ _ _) _ _

/-- A gadget between two CX gates is the gadget on the legs that the gate makes of its legs. -/
theorem Gadget.unitary_conj {g : Gadget} {g' : Gadget} {k : CX} (hk : k.1 ≠ k.2)
    (hb : g'.basis = g.basis) (ha : g'.angle = g.angle)
    (hl : (Bits.ofLegs g'.legs : Bits n) = k.onBits g.basis (Bits.ofLegs g.legs)) :
    CX.unitary n k * g.unitary n value * CX.unitary n k = g'.unitary n value := by
  rw [Gadget.unitary_eq, Gadget.unitary_eq, hb, ha, hl,
    turnAbout_conj (stringOn_mul_self _ _) (CX.unitary_mul_self hk), CX.unitary_conj hk]

end Gadgets

end GadgetCircuits
