import GadgetCircuits.Pauli.Clifford
import GadgetCircuits.Proofs.TableauSteps

/-!
The gates H, S, V and the controlled X, Y and Z, as unitaries and as rules on Pauli strings. Each of
them is a circuit of H, S and CX, which shows what conjugation does to a string; the rules agree with
that for all letters.
-/

namespace GadgetCircuits

open List TableauGate Generator CliffordGate
open Complex (I)

variable {n : Nat}
variable {c t : Fin n} (q : Fin n)

open PauliVector

noncomputable def quarterTurnX (q : Fin n) : Operator n :=
  ((1 + I) / (2 : Nat)) • (1 : Operator n) + ((1 - I) / (2 : Nat)) • pauli n .x (q : Nat)

noncomputable def controlled (c : Fin n) (A : Operator n) : Operator n :=
  (1 / (2 : Nat) : ℂ) • (1 + pauli n .z (c : Nat)) +
    (1 / (2 : Nat) : ℂ) • ((1 - pauli n .z (c : Nat)) * A)

noncomputable def LocalClifford.unitary (q : Fin n) : LocalClifford → Operator n
  | .h => hadamard q
  | .s => quarterTurn q
  | .v => quarterTurnX q

noncomputable def PairClifford.unitary (c t : Fin n) : PairClifford → Operator n
  | .cx => controlled c (pauli n .x (t : Nat))
  | .cy => controlled c (I • (pauli n .x (t : Nat) * pauli n .z (t : Nat)))
  | .cz => controlled c (pauli n .z (t : Nat))

noncomputable def CliffordGate.unitary : CliffordGate (Fin n) → Operator n
  | .one g q => g.unitary q
  | .two g c t => g.unitary c t

def LocalClifford.circuit (q : Fin n) : LocalClifford → List (TableauGate n)
  | .h => [.h q]
  | .s => [.s q]
  | .v => [.h q, .s q, .h q]

def PairClifford.circuit {c t : Fin n} (hne : c ≠ t) : PairClifford → List (TableauGate n)
  | .cx => [.cx c t hne]
  | .cy => [.s t, .s t, .s t, .cx c t hne, .s t]
  | .cz => [.h t, .cx c t hne, .h t]

lemma hadamard_mul_pauli (b : Basis) :
    hadamard q * pauli n b (q : Nat) = pauli n b.other (q : Nat) * hadamard q := by
  have hscalar : (pauli n .x (q : Nat) + pauli n .z (q : Nat)) * pauli n b (q : Nat) =
      pauli n b.other (q : Nat) * (pauli n .x (q : Nat) + pauli n .z (q : Nat)) := by
    cases b <;> rw [Basis.other, add_mul, mul_add, pauli_mul_self, pauli_mul_self, add_comm]
  rw [hadamard, smul_mul_assoc, mul_smul_comm, hscalar]

lemma quarterTurn_mul_x : quarterTurn q * pauli n .x (q : Nat) =
    I • (pauli n .x (q : Nat) * pauli n .z (q : Nat)) * quarterTurn q := by
  have hz := pauli_eq_weyl .z q
  rw [on_z] at hz
  have hxzz : pauli n .x (q : Nat) * pauli n .z (q : Nat) * pauli n .z (q : Nat) =
      pauli n .x (q : Nat) := by
    rw [mul_assoc, pauli_mul_self, mul_one]
  rw [quarterTurn_eq, ← hz]
  simp only [add_mul, mul_add, smul_mul_assoc, mul_smul_comm, one_mul, mul_one, hxzz,
    pauli_anticommute q, smul_neg, smul_smul]
  rw [add_comm, ← neg_smul]
  congr 2
  · linear_combination (-1 / 2 : ℂ) * Complex.I_mul_I
  · linear_combination (1 / 2 : ℂ) * Complex.I_mul_I

lemma quarterTurnX_eq : quarterTurnX q = hadamard q * quarterTurn q * hadamard q := by
  have hz := pauli_eq_weyl .z q
  rw [on_z] at hz
  rw [quarterTurnX, Nat.cast_ofNat, quarterTurn_eq, ← hz, mul_add, add_mul, mul_smul_comm,
    mul_smul_comm, smul_mul_assoc, smul_mul_assoc, mul_one, hadamard_mul_self, hadamard_mul_pauli, Basis.other,
    mul_assoc, hadamard_mul_self, mul_one]

lemma LocalClifford.circuitUnitary_circuit (g : LocalClifford) :
    circuitUnitary (g.circuit q) = g.unitary q := by
  cases g with
  | h => simp [circuit, unitary, circuitUnitary, TableauGate.unitary]
  | s => simp [circuit, unitary, circuitUnitary, TableauGate.unitary]
  | v => simp [circuit, unitary, circuitUnitary, TableauGate.unitary, quarterTurnX_eq, mul_assoc]

lemma pauli_commute (a b : Basis) (hne : c ≠ t) :
    Commute (pauli n a (c : Nat)) (pauli n b (t : Nat)) := by
  by_cases hab : b = a
  · rw [hab, pauli_eq, pauli_eq]
    exact stringOn_commute _ _ _
  · obtain rfl : b = a.other := by cases a <;> cases b <;> simp_all [Basis.other]
    have hoff : ¬ ((t : Nat) : Int) = ((c : Nat) : Int) := fun e =>
      hne (Fin.ext (Int.ofNat_inj.mp e)).symm
    have hsign : Bits.sign (Bits.ofLegs [((c : Nat) : Int)])
        (Bits.ofLegs [((t : Nat) : Int)] : Bits n) = 1 := by
      rw [Bits.sign_comm, Bits.sign_single, Bits.bit_val, Bits.ofLegs_single, decide_eq_false hoff]
      rfl
    rw [pauli_eq, pauli_eq, Commute, SemiconjBy, stringOn_other, hsign, one_smul]

lemma controlled_conj {U V A B : Operator n} (hUV : U * V = 1)
    (hcomm : U * pauli n .z (c : Nat) = pauli n .z (c : Nat) * U) (hA : U * A = B * U) :
    U * controlled c A * V = controlled c B := by
  have hz : U * pauli n .z (c : Nat) * V = pauli n .z (c : Nat) := by
    rw [hcomm, mul_assoc, hUV, mul_one]
  have hB : U * A * V = B := by
    rw [hA, mul_assoc, hUV, mul_one]
  have hzB : U * (pauli n .z (c : Nat) * A) * V = pauli n .z (c : Nat) * B := by
    rw [← mul_assoc, hcomm, mul_assoc _ U, hA, mul_assoc, mul_assoc, hUV, mul_one]
  simp only [controlled, mul_add, add_mul, sub_mul, mul_sub, mul_smul_comm, smul_mul_assoc, mul_one,
    one_mul, hUV, hz, hB, hzB]

lemma controlled_mul {A B : Operator n} (hA : Commute A (pauli n .z (c : Nat))) :
    controlled c A * controlled c B = controlled c (A * B) := by
  have hz := pauli_mul_self (n := n) .z (c : Nat)
  simp only [controlled]
  generalize pauli n .z (c : Nat) = z at hA hz
  have hsame : (1 + z) * (1 + z) = 2 • (1 + z) := by
    rw [add_mul, mul_add, mul_add, hz]
    noncomm_ring
  have hdiff : (1 + z) * (1 - z) = 0 := by
    rw [add_mul, mul_sub, mul_sub, hz]
    noncomm_ring
  have hplus : (1 - z) * A * (1 + z) = 0 := by
    rw [mul_assoc, mul_add, hA.eq, mul_one, ← one_add_mul, ← mul_assoc, sub_mul, mul_add, mul_add, hz]
    noncomm_ring
  have hminus : (1 - z) * A * ((1 - z) * B) = 2 • ((1 - z) * (A * B)) := by
    have hpass : A * (1 - z) = (1 - z) * A := by
      rw [mul_sub, hA.eq, mul_one, sub_mul, one_mul]
    have hidem : (1 - z) * (1 - z) = 2 • (1 - z) := by
      rw [sub_mul, mul_sub, mul_sub, hz]
      noncomm_ring
    calc (1 - z) * A * ((1 - z) * B) = (1 - z) * (A * (1 - z)) * B := by simp only [mul_assoc]
      _ = (1 - z) * (1 - z) * (A * B) := by rw [hpass]; simp only [mul_assoc]
      _ = 2 • ((1 - z) * (A * B)) := by rw [hidem, smul_mul_assoc]
  have hhalf : ∀ C : Operator n,
      (1 / (2 : Nat) * (1 / (2 : Nat)) : ℂ) • (2 • C) = (1 / (2 : Nat) : ℂ) • C := by
    intro C
    rw [← Nat.cast_smul_eq_nsmul ℂ, smul_smul]
    norm_num
  rw [add_mul, mul_add, mul_add, smul_mul_smul_comm, smul_mul_smul_comm, smul_mul_smul_comm,
    smul_mul_smul_comm, ← mul_assoc (1 + z), hsame, hdiff, hplus, hminus, zero_mul, smul_zero, add_zero,
    zero_add, hhalf, hhalf]

lemma controlled_one (c : Fin n) : controlled c (1 : Operator n) = 1 := by
  rw [controlled, mul_one, ← smul_add, add_add_sub_cancel, ← two_smul ℂ, smul_smul, Nat.cast_ofNat]
  norm_num

lemma TableauGate.unitary_mul_z {g : TableauGate n} {q : Fin n} (hg : g.qubits = [q]) (hne : c ≠ q) :
    g.unitary * pauli n .z (c : Nat) = pauli n .z (c : Nat) * g.unitary := by
  have htrivial : ∀ r ∈ g.qubits, TrivialAt (Pi.single (on .z c) 1 : PauliVector n) r := by
    intro r hr b
    rw [hg, mem_singleton] at hr
    rw [hr]
    exact Pi.single_eq_of_ne (fun e => hne (on_inj.mp e).2.symm) _
  have hpower : g.power (Pi.single (on .z c) 1) = 0 := by
    cases g <;> simp [power]
  rw [pauli_eq_weyl, g.unitary_mul_weyl, hpower, add_zero, g.onVector_of_trivialAt htrivial]

lemma cx_eq_controlled (hne : c ≠ t) : CX.unitary n (c, t) = controlled c (pauli n .x (t : Nat)) := by
  have hflip : ∀ y : Bits n, Bits.flip ((t : Nat) : Int) y c = y c := by
    intro y
    have hct : ¬ ((c : Nat) : Int) = ((t : Nat) : Int) := fun e => hne (Fin.ext (Int.ofNat_inj.mp e))
    simp [Bits.flip, hct]
  have hadd : ∀ y : Bits n, Bits.addBit c t y =
      if y c then Bits.flip ((t : Nat) : Int) y else y := by
    intro y
    funext i
    have hit : ((i : Nat) : Int) = ((t : Nat) : Int) ↔ (i : Nat) = t := Int.ofNat_inj
    rw [Bits.addBit, Bits.bit_val]
    by_cases hy : y c
    · by_cases hi : (i : Nat) = t <;> simp [hy, hi, Bits.flip, hit]
    · simp [hy]
  rw [controlled, Nat.cast_ofNat, sub_mul, one_mul, CX.unitary, pauli, pauli, monomial_mul,
    ← monomial_one]
  ext x y
  simp only [Matrix.add_apply, Matrix.sub_apply, Matrix.smul_apply, smul_eq_mul, monomial, hadd,
    Function.comp_apply, id, Bits.bit_val, hflip, mul_one]
  grind

lemma quarterTurn_pow_four :
    quarterTurn q * (quarterTurn q * quarterTurn q * quarterTurn q) = 1 := by
  have hfour : ∀ a : ℂ, a = I ∨ a = 1 → a * (a * a * a) = 1 := by simp
  simp only [quarterTurn, monomial_mul, Function.comp_id, id]
  rw [← monomial_one]
  congr 1
  funext y
  apply hfour
  split
  · exact Or.inl rfl
  · exact Or.inr rfl

lemma PairClifford.circuitUnitary_circuit (hne : c ≠ t) (g : PairClifford) :
    circuitUnitary (g.circuit hne) = g.unitary c t := by
  cases g with
  | cx => simp [circuit, unitary, circuitUnitary, TableauGate.unitary, cx_eq_controlled hne]
  | cy =>
    have hconj := controlled_conj (quarterTurn_pow_four t)
      (unitary_mul_z (g := .s t) rfl hne) (quarterTurn_mul_x t)
    rw [unitary, ← hconj, ← cx_eq_controlled hne]
    simp [circuit, circuitUnitary, TableauGate.unitary, mul_assoc]
  | cz =>
    have hconj := controlled_conj (B := pauli n .z (t : Nat)) (hadamard_mul_self t)
      (unitary_mul_z (g := .h t) rfl hne) (hadamard_mul_pauli t .x)
    rw [unitary, ← hconj, ← cx_eq_controlled hne]
    simp [circuit, circuitUnitary, TableauGate.unitary, mul_assoc]

lemma PairClifford.unitary_mul_self (hne : c ≠ t) (g : PairClifford) :
    g.unitary c t * g.unitary c t = 1 := by
  have hx := pauli_commute .x .z hne.symm
  have hz := pauli_commute .z .z hne.symm
  rw [← controlled_one c]
  cases g with
  | cx => rw [unitary, controlled_mul hx, pauli_mul_self]
  | cy =>
    have hsq : (I • (pauli n .x (t : Nat) * pauli n .z (t : Nat))) *
        (I • (pauli n .x (t : Nat) * pauli n .z (t : Nat))) = 1 := by
      calc _ = (I * I) • (pauli n .x (t : Nat) *
            (pauli n .z (t : Nat) * pauli n .x (t : Nat)) * pauli n .z (t : Nat)) := by
            rw [smul_mul_smul_comm]
            simp only [mul_assoc]
        _ = 1 := by
            rw [pauli_anticommute, Complex.I_mul_I, mul_neg, ← mul_assoc, pauli_mul_self, one_mul,
              neg_mul, pauli_mul_self, smul_neg, neg_one_smul, neg_neg]
    rw [unitary, controlled_mul ((hx.mul_left hz).smul_left _), hsq]
  | cz => rw [unitary, controlled_mul hz, pauli_mul_self]

def Pauli.bit : Basis → Pauli → ZMod 2
  | .x, .x => 1
  | .x, .y => 1
  | .z, .y => 1
  | .z, .z => 1
  | _, _ => 0

def PauliVector.ofPaulis (n : Nat) (ps : List Pauli) : PauliVector n
  | .inl q => (pauliAt ps q).bit .x
  | .inr q => (pauliAt ps q).bit .z

lemma ofPaulis_on (ps : List Pauli) (b : Basis) (q : Fin n) :
    ofPaulis n ps (.on b q) = (pauliAt ps q).bit b := by
  cases b <;> rfl

namespace CliffordGate

lemma pauliAt_set {ps : List Pauli} {q : Nat} (hq : q < ps.length) (p : Pauli) (r : Nat) :
    pauliAt (ps.set q p) r = if r = q then p else pauliAt ps r := by
  rw [pauliAt, pauliAt, getElem?_set]
  by_cases hr : r = q
  · simp [hr, hq]
  · simp [hr, Ne.symm hr]

def Proper : CliffordGate (Fin n) → Prop
  | .one _ _ => True
  | .two _ c t => c ≠ t

def signBit (s : Int) : ZMod 2 :=
  if s = -1 then 1 else 0

end CliffordGate

lemma actAll_off {gs : List (TableauGate n)} {q : Fin n} (hq : ∀ g ∈ gs, q ∉ g.qubits)
    (p : SignedPauli n) (b : Basis) : (actAll gs p).vec (.on b q) = p.vec (.on b q) := by
  induction gs generalizing p with
  | nil => rfl
  | cons g gs ih =>
    refine (ih (fun g' hg' => hq g' (mem_cons_of_mem g hg')) (g.act p)).trans ?_
    exact g.onVector_off p.vec (hq g mem_cons_self) b

lemma Basis.forall_iff {P : Basis → Prop} : (∀ b, P b) ↔ P .x ∧ P .z :=
  ⟨fun h => ⟨h .x, h .z⟩, fun h b => by cases b <;> simp [h]⟩

lemma LocalClifford.circuit_act (g : LocalClifford) (q : Fin n) {p : SignedPauli n} {a : Pauli}
    (hq : ∀ b, p.vec (.on b q) = (g.rule a).2.bit b)
    (hs : p.sign = signBit (g.rule a).1) :
    (∀ b, (actAll (g.circuit q) p).vec (.on b q) = a.bit b) ∧ (actAll (g.circuit q) p).sign = 0 := by
  simp only [Basis.forall_iff, on_x, on_z] at hq ⊢
  cases g <;>
    simp only [circuit, actAll, foldl_cons, foldl_nil, TableauGate.act,
      TableauGate.turnsSign, h_onVector_inl, h_onVector_inr,
      s_onVector_inl, s_onVector_inr, hq, hs] <;>
    cases a <;> decide

namespace TableauGate

variable (hne : c ≠ t) (v : PauliVector n)

lemma cx_onVector_control : (cx c t hne).onVector v (.inl c) = v (.inl c) ∧
    (cx c t hne).onVector v (.inr c) = v (.inr c) + v (.inr t) := by
  simp [onVector, hne]

lemma cx_onVector_target : (cx c t hne).onVector v (.inl t) = v (.inl t) + v (.inl c) ∧
    (cx c t hne).onVector v (.inr t) = v (.inr t) := by
  simp [onVector, hne.symm]

end TableauGate

lemma PairClifford.circuit_act (g : PairClifford) {c t : Fin n} (hne : c ≠ t) {p : SignedPauli n}
    {a b : Pauli} (hc : ∀ k, p.vec (.on k c) = (g.rule a b).2.1.bit k)
    (ht : ∀ k, p.vec (.on k t) = (g.rule a b).2.2.bit k)
    (hs : p.sign = signBit (g.rule a b).1) :
    (∀ k, (actAll (g.circuit hne) p).vec (.on k c) = a.bit k) ∧
      (∀ k, (actAll (g.circuit hne) p).vec (.on k t) = b.bit k) ∧
      (actAll (g.circuit hne) p).sign = 0 := by
  have hoff : ∀ g : TableauGate n, c ∉ g.qubits → ∀ v : PauliVector n,
      g.onVector v (.inl c) = v (.inl c) ∧ g.onVector v (.inr c) = v (.inr c) :=
    fun g hg v => ⟨g.onVector_off v hg .x, g.onVector_off v hg .z⟩
  have hh := hoff (.h t) (by simpa [TableauGate.qubits] using hne)
  have hturn := hoff (.s t) (by simpa [TableauGate.qubits] using hne)
  simp only [Basis.forall_iff, on_x, on_z] at hc ht ⊢
  cases g <;>
    simp only [circuit, actAll, foldl_cons, foldl_nil, TableauGate.act,
      TableauGate.turnsSign, h_onVector_inl, h_onVector_inr,
      s_onVector_inl, s_onVector_inr, cx_onVector_control,
      cx_onVector_target, hh, hturn, hc, ht, hs] <;>
    cases a <;> cases b <;> decide

namespace CliffordGate

variable {s : Int} {ps : List Pauli} {gs : List (TableauGate n)} {g : CliffordGate (Fin n)}

def onPaulis (g : CliffordGate (Fin n)) (ps : List Pauli) : Int × List Pauli :=
  (g.map Fin.val).apply ps

lemma onPaulis_length (ps : List Pauli) : (g.onPaulis ps).2.length = ps.length := by
  cases g with
  | one g q => exact length_set
  | two g c t => exact length_set.trans length_set

lemma onPaulis_sign (ps : List Pauli) : (g.onPaulis ps).1 = 1 ∨ (g.onPaulis ps).1 = -1 := by
  cases g with
  | one g q =>
    have hrule : ∀ a, (g.rule a).1 = 1 ∨ (g.rule a).1 = -1 := by
      intro a
      cases g <;> cases a <;> decide
    exact hrule _
  | two g c t =>
    have hrule : ∀ a b, (g.rule a b).1 = 1 ∨ (g.rule a b).1 = -1 := by
      intro a b
      cases g <;> cases a <;> cases b <;> decide
    exact hrule _ _

lemma cast_sign (hs : s = 1 ∨ s = -1) : (s : ℂ) = (-1) ^ (signBit s).val := by
  rcases hs with rfl | rfl
  · simp [signBit]
  · simp [signBit, ZMod.val_one]

lemma actAll_eq_ofPaulis (qs : List (Fin n)) {p : SignedPauli n}
    (hgs : ∀ g ∈ gs, ∀ q ∈ g.qubits, q ∈ qs)
    (hoff : ∀ q, q ∉ qs → ∀ b, p.vec (.on b q) = (pauliAt ps q).bit b)
    (hon : ∀ q ∈ qs, ∀ b, (actAll gs p).vec (.on b q) = (pauliAt ps q).bit b)
    (hsign : (actAll gs p).sign = 0) : actAll gs p = ⟨ofPaulis n ps, 0⟩ := by
  apply SignedPauli.ext _ hsign
  funext k
  obtain ⟨b, q, rfl⟩ := k.exists_on
  refine Eq.trans ?_ (ofPaulis_on ps b q).symm
  by_cases hq : q ∈ qs
  · exact hon q hq b
  · rw [actAll_off (fun g hg hmem => hq (hgs g hg q hmem)), hoff q hq]

lemma moves_of_actAll (qs : List (Fin n)) {ps' : List Pauli}
    (hgs : ∀ g ∈ gs, ∀ q ∈ g.qubits, q ∈ qs) (hoff : ∀ q, q ∉ qs → pauliAt ps' q = pauliAt ps q)
    (hon : ∀ q ∈ qs, ∀ b, (actAll gs ⟨ofPaulis n ps', signBit s⟩).vec (.on b q) = (pauliAt ps q).bit b)
    (hsign : (actAll gs ⟨ofPaulis n ps', signBit s⟩).sign = 0) :
    Moves (circuitUnitary gs) ⟨ofPaulis n ps', signBit s⟩ ⟨ofPaulis n ps, 0⟩ := by
  rw [← actAll_eq_ofPaulis qs hgs (fun q hq b => ?_) hon hsign]
  · exact circuitUnitary_moves _ _
  · exact (ofPaulis_on ps' b q).trans (by rw [hoff q hq])

lemma local_moves (g : LocalClifford) (q : Fin n) (hps : ps.length = n) {a : Pauli}
    (hrule : g.rule (pauliAt ps q) = (s, a)) :
    Moves (g.unitary q) ⟨ofPaulis n (ps.set q a), signBit s⟩ ⟨ofPaulis n ps, 0⟩ := by
  have hset := pauliAt_set (q.isLt.trans_eq hps.symm) a
  obtain ⟨hon, hsign⟩ := g.circuit_act q (p := ⟨ofPaulis n (ps.set q a), signBit s⟩)
    (a := pauliAt ps q) (fun b => (ofPaulis_on _ b q).trans (by rw [hset, if_pos rfl, hrule])) (by rw [hrule])
  rw [← g.circuitUnitary_circuit]
  refine moves_of_actAll [q] ?_ (fun r hr => ?_) (fun r hr => ?_) hsign
  · cases g <;> simp [LocalClifford.circuit, TableauGate.qubits]
  · grind
  · rw [mem_singleton.mp hr]
    exact hon

lemma pair_moves (g : PairClifford) {c t : Fin n} (hne : c ≠ t) (hps : ps.length = n) {a b : Pauli}
    (hrule : g.rule (pauliAt ps c) (pauliAt ps t) = (s, a, b)) :
    Moves (g.unitary c t) ⟨ofPaulis n ((ps.set c a).set t b), signBit s⟩ ⟨ofPaulis n ps, 0⟩ := by
  have hct : (c : Nat) ≠ t := fun e => hne (Fin.ext e)
  have hset : ∀ r, pauliAt ((ps.set c a).set t b) r =
      if r = t then b else if r = c then a else pauliAt ps r := by
    intro r
    have hlength : (ps.set c a).length = n := length_set.trans hps
    rw [pauliAt_set (t.isLt.trans_eq hlength.symm), pauliAt_set (c.isLt.trans_eq hps.symm)]
  obtain ⟨hc, ht, hsign⟩ := g.circuit_act hne
    (p := ⟨ofPaulis n ((ps.set c a).set t b), signBit s⟩) (a := pauliAt ps c) (b := pauliAt ps t)
    (fun k => (ofPaulis_on _ k c).trans (by rw [hset, if_neg hct, if_pos rfl, hrule]))
    (fun k => (ofPaulis_on _ k t).trans (by rw [hset, if_pos rfl, hrule])) (by rw [hrule])
  rw [← g.circuitUnitary_circuit hne]
  refine moves_of_actAll [c, t] ?_ (fun r hr => ?_) (fun r hr => ?_) hsign
  · cases g <;> simp [PairClifford.circuit, TableauGate.qubits]
  · grind
  · rcases mem_pair.mp hr with rfl | rfl
    · exact hc
    · exact ht

lemma unitary_moves (hg : g.Proper) (hps : ps.length = n) :
    Moves g.unitary ⟨ofPaulis n (g.onPaulis ps).2, signBit (g.onPaulis ps).1⟩ ⟨ofPaulis n ps, 0⟩ := by
  cases g with
  | one g q => exact local_moves g q hps rfl
  | two g c t => exact pair_moves g hg hps rfl

lemma unitary_conjTranspose_mul (hg : g.Proper) : g.unitary.conjTranspose * g.unitary = 1 := by
  cases g with
  | one g q =>
    rw [unitary, ← g.circuitUnitary_circuit]
    exact circuitUnitary_conjTranspose_mul _
  | two g c t =>
    rw [unitary, ← g.circuitUnitary_circuit hg]
    exact circuitUnitary_conjTranspose_mul _

end CliffordGate

noncomputable def stringOperator (n : Nat) (ps : List Pauli) : Operator n :=
  (⟨ofPaulis n ps, 0⟩ : SignedPauli n).operator

lemma CliffordGate.conj_string {g : CliffordGate (Fin n)} (hg : g.Proper) {ps : List Pauli}
    (hps : ps.length = n) :
    g.unitary.conjTranspose * stringOperator n ps * g.unitary =
      ((g.onPaulis ps).1 : ℂ) • stringOperator n (g.onPaulis ps).2 := by
  have hU := unitary_conjTranspose_mul hg
  have hmoves : g.unitary * _ * g.unitary.conjTranspose = stringOperator n ps :=
    unitary_moves hg hps
  rw [← hmoves, SignedPauli.operator_eq_smul, ← cast_sign (g.onPaulis_sign ps), mul_smul_comm,
    smul_mul_assoc, mul_smul_comm, smul_mul_assoc]
  congr 1
  rw [mul_assoc, mul_assoc _ g.unitary.conjTranspose, hU, mul_one, ← mul_assoc, hU, one_mul]
  rfl

end GadgetCircuits
