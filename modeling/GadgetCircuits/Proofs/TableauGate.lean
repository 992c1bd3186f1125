import GadgetCircuits.Proofs.Unitary

/-!
Pauli strings with a sign, and the gates H, S and CX. A string is a vector of bits, two for each qubit.
Written with all X before all Z, strings multiply by adding their vectors, up to a power of `i`. Each gate
has a unitary, which moves strings to strings by conjugation and may turn the sign.
-/

namespace GadgetCircuits

open Pi AddChar Complex

open Complex (I)

/-- The generators of the Pauli strings: X on each qubit, then Z on each qubit. -/
abbrev Generator (n : Nat) := Fin n ⊕ Fin n

def Generator.on {n : Nat} : Basis → Fin n → Generator n
  | .x, q => .inl q
  | .z, q => .inr q

@[simp] lemma Generator.on_x {n : Nat} (q : Fin n) : Generator.on .x q = .inl q := rfl

@[simp] lemma Generator.on_z {n : Nat} (q : Fin n) : Generator.on .z q = .inr q := rfl

/-- The bits of a Pauli string, for X on the left and for Z on the right. -/
abbrev PauliVector (n : Nat) := Generator n → ZMod 2

/-- A Pauli string with a sign. -/
@[ext] structure SignedPauli (n : Nat) where
  vec : PauliVector n
  sign : ZMod 2

variable {n : Nat} (k : ZMod 4) (v : PauliVector n) (b : Basis)

noncomputable def letterOn (q : Fin n) (x z : ZMod 2) : Operator n :=
  if x = 1 then
    if z = 1 then I • (pauli n .x (q : Nat) * pauli n .z (q : Nat)) else pauli n .x (q : Nat)
  else if z = 1 then pauli n .z (q : Nat) else 1

/-- The operator of a Pauli string: the product of its letters, with its sign. -/
noncomputable def SignedPauli.operator (p : SignedPauli n) : Operator n :=
  (-1 : ℂ) ^ p.sign.val •
    ((List.finRange n).map fun q => letterOn q (p.vec (.inl q)) (p.vec (.inr q))).prod

def SignedPauli.generator (k : Generator n) : SignedPauli n :=
  ⟨single k 1, 0⟩

noncomputable def iPow : AddChar (ZMod 4) ℂ :=
  zmodChar 4 I_pow_four

lemma iPow_apply : iPow k = I ^ k.val := zmodChar_apply _ k

lemma iPow_one : iPow 1 = I := by
  rw [iPow_apply, show (1 : ZMod 4).val = 1 from rfl, pow_one]

lemma iPow_two : iPow 2 = -1 := by
  rw [iPow_apply, show (2 : ZMod 4).val = 2 from rfl, I_sq]

lemma iPow_ne_zero : iPow k ≠ 0 := by
  rw [iPow_apply]
  exact pow_ne_zero _ I_ne_zero

lemma iPow_injective : Function.Injective iPow := by
  intro a b h
  rw [iPow_apply, iPow_apply] at h
  have hprim : IsPrimitiveRoot I 4 := isPrimitiveRoot_I
  exact ZMod.val_injective 4 (hprim.pow_inj (ZMod.val_lt a) (ZMod.val_lt b) h)

lemma iPow_sum {ι : Type} (s : Finset ι) (f : ι → ZMod 4) :
    iPow (∑ i ∈ s, f i) = ∏ i ∈ s, iPow (f i) :=
  map_prod iPow.toMonoidHom (fun i => Multiplicative.ofAdd (f i)) s

lemma bit_cases (a : ZMod 2) : a = 0 ∨ a = 1 := by
  revert a
  decide

def once (a : ZMod 2) : ZMod 4 := a.val

@[simp] lemma once_zero : once 0 = 0 := rfl

@[simp] lemma once_one : once 1 = 1 := rfl

def twice : ZMod 2 →+ ZMod 4 where
  toFun a := once a + once a
  map_zero' := rfl
  map_add' := by decide

lemma twice_injective : Function.Injective twice := by
  unfold Function.Injective
  decide

lemma iPow_twice (a : ZMod 2) : iPow (twice a) = (-1) ^ a.val := by
  rcases bit_cases a with rfl | rfl
  · exact map_zero_eq_one iPow
  · exact iPow_two.trans (pow_one _).symm

def parity : ZMod 4 →+ ZMod 2 :=
  (ZMod.castHom (by decide : 2 ∣ 4) (ZMod 2)).toAddMonoidHom

def half (k : ZMod 4) : ZMod 2 :=
  if 1 < k.val then 1 else 0

lemma twice_half_neg : twice (half (-k)) = k + once (parity k) := by
  revert k
  decide

namespace PauliVector

variable (w : PauliVector n) (k : Generator n)

def bits (b : Basis) : Bits n :=
  fun q => decide (v (Generator.on b q) = 1)

@[simp] lemma bits_x (q : Fin n) : bits v .x q = decide (v (.inl q) = 1) := rfl

@[simp] lemma bits_z (q : Fin n) : bits v .z q = decide (v (.inr q) = 1) := rfl

/-- The qubits on which Z of the first string meets X of the second. -/
def meets : ZMod 2 := ∑ q, v (.inr q) * w (.inl q)

def ys : ZMod 4 := ∑ q, once (v (.inl q) * v (.inr q))

lemma meets_add_right (u : PauliVector n) : meets u (v + w) = meets u v + meets u w := by
  simp only [meets, Pi.add_apply, mul_add, Finset.sum_add_distrib]

lemma meets_single_left :
    meets (Pi.single k 1) v = match k with | .inl _ => 0 | .inr q => v (.inl q) := by
  cases k with
  | inl q => simp [meets]
  | inr q => simp [meets, single_apply]

lemma meets_single_right :
    meets v (single k 1) = match k with | .inl q => v (.inr q) | .inr _ => 0 := by
  cases k with
  | inl q => simp [meets, single_apply]
  | inr q => simp [meets]

lemma meets_single_single {k l : Generator n} (h : k.isLeft ∨ l.isRight) (a b : ZMod 2) :
    meets (single k a) (single l b) = 0 := by
  refine Finset.sum_eq_zero fun q _ => ?_
  grind

lemma bits_add (b : Basis) : bits (v + w) b = Bits.add (bits v b) (bits w b) := by
  have hxor : ∀ a c : ZMod 2, decide (a + c = 1) = xor (decide (a = 1)) (decide (c = 1)) := by
    decide
  exact funext fun q => hxor _ _

lemma sign_bits : Bits.sign (bits v .z) (bits w .x) = iPow (twice (meets v w)) := by
  rw [meets, map_sum, iPow_sum, Bits.sign]
  refine Finset.prod_congr rfl fun q _ => ?_
  rw [iPow_twice, bits_z, bits_x]
  rcases bit_cases (v (.inr q)) with h | h <;> rcases bit_cases (w (.inl q)) with h' | h' <;>
    simp [h, h', ZMod.val_one]

lemma ys_single : ys (single k 1) = 0 := by
  refine Finset.sum_eq_zero fun q _ => ?_
  cases k with
  | inl r => simp
  | inr r => simp

end PauliVector

open PauliVector

noncomputable def weyl (k : ZMod 4) (v : PauliVector n) : Operator n :=
  iPow k • (stringOn .x (v.bits .x) * stringOn .z (v.bits .z))

lemma weyl_mul (k l : ZMod 4) (v w : PauliVector n) :
    weyl k v * weyl l w = weyl (k + l + twice (meets v w)) (v + w) := by
  have hpass : stringOn .x (v.bits .x) * stringOn .z (v.bits .z) *
      (stringOn .x (w.bits .x) * stringOn .z (w.bits .z)) =
      iPow (twice (meets v w)) •
        (stringOn .x ((v + w).bits .x) * stringOn .z ((v + w).bits .z)) := by
    calc stringOn .x (v.bits .x) * stringOn .z (v.bits .z) *
          (stringOn .x (w.bits .x) * stringOn .z (w.bits .z))
        = stringOn .x (v.bits .x) * (stringOn .z (v.bits .z) * stringOn .x (w.bits .x)) *
          stringOn .z (w.bits .z) := by simp only [mul_assoc]
      _ = iPow (twice (meets v w)) • (stringOn .x (v.bits .x) * stringOn .x (w.bits .x) *
          (stringOn .z (v.bits .z) * stringOn .z (w.bits .z))) := by
        rw [stringOn_z_x, sign_bits]
        simp only [mul_smul_comm, smul_mul_assoc, mul_assoc]
      _ = _ := by rw [stringOn_mul, stringOn_mul, bits_add, bits_add]
  rw [weyl, weyl, weyl, smul_mul_smul_comm, hpass, smul_smul, map_add_eq_mul,
    map_add_eq_mul]

lemma weyl_zero : weyl 0 (0 : PauliVector n) = 1 := by
  have hbits : ∀ b, bits (0 : PauliVector n) b = fun _ => false := by
    intro b
    funext q
    simp [bits]
  rw [weyl, hbits, hbits, stringOn_false, stringOn_false, map_zero_eq_one, one_smul, mul_one]

lemma smul_weyl (k l : ZMod 4) (v : PauliVector n) : iPow k • weyl l v = weyl (k + l) v := by
  rw [weyl, weyl, smul_smul, map_add_eq_mul]

lemma weyl_eq_monomial :
    weyl k v = monomial (Bits.add (v.bits .x)) fun y => iPow k * Bits.sign (v.bits .z) y := by
  simp only [weyl, stringOn, monomial_mul, smul_monomial, one_mul]
  rfl

/-- An operator has only one form as a power of `i` and a string. -/
theorem weyl_inj {k l : ZMod 4} {v w : PauliVector n} (h : weyl k v = weyl l w) : k = l ∧ v = w := by
  rw [weyl_eq_monomial, weyl_eq_monomial] at h
  have hsign : ∀ x y : Bits n, Bits.sign x y ≠ 0 := by
    intro x y
    exact left_ne_zero_of_mul_eq_one (Bits.sign_mul_self x y)
  have hat : ∀ y : Bits n, Bits.add (v.bits .x) y = Bits.add (w.bits .x) y ∧
      iPow k * Bits.sign (v.bits .z) y = iPow l * Bits.sign (w.bits .z) y := by
    intro y
    have hentry := congrFun (congrFun h (Bits.add (v.bits .x) y)) y
    simp only [monomial, if_true] at hentry
    split at hentry
    · rename_i hsame
      exact ⟨hsame, hentry⟩
    · exact absurd hentry (mul_ne_zero (iPow_ne_zero k) (hsign _ y))
  -- The state with no bits shows X and the power of `i`; the states with one bit show Z.
  have hx : v.bits .x = w.bits .x := by
    funext q
    have := congrFun (hat fun _ => false).1 q
    simpa [Bits.add] using this
  have hk : k = l := by
    have := (hat fun _ => false).2
    rw [Bits.sign_comm, Bits.sign_false, Bits.sign_comm, Bits.sign_false, mul_one, mul_one] at this
    exact iPow_injective this
  have hz : v.bits .z = w.bits .z := by
    funext q
    have := (hat (Bits.ofLegs [((q : Nat) : Int)])).2
    rw [hk] at this
    have := mul_left_cancel₀ (iPow_ne_zero l) this
    rw [Bits.sign_comm, Bits.sign_single, Bits.sign_comm, Bits.sign_single, Bits.bit_val,
      Bits.bit_val] at this
    revert this
    cases v.bits .z q <;> cases w.bits .z q <;> norm_num
  have hone : ∀ a c : ZMod 2, decide (a = 1) = decide (c = 1) → a = c := by decide
  refine ⟨hk, funext fun g => ?_⟩
  cases g with
  | inl q => exact hone _ _ (congrFun hx q)
  | inr q => exact hone _ _ (congrFun hz q)

lemma pauli_eq_weyl (q : Fin n) : pauli n b (q : Nat) = weyl 0 (single (Generator.on b q) 1) := by
  have hsame : bits (single (Generator.on b q) 1) b = Bits.ofLegs [((q : Nat) : Int)] := by
    funext r
    rw [Bits.ofLegs_single]
    have hq : ((r : Nat) : Int) = ((q : Nat) : Int) ↔ r = q := by rw [Int.ofNat_inj, Fin.ext_iff]
    by_cases h : r = q <;> cases b <;> simp [hq, h]
  have hother : bits (single (Generator.on b q) 1) b.other = fun _ => false := by
    funext r
    cases b <;> simp [Basis.other]
  rw [pauli_eq, weyl, map_zero_eq_one, one_smul, ← hsame]
  cases b with
  | x => rw [show bits _ .z = _ from hother, stringOn_false, mul_one]
  | z => rw [show bits _ .x = _ from hother, stringOn_false, one_mul]

def PauliVector.at (v : PauliVector n) (q : Fin n) : PauliVector n :=
  single (.inl q) (v (.inl q)) + single (.inr q) (v (.inr q))

lemma letterOn_eq (q : Fin n) :
    letterOn q (v (.inl q)) (v (.inr q)) = weyl (once (v (.inl q) * v (.inr q))) (v.at q) := by
  rw [letterOn, PauliVector.at]
  rcases bit_cases (v (.inl q)) with hx | hx <;> rcases bit_cases (v (.inr q)) with hz | hz
  · rw [hx, hz, if_neg (by decide), if_neg (by decide), single_zero, single_zero, add_zero]
    exact weyl_zero.symm
  · rw [hx, hz, if_neg (by decide), if_pos rfl, single_zero, zero_add]
    exact pauli_eq_weyl .z q
  · rw [hx, hz, if_pos rfl, if_neg (by decide), single_zero, add_zero]
    exact pauli_eq_weyl .x q
  · rw [hx, hz, if_pos rfl, if_pos rfl, pauli_eq_weyl, pauli_eq_weyl, weyl_mul, ← iPow_one,
      smul_weyl, Generator.on_x, meets_single_left, map_zero]
    rfl

lemma prod_letterOn {qs : List (Fin n)} (h : qs.Nodup) :
    (qs.map fun q => letterOn q (v (.inl q)) (v (.inr q))).prod =
      weyl (qs.map fun q => once (v (.inl q) * v (.inr q))).sum (qs.map v.at).sum := by
  induction qs with
  | nil => exact weyl_zero.symm
  | cons q qs ih =>
    obtain ⟨hq, hqs⟩ := List.nodup_cons.mp h
    have hapart : ∀ rs : List (Fin n), q ∉ rs → (rs.map v.at).sum (.inl q) = 0 := by
      intro rs hrs
      induction rs with
      | nil => rfl
      | cons r rs ihr =>
        obtain ⟨hne, hrs⟩ := not_or.mp (List.mem_cons.not.mp hrs)
        rw [List.map_cons, List.sum_cons, Pi.add_apply, ihr hrs]
        simp [PauliVector.at, hne]
    have hmeets : meets (v.at q) (qs.map v.at).sum = 0 := by
      refine Finset.sum_eq_zero fun r _ => ?_
      by_cases hr : r = q
      · rw [hr, hapart qs hq, mul_zero]
      · simp [PauliVector.at, hr]
    simp only [List.map_cons, List.prod_cons, List.sum_cons]
    rw [ih hqs, letterOn_eq, weyl_mul, hmeets, map_zero, add_zero]

namespace SignedPauli

lemma operator_eq (p : SignedPauli n) : p.operator = weyl (ys p.vec + twice p.sign) p.vec := by
  have hvec : ((List.finRange n).map p.vec.at).sum = p.vec := by
    rw [← Fin.sum_univ_def]
    funext k
    rw [Finset.sum_apply]
    cases k with
    | inl q => simp [PauliVector.at, single_apply]
    | inr q => simp [PauliVector.at, single_apply]
  rw [operator, prod_letterOn p.vec (List.nodup_finRange n), hvec, ← iPow_twice, smul_weyl,
    add_comm, ← Fin.sum_univ_def, ys]

lemma operator_eq_smul (p : SignedPauli n) :
    p.operator = (-1 : ℂ) ^ p.sign.val • (⟨p.vec, 0⟩ : SignedPauli n).operator := by
  rw [operator_eq, operator_eq, map_zero, add_zero, ← iPow_twice, smul_weyl, add_comm]

lemma operator_one : (⟨0, 0⟩ : SignedPauli n).operator = 1 := by
  rw [operator_eq, map_zero, add_zero, show ys (0 : PauliVector n) = 0 by simp [ys], weyl_zero]

lemma operator_inj {p q : SignedPauli n} (h : p.operator = q.operator) : p = q := by
  rw [operator_eq, operator_eq] at h
  obtain ⟨hk, hv⟩ := weyl_inj h
  rw [hv] at hk
  exact SignedPauli.ext hv (twice_injective (add_left_cancel hk))

lemma generator_operator (k : Generator n) : (generator k).operator = weyl 0 (single k 1) := by
  rw [operator_eq, generator, ys_single, map_zero, add_zero]

end SignedPauli

/-- The power of `i` in the product of two operators on one qubit. -/
def letterTurn (x z x' z' : ZMod 2) : ZMod 4 :=
  once (x * z) + once (x' * z') + twice (z * x') - once ((x + x') * (z + z'))

namespace PauliVector

def turns (v w : PauliVector n) : ZMod 4 :=
  ∑ q, letterTurn (v (.inl q)) (v (.inr q)) (w (.inl q)) (w (.inr q))

def symp (v w : PauliVector n) : ZMod 2 := meets v w + meets w v

variable (w : PauliVector n)

lemma turns_eq : turns v w = ys v + ys w + twice (meets v w) - ys (v + w) := by
  simp only [turns, letterTurn, ys, meets, map_sum, Pi.add_apply, Finset.sum_sub_distrib,
    Finset.sum_add_distrib]

lemma turns_parity : parity (turns v w) = symp v w := by
  have hlocal : ∀ x z x' z' : ZMod 2, parity (letterTurn x z x' z') = z * x' + z' * x := by decide
  simp only [turns, map_sum, hlocal, symp, meets, Finset.sum_add_distrib]

lemma symp_single_right (v : PauliVector n) (k : Generator n) :
    symp v (single k 1) = v k.swap := by
  rw [symp, meets_single_left, meets_single_right]
  cases k with
  | inl q => exact add_zero _
  | inr q => exact zero_add _

end PauliVector

namespace SignedPauli

variable (p q : SignedPauli n)

lemma operator_mul : p.operator * q.operator =
      iPow (turns p.vec q.vec) • (⟨p.vec + q.vec, p.sign + q.sign⟩ : SignedPauli n).operator := by
  rw [operator_eq, operator_eq, operator_eq, weyl_mul, smul_weyl, turns_eq, map_add]
  congr 1
  ring

/-- The product of two strings, up to a power of `i` that only depends on whether they commute. -/
def mul (p q : SignedPauli n) : SignedPauli n :=
  ⟨p.vec + q.vec, p.sign + q.sign + half (-turns p.vec q.vec)⟩

lemma mul_operator :
    (p.mul q).operator = iPow (once (symp p.vec q.vec)) • (p.operator * q.operator) := by
  have hturns := twice_half_neg (turns p.vec q.vec)
  rw [turns_parity] at hturns
  rw [operator_mul, smul_smul, ← map_add_eq_mul, operator_eq, operator_eq, smul_weyl, mul,
    map_add twice, hturns]
  congr 1
  abel

lemma generator_mul {k l : Generator n} (h : k.isLeft ∨ l.isRight) :
    (generator k).mul (generator l) = ⟨single k 1 + single l 1, 0⟩ := by
  have hys : half (ys (single k 1 + single l 1)) = 0 := by
    have hone : ∀ q r : Fin n, half (ys (single (.inl q) 1 + single (.inr r) 1)) = 0 := by
      intro q r
      have hsum : ys (single (.inl q) 1 + single (.inr r) 1) = if q = r then 1 else 0 := by
        rw [ys, Finset.sum_eq_single q]
        · by_cases hq : q = r <;> simp [hq]
        · intro j _ hj
          simp [hj]
        · exact fun hq => absurd (Finset.mem_univ q) hq
      rw [hsum]
      split <;> rfl
    cases k with
    | inl q =>
      cases l with
      | inl r => simp [ys, half]
      | inr r => exact hone q r
    | inr q =>
      cases l with
      | inl r => rw [add_comm, hone]
      | inr r => simp [ys, half]
  have hturns : -turns (generator k).vec (generator l).vec = ys (single k 1 + single l 1) := by
    rw [turns_eq, generator, generator, ys_single, ys_single, meets_single_single h, map_zero]
    ring
  rw [mul, hturns, hys]
  rfl

lemma operator_mul_comm :
    p.operator * q.operator = iPow (twice (symp p.vec q.vec)) • (q.operator * p.operator) := by
  have htwo : ∀ a : ZMod 2, twice a + twice a = 0 := by decide
  have hsplit : twice (symp p.vec q.vec) =
      twice (meets p.vec q.vec) + twice (meets q.vec p.vec) := map_add twice _ _
  rw [operator_eq, operator_eq, weyl_mul, weyl_mul, smul_weyl, add_comm q.vec, hsplit]
  congr 1
  linear_combination -htwo (meets q.vec p.vec)

lemma operator_ne_zero (p : SignedPauli n) : p.operator ≠ 0 := by
  have hsquare : p.operator * p.operator = iPow (turns p.vec p.vec) • (1 : Operator n) := by
    have hself : ∀ {α : Type} (f : α → ZMod 2), f + f = 0 := fun f => funext fun _ =>
      CharTwo.add_self_eq_zero _
    rw [operator_mul, hself, CharTwo.add_self_eq_zero, operator_one]
  intro h
  rw [h, mul_zero] at hsquare
  exact smul_ne_zero (iPow_ne_zero _) one_ne_zero hsquare.symm

end SignedPauli

open List SignedPauli

/-- A gate on qubits in range; the qubits of a CX gate are different. -/
inductive TableauGate (n : Nat) where
  | h (q : Fin n)
  | s (q : Fin n)
  | cx (control target : Fin n) (ne : control ≠ target)
  deriving DecidableEq

variable (gs : List (TableauGate n)) (g : TableauGate n)

open PauliVector

/-- The operator that sends a basis state to a superposition of both states of a qubit. -/
noncomputable def hadamard (q : Fin n) : Operator n :=
  ((Real.sqrt (2 : Nat) : ℝ) : ℂ)⁻¹ • (pauli n .x (q : Nat) + pauli n .z (q : Nat))

/-- The operator that multiplies the states with a qubit set by `i`. -/
noncomputable def quarterTurn (q : Fin n) : Operator n :=
  monomial id fun y => if y q then I else 1

noncomputable def TableauGate.unitary : TableauGate n → Operator n
  | .h q => hadamard q
  | .s q => quarterTurn q
  | .cx c t _ => CX.unitary n (c, t)

/-- The unitary of gates that are applied one after the other. -/
noncomputable def circuitUnitary (gs : List (TableauGate n)) : Operator n :=
  inOrder (gs.map TableauGate.unitary)

lemma monomial_conjTranspose {f : Bits n → Bits n} (hf : ∀ y, f (f y) = y) (s : Bits n → ℂ) :
    (monomial f s).conjTranspose = monomial f fun y => star (s (f y)) := by
  ext x y
  rw [Matrix.conjTranspose_apply, monomial, monomial]
  by_cases h : y = f x
  · have hx : x = f y := by rw [h, hf]
    rw [if_pos h, if_pos hx, ← hx]
  · have hx : x ≠ f y := fun e => h (by rw [e, hf])
    rw [if_neg h, if_neg hx, star_zero]

lemma pauli_conjTranspose (q : Int) : (pauli n b q).conjTranspose = pauli n b q := by
  cases b with
  | z =>
    rw [pauli, monomial_conjTranspose (fun _ => rfl)]
    congr 1
    funext y
    rw [id]
    split <;> simp
  | x =>
    have hflip : ∀ y : Bits n, Bits.flip q (Bits.flip q y) = y := by
      intro y
      funext i
      simp [Bits.flip]
    rw [pauli, monomial_conjTranspose hflip]
    simp

lemma pauli_mul_self (q : Int) : pauli n b q * pauli n b q = 1 := by
  rw [pauli_eq, stringOn_mul_self]

lemma pauli_anticommute (q : Fin n) :
    pauli n .z (q : Nat) * pauli n .x (q : Nat) = -(pauli n .x (q : Nat) * pauli n .z (q : Nat)) := by
  rw [pauli_eq, pauli_eq, stringOn_z_x, Bits.sign_single, Bits.bit_val, Bits.ofLegs_single]
  simp

lemma hadamard_mul_self (q : Fin n) : hadamard q * hadamard q = 1 := by
  have hroot : ((Real.sqrt (2 : Nat) : ℝ) : ℂ)⁻¹ * ((Real.sqrt (2 : Nat) : ℝ) : ℂ)⁻¹ = 2⁻¹ := by
    rw [← mul_inv, ← ofReal_mul, Real.mul_self_sqrt (by norm_num)]
    norm_num
  have hsum : (pauli n .x (q : Nat) + pauli n .z (q : Nat)) *
      (pauli n .x (q : Nat) + pauli n .z (q : Nat)) = (2 : ℂ) • 1 := by
    rw [add_mul, mul_add, mul_add, pauli_mul_self, pauli_mul_self, pauli_anticommute, two_smul]
    abel
  rw [hadamard, smul_mul_smul_comm, hroot, hsum, smul_smul, inv_mul_cancel₀ two_ne_zero, one_smul]

lemma TableauGate.unitary_mul_conjTranspose : g.unitary * g.unitary.conjTranspose = 1 := by
  cases g with
  | h q =>
    have hself : (hadamard q).conjTranspose = hadamard q := by
      rw [hadamard, Matrix.conjTranspose_smul, Matrix.conjTranspose_add, pauli_conjTranspose,
        pauli_conjTranspose, star_inv₀]
      simp
    rw [unitary, hself, hadamard_mul_self]
  | s q =>
    rw [unitary, quarterTurn, monomial_conjTranspose (fun _ => rfl), monomial_mul, ← monomial_one]
    congr 1
    funext y
    simp only [id]
    split <;> simp
  | cx c t hne =>
    have hne' : (c : Nat) ≠ t := fun e => hne (Fin.ext e)
    have hself : (CX.unitary n (c, t)).conjTranspose = CX.unitary n (c, t) := by
      rw [CX.unitary, monomial_conjTranspose (Bits.addBit_addBit hne')]
      simp
    rw [unitary, hself, CX.unitary_mul_self hne']

lemma circuitUnitary_append (gs hs : List (TableauGate n)) :
    circuitUnitary (gs ++ hs) = circuitUnitary hs * circuitUnitary gs := by
  rw [circuitUnitary, map_append, inOrder_append]
  rfl

lemma circuitUnitary_cons (gs : List (TableauGate n)) :
    circuitUnitary (g :: gs) = circuitUnitary gs * g.unitary := by
  rw [circuitUnitary, map_cons, inOrder_cons]
  rfl

lemma circuitUnitary_mul_conjTranspose :
    circuitUnitary gs * (circuitUnitary gs).conjTranspose = 1 := by
  induction gs with
  | nil => simp [circuitUnitary]
  | cons g gs ih =>
    rw [circuitUnitary_cons, Matrix.conjTranspose_mul, mul_assoc, ← mul_assoc g.unitary,
      g.unitary_mul_conjTranspose, one_mul, ih]

namespace TableauGate

def onVector : TableauGate n → PauliVector n → PauliVector n
  | .h q, v => v + single (.inl q) (v (.inl q) + v (.inr q)) +
      single (.inr q) (v (.inl q) + v (.inr q))
  | .s q, v => v + single (.inr q) (v (.inl q))
  | .cx c t _, v => v + single (.inl t) (v (.inl c)) + single (.inr c) (v (.inr t))

def turnsSign : TableauGate n → PauliVector n → ZMod 2
  | .h q, v => v (.inl q) * v (.inr q)
  | .s q, v => v (.inl q) * v (.inr q)
  | .cx c t _, v => v (.inl c) * v (.inr t) * (v (.inl t) + v (.inr c) + 1)

def act (g : TableauGate n) (p : SignedPauli n) : SignedPauli n :=
  ⟨g.onVector p.vec, p.sign + g.turnsSign p.vec⟩

def power : TableauGate n → PauliVector n → ZMod 4
  | .h q, v => twice (v (.inl q) * v (.inr q))
  | .s q, v => once (v (.inl q))
  | .cx _ _ _, _ => 0

lemma h_onVector_of_eq {q : Fin n} {v : PauliVector n} (hv : v (.inl q) = v (.inr q)) :
    (h q).onVector v = v := by
  rw [onVector, hv, CharTwo.add_self_eq_zero, single_zero, single_zero, add_zero, add_zero]

lemma h_onVector_of_ne {q : Fin n} {v : PauliVector n} (hv : v (.inl q) ≠ v (.inr q)) :
    (h q).onVector v = v + single (.inl q) 1 + single (.inr q) 1 := by
  have hone : ∀ a b : ZMod 2, a ≠ b → a + b = 1 := by decide
  rw [onVector, hone _ _ hv]

variable (q : Fin n)

lemma hadamard_mul_weyl (k : ZMod 4) (v : PauliVector n) :
    hadamard q * weyl k v = weyl (k + (h q).power v) ((h q).onVector v) * hadamard q := by
  have htwo : ∀ u : PauliVector n, u + u = 0 := fun u => funext fun _ => CharTwo.add_self_eq_zero _
  have hmeets : ∀ u : PauliVector n, meets (single (.inl q) 1) u = 0 ∧
      meets (single (.inr q) 1) u = u (.inl q) ∧ meets u (single (.inl q) 1) = u (.inr q) ∧
      meets u (single (.inr q) 1) = 0 := fun u =>
    ⟨meets_single_left u _, meets_single_left u _, meets_single_right u _, meets_single_right u _⟩
  have hsum : (weyl 0 (single (.inl q) 1) + weyl 0 (single (.inr q) 1)) * weyl k v =
      weyl (k + (h q).power v) ((h q).onVector v) *
        (weyl 0 (single (.inl q) 1) + weyl 0 (single (.inr q) 1)) := by
    simp only [add_mul, mul_add, weyl_mul, hmeets, power, map_zero, add_zero, zero_add]
    by_cases hv : v (.inl q) = v (.inr q)
    · have hphase : ∀ a : ZMod 2, twice (a * a) + twice a = 0 ∧ twice (a * a) = twice a := by decide
      rw [h_onVector_of_eq hv, hv, add_assoc k, (hphase _).1, (hphase _).2, add_zero, add_comm v,
        add_comm v]
    · have hphase : ∀ a b : ZMod 2, a ≠ b → a * b = 0 ∧ b + 1 = a := by decide
      have hfirst : ∀ a b : PauliVector n, v + a + b + a = b + v := by
        intro a b
        rw [add_right_comm, add_assoc v, htwo, add_zero, add_comm]
      have hsecond : ∀ a b : PauliVector n, v + a + b + b = a + v := by
        intro a b
        rw [add_assoc, htwo, add_zero, add_comm]
      rw [h_onVector_of_ne hv, hfirst, hsecond, Pi.add_apply, Pi.add_apply, Pi.single_eq_same,
        Pi.single_eq_of_ne Sum.inr_ne_inl, add_zero, (hphase _ _ hv).1, (hphase _ _ hv).2, map_zero,
        add_zero, add_comm]
  rw [hadamard, pauli_eq_weyl, pauli_eq_weyl, smul_mul_assoc, mul_smul_comm]
  exact congrArg _ hsum

lemma quarterTurn_eq : quarterTurn q = ((1 + I) / 2) • (1 : Operator n) +
      ((1 - I) / 2) • weyl 0 (single (.inr q) 1) := by
  have hpauli := pauli_eq_weyl .z q
  rw [Generator.on_z] at hpauli
  rw [← hpauli, ← monomial_one, pauli, smul_monomial, smul_monomial, quarterTurn]
  ext x y
  rw [Matrix.add_apply, monomial, monomial, monomial, Bits.bit_val]
  grind

lemma quarterTurn_mul_weyl (k : ZMod 4) (v : PauliVector n) :
    quarterTurn q * weyl k v = weyl (k + (s q).power v) ((s q).onVector v) * quarterTurn q := by
  have htwo : ∀ u : PauliVector n, u + u = 0 := fun u => funext fun _ => CharTwo.add_self_eq_zero _
  have hleft : meets (single (.inr q) 1) v = v (.inl q) := meets_single_left v _
  have hright : ∀ u : PauliVector n, meets u (single (.inr q) 1) = 0 := fun u =>
    meets_single_right u _
  simp only [quarterTurn_eq, add_mul, mul_add, smul_mul_assoc, mul_smul_comm, one_mul, mul_one,
    weyl_mul, hleft, hright, power, onVector, map_zero, add_zero, zero_add]
  rcases bit_cases (v (.inl q)) with hx | hx
  · rw [hx, single_zero, add_zero, map_zero, add_zero, add_comm v, show once 0 = 0 from rfl,
      add_zero]
  · -- The two halves of the gate trade places.
    have hquarter : ∀ w : PauliVector n, weyl (k + once 1) w = I • weyl k w := by
      intro w
      rw [← iPow_one, smul_weyl, add_comm k]
      rfl
    have hhalf : ∀ w : PauliVector n, weyl (k + twice 1) w = (-1 : ℂ) • weyl k w := by
      intro w
      rw [← iPow_two, smul_weyl, add_comm k]
      rfl
    rw [hx, add_assoc v, htwo, add_zero, hquarter, hquarter, hhalf, smul_smul, smul_smul, smul_smul,
      add_comm v, add_comm]
    congr 2
    · linear_combination (-1 / 2 : ℂ) * I_mul_I
    · linear_combination (1 / 2 : ℂ) * I_mul_I

lemma cx_mul_weyl {c t : Fin n} (hne : c ≠ t) (k : ZMod 4) (v : PauliVector n) :
    CX.unitary n (c, t) * weyl k v = weyl k ((cx c t hne).onVector v) * CX.unitary n (c, t) := by
  have hne' : (c : Nat) ≠ t := fun e => hne (Fin.ext e)
  have hxor : ∀ a b : ZMod 2, decide (a + b = 1) = xor (decide (a = 1)) (decide (b = 1)) := by decide
  have hx : ((cx c t hne).onVector v).bits .x = CX.onBits (c, t) .x (v.bits .x) := by
    funext q
    rw [CX.onBits, Bits.addBit, Bits.bit_val]
    by_cases hq : q = t
    · simp [onVector, hq, hxor]
    · have hq' : (q : Nat) ≠ t := fun e => hq (Fin.ext e)
      simp [onVector, hq, hq']
  have hz : ((cx c t hne).onVector v).bits .z = CX.onBits (c, t) .z (v.bits .z) := by
    funext q
    rw [CX.onBits, Bits.addBit, Bits.bit_val]
    by_cases hq : q = c
    · simp [onVector, hq, hxor]
    · have hq' : (q : Nat) ≠ c := fun e => hq (Fin.ext e)
      simp [onVector, hq, hq']
  have hmove : ∀ b (m : Bits n), CX.unitary n (c, t) * stringOn b m =
      stringOn b (CX.onBits (c, t) b m) * CX.unitary n (c, t) := by
    intro b m
    rw [← CX.unitary_conj hne', mul_assoc, CX.unitary_mul_self hne', mul_one]
  rw [weyl, weyl, hx, hz, mul_smul_comm, smul_mul_assoc, ← mul_assoc, hmove, mul_assoc, hmove,
    mul_assoc]

lemma unitary_mul_weyl (g : TableauGate n) (k : ZMod 4) (v : PauliVector n) :
    g.unitary * weyl k v = weyl (k + g.power v) (g.onVector v) * g.unitary := by
  cases g with
  | h q => exact hadamard_mul_weyl q k v
  | s q => exact quarterTurn_mul_weyl q k v
  | cx c t hne =>
    rw [power, add_zero]
    exact cx_mul_weyl hne k v

lemma ys_onVector (g : TableauGate n) (v : PauliVector n) :
    ys (g.onVector v) + twice (g.turnsSign v) = ys v + g.power v := by
  cases g with
  | h q =>
    have hys : ys ((h q).onVector v) = ys v := by
      refine Finset.sum_congr rfl fun r _ => ?_
      have hswap : ∀ a b : ZMod 2, once ((a + (a + b)) * (b + (a + b))) = once (a * b) := by decide
      by_cases hr : r = q
      · simp [onVector, hr, hswap]
      · simp [onVector, hr]
    rw [hys]
    rfl
  | s q =>
    have hlocal : ∀ a b : ZMod 2, once (a * (b + a)) = once (a * b) + (once a - twice (a * b)) := by
      decide
    have hys : ys ((s q).onVector v) = ∑ r, (once (v (.inl r) * v (.inr r)) +
          if r = q then once (v (.inl q)) - twice (v (.inl q) * v (.inr q)) else 0) := by
      refine Finset.sum_congr rfl fun r _ => ?_
      by_cases hr : r = q
      · simp [onVector, hr, hlocal]
      · simp [onVector, hr]
    rw [hys, Finset.sum_add_distrib, Finset.sum_ite_eq' Finset.univ, if_pos (Finset.mem_univ q),
      turnsSign, power, ys]
    ring
  | cx c t hne =>
    have hys : ys ((cx c t hne).onVector v) = ∑ r, (once (v (.inl r) * v (.inr r)) +
          (if r = t then once ((v (.inl t) + v (.inl c)) * v (.inr t)) -
            once (v (.inl t) * v (.inr t)) else 0) +
          if r = c then once (v (.inl c) * (v (.inr c) + v (.inr t))) -
            once (v (.inl c) * v (.inr c)) else 0) := by
      refine Finset.sum_congr rfl fun r _ => ?_
      by_cases hc : r = c
      · simp [onVector, hc, hne]
      · by_cases ht : r = t
        · simp [onVector, ht, hne.symm]
        · simp [onVector, hc, ht]
    have hlocal : ∀ a b x z : ZMod 2, once ((x + a) * b) - once (x * b) +
        (once (a * (z + b)) - once (a * z)) + twice (a * b * (x + z + 1)) = 0 := by decide
    rw [hys, Finset.sum_add_distrib, Finset.sum_add_distrib, Finset.sum_ite_eq' Finset.univ,
      Finset.sum_ite_eq' Finset.univ, if_pos (Finset.mem_univ t), if_pos (Finset.mem_univ c),
      turnsSign, power, ys]
    linear_combination hlocal (v (.inl c)) (v (.inr t)) (v (.inl t)) (v (.inr c))

end TableauGate

/-- A unitary takes a string to another by conjugation. -/
def Moves (U : Operator n) (p p' : SignedPauli n) : Prop :=
  U * p.operator * U.conjTranspose = p'.operator

namespace Moves

variable {U V : Operator n} {p q p' q' : SignedPauli n}

lemma trans (h : Moves U p p') (h' : Moves V p' q) : Moves (V * U) p q := by
  rw [Moves, Matrix.conjTranspose_mul, ← mul_assoc, mul_assoc V, mul_assoc V]
  exact (congrArg (V * · * V.conjTranspose) h).trans h'

variable (hU : U.conjTranspose * U = 1)
include hU

lemma operator_prod (As : List (Operator n)) :
    U * As.prod * U.conjTranspose = (As.map fun A => U * A * U.conjTranspose).prod := by
  induction As with
  | nil => rw [prod_nil, mul_one, map_nil, prod_nil, mul_eq_one_comm.mp hU]
  | cons A As ih =>
    rw [map_cons, prod_cons, prod_cons, ← ih]
    calc U * (A * As.prod) * U.conjTranspose
        = U * A * (U.conjTranspose * U) * (As.prod * U.conjTranspose) := by
          rw [hU, mul_one]
          simp only [mul_assoc]
      _ = _ := by simp only [mul_assoc]

lemma operator_mul (h : Moves U p p') (h' : Moves U q q') :
    U * (p.operator * q.operator) * U.conjTranspose = p'.operator * q'.operator := by
  have hpair := operator_prod hU [p.operator, q.operator]
  simp only [map_cons, map_nil, prod_cons, prod_nil, mul_one] at hpair
  rw [hpair, ← h, ← h']

lemma symp_eq (h : Moves U p p') (h' : Moves U q q') : symp p'.vec q'.vec = symp p.vec q.vec := by
  have hcomm : p'.operator * q'.operator =
      iPow (twice (symp p.vec q.vec)) • (q'.operator * p'.operator) := by
    rw [← operator_mul hU h h', ← operator_mul hU h' h, operator_mul_comm p q,
      mul_smul_comm, smul_mul_assoc]
  rw [operator_mul_comm] at hcomm
  have hne : q'.operator * p'.operator ≠ 0 := by
    rw [SignedPauli.operator_mul]
    exact smul_ne_zero (iPow_ne_zero _) (SignedPauli.operator_ne_zero _)
  exact twice_injective (iPow_injective (smul_left_injective ℂ hne hcomm))

lemma mul (h : Moves U p p') (h' : Moves U q q') : Moves U (p.mul q) (p'.mul q') := by
  rw [Moves, mul_operator, mul_operator, h.symp_eq hU h', mul_smul_comm,
    smul_mul_assoc, operator_mul hU h h']

end Moves

lemma TableauGate.unitary_moves (p : SignedPauli n) : Moves g.unitary p (g.act p) := by
  have hphase : ys p.vec + twice p.sign + g.power p.vec =
      ys (g.act p).vec + twice (g.act p).sign := by
    rw [act, map_add]
    linear_combination -ys_onVector g p.vec
  rw [Moves, operator_eq, unitary_mul_weyl, mul_assoc, g.unitary_mul_conjTranspose,
    mul_one, hphase, operator_eq]
  rfl

lemma circuitUnitary_conjTranspose_mul :
    (circuitUnitary gs).conjTranspose * circuitUnitary gs = 1 :=
  mul_eq_one_comm.mp (circuitUnitary_mul_conjTranspose gs)

def actAll (gs : List (TableauGate n)) (p : SignedPauli n) : SignedPauli n :=
  gs.foldl (fun p g => g.act p) p

lemma circuitUnitary_moves (p : SignedPauli n) : Moves (circuitUnitary gs) p (actAll gs p) := by
  induction gs generalizing p with
  | nil => simp [Moves, circuitUnitary, actAll]
  | cons g gs ih =>
    rw [circuitUnitary_cons]
    exact (g.unitary_moves p).trans (ih (g.act p))

end GadgetCircuits
