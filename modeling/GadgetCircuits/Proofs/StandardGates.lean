import GadgetCircuits.Phase.OfProgram
import GadgetCircuits.Proofs.GadgetGroup
import GadgetCircuits.Proofs.GateMatrix

/-!
Standard gates and the gadgets that perform them. Every known gate but one becomes gadgets that make up
its matrix, with a control where it has one; the controlled phase turns by twice its angle.
-/

namespace GadgetCircuits

open List Angle GateMatrix PhaseGate
open scoped Real

variable {n : Nat}

/-- Gadgets on qubits with numeric angles that make up an operator, up to a global phase. -/
structure Performed (gs : List Gadget) (u : Operator n) : Prop where
  proper : ∀ g ∈ gs, LegsOn n g.legs ∧ g.angle.isAngle = true
  unitary : UpToPhase (inOrder (gs.map (Gadget.unitary n AngleExpr.radians))) u

namespace Performed

variable {gs hs : List Gadget} {u v : Operator n}

lemma nil : Performed [] (1 : Operator n) := ⟨by simp, UpToPhase.refl _⟩

lemma append (hu : Performed gs u) (hv : Performed hs v) : Performed (gs ++ hs) (v * u) := by
  refine ⟨forall_mem_append.mpr ⟨hu.proper, hv.proper⟩, ?_⟩
  rw [map_append, inOrder_append]
  exact hv.unitary.mul hu.unitary

lemma upToPhase (hu : Performed gs u) (huv : UpToPhase u v) : Performed gs v :=
  ⟨hu.proper, hu.unitary.trans huv⟩

lemma flatten {gss : List (List Gadget)} {us : List (Operator n)}
    (h : Forall₂ Performed gss us) : Performed gss.flatten (inOrder us) := by
  induction h with
  | nil => exact nil
  | cons hu _ ih =>
    rw [flatten_cons, inOrder_cons]
    exact hu.append ih

end Performed

noncomputable def Angle.radians (a : Angle) : ℝ := a.halfTurns * π

lemma Angle.radians_scale (a : Angle) (r : Rat) : (a.scale r).radians = r * a.radians := by
  rw [radians, scale, radians]
  push_cast
  ring

lemma Angle.radians_neg (a : Angle) : a.neg.radians = -a.radians := by
  rw [radians, neg, radians]
  push_cast
  ring

lemma Angle.radians_one : radians ⟨1⟩ = π := by
  rw [radians, Rat.cast_one, one_mul]

lemma Angle.radians_half : radians ⟨1 / 2⟩ = π / 2 := by
  rw [radians]
  push_cast
  ring

lemma Angle.radians_neg_half : radians ⟨-1 / 2⟩ = -(π / 2) := by
  rw [radians]
  push_cast
  ring

def Qasm.Names (v : Value) (q : Fin n) : Prop := v.int? = some ((q : Nat) : Int)

/-- A rotation about different qubits is one about the product of their Pauli operators, in whatever order
the qubits are given. -/
theorem Performed.rotation (b : Basis) {vs : List Value} {qs : List (Fin n)}
    (hvs : List.Forall₂ Qasm.Names vs qs) (hne : qs ≠ [])
    (hnodup : qs.Nodup) (a : Angle) :
    ∃ g, Gadget.rotationOnSet b (.expr (.angle a)) vs = .ok g ∧
      Performed [g] (turnAbout a.radians (pauliString n b (qs.map fun q : Fin n => ((q : Nat) : Int)))) := by
  have hints : ∀ v ∈ vs, v.int?.isSome := by
    intro v hv
    obtain ⟨q, -, hq⟩ := of_mem_forall₂ hvs.flip v hv
    exact Option.isSome_iff_exists.mpr ⟨_, hq⟩
  have hvs_ne : vs ≠ [] := by
    rintro rfl
    exact hne (forall₂_nil_left_iff.mp hvs)
  obtain ⟨g, hg, hbasis, hangle, hlegs_nodup, hlegs⟩ :=
    Gadget.rotationOnSet_ok b (.angle a) hvs_ne hints
  have hmem : ∀ m, m ∈ g.legs ↔ m ∈ qs.map fun q : Fin n => ((q : Nat) : Int) := by
    intro m
    rw [hlegs, mem_map]
    constructor
    · rintro ⟨v, hv, hm⟩
      obtain ⟨q, hq, hvq⟩ := of_mem_forall₂ hvs.flip v hv
      exact ⟨q, hq, Option.some.inj (hvq.symm.trans hm)⟩
    · rintro ⟨q, hq, rfl⟩
      exact of_mem_forall₂ hvs q hq
  have hbits : (Bits.ofLegs g.legs : Bits n) = Bits.ofLegs (qs.map fun q : Fin n => ((q : Nat) : Int)) := by
    have hinjective : Function.Injective fun q : Fin n => ((q : Nat) : Int) :=
      fun p q h => Fin.ext (Int.ofNat_inj.mp h)
    funext i
    rw [Bits.ofLegs_of_nodup hlegs_nodup, Bits.ofLegs_of_nodup (hnodup.map hinjective),
      decide_eq_decide, hmem]
  refine ⟨g, hg, ?_, UpToPhase.of_eq ?_⟩
  · intro k hk
    rw [mem_singleton.mp hk, hangle]
    obtain ⟨q, hq⟩ := exists_mem_of_ne_nil _ hne
    refine ⟨⟨hlegs_nodup, ne_nil_of_mem ((hmem _).mpr (mem_map_of_mem hq)), ?_⟩, rfl⟩
    grind
  · rw [map_singleton, inOrder_cons, inOrder_nil, one_mul, Gadget.unitary_eq, hangle, hbasis, hbits,
      ← pauliString_eq]
    rfl

def Performs (steps : List GateStep) (u : Operator n) : Prop :=
  ∃ gs, steps.mapM GateStep.gadget = .ok gs ∧ Performed gs u

namespace Performs

variable {steps later : List GateStep} {u v : Operator n}
variable {a : Angle} {operand : Except Error AngleOperand}

lemma append (hu : Performs steps u) (hv : Performs later v) : Performs (steps ++ later) (v * u) := by
  obtain ⟨gs, hgs, hgu⟩ := hu
  obtain ⟨hs, hhs, hhv⟩ := hv
  refine ⟨gs ++ hs, ?_, hgu.append hhv⟩
  rw [mapM_append, hgs, ok_bind, hhs]
  rfl

lemma upToPhase (hu : Performs steps u) (huv : UpToPhase u v) : Performs steps v := by
  obtain ⟨gs, hgs, hgu⟩ := hu
  exact ⟨gs, hgs, hgu.upToPhase huv⟩

lemma congr (hu : Performs steps u) (huv : u = v) : Performs steps v := huv ▸ hu

lemma turn (b : Basis) {q : Value} {i : Fin n} (hq : Qasm.Names q i) (ha : operand = .ok (.expr (.angle a))) :
    Performs [.turn b q operand] (turnAbout a.radians (pauli n b (i : Nat))) := by
  obtain ⟨g, hg, hperformed⟩ := Performed.rotation b (.cons hq .nil) (cons_ne_nil i [])
    (nodup_singleton i) a
  rw [map_singleton, pauliString, map_singleton, prod_singleton] at hperformed
  exact ⟨[g], mapM_eq_ok.mpr (.cons (by rw [GateStep.gadget, ha, ok_bind, hg]) .nil), hperformed⟩

lemma linkAll {vs : List Value} {qs : List (Fin n)} (hvs : Forall₂ Qasm.Names vs qs)
    (hne : qs ≠ []) (hnodup : qs.Nodup) (ha : operand = .ok (.expr (.angle a))) :
    Performs [.link operand vs]
      (turnAbout a.radians (pauliString n .z (qs.map fun q : Fin n => ((q : Nat) : Int)))) := by
  obtain ⟨g, hg, hperformed⟩ := Performed.rotation .z hvs hne hnodup a
  exact ⟨[g], mapM_eq_ok.mpr (.cons (by rw [GateStep.gadget, ha, ok_bind, hg]) .nil), hperformed⟩

lemma link {q r : Value} {c t : Fin n} (hq : Qasm.Names q c) (hr : Qasm.Names r t) (hne : c ≠ t)
    (ha : operand = .ok (.expr (.angle a))) :
    Performs [.link operand [q, r]]
      (turnAbout a.radians (pauli n .z (c : Nat) * pauli n .z (t : Nat))) := by
  have hsteps := linkAll (.cons hq (.cons hr .nil)) (cons_ne_nil c [t])
    (nodup_cons.mpr ⟨mem_singleton.not.mpr hne, nodup_singleton t⟩) ha
  rw [map_cons, map_singleton, pauliString, map_cons, map_singleton, prod_cons,
    prod_singleton] at hsteps
  exact hsteps

section Single

variable {q : Value} {i : Fin n} {m m' : GateMatrix}

lemma nothing (i : Fin n) : Performs [] (onQubit i 1) := ⟨[], rfl, onQubit_one i ▸ .nil⟩

lemma andThen (h : Performs steps (onQubit i m)) (h' : Performs later (onQubit i m')) :
    Performs (steps ++ later) (onQubit i (m' * m)) :=
  (h.append h').congr (onQubit_mul i m' m).symm

lemma smul_iff {s : ℂ} (hs : ‖s‖ = 1) :
    Performs steps (onQubit i (s • m)) ↔ Performs steps (onQubit i m) := by
  have hphase := UpToPhase.smul s hs (onQubit i m)
  rw [onQubit_smul]
  exact ⟨fun h => h.upToPhase hphase, fun h => h.upToPhase hphase.symm⟩

variable (hq : Qasm.Names q i) (a : Angle)

include hq

lemma rx : Performs (PhaseGate.rx q (.expr (.angle a))) (onQubit i (.rx a.radians)) :=
  (turn .x hq rfl).congr (onQubit_rx i _).symm

lemma rz : Performs (PhaseGate.rz q (.expr (.angle a))) (onQubit i (.rz a.radians)) :=
  (turn .z hq rfl).congr (onQubit_rz i _).symm

lemma quarter_x : Performs (PhaseGate.v q) (onQubit i (.rx (π / 2))) ∧
    Performs (PhaseGate.vdg q) (onQubit i (.rx (-(π / 2)))) := by
  have hv := rx hq ⟨1 / 2⟩
  have hvdg := rx hq ⟨-1 / 2⟩
  rw [radians_half] at hv
  rw [radians_neg_half] at hvdg
  exact ⟨hv, hvdg⟩

lemma ry : Performs (PhaseGate.ry q (.expr (.angle a))) (onQubit i (.ry a.radians)) := by
  obtain ⟨hv, hvdg⟩ := quarter_x hq
  refine ((hv.andThen (rz hq a)).andThen hvdg).congr ?_
  rw [← mul_assoc, quarter_rz]

lemma u3 (theta phi lam : Angle) :
    Performs (PhaseGate.u3 q (.expr (.angle theta)) (.expr (.angle phi)) (.expr (.angle lam)))
      (onQubit i (.u3 theta.radians phi.radians lam.radians)) := by
  have hsteps := ((rz hq lam).andThen (ry hq theta)).andThen (rz hq phi)
  rw [← mul_assoc] at hsteps
  rw [u3_eq]
  refine (smul_iff ?_).mpr hsteps
  rw [norm_mul, (norm_exp_half phi.radians).1, (norm_exp_half lam.radians).1, one_mul]

lemma hTurns {sign : Value} {a : Angle} (hsign : signed sign = .ok (.expr (.angle a))) :
    Performs (hTurns q .z sign)
      (onQubit i (.rx a.radians * .rz a.radians * .rx a.radians)) := by
  have hx := (turn .x hq hsign).congr (onQubit_rx i _).symm
  have hz := (turn .z hq hsign).congr (onQubit_rz i _).symm
  refine ((hx.andThen hz).andThen hx).congr ?_
  rw [mul_assoc]

lemma h : Performs (PhaseGate.h q) (onQubit i .h) ∧
    Performs (hInverse q) (onQubit i .h) := by
  have hforth : Performs (PhaseGate.h q) _ := hTurns hq rfl
  have hback : Performs (hInverse q) _ := hTurns hq rfl
  have hplus : (((1 : Int) : Rat) : ℝ) * π = π := by simp
  have hminus : (((-1 : Int) : Rat) : ℝ) * π = -π := by simp
  have hhalf : ∀ a : ℝ, ((1 / ((2 : Int) : Rat) : Rat) : ℝ) * a = a / 2 := by
    intro a
    push_cast
    ring
  rw [radians_scale, radians_scale, radians_one, hhalf, hplus, quarters_eq] at hforth
  rw [radians_scale, radians_scale, radians_one, hhalf, hminus, neg_div, quarters_back_eq] at hback
  exact ⟨(smul_iff (by simp)).mp hforth, (smul_iff (by simp)).mp hback⟩

lemma x : Performs (PhaseGate.x q) (onQubit i .x) := by
  have hsteps := rx hq ⟨1⟩
  rw [radians_one, rx_pi] at hsteps
  exact (smul_iff (by simp)).mp hsteps

lemma z : Performs (PhaseGate.z q) (onQubit i .z) := by
  have hsteps := rz hq ⟨1⟩
  rw [radians_one, rz_pi] at hsteps
  exact (smul_iff (by simp)).mp hsteps

lemma y : Performs (PhaseGate.y q) (onQubit i .y) := by
  have hsteps := (z hq).andThen (x hq)
  rw [x_mul_z] at hsteps
  exact (smul_iff (by simp)).mp hsteps

lemma phase : Performs (PhaseGate.rz q (.expr (.angle a))) (onQubit i (.phase a.radians)) := by
  have hsteps := rz hq a
  rw [rz_eq_phase] at hsteps
  exact (smul_iff (norm_exp_half _).2).mp hsteps

lemma s : Performs (PhaseGate.s q) (onQubit i (.phase (GateMatrix.half π))) := by
  have hangle : Angle.radians ⟨1 / 2⟩ = GateMatrix.half π := by
    rw [radians_half, half_eq]
  exact (phase hq ⟨1 / 2⟩).congr (by rw [hangle])

lemma t : Performs (PhaseGate.t q)
    (onQubit i (.phase (GateMatrix.half (GateMatrix.half π)))) := by
  have hangle : Angle.radians ⟨1 / 4⟩ = GateMatrix.half (GateMatrix.half π) := by
    rw [Angle.radians, half_eq, half_eq]
    push_cast
    ring
  exact (phase hq ⟨1 / 4⟩).congr (by rw [hangle])

end Single

section Controlled

variable {q r : Value} {c t : Fin n} (hq : Qasm.Names q c) (hr : Qasm.Names r t) (hne : c ≠ t)
variable (a : Angle)

include hq hr hne

lemma crz : Performs (PhaseGate.crz q r (.expr (.angle a)))
    (controlled c (onQubit t (.rz a.radians))) := by
  have hlink : Performs [.link (PhaseGate.minusHalf (.expr (.angle a))) [q, r]] _ := link hq hr hne rfl
  have hturn : Performs [.turn .z r (PhaseGate.half (.expr (.angle a)))] _ := turn .z hr rfl
  refine (hlink.append hturn).congr ?_
  rw [radians_scale, radians_scale, Angle.radians_neg, mul_neg, turnAbout_link hne]
  congr 3
  push_cast
  ring

lemma cu1 : Performs (PhaseGate.cu1 q r (.expr (.angle a)))
    (controlled c (onQubit t (.phase (a.radians + a.radians)))) := by
  have hlink : Performs [.link (AngleOperand.neg (.expr (.angle a))) [q, r]] _ := link hq hr hne rfl
  have hcontrol : Performs (PhaseGate.rz q (.expr (.angle a))) _ := turn .z hq rfl
  have htarget : Performs (PhaseGate.rz r (.expr (.angle a))) _ := turn .z hr rfl
  have hcomm := turnAbout_commute (pauli_mul_self .z _) (pauli_mul_self .z _)
    (pauli_commute .z .z hne.symm) a.radians a.radians
  refine ((hlink.append hcontrol).append htarget).upToPhase ?_
  rw [← mul_assoc, hcomm.eq, mul_assoc, radians_neg, turnAbout_link hne, turnAbout_link_control]
  exact UpToPhase.smul _ (norm_exp_half _).2 _

lemma cz : Performs (PhaseGate.cz q r) (controlled c (onQubit t .z)) := by
  have hsteps := cu1 hq hr hne ⟨1 / 2⟩
  rw [radians_half, add_halves, phase_pi] at hsteps
  exact hsteps

omit hq hr in
lemma framed {before middle after : List GateStep} {m m' a b : GateMatrix}
    (hbefore : Performs before (onQubit t m)) (hmiddle : Performs middle (controlled c (onQubit t a)))
    (hafter : Performs after (onQubit t m')) (hinverse : m' * m = 1) (hpass : m' * a = b * m') :
    Performs (before ++ middle ++ after) (controlled c (onQubit t b)) := by
  refine ((hbefore.append hmiddle).append hafter).congr ?_
  rw [← mul_assoc]
  refine controlled_conj ?_ (onQubit_commute_z hne m').eq ?_
  · rw [← onQubit_mul, hinverse, onQubit_one]
  · rw [← onQubit_mul, hpass, onQubit_mul]

lemma cx : Performs (PhaseGate.cx q r) (controlled c (onQubit t .x)) :=
  framed hne (h hr).1 (cz hq hr hne) (h hr).2 h_mul_h h_mul_z

lemma crx : Performs (PhaseGate.crx q r (.expr (.angle a)))
    (controlled c (onQubit t (.rx a.radians))) :=
  framed hne (h hr).1 (crz hq hr hne a) (h hr).2 h_mul_h (h_mul_rz _)

lemma cy : Performs (PhaseGate.cy q r) (controlled c (onQubit t .y)) :=
  framed hne (quarter_x hr).1 (cz hq hr hne) (quarter_x hr).2 (rx_neg_mul _) quarter_mul_z

lemma cry : Performs (PhaseGate.cry q r (.expr (.angle a)))
    (controlled c (onQubit t (.ry a.radians))) :=
  framed hne (quarter_x hr).1 (crz hq hr hne a) (quarter_x hr).2 (rx_neg_mul _) (quarter_mul_rz _)

end Controlled

end Performs

/-- The operator of a matrix with a number of controls. The controls come first, and all qubits are
different. -/
noncomputable def controlledBy (m : GateMatrix) : Nat → List (Fin n) → Option (Operator n)
  | 0, [q] => some (onQubit q m)
  | k + 1, c :: qs => if c ∈ qs then none else (controlledBy m k qs).map (controlled c)
  | _, _ => none

structure StandardGate where
  controls : Nat
  matrix : GateMatrix

namespace StandardGate

noncomputable def fixed? : String → Option StandardGate
  | "id" => some ⟨0, 1⟩
  | "i" => some ⟨0, 1⟩
  | "x" => some ⟨0, .x⟩
  | "y" => some ⟨0, .y⟩
  | "z" => some ⟨0, .z⟩
  | "h" => some ⟨0, .h⟩
  | "s" => some ⟨0, .phase (GateMatrix.half π)⟩
  | "sdg" => some ⟨0, .phase (-GateMatrix.half π)⟩
  | "t" => some ⟨0, .phase (GateMatrix.half (GateMatrix.half π))⟩
  | "tdg" => some ⟨0, .phase (-GateMatrix.half (GateMatrix.half π))⟩
  | "cx" => some ⟨1, .x⟩
  | "cy" => some ⟨1, .y⟩
  | "cz" => some ⟨1, .z⟩
  | "ch" => some ⟨1, .h⟩
  | "ccx" => some ⟨2, .x⟩
  | _ => none

noncomputable def turned? (a : ℝ) : String → Option StandardGate
  | "rx" => some ⟨0, .rx a⟩
  | "ry" => some ⟨0, .ry a⟩
  | "rz" => some ⟨0, .rz a⟩
  | "u1" => some ⟨0, .phase a⟩
  | "crx" => some ⟨1, .rx a⟩
  | "cry" => some ⟨1, .ry a⟩
  | "crz" => some ⟨1, .rz a⟩
  | "cu1" => some ⟨1, .phase a⟩
  | _ => none

noncomputable def ofName? (name : String) : List ℝ → Option StandardGate
  | [] => fixed? name
  | [a] => turned? a name
  | [phi, lam] => if name = "u2" then some ⟨0, .u3 (GateMatrix.half π) phi lam⟩ else none
  | [theta, phi, lam] => if name = "u3" then some ⟨0, .u3 theta phi lam⟩ else none
  | _ => none

/-- What a gate of a name and angles is to do to its qubits. -/
noncomputable def unitary? (name : String) (angles : List ℝ) (qs : List (Fin n)) :
    Option (Operator n) :=
  (ofName? name angles).bind fun g => controlledBy g.matrix g.controls qs

end StandardGate

namespace Qasm

def isKnown (name : String) : Bool :=
  (knownGates.find? fun g => g.1 == name).isSome

/-- What the gadgets of a gate do to its qubits: nothing if it is unknown, and the controlled phase
turns twice as far. -/
noncomputable def performed? (name : String) (angles : List ℝ) (qs : List (Fin n)) :
    Option (Operator n) :=
  if isKnown name then
    StandardGate.unitary? name (if name = "cu1" then angles.map fun a => a + a else angles) qs
  else some 1

def GatePerformed (name : String) (params : List Angle) (vs : List Value) (qs : List (Fin n)) : Prop :=
  ∃ gs u, PhaseGate.gadgets name (vs.map .plain ++ angleOperands params) = .ok gs ∧
    performed? name (params.map radians) qs = some u ∧ Performed gs u

variable {name : String} {params : List Angle} {vs : List Value} {qs : List (Fin n)} {m : GateMatrix}

lemma single_performed {f : Value → List GateStep}
    (hsteps : ∀ v, steps? name (.plain v :: angleOperands params) = some (.ok (f v)))
    (hmeaning : ∀ q : Fin n, performed? name (params.map radians) [q] = some (onQubit q m))
    (hf : ∀ (v : Value) (q : Fin n), Names v q → Performs (f v) (onQubit q m)) (hlen : qs.length = 1)
    (hvs : Forall₂ Names vs qs) :
    GatePerformed name params vs qs := by
  obtain ⟨q, rfl⟩ := length_eq_one_iff.mp hlen
  obtain ⟨v, vs, hv, hrest, rfl⟩ := forall₂_cons_right_iff.mp hvs
  obtain rfl := forall₂_nil_right_iff.mp hrest
  obtain ⟨gs, hgs, hperformed⟩ := hf v q hv
  refine ⟨gs, _, ?_, hmeaning q, hperformed⟩
  rw [PhaseGate.gadgets, map_singleton, singleton_append, hsteps]
  exact hgs

lemma controlled_performed {f : Value → Value → List GateStep}
    (hsteps : ∀ v w, steps? name (.plain v :: .plain w :: angleOperands params) =
      some (.ok (f v w)))
    (hmeaning : ∀ c t : Fin n, performed? name (params.map radians) [c, t] =
      controlledBy m 1 [c, t])
    (hf : ∀ (v w : Value) (c t : Fin n), Names v c → Names w t → c ≠ t →
      Performs (f v w) (controlled c (onQubit t m)))
    (hlen : qs.length = 2) (hnodup : qs.Nodup) (hvs : Forall₂ Names vs qs) :
    GatePerformed name params vs qs := by
  obtain ⟨c, t, rfl⟩ := length_eq_two.mp hlen
  obtain ⟨v, vs, hv, hrest, rfl⟩ := forall₂_cons_right_iff.mp hvs
  obtain ⟨w, vs, hw, hnil, rfl⟩ := forall₂_cons_right_iff.mp hrest
  obtain rfl := forall₂_nil_right_iff.mp hnil
  have hne : c ≠ t := by simpa using hnodup
  obtain ⟨gs, hgs, hperformed⟩ := hf v w c t hv hw hne
  refine ⟨gs, _, ?_, ?_, hperformed⟩
  · rw [PhaseGate.gadgets, map_cons, map_singleton, cons_append, singleton_append, hsteps]
    exact hgs
  · rw [hmeaning, controlledBy, if_neg (by simpa using hne)]
    rfl

lemma known_performed {k : String × Nat × Nat}
    (hknown : knownGates.find? (fun g => g.1 == name) = some k) (hlen : qs.length = k.2.1)
    (hparams : params.length = k.2.2) (hnodup : qs.Nodup) (hvs : Forall₂ Names vs qs) :
    GatePerformed name params vs qs := by
  have hname : k.1 = name := by simpa using find?_some hknown
  have hmem := mem_of_find?_eq_some hknown
  subst hname
  simp only [knownGates, mem_cons, not_mem_nil, or_false] at hmem
  -- One case for each gate, in the order of the table.
  rcases hmem with rfl | rfl | rfl | rfl | rfl | rfl | rfl | rfl | rfl | rfl | rfl | rfl | rfl | rfl |
    rfl | rfl | rfl | rfl
  all_goals
    simp only [length_eq_zero_iff, length_eq_one_iff, length_eq_three] at hparams
    try casesm* ∃ _, _
    subst params
  · exact single_performed (fun _ => rfl) (fun _ => rfl) (fun _ q _ => Performs.nothing q) hlen hvs
  · exact single_performed (fun _ => rfl) (fun _ => rfl) (fun _ _ => Performs.x) hlen hvs
  · exact single_performed (fun _ => rfl) (fun _ => rfl) (fun _ _ => Performs.y) hlen hvs
  · exact single_performed (fun _ => rfl) (fun _ => rfl) (fun _ _ => Performs.z) hlen hvs
  · exact single_performed steps?_h (fun _ => rfl) (fun _ _ hv => (Performs.h hv).1) hlen hvs
  · exact single_performed (fun _ => rfl) (fun _ => rfl) (fun _ _ => Performs.s) hlen hvs
  · exact single_performed (fun _ => rfl) (fun _ => rfl) (fun _ _ => Performs.t) hlen hvs
  · exact single_performed (fun _ => rfl) (fun _ => rfl) (fun _ _ hv => Performs.rx hv _) hlen hvs
  · exact single_performed (fun _ => rfl) (fun _ => rfl) (fun _ _ hv => Performs.ry hv _) hlen hvs
  · exact single_performed (fun _ => rfl) (fun _ => rfl) (fun _ _ hv => Performs.rz hv _) hlen hvs
  · exact single_performed (fun _ => rfl) (fun _ => rfl) (fun _ _ hv => Performs.u3 hv _ _ _) hlen hvs
  · exact controlled_performed (fun _ _ => rfl) (fun _ _ => rfl) (fun _ _ _ _ => Performs.cx) hlen hnodup hvs
  · exact controlled_performed (fun _ _ => rfl) (fun _ _ => rfl) (fun _ _ _ _ => Performs.cy) hlen hnodup hvs
  · exact controlled_performed (fun _ _ => rfl) (fun _ _ => rfl) (fun _ _ _ _ => Performs.cz) hlen hnodup hvs
  · exact controlled_performed (fun _ _ => rfl) (fun _ _ => rfl)
      (fun _ _ _ _ hv hw hne => Performs.crx hv hw hne _) hlen hnodup hvs
  · exact controlled_performed (fun _ _ => rfl) (fun _ _ => rfl)
      (fun _ _ _ _ hv hw hne => Performs.cry hv hw hne _) hlen hnodup hvs
  · exact controlled_performed (fun _ _ => rfl) (fun _ _ => rfl)
      (fun _ _ _ _ hv hw hne => Performs.crz hv hw hne _) hlen hnodup hvs
  · exact controlled_performed (fun _ _ => rfl) (fun _ _ => rfl)
      (fun _ _ _ _ hv hw hne => Performs.cu1 hv hw hne _) hlen hnodup hvs

end Qasm

end GadgetCircuits
