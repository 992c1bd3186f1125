import GadgetCircuits.Proofs.BuiltCircuits
import GadgetCircuits.Proofs.DiagonalGates

/-!
Gates of circuits, expanded into gadgets, against the gadgets that the gates of the same names append to
a phase circuit.
-/

namespace GadgetCircuits

open List GateMatrix PhaseCircuit Gate Performs NamedGate Circuit Qasm Complex UpToPhase Except
open scoped Real
open Complex (I)

variable {n : Nat}

def GateKind.depth : GateKind → Nat
  | .swap => 2
  | .cx | .cy | .ccx | .crx => 1
  | _ => 0

namespace Gate

variable {g : Gate} {u : Operator n} {parts : List (Except Error Component)}
variable {us : List (Operator n)} {ks : List Component}

lemma turn_ne_gate {b : Basis} {a : AngleOperand} {qs : List Value} :
    turn b a qs ≠ .ok (.gate g) := by
  rw [turn]
  cases Gadget.rotationOnSet b a qs <;> simp [Except.map]

lemma depth_lt {g' : Gate} (hks : g.components = .ok ks) (hg' : .gate g' ∈ ks) :
    g'.kind.depth < g.kind.depth := by
  have hpart : ∀ {xs : List (Except Error Component)}, xs.mapM id = .ok ks → .ok (.gate g') ∈ xs := by
    intro xs hxs
    obtain ⟨x, hx, hok⟩ := of_mem_mapM hxs _ hg'
    exact (show x = _ from hok) ▸ hx
  have hfixed : ∀ b q qs, ok (.gate g') ≠ fixed b q qs := fun _ _ _ => turn_ne_gate.symm
  have hturn : ∀ b a qs, ok (.gate g') ≠ turn b a qs := fun _ _ _ => turn_ne_gate.symm
  obtain ⟨kind, phase, qubits⟩ := g
  simp only [components] at hks
  split at hks
  -- The parts of CCZ and CRz are not listed one by one.
  case h_14 =>
    obtain ⟨qs, -, hok⟩ := of_mem_mapM hks _ hg'
    exact absurd hok turn_ne_gate
  case h_19 =>
    obtain ⟨a, -, hks⟩ := bind_eq_ok.mp hks
    obtain ⟨first, hfirst, hks⟩ := bind_eq_ok.mp hks
    obtain ⟨b, -, hks⟩ := bind_eq_ok.mp hks
    obtain ⟨second, hsecond, hks⟩ := bind_eq_ok.mp hks
    cases hks
    grind
  case h_20 => cases hks
  all_goals
    have hmem := hpart hks
    simp only [mem_cons, not_mem_nil, hfixed, hturn, inner, ok.injEq,
      Component.gate.injEq, false_or, or_false] at hmem
  all_goals rcases hmem with rfl | rfl | rfl <;> simp [GateKind.depth]

/-- The gadgets of a gate: those among its parts and those of the gates among them. -/
def expand (g : Gate) : Except Error (List Gadget) :=
  match hks : g.components with
  | .error e => .error e
  | .ok ks => do
    let gss ← ks.attach.mapM fun
      | ⟨.gadget k, _⟩ => .ok [k]
      | ⟨.gate g', hg'⟩ =>
        have := depth_lt hks hg'
        expand g'
    return gss.flatten
termination_by g.kind.depth

def Component.expand : Component → Except Error (List Gadget)
  | .gadget k => .ok [k]
  | .gate g => g.expand

lemma expand_eq (hks : g.components = .ok ks) :
    g.expand = (ks.mapM Component.expand).map List.flatten := by
  rw [expand]
  split
  · next e he => cases hks.symm.trans he
  · next ks' hks' =>
    obtain rfl := ok.inj (hks.symm.trans hks')
    have hparts : ∀ k : { k // k ∈ ks }, (match k with
        | ⟨.gadget k, _⟩ => .ok [k]
        | ⟨.gate g', _⟩ => g'.expand) = Component.expand k.1 := by
      rintro ⟨k | g', -⟩ <;> rfl
    simp only [hparts]
    rw [mapM_subtype fun k _ => rfl, unattach_attach]
    cases ks.mapM Component.expand <;> rfl

lemma expand_error {e : Error} (h : g.components = .error e) : g.expand = .error e := by
  rw [expand]
  grind

def Expands (g : Gate) (u : Operator n) : Prop :=
  ∃ gs, g.expand = .ok gs ∧ Performed gs u

def ofStep (s : GateStep) : Except Error Component :=
  s.gadget.map .gadget

def PartPerforms (part : Except Error Component) (u : Operator n) : Prop :=
  ∃ k gs, part = .ok k ∧ k.expand = .ok gs ∧ Performed gs u

lemma PartPerforms.inner {kind : GateKind} {qs : List Value} {phase : Option AngleOperand}
    (h : Expands ⟨kind, phase, qs⟩ u) : PartPerforms (inner kind qs phase) u := by
  obtain ⟨gs, hgs, hperformed⟩ := h
  exact ⟨_, gs, rfl, hgs, hperformed⟩

lemma PartPerforms.step {s : GateStep} (h : Performs [s] u) : PartPerforms (ofStep s) u := by
  obtain ⟨gs, hgs, hperformed⟩ := h
  obtain ⟨g, _, hg, hnil, rfl⟩ := forall₂_cons_left_iff.mp (mapM_eq_ok.mp hgs)
  obtain rfl := forall₂_nil_left_iff.mp hnil
  exact ⟨.gadget g, [g], by rw [ofStep, hg]; rfl, rfl, hperformed⟩

lemma exists_parts (hparts : Forall₂ PartPerforms parts us) :
    ∃ ks gss, parts.mapM id = .ok ks ∧ ks.mapM Component.expand = .ok gss ∧
      Forall₂ Performed gss us := by
  simp only [mapM_eq_ok]
  induction hparts with
  | nil => exact ⟨[], [], .nil, .nil, .nil⟩
  | cons hpart _ ih =>
    obtain ⟨k, gs, hk, hgs, hperformed⟩ := hpart
    obtain ⟨ks, gss, hks, hgss, hall⟩ := ih
    exact ⟨k :: ks, gs :: gss, .cons hk hks, .cons hgs hgss, .cons hperformed hall⟩

lemma expands_of_parts (hg : g.components = parts.mapM id)
    (hparts : Forall₂ PartPerforms parts us) : g.Expands (inOrder us) := by
  obtain ⟨ks, gss, hks, hgss, hall⟩ := exists_parts hparts
  refine ⟨gss.flatten, ?_, .flatten hall⟩
  rw [expand_eq (hg.trans hks), hgss]
  rfl

lemma expands_of_steps {steps : List GateStep} (hg : g.components = (steps.map ofStep).mapM id)
    (hu : Performs steps u) : g.Expands u := by
  obtain ⟨gs, hgs, hperformed⟩ := hu
  have hks : (steps.map ofStep).mapM id = .ok (gs.map .gadget) := by
    rw [mapM_map]
    refine (mapM_exceptMap GateStep.gadget Component.gadget steps).trans ?_
    rw [hgs]
    rfl
  have hexpand : (gs.map .gadget).mapM Component.expand = .ok (gs.map fun g => [g]) := by
    rw [mapM_map]
    exact mapM_ok fun _ _ => rfl
  refine ⟨gs, ?_, hperformed⟩
  rw [expand_eq (hg.trans hks), hexpand]
  exact congrArg ok (flatMap_singleton' gs)

section Expands

variable {phase : Option AngleOperand} {p q r : Value} {i j k : Fin n}

lemma h_expands (hq : Qasm.Names q i) : Expands ⟨.h, phase, [q]⟩ (onQubit i .h) := by
  have hx := (quarter_x hq).1
  have hz := Performs.rz hq ⟨1 / 2⟩
  rw [Angle.radians_half] at hz
  have hsteps := (hz.andThen hx).andThen hz
  rw [← mul_assoc, quarters_z_eq] at hsteps
  exact expands_of_steps rfl ((smul_iff (by simp)).mp hsteps)

lemma expands_between {kind inner : GateKind} {phase' : Option AngleOperand} {qs : List Value}
    {u : Operator n}
    (hg : components ⟨kind, phase, qs⟩ =
      [Gate.inner .h [r] none, Gate.inner inner qs phase', Gate.inner .h [r] none].mapM id)
    (hr : Qasm.Names r j) (hu : Expands ⟨inner, phase', qs⟩ u) :
    Expands ⟨kind, phase, qs⟩ (onQubit j .h * u * onQubit j .h) := by
  have hparts := expands_of_parts hg (.cons (.inner (h_expands hr)) (.cons (.inner hu)
    (.cons (.inner (h_expands hr)) .nil)))
  simpa only [inOrder_cons, inOrder_nil, one_mul] using hparts

section Pair

variable (hq : Qasm.Names q i) (hr : Qasm.Names r j) (hne : i ≠ j)

include hq hr hne

lemma cz_expands : Expands ⟨.cz, phase, [q, r]⟩ (Matrix.diagonal (turnPhase (π / 2) [i, j])) := by
  have hlink := linkDiagonal (.cons hq (.cons hr .nil)) (cons_ne_nil i [j])
    (by simpa using hne) ⟨1 / 2⟩
  rw [Angle.radians_half] at hlink
  exact expands_of_steps rfl hlink

lemma crx_expands (a : Angle) :
    Expands ⟨.crx, some (.expr (.angle a)), [q, r]⟩ (controlled i (onQubit j (.rx a.radians))) := by
  have hexpands : Expands ⟨.crx, some (.expr (.angle a)), [q, r]⟩ _ :=
    expands_between rfl hr (expands_of_steps rfl (Performs.crz hq hr hne a))
  rwa [controlled_conj (by rw [← onQubit_mul, h_mul_h, onQubit_one])
    (onQubit_commute_z hne _).eq (by rw [← onQubit_mul, h_mul_rz, onQubit_mul])] at hexpands

lemma cy_expands : Expands ⟨.cy, phase, [q, r]⟩ (onQubit j (.rx (-(π / 2))) *
      Matrix.diagonal (turnPhase (π / 2) [i, j]) * onQubit j (.rx (π / 2))) := by
  obtain ⟨hv, hvdg⟩ := quarter_x hr
  have hparts := expands_of_parts (g := ⟨.cy, phase, [q, r]⟩) rfl (.cons (.step hv)
    (.cons (.inner (cz_expands hq hr hne)) (.cons (.step hvdg) .nil)))
  simpa only [inOrder_cons, inOrder_nil, one_mul] using hparts

end Pair

lemma ccz_expands (hp : Qasm.Names p i) (hq : Qasm.Names q j) (hr : Qasm.Names r k) (hij : i ≠ j)
    (hik : i ≠ k) (hjk : j ≠ k) : Expands ⟨.ccz, phase, [p, q, r]⟩ (1 : Operator n) := by
  have hlink : ∀ {vs : List Value} {qs : List (Fin n)}, Forall₂ Qasm.Names vs qs → qs ≠ [] →
      qs.Nodup → Performs [.link (PhaseGate.turns (-1 / 2)) vs]
        (Matrix.diagonal (turnPhase (-(π / 2)) qs)) := by
    intro vs qs hvs hne hnodup
    rw [← Angle.radians_neg_half]
    exact linkDiagonal hvs hne hnodup _
  have hsteps := ((((((hlink (.cons hp .nil) (by simp) (by simp)).appendDiagonal
    (hlink (.cons hq .nil) (by simp) (by simp))).appendDiagonal
    (hlink (.cons hr .nil) (by simp) (by simp))).appendDiagonal
    (hlink (.cons hp (.cons hq .nil)) (by simp) (by simpa using hij))).appendDiagonal
    (hlink (.cons hp (.cons hr .nil)) (by simp) (by simpa using hik))).appendDiagonal
    (hlink (.cons hq (.cons hr .nil)) (by simp) (by simpa using hjk))).appendDiagonal
    (hlink (.cons hp (.cons hq (.cons hr .nil))) (by simp) (by simpa using ⟨⟨hij, hik⟩, hjk⟩))
  refine expands_of_steps rfl (hsteps.upToPhase ?_)
  rw [← Matrix.diagonal_one]
  exact of_diagonal (norm_exp_half _).2 fun x => by rw [mul_one, turnPhase_all]

end Expands

end Gate

def Circuit.expand (c : Circuit) : Except Error (List Gadget) :=
  (c.gates.mapM Gate.expand).map List.flatten

section Differ

variable {i j k : Fin n} {u v w : Operator n}

lemma UpToPhase.cancel {a a' b b' : Operator n} (h : UpToPhase (a * u * b) (a * v * b)) (ha : a' * a = 1)
    (hb : b * b' = 1) : UpToPhase u v := by
  have hcancel : ∀ w : Operator n, a' * (a * w * b) * b' = w := by grind
  have hboth := ((refl a').mul h).mul (refl b')
  rwa [hcancel, hcancel] at hboth

lemma UpToPhase.of_hadamards (h : UpToPhase (onQubit j .h * u * onQubit j .h)
    (onQubit j .h * v * onQubit j .h)) : UpToPhase u v := by
  have hsquare : onQubit j .h * onQubit j .h = 1 := by
    rw [← onQubit_mul, h_mul_h, onQubit_one]
  exact h.cancel hsquare hsquare

lemma link_differs (hne : i ≠ j) : ¬ UpToPhase (Matrix.diagonal (turnPhase (π / 2) [i, j]))
    (controlled i (onQubit j .z)) := by
  intro h
  rw [controlled_z_eq_diagonal] at h
  -- the gate leaves both the clear state and the one with only the control set; the link tells them apart
  have hratio := h.diagonal_ratio (fun _ => false) fun q => decide (q = i)
  obtain ⟨hone, htwo⟩ := exp_half_mul (π / 2)
  have hclear : turnPhase (π / 2) [i, j] (fun _ => false) =
      exp (-(GateMatrix.half (π / 2) * I)) := if_neg (by simp [Bits.oddOn])
  have hset : turnPhase (π / 2) [i, j] (fun q => decide (q = i)) =
      exp (GateMatrix.half (π / 2) * I) :=
    if_pos (by simp [Bits.oddOn, hne.symm])
  have hsame : exp (-(GateMatrix.half (π / 2) * I)) =
      exp (GateMatrix.half (π / 2) * I) := by
    rw [hclear, hset] at hratio
    simpa [hne.symm] using hratio
  rw [hsame, htwo, ofReal_div, ofReal_ofNat, exp_pi_div_two_mul_I] at hone
  simpa using congrArg re hone

lemma nothing_differs : ¬ UpToPhase 1 (controlled i (controlled j (onQubit k .z))) := by
  intro h
  rw [controlled_controlled_z_eq_diagonal, ← Matrix.diagonal_one] at h
  have hratio := h.diagonal_ratio (fun _ => false) fun _ => true
  norm_num at hratio

lemma frame_differs (hne : i ≠ j) (d e : Bits n → ℂ) (he : ∀ x, e x ≠ 0) :
    ¬ UpToPhase (onQubit j (.rx (-(π / 2))) * Matrix.diagonal d * onQubit j (.rx (π / 2)))
      (onQubit j (.rx (-(π / 2))) * (Matrix.diagonal e * onQubit i (.rx (π / 2)))) := by
  intro h
  have hinverse : onQubit j (.rx (π / 2)) * onQubit j (.rx (-(π / 2))) = 1 := by
    have hback := rx_neg_mul (-(π / 2))
    rw [neg_neg] at hback
    rw [← onQubit_mul, hback, onQubit_one]
  obtain ⟨z, hz, hzs⟩ := (refl (onQubit j (.rx (π / 2)))).mul h
  rw [mul_assoc, ← mul_assoc, hinverse, one_mul, ← mul_assoc, hinverse, one_mul] at hzs
  -- Only the turn of the control changes the bit of the control.
  have htarget : onQubit j (.rx (π / 2)) (fun _ => false) (fun q => decide (q = i)) = 0 := by
    rw [onQubit, if_neg fun hoff => by simpa using hoff i hne]
  have hcontrol : onQubit i (.rx (π / 2)) (fun _ => false) (fun q => decide (q = i)) ≠ 0 := by
    have hentry : (GateMatrix.rx (π / 2)) false true =
        -(I * Real.sin (GateMatrix.half (π / 2))) := rfl
    rw [onQubit, if_pos fun q hq => by simp [hq], decide_eq_true rfl, hentry, sin_half_quarter]
    simp
  have hentry := congrFun (congrFun hzs fun _ => false) fun q => decide (q = i)
  simp_all

end Differ

lemma PhaseGate.circuitSteps_h (v : Value) : circuitSteps "h" [.plain v] = .ok (h v) := by
  rw [circuitSteps_eq (by decide), steps?_h]
  rfl

/-- Gadgets that make up the same operator up to a global phase. -/
def Equivalent (n : Nat) (gs hs : List Gadget) : Prop :=
  UpToPhase (inOrder (gs.map (Gadget.unitary n AngleExpr.radians)))
    (inOrder (hs.map (Gadget.unitary n AngleExpr.radians)))

lemma Equivalent.append {gs gs' hs hs' : List Gadget} (h : Equivalent n gs hs)
    (h' : Equivalent n gs' hs') : Equivalent n (gs ++ gs') (hs ++ hs') := by
  rw [Equivalent, map_append, map_append, inOrder_append, inOrder_append]
  exact mul h' h

def GateKind.method? : GateKind → Option String
  | .h => some "h" | .x => some "x" | .z => some "z" | .y => some "y" | .s => some "s"
  | .sdg => some "sdg" | .t => some "t" | .tdg => none | .swap => none | .cx => some "cx"
  | .cy => some "cy" | .cz => some "cz" | .ccx => some "ccx" | .ccz => some "ccz" | .rx => some "rx"
  | .ry => some "ry" | .rz => some "rz" | .crx => some "crx" | .cry => some "cry" | .crz => some "crz"

/-- Whether the gadgets of a gate make up the gate of the same name. -/
def GateKind.agrees : GateKind → Bool
  | .cx | .cy | .cz | .ccx | .ccz | .cry => false
  | _ => true

/-- A gate that phase circuits have too, on different qubits and with a number for its angle. -/
structure PlacedGate (n : Nat) where
  kind : GateKind
  method : String
  qubits : List (Fin n)
  angle : Option Angle
  named : kind.method? = some method
  arity : qubits.length = kind.numQubits
  turned : angle.isSome = kind.hasPhase
  distinct : qubits.Nodup

namespace PlacedGate

def gate (g : PlacedGate n) : Gate where
  kind := g.kind
  phase := g.angle.map fun a => .expr (.angle a)
  qubits := g.qubits.map qubitValue

def arguments (g : PlacedGate n) : List AngleOperand :=
  g.qubits.map (.plain ∘ qubitValue) ++ angleOperands g.angle.toList

structure Compared (g : PlacedGate n) (gs : List Gadget) : Prop where
  steps : ∃ steps, PhaseGate.circuitSteps g.method g.arguments = .ok steps ∧
    steps.mapM GateStep.gadget = .ok gs
  legs : ∀ k ∈ gs, LegsOn n k.legs
  equivalent_iff : (∃ ds, g.gate.expand = .ok ds ∧ Equivalent n ds gs) ↔ g.kind.agrees = true

variable {steps : List GateStep} {u v : Operator n} {g : PlacedGate n}

section Compare

variable (hsteps : PhaseGate.circuitSteps g.method g.arguments = .ok steps) (hperforms : Performs steps u)

include hsteps hperforms

lemma compared_of (h : ∀ gs, Performed gs u →
      ((∃ ds, g.gate.expand = .ok ds ∧ Equivalent n ds gs) ↔ g.kind.agrees)) :
    ∃ gs, g.Compared gs := by
  obtain ⟨gs, hgs, hgu⟩ := hperforms
  exact ⟨gs, ⟨steps, hsteps, hgs⟩, fun k hk => (hgu.proper k hk).1, h gs hgu⟩

lemma compared_same (hagrees : g.kind.agrees) (hexpands : g.gate.Expands u) :
    ∃ gs, g.Compared gs := by
  obtain ⟨ds, hds, hdu⟩ := hexpands
  exact compared_of hsteps hperforms fun gs hgu =>
    ⟨fun _ => hagrees, fun _ => ⟨ds, hds, hdu.unitary.trans hgu.unitary.symm⟩⟩

lemma compared_steps (hagrees : g.kind.agrees)
    (hparts : g.gate.components = (steps.map ofStep).mapM id) : ∃ gs, g.Compared gs :=
  compared_same hsteps hperforms hagrees (expands_of_steps hparts hperforms)

lemma compared_differ (hagrees : g.kind.agrees = false) (hexpands : g.gate.Expands v)
    (hne : ¬ UpToPhase v u) : ∃ gs, g.Compared gs := by
  obtain ⟨ds, hds, hdv⟩ := hexpands
  refine compared_of hsteps hperforms fun gs hgu => ⟨?_, fun h => nomatch hagrees.symm.trans h⟩
  rintro ⟨ds', hds', hsame⟩
  obtain rfl := ok.inj (hds.symm.trans hds')
  exact absurd ((hdv.unitary.symm.trans hsame).trans hgu.unitary) hne

lemma compared_error (hagrees : g.kind.agrees = false) {e : Error} (hexpand : g.gate.expand = .error e) :
    ∃ gs, g.Compared gs :=
  compared_of hsteps hperforms fun _ _ =>
    ⟨fun ⟨_, hds, _⟩ => (nomatch hexpand.symm.trans hds), fun h => nomatch hagrees.symm.trans h⟩

end Compare

lemma angle_eq_none (g : PlacedGate n) (h : g.kind.hasPhase = false) : g.angle = none :=
  Option.not_isSome_iff_eq_none.mp (Bool.eq_false_iff.mp (g.turned.trans h))

lemma exists_angle (g : PlacedGate n) (h : g.kind.hasPhase) : ∃ a, g.angle = some a :=
  Option.isSome_iff_exists.mp (g.turned.trans h)

lemma exists_compared_one (hnum : g.kind.numQubits = 1) : ∃ gs, g.Compared gs := by
  obtain ⟨i, hqubits⟩ := length_eq_one_iff.mp (g.arity.trans hnum)
  have hnone := g.angle_eq_none
  have hsome := g.exists_angle
  have hq : Qasm.Names (qubitValue i) i := rfl
  obtain ⟨kind, method, qubits, angle, named, arity, turned, distinct⟩ := g
  obtain rfl : qubits = [i] := hqubits
  cases kind <;> cases hnum <;> cases named
  all_goals first | obtain rfl := hnone rfl | obtain ⟨a, rfl⟩ := hsome rfl
  case h => exact compared_same (PhaseGate.circuitSteps_h _) (Performs.h hq).1 rfl (h_expands hq)
  case x => exact compared_steps rfl (Performs.x hq) rfl rfl
  case z => exact compared_steps rfl (Performs.z hq) rfl rfl
  case y => exact compared_steps rfl (Performs.y hq) rfl rfl
  case s => exact compared_steps rfl (Performs.s hq) rfl rfl
  case sdg => exact compared_steps rfl (Performs.rz hq ⟨-1 / 2⟩) rfl rfl
  case t => exact compared_steps rfl (Performs.t hq) rfl rfl
  case rx => exact compared_steps rfl (Performs.rx hq a) rfl rfl
  case ry => exact compared_steps rfl (Performs.ry hq a) rfl rfl
  case rz => exact compared_steps rfl (Performs.rz hq a) rfl rfl

lemma exists_compared_two (hnum : g.kind.numQubits = 2) : ∃ gs, g.Compared gs := by
  obtain ⟨i, j, hqubits⟩ := length_eq_two.mp (g.arity.trans hnum)
  have hnone := g.angle_eq_none
  have hsome := g.exists_angle
  have hq : Qasm.Names (qubitValue i) i := rfl
  have hr : Qasm.Names (qubitValue j) j := rfl
  obtain ⟨kind, method, qubits, angle, named, arity, turned, distinct⟩ := g
  obtain rfl : qubits = [i, j] := hqubits
  have hne : i ≠ j := by simpa using distinct
  cases kind <;> cases hnum <;> cases named
  all_goals first | obtain rfl := hnone rfl | obtain ⟨a, rfl⟩ := hsome rfl
  case cx =>
    refine compared_differ rfl (((Performs.h hr).1.append (Performs.cz hq hr hne)).append (Performs.h hr).2)
      rfl (expands_between rfl hr (cz_expands hq hr hne)) ?_
    rw [← mul_assoc]
    exact fun h => link_differs hne h.of_hadamards
  case cy =>
    refine compared_differ rfl (((quarter_x hq).1.append (Performs.cz hq hr hne)).append
      (quarter_x hr).2) rfl (cy_expands hq hr hne) ?_
    rw [controlled_z_eq_diagonal]
    refine frame_differs hne _ _ fun x => ?_
    split <;> simp
  case cz =>
    exact compared_differ rfl (Performs.cz hq hr hne) rfl (cz_expands hq hr hne) (link_differs hne)
  case crx => exact compared_same rfl (Performs.crx hq hr hne a) rfl (crx_expands hq hr hne a)
  case cry => exact compared_error rfl (Performs.cry hq hr hne a) rfl (expand_error rfl)
  case crz => exact compared_steps rfl (Performs.crz hq hr hne a) rfl rfl

lemma exists_compared_three (hnum : g.kind.numQubits = 3) : ∃ gs, g.Compared gs := by
  obtain ⟨i, j, k, hqubits⟩ := length_eq_three.mp (g.arity.trans hnum)
  have hnone := g.angle_eq_none
  have hp : Qasm.Names (qubitValue i) i := rfl
  have hq : Qasm.Names (qubitValue j) j := rfl
  have hr : Qasm.Names (qubitValue k) k := rfl
  obtain ⟨kind, method, qubits, angle, named, arity, turned, distinct⟩ := g
  obtain rfl : qubits = [i, j, k] := hqubits
  obtain ⟨⟨hij, hik⟩, hjk⟩ : (i ≠ j ∧ i ≠ k) ∧ j ≠ k := by simpa using distinct
  have hexpands : Gate.Expands ⟨.ccz, none, _⟩ (1 : Operator n) :=
    ccz_expands hp hq hr hij hik hjk
  have hperforms := Performs.ccz hp hq hr hij hik hjk
  cases kind <;> cases hnum <;> cases named
  all_goals obtain rfl := hnone rfl
  case ccx =>
    refine compared_differ rfl (((Performs.h hr).1.append hperforms).append (Performs.h hr).2) rfl
      (expands_between rfl hr hexpands) ?_
    rw [← mul_assoc]
    exact fun h => nothing_differs h.of_hadamards
  case ccz => exact compared_differ rfl hperforms rfl hexpands nothing_differs

lemma exists_compared (g : PlacedGate n) : ∃ gs, g.Compared gs := by
  have hnum : g.kind.numQubits = 1 ∨ g.kind.numQubits = 2 ∨ g.kind.numQubits = 3 := by
    cases g.kind <;> decide
  rcases hnum with hnum | hnum | hnum
  · exact exists_compared_one hnum
  · exact exists_compared_two hnum
  · exact exists_compared_three hnum

def appendAll (gs : List (PlacedGate n)) : Update PhaseCircuit Unit :=
  gs.forM fun g => PhaseCircuit.gate g.method g.arguments

lemma equivalent_appended {gs : List Gadget} (hgs : ∀ k ∈ gs, LegsOn n k.legs) (ds : List Gadget) :
    Equivalent n ds (gs.map fun k => (PhaseCircuit.appendedCell n k).gadget) ↔ Equivalent n ds gs := by
  have hsame : (gs.map fun k => (PhaseCircuit.appendedCell n k).gadget).map
      (Gadget.unitary n AngleExpr.radians) = gs.map (Gadget.unitary n AngleExpr.radians) := by
    rw [map_map]
    exact map_congr_left fun k hk => appendedCell_unitary (hgs k hk).nodup _
  rw [Equivalent, Equivalent, hsame]

lemma appended_equivalent_iff (g : PlacedGate n) {c : PhaseCircuit} (hc : c.WellFormed)
    (hsize : c.size = n) :
    ∃ c' ks gs, (PhaseCircuit.gate g.method g.arguments).runFrom c = (.ok (), c') ∧
      c.gadgets = .ok ks ∧ c'.gadgets = .ok (ks ++ gs) ∧
      ((∃ ds, g.gate.expand = .ok ds ∧ Equivalent n ds gs) ↔ g.kind.agrees) := by
  subst hsize
  obtain ⟨gs, ⟨steps, hsteps, hgs⟩, hlegs, hiff⟩ := g.exists_compared
  obtain ⟨c', hrun, hext⟩ := gate_extends hsteps hgs hc fun k hk => (hlegs k hk).fits
  obtain ⟨ks, hks, hks'⟩ := hext.gadgets hc
  exact ⟨c', ks, _, hrun, hks, hks', by simp only [equivalent_appended hlegs, hiff]⟩

lemma ofItems_gates (gs : List (PlacedGate n)) :
    Circuit.ofItems (.ofNat n) (gs.map fun g => .gate g.gate) =
      .ok ⟨.ofNat n, gs.map PlacedGate.gate⟩ := by
  have hcheck : (gs.map fun g => GateItem.gate g.gate).mapM (Circuit.checkGate (.ofNat n)) =
      .ok (gs.map PlacedGate.gate) := by
    rw [mapM_map]
    exact mapM_ok fun g _ => Circuit.checkGate_ofNat rfl g.distinct
  rw [Circuit.ofItems, Circuit.addAll, hcheck]
  rfl

/-- A circuit of gates that agree expands to gadgets equivalent to those of the phase circuit. -/
theorem expand_equivalent (hn : 0 < n) {gs : List (PlacedGate n)} (hgs : ∀ g ∈ gs, g.kind.agrees) :
    ∃ circuit ds c₀ c ks, ofItems (.ofNat n) (gs.map fun g => .gate g.gate) = .ok circuit ∧
      circuit.expand = .ok ds ∧ PhaseCircuit.make (.ofNat n) (some []) = .ok c₀ ∧
      (appendAll gs).runFrom c₀ = (.ok (), c) ∧ c.gadgets = .ok ks ∧ Equivalent n ds ks := by
  choose built h using exists_compared (n := n)
  have hempty : ∀ k ∈ ([] : List Gadget), k.Fits n := nofun
  obtain ⟨c₀, hmake, hwf₀, hsize₀, hcells₀⟩ := ofGadgets_ok hempty
  obtain ⟨c, hrun, hext⟩ := gates_extend (fun g => (h g).steps)
    (fun g k hk => ((h g).legs k hk).fits) gs hwf₀ hsize₀
  have hexpand : ∃ dss, (gs.map PlacedGate.gate).mapM Gate.expand = .ok dss ∧
      Equivalent n dss.flatten (gs.flatMap built) := by
    clear hrun hext
    induction gs with
    | nil => exact ⟨[], rfl, refl _⟩
    | cons g gs ih =>
      obtain ⟨hg, hgs⟩ := forall_mem_cons.mp hgs
      obtain ⟨ds, hds, hequivalent⟩ := (h g).equivalent_iff.mpr hg
      obtain ⟨dss, hdss, hequivalents⟩ := ih hgs
      refine ⟨ds :: dss, ?_, hequivalent.append hequivalents⟩
      rw [map_cons, mapM_cons, hds, ok_bind, hdss]
      rfl
  obtain ⟨dss, hdss, hequivalent⟩ := hexpand
  obtain ⟨ks, hks, hks'⟩ := hext.gadgets hwf₀
  rw [gadgets_eq hwf₀, hcells₀] at hks
  cases hks
  refine ⟨_, dss.flatten, c₀, c, _, ofItems_gates gs, ?_, PhaseCircuit.make_eq_ok.mpr ⟨hn, hmake⟩, hrun,
    hks', ?_⟩
  · rw [Circuit.expand, hdss]
    rfl
  · rw [hsize₀]
    refine (equivalent_appended (fun k hk => ?_) _).mpr hequivalent
    obtain ⟨g, -, hk⟩ := mem_flatMap.mp hk
    exact (h g).legs k hk

/-- The gadgets that a gate appends are equivalent to its expansion just if gates of its kind agree, and so
a circuit of such gates expands to an equivalent phase circuit. -/
theorem expansion_agreement (hn : 0 < n) :
    (∀ (g : PlacedGate n) (c : PhaseCircuit), c.WellFormed → c.size = n →
      ∃ c' ks gs, (PhaseCircuit.gate g.method g.arguments).runFrom c = (.ok (), c') ∧
        c.gadgets = .ok ks ∧ c'.gadgets = .ok (ks ++ gs) ∧
        ((∃ ds, g.gate.expand = .ok ds ∧ Equivalent n ds gs) ↔ g.kind.agrees = true)) ∧
    ∀ gs : List (PlacedGate n), (∀ g ∈ gs, g.kind.agrees = true) →
      ∃ circuit ds c₀ c ks, Circuit.ofItems (.ofNat n) (gs.map fun g => .gate g.gate) = .ok circuit ∧
        circuit.expand = .ok ds ∧ PhaseCircuit.make (.ofNat n) (some []) = .ok c₀ ∧
        (appendAll gs).runFrom c₀ = (.ok (), c) ∧ c.gadgets = .ok ks ∧ Equivalent n ds ks :=
  ⟨fun g _ hc hsize => g.appended_equivalent_iff hc hsize, fun _ hgs => expand_equivalent hn hgs⟩

def agreeing : List (PlacedGate 2) :=
  [⟨.h, "h", [target], none, rfl, rfl, rfl, nodup_singleton _⟩,
    ⟨.crx, "crx", [NamedGate.control, target], some ⟨5 / 3⟩, rfl, rfl, rfl,
      pair_nodup⟩,
    ⟨.ry, "ry", [NamedGate.control], some ⟨-9 / 4⟩, rfl, rfl, rfl, nodup_singleton _⟩,
    ⟨.sdg, "sdg", [target], none, rfl, rfl, rfl, nodup_singleton _⟩]

theorem agreeing_expansion :
    0 < 2 ∧ PhaseCircuit.WellFormed { size := 2 } ∧ (∀ g ∈ agreeing, g.kind.agrees = true) ∧
    (∀ g ∈ agreeing, ∃ c' ks gs ds,
      (PhaseCircuit.gate g.method g.arguments).runFrom { size := 2 } = (.ok (), c') ∧
      PhaseCircuit.gadgets { size := 2 } = .ok ks ∧ c'.gadgets = .ok (ks ++ gs) ∧
      g.gate.expand = .ok ds ∧ Equivalent 2 ds gs) ∧
    ∃ circuit ds c₀ c ks,
      ofItems (.ofNat 2) (agreeing.map fun g => .gate g.gate) = .ok circuit ∧
      circuit.expand = .ok ds ∧ PhaseCircuit.make (.ofNat 2) (some []) = .ok c₀ ∧
      (appendAll agreeing).runFrom c₀ = (.ok (), c) ∧ c.gadgets = .ok ks ∧ Equivalent 2 ds ks := by
  have hagrees : ∀ g ∈ agreeing, g.kind.agrees = true := by decide
  have hempty := wellFormed_empty 2
  obtain ⟨hgate, hcircuit⟩ := expansion_agreement (n := 2) (by decide)
  refine ⟨by decide, hempty, hagrees, fun g hg => ?_, hcircuit agreeing hagrees⟩
  obtain ⟨c', ks, gs, hrun, hks, hks', hiff⟩ := hgate g { size := 2 } hempty rfl
  obtain ⟨ds, hds, hequivalent⟩ := hiff.mpr (hagrees g hg)
  exact ⟨c', ks, gs, ds, hrun, hks, hks', hds, hequivalent⟩

def controlledZ : PlacedGate 2 :=
  ⟨.cz, "cz", [NamedGate.control, target], none, rfl, rfl, rfl, pair_nodup⟩

def quarterLink : Gadget :=
  { basis := .z, angle := .angle ⟨1 / 2⟩, legs := [0, 1] }

/-- The controlled Z gate expands to one link, which is not what it appends to an empty circuit. -/
theorem controlledZ_expansion_differs :
    ∃ c ks, controlledZ.gate.expand = .ok [quarterLink] ∧
      (PhaseCircuit.gate controlledZ.method controlledZ.arguments).runFrom { size := 2 } = (.ok (), c) ∧
      c.gadgets = .ok ks ∧ ¬ Equivalent 2 [quarterLink] ks := by
  have hparts : controlledZ.gate.components = .ok [.gadget quarterLink] := by cbv
  have hexpand : controlledZ.gate.expand = .ok [quarterLink] := expand_eq hparts
  obtain ⟨c, ks₀, ks, hrun, hks₀, hks, hiff⟩ :=
    controlledZ.appended_equivalent_iff (wellFormed_empty 2) rfl
  cases hks₀
  refine ⟨c, ks, hexpand, hrun, hks, fun hequivalent => ?_⟩
  exact Bool.false_ne_true (hiff.mp ⟨_, hexpand, hequivalent⟩)

end PlacedGate

end GadgetCircuits
