import GadgetCircuits.Proofs.QasmWiring
import GadgetCircuits.Proofs.Simplify
import GadgetCircuits.Proofs.StandardGates

/-!
The unitaries of programs of named gates. A gate acts on the qubits that its targets address, position by
position if they are registers, and the circuit of a program makes up what the gadgets of its gates do,
one gate after another.
-/

namespace GadgetCircuits

open List AngleExpr Angle PhaseCircuit StandardGate Value Complex

lemma PhaseCircuit.stored_unitary {n : Nat} {gs : List Gadget}
    (h : ∀ g ∈ gs, LegsOn n g.legs ∧ g.angle.isAngle) :
    UpToPhase (inOrder (((gs.map (cellOf n)).map Cell.gadget).map (Gadget.unitary n radians)))
      (inOrder (gs.map (Gadget.unitary n radians))) := by
  have hstored := Simplifier.inOrder_filterMap (f := some ∘ Cell.gadget ∘ cellOf n)
    (u := Gadget.unitary n radians) (v := Gadget.unitary n radians)
    fun g hg => cellOf_unitary (h g hg).1 (h g hg).2
  simpa only [filterMap_eq_map, map_map, Function.comp_assoc] using hstored

namespace Qasm

def qubitOf (n : Nat) (v : Value) : Option (Fin n) :=
  match v.int? with
  | some (.ofNat k) => if h : k < n then some ⟨k, h⟩ else none
  | _ => none

lemma names_of_qubitOf {n : Nat} {v : Value} {q : Fin n} (h : qubitOf n v = some q) : Names v q := by
  rw [qubitOf] at h
  split at h
  · rename_i k hk
    split at h
    · cases h
      exact hk
    · cases h
  · cases h

namespace Program

/-- The qubit that a target addresses when its gate acts for the `i`th time. -/
def qubitAt (p : Program) (image : Nat → Value) (i : Nat) (t : Target) : Option (Fin p.numQubits) := do
  let first ← p.firstQubit? t.register.name
  let pos := (t.pos.map Count.val).getD i
  if pos < t.register.size.val then qubitOf p.numQubits (image (first + pos)) else none

/-- The qubits of a gate, for every time it acts. It acts once on single qubits, and on registers
position by position. -/
def applications (p : Program) (image : Nat → Value) (ts : List Target) :
    Option (List (List (Fin p.numQubits))) :=
  (List.range ((ts.head?.map Target.size).getD 0)).mapM fun i => ts.mapM (p.qubitAt image i)

variable {p : Program} {image : Nat → Value} {ss : List Statement} {s : Statement} {t : Target}
  {ts : List Target}

lemma qubit_of_qubitAt (hp : ofStatements ss = .ok p) (hs : s ∈ ss) (hacts : s.acts)
    (ht : t.register ∈ s.registers) {i : Nat} {q : Fin p.numQubits}
    (h : p.qubitAt image i t = some q) :
    (t.pos.map Count.val).getD i < t.register.size.val ∧
      ∃ v, (p.wiring image).qubit t.register.name ((t.pos.map Count.val).getD i) = .ok v ∧
        Names v q := by
  obtain ⟨first, hfirst, h⟩ := Option.bind_eq_some_iff.mp h
  dsimp only at h
  split at h
  · rename_i hlt
    rcases register_used hp hs hacts ht with ⟨first', hfirst', hregister⟩ | ⟨-, hnone, -⟩
    · obtain rfl := Option.some.inj (hfirst.symm.trans hfirst')
      refine ⟨hlt, _, ?_, names_of_qubitOf h⟩
      rw [Wiring.qubit_of_register (hregister image), if_pos hlt]
    · cases hfirst.symm.trans hnone
  · cases h

end Program

namespace Wiring

variable {w : Wiring} {t : Target} {ts : List Target}

lemma operands_cases {vss : List (List Value)} (h : w.operands ts = .ok vss) :
    (∀ t ∈ ts, (operand? t).isSome) ∨ ∀ t ∈ ts, operand? t = none := by
  by_contra hnot
  rw [not_or] at hnot
  have hsome : ¬ (ts.map operand?).all Option.isSome := by simpa using hnot.1
  have hnone : ¬ (ts.map operand?).all Option.isNone := by simpa using hnot.2
  rw [operands] at h
  simp only [hsome, hnone, Bool.false_eq_true, if_false] at h
  cases h

lemma operand?_getD (hlt : (t.pos.map Count.val).getD 0 < t.register.size.val) :
    (operand? t).getD 0 = (t.pos.map Count.val).getD 0 := by
  rw [operand?]
  split
  · rename_i hone
    simp only [Option.getD_some]
    omega
  · rfl

end Wiring

section Applications

variable {p : Program} {image : Nat → Value} {ss : List Statement} {name : String} {ts : List Target}
  {params : List Angle}
variable {qss : List (List (Fin p.numQubits))}

lemma names_operands (hp : Program.ofStatements ss = .ok p) (hs : .gate name ts params ∈ ss) {i : Nat}
    {position : Target → Nat} {vs : List Value} {qs : List (Fin p.numQubits)}
    (hvs : (ts.mapM fun t => (p.wiring image).qubit t.register.name (position t)) = .ok vs)
    (hqs : ts.mapM (p.qubitAt image i) = some qs)
    (hposition : ∀ t ∈ ts, (t.pos.map Count.val).getD i < t.register.size.val →
      position t = (t.pos.map Count.val).getD i) : Forall₂ Names vs qs := by
  refine forall₂_join (mapM_eq_ok.mp hvs) (mapM_eq_some.mp hqs) fun t ht v q hv hq => ?_
  obtain ⟨hlt, v', hv', hnames⟩ := Program.qubit_of_qubitAt hp hs rfl (mem_map_of_mem ht) hq
  rw [hposition t ht hlt, hv'] at hv
  cases hv
  exact hnames

lemma names_applications (hp : Program.ofStatements ss = .ok p) (hs : .gate name ts params ∈ ss)
    (hts : ts ≠ []) {vss : List (List Value)} (hvss : (p.wiring image).operands ts = .ok vss)
    (hqss : p.applications image ts = some qss) :
    Forall₂ (Forall₂ Names) vss qss := by
  obtain ⟨t, ts, rfl⟩ := exists_cons_of_ne_nil hts
  rw [Program.applications, head?_cons, Option.map_some, Option.getD_some] at hqss
  rcases Wiring.operands_cases hvss with hsome | hnone
  · -- Single qubits are found once, at their positions.
    rw [Wiring.operand?_isSome.mp (hsome t mem_cons_self), range_one] at hqss
    rw [Wiring.operands_of_isSome hsome] at hvss
    obtain ⟨vs, hvs, rfl⟩ := map_eq_ok.mp hvss
    obtain ⟨qs, rest, hqs, hrest, rfl⟩ := forall₂_cons_left_iff.mp (mapM_eq_some.mp hqss)
    obtain rfl := forall₂_nil_left_iff.mp hrest
    exact .cons (names_operands hp hs hvs hqs fun _ _ => Wiring.operand?_getD) .nil
  · -- Registers are gone through as often as their size says.
    have hwhole : ∀ e ∈ t :: ts, e.pos = none ∧ e.register.size.val = e.size := by
      intro e he
      refine Wiring.pos_eq_none fun hone => ?_
      have hisSome := Wiring.operand?_isSome.mpr hone
      rw [hnone e he] at hisSome
      cases hisSome
    rw [← (hwhole t mem_cons_self).2] at hqss
    rw [Wiring.operands_of_isNone hnone] at hvss
    refine forall₂_join (mapM_eq_ok.mp hvss) (mapM_eq_some.mp hqss) fun i _ vs qs hvs hqs => ?_
    refine names_operands hp hs hvs hqs fun t ht _ => ?_
    rw [(hwhole t ht).1]
    rfl

lemma length_applications (hqss : p.applications image ts = some qss) :
    ∀ qs ∈ qss, qs.length = ts.length := by
  intro qs hqs
  obtain ⟨i, -, hi⟩ := of_mem_forall₂ (mapM_eq_some.mp hqss) qs hqs
  exact (mapM_eq_some.mp hi).length_eq.symm

end Applications

/-- The unitaries of a statement one after another, where `reading` says what a named gate is. -/
noncomputable def Statement.unitaries? {n : Nat}
    (reading : String → List ℝ → List (Fin n) → Option (Operator n))
    (applications : List Target → Option (List (List (Fin n)))) :
    Statement → Option (List (Operator n))
  | .gate name ts params => do
    let qss ← applications ts
    qss.mapM (reading name (params.map Angle.radians))
  | _ => some []

noncomputable def Program.unitaries? (p : Program) (image : Nat → Value)
    (reading : String → List ℝ → List (Fin p.numQubits) → Option (Operator p.numQubits)) :
    Option (List (Operator p.numQubits)) :=
  (p.statements.mapM (Statement.unitaries? reading (p.applications image))).map List.flatten

/-- The qubits that a statement addresses exist, and no gate acts on one qubit twice. -/
def Statement.WellAddressed (p : Program) (image : Nat → Value) : Statement → Prop
  | .gate _ ts _ => ∃ qss ∈ p.applications image ts, ∀ qs ∈ qss, qs.Nodup
  | _ => True

instance (p : Program) (image : Nat → Value) : DecidablePred (Statement.WellAddressed p image)
  | .gate _ ts _ =>
    inferInstanceAs (Decidable (∃ qss ∈ p.applications image ts, ∀ qs ∈ qss, qs.Nodup))
  | .version | .declare _ | .load _ | .comment _ | .u .. | .cx .. | .measure .. | .reset _ | .barrier _
  | .guarded .. => isTrue trivial

/-- A gate is known and no controlled phase. -/
def Statement.faithful : Statement → Bool
  | .gate name _ _ => isKnown name && name != "cu1"
  | _ => true

section Performed

variable {p : Program} {image : Nat → Value} {ss : List Statement} {s : Statement} {name : String}
  {ts : List Target} {params : List Angle} {gs : List Gadget}

lemma applications_performed (hp : Program.ofStatements ss = .ok p) (hs : .gate name ts params ∈ ss)
    {qss : List (List (Fin p.numQubits))} (hqss : p.applications image ts = some qss)
    (hnodup : ∀ qs ∈ qss, qs.Nodup) (hgs : gateGadgets (p.wiring image) name ts params = .ok gs) :
    ∃ us, Forall₂ (fun qs u => performed? name (params.map Angle.radians) qs = some u) qss us ∧
      Performed gs (inOrder us) := by
  obtain ⟨vss, hvss, ⟨hunknown, rfl⟩ | ⟨k, hknown, hlen, hparams, gss, hgss, rfl⟩⟩ :=
    gateGadgets_eq_ok.mp hgs
  · -- An unknown gate has no gadgets, however often it acts.
    refine ⟨qss.map fun _ => 1, ?_, ?_⟩
    · refine forall₂_map_right_iff.mpr (forall₂_same.mpr fun qs _ => if_neg ?_)
      simp [isKnown, hunknown]
    · have hone : inOrder (qss.map fun _ => (1 : Operator p.numQubits)) = 1 := by simp [inOrder]
      rw [hone]
      exact .nil
  · have hts : ts ≠ [] := by
      rintro rfl
      have harity : ∀ k ∈ knownGates, 0 ≠ k.2.1 := by decide
      exact harity k (mem_of_find?_eq_some hknown) hlen
    have hnames := names_applications hp hs hts hvss hqss
    have happlied : Forall₂ (fun vs qs => qs ∈ qss ∧ Forall₂ Names vs qs) vss qss :=
      (forall₂_imp_mem hnames.flip fun qs hqs vs hvs => ⟨hqs, hvs⟩).flip
    have hacts : Forall₂ (fun qs gs => ∃ u, performed? name (params.map Angle.radians) qs =
        some u ∧ Performed gs u) qss gss := by
      refine forall₂_join happlied (mapM_eq_ok.mp hgss) ?_
      rintro vs - qs gs ⟨hqs, hvs⟩ hgs
      obtain ⟨gs', u, hgs', hu, hperformed⟩ := known_performed hknown
        ((length_applications hqss qs hqs).trans hlen) hparams (hnodup qs hqs) hvs
      obtain rfl := Except.ok.inj (hgs.symm.trans hgs')
      exact ⟨u, hu, hperformed⟩
    obtain ⟨us, hus, hperformed⟩ := forall₂_exists hacts
    exact ⟨us, hus, .flatten hperformed⟩

lemma statement_performed (hp : Program.ofStatements ss = .ok p) (hs : s ∈ ss)
    (hbuiltIn : s.builtIn = false) (haddressed : s.WellAddressed p image)
    (hgs : statementGadgets (p.wiring image) s = .ok gs) :
    ∃ us, s.unitaries? performed? (p.applications image) = some us ∧ Performed gs (inOrder us) := by
  cases s with
  | gate name ts params =>
    obtain ⟨qss, hqss, hnodup⟩ := haddressed
    obtain ⟨us, hus, hperformed⟩ := applications_performed hp hs hqss hnodup hgs
    refine ⟨us, ?_, hperformed⟩
    rw [Statement.unitaries?, hqss]
    exact mapM_eq_some.mpr hus
  | u | cx => cases hbuiltIn
  | version | comment | load | declare =>
    cases hgs
    exact ⟨[], rfl, .nil⟩
  | measure | reset | barrier | guarded => cases hgs

lemma inOrder_flatten {n : Nat} (uss : List (List (Operator n))) :
    inOrder uss.flatten = inOrder (uss.map inOrder) := by
  induction uss with
  | nil => rfl
  | cons us uss ih => rw [flatten_cons, inOrder_append, ih, map_cons, inOrder_cons]

theorem program_performed {mapping : Value} {allow : Bool} {c : PhaseCircuit}
    (hp : Program.ofStatements ss = .ok p) (hbuiltIn : ∀ s ∈ ss, s.builtIn = false)
    (hc : ofProgram p mapping allow = .ok c)
    (himage : images p.numQubits mapping = .ok image) (haddressed : ∀ s ∈ ss, s.WellAddressed p image) :
    ∃ gs us, c.gadgets = .ok gs ∧ c.size = p.numQubits ∧ p.unitaries? image performed? = some us ∧
      UpToPhase (inOrder (gs.map (Gadget.unitary p.numQubits radians))) (inOrder us) := by
  obtain ⟨image', gss, himage', hgss, -, hwf, hsize, hcells⟩ := ofProgram_cells hc
  obtain rfl := Except.ok.inj (himage.symm.trans himage')
  have hstatements : p.statements = ss := by
    obtain ⟨d, -, rfl⟩ := Program.ofStatements_eq_ok.mp hp
    rfl
  rw [hstatements] at hgss
  obtain ⟨uss, huss, hperformed⟩ := forall₂_exists (forall₂_imp_mem (mapM_eq_ok.mp hgss)
    fun s hs gs => statement_performed hp hs (hbuiltIn s hs) (haddressed s hs))
  have hall := Performed.flatten (forall₂_map_right_iff.mpr hperformed)
  rw [← inOrder_flatten] at hall
  refine ⟨_, uss.flatten, gadgets_eq hwf, hsize, ?_, ?_⟩
  · rw [Program.unitaries?, hstatements, mapM_eq_some.mpr huss]
    rfl
  · rw [hcells]
    exact (stored_unitary hall.proper).trans hall.unitary

lemma unitaries?_standard {us : List (Operator p.numQubits)} (hp : Program.ofStatements ss = .ok p)
    (hfaithful : ∀ s ∈ ss, s.faithful) (hus : p.unitaries? image performed? = some us) :
    p.unitaries? image unitary? = some us := by
  obtain ⟨d, -, rfl⟩ := Program.ofStatements_eq_ok.mp hp
  have hsame : ∀ s ∈ ss, s.unitaries? performed? (Program.applications ⟨ss, d.registers⟩ image) =
      s.unitaries? unitary? (Program.applications ⟨ss, d.registers⟩ image) := by
    intro s hs
    cases s with
    | gate name ts params =>
      obtain ⟨hknown, hne⟩ : isKnown name ∧ name ≠ "cu1" := by
        simpa [Statement.faithful] using hfaithful _ hs
      have hreading : performed? name (params.map Angle.radians) =
          StandardGate.unitary? (n := Program.numQubits ⟨ss, d.registers⟩) name
            (params.map Angle.radians) := by
        funext qs
        rw [performed?, if_pos hknown, if_neg hne]
      rw [Statement.unitaries?, Statement.unitaries?, hreading]
    | _ => rfl
  obtain ⟨uss, huss, rfl⟩ := Option.map_eq_some_iff.mp hus
  refine Option.map_eq_some_iff.mpr ⟨uss, mapM_eq_some.mpr ?_, rfl⟩
  refine forall₂_imp_mem (mapM_eq_some.mp huss) fun s hs us h => ?_
  rw [← hsame s hs, h]

/-- The circuit of a program of named gates that address different qubits makes up what the gadgets of
its gates do; this is what the standard says unless a gate is unknown or a controlled phase. -/
theorem named_gates_unitary {mapping : Value} {allow : Bool} {c : PhaseCircuit}
    (hp : Program.ofStatements ss = .ok p) (hbuiltIn : ∀ s ∈ ss, s.builtIn = false)
    (hc : PhaseCircuit.ofProgram p mapping allow = .ok c)
    (himage : images p.numQubits mapping = .ok image) (haddressed : ∀ s ∈ ss, s.WellAddressed p image) :
    ∃ gs us, c.gadgets = .ok gs ∧ c.size = p.numQubits ∧ p.unitaries? image performed? = some us ∧
      UpToPhase (inOrder (gs.map (Gadget.unitary p.numQubits AngleExpr.radians))) (inOrder us) ∧
      ((∀ s ∈ ss, s.faithful = true) →
        p.unitaries? image StandardGate.unitary? = some us) := by
  obtain ⟨gs, us, hgs, hsize, hus, hunitary⟩ := program_performed hp hbuiltIn hc himage haddressed
  exact ⟨gs, us, hgs, hsize, hus, hunitary, fun hfaithful => unitaries?_standard hp hfaithful hus⟩

end Performed

def entangling : Program :=
  ⟨[.version, .declare (qreg "a" 2), .declare (qreg "b" 2), .gate "h" [(qreg "a" 2).whole] [],
    .gate "cx" [(qreg "a" 2).whole, (qreg "b" 2).whole] [],
    .gate "u3" [(qreg "b" 2).at 1] [⟨1 / 2⟩, ⟨1 / 4⟩, ⟨0⟩],
    .gate "crx" [(qreg "b" 2).at 0, (qreg "a" 2).at 1] [⟨1 / 3⟩]], [qreg "a" 2, qreg "b" 2]⟩

theorem entangling_unitary :
    Program.ofStatements entangling.statements = .ok entangling ∧
    (∀ s ∈ entangling.statements, s.builtIn = false ∧ s.WellAddressed entangling Value.ofNat) ∧
    ∃ c gs us, PhaseCircuit.ofProgram entangling .null false = .ok c ∧ c.gadgets = .ok gs ∧
      c.size = entangling.numQubits ∧
      entangling.unitaries? Value.ofNat StandardGate.unitary? = some us ∧
      UpToPhase (inOrder (gs.map (Gadget.unitary entangling.numQubits AngleExpr.radians)))
        (inOrder us) := by
  have hbuiltIn : ∀ s ∈ entangling.statements, s.builtIn = false := by decide
  have haddressed : ∀ s ∈ entangling.statements, s.WellAddressed entangling ofNat := by decide
  have haccepted : (ofProgram entangling .null false).toOption.isSome = true := by cbv
  obtain ⟨c, hc⟩ := exists_ok haccepted
  obtain ⟨gs, us, hgs, hsize, -, hunitary, hstandard⟩ :=
    named_gates_unitary rfl hbuiltIn hc rfl haddressed
  exact ⟨rfl, fun s hs => ⟨hbuiltIn s hs, haddressed s hs⟩, c, gs, us, hc, hgs, hsize,
    hstandard (by decide), hunitary⟩

/-- A program whose circuit does not make up what the standard says. -/
def Deviates (p : Program) : Prop :=
  Program.ofStatements p.statements = .ok p ∧ ∃ c gs us,
    ofProgram p .null false = .ok c ∧ c.gadgets = .ok gs ∧
    p.unitaries? ofNat unitary? = some us ∧
    ¬ UpToPhase (inOrder (gs.map (Gadget.unitary p.numQubits radians))) (inOrder us)

lemma deviates_of_performed {p : Program} {us us' : List (Operator p.numQubits)}
    (hp : Program.ofStatements p.statements = .ok p)
    (hbuiltIn : ∀ s ∈ p.statements, s.builtIn = false)
    (haddressed : ∀ s ∈ p.statements, s.WellAddressed p ofNat)
    (haccepted : (ofProgram p .null false).toOption.isSome)
    (hus : p.unitaries? ofNat unitary? = some us)
    (hus' : p.unitaries? ofNat performed? = some us')
    (hne : ¬ UpToPhase (inOrder us') (inOrder us)) : Deviates p := by
  obtain ⟨c, hc⟩ := exists_ok haccepted
  obtain ⟨gs, us'', hgs, -, hus'', hunitary⟩ := program_performed hp hbuiltIn hc rfl haddressed
  obtain rfl := Option.some.inj (hus'.symm.trans hus'')
  exact ⟨hp, c, gs, us, hc, hgs, hus, fun h => hne (hunitary.symm.trans h)⟩

def quarterPhase : Program :=
  ⟨[.version, .declare (qreg "q" 2),
    .gate "cu1" [(qreg "q" 2).at 0, (qreg "q" 2).at 1] [⟨1 / 2⟩]], [qreg "q" 2]⟩

def inverseT : Program :=
  ⟨[.version, .declare (qreg "q" 1), .gate "tdg" [(qreg "q" 1).at 0] []], [qreg "q" 1]⟩

/-- A controlled phase turns twice as far, and an unknown gate does nothing. -/
theorem named_gates_deviate : Deviates quarterPhase ∧ Deviates inverseT := by
  constructor
  · have hus : quarterPhase.unitaries? ofNat unitary? =
        some [controlled ⟨0, by decide⟩ (onQubit ⟨1, by decide⟩
          (.phase (Angle.radians ⟨1 / 2⟩)))] := rfl
    have hus' : quarterPhase.unitaries? ofNat performed? =
        some [controlled ⟨0, by decide⟩ (onQubit ⟨1, by decide⟩
          (.phase (radians ⟨1 / 2⟩ + radians ⟨1 / 2⟩)))] := rfl
    refine deviates_of_performed rfl (by decide) (by decide) (by cbv) hus hus' fun h => ?_
    simp only [inOrder_cons, inOrder_nil, one_mul] at h
    have hexp := exp_eq_of_controlled h
    have hhalf : Angle.radians ⟨1 / 2⟩ = Real.pi / 2 := by
      rw [Angle.radians]
      push_cast
      ring
    rw [hhalf, add_halves, exp_pi_mul_I] at hexp
    have hre := congrArg re hexp
    rw [exp_ofReal_mul_I_re, Real.cos_pi_div_two] at hre
    norm_num at hre
  · have hus : inverseT.unitaries? ofNat StandardGate.unitary? =
        some [onQubit ⟨0, by decide⟩ (.phase (-GateMatrix.half (GateMatrix.half Real.pi)))] := rfl
    have hus' : inverseT.unitaries? ofNat performed? = some [1] := rfl
    refine deviates_of_performed rfl (by decide) (by decide) (by cbv) hus hus' fun h => ?_
    simp only [inOrder_cons, inOrder_nil, one_mul] at h
    have him := congrArg im (exp_eq_one_of_onQubit h)
    rw [exp_ofReal_mul_I_im, Real.sin_neg, GateMatrix.half_eq Real.pi,
      GateMatrix.sin_half_quarter, one_im] at him
    simp at him

end Qasm

end GadgetCircuits
