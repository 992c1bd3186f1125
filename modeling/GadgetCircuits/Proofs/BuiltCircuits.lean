import GadgetCircuits.Proofs.QasmWiring
import GadgetCircuits.Proofs.StandardGates

/-!
Circuits that are built gate by gate against circuits that are read from programs. A gate appends to a
circuit the gadgets that its name stands for in a program; only the controlled Y gate starts with a turn of
the other qubit.
-/

namespace GadgetCircuits

open List Qasm PhaseCircuit Qasm.Wiring PhaseGate GateStep

variable {n : Nat}

/-- A known gate on different qubits, with numbers for its angles. -/
structure NamedGate (n : Nat) where
  name : String
  qubits : List (Fin n)
  params : List Angle
  known : (name, qubits.length, params.length) ∈ knownGates
  distinct : qubits.Nodup

namespace NamedGate

def qubitValue (q : Fin n) : Value := .ofNat (q : Nat)

def arguments (g : NamedGate n) : List AngleOperand :=
  g.qubits.map (.plain ∘ qubitValue) ++ angleOperands g.params

def statement (r : Qasm.Register) (g : NamedGate n) : Qasm.Statement :=
  .gate g.name (g.qubits.map fun q : Fin n => r.at q) g.params

def appendAll (gs : List (NamedGate n)) : Update PhaseCircuit Unit :=
  gs.forM fun g => PhaseCircuit.gate g.name g.arguments

def program (r : Qasm.Register) (gs : List (NamedGate n)) : List Qasm.Statement :=
  .version :: .declare r :: gs.map (statement r)

lemma find_known {k : String × Nat × Nat} (h : k ∈ knownGates) :
    knownGates.find? (fun g => g.1 == k.1) = some k := by
  have hall : ∀ k ∈ knownGates, knownGates.find? (fun g => g.1 == k.1) = some k := by decide
  exact hall k h

lemma names_qubits (qs : List (Fin n)) : Forall₂ Qasm.Names (qs.map qubitValue) qs := by
  rw [forall₂_map_left_iff, forall₂_same]
  exact fun q _ => rfl

end NamedGate

lemma PhaseGate.circuitSteps_eq {name : String} {args : List AngleOperand}
    (h : name ∉ ["cy", "ccz", "ccy", "ccx"]) :
    circuitSteps name args = (steps? name args).getD (.error .noAttribute) := by
  unfold circuitSteps
  split <;> simp_all

def storedSame (n : Nat) (p : Gadget × Gadget) : Bool :=
  (appendedCell n p.1).gadget.equal (cellOf n p.2).gadget

lemma storedSame_self {g : Gadget} (hg : g.angle.isAngle) : storedSame n (g, g) := by
  have hlegs : (appendedCell n g).gadget.legs = (cellOf n g).gadget.legs :=
    rfl
  have hangle : g.angle.equal (reduceAngle g.angle) := by
    cases h : g.angle with
    | angle a => simp [AngleExpr.equal, reduceAngle, Angle.same]
    | _ => simp [h, AngleExpr.isAngle] at hg
  rw [storedSame, Gadget.equal, hlegs, beq_self_eq_true, Bool.and_true, Bool.and_eq_true]
  exact ⟨beq_self_eq_true _, hangle⟩

lemma storedSame_zip_self {gs : List Gadget} (hgs : ∀ g ∈ gs, g.angle.isAngle) :
    (gs.zip gs).all (storedSame n) := by
  rw [all_eq_true]
  rintro ⟨g, g'⟩ hg
  obtain ⟨i, hi⟩ := mem_iff_getElem?.mp hg
  obtain ⟨hleft, hright⟩ := getElem?_zip_eq_some.mp hi
  have hsame : g = g' := Option.some.inj (hleft.symm.trans hright)
  rw [← hsame]
  exact storedSame_self (hgs g (mem_of_getElem? hleft))

lemma mem_stored_legs {g : Gadget} {i : Fin n} :
    ((i : Nat) : Int) ∈ (cellOf n g).gadget.legs ↔ ((i : Nat) : Int) ∈ g.legs := by
  rw [← Int.ofNat_eq_natCast, Cell.gadget, mem_map_of_injective fun _ _ h => Int.ofNat.inj h,
    GadgetTable.mem_legsOf]
  simp [cellOf]

lemma storedSame_of_ne {g h : Gadget} {c t : Fin n} (hg : g.legs = [((c : Nat) : Int)])
    (hh : h.legs = [((t : Nat) : Int)]) (hne : c ≠ t) : storedSame n (g, h) = false := by
  rw [← Bool.not_eq_true]
  intro hsame
  rw [storedSame, Gadget.equal, Bool.and_eq_true, beq_iff_eq] at hsame
  have hlegs : (cellOf n g).gadget.legs = (cellOf n h).gadget.legs := hsame.2
  have hc : ((c : Nat) : Int) ∈ (cellOf n g).gadget.legs :=
    mem_stored_legs.mpr (by simp [hg])
  rw [hlegs, mem_stored_legs, hh, mem_singleton] at hc
  exact hne (Fin.ext (Int.ofNat_inj.mp hc))

namespace NamedGate

structure Gadgets (g : NamedGate n) (built read : List Gadget) : Prop where
  steps : ∃ steps, circuitSteps g.name g.arguments = .ok steps ∧
    steps.mapM gadget = .ok built
  gadgets : gadgets g.name g.arguments = .ok read
  fits : ∀ h ∈ built ++ read, Gadget.Fits n h
  length : built.length = read.length
  same : (built.zip read).all (storedSame n) = (g.name != "cy")

lemma frame_gadget {q : Value} {i : Fin n} (hq : Qasm.Names q i) :
    ∃ h, (v q).mapM gadget = .ok [h] ∧ h.legs = [((i : Nat) : Int)] ∧
      h.Fits n := by
  obtain ⟨gs, hgs, hproper, -⟩ := (Performs.quarter_x hq).1
  obtain ⟨h, hs, hh, hrest, rfl⟩ := forall₂_cons_left_iff.mp (mapM_eq_ok.mp hgs)
  obtain rfl := forall₂_nil_left_iff.mp hrest
  exact ⟨h, hgs, legs_of_turn hq hh, (hproper h mem_cons_self).1.fits⟩

/-- The controlled Y gate starts with a turn of the control in a circuit, and of the target in a
program. -/
theorem cy_gadgets {g : NamedGate n} (hname : g.name = "cy") : ∃ built read, g.Gadgets built read := by
  obtain ⟨name, qubits, params, hknown, hdistinct⟩ := g
  subst hname
  have harity : ∀ k ∈ knownGates, k.1 = "cy" → k.2 = (2, 0) := by decide
  obtain ⟨hqubits, hparams⟩ := Prod.mk.inj (harity _ hknown rfl)
  obtain ⟨c, t, rfl⟩ := length_eq_two.mp hqubits
  obtain rfl := length_eq_zero_iff.mp hparams
  have hne : c ≠ t := by simpa using hdistinct
  have hc : Qasm.Names (qubitValue c) c := rfl
  have ht : Qasm.Names (qubitValue t) t := rfl
  obtain ⟨first, hfirst, hfirstLegs, hfirstFits⟩ := frame_gadget hc
  obtain ⟨first', hfirst', hfirstLegs', hfirstFits'⟩ := frame_gadget ht
  obtain ⟨rest, hrest, hproper, -⟩ := (Performs.cz hc ht hne).append (Performs.quarter_x ht).2
  -- behind its first turn the gate is the same in both
  have hframe : ∀ {q : Value} {h : Gadget}, (v q).mapM gadget = .ok [h] →
      (cyFrom q (qubitValue c) (qubitValue t)).mapM gadget = .ok (h :: rest) := by
    intro q h hh
    rw [cyFrom, append_assoc, mapM_append, hh, ok_bind, hrest]
    rfl
  have hfits : ∀ h ∈ rest, h.Fits n := fun h hh => (hproper h hh).1.fits
  refine ⟨first :: rest, first' :: rest, ⟨_, rfl, hframe hfirst⟩, hframe hfirst', ?_, rfl, ?_⟩
  · grind
  · rw [zip_cons_cons, all_cons, storedSame_of_ne hfirstLegs hfirstLegs' hne, Bool.false_and]
    rfl

lemma exists_gadgets (g : NamedGate n) : ∃ built read, g.Gadgets built read := by
  by_cases hname : g.name = "cy"
  · exact cy_gadgets hname
  · obtain ⟨gs, u, hgs, -, hproper, -⟩ := known_performed (find_known g.known) rfl rfl g.distinct
      (names_qubits g.qubits)
    rw [map_map] at hgs
    -- programs have none of the other gates whose steps depend on where they are
    have hother : ∀ k ∈ knownGates, k.1 ∉ ["ccz", "ccy", "ccx"] := by decide
    have hsteps : ∃ steps, circuitSteps g.name g.arguments = .ok steps ∧
        steps.mapM gadget = .ok gs := by
      rw [PhaseGate.circuitSteps_eq fun hm =>
        (mem_cons.mp hm).elim hname (hother _ g.known)]
      rw [PhaseGate.gadgets] at hgs
      split at hgs
      · cases hgs
      · rename_i steps hsome
        obtain ⟨steps', hok, hgs⟩ := bind_eq_ok.mp hgs
        exact ⟨steps', (congrArg (Option.getD · _) hsome).trans hok, hgs⟩
    refine ⟨gs, gs, hsteps, hgs, ?_, rfl, ?_⟩
    · intro h hh
      rcases mem_append.mp hh with hh | hh
      · exact (hproper h hh).1.fits
      · exact (hproper h hh).1.fits
    · rw [storedSame_zip_self fun h hh => (hproper h hh).2]
      simpa using hname

section Sequences

variable {built read : NamedGate n → List Gadget} (h : ∀ g : NamedGate n, g.Gadgets (built g) (read g))
variable (gs : List (NamedGate n))

include h

lemma length_flatMap : (gs.flatMap built).length = (gs.flatMap read).length := by
  rw [List.length_flatMap, List.length_flatMap, map_congr_left fun g _ => (h g).length]

lemma all_storedSame :
    ((gs.flatMap built).zip (gs.flatMap read)).all (storedSame n) =
      gs.all fun g => g.name != "cy" := by
  induction gs with
  | nil => rfl
  | cons g gs ih =>
    rw [flatMap_cons, flatMap_cons, zip_append (h g).length, all_append, (h g).same, ih, all_cons]

end Sequences

variable (r : String) (ss : List Qasm.Statement)

lemma program_reads (gs : List (NamedGate n)) :
    Qasm.Program.ofStatements (program (qreg r n) gs) =
      .ok ⟨program (qreg r n) gs, [qreg r n]⟩ := by
  refine Qasm.Program.ofStatements_eq_ok.mpr ⟨⟨true, [qreg r n]⟩, ?_, rfl⟩
  -- After the declaration, no gate changes what has been declared.
  have hgates : (gs.map (statement (qreg r n))).foldlM Qasm.Program.Declared.add
      ⟨true, [qreg r n]⟩ = .ok ⟨true, [qreg r n]⟩ := by
    induction gs with
    | nil => rfl
    | cons g gs ih =>
      have hadd : Qasm.Program.Declared.add ⟨true, [qreg r n]⟩ (g.statement (qreg r n)) =
          .ok ⟨true, [qreg r n]⟩ := by
        refine (Qasm.Program.Declared.add_acts rfl).mpr ⟨rfl, rfl, fun r' hr' => ?_⟩
        obtain ⟨t, ht, rfl⟩ := mem_map.mp hr'
        obtain ⟨q, -, rfl⟩ := mem_map.mp ht
        exact ⟨qreg r n, by simp [Qasm.Program.Declared.register?, Qasm.Register.at],
          by simp [Qasm.Register.same, Qasm.Register.at, qreg]⟩
      rw [map_cons, foldlM_cons, hadd, ok_bind, ih]
  exact hgates

lemma program_numQubits : (Qasm.Program.mk ss [qreg r n]).numQubits = n :=
  Nat.add_zero n

lemma program_qubit (q : Fin n) :
    ((Qasm.Program.mk ss [qreg r n]).wiring .ofNat).qubit r
      ((operand? ((qreg r n).at q)).getD 0) = .ok (qubitValue q) := by
  have hregister : ((Qasm.Program.mk ss [qreg r n]).wiring .ofNat).register r =
      .ok ((range n).map Value.ofNat) := by
    simp [Qasm.Program.wiring, wiringFrom, register, qreg]
  have hposition : (operand? ((qreg r n).at q)).getD 0 = (q : Nat) := by
    have hq := q.isLt
    rw [operand?]
    split
    · next hone =>
      have hn : n = 1 := hone
      show 0 = (q : Nat)
      omega
    · rfl
  rw [hposition, qubit_of_register hregister, if_pos q.isLt, qubitValue]

lemma program_gadgets {g : NamedGate n} {gs : List Gadget}
    (hgs : gadgets g.name g.arguments = .ok gs) :
    statementGadgets ((Qasm.Program.mk ss [qreg r n]).wiring .ofNat)
      (g.statement (qreg r n)) = .ok gs := by
  refine gateGadgets_eq_ok.mpr ⟨[g.qubits.map qubitValue], ?_, .inr
    ⟨_, find_known g.known, length_map _, rfl, [gs], ?_, by simp⟩⟩
  · have hqubits : ((g.qubits.map fun q : Fin n => (qreg r n).at q).mapM fun t =>
        ((Qasm.Program.mk ss [qreg r n]).wiring .ofNat).qubit t.register.name
          ((operand? t).getD 0)) = .ok (g.qubits.map qubitValue) := by
      rw [mapM_map]
      exact mapM_ok fun q _ => program_qubit r ss q
    rw [operands_of_isSome, hqubits]
    · rfl
    · intro t ht
      obtain ⟨q, -, rfl⟩ := mem_map.mp ht
      exact operand?_isSome.mpr rfl
  · rw [arguments, ← map_map] at hgs
    rw [mapM_cons, hgs]
    rfl

lemma program_statements {read : NamedGate n → List Gadget}
    (hread : ∀ g : NamedGate n, gadgets g.name g.arguments = .ok (read g))
    (gs : List (NamedGate n)) :
    (program (qreg r n) gs).mapM (statementGadgets
      ((Qasm.Program.mk ss [qreg r n]).wiring .ofNat)) = .ok ([] :: [] :: gs.map read) := by
  have hgates : (gs.map (statement (qreg r n))).mapM (statementGadgets
      ((Qasm.Program.mk ss [qreg r n]).wiring .ofNat)) = .ok (gs.map read) := by
    rw [mapM_map]
    exact mapM_ok fun g _ => program_gadgets r ss (hread g)
  rw [program, mapM_cons, mapM_cons, hgates]
  rfl

/-- Appending gates to an empty circuit and reading the program of these gates give equal circuits, unless
there is a controlled Y gate among them. -/
theorem built_same_read (hn : 0 < n) (r : String) (gs : List (NamedGate n)) (allow : Bool) :
    ∃ c₀ c p d, PhaseCircuit.make (.ofNat n) (some []) = .ok c₀ ∧
      (appendAll gs).runFrom c₀ = (.ok (), c) ∧
      Qasm.Program.ofStatements (program (Qasm.qreg r n) gs) = .ok p ∧
      PhaseCircuit.ofProgram p .null allow = .ok d ∧
      c.same d = .ok (gs.all fun g => g.name != "cy") := by
  choose built read h using exists_gadgets (n := n)
  have hempty : ∀ k ∈ ([] : List Gadget), k.Fits n := nofun
  obtain ⟨c₀, hmake, hwf₀, hsize₀, hcells₀⟩ := ofGadgets_ok hempty
  obtain ⟨c, hrun, hext⟩ := gates_extend (fun g => (h g).steps)
    (fun g k hk => (h g).fits k (mem_append_left _ hk)) gs hwf₀ hsize₀
  have hfits : ∀ k ∈ gs.flatMap read, k.Fits n := by
    intro k hk
    obtain ⟨g, -, hk⟩ := mem_flatMap.mp hk
    exact (h g).fits k (mem_append_right _ hk)
  obtain ⟨d, hd, hwf, hsize, hcells⟩ := ofGadgets_ok hfits
  refine ⟨c₀, c, _, d, make_eq_ok.mpr ⟨hn, hmake⟩, hrun, program_reads r gs, ?_, ?_⟩
  · refine ofProgram_eq_ok.mpr ⟨.inr rfl, ?_⟩
    rw [program_numQubits]
    exact ⟨hn, _, _, rfl, program_statements r _ (fun g => (h g).gadgets) gs,
      by simpa [List.flatMap] using hd⟩
  · have hbuilt : c.cells = (gs.flatMap built).map (appendedCell n) := by
      rw [hext.cells, hcells₀, hsize₀, map_nil, nil_append]
    rw [same_eq hext.wellFormed hwf ((hext.size.trans hsize₀).trans hsize.symm)
        (by rw [hbuilt, hcells, length_map, length_map, length_flatMap h]),
      hbuilt, hcells, zip_map, all_map, ← all_storedSame h]
    rfl

def mixedGates : List (NamedGate 3) :=
  [⟨"h", [0], [], by decide, by decide⟩, ⟨"cx", [0, 1], [], by decide, by decide⟩,
    ⟨"u3", [1], [⟨1 / 2⟩, ⟨1 / 4⟩, ⟨-5⟩], by decide, by decide⟩,
    ⟨"crz", [2, 0], [⟨7 / 2⟩], by decide, by decide⟩]

theorem mixedGates_same_read :
    0 < 3 ∧ ∃ c₀ c p d, PhaseCircuit.make (.ofNat 3) (some []) = .ok c₀ ∧
      (appendAll mixedGates).runFrom c₀ = (.ok (), c) ∧
      Qasm.Program.ofStatements (program (Qasm.qreg "q" 3) mixedGates) = .ok p ∧
      PhaseCircuit.ofProgram p .null false = .ok d ∧ c.same d = .ok true :=
  ⟨by decide, built_same_read (by decide) "q" mixedGates false⟩

def control : Fin 2 := ⟨0, Nat.zero_lt_two⟩

def target : Fin 2 := ⟨1, Nat.one_lt_two⟩

lemma pair_nodup : [control, target].Nodup := by decide

lemma cy_known : ("cy", [control, target].length, 0) ∈ knownGates := by decide

def controlledY : NamedGate 2 :=
  ⟨"cy", [control, target], [], cy_known, pair_nodup⟩

/-- The circuit of one controlled Y gate is not the circuit of its program. -/
theorem controlledY_differs_read :
    ∃ c₀ c p d, PhaseCircuit.make (.ofNat 2) (some []) = .ok c₀ ∧
      (appendAll [controlledY]).runFrom c₀ = (.ok (), c) ∧
      Qasm.Program.ofStatements (program (Qasm.qreg "q" 2) [controlledY]) = .ok p ∧
      PhaseCircuit.ofProgram p .null false = .ok d ∧ c.same d = .ok false := by
  have hrun : ((appendAll [controlledY]).runFrom { size := 2 }).1 = .ok () := by cbv
  have hsame : (ofProgram ⟨program (qreg "q" 2) [controlledY], [qreg "q" 2]⟩
      .null false >>= fun d => ((appendAll [controlledY]).runFrom { size := 2 }).2.same d) =
        .ok false := by
    cbv
  obtain ⟨d, hd, hsame⟩ := bind_eq_ok.mp hsame
  exact ⟨{ size := 2 }, _, _, d, rfl, Prod.ext hrun rfl, program_reads "q" [controlledY], hd, hsame⟩

end NamedGate

end GadgetCircuits
