import GadgetCircuits.Phase.OfProgram
import GadgetCircuits.Proofs.CircuitSteps

/-!
Registers of programs and their qubits. A register that a gate uses was declared under its name with
its size, and the qubits of the quantum registers are numbered in the order of the declarations.
-/

open List

namespace GadgetCircuits.Qasm

def Statement.acts : Statement → Bool
  | .u .. | .cx .. | .gate .. => true
  | _ => false

/-- Gates that need no definition. -/
def Statement.builtIn : Statement → Bool
  | .u .. | .cx .. => true
  | _ => false

def qreg (name : String) (size : Nat) : Register :=
  ⟨.quantum, name, ⟨size, false⟩⟩

def Register.whole (r : Register) : Target :=
  ⟨.quantum, r, none⟩

def Register.at (r : Register) (i : Nat) : Target :=
  ⟨.quantum, r, some ⟨i, false⟩⟩

namespace Program.Declared

variable {d d' : Declared} {s : Statement} {r : Register}

lemma forM_bind_eq_ok {α β : Type} {f : α → Except Error Unit} {xs : List α} {y : Except Error β}
    {b : β} : (xs.forM f >>= fun _ => y) = .ok b ↔ (∀ x ∈ xs, f x = .ok ()) ∧ y = .ok b := by
  induction xs with
  | nil => simp [List.forM]
  | cons x xs ih =>
    rw [List.forM, bind_assoc, forall_mem_cons, and_assoc, ← ih]
    cases f x <;> simp [bind, Except.bind]

lemma use_eq_ok : d.use s r = .ok () ↔ ∃ r', d.register? r.name = some r' ∧ r.same r' := by
  rw [use]
  split
  · next h => simp [h]
  · next r' h => simp [h]

lemma uses_eq_ok (s : Statement) : (if !d.version then .error (.qasm (.versionFirst s.text))
      else do
        s.registers.forM (d.use s)
        return d : Except Error Declared) = .ok d' ↔
      d.version ∧ d = d' ∧ ∀ r ∈ s.registers, ∃ r', d.register? r.name = some r' ∧ r.same r' := by
  cases d.version with
  | false => simp
  | true =>
    rw [Bool.not_true, if_neg Bool.false_ne_true, forM_bind_eq_ok]
    simp [use_eq_ok, pure, Except.pure, and_comm]

lemma add_acts (hs : s.acts) : d.add s = .ok d' ↔ d.version ∧ d = d' ∧
    ∀ r ∈ s.registers, ∃ r', d.register? r.name = some r' ∧ r.same r' := by
  cases s with
  | u a b c q => exact uses_eq_ok (.u a b c q)
  | cx c t => exact uses_eq_ok (.cx c t)
  | gate n ts ps => exact uses_eq_ok (.gate n ts ps)
  | _ => cases hs

lemma add_cases (h : d.add s = .ok d') :
    s = .version ∧ d.version = false ∧ d' = { d with version := true } ∨
    (∃ t, s = .comment t) ∧ d' = d ∨
    d.version ∧ s ≠ .version ∧
      (d' = d ∧ (∀ r ∈ s.registers, ∃ r', d.register? r.name = some r' ∧ r.same r') ∨
        ∃ r, s = .declare r ∧ d.register? r.name = none ∧
          d' = { d with registers := d.registers ++ [r] }) := by
  have huses : ∀ s : Statement, (if !d.version then .error (.qasm (.versionFirst s.text))
      else do
        s.registers.forM (d.use s)
        return d : Except Error Declared) = .ok d' → d.version ∧
          d' = d ∧ ∀ r ∈ s.registers, ∃ r', d.register? r.name = some r' ∧ r.same r' := by
    intro s hs
    obtain ⟨hversion, rfl, hall⟩ := (uses_eq_ok s).mp hs
    exact ⟨hversion, rfl, hall⟩
  cases s with
  | version =>
    rw [add] at h
    grind
  | comment t =>
    cases h
    exact .inr (.inl ⟨⟨t, rfl⟩, rfl⟩)
  | declare r =>
    have hdeclare : (if !d.version then .error (.qasm (.versionFirst (Statement.declare r).text))
        else add.declare d r) = .ok d' → d.version ∧ d.register? r.name = none ∧
          d' = { d with registers := d.registers ++ [r] } := by
      intro h
      rw [add.declare] at h
      split at h
      · cases h
      · grind
    obtain ⟨nature, name, size⟩ := r
    cases nature with
    | quantum | classical =>
      obtain ⟨hversion, hnew⟩ := hdeclare h
      exact .inr (.inr ⟨hversion, by simp, .inr ⟨_, rfl, hnew⟩⟩)
    | other =>
      obtain ⟨hversion, hall⟩ := huses (.declare ⟨.other, name, size⟩) h
      exact .inr (.inr ⟨hversion, by simp, .inl hall⟩)
  | _ =>
    obtain ⟨hversion, hall⟩ := huses _ h
    exact .inr (.inr ⟨hversion, by simp, .inl hall⟩)

lemma add_registers (h : d.add s = .ok d') : d'.registers = d.registers ∨
    ∃ r, d.register? r.name = none ∧ d'.registers = d.registers ++ [r] := by
  rcases add_cases h with ⟨-, -, rfl⟩ | ⟨-, rfl⟩ | ⟨-, -, ⟨rfl, -⟩ | ⟨r, -, hnew, rfl⟩⟩
  · exact .inl rfl
  · exact .inl rfl
  · exact .inl rfl
  · exact .inr ⟨r, hnew, rfl⟩

def Distinct (d : Declared) : Prop :=
  (d.registers.map Register.name).Nodup

lemma Distinct.add (hd : d.Distinct) (h : d.add s = .ok d') : d'.Distinct ∧
    ∀ n r, d.register? n = some r → d'.register? n = some r := by
  rcases add_registers h with hsame | ⟨r, hnew, hmore⟩
  · simp only [Distinct, register?, hsame]
    exact ⟨hd, fun n r => id⟩
  · have hfresh : r.name ∉ d.registers.map Register.name := by
      intro hmem
      obtain ⟨r', hr', hname⟩ := mem_map.mp hmem
      have hno := find?_eq_none.mp hnew r' hr'
      simp [hname] at hno
    refine ⟨?_, fun n r' hr' => ?_⟩
    · rw [Distinct, hmore, map_append, nodup_append]
      refine ⟨hd, nodup_singleton _, ?_⟩
      intro a ha b hb hab
      rw [mem_singleton.mp hb] at hab
      exact hfresh (hab ▸ ha)
    · rw [register?, hmore, find?_append]
      rw [register?] at hr'
      rw [hr']
      rfl

lemma Distinct.addAll {ss : List Statement} (hd : d.Distinct) (h : ss.foldlM Declared.add d = .ok d') :
    d'.Distinct ∧ (∀ n r, d.register? n = some r → d'.register? n = some r) ∧
    ∀ s ∈ ss, s.acts → ∀ r ∈ s.registers, ∃ r', d'.register? r.name = some r' ∧ r.same r' := by
  induction ss generalizing d with
  | nil =>
    cases h
    exact ⟨hd, fun n r => id, fun s hs => absurd hs not_mem_nil⟩
  | cons s ss ih =>
    rw [foldlM_cons] at h
    obtain ⟨d₁, hs, hrest⟩ := bind_eq_ok.mp h
    obtain ⟨hd₁, hkeep₁⟩ := hd.add hs
    obtain ⟨hd', hkeep, huses⟩ := ih hd₁ hrest
    refine ⟨hd', fun n r hr => hkeep n r (hkeep₁ n r hr), ?_⟩
    rw [forall_mem_cons]
    refine ⟨fun hacts r hr => ?_, huses⟩
    obtain ⟨r', hr', hsame⟩ := ((add_acts hacts).mp hs).2.2 r hr
    exact ⟨r', hkeep _ _ (hkeep₁ _ _ hr'), hsame⟩

end Program.Declared

def firstQubit : Nat → List Register → String → Option Nat
  | _, [], _ => none
  | first, r :: rs, name =>
    if r.name == name then some first else firstQubit (first + r.size.val) rs name

lemma wiringFrom_register (image : Nat → Value) (first : Nat) (rs : List Register) (name : String) :
    (∃ k r, firstQubit first rs name = some k ∧ rs.find? (fun r => r.name == name) = some r ∧
      (wiringFrom image first rs).register name =
        .ok ((range r.size.val).map fun i => image (k + i))) ∨
    (firstQubit first rs name = none ∧ rs.find? (fun r => r.name == name) = none ∧
      (wiringFrom image first rs).register name = .error .noKey) := by
  induction rs generalizing first with
  | nil => exact Or.inr ⟨rfl, rfl, rfl⟩
  | cons r rs ih =>
    by_cases hname : (r.name == name)
    · refine Or.inl ⟨first, r, ?_, ?_, ?_⟩ <;>
        simp [firstQubit, wiringFrom, Wiring.register, hname]
    · have hrest : (wiringFrom image first (r :: rs)).register name =
          (wiringFrom image (first + r.size.val) rs).register name := by
        simp [wiringFrom, Wiring.register, hname]
      have hfind : (r :: rs).find? (fun r => r.name == name) = rs.find? fun r => r.name == name := by
        simp [hname]
      rw [hrest, firstQubit, if_neg hname, hfind]
      exact ih (first + r.size.val)

namespace Program

variable {p : Program} {ss : List Statement} {s : Statement} {r : Register}

def firstQubit? (p : Program) (name : String) : Option Nat :=
  firstQubit 0 (p.registers.filter fun r => r.nature == .quantum) name

lemma ofStatements_eq_ok : ofStatements ss = .ok p ↔
    ∃ d, ss.foldlM Declared.add {} = .ok d ∧ p = ⟨ss, d.registers⟩ := by
  rw [ofStatements, bind_eq_ok]
  refine exists_congr fun d => and_congr_right fun _ => ?_
  exact ⟨fun h => (Except.ok.inj h).symm, fun h => by rw [h]; rfl⟩

lemma register_used (hp : ofStatements ss = .ok p) (hs : s ∈ ss) (hacts : s.acts)
    (hr : r ∈ s.registers) :
    (∃ first, p.firstQubit? r.name = some first ∧ ∀ image, (p.wiring image).register r.name =
      .ok ((range r.size.val).map fun i => image (first + i))) ∨
    (r.nature ≠ .quantum ∧ p.firstQubit? r.name = none ∧
      ∀ image, (p.wiring image).register r.name = .error .noKey) := by
  obtain ⟨d, hd, rfl⟩ := ofStatements_eq_ok.mp hp
  have hempty : Declared.Distinct {} := nodup_nil
  obtain ⟨hdistinct, -, huses⟩ := hempty.addAll hd
  obtain ⟨r', hdeclared, hsame⟩ := huses s hs hacts r hr
  simp only [Register.same, Bool.and_eq_true, beq_iff_eq] at hsame
  obtain ⟨⟨⟨-, hnature⟩, -⟩, hsize⟩ := hsame
  have hname : r'.name = r.name := by
    simpa using find?_some hdeclared
  -- A quantum register of this name is the declared one, since names are not used twice.
  have hunique : ∀ r'', (d.registers.filter fun r => r.nature == .quantum).find?
      (fun r' => r'.name == r.name) = some r'' → r'' = r' := by
    intro r'' hfind
    have hmem := (mem_filter.mp (mem_of_find?_eq_some hfind)).1
    have hname' : r''.name = r.name := by
      simpa using find?_some hfind
    exact inj_on_of_nodup_map hdistinct hmem (mem_of_find?_eq_some hdeclared)
      (hname'.trans hname.symm)
  cases hfirst : firstQubit? ⟨ss, d.registers⟩ r.name with
  | none =>
    have hnone : ∀ image, _ ∧ _ ∧ _ := fun image => by
      refine (wiringFrom_register image 0
        (d.registers.filter fun r => r.nature == .quantum) r.name).resolve_left ?_
      rintro ⟨k, -, hk, -⟩
      cases hk.symm.trans hfirst
    refine Or.inr ⟨fun hquantum => ?_, rfl, fun image => (hnone image).2.2⟩
    have hmem : r' ∈ d.registers.filter fun r => r.nature == .quantum :=
      mem_filter.mpr ⟨mem_of_find?_eq_some hdeclared, by simp [← hnature, hquantum]⟩
    have hno := find?_eq_none.mp (hnone Value.ofNat).2.1 r' hmem
    exact hno (by simp [hname])
  | some first =>
    refine Or.inl ⟨first, rfl, fun image => ?_⟩
    rcases wiringFrom_register image 0 (d.registers.filter fun r => r.nature == .quantum) r.name with
      ⟨k, r'', hk, hfind, hregister⟩ | ⟨hk, -⟩
    · rw [hunique r'' hfind, ← hsize, Option.some.inj (hk.symm.trans hfirst)] at hregister
      exact hregister
    · cases hk.symm.trans hfirst

end Program

namespace Wiring

variable {w : Wiring} {t : Target}

lemma qubit_of_register {name : String} {k : Nat} {f : Nat → Value}
    (h : w.register name = .ok ((range k).map f)) (i : Nat) :
    w.qubit name i = if i < k then .ok (f i) else .error .outOfRange := by
  rw [qubit, h, ok_bind]
  by_cases hi : i < k
  · simp [hi, pure, Except.pure]
  · simp [hi, throw, throwThe, MonadExceptOf.throw]

lemma pos_eq_none (hsize : t.size ≠ 1) : t.pos = none ∧ t.register.size.val = t.size := by
  cases hpos : t.pos with
  | none => simp [Target.size, hpos]
  | some p => simp [Target.size, hpos] at hsize

lemma operand?_isSome : (operand? t).isSome ↔ t.size = 1 := by
  constructor
  · intro h
    by_contra hne
    obtain ⟨hpos, hregister⟩ := pos_eq_none hne
    simp [operand?, hpos, hregister, hne] at h
  · intro h
    cases hpos : t.pos with
    | none =>
      rw [Target.size, hpos] at h
      simp [operand?, h]
    | some p =>
      rw [operand?, hpos]
      split <;> rfl

lemma operands_of_isSome {ts : List Target} (h : ∀ t ∈ ts, (operand? t).isSome) : w.operands ts =
      (ts.mapM fun t => w.qubit t.register.name ((operand? t).getD 0)).map fun qs => [qs] := by
  have hall : (ts.map operand?).all Option.isSome := by simpa using h
  rw [operands]
  simp only [hall, if_true]
  cases ts.mapM fun t => w.qubit t.register.name ((operand? t).getD 0) <;> rfl

lemma operands_of_isNone {t : Target} {ts : List Target} (h : ∀ e ∈ t :: ts, operand? e = none) :
    w.operands (t :: ts) = (range t.register.size.val).mapM fun i =>
      (t :: ts).mapM fun e => w.qubit e.register.name i := by
  have hsome : ((t :: ts).map operand?).all Option.isSome = false := by
    simp [h t mem_cons_self]
  have hnone : ((t :: ts).map operand?).all Option.isNone := by
    simpa using h
  rw [operands]
  simp only [hsome, hnone, Bool.false_eq_true, if_false, if_true]
  rfl

end Wiring

/-- A gate with an unknown name has no gadgets, whatever its operands; otherwise the numbers of its
qubits and angles fit, and it acts on each of its operands. -/
theorem gateGadgets_eq_ok {w : Wiring} {name : String} {ts : List Target} {params : List Angle}
    {gs : List Gadget} : gateGadgets w name ts params = .ok gs ↔
      ∃ qubits, w.operands ts = .ok qubits ∧
        ((knownGates.find? (fun g => g.1 == name) = none ∧ gs = []) ∨
        ∃ k, knownGates.find? (fun g => g.1 == name) = some k ∧ ts.length = k.2.1 ∧
          params.length = k.2.2 ∧ ∃ gss, (qubits.mapM fun qs =>
            PhaseGate.gadgets name (qs.map .plain ++ angleOperands params)) = .ok gss ∧
          gs = gss.flatten) := by
  rw [gateGadgets, bind_eq_ok]
  refine exists_congr fun qubits => and_congr_right fun _ => ?_
  cases hk : knownGates.find? fun g => g.1 == name with
  | none => simp [pure, Except.pure, eq_comm]
  | some k =>
    obtain ⟨known, numQubits, numAngles⟩ := k
    by_cases hts : ts.length = numQubits
    · by_cases hparams : params.length = numAngles
      · simp only [hts, hparams, ne_eq, not_true, if_false, bind_eq_ok, pure, Except.pure,
          reduceCtorEq, false_and, false_or, Option.some.injEq, exists_eq_left', true_and,
          Except.ok.injEq]
        exact exists_congr fun gss => and_congr_right fun _ => eq_comm
      · simp [hts, hparams, throw, throwThe, MonadExceptOf.throw, bind, Except.bind]
    · simp [hts, throw, throwThe, MonadExceptOf.throw, bind, Except.bind]

lemma mapM_legs {α : Type} {f : α → Except Error (List Gadget)} {xs : List α}
    {gss : List (List Gadget)} (hf : ∀ x gs, f x = .ok gs → ∀ g ∈ gs, g.legs ≠ [])
    (h : xs.mapM f = .ok gss) : ∀ g ∈ gss.flatten, g.legs ≠ [] := by
  intro g hg
  obtain ⟨gs, hgs, hmem⟩ := mem_flatten.mp hg
  obtain ⟨x, -, hx⟩ := of_mem_mapM h gs hgs
  exact hf x gs hx g hmem

lemma statementGadgets_legs {w : Wiring} {s : Statement} {gs : List Gadget}
    (h : statementGadgets w s = .ok gs) : ∀ g ∈ gs, g.legs ≠ [] := by
  cases s with
  | u theta phi lam q =>
    obtain ⟨qs, -, h⟩ := bind_eq_ok.mp h
    obtain ⟨gss, hgss, h⟩ := bind_eq_ok.mp h
    cases h
    exact mapM_legs (fun _ _ => PhaseGate.legs_ne_nil) hgss
  | cx c t =>
    obtain ⟨ps, -, h⟩ := bind_eq_ok.mp h
    obtain ⟨gss, hgss, h⟩ := bind_eq_ok.mp h
    cases h
    exact mapM_legs (fun _ _ => PhaseGate.legs_ne_nil) hgss
  | gate name ts params =>
    obtain ⟨qubits, -, ⟨-, rfl⟩ | ⟨k, -, -, -, gss, hgss, rfl⟩⟩ := gateGadgets_eq_ok.mp h
    · simp
    · exact mapM_legs (fun _ _ => PhaseGate.legs_ne_nil) hgss
  | version | comment | load | declare =>
    cases h
    simp
  | measure | reset | barrier | guarded => cases h

end GadgetCircuits.Qasm

namespace GadgetCircuits.PhaseCircuit

open Qasm

variable {p : Program} {mapping : Value} {allow : Bool} {c : PhaseCircuit}

lemma make_eq_ok {n : Nat} {gs : List Gadget} :
    make (.ofNat n) (some gs) = .ok c ↔ 0 < n ∧ ofGadgets n gs = .ok c := by
  by_cases hn : n = 0
  · simp [make, Value.ofNat, Value.int?, hn]
  · simp [make, Value.ofNat, Value.int?, hn, Nat.pos_of_ne_zero hn]

lemma ofProgram_eq_ok : ofProgram p mapping allow = .ok c ↔
    (allow ∨ p.numBits = 0) ∧ 0 < p.numQubits ∧
    ∃ image gss, images p.numQubits mapping = .ok image ∧
      p.statements.mapM (statementGadgets (p.wiring image)) = .ok gss ∧
      ofGadgets p.numQubits gss.flatten = .ok c := by
  have hbits : (!allow && p.numBits != 0) ↔ ¬ (allow ∨ p.numBits = 0) := by
    simp
  rw [ofProgram]
  by_cases hallow : allow ∨ p.numBits = 0
  · rw [if_neg (fun h => hbits.mp h hallow)]
    simp only [bind_eq_ok, make_eq_ok, hallow, true_and]
    grind
  · rw [if_pos (hbits.mpr hallow)]
    simp only [hallow, false_and, iff_false]
    rintro ⟨⟩

lemma ofProgram_cells (h : ofProgram p mapping allow = .ok c) :
    ∃ image gss, images p.numQubits mapping = .ok image ∧
      p.statements.mapM (statementGadgets (p.wiring image)) = .ok gss ∧
      (∀ g ∈ gss.flatten, g.Fits p.numQubits) ∧ c.WellFormed ∧ c.size = p.numQubits ∧
      c.cells = gss.flatten.map (cellOf p.numQubits) := by
  obtain ⟨-, -, image, gss, himage, hgss, hc⟩ := ofProgram_eq_ok.mp h
  have hfits := ofGadgets_fits hc (mapM_legs (fun _ _ => statementGadgets_legs) hgss)
  obtain ⟨c', hc', hwf, hsize, hcells⟩ := ofGadgets_ok hfits
  grind

end GadgetCircuits.PhaseCircuit
