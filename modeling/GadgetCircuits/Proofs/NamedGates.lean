import GadgetCircuits.Proofs.QasmWiring

/-!
Built-in gates and their named forms. The gates U and CX are the named gates u3 and cx, but only U checks a
position in a register of one qubit, and CX takes every single qubit for the first one of its register.
Exactly where neither matters, both forms give one circuit.
-/

open List GadgetCircuits.PhaseCircuit

namespace GadgetCircuits.Qasm

open Statement Wiring PhaseGate

variable {w : Wiring} {c t q : Target} {s : Statement}

namespace Statement

/-- The statement with named gates in place of the built-in ones. -/
def named : Statement → Statement
  | .u theta phi lam q => .gate "u3" [q] [theta, phi, lam]
  | .cx c t => if c.size = t.size then .gate "cx" [c, t] [] else .cx c t
  | .guarded r v s => .guarded r v s.named
  | s => s

/-- The built-in gate finds the qubits that its named form finds: a position in a register of one
qubit is the first, and so is every position that a CX gate takes in a larger register. -/
def Regular : Statement → Prop
  | .u _ _ _ q => ∀ p, q.pos = some p → q.register.size.val = 1 → p.val = 0
  | .cx c t => c.size = t.size → ∀ e ∈ [c, t], ∀ p, e.pos = some p →
      e.register.size.val = 1 ∨ p.val = 0
  | _ => True

lemma named_registers (s : Statement) : s.named.registers = s.registers := by
  induction s with
  | cx c t =>
    rw [named]
    split <;> rfl
  | guarded r v s ih => simp [named, registers, ih]
  | _ => rfl

lemma named_acts (s : Statement) : s.named.acts = s.acts := by
  cases s with
  | cx c t =>
    rw [named]
    split <;> rfl
  | _ => rfl

end Statement

namespace Wiring

def Knows (w : Wiring) (r : Register) : Prop :=
  ∃ f : Nat → Value, w.register r.name = .ok ((List.range r.size.val).map f)

lemma operands_single {f : Nat → Value}
    (hf : w.register q.register.name = .ok ((range q.register.size.val).map f))
    (hq : ∀ p, q.pos = some p → q.register.size.val = 1 → p.val = 0) :
    w.operands [q] = (w.qubits q).map (List.map fun v => [v]) := by
  cases hpos : q.pos with
  | some p =>
    have hoperand : operand? q = some p.val := by
      rw [operand?, hpos]
      split
      · rw [hq p hpos (by assumption)]
      · rfl
    rw [operands_of_isSome (by simp [hoperand]), qubits, hpos]
    simp only [mapM_cons, mapM_nil, hoperand, Option.getD_some]
    cases w.qubit q.register.name p.val <;> rfl
  | none =>
    have hqubits : w.qubits q = .ok ((range q.register.size.val).map f) := by
      rw [qubits, hpos, hf]
    rw [hqubits]
    by_cases hone : q.register.size.val = 1
    · have hoperand : operand? q = some 0 := by rw [operand?, if_pos hone]
      rw [operands_of_isSome (by simp [hoperand])]
      simp only [mapM_cons, mapM_nil, hoperand, Option.getD_some]
      rw [qubit_of_register hf, if_pos (by omega), hone]
      rfl
    · have hoperand : operand? q = none := by rw [operand?, if_neg hone, hpos]; rfl
      rw [operands_of_isNone (by simp [hoperand])]
      simp only [mapM_cons, mapM_nil]
      rw [mapM_ok (g := fun i => [f i])]
      · simp [Except.map]
      · intro i hi
        rw [qubit_of_register hf, if_pos (mem_range.mp hi)]
        rfl

lemma operand?_eq_zero (hsize : t.size = 1)
    (h : ∀ p, t.pos = some p → t.register.size.val = 1 ∨ p.val = 0) : operand? t = some 0 := by
  rw [operand?]
  split
  · rfl
  · rename_i hne
    cases hpos : t.pos with
    | none =>
      rw [Target.size, hpos] at hsize
      exact absurd hsize hne
    | some p => rw [Option.map_some, (h p hpos).resolve_left hne]

lemma operands_pair (hsize : c.size = t.size)
    (h : ∀ e ∈ [c, t], ∀ p, e.pos = some p → e.register.size.val = 1 ∨ p.val = 0) :
    w.operands [c, t] = (w.pairs c t).map (List.map fun ab => [ab.1, ab.2]) := by
  have hc := h c (by simp)
  have ht := h t (by simp)
  by_cases hone : c.size = 1
  · have hone' : t.size = 1 := hsize ▸ hone
    have hends : end? c = some 0 ∧ end? t = some 0 := by simp [end?, hone, hone']
    have hpositions := operand?_eq_zero hone hc
    have hpositions' := operand?_eq_zero hone' ht
    rw [operands_of_isSome (by simp [hpositions, hpositions']), pairs, hends.1, hends.2]
    simp only [mapM_cons, mapM_nil, hpositions, hpositions', Option.getD_some]
    cases w.qubit c.register.name 0 <;> cases w.qubit t.register.name 0 <;> rfl
  · have hone' : t.size ≠ 1 := hsize ▸ hone
    obtain ⟨hpos, hregister⟩ := pos_eq_none hone
    obtain ⟨hpos', hregister'⟩ := pos_eq_none hone'
    have hends : end? c = none ∧ end? t = none := by simp [end?, hone, hone', hpos, hpos']
    have hpositions : ∀ e ∈ [c, t], operand? e = none := by
      simp [operand?, hpos, hpos', hregister, hregister', hone, hone']
    rw [operands_of_isNone hpositions, pairs, hends.1, hends.2, hregister]
    dsimp only
    rw [← mapM_exceptMap]
    congr 1
    funext i
    simp only [mapM_cons, mapM_nil]
    cases w.qubit c.register.name i <;> cases w.qubit t.register.name i <;> rfl

end Wiring

lemma gateGadgets_known {name : String} {ts : List Target} {params : List Angle} {k : Nat × Nat}
    (hknown : knownGates.find? (fun g => g.1 == name) = some (name, k)) (hts : ts.length = k.1)
    (hparams : params.length = k.2) : gateGadgets w name ts params = (w.operands ts >>= fun qubits => do
      let gs ← qubits.mapM fun qs => gadgets name (qs.map .plain ++ angleOperands params)
      return gs.flatten) := by
  rw [gateGadgets]
  congr 1
  funext qubits
  simp [hknown, hts, hparams]

lemma statementGadgets_named (hs : s.Regular) (hw : s.builtIn → ∀ r ∈ s.registers, w.Knows r)
    (gs : List Gadget) : statementGadgets w s.named = .ok gs ↔ statementGadgets w s = .ok gs := by
  cases s with
  | u theta phi lam q =>
    obtain ⟨f, hf⟩ := hw rfl q.register mem_cons_self
    rw [named, statementGadgets, statementGadgets, gateGadgets_known (k := (1, 3)) rfl rfl rfl,
      operands_single hf hs]
    cases w.qubits q with
    | error e => rfl
    | ok qs =>
      rw [Except.map, ok_bind, ok_bind, mapM_map]
      rfl
  | cx c t =>
    rw [named]
    split
    · rename_i hsize
      rw [statementGadgets, statementGadgets, gateGadgets_known (k := (2, 0)) rfl rfl rfl,
        operands_pair hsize (hs hsize)]
      cases w.pairs c t with
      | error e => rfl
      | ok ps =>
        rw [Except.map, ok_bind, ok_bind, mapM_map]
        rfl
    · rfl
  | guarded r v s => simp [named, statementGadgets]
  | _ => rfl

variable {gs : List Gadget}

lemma cx_gadgets {i j : Nat}
    (h : gadgets "cx" [.plain (.ofNat i), .plain (.ofNat j)] = .ok gs) :
    gs.length = 9 ∧ (∃ g, gs[0]? = some g ∧ g.legs = [(j : Int)]) ∧
      ∃ g, gs[4]? = some g ∧ g.legs = [(i : Int)] := by
  have hsteps : (cx (.ofNat i) (.ofNat j)).mapM GateStep.gadget = .ok gs := h
  refine ⟨((mapM_eq_ok.mp hsteps).length_eq).symm, ?_, ?_⟩
  · obtain ⟨g, hg, hturn⟩ := mapM_getElem? (i := 0) hsteps rfl
    exact ⟨g, hg, GateStep.legs_of_turn rfl hturn⟩
  · obtain ⟨g, hg, hturn⟩ := mapM_getElem? (i := 4) hsteps rfl
    exact ⟨g, hg, GateStep.legs_of_turn rfl hturn⟩

def Wiring.Numbers (w : Wiring) (r : Register) : Prop :=
  ∃ first, w.register r.name = .ok ((List.range r.size.val).map fun i => .ofNat (first + i))

variable {r : Register} {n : Nat} {gs' : List Gadget}

lemma Wiring.Numbers.knows (h : w.Numbers r) : w.Knows r := by
  obtain ⟨first, h⟩ := h
  exact ⟨_, h⟩

lemma Wiring.Numbers.qubit (h : w.Numbers r) : ∃ first, ∀ i v,
    w.qubit r.name i = .ok v → v = .ofNat (first + i) ∧ i < r.size.val := by
  obtain ⟨first, h⟩ := h
  refine ⟨first, fun i v hv => ?_⟩
  rw [qubit_of_register h] at hv
  split at hv
  · rename_i hi
    cases hv
    exact ⟨rfl, hi⟩
  · cases hv

lemma Wiring.Numbers.exists_ofNat (h : w.Numbers r) {i : Nat} {v : Value}
    (hv : w.qubit r.name i = .ok v) : ∃ k, v = .ofNat k := by
  obtain ⟨first, hfirst⟩ := h.qubit
  exact ⟨_, (hfirst i v hv).1⟩

lemma regular_of_u_ok {theta phi lam : Angle} (hw : w.Numbers q.register)
    (h : statementGadgets w (.u theta phi lam q) = .ok gs) :
    (u theta phi lam q).Regular := by
  intro p hpos hone
  obtain ⟨qs, hqs, -⟩ := bind_eq_ok.mp h
  rw [qubits, hpos] at hqs
  obtain ⟨v, hv, -⟩ := bind_eq_ok.mp hqs
  obtain ⟨first, hfirst⟩ := hw.qubit
  have hlt := (hfirst _ v hv).2
  omega

lemma of_mapM_singleton {α : Type} {f : α → Except Error (List Gadget)} {x : α}
    {gss : List (List Gadget)} (h : [x].mapM f = .ok gss) : f x = .ok gss.flatten := by
  obtain ⟨gs, rest, hgs, hrest, rfl⟩ := forall₂_cons_left_iff.mp (mapM_eq_ok.mp h)
  rw [forall₂_nil_left_iff.mp hrest, flatten_singleton]
  exact hgs

lemma of_cx_single (hc : c.size = 1) (ht : t.size = 1)
    (h : statementGadgets w (.cx c t) = .ok gs) : ∃ a b, w.qubit c.register.name 0 = .ok a ∧
      w.qubit t.register.name 0 = .ok b ∧ gadgets "cx" [.plain a, .plain b] = .ok gs := by
  obtain ⟨ps, hps, hgates⟩ := bind_eq_ok.mp h
  obtain ⟨gss, hgss, hflatten⟩ := bind_eq_ok.mp hgates
  rw [pairs, end?, end?, if_pos hc, if_pos ht] at hps
  obtain ⟨ab, hab, hps⟩ := bind_eq_ok.mp hps
  obtain ⟨a, ha, hab⟩ := bind_eq_ok.mp hab
  obtain ⟨b, hb, hab⟩ := bind_eq_ok.mp hab
  cases hab
  cases hps
  cases hflatten
  exact ⟨a, b, ha, hb, of_mapM_singleton hgss⟩

lemma of_named_cx_single (hc : c.size = 1) (ht : t.size = 1)
    (h : statementGadgets w (.gate "cx" [c, t] []) = .ok gs) :
    ∃ a b, w.qubit c.register.name ((operand? c).getD 0) = .ok a ∧
      w.qubit t.register.name ((operand? t).getD 0) = .ok b ∧
      gadgets "cx" [.plain a, .plain b] = .ok gs := by
  rw [statementGadgets, gateGadgets_known (k := (2, 0)) rfl rfl rfl, operands_of_isSome
    (by simp [operand?_isSome.mpr hc, operand?_isSome.mpr ht])] at h
  obtain ⟨qubits, hqubits, hgates⟩ := bind_eq_ok.mp h
  obtain ⟨gss, hgss, hflatten⟩ := bind_eq_ok.mp hgates
  obtain ⟨qs, hqs, rfl⟩ := map_eq_ok.mp hqubits
  obtain ⟨a, as, ha, has, rfl⟩ := forall₂_cons_left_iff.mp (mapM_eq_ok.mp hqs)
  obtain ⟨b, bs, hb, hbs, rfl⟩ := forall₂_cons_left_iff.mp has
  obtain rfl := forall₂_nil_left_iff.mp hbs
  cases hflatten
  exact ⟨a, b, ha, hb, of_mapM_singleton hgss⟩

lemma cellOf_legs {g g' : Gadget} {i j : Nat} (h : cellOf n g = cellOf n g')
    (hi : g.legs = [(i : Int)]) (hj : g'.legs = [(j : Int)]) (hg : g.Fits n) : i = j := by
  have hn : i < n := by
    have hleg := (hg.2 i (by simp [hi])).2
    omega
  have hcolumn := congrArg (fun k => (Cell.column k)[i]?) h
  simpa [cellOf, hi, hj, hn] using hcolumn

lemma Wiring.Numbers.regular {a b : Nat} (hw : w.Numbers t.register)
    (ha : w.qubit t.register.name 0 = .ok (.ofNat a))
    (hb : w.qubit t.register.name ((operand? t).getD 0) = .ok (.ofNat b)) (hab : a = b) (p : Count)
    (hpos : t.pos = some p) : t.register.size.val = 1 ∨ p.val = 0 := by
  by_contra hnot
  rw [not_or] at hnot
  rw [operand?, if_neg hnot.1, hpos, Option.map_some, Option.getD_some] at hb
  obtain ⟨first, hfirst⟩ := hw.qubit
  have hsame := Value.int.inj (((hfirst _ _ hb).1.symm.trans (congrArg Value.ofNat hab.symm)).trans
    (hfirst _ _ ha).1)
  omega

lemma size_of_irregular (h : ¬ (cx c t).Regular) : c.size = 1 ∧ t.size = 1 := by
  have hsize : c.size = t.size := by
    by_contra hne
    exact h fun heq => absurd heq hne
  have hone : c.size = 1 := by
    by_contra hne
    refine h fun _ e he p hpos => ?_
    have he' : e.size = c.size := by grind
    rw [Target.size, hpos] at he'
    exact absurd he'.symm hne
  exact ⟨hone, hsize ▸ hone⟩

/-- A CX gate between single qubits that has the same cells in both forms is regular. The legs of two of
its cells tell the control and the target. -/
theorem regular_of_cx_cells (hc : c.size = 1) (ht : t.size = 1) (hwc : w.Numbers c.register)
    (hwt : w.Numbers t.register) (h : statementGadgets w (.cx c t) = .ok gs)
    (h' : statementGadgets w (.gate "cx" [c, t] []) = .ok gs') (hfits : ∀ g ∈ gs, g.Fits n) :
    gs.length = gs'.length ∧ (gs.map (cellOf n) = gs'.map (cellOf n) →
      (cx c t).Regular) := by
  obtain ⟨a, b, ha, hb, hgs⟩ := of_cx_single hc ht h
  obtain ⟨a', b', ha', hb', hgs'⟩ := of_named_cx_single hc ht h'
  obtain ⟨i, rfl⟩ := hwc.exists_ofNat ha
  obtain ⟨j, rfl⟩ := hwt.exists_ofNat hb
  obtain ⟨i', rfl⟩ := hwc.exists_ofNat ha'
  obtain ⟨j', rfl⟩ := hwt.exists_ofNat hb'
  obtain ⟨hlen, ⟨g, hg, hj⟩, ⟨k, hk, hi⟩⟩ := cx_gadgets hgs
  obtain ⟨hlen', ⟨g', hg', hj'⟩, ⟨k', hk', hi'⟩⟩ := cx_gadgets hgs'
  refine ⟨hlen.trans hlen'.symm, fun hcells => ?_⟩
  have hcell : ∀ {m : Nat} {g g' : Gadget}, gs[m]? = some g → gs'[m]? = some g' →
      cellOf n g = cellOf n g' := by
    intro m g g' hg hg'
    have hm := congrArg (fun cells => cells[m]?) hcells
    simpa [hg, hg'] using hm
  have hcontrol : i = i' := cellOf_legs (hcell hk hk') hi hi' (hfits k (mem_of_getElem? hk))
  have htarget : j = j' := cellOf_legs (hcell hg hg') hj hj' (hfits g (mem_of_getElem? hg))
  refine fun _ e he => ?_
  simp only [mem_cons, not_mem_nil, or_false] at he
  rcases he with rfl | rfl
  · exact hwc.regular ha ha' hcontrol
  · exact hwt.regular hb hb' htarget

lemma regular_of_cells (hw : s.builtIn → ∀ r ∈ s.registers, w.Numbers r)
    (h : statementGadgets w s = .ok gs) (h' : statementGadgets w s.named = .ok gs')
    (hfits : ∀ g ∈ gs, g.Fits n) :
    gs.length = gs'.length ∧
      (gs.map (cellOf n) = gs'.map (cellOf n) → s.Regular) := by
  by_cases hregular : s.Regular
  · have hsame := (statementGadgets_named hregular (fun hb r hr => (hw hb r hr).knows) gs').mp h'
    obtain rfl := Except.ok.inj (h.symm.trans hsame)
    exact ⟨rfl, fun _ => hregular⟩
  · cases s with
    | u theta phi lam q =>
      exact absurd (regular_of_u_ok (hw rfl q.register mem_cons_self) h) hregular
    | cx c t =>
      obtain ⟨hc, ht⟩ := size_of_irregular hregular
      rw [named, if_pos (hc.trans ht.symm)] at h'
      exact regular_of_cx_cells hc ht (hw rfl _ (by simp [registers]))
        (hw rfl _ (by simp [registers])) h h' hfits
    | _ => exact absurd trivial hregular

variable {ss : List Statement} {p : Program}

lemma Program.Declared.add_named {d d' : Declared} (s : Statement) :
    d.add s.named = .ok d' ↔ d.add s = .ok d' := by
  cases hacts : s.acts with
  | true =>
    rw [add_acts (s.named_acts.trans hacts), add_acts hacts, s.named_registers]
  | false =>
    cases s with
    | guarded r v s =>
      have hregisters := named_registers (.guarded r v s)
      rw [named] at hregisters
      refine (uses_eq_ok (.guarded r v s.named)).trans ((uses_eq_ok (.guarded r v s)).trans ?_).symm
      rw [hregisters]
    | u | cx | gate => cases hacts
    | _ => rfl

lemma Program.ofStatements_named (hp : ofStatements ss = .ok p) :
    ofStatements (ss.map named) = .ok ⟨ss.map named, p.registers⟩ := by
  obtain ⟨d, hd, rfl⟩ := ofStatements_eq_ok.mp hp
  refine ofStatements_eq_ok.mpr ⟨d, ?_, rfl⟩
  have hfold : ∀ (ss : List Statement) (d d' : Declared), ss.foldlM Declared.add d = .ok d' →
      (ss.map named).foldlM Declared.add d = .ok d' := by
    intro ss
    induction ss with
    | nil => exact fun d d' h => h
    | cons s ss ih =>
      intro d d' h
      rw [foldlM_cons] at h
      obtain ⟨d₁, hs, hrest⟩ := bind_eq_ok.mp h
      rw [map_cons, foldlM_cons, (Declared.add_named s).mpr hs, ok_bind]
      exact ih d₁ d' hrest
  exact hfold ss {} d hd

lemma Program.knows_builtIn (hp : ofStatements ss = .ok p)
    (hquantum : ∀ s ∈ ss, s.builtIn → ∀ r ∈ s.registers, r.nature = .quantum) (hs : s ∈ ss)
    (hb : s.builtIn) (hr : r ∈ s.registers) :
    ∃ first, ∀ image, (p.wiring image).register r.name =
      .ok ((range r.size.val).map fun i => image (first + i)) := by
  have hacts : s.acts := by
    cases s with
    | u | cx => rfl
    | _ => cases hb
  rcases register_used hp hs hacts hr with ⟨first, -, hregister⟩ | ⟨hnot, -⟩
  · exact ⟨first, hregister⟩
  · exact absurd (hquantum s hs hb r hr) hnot

lemma regular_of_flatten {gss gss' : List (List Gadget)}
    (h : Forall₂ (fun s gs => statementGadgets w s = .ok gs) ss gss)
    (h' : Forall₂ (fun s gs => statementGadgets w s.named = .ok gs) ss gss')
    (hw : ∀ s ∈ ss, s.builtIn → ∀ r ∈ s.registers, w.Numbers r)
    (hfits : ∀ g ∈ gss.flatten, g.Fits n)
    (hcells : gss.flatten.map (cellOf n) = gss'.flatten.map (cellOf n)) :
    ∀ s ∈ ss, s.Regular := by
  induction h generalizing gss' with
  | nil => simp
  | @cons s gs ss gss hs _ ih =>
    obtain ⟨gs', gss', hs', hss', rfl⟩ := forall₂_cons_left_iff.mp h'
    rw [flatten_cons] at hfits
    obtain ⟨hfit, hfits⟩ := forall_mem_append.mp hfits
    -- Both blocks of a statement have one length, so the blocks can be compared one by one.
    obtain ⟨hlen, hregular⟩ := regular_of_cells (hw s mem_cons_self) hs hs' hfit
    rw [flatten_cons, flatten_cons, map_append, map_append] at hcells
    obtain ⟨hfirst, hrest⟩ := append_inj hcells (by simp [hlen])
    grind

/-- With named gates in place of the built-in ones a program is still one. It gives the circuits that
it gave, and fails where it failed, if its built-in gates are regular; an irregular one either fails in
one form or makes the circuits differ. -/
theorem named_gates_agree (hp : Program.ofStatements ss = .ok p)
    (hquantum : ∀ s ∈ ss, s.builtIn = true → ∀ r ∈ s.registers, r.nature = .quantum) :
    ∃ p', Program.ofStatements (ss.map Statement.named) = .ok p' ∧
      ((∀ s ∈ ss, s.Regular) → ∀ mapping allow c, PhaseCircuit.ofProgram p' mapping allow = .ok c ↔
        PhaseCircuit.ofProgram p mapping allow = .ok c) ∧
      ∀ allow c, PhaseCircuit.ofProgram p .null allow = .ok c →
        PhaseCircuit.ofProgram p' .null allow = .ok c → ∀ s ∈ ss, s.Regular := by
  have hstatements : p.statements = ss := by
    obtain ⟨d, -, rfl⟩ := Program.ofStatements_eq_ok.mp hp
    rfl
  refine ⟨_, Program.ofStatements_named hp, fun hregular mapping allow c => ?_,
    fun allow c hc hc' => ?_⟩
  · -- Under every mapping both programs have the same gadgets.
    have hgadgets : ∀ image gss, (ss.map named).mapM (statementGadgets (p.wiring image)) =
        .ok gss ↔ p.statements.mapM (statementGadgets (p.wiring image)) = .ok gss := by
      intro image gss
      rw [hstatements, mapM_map]
      refine mapM_congr_ok fun s hs => statementGadgets_named (hregular s hs) fun hb r hr => ?_
      obtain ⟨first, hfirst⟩ := Program.knows_builtIn hp hquantum hs hb hr
      exact ⟨_, hfirst image⟩
    rw [ofProgram_eq_ok, ofProgram_eq_ok]
    refine and_congr_right fun _ => and_congr_right fun _ => exists_congr fun image =>
      exists_congr fun gss => and_congr_right fun _ => and_congr_left fun _ => hgadgets image gss
  · obtain ⟨image, gss, himage, hgss, hfits, -, -, hcells⟩ := ofProgram_cells hc
    obtain ⟨image', gss', himage', hgss', -, -, -, hcells'⟩ := ofProgram_cells hc'
    cases himage
    cases himage'
    rw [hstatements] at hgss
    rw [mapM_map] at hgss'
    refine regular_of_flatten (mapM_eq_ok.mp hgss) (mapM_eq_ok.mp hgss') (fun s hs hb r hr => ?_)
      hfits (hcells.symm.trans hcells')
    obtain ⟨first, hfirst⟩ := Program.knows_builtIn hp hquantum hs hb hr
    exact ⟨first, hfirst _⟩

def regularGates : List Statement :=
  [.version, .declare (qreg "a" 2), .declare (qreg "b" 2), .u ⟨1/2⟩ ⟨1/4⟩ ⟨0⟩ (qreg "a" 2).whole,
    .u ⟨1⟩ ⟨0⟩ ⟨1/8⟩ ((qreg "b" 2).at 1), .cx (qreg "a" 2).whole (qreg "b" 2).whole,
    .cx ((qreg "b" 2).at 0) ((qreg "a" 2).at 0)]

theorem regularGates_agree :
    Program.ofStatements regularGates = .ok ⟨regularGates, [qreg "a" 2, qreg "b" 2]⟩ ∧
    (∀ s ∈ regularGates, s.builtIn = true → ∀ r ∈ s.registers, r.nature = .quantum) ∧
    (∀ s ∈ regularGates, s.Regular) ∧
    ∃ p', Program.ofStatements (regularGates.map Statement.named) = .ok p' ∧ ∀ mapping allow c,
      PhaseCircuit.ofProgram p' mapping allow = .ok c ↔
        PhaseCircuit.ofProgram ⟨regularGates, [qreg "a" 2, qreg "b" 2]⟩ mapping allow = .ok c := by
  have hp : Program.ofStatements regularGates = .ok ⟨regularGates, [qreg "a" 2, qreg "b" 2]⟩ := rfl
  have hquantum : ∀ s ∈ regularGates, s.builtIn = true → ∀ r ∈ s.registers, r.nature = .quantum := by
    decide
  have hregular : ∀ s ∈ regularGates, s.Regular := by
    simp [regularGates, Regular, Register.whole, Register.at, qreg]
  obtain ⟨p', hp', hagree, -⟩ := named_gates_agree hp hquantum
  exact ⟨hp, hquantum, hregular, p', hp', hagree hregular⟩

def neighbours : List Statement :=
  [.version, .declare (qreg "q" 2), .cx ((qreg "q" 2).at 0) ((qreg "q" 2).at 1)]

def beyond : List Statement :=
  [.version, .declare (qreg "q" 1), .u ⟨0⟩ ⟨0⟩ ⟨1⟩ ((qreg "q" 1).at 3)]

def columns (ss : List Statement) : Except Error (List (List Bool)) := do
  let c ← ofProgram (← Program.ofStatements ss) .null false
  return c.cells.map Cell.column

/-- The CX gate keeps to the first qubit and its named form does not; the U gate is refused and its
named form is not. -/
theorem named_gates_differ :
    (∃ cs cs', columns neighbours = .ok cs ∧ columns (neighbours.map Statement.named) = .ok cs' ∧
      cs ≠ cs') ∧
    columns beyond = .error .outOfRange ∧
    ∃ cs, columns (beyond.map Statement.named) = .ok cs := by
  have hneighbours : columns neighbours = .ok (List.replicate 9 [true, false]) := by cbv
  have hnamed : columns (neighbours.map named) = .ok
      (List.replicate 3 [false, true] ++ [[true, true], [true, false]] ++
        List.replicate 4 [false, true]) := by cbv
  have hbeyond : columns beyond = .error .outOfRange := by cbv
  have hnamedBeyond : columns (beyond.map named) = .ok (List.replicate 5 [true]) := by cbv
  exact ⟨⟨_, _, hneighbours, hnamed, by decide⟩, hbeyond, _, hnamedBeyond⟩

end GadgetCircuits.Qasm
