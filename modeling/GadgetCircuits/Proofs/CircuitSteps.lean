import GadgetCircuits.Proofs.PhaseCircuit

/-!
The gadgets that the steps of a gate become, and circuits that grow. A set of qubits may name a qubit twice;
the legs of a gadget are the qubits that are named. Taking the steps of a gate appends the gadgets of the
steps, as they are, and two circuits are equal if their cells are, one by one.
-/

namespace GadgetCircuits

open List Value

namespace Value

variable {u v : Value} {vs : List Value}

lemma same_of_int? {m k : Int} (hu : u.int? = some m) (hv : v.int? = some k) :
    u.same v = (m == k) := by
  cases u <;> cases hu <;> cases v <;> cases hv <;> simp [same, int?]

lemma mem_of_mem_distinct (h : v ∈ distinct vs) : v ∈ vs := by
  induction vs with
  | nil => exact h
  | cons u vs ih =>
    rcases mem_cons.mp h with rfl | h
    · exact mem_cons_self
    · exact mem_cons_of_mem u (ih (mem_of_mem_filter h))

lemma exists_mem_distinct {m : Int} (hvs : ∀ v ∈ vs, v.int?.isSome) (hv : v ∈ vs)
    (hm : v.int? = some m) : ∃ u ∈ distinct vs, u.int? = some m := by
  induction vs with
  | nil => cases hv
  | cons u vs ih =>
    rw [forall_mem_cons] at hvs
    rcases mem_cons.mp hv with rfl | hv
    · exact ⟨v, mem_cons_self, hm⟩
    · obtain ⟨w, hw, hwm⟩ := ih hvs.2 hv
      obtain ⟨k, hk⟩ := Option.isSome_iff_exists.mp hvs.1
      by_cases heq : k = m
      · exact ⟨u, mem_cons_self, heq ▸ hk⟩
      · refine ⟨w, mem_cons_of_mem u (mem_filter.mpr ⟨hw, ?_⟩), hwm⟩
        rw [same_of_int? hk hwm]
        simp [heq]

lemma exists_distinct_iff {m : Int} (hvs : ∀ v ∈ vs, v.int?.isSome) :
    (∃ v ∈ distinct vs, v.int? = some m) ↔ ∃ v ∈ vs, v.int? = some m := by
  constructor
  · rintro ⟨v, hv, hm⟩
    exact ⟨v, mem_of_mem_distinct hv, hm⟩
  · rintro ⟨v, hv, hm⟩
    exact exists_mem_distinct hvs hv hm

lemma isHashable_of_int? {m : Int} (h : v.int? = some m) : v.isHashable := by
  cases v <;> cases h <;> rfl

end Value

lemma mem_sortInts {ns : List Int} {q : Int} : q ∈ sortInts ns ↔ q ∈ ns := by
  rw [sortInts, mem_eraseDups, mem_mergeSort]

namespace Gadget

variable {b : Basis} {a : AngleOperand} {e : AngleExpr} {items : List Value} {g : Gadget}

lemma make_eq_ok {shown : Option String} : make (.str b.name) (.expr e) items shown = .ok g ↔
    (∀ v ∈ items, v.int?.isSome) ∧ items ≠ [] ∧ g = ofItems b e items := by
  have hbasis : Basis.ofValue? (.str b.name) = some b := by cases b <;> rfl
  have hints : (!items.all fun v => v.int?.isSome) ↔ ¬ ∀ v ∈ items, v.int?.isSome := by simp
  simp only [make, hbasis, hints, List.isEmpty_iff]
  grind

lemma mem_legs_ofItems {q : Int} (hitems : ∀ v ∈ items, v.int?.isSome) :
    q ∈ (ofItems b e items).legs ↔ ∃ v ∈ items, v.int? = some q :=
  mem_sortInts.trans (mem_filterMap.trans (exists_distinct_iff hitems))

lemma rotationOnSet_eq_ok : rotationOnSet b a items = .ok g ↔
    ∃ e, a = .expr e ∧ (∀ v ∈ items, v.isHashable) ∧
      (∀ v ∈ distinct items, v.int?.isSome) ∧ distinct items ≠ [] ∧
      g = ofItems b e (distinct items) := by
  cases a with
  | plain v => simp [rotationOnSet]
  | expr e =>
    simp only [rotationOnSet, AngleOperand.expr.injEq, exists_eq_left', all_eq_true]
    split
    · rename_i hhash
      rw [make_eq_ok, and_iff_right hhash]
    · rename_i hhash
      simp [hhash]

lemma legs_ne_nil (h : rotationOnSet b a items = .ok g) : g.legs ≠ [] := by
  obtain ⟨e, -, -, hints, hne, rfl⟩ := rotationOnSet_eq_ok.mp h
  obtain ⟨v, hv⟩ := exists_mem_of_ne_nil _ hne
  obtain ⟨m, hm⟩ := Option.isSome_iff_exists.mp (hints v hv)
  exact ne_nil_of_mem ((mem_legs_ofItems hints).mpr ⟨v, hv, hm⟩)

lemma rotationOnSet_ok (b : Basis) (e : AngleExpr) (hne : items ≠ [])
    (hitems : ∀ v ∈ items, v.int?.isSome) : ∃ g, rotationOnSet b (.expr e) items = .ok g ∧
      g.basis = b ∧ g.angle = e ∧ g.legs.Nodup ∧
      ∀ q, q ∈ g.legs ↔ ∃ v ∈ items, v.int? = some q := by
  have hdistinct : ∀ v ∈ distinct items, v.int?.isSome :=
    fun v hv => hitems v (mem_of_mem_distinct hv)
  refine ⟨ofItems b e (distinct items), rotationOnSet_eq_ok.mpr
    ⟨e, rfl, fun v hv => ?_, hdistinct, ?_, rfl⟩, rfl, rfl, nodup_eraseDups _, fun q => ?_⟩
  · obtain ⟨m, hm⟩ := Option.isSome_iff_exists.mp (hitems v hv)
    exact isHashable_of_int? hm
  · obtain ⟨v, hv⟩ := exists_mem_of_ne_nil _ hne
    obtain ⟨m, hm⟩ := Option.isSome_iff_exists.mp (hitems v hv)
    obtain ⟨u, hu, -⟩ := exists_mem_distinct hitems hv hm
    exact ne_nil_of_mem hu
  · rw [mem_legs_ofItems hdistinct, exists_distinct_iff hitems]

end Gadget

namespace GateStep

variable {s : GateStep} {g : Gadget}

lemma legs_ne_nil (h : s.gadget = .ok g) : g.legs ≠ [] := by
  cases s with
  | turn b q a =>
    obtain ⟨a, -, h⟩ := bind_eq_ok.mp h
    exact Gadget.legs_ne_nil h
  | link a qs =>
    obtain ⟨a, -, h⟩ := bind_eq_ok.mp h
    exact Gadget.legs_ne_nil h

lemma legs_of_turn {b : Basis} {q : Value} {m : Int} {a : Except Error AngleOperand}
    (hq : q.int? = some m) (h : gadget (.turn b q a) = .ok g) : g.legs = [m] := by
  obtain ⟨a, -, h⟩ := bind_eq_ok.mp h
  obtain ⟨e, rfl, -⟩ := Gadget.rotationOnSet_eq_ok.mp h
  have hints : ∀ v ∈ [q], v.int?.isSome := by simp [hq]
  obtain ⟨g', hg', -, -, hnodup, hlegs⟩ := Gadget.rotationOnSet_ok b e (cons_ne_nil q []) hints
  obtain rfl := Except.ok.inj (h.symm.trans hg')
  have hperm : g.legs.Perm [m] := by grind
  exact perm_singleton.mp hperm

end GateStep

lemma PhaseGate.steps?_h (v : Value) : steps? "h" [.plain v] = some (.ok (h v)) := by
  cbv

lemma PhaseGate.legs_ne_nil {name : String} {args : List AngleOperand} {gs : List Gadget}
    (h : gadgets name args = .ok gs) : ∀ g ∈ gs, g.legs ≠ [] := by
  rw [gadgets] at h
  split at h
  · cases h
  · obtain ⟨steps, -, h⟩ := bind_eq_ok.mp h
    intro g hg
    obtain ⟨s, -, hs⟩ := of_mem_mapM h g hg
    exact GateStep.legs_ne_nil hs

end GadgetCircuits

open List

namespace GadgetCircuits.PhaseCircuit

variable {n : Nat}
variable {g : Gadget} {gs : List Gadget} {c : PhaseCircuit} {steps : List GateStep}

def appendedCell (n : Nat) (g : Gadget) : Cell :=
  { cellOf n g with angle := g.angle }

lemma columnOf_ok (h : g.Fits n) : columnOf n g.legs = .ok (cellOf n g).column := by
  have hrows : ∀ q ∈ g.legs, Slice.position? n q = some q.toNat := by
    intro q hq
    obtain ⟨h0, hlt⟩ := h.2 q hq
    simp [Slice.position?, Int.not_lt.mpr h0, hlt, h0]
  rw [columnOf, mapM_ok (g := Int.toNat) fun q hq => by rw [hrows q hq], ok_bind]
  refine congrArg Except.ok (map_congr_left fun i _ => ?_)
  rw [Bool.eq_iff_iff, contains_iff_mem, contains_iff_mem, mem_map]
  constructor
  · rintro ⟨q, hq, rfl⟩
    rwa [Int.toNat_of_nonneg (h.2 q hq).1]
  · intro hq
    exact ⟨_, hq, Int.toNat_natCast i⟩

structure Extends (c : PhaseCircuit) (gs : List Gadget) (c' : PhaseCircuit) : Prop where
  wellFormed : c'.WellFormed
  size : c'.size = c.size
  cells : c'.cells = c.cells ++ gs.map (appendedCell c.size)

lemma Extends.refl (hc : c.WellFormed) : c.Extends [] c := ⟨hc, rfl, by simp⟩

lemma Extends.trans {c' c'' : PhaseCircuit} {hs : List Gadget} (h : c.Extends gs c')
    (h' : c'.Extends hs c'') : c.Extends (gs ++ hs) c'' :=
  ⟨h'.wellFormed, h'.size.trans h.size, by
    rw [h'.cells, h.cells, h.size, map_append, append_assoc]⟩

lemma add_extends (hc : c.WellFormed) (hg : g.Fits c.size) :
    ∃ c', c.add g = .ok c' ∧ c.Extends [g] c' := by
  have hproper := cellOf_proper hg
  refine ⟨c.push g (cellOf c.size g).column g.angle, ?_, ?_, push_size _ _ _ _, push_cells hc _ _ _⟩
  · rw [add, columnOf_ok hg]
    rfl
  · exact push_wellFormed hc g g.angle hproper.1 hproper.2

lemma appendedCell_unitary (h : g.legs.Nodup) (value : AngleExpr → ℝ) :
    (appendedCell n g).gadget.unitary n value = g.unitary n value := by
  rw [Gadget.unitary_eq, Gadget.unitary_eq]
  exact congrArg (fun m => turnAbout (value g.angle) (stringOn g.basis m)) (cellOf_bits h)

lemma Extends.gadgets {c' : PhaseCircuit} (h : c.Extends gs c') (hc : c.WellFormed) :
    ∃ ks, c.gadgets = .ok ks ∧
      c'.gadgets = .ok (ks ++ gs.map fun g => (appendedCell c.size g).gadget) := by
  refine ⟨_, gadgets_eq hc, ?_⟩
  rw [gadgets_eq h.wellFormed, h.cells, map_append, map_map]
  rfl

lemma takeStep_eq {s : GateStep} (hs : s.gadget = .ok g) (hg : g.Fits c.size) :
    c.takeStep s = c.add g := by
  cases s with
  | turn b q a =>
    obtain ⟨a', ha, hrotation⟩ := bind_eq_ok.mp hs
    obtain ⟨e, rfl, -, hints, -, -⟩ := Gadget.rotationOnSet_eq_ok.mp hrotation
    obtain ⟨m, hm⟩ := Option.isSome_iff_exists.mp (hints q mem_cons_self)
    have hlegs := GateStep.legs_of_turn hm hs
    obtain ⟨h0, hlt⟩ := hg.2 m (by simp [hlegs])
    simp only [takeStep, ha, ok_bind, hm, h0, hlt, decide_true, Bool.and_self, Bool.not_true,
      Bool.false_eq_true, if_false, hrotation]
  | link a qs =>
    obtain ⟨a', ha, hrotation⟩ := bind_eq_ok.mp hs
    simp only [takeStep, ha, ok_bind, hrotation]

lemma takeSteps_extends (hgs : steps.mapM GateStep.gadget = .ok gs) (hc : c.WellFormed)
    (hfits : ∀ g ∈ gs, g.Fits c.size) :
    ∃ c', (takeSteps steps).runFrom c = (.ok (), c') ∧ c.Extends gs c' := by
  rw [mapM_eq_ok] at hgs
  induction hgs generalizing c with
  | nil => exact ⟨c, rfl, .refl hc⟩
  | @cons s g steps gs hs _ ih =>
    obtain ⟨hg, hfits⟩ := forall_mem_cons.mp hfits
    obtain ⟨c₁, hadd, hext⟩ := add_extends hc hg
    rw [← hext.size] at hfits
    obtain ⟨c₂, hrun, hext'⟩ := ih hext.wellFormed hfits
    refine ⟨c₂, ?_, hext.trans hext'⟩
    have hstep : (Update.replace fun c => takeStep c s).runFrom c = (.ok (), c₁) :=
      Update.runFrom_replace ((takeStep_eq hs hg).trans hadd)
    simp only [takeSteps, forIn_cons, bind_assoc, pure_bind] at hrun ⊢
    rw [Update.runFrom_bind_ok hstep]
    exact hrun

lemma gate_extends {name : String} {args : List AngleOperand}
    (hsteps : PhaseGate.circuitSteps name args = .ok steps)
    (hgs : steps.mapM GateStep.gadget = .ok gs) (hc : c.WellFormed)
    (hfits : ∀ g ∈ gs, g.Fits c.size) :
    ∃ c', (gate name args).runFrom c = (.ok (), c') ∧ c.Extends gs c' := by
  obtain ⟨c', hrun, hext⟩ := takeSteps_extends hgs hc hfits
  refine ⟨c', ?_, hext⟩
  rw [gate, hsteps, Update.runFrom_bind_ok (Update.runFrom_check _ c), hrun]

lemma gates_extend {α : Type} {name : α → String} {args : α → List AngleOperand}
    {built : α → List Gadget}
    (hbuilt : ∀ x, ∃ steps, PhaseGate.circuitSteps (name x) (args x) = .ok steps ∧
      steps.mapM GateStep.gadget = .ok (built x)) (hfits : ∀ x, ∀ g ∈ built x, g.Fits n) (xs : List α)
    (hc : c.WellFormed) (hsize : c.size = n) :
    ∃ c', (xs.forM fun x => gate (name x) (args x)).runFrom c = (.ok (), c') ∧
      c.Extends (xs.flatMap built) c' := by
  induction xs generalizing c with
  | nil => exact ⟨c, rfl, .refl hc⟩
  | cons x xs ih =>
    obtain ⟨steps, hsteps, hgs⟩ := hbuilt x
    obtain ⟨c₁, hrun, hext⟩ := gate_extends hsteps hgs hc (hsize ▸ hfits x)
    obtain ⟨c₂, hruns, hexts⟩ := ih hext.wellFormed (hext.size.trans hsize)
    exact ⟨c₂, (Update.runFrom_bind_ok hrun).trans hruns, hext.trans hexts⟩

lemma gadgetAt_eq (hc : c.WellFormed) {i : Nat} {k : Cell} (hk : c.cells[i]? = some k) :
    c.gadgetAt i = .ok k.gadget := by
  have hi : i < c.numGadgets := by
    rw [← cells_length hc]
    exact (List.getElem?_eq_some_iff.mp hk).1
  obtain ⟨b, j, a, hp, ha⟩ := hc.cell_at hi
  obtain rfl := Option.some.inj (hk.symm.trans (cells_getElem? c hp ha))
  simp only [gadgetAt, hp, ha]
  exact gadgetOf_ok b a (hc.column b _ (hc.column_proper hp)).2

lemma same_eq {d : PhaseCircuit} (hc : c.WellFormed) (hd : d.WellFormed) (hsize : c.size = d.size)
    (hlength : c.cells.length = d.cells.length) :
    c.same d = .ok ((c.cells.zip d.cells).all fun p => p.1.gadget.equal p.2.gadget) := by
  have hnum : c.numGadgets = d.numGadgets := by
    rw [← cells_length hc, ← cells_length hd, hlength]
  have hfold : ∀ m ≤ c.cells.length, (range m).foldlM (fun (eq : Bool) i => do
        if !eq then return false
        return (← c.gadgetAt i).equal (← d.gadgetAt i)) true =
      (.ok (((c.cells.zip d.cells).take m).all fun p => p.1.gadget.equal p.2.gadget) :
        Except Error Bool) := by
    intro m hm
    induction m with
    | zero => rfl
    | succ m ih =>
      have hmc : m < c.cells.length := hm
      have hmd : m < d.cells.length := hlength ▸ hm
      have hzip : (c.cells.zip d.cells)[m]? = some (c.cells[m], d.cells[m]) := by simp_all
      rw [range_succ, foldlM_append, ih (Nat.le_of_lt hm), ok_bind, foldlM_cons,
        take_add_one, hzip, all_append]
      cases ((c.cells.zip d.cells).take m).all fun p => p.1.gadget.equal p.2.gadget with
      | false => rfl
      | true =>
        simp only [Bool.not_true, Bool.false_eq_true, if_false,
          gadgetAt_eq hc (getElem?_eq_getElem hmc), gadgetAt_eq hd (getElem?_eq_getElem hmd),
          ok_bind, Option.toList_some, all_cons, all_nil, Bool.and_true, Bool.true_and]
        rfl
  have hall := hfold c.cells.length le_rfl
  rw [take_of_length_le (by simp)] at hall
  rw [same, if_neg (by simp [hnum, hsize]), ← cells_length hc]
  exact hall

end GadgetCircuits.PhaseCircuit
