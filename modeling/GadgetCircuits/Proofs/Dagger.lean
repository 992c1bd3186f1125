import GadgetCircuits.Proofs.AngleEquality
import GadgetCircuits.Proofs.RememberedLegs

/-!
Circuits made at once, circuits made gadget by gadget, and the inverse of a circuit. Both ways store the
same columns, but only an appended gadget may count its legs from the last qubit backwards. On the stored
cells the inverse reverses the order and turns every angle around, and composition appends.
-/

namespace GadgetCircuits

open List AngleExpr

namespace PhaseCircuit

variable {n : Nat} {c d : PhaseCircuit} {gs : List Gadget}
variable {g : Gadget}

lemma reduceAngle_equal {e : AngleExpr} (h : e.Distinct) : (reduceAngle e).equal e := by
  cases e with
  | angle a => simp [reduceAngle, equal, Angle.same, Angle.reduced_normalize]
  | var v => exact equal_self h
  | sum ts k => exact equal_self h
  | mod e m => exact equal_self h

lemma ofGadgets_ok_iff (hgs : ∀ g ∈ gs, g.legs ≠ []) :
    (∃ c, ofGadgets n gs = .ok c) ↔ ∀ g ∈ gs, ∀ q ∈ g.legs, 0 ≤ q ∧ q < n := by
  constructor
  · rintro ⟨c, hc⟩ g hg
    exact (ofGadgets_fits hc hgs g hg).2
  · intro h
    obtain ⟨c, hc, -⟩ := ofGadgets_ok fun g hg => ⟨hgs g hg, h g hg⟩
    exact ⟨c, hc⟩

def wrappedCell (n : Nat) (g : Gadget) : Cell :=
  ⟨g.basis, g.angle, (List.range n).map fun (i : Nat) =>
    g.legs.contains (i : Int) || g.legs.contains ((i : Int) - n)⟩

lemma position?_eq_some {q : Int} {i : Nat} :
    Slice.position? n q = some i ↔ i < n ∧ (q = i ∨ q = (i : Int) - n) := by
  unfold Slice.position?
  by_cases hneg : q < 0 <;> simp only [hneg, if_true, if_false] <;> split <;> simp_all <;> omega

lemma exists_position {q : Int} : (∃ i, Slice.position? n q = some i) ↔ -(n : Int) ≤ q ∧ q < n := by
  simp only [position?_eq_some]
  constructor
  · rintro ⟨i, hi, hq | hq⟩ <;> omega
  · rintro ⟨hlow, hhigh⟩
    by_cases hneg : q < 0
    · exact ⟨(q + n).toNat, by omega, by omega⟩
    · exact ⟨q.toNat, by omega, by omega⟩

lemma columnOf_wrapped (h : ∀ q ∈ g.legs, -(n : Int) ≤ q ∧ q < n) :
    columnOf n g.legs = .ok (wrappedCell n g).column := by
  have hrows : ∀ q ∈ g.legs, ∃ i, Slice.position? n q = some i := fun q hq => exists_position.mpr (h q hq)
  choose! row hrow using hrows
  rw [columnOf, mapM_ok (g := row) fun q hq => by rw [hrow q hq], ok_bind]
  refine congrArg Except.ok (map_congr_left fun i hi => ?_)
  rw [Bool.eq_iff_iff, Bool.or_eq_true, contains_iff_mem, contains_iff_mem, contains_iff_mem,
    mem_map]
  constructor
  · rintro ⟨q, hq, rfl⟩
    obtain ⟨-, e | e⟩ := position?_eq_some.mp (hrow q hq)
    · exact .inl (e ▸ hq)
    · exact .inr (e ▸ hq)
  · have hfound : ∀ q ∈ g.legs, q = i ∨ q = (i : Int) - n → row q = i := by
      intro q hq he
      have hat := position?_eq_some.mpr ⟨mem_range.mp hi, he⟩
      exact Option.some.inj ((hrow q hq).symm.trans hat)
    rintro (hq | hq)
    · exact ⟨_, hq, hfound _ hq (.inl rfl)⟩
    · exact ⟨_, hq, hfound _ hq (.inr rfl)⟩

lemma legs_of_columnOf {legs : List Int} {column : List Bool} (h : columnOf n legs = .ok column) :
    ∀ q ∈ legs, -(n : Int) ≤ q ∧ q < n := by
  obtain ⟨rows, hrows, -⟩ := bind_eq_ok.mp h
  intro q hq
  obtain ⟨i, -, hi⟩ := of_mem_forall₂ (mapM_eq_ok.mp hrows).flip q hq
  rw [← exists_position]
  cases hat : Slice.position? n q with
  | none => simp [hat] at hi
  | some k => exact ⟨k, rfl⟩

lemma addAll_cons (c : PhaseCircuit) (g : Gadget) (gs : List Gadget) :
    c.addAll (g :: gs) = c.add g >>= fun d => d.addAll gs :=
  foldlM_cons

lemma addAllSteps_eq_ok : (addAllSteps gs).runFrom c = (.ok (), d) ↔ c.addAll gs = .ok d := by
  induction gs generalizing c with
  | nil =>
    constructor
    · intro h
      exact congrArg Except.ok (Prod.mk.inj h).2
    · intro h
      exact congrArg (Prod.mk _) (Except.ok.inj h)
  | cons g gs ih =>
    have hcons : addAllSteps (g :: gs) = (do
        Update.replace fun c => c.add g
        addAllSteps gs) := by
      simp only [addAllSteps, forIn_cons, bind_assoc, pure_bind]
    rw [hcons, addAll_cons]
    cases hadd : c.add g with
    | error e =>
      rw [Update.runFrom_bind, Update.runFrom_replace_error (f := fun c : PhaseCircuit => c.add g) hadd]
      constructor <;> intro h <;> cases h
    | ok c' =>
      rw [Update.runFrom_bind_ok (Update.runFrom_replace hadd), ih, ok_bind]

lemma add_size (h : c.add g = .ok d) :
    (∀ q ∈ g.legs, -(c.size : Int) ≤ q ∧ q < c.size) ∧ d.size = c.size := by
  obtain ⟨column, hcolumn, hd⟩ := bind_eq_ok.mp h
  cases hd
  exact ⟨legs_of_columnOf hcolumn, push_size _ _ _ _⟩

lemma legs_of_addAll (h : c.addAll gs = .ok d) :
    ∀ g ∈ gs, ∀ q ∈ g.legs, -(c.size : Int) ≤ q ∧ q < c.size := by
  induction gs generalizing c with
  | nil => simp
  | cons g gs ih =>
    rw [addAll_cons] at h
    obtain ⟨c', hadd, hrest⟩ := bind_eq_ok.mp h
    obtain ⟨hlegs, hsize⟩ := add_size hadd
    exact forall_mem_cons.mpr ⟨hlegs, hsize ▸ ih hrest⟩

lemma wrappedCell_proper (hg : g.legs ≠ []) (h : ∀ q ∈ g.legs, -(n : Int) ≤ q ∧ q < n) :
    (wrappedCell n g).Proper n := by
  refine ⟨by simp [wrappedCell], ?_⟩
  obtain ⟨q, hq⟩ := exists_mem_of_ne_nil _ hg
  obtain ⟨i, hi⟩ := exists_position.mpr (h q hq)
  obtain ⟨hlt, he⟩ := position?_eq_some.mp hi
  refine mem_map.mpr ⟨i, mem_range.mpr hlt, ?_⟩
  rcases he with rfl | rfl <;> simp [hq]

/-- What is appended is a column with a bit at every leg, also at those counted from the end. -/
theorem addAll_spec (hc : c.WellFormed)
    (hgs : ∀ g ∈ gs, g.legs ≠ [] ∧ ∀ q ∈ g.legs, -(c.size : Int) ≤ q ∧ q < c.size) :
    ∃ d, c.addAll gs = .ok d ∧ d.WellFormed ∧ d.size = c.size ∧
      d.cells = c.cells ++ gs.map (wrappedCell c.size) := by
  induction gs generalizing c with
  | nil => exact ⟨c, rfl, hc, rfl, by simp⟩
  | cons g gs ih =>
    obtain ⟨⟨hne, hlegs⟩, hgs⟩ := forall_mem_cons.mp hgs
    have hproper := wrappedCell_proper hne hlegs
    have hadd : c.add g = .ok (c.push g (wrappedCell c.size g).column g.angle) := by
      rw [add, columnOf_wrapped hlegs]
      rfl
    have hsize := push_size c g (wrappedCell c.size g).column g.angle
    obtain ⟨d, hd, hwf, hdsize, hcells⟩ :=
      ih (push_wellFormed hc g g.angle hproper.1 hproper.2) (hsize.symm ▸ hgs)
    refine ⟨d, ?_, hwf, hdsize.trans hsize, ?_⟩
    · rw [addAll_cons, hadd, ok_bind, hd]
    · rw [hcells, push_cells hc, hsize, append_assoc]
      rfl

lemma Consistent.addAll (hc : c.Consistent)
    (hgs : ∀ g ∈ gs, LegsOn c.size g.legs ∧ g.legs.Pairwise (· < ·)) (h : c.addAll gs = .ok d) :
    d.Consistent := by
  induction gs generalizing c with
  | nil => exact Except.ok.inj h ▸ hc
  | cons g gs ih =>
    obtain ⟨⟨hlegs, hsorted⟩, hgs⟩ := forall_mem_cons.mp hgs
    rw [addAll_cons, add, columnOf_ok hlegs.fits, ok_bind] at h
    exact ih (hc.push hlegs hsorted g.angle) ((push_size c g _ _).symm ▸ hgs) h

lemma wrappedCell_eq (h : g.Fits n) : wrappedCell n g = appendedCell n g := by
  have hcolumn : (wrappedCell n g).column = (cellOf n g).column := by
    refine map_congr_left fun i hi => ?_
    have hlt := mem_range.mp hi
    have hnot : (i : Int) - n ∉ g.legs := fun hin => by
      have hpos := (h.2 _ hin).1
      omega
    simp [hnot]
  rw [appendedCell, ← hcolumn]
  rfl

lemma appendedCell_gadget (hl : LegsOn n g.legs) (hsorted : g.legs.Pairwise (· < ·)) :
    (appendedCell n g).gadget = { basis := g.basis, angle := g.angle, legs := g.legs } := by
  have hlegs := congrArg Gadget.legs (cellOf_gadget hl hsorted)
  exact congrArg (fun legs => ({ basis := g.basis, angle := g.angle, legs := legs } : Gadget)) hlegs

lemma addAll_cells (h : ({ size := n } : PhaseCircuit).addAll gs = .ok d)
    (hgs : ∀ g ∈ gs, g.Fits n) : d.WellFormed ∧ d.size = n ∧ d.cells = gs.map (appendedCell n) := by
  have hwrapped : ∀ g ∈ gs, g.legs ≠ [] ∧ ∀ q ∈ g.legs, -(n : Int) ≤ q ∧ q < n := by
    intro g hg
    refine ⟨(hgs g hg).1, fun q hq => ?_⟩
    have hrange := (hgs g hg).2 q hq
    omega
  obtain ⟨d', hd', hwf, hsize, hcells⟩ := addAll_spec (wellFormed_empty n) hwrapped
  obtain rfl := Except.ok.inj (hd'.symm.trans h)
  refine ⟨hwf, hsize, hcells.trans ?_⟩
  exact map_congr_left fun g hg => wrappedCell_eq (hgs g hg)

lemma made_same_appended [GraphLibrary] (hmade : ofGadgets n gs = .ok c)
    (happended : ({ size := n } : PhaseCircuit).addAll gs = .ok d)
    (hgs : ∀ g ∈ gs, LegsOn n g.legs ∧ g.legs.Pairwise (· < ·) ∧ g.angle.Distinct) :
    c.same d = .ok true ∧
    c.gadgets = .ok (gs.map fun g => { basis := g.basis, angle := reduceAngle g.angle, legs := g.legs }) ∧
    d.gadgets = .ok (gs.map fun g => { basis := g.basis, angle := g.angle, legs := g.legs }) ∧
    ∀ t, ((count t).runFrom c).1 = ((count t).runFrom d).1 := by
  have hlegs : ∀ g ∈ gs, LegsOn n g.legs ∧ g.legs.Pairwise (· < ·) := fun g hg =>
    ⟨(hgs g hg).1, (hgs g hg).2.1⟩
  obtain ⟨c', hmade', hwf, hsize, hcells⟩ := ofGadgets_ok fun g hg => (hgs g hg).1.fits
  obtain rfl := Except.ok.inj (hmade'.symm.trans hmade)
  obtain ⟨hcc, -⟩ := ofGadgets_consistent hmade hlegs
  obtain ⟨hwf', hsize', hcells'⟩ := addAll_cells happended fun g hg => (hgs g hg).1.fits
  have hdc := (consistent_empty n).addAll hlegs happended
  refine ⟨?_, ?_, ?_, fun t => ?_⟩
  · rw [same_eq hwf hwf' (hsize.trans hsize'.symm) (by rw [hcells, hcells']; simp), hcells,
      hcells', zip_map']
    refine congrArg Except.ok (all_eq_true.mpr fun p hp => ?_)
    obtain ⟨g, hg, rfl⟩ := mem_map.mp hp
    rw [cellOf_gadget (hlegs g hg).1 (hlegs g hg).2, appendedCell_gadget (hlegs g hg).1 (hlegs g hg).2]
    simp [Gadget.equal, reduceAngle_equal (hgs g hg).2.2]
  · rw [gadgets_eq hwf, hcells, map_map]
    exact congrArg Except.ok (map_congr_left fun g hg => cellOf_gadget (hlegs g hg).1 (hlegs g hg).2)
  · rw [gadgets_eq hwf', hcells', map_map]
    exact congrArg Except.ok
      (map_congr_left fun g hg => appendedCell_gadget (hlegs g hg).1 (hlegs g hg).2)
  · have hreduced : c'.cells = d.cells.map fun k => { k with angle := reduceAngle k.angle } := by
      rw [hcells, hcells', map_map]
      rfl
    obtain ⟨_, hrun, -⟩ := count_run t c'
    obtain ⟨_, hrun', -⟩ := count_run t d
    rw [hrun, hrun', hcc.cxCount_eq, hdc.cxCount_eq, hreduced, cellsCount_reduced]

/-- A circuit is made at once of gadgets whose legs are qubits, and gadget by gadget also of such whose legs
count from the end. If both ways succeed they give equal circuits with the same gadgets, whose angles are
reduced in one of them, and with the same counts. -/
theorem made_iff_appended [GraphLibrary]
    (hgs : ∀ g ∈ gs, g.legs ≠ [] ∧ g.legs.Pairwise (· < ·) ∧ g.angle.Distinct) :
    ((∃ c, ofGadgets n gs = .ok c) ↔ ∀ g ∈ gs, ∀ q ∈ g.legs, 0 ≤ q ∧ q < n) ∧
    ((∃ d, (addAllSteps gs).runFrom { size := n } = (.ok (), d)) ↔
      ∀ g ∈ gs, ∀ q ∈ g.legs, -(n : Int) ≤ q ∧ q < n) ∧
    (∀ d, (addAllSteps gs).runFrom { size := n } = (.ok (), d) →
      d.gadgets = .ok (gs.map fun g => (wrappedCell n g).gadget)) ∧
    ∀ c d, ofGadgets n gs = .ok c → (addAllSteps gs).runFrom { size := n } = (.ok (), d) →
      c.same d = .ok true ∧
      c.gadgets = .ok (gs.map fun g => { basis := g.basis, angle := reduceAngle g.angle, legs := g.legs }) ∧
      d.gadgets = .ok (gs.map fun g => { basis := g.basis, angle := g.angle, legs := g.legs }) ∧
      ∀ t, ((count t).runFrom c).1 = ((count t).runFrom d).1 := by
  have hne : ∀ g ∈ gs, g.legs ≠ [] := fun g hg => (hgs g hg).1
  simp only [addAllSteps_eq_ok]
  refine ⟨ofGadgets_ok_iff hne, ⟨?_, fun h => ?_⟩, fun d hd => ?_, fun c d hc hd => ?_⟩
  · rintro ⟨d, hd⟩
    exact legs_of_addAll hd
  · obtain ⟨d, hd, -⟩ := addAll_spec (wellFormed_empty n) fun g hg => ⟨hne g hg, h g hg⟩
    exact ⟨d, hd⟩
  · obtain ⟨d', hd', hwf, -, hcells⟩ :=
      addAll_spec (wellFormed_empty n) fun g hg => ⟨hne g hg, legs_of_addAll hd g hg⟩
    obtain rfl := Except.ok.inj (hd'.symm.trans hd)
    rw [gadgets_eq hwf, hcells, map_append, map_map]
    rfl
  · refine made_same_appended hc hd fun g hg => ⟨⟨?_, hne g hg, ?_⟩, (hgs g hg).2⟩
    · exact (hgs g hg).2.1.imp Int.ne_of_lt
    · exact (ofGadgets_fits hc hne g hg).2

def overturnedPair : List Gadget :=
  [{ basis := .z, angle := .angle ⟨9 / 4⟩, legs := [0, 2] },
    { basis := .x, angle := .combine [(.var ⟨0, "a", "a"⟩, 1), (.var ⟨1, "b", "b"⟩, -2)], legs := [1] }]

theorem overturnedPair_made_appended :
    (∀ g ∈ overturnedPair, g.legs ≠ [] ∧ g.legs.Pairwise (· < ·) ∧ g.angle.Distinct) ∧
    ∃ c d, ofGadgets 3 overturnedPair = .ok c ∧
      (addAllSteps overturnedPair).runFrom { size := 3 } = (.ok (), d) ∧
      c.same d = .ok true ∧ ∀ t, ((count t).runFrom c).1 = ((count t).runFrom d).1 := by
  have hgs : ∀ g ∈ overturnedPair, g.legs ≠ [] ∧ g.legs.Pairwise (· < ·) ∧ g.angle.Distinct := by
    simp [overturnedPair, AngleExpr.Distinct, combine_distinct]
  obtain ⟨hmade, happended, -, hboth⟩ := made_iff_appended (n := 3) hgs
  obtain ⟨c, hc⟩ := hmade.mpr (by simp [overturnedPair])
  obtain ⟨d, hd⟩ := happended.mpr (by simp [overturnedPair])
  obtain ⟨hsame, -, -, hcount⟩ := hboth c d hc hd
  exact ⟨hgs, c, d, hc, hd, hsame, hcount⟩

def lastLeg : Gadget where
  basis := .z
  angle := .angle ⟨1 / 4⟩
  legs := [-1]

/-- A circuit that is made at once refuses the gadget, and one to which it is appended takes it as one on
the last qubit. -/
theorem lastLeg_appended_only :
    ofGadgets 2 [lastLeg] = .error (.strayLeg (.int (-1)) 0 2) ∧
    ∃ d, (addAllSteps [lastLeg]).runFrom { size := 2 } = (.ok (), d) ∧
      d.gadgets = .ok [{ basis := .z, angle := .angle ⟨1 / 4⟩, legs := [1] }] :=
  ⟨rfl, _, rfl, rfl⟩

end PhaseCircuit

open PhaseCircuit

namespace Cell

variable {n : Nat} {k : Cell}

def inverse (k : Cell) : Cell :=
  { k with angle := reduceAngle k.angle.neg }

lemma column_eq (hk : k.Proper n) : (cellOf n k.gadget).column = k.column := by
  rw [cellOf_cell hk]

lemma cellOf_neg (hk : k.Proper n) :
    cellOf n { k.gadget with angle := k.gadget.angle.neg } = k.inverse :=
  congrArg (fun col => (⟨k.basis, reduceAngle k.angle.neg, col⟩ : Cell)) (column_eq hk)

lemma appendedCell_self (hk : k.Proper n) : appendedCell n k.gadget = k :=
  congrArg (fun col => (⟨k.basis, k.angle, col⟩ : Cell)) (column_eq hk)

lemma isAngle_inverse (ha : k.angle.isAngle) : k.inverse.angle.isAngle :=
  isAngle_reduceAngle (isAngle_neg ha)

lemma equal_of_angle {e : AngleExpr} (h : e.equal k.angle) :
    ({ k with angle := e } : Cell).gadget.equal k.gadget := by
  simp [Gadget.equal, Cell.gadget, h]

lemma equal_self (ha : k.angle.isAngle) : k.gadget.equal k.gadget := by
  refine equal_of_angle ?_
  cases hk : k.angle with
  | angle a => simp [equal, Angle.same]
  | _ => simp [hk, isAngle] at ha

lemma inverse_inverse_equal (ha : k.angle.isAngle) : k.inverse.inverse.gadget.equal k.gadget := by
  refine equal_of_angle (k := k) (e := k.inverse.inverse.angle) ?_
  cases hk : k.angle with
  | angle a =>
    have hreduced : a.neg.normalize.neg.reduced = a.reduced := by
      obtain ⟨i, hi⟩ := a.neg.reduced_add_turns
      obtain ⟨j, hj⟩ := a.reduced_add_turns
      rw [Angle.reduced_eq_iff a.reduced_nonneg a.reduced_lt_two]
      refine ⟨i + j, ?_⟩
      simp only [Angle.neg, Angle.normalize] at hi ⊢
      push_cast
      linarith
    simp [inverse, hk, AngleExpr.neg, reduceAngle, equal, Angle.same, hreduced]
  | _ => simp [hk, isAngle] at ha

/-- A gadget and the one of the opposite turn cancel, up to the phase of full turns. -/
theorem unitary_mul_inverse (ha : k.angle.isAngle) :
    UpToPhase (k.gadget.unitary n radians * k.inverse.gadget.unitary n radians) 1 ∧
    UpToPhase (k.inverse.gadget.unitary n radians * k.gadget.unitary n radians) 1 := by
  have hp := stringOn_mul_self k.basis (Bits.ofLegs k.gadget.legs : Bits n)
  have hturn : k.gadget.unitary n radians =
      turnAbout k.angle.radians (stringOn k.basis (Bits.ofLegs k.gadget.legs)) :=
    Gadget.unitary_eq _ _
  have hback : UpToPhase (k.inverse.gadget.unitary n radians)
      (turnAbout (-k.angle.radians) (stringOn k.basis (Bits.ofLegs k.gadget.legs))) := by
    rw [← radians_neg ha, Gadget.unitary_eq]
    exact turnAbout_reduceAngle (isAngle_neg ha) hp
  rw [hturn]
  constructor
  · refine ((UpToPhase.refl _).mul hback).trans (UpToPhase.of_eq ?_)
    rw [← turnAbout_add hp, add_neg_cancel, turnAbout_zero]
  · refine (hback.mul (UpToPhase.refl _)).trans (UpToPhase.of_eq ?_)
    rw [← turnAbout_add hp, neg_add_cancel, turnAbout_zero]

end Cell

lemma inOrder_cancel {α : Type} {n : Nat} {u v : α → Operator n} (xs : List α)
    (h : ∀ x ∈ xs, UpToPhase (v x * u x) 1) :
    UpToPhase (inOrder (xs.map u ++ xs.reverse.map v)) 1 := by
  induction xs with
  | nil => exact UpToPhase.refl 1
  | cons x xs ih =>
    obtain ⟨hx, hxs⟩ := forall_mem_cons.mp h
    have hmiddle := ((UpToPhase.refl (v x)).mul (ih hxs)).mul (UpToPhase.refl (u x))
    rw [mul_one] at hmiddle
    refine UpToPhase.trans (UpToPhase.of_eq ?_) (hmiddle.trans hx)
    rw [map_cons, reverse_cons, map_append, cons_append, ← append_assoc,
      inOrder_cons, inOrder_append]
    simp

namespace PhaseCircuit

variable {a b : PhaseCircuit}

def followedBy (a b : PhaseCircuit) : Except Error PhaseCircuit := do
  a.andThen (← b.gadgets)

variable (ha : a.WellFormed)
include ha

lemma dagger_cells : ∃ d, a.dagger = .ok d ∧ d.WellFormed ∧ d.size = a.size ∧
      d.cells = a.cells.reverse.map Cell.inverse := by
  have hfits : ∀ g ∈ (a.cells.map Cell.gadget).reverse.map
      (fun g => { g with angle := g.angle.neg }), g.Fits a.size := by
    intro g hg
    obtain ⟨h, hh, rfl⟩ := mem_map.mp hg
    obtain ⟨k, hk, rfl⟩ := mem_map.mp (mem_reverse.mp hh)
    exact (cell_legsOn (ha.cells_proper k hk)).fits
  obtain ⟨d, hd, hwf, hsize, hcells⟩ := ofGadgets_ok hfits
  refine ⟨d, ?_, hwf, hsize, ?_⟩
  · rw [dagger, rebuilt, gadgets_eq ha, ok_bind]
    exact hd
  · rw [hcells, ← map_reverse, map_map, map_map]
    refine map_congr_left fun k hk => ?_
    exact Cell.cellOf_neg (ha.cells_proper k (mem_reverse.mp hk))

lemma addAll_gadgets {ks : List Cell} (hks : ∀ k ∈ ks, k.Proper a.size) :
    ∃ d, a.addAll (ks.map Cell.gadget) = .ok d ∧ d.WellFormed ∧ d.size = a.size ∧
      d.cells = a.cells ++ ks := by
  have hlegs : ∀ k ∈ ks, LegsOn a.size k.gadget.legs := fun k hk => cell_legsOn (hks k hk)
  have hwrapped : ∀ g ∈ ks.map Cell.gadget,
      g.legs ≠ [] ∧ ∀ q ∈ g.legs, -(a.size : Int) ≤ q ∧ q < a.size := by
    intro g hg
    obtain ⟨k, hk, rfl⟩ := mem_map.mp hg
    refine ⟨(hlegs k hk).ne_nil, fun q hq => ?_⟩
    have hrange := (hlegs k hk).range q hq
    omega
  obtain ⟨d, hd, hwf, hsize, hcells⟩ := addAll_spec ha hwrapped
  refine ⟨d, hd, hwf, hsize, hcells.trans (congrArg _ ?_)⟩
  rw [map_map]
  refine (map_congr_left fun k hk => ?_).trans (map_id _)
  exact (wrappedCell_eq (hlegs k hk).fits).trans (Cell.appendedCell_self (hks k hk))

lemma followedBy_cells (hb : b.WellFormed) (hsize : a.size = b.size) :
    ∃ d, a.followedBy b = .ok d ∧ d.WellFormed ∧ d.size = a.size ∧ d.cells = a.cells ++ b.cells := by
  obtain ⟨c, hc, hcw, hcs, hcells⟩ := addAll_gadgets (wellFormed_empty a.size) ha.cells_proper
  have hproper : ∀ k ∈ b.cells, k.Proper c.size := by
    rw [hcs, hsize]
    exact hb.cells_proper
  obtain ⟨d, hd, hdw, hds, hdcells⟩ := addAll_gadgets hcw hproper
  refine ⟨d, ?_, hdw, hds.trans hcs, ?_⟩
  · rw [followedBy, gadgets_eq hb, ok_bind, andThen, gadgets_eq ha, ok_bind, hc, ok_bind, hd]
  · rw [hdcells, hcells]
    rfl

lemma same_of_cells (hb : b.WellFormed) (hsize : a.size = b.size)
    (h : Forall₂ (fun k l => k.gadget.equal l.gadget) a.cells b.cells) :
    a.same b = .ok true := by
  rw [same_eq ha hb hsize h.length_eq]
  refine congrArg Except.ok (all_eq_true.mpr fun p hp => ?_)
  exact forall₂_iff_zip.mp h |>.2 hp

omit ha

/-- The gadgets of a circuit multiply to the identity, up to a phase. -/
def DoesNothing (c : PhaseCircuit) : Prop :=
  ∃ gs, c.gadgets = .ok gs ∧
    UpToPhase (inOrder (gs.map (Gadget.unitary c.size radians))) 1

lemma doesNothing_of_cells {c : PhaseCircuit} (hc : c.WellFormed)
    (h : UpToPhase (inOrder (c.cells.map fun k => k.gadget.unitary c.size radians)) 1) :
    c.DoesNothing := by
  refine ⟨_, gadgets_eq hc, ?_⟩
  rw [map_map]
  exact h

/-- The inverse circuit undoes a circuit on both sides, the inverse of two circuits after each other is
that of the second before that of the first, and the inverse of the inverse is the circuit itself. -/
theorem dagger_inverts (ha : a.WellFormed) (hb : b.WellFormed) (hsize : a.size = b.size)
    (hna : ∀ e ∈ a.angles, e.isAngle = true) (hnb : ∀ e ∈ b.angles, e.isAngle = true) :
    ∃ a' b', a.dagger = .ok a' ∧ b.dagger = .ok b' ∧
      (∃ c, a.followedBy a' = .ok c ∧ c.DoesNothing) ∧
      (∃ c, a'.followedBy a = .ok c ∧ c.DoesNothing) ∧
      (∃ c c' d, a.followedBy b = .ok c ∧ c.dagger = .ok c' ∧ b'.followedBy a' = .ok d ∧
        c'.same d = .ok true) ∧
      ∃ a'', a'.dagger = .ok a'' ∧ a''.same a = .ok true := by
  have hnumeric : ∀ {c : PhaseCircuit}, c.WellFormed → (∀ e ∈ c.angles, e.isAngle = true) →
      ∀ k ∈ c.cells, k.angle.isAngle = true := fun hc hnum k hk =>
    (gadgets_numeric hc hnum k.gadget (mem_map_of_mem hk)).2
  have hka := hnumeric ha hna
  have hkb := hnumeric hb hnb
  obtain ⟨a', ha', haw, has, hac⟩ := dagger_cells ha
  obtain ⟨b', hb', hbw, hbs, hbc⟩ := dagger_cells hb
  refine ⟨a', b', ha', hb', ?_, ?_, ?_, ?_⟩
  · obtain ⟨c, hc, hcw, -, hcells⟩ := followedBy_cells ha haw has.symm
    refine ⟨c, hc, doesNothing_of_cells hcw ?_⟩
    rw [hcells, hac, map_append, map_map]
    exact inOrder_cancel a.cells fun k hk => (Cell.unitary_mul_inverse (hka k hk)).2
  · obtain ⟨c, hc, hcw, -, hcells⟩ := followedBy_cells haw ha has
    refine ⟨c, hc, doesNothing_of_cells hcw ?_⟩
    have hcancel := inOrder_cancel (n := c.size) a.cells.reverse fun k hk =>
      (Cell.unitary_mul_inverse (hka k (mem_reverse.mp hk))).1
    rw [reverse_reverse] at hcancel
    rw [hcells, hac, map_append, map_map]
    exact hcancel
  · obtain ⟨c, hc, hcw, hcs, hcc⟩ := followedBy_cells ha hb hsize
    obtain ⟨c', hc', hcw', hcs', hcc'⟩ := dagger_cells hcw
    obtain ⟨d, hd, hdw, hds, hdc⟩ := followedBy_cells hbw haw (by rw [hbs, has, hsize])
    refine ⟨c, c', d, hc, hc', hd, same_of_cells hcw' hdw (by rw [hcs', hcs, hds, hbs, hsize]) ?_⟩
    have hcells : c'.cells = d.cells := by
      rw [hcc', hcc, hdc, hbc, hac, reverse_append, map_append]
    rw [hcells, forall₂_same, hdc, hbc, hac]
    intro k hk
    rcases mem_append.mp hk with hk | hk
    · obtain ⟨l, hl, rfl⟩ := mem_map.mp hk
      exact Cell.equal_self (Cell.isAngle_inverse (hkb l (mem_reverse.mp hl)))
    · obtain ⟨l, hl, rfl⟩ := mem_map.mp hk
      exact Cell.equal_self (Cell.isAngle_inverse (hka l (mem_reverse.mp hl)))
  · obtain ⟨a'', ha'', haw', has', hac'⟩ := dagger_cells haw
    refine ⟨a'', ha'', same_of_cells haw' ha (has'.trans has) ?_⟩
    rw [hac', hac, ← map_reverse, reverse_reverse, map_map, forall₂_map_left_iff,
      forall₂_same]
    exact fun k hk => Cell.inverse_inverse_equal (hka k hk)

def overTurned : PhaseCircuit :=
  (({ size := 2 } : PhaseCircuit).push { basis := .z, angle := .angle ⟨9 / 4⟩, legs := [0, 1] }
    [true, true] (.angle ⟨9 / 4⟩)).push { basis := .x, angle := .angle ⟨1 / 4⟩, legs := [0] }
    [true, false] (.angle ⟨1 / 4⟩)

lemma overTurned_wellFormed : overTurned.WellFormed := by
  simp [overTurned]

lemma overTurned_angles : overTurned.angles = [.angle ⟨9 / 4⟩, .angle ⟨1 / 4⟩] :=
  rfl

def backTurned : PhaseCircuit :=
  ({ size := 2 } : PhaseCircuit).push { basis := .z, angle := .angle ⟨-1 / 2⟩, legs := [0] }
    [true, false] (.angle ⟨-1 / 2⟩)

theorem overTurned_dagger :
    overTurned.WellFormed ∧ backTurned.WellFormed ∧ overTurned.size = backTurned.size ∧
    (∀ e ∈ overTurned.angles, e.isAngle = true) ∧ (∀ e ∈ backTurned.angles, e.isAngle = true) ∧
    ∃ a' b', overTurned.dagger = .ok a' ∧ backTurned.dagger = .ok b' ∧
      (∃ c, overTurned.followedBy a' = .ok c ∧ c.DoesNothing) ∧
      (∃ c, a'.followedBy overTurned = .ok c ∧ c.DoesNothing) ∧
      (∃ c c' d, overTurned.followedBy backTurned = .ok c ∧ c.dagger = .ok c' ∧
        b'.followedBy a' = .ok d ∧ c'.same d = .ok true) ∧
      ∃ a'', a'.dagger = .ok a'' ∧ a''.same overTurned = .ok true := by
  have hover := overTurned_wellFormed
  have hback : backTurned.WellFormed := by simp [backTurned]
  have hnum : ∀ e ∈ overTurned.angles, e.isAngle = true := by
    simp [overTurned_angles, isAngle]
  have hnum' : ∀ e ∈ backTurned.angles, e.isAngle = true := by
    rw [show backTurned.angles = [.angle ⟨-1 / 2⟩] from rfl]
    simp [isAngle]
  exact ⟨hover, hback, rfl, hnum, hnum', dagger_inverts hover hback rfl hnum hnum'⟩

end PhaseCircuit

end GadgetCircuits
