import GadgetCircuits.Proofs.CXCost
import GadgetCircuits.Proofs.CircuitSteps
import GadgetCircuits.Proofs.Flips
import GadgetCircuits.Proofs.Synthesis

/-!
The legs that a circuit remembers never show. Through every sequence of operations the tables of both bases
lead to each other and back, and what is remembered of a column are its legs; so a circuit has the count of
one that is made afresh of its gadgets, whatever trees the legs are joined by.
-/

namespace GadgetCircuits

open List PhaseCircuit Update GadgetTable

variable {n : Nat}

lemma GadgetTable.legsAt_remember (t : GadgetTable) (j k : Nat) :
    legsAt (t.remember j (legsAt t j)) k = legsAt t k := by
  have hcol : (t.remember j (legsAt t j)).column k = t.column k := rfl
  by_cases hj : j < t.knownLegs.length
  · by_cases hjk : j = k
    · subst hjk
      have hknown : (t.remember j (legsAt t j)).knownLegs[j]? =
          some (some (legsAt t j)) := getElem?_set_self hj
      rw [legsAt, hknown]
    · have hknown : (t.remember j (legsAt t j)).knownLegs[k]? = t.knownLegs[k]? :=
        getElem?_set_ne hjk
      rw [legsAt, hknown, hcol, legsAt]
  · have hsame : t.remember j (legsAt t j) = t := by
      rw [remember, set_eq_of_length_le (Nat.le_of_not_lt hj)]
    rw [hsame]

lemma GadgetTable.LegsKnown.remembered {t : GadgetTable} (ht : t.LegsKnown) : Forall₂
      (fun column known => known = none ∨ known = some ((legsOf column).map Int.ofNat))
      t.columns t.knownLegs := by
  refine forall₂_iff_get.mpr ⟨ht.length.symm, fun j hj hj' => ?_⟩
  have hlegs := ht.legs j
  rw [legsAt, column, getElem?_eq_getElem hj,
    getElem?_eq_getElem hj'] at hlegs
  simp only [get_eq_getElem]
  cases hknown : t.knownLegs[j] with
  | none => exact .inl rfl
  | some legs =>
    rw [hknown] at hlegs
    exact .inr (congrArg some hlegs)

namespace PhaseCircuit

variable {c d : PhaseCircuit} (t : Topology)

/-- The circuit `d` is `c` after some legs were looked up. -/
structure Recalls (c d : PhaseCircuit) : Prop where
  size : d.size = c.size
  angles : d.angles = c.angles
  places : d.places = c.places
  columns : ∀ b, (d.table b).columns = (c.table b).columns
  positions : ∀ b, (d.table b).positions = (c.table b).positions
  length : ∀ b, (d.table b).knownLegs.length = (c.table b).knownLegs.length
  legs : ∀ b j, legsAt (d.table b) j = legsAt (c.table b) j

namespace Recalls

lemma refl (c : PhaseCircuit) : c.Recalls c :=
  ⟨rfl, rfl, rfl, fun _ => rfl, fun _ => rfl, fun _ => rfl, fun _ _ => rfl⟩

lemma trans {e : PhaseCircuit} (h : c.Recalls d) (h' : d.Recalls e) : c.Recalls e where
  size := h'.size.trans h.size
  angles := h'.angles.trans h.angles
  places := h'.places.trans h.places
  columns := fun b => (h'.columns b).trans (h.columns b)
  positions := fun b => (h'.positions b).trans (h.positions b)
  length := fun b => (h'.length b).trans (h.length b)
  legs := fun b j => (h'.legs b j).trans (h.legs b j)

lemma remember (c : PhaseCircuit) (b : Basis) (j : Nat) :
    c.Recalls (c.mapTable b fun table => table.remember j (legsAt table j)) where
  size := by cases b <;> rfl
  angles := by cases b <;> rfl
  places := by cases b <;> rfl
  columns := by
    intro b'
    cases b <;> cases b' <;> rfl
  positions := by
    intro b'
    cases b <;> cases b' <;> rfl
  length := by
    intro b'
    cases b <;> cases b' <;> simp [mapTable, table, GadgetTable.remember]
  legs := by
    intro b' k
    cases b <;> cases b'
    · exact c.z.legsAt_remember j k
    · rfl
    · rfl
    · exact c.x.legsAt_remember j k

lemma columnCount [GraphLibrary] (h : c.Recalls d) (t : Topology) (b : Basis) (j : Nat) :
    d.columnCount t b j = c.columnCount t b j := by
  unfold PhaseCircuit.columnCount columnAngle
  rw [h.legs, h.positions, h.angles]

end Recalls

lemma countColumn_run [GraphLibrary] (c : PhaseCircuit) (t : Topology) (b : Basis) (j : Nat) :
    ∃ d, (countColumn t b j).runFrom c = (c.columnCount t b j, d) ∧ c.Recalls d := by
  unfold countColumn
  cases hangle : (c.columnAngle b j).isZeroOrPi with
  | true =>
    refine ⟨c, ?_, .refl c⟩
    simp [runFrom_bind, hangle]
  | false =>
    refine ⟨_, ?_, .remember c b j⟩
    simp [runFrom_bind, hangle]

lemma countColumns_run [GraphLibrary] (ps : List (Basis × Nat)) (m : Nat) {c d : PhaseCircuit}
    (hd : c.Recalls d) :
    ∃ e, (ps.foldlM (fun n p => do return n + (← countColumn t p.1 p.2)) m :
        Update PhaseCircuit Nat).runFrom d =
      (ps.foldlM (fun n p => do return n + (← c.columnCount t p.1 p.2)) m, e) ∧ c.Recalls e := by
  induction ps generalizing m d with
  | nil => exact ⟨d, rfl, hd⟩
  | cons p ps ih =>
    obtain ⟨d', hrun, hrecall⟩ := countColumn_run d t p.1 p.2
    rw [hd.columnCount] at hrun
    simp only [foldlM_cons, runFrom_bind, hrun]
    cases hcount : c.columnCount t p.1 p.2 with
    | error e => exact ⟨d', rfl, hd.trans hrecall⟩
    | ok k => exact ih (m + k) (hd.trans hrecall)

lemma foldlM_count_add {α : Type} (f : α → Except Error Nat) (xs : List α) (m : Nat) :
    xs.foldlM (fun n x => do return n + (← f x)) m =
      (do return m + (← xs.foldlM (fun n x => do return n + (← f x)) 0)) := by
  induction xs generalizing m with
  | nil => rfl
  | cons x xs ih =>
    rw [foldlM_cons, foldlM_cons]
    cases f x with
    | error e => rfl
    | ok k =>
      have hm := ih (m + k)
      have h0 := ih (0 + k)
      simp only [ok_bind, pure_bind] at hm h0 ⊢
      rw [hm, h0]
      cases xs.foldlM (fun n x => do return n + (← f x)) 0 with
      | error e => rfl
      | ok l =>
        simp only [ok_bind]
        exact congrArg Except.ok (by omega)

lemma count_run [GraphLibrary] (c : PhaseCircuit) :
    ∃ d, (count t).runFrom c = (c.cxCount t, d) ∧ c.Recalls d := by
  obtain ⟨d, hrun, hrecall⟩ := countColumns_run t ([Basis.z, .x].flatMap fun b =>
    (range (c.table b).columns.length).map (Prod.mk b)) 0 (.refl c)
  refine ⟨d, ?_, hrecall⟩
  rw [count, runFrom_bind, runFrom_get]
  refine hrun.trans ?_
  congr 1
  simp only [flatMap_cons, flatMap_nil, append_nil, foldlM_append, foldlM_map, cxCount, tableCount]
  refine congrArg _ (funext fun m => ?_)
  exact foldlM_count_add _ _ m

def cellCount [GraphLibrary] (t : Topology) (k : Cell) : Except Error Nat :=
  if k.angle.isZeroOrPi then .ok 0 else treeCount t k.gadget.legs

/-- Tables that lead to each other, remembered legs that are those of the columns, and the columns of each
basis in the order of the gadgets. -/
structure Consistent (c : PhaseCircuit) : Prop where
  wellFormed : c.WellFormed
  known : c.LegsKnown
  ordered : ∀ b, c.places.filter (fun p => p.1 == b) =
    (List.range (c.table b).columns.length).map (Prod.mk b)

lemma Consistent.columnCount_eq [GraphLibrary] (hc : c.Consistent) (t : Topology) (b : Basis) (j : Nat) :
    c.columnCount t b j = cellCount t (c.cell (b, j)) := by
  have hangle : (c.cell (b, j)).angle = c.columnAngle b j := rfl
  have hlegs : (c.cell (b, j)).gadget.legs = legsAt (c.table b) j := ((hc.known b).legs j).symm
  rw [columnCount, cellCount, hangle, hlegs, treeCount]
  cases (c.columnAngle b j).isZeroOrPi <;> simp

lemma Consistent.cells_filter (hc : c.Consistent) (b : Basis) :
    c.cells.filter (fun k => k.basis == b) =
      (range (c.table b).columns.length).map fun j => c.cell (b, j) := by
  rw [cells_eq_map hc.wellFormed, filter_map]
  have hbasis : ((fun k : Cell => k.basis == b) ∘ c.cell) = fun p => p.1 == b := rfl
  rw [hbasis, hc.ordered b, map_map]
  rfl

def cellsCount [GraphLibrary] (t : Topology) (ks : List Cell) : Except Error Nat := do
  let n ← (ks.filter fun k => k.basis == .z).foldlM (fun n k => do return n + (← cellCount t k)) 0
  return n + (← (ks.filter fun k => k.basis == .x).foldlM (fun n k => do return n + (← cellCount t k)) 0)

lemma Consistent.cxCount_eq [GraphLibrary] (hc : c.Consistent) (t : Topology) :
    c.cxCount t = cellsCount t c.cells := by
  simp only [cxCount, cellsCount, tableCount, hc.cells_filter, foldlM_map, hc.columnCount_eq]

lemma cellOf_cell {k : Cell} (hk : k.Proper n) :
    cellOf n k.gadget = { k with angle := reduceAngle k.angle } := by
  have hcolumn : (cellOf n k.gadget).column = k.column := by
    apply ext_getElem?
    intro i
    by_cases hi : i < n
    · have hmem : (i : Int) ∈ k.gadget.legs ↔ k.column[i]? = some true := by
        rw [← mem_legsOf]
        exact mem_map_of_injective fun _ _ h => Int.ofNat.inj h
      have hlt : i < k.column.length := by rw [hk.1]; exact hi
      rw [getElem?_eq_getElem hlt, Option.some.injEq] at hmem
      simp only [cellOf, getElem?_map, getElem?_range hi, Option.map_some,
        getElem?_eq_getElem hlt, Option.some.injEq]
      rw [Bool.eq_iff_iff, contains_iff_mem, hmem]
    · have hlength : (cellOf n k.gadget).column.length = n := by simp [cellOf]
      rw [getElem?_eq_none (by rw [hlength]; omega), getElem?_eq_none (by rw [hk.1]; omega)]
  rw [← hcolumn]
  rfl

lemma cellsCount_reduced [GraphLibrary] (ks : List Cell) :
    cellsCount t (ks.map fun k => { k with angle := reduceAngle k.angle }) = cellsCount t ks := by
  have hcell : ∀ k : Cell, cellCount t { k with angle := reduceAngle k.angle } = cellCount t k := by
    intro k
    have hzero : (reduceAngle k.angle).isZeroOrPi = k.angle.isZeroOrPi := by
      cases k.angle <;> simp [reduceAngle, AngleExpr.isZeroOrPi, AngleExpr.isZero, AngleExpr.isPi,
        Angle.isZero, Angle.isPi]
    rw [cellCount, cellCount, hzero]
    rfl
  simp only [cellsCount, filter_map, foldlM_map, hcell]
  rfl

variable (hc : c.Consistent)
include hc

lemma Consistent.push {g : Gadget} (hlegs : LegsOn c.size g.legs)
    (hsorted : g.legs.Pairwise (· < ·)) (a : AngleExpr) :
    (c.push g (cellOf c.size g).column a).Consistent where
  wellFormed := push_wellFormed hc.wellFormed g a (cellOf_proper hlegs.fits).1
    (cellOf_proper hlegs.fits).2
  known := push_legsKnown hc.known (congrArg Gadget.legs (cellOf_gadget hlegs hsorted)) a
  ordered := by
    intro b
    have hplaces : (c.push g (cellOf c.size g).column a).places =
      c.places ++ [(g.basis, (c.table g.basis).columns.length)] := rfl
    rw [hplaces, filter_append, hc.ordered b, push_table]
    by_cases hb : b = g.basis
    · subst hb
      simp [GadgetTable.push, range_succ]
    · grind

lemma Consistent.conjugate {ctrl trgt : Nat} (hne : ctrl ≠ trgt) :
    (c.conjugate ctrl trgt).Consistent where
  wellFormed := conjugate_wellFormed (g := (ctrl, trgt)) hc.wellFormed hne
  known := conjugate_legsKnown hc.known hne
  ordered := by
    intro b
    have hlength : ((c.conjugate ctrl trgt).table b).columns.length = (c.table b).columns.length := by
      cases b <;> simp [PhaseCircuit.conjugate, table, addRow_columns]
    rw [hlength]
    exact hc.ordered b

lemma Consistent.withAngles {as : List AngleExpr}
    (has : as.length = c.angles.length) : Consistent { c with angles := as } where
  wellFormed := ⟨hc.wellFormed.places_length.trans has.symm, hc.wellFormed.position,
    hc.wellFormed.columns_length, hc.wellFormed.column⟩
  known := hc.known
  ordered := hc.ordered

lemma Consistent.recalls (h : c.Recalls d) : d.Consistent where
  wellFormed := by
    refine ⟨?_, ?_, ?_, ?_⟩
    · rw [h.places, h.angles, hc.wellFormed.places_length]
    · intro b j i
      rw [h.positions, h.places, hc.wellFormed.position]
    · intro b
      rw [h.columns, h.positions, hc.wellFormed.columns_length]
    · intro b col hcol
      rw [h.columns] at hcol
      rw [h.size]
      exact hc.wellFormed.column b col hcol
  known := by
    intro b
    refine ⟨by rw [h.length, h.columns, (hc.known b).length], fun j => ?_⟩
    rw [h.legs, (hc.known b).legs, column, column, h.columns]
  ordered := by
    intro b
    rw [h.places, h.columns, hc.ordered b]

omit hc

lemma setAngles_cases {angles : List AngleOperand} (h : c.setAngles angles = .ok d) :
    ∃ as : List AngleExpr, as.length = c.angles.length ∧ d = { c with angles := as } := by
  unfold setAngles at h
  obtain ⟨es, -, h⟩ := bind_eq_ok.mp h
  by_cases hlen : es.length = c.numGadgets
  · simp only [hlen, ne_eq, not_true_eq_false, if_false] at h
    exact ⟨es.map reduceAngle, by simpa [numGadgets] using hlen, (Except.ok.inj h).symm⟩
  · simp only [hlen, ne_eq, not_false_eq_true, if_true] at h
    cases h

lemma consistent_empty (n : Nat) : Consistent { size := n } :=
  ⟨wellFormed_empty n, legsKnown_empty n, fun b => by cases b <;> rfl⟩

lemma ofGadgets_consistent {gs : List Gadget} (h : ofGadgets n gs = .ok c)
    (hgs : ∀ g ∈ gs, LegsOn n g.legs ∧ g.legs.Pairwise (· < ·)) : c.Consistent ∧ c.size = n := by
  refine ofGadgets_induction (p := fun c => c.Consistent ∧ c.size = n) h ⟨consistent_empty n, rfl⟩ ?_
  rintro g hg d ⟨hd, rfl⟩
  exact ⟨hd.push (hgs g hg).1 (hgs g hg).2 _, push_size _ _ _ _⟩

lemma Consistent.count_fresh [GraphLibrary] (hc : c.Consistent) (t : Topology) :
    ∃ ds e, c.gadgets = .ok ds ∧ ofGadgets c.size ds = .ok e ∧
      ((count t).runFrom c).1 = ((count t).runFrom e).1 := by
  have hproper := hc.wellFormed.cells_proper
  have hlegs : ∀ g ∈ c.cells.map Cell.gadget, LegsOn c.size g.legs ∧ g.legs.Pairwise (· < ·) := by
    intro g hg
    obtain ⟨k, hk, rfl⟩ := mem_map.mp hg
    exact ⟨cell_legsOn (hproper k hk), gadget_legs_sorted k⟩
  obtain ⟨e, he, -, -, hcells⟩ := ofGadgets_ok fun g hg => (hlegs g hg).1.fits
  obtain ⟨hec, -⟩ := ofGadgets_consistent he hlegs
  refine ⟨_, e, gadgets_eq hc.wellFormed, he, ?_⟩
  have hreduced : e.cells = c.cells.map fun k => { k with angle := reduceAngle k.angle } := by
    rw [hcells, map_map]
    exact map_congr_left fun k hk => cellOf_cell (hproper k hk)
  obtain ⟨c', hrun, -⟩ := count_run t c
  obtain ⟨e', hrun', -⟩ := count_run t e
  rw [hrun, hrun', hc.cxCount_eq, hec.cxCount_eq, hreduced, cellsCount_reduced]

/-- What can be done to a circuit and its remembered legs. -/
inductive Operation where
  | add (g : Gadget)
  | conjugate (ctrl trgt : Nat)
  | setAngles (angles : List AngleOperand)
  | count (t : Topology)

def Operation.perform [GraphLibrary] : Operation → Update PhaseCircuit (Option Nat)
  | .add g => do
    Update.replace fun c => c.add g
    return none
  | .conjugate ctrl trgt => do
    Update.replace fun c => c.conjugateValues (.ofNat ctrl) (.ofNat trgt)
    return none
  | .setAngles angles => do
    Update.replace fun c => c.setAngles angles
    return none
  | .count t => do return some (← PhaseCircuit.count t)

/-- Gadgets with ascending legs on the qubits, and gates on two of the qubits. -/
def Operation.InRange (n : Nat) : Operation → Prop
  | .add g => LegsOn n g.legs ∧ g.legs.Pairwise (· < ·)
  | .conjugate ctrl trgt => ctrl < n ∧ trgt < n ∧ ctrl ≠ trgt
  | .setAngles _ => True
  | .count _ => True

def after [GraphLibrary] (c : PhaseCircuit) (ops : List Operation) : PhaseCircuit :=
  ops.foldl (fun c op => (op.perform.runFrom c).2) c

lemma replace_then {f : PhaseCircuit → Except Error PhaseCircuit} {p : PhaseCircuit → Prop}
    (hc : p c) (hf : ∀ d, f c = .ok d → p d) :
    p ((do Update.replace f; return none : Update PhaseCircuit (Option Nat)).runFrom c).2 := by
  cases h : f c with
  | error e =>
    rw [runFrom_bind, runFrom_replace_error h]
    exact hc
  | ok d =>
    rw [runFrom_bind, runFrom_replace h]
    exact hf d h

lemma Consistent.perform [GraphLibrary] (hc : c.Consistent) {op : Operation}
    (hop : op.InRange c.size) :
    (op.perform.runFrom c).2.Consistent ∧ (op.perform.runFrom c).2.size = c.size := by
  cases op with
  | add g =>
    refine replace_then (p := fun d => d.Consistent ∧ d.size = c.size) ⟨hc, rfl⟩ fun d hd => ?_
    rw [PhaseCircuit.add, columnOf_ok hop.1.fits] at hd
    cases hd
    exact ⟨hc.push hop.1 hop.2 g.angle, push_size _ _ _ _⟩
  | conjugate ctrl trgt =>
    refine replace_then (p := fun d => d.Consistent ∧ d.size = c.size) ⟨hc, rfl⟩ fun d hd => ?_
    rw [ConjugatedCircuit.conjugateValues_ok (g := (ctrl, trgt)) hop.1 hop.2.1] at hd
    cases hd
    exact ⟨hc.conjugate hop.2.2, rfl⟩
  | setAngles angles =>
    refine replace_then (p := fun d => d.Consistent ∧ d.size = c.size) ⟨hc, rfl⟩ fun d hd => ?_
    obtain ⟨as, has, rfl⟩ := setAngles_cases hd
    exact ⟨hc.withAngles has, rfl⟩
  | count t =>
    obtain ⟨d, hrun, hrecall⟩ := count_run t c
    have hstate : ((Operation.count t).perform.runFrom c).2 = d := by
      rw [Operation.perform, runFrom_bind, hrun]
      cases c.cxCount t <;> rfl
    rw [hstate]
    exact ⟨hc.recalls hrecall, hrecall.size⟩

lemma Consistent.after [GraphLibrary] (hc : c.Consistent) {ops : List Operation}
    (hops : ∀ op ∈ ops, op.InRange c.size) :
    (c.after ops).Consistent ∧ (c.after ops).size = c.size := by
  induction ops generalizing c with
  | nil => exact ⟨hc, rfl⟩
  | cons op ops ih =>
    obtain ⟨hop, hops⟩ := forall_mem_cons.mp hops
    obtain ⟨hd, hsize⟩ := hc.perform hop
    obtain ⟨he, hsize'⟩ := ih hd fun op' hop' => hsize ▸ hops op' hop'
    exact ⟨he, hsize'.trans hsize⟩

/-- Whatever is done to a circuit, its places and positions lead to each other and back, what it remembers
are the legs of its columns, and it counts what a circuit made afresh of its gadgets counts. -/
theorem after_count_fresh [GraphLibrary] {gs : List Gadget} (hmade : ofGadgets n gs = .ok c)
    (hgs : ∀ g ∈ gs, g.legs ≠ [] ∧ g.legs.Pairwise (· < ·)) {ops : List Operation}
    (hops : ∀ op ∈ ops, op.InRange n) :
    (∀ (b : Basis) (j i : Nat),
      ((c.after ops).table b).positions[j]? = some i ↔ (c.after ops).places[i]? = some (b, j)) ∧
    (∀ b, List.Forall₂
      (fun column known => known = none ∨ known = some ((GadgetTable.legsOf column).map Int.ofNat))
      ((c.after ops).table b).columns ((c.after ops).table b).knownLegs) ∧
    ∀ t, ∃ ds e, (c.after ops).gadgets = .ok ds ∧ ofGadgets n ds = .ok e ∧
      ((count t).runFrom (c.after ops)).1 = ((count t).runFrom e).1 := by
  have hfits := ofGadgets_fits hmade fun g hg => (hgs g hg).1
  obtain ⟨hc, rfl⟩ := ofGadgets_consistent hmade fun g hg =>
    ⟨⟨(hgs g hg).2.imp Int.ne_of_lt, (hgs g hg).1, (hfits g hg).2⟩, (hgs g hg).2⟩
  obtain ⟨hd, hsize⟩ := hc.after hops
  refine ⟨hd.wellFormed.position, fun b => (hd.known b).remembered, fun t => ?_⟩
  rw [← hsize]
  exact hd.count_fresh t

def lineGadgets : List Gadget :=
  [{ basis := .z, angle := .angle ⟨1 / 4⟩, legs := [0, 2] },
    { basis := .x, angle := .angle ⟨1 / 2⟩, legs := [1] }]

def lineOperations : List Operation :=
  [.count crossedLine, .conjugate 2 1, .add { basis := .z, angle := .angle ⟨1 / 8⟩, legs := [0, 1] },
    .count crossedLine, .setAngles [], .conjugate 0 1, .count crossedLine]

theorem lineGadgets_count_fresh :
    (∀ g ∈ lineGadgets, g.legs ≠ [] ∧ g.legs.Pairwise (· < ·)) ∧
    (∀ op ∈ lineOperations, op.InRange 3) ∧
    ∃ c, ofGadgets 3 lineGadgets = .ok c ∧
      (∀ (b : Basis) (j i : Nat), ((c.after lineOperations).table b).positions[j]? = some i ↔
        (c.after lineOperations).places[i]? = some (b, j)) ∧
      (∀ b, List.Forall₂
        (fun column known => known = none ∨ known = some ((GadgetTable.legsOf column).map Int.ofNat))
        ((c.after lineOperations).table b).columns ((c.after lineOperations).table b).knownLegs) ∧
      ∀ t, ∃ ds e, (c.after lineOperations).gadgets = .ok ds ∧ ofGadgets 3 ds = .ok e ∧
        ((count t).runFrom (c.after lineOperations)).1 = ((count t).runFrom e).1 := by
  have hgs : ∀ g ∈ lineGadgets, g.legs ≠ [] ∧ g.legs.Pairwise (· < ·) := by simp [lineGadgets]
  have hops : ∀ op ∈ lineOperations, op.InRange 3 := by
    have hlegs : LegsOn 3 [0, 1] := ⟨by decide, by decide, by decide⟩
    simp [lineOperations, Operation.InRange, hlegs]
  have hfits : ∀ g ∈ lineGadgets, g.Fits 3 := by simp [lineGadgets, Gadget.Fits]
  obtain ⟨c, hc, -⟩ := ofGadgets_ok hfits
  exact ⟨hgs, hops, c, hc, after_count_fresh hc hgs hops⟩

end PhaseCircuit

end GadgetCircuits
