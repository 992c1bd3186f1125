import GadgetCircuits.Proofs.Prelude
import GadgetCircuits.Proofs.Unitary

/-!
Phase circuits as sequences of cells. The tables of a well-formed circuit lead from positions to
columns and back; what the circuit says about each gadget is then a plain list, on which appending a
gadget and conjugating by a CX gate are simple operations.
-/

namespace GadgetCircuits

open List GadgetTable Bits Option

/-- What a circuit says about a gadget: its basis, its angle and its column. -/
structure Cell where
  basis : Basis
  angle : AngleExpr
  column : List Bool

namespace GadgetTable

variable {column : List Bool} (t : GadgetTable) (source goal : Nat)

def crossed (source goal : Nat) (column : List Bool) : List Bool :=
  column.set goal (xor ((column[goal]?).getD false) ((column[source]?).getD false))

lemma addRow_columns :
    (t.addRow source goal).columns = t.columns.map (crossed source goal) := rfl

lemma addRow_column (source goal j : Nat) :
    (t.addRow source goal).column j = crossed source goal (t.column j) := by
  rw [column, addRow_columns, getElem?_map, column]
  cases t.columns[j]? <;> rfl

@[simp] lemma addRow_positions :
    (t.addRow source goal).positions = t.positions := rfl

@[simp] lemma crossed_length (column : List Bool) :
    (crossed source goal column).length = column.length := by
  simp [crossed]

lemma crossed_getElem? (column : List Bool) (i : Nat) :
    (crossed source goal column)[i]? = if i = goal then
      (column[i]?).map fun b => xor b ((column[source]?).getD false) else column[i]? := by
  rw [crossed, getElem?_set]
  grind

/-- Without a second pass the bit that is added stays, so adding it twice changes nothing. -/
theorem crossed_crossed {source goal : Nat} (h : source ≠ goal) (column : List Bool) :
    crossed source goal (crossed source goal column) = column := by
  apply ext_getElem?
  intro i
  rw [crossed_getElem?, crossed_getElem?, crossed_getElem?]
  by_cases hi : i = goal
  · subst hi
    cases column[i]? <;> simp [h]
  · simp [hi]

lemma true_mem_crossed {source goal : Nat} (h : source ≠ goal) (hc : true ∈ column) :
    true ∈ crossed source goal column := by
  obtain ⟨i, hi, ht⟩ := mem_iff_getElem.mp hc
  by_cases hs : (column[source]?).getD false
  · refine mem_of_getElem? (i := source) ?_
    rw [crossed_getElem?, if_neg h]
    cases hb : column[source]? <;> simp_all
  · refine mem_of_getElem? (i := i) ?_
    rw [crossed_getElem?, getElem?_eq_getElem hi, ht]
    simp [hs]

lemma mem_legsOf {i : Nat} : i ∈ legsOf column ↔ column[i]? = some true := by
  simp only [legsOf, mem_filterMap, Prod.exists, mem_zipIdx_iff_getElem?]
  simp

lemma legsOf_sorted (column : List Bool) : (legsOf column).Pairwise (· < ·) := by
  have hlt : (column.zipIdx.map Prod.snd).Pairwise (· < ·) := by
    rw [zipIdx_map_snd]
    exact pairwise_lt_range'
  rw [legsOf, pairwise_filterMap]
  refine (pairwise_map.mp hlt).imp ?_
  intro a b hab i hi j hj
  split at hi
  split at hj
  simp_all

lemma legsOf_nodup (column : List Bool) : (legsOf column).Nodup :=
  (legsOf_sorted column).imp fun hab => Nat.ne_of_lt hab

lemma legsOf_ne_nil (h : true ∈ column) : legsOf column ≠ [] := by
  obtain ⟨i, hi, ht⟩ := mem_iff_getElem.mp h
  have hm : i ∈ legsOf column := mem_legsOf.mpr (by rw [getElem?_eq_getElem hi, ht])
  exact ne_nil_of_mem hm

end GadgetTable

namespace Bits

variable {n : Nat}

def ofColumn (column : List Bool) : Bits n := fun i => (column[(i : Nat)]?).getD false

lemma ofLegs_of_nodup {legs : List Int} (h : legs.Nodup) (i : Fin n) :
    (ofLegs legs : Bits n) i = decide ((i : Int) ∈ legs) := by
  rw [ofLegs, h.count]
  by_cases hi : (i : Int) ∈ legs <;> simp [hi]

lemma ofLegs_legsOf (column : List Bool) :
    (ofLegs ((legsOf column).map Int.ofNat) : Bits n) = ofColumn column := by
  funext i
  have hn : ((legsOf column).map Int.ofNat).Nodup :=
    (legsOf_nodup column).map fun _ _ h => Int.ofNat.inj h
  have hm : ((i : Nat) : Int) ∈ (legsOf column).map Int.ofNat ↔
      column[(i : Nat)]? = some true := by
    rw [← mem_legsOf]
    exact mem_map_of_injective fun _ _ h => Int.ofNat.inj h
  rw [ofLegs_of_nodup hn, ofColumn]
  grind

lemma bit_ofColumn {column : List Bool} (h : column.length = n) (q : Nat) :
    (ofColumn column : Bits n).bit q = (column[q]?).getD false := by
  by_cases hq : q < n
  · exact bit_val (ofColumn column) ⟨q, hq⟩
  · rw [getElem?_eq_none (by omega), getD_none]
    refine bit_eq_false fun i hi => ?_
    have hiq : (i : Nat) = q := by exact_mod_cast hi
    omega

lemma ofColumn_crossed {column : List Bool} (h : column.length = n) (source goal : Nat) :
    (ofColumn (crossed source goal column) : Bits n) =
      addBit source goal (ofColumn column) := by
  funext i
  have hi : (i : Nat) < column.length := by omega
  rw [ofColumn, crossed_getElem?, addBit, bit_ofColumn h, ofColumn]
  by_cases hg : (i : Nat) = goal <;> simp [hg, hi]
  subst hg
  simp [hi]

end Bits

namespace Cell

variable {n : Nat}
variable {g : CX} {k : Cell}

def gadget (k : Cell) : Gadget where
  basis := k.basis
  angle := k.angle
  legs := (legsOf k.column).map Int.ofNat

/-- A cell on `n` qubits with at least one leg. -/
def Proper (n : Nat) (k : Cell) : Prop :=
  k.column.length = n ∧ true ∈ k.column

def crossed (g : CX) (k : Cell) : Cell :=
  match k.basis with
  | .z => { k with column := GadgetTable.crossed g.2 g.1 k.column }
  | .x => { k with column := GadgetTable.crossed g.1 g.2 k.column }

@[simp] lemma crossed_basis (g : CX) (k : Cell) : (k.crossed g).basis = k.basis := by
  unfold crossed
  split <;> rfl

@[simp] lemma crossed_angle (g : CX) (k : Cell) : (k.crossed g).angle = k.angle := by
  unfold crossed
  split <;> rfl

lemma Proper.crossed (hk : k.Proper n) (hg : g.1 ≠ g.2) : (k.crossed g).Proper n := by
  unfold Cell.crossed
  split
  · exact ⟨by simpa using hk.1, true_mem_crossed hg.symm hk.2⟩
  · exact ⟨by simpa using hk.1, true_mem_crossed hg hk.2⟩

lemma crossed_crossed (hg : g.1 ≠ g.2) (k : Cell) : (k.crossed g).crossed g = k := by
  cases k with
  | mk b a col =>
    cases b with
    | z => simp [crossed, GadgetTable.crossed_crossed hg.symm]
    | x => simp [crossed, GadgetTable.crossed_crossed hg]

lemma gadget_legs_bits (k : Cell) : (ofLegs k.gadget.legs : Bits n) = ofColumn k.column :=
  ofLegs_legsOf k.column

lemma bits_crossed (hk : k.Proper n) (g : CX) : (ofLegs (k.crossed g).gadget.legs : Bits n) =
      g.onBits k.basis (ofLegs k.gadget.legs) := by
  rw [gadget_legs_bits, gadget_legs_bits]
  cases k with
  | mk b a col =>
    cases b with
    | z => exact Bits.ofColumn_crossed hk.1 g.2 g.1
    | x => exact Bits.ofColumn_crossed hk.1 g.1 g.2

lemma unitary_crossed (value : AngleExpr → ℝ) (hk : k.Proper n) (hg : g.1 ≠ g.2) :
    CX.unitary n g * k.gadget.unitary n value * CX.unitary n g =
      (k.crossed g).gadget.unitary n value :=
  Gadget.unitary_conj value hg (crossed_basis g k) (crossed_angle g k) (bits_crossed hk g)

end Cell

/-- A gadget with at least one leg, all of them on qubits. -/
def Gadget.Fits (n : Nat) (g : Gadget) : Prop :=
  g.legs ≠ [] ∧ ∀ q ∈ g.legs, 0 ≤ q ∧ q < n

namespace PhaseCircuit

def cells (c : PhaseCircuit) : List Cell :=
  List.zipWith (fun p a => ⟨p.1, a, (c.table p.1).column p.2⟩) c.places c.angles

/-- Positions and columns lead to each other, and every column is one of a gadget. -/
structure WellFormed (c : PhaseCircuit) : Prop where
  places_length : c.places.length = c.angles.length
  position : ∀ (b : Basis) (j i : Nat), (c.table b).positions[j]? = some i ↔ c.places[i]? = some (b, j)
  columns_length : ∀ b, (c.table b).columns.length = (c.table b).positions.length
  column : ∀ b, ∀ col ∈ (c.table b).columns, col.length = c.size ∧ true ∈ col

lemma cells_getElem? (c : PhaseCircuit) {i : Nat} {b : Basis} {j : Nat} {a : AngleExpr}
    (hp : c.places[i]? = some (b, j)) (ha : c.angles[i]? = some a) :
    c.cells[i]? = some ⟨b, a, (c.table b).column j⟩ := by
  simp [cells, getElem?_zipWith, hp, ha]

variable {c : PhaseCircuit} {n : Nat} {gs : List Gadget}

lemma cells_length (hc : c.WellFormed) : c.cells.length = c.numGadgets := by
  simp [cells, numGadgets, hc.places_length]

lemma cells_angles (hc : c.WellFormed) : c.cells.map Cell.angle = c.angles := by
  rw [cells, map_zipWith, ← map_uncurry_zip_eq_zipWith]
  exact map_snd_zip hc.places_length.ge

namespace WellFormed

variable (hc : c.WellFormed)
include hc

lemma column_proper {i : Nat} {b : Basis} {j : Nat}
    (hp : c.places[i]? = some (b, j)) : (c.table b).column j ∈ (c.table b).columns := by
  have hj : j < (c.table b).columns.length := by
    rw [hc.columns_length]
    exact (List.getElem?_eq_some_iff.mp ((hc.position b j i).mpr hp)).1
  rw [GadgetTable.column, getElem?_eq_getElem hj, getD_some]
  exact getElem_mem hj

lemma cell_at {i : Nat} (hi : i < c.numGadgets) :
    ∃ b j a, c.places[i]? = some (b, j) ∧ c.angles[i]? = some a := by
  have hp : i < c.places.length := by
    rw [hc.places_length]
    exact hi
  exact ⟨c.places[i].1, c.places[i].2, c.angles[i], getElem?_eq_getElem hp, getElem?_eq_getElem hi⟩

lemma places_nodup : c.places.Nodup := by
  refine nodup_iff_getElem?_ne_getElem?.mpr fun i k hik hk hsame => ?_
  have hplace := getElem?_eq_getElem hk
  have hpi := (hc.position c.places[k].1 c.places[k].2 i).mpr (hsame.trans hplace)
  have hpk := (hc.position c.places[k].1 c.places[k].2 k).mpr hplace
  exact Nat.ne_of_lt hik (some.inj (hpi.symm.trans hpk))

lemma cells_proper : ∀ k ∈ c.cells, k.Proper c.size := by
  intro k hk
  obtain ⟨i, hi, rfl⟩ := mem_iff_getElem.mp hk
  obtain ⟨b, j, a, hp, ha⟩ := hc.cell_at (i := i) (by rwa [cells_length hc] at hi)
  have hcell := cells_getElem? c hp ha
  rw [getElem?_eq_getElem hi, some.injEq] at hcell
  rw [hcell]
  exact hc.column b _ (hc.column_proper hp)

end WellFormed

lemma gadgetOf_ok (b : Basis) (a : AngleExpr) {column : List Bool} (h : true ∈ column) :
    gadgetOf b a column = .ok (Cell.gadget ⟨b, a, column⟩) := by
  unfold gadgetOf
  split
  · rename_i hnil
    exact absurd hnil (legsOf_ne_nil h)
  · rfl

lemma gadgets_eq (hc : c.WellFormed) :
    c.gadgets = .ok (c.cells.map Cell.gadget) := by
  have hcell : ∀ i ∈ range c.numGadgets,
      c.gadgetAt i = .ok ((c.cells[i]?).getD ⟨.z, default, []⟩).gadget := by
    intro i hi
    obtain ⟨b, j, a, hp, ha⟩ := hc.cell_at (mem_range.mp hi)
    have ht := (hc.column b _ (hc.column_proper hp)).2
    simp only [gadgetAt, hp, ha, cells_getElem? c hp ha, getD_some]
    exact gadgetOf_ok b a ht
  rw [gadgets, gadgetsAt, mapM_ok hcell, ← cells_length hc]
  congr 1
  apply ext_getElem
  · simp
  · intro i hi hi'
    simp only [length_map, length_range] at hi
    simp [hi]

@[simp] lemma wellFormed_empty (n : Nat) : WellFormed { size := n } where
  places_length := rfl
  position := by
    intro b j i
    cases b <;> simp [table]
  columns_length := by
    intro b
    cases b <;> rfl
  column := by
    intro b col hcol
    cases b <;> simp [table] at hcol

lemma getElem?_concat_eq_some {α : Type} {xs : List α} {x y : α} {i : Nat} :
    (xs ++ [x])[i]? = some y ↔ xs[i]? = some y ∨ (i = xs.length ∧ x = y) := by
  grind

@[simp] lemma push_size (c : PhaseCircuit) (g : Gadget) (col : List Bool) (a : AngleExpr) :
    (c.push g col a).size = c.size := by
  cases hg : g.basis <;> simp [push, mapTable, hg]

lemma push_table (c : PhaseCircuit) (g : Gadget) (col : List Bool) (a : AngleExpr) (b : Basis) :
    (c.push g col a).table b =
      if b = g.basis then (c.table b).push col c.angles.length g.legs else c.table b := by
  cases b <;> cases hg : g.basis <;> simp [push, mapTable, table, hg]

lemma push_column (c : PhaseCircuit) (g : Gadget) (col : List Bool) (a : AngleExpr) {b : Basis}
    {j : Nat} (hj : j < (c.table b).columns.length) :
    ((c.push g col a).table b).column j = (c.table b).column j := by
  rw [push_table]
  split
  · simp [GadgetTable.push, GadgetTable.column, getElem?_append_left hj]
  · rfl

lemma push_column_last (c : PhaseCircuit) (g : Gadget) (col : List Bool) (a : AngleExpr) :
    ((c.push g col a).table g.basis).column (c.table g.basis).columns.length = col := by
  rw [push_table, if_pos rfl]
  simp [GadgetTable.push, GadgetTable.column]

lemma push_cells (hc : c.WellFormed) (g : Gadget) (col : List Bool)
    (a : AngleExpr) : (c.push g col a).cells = c.cells ++ [⟨g.basis, a, col⟩] := by
  have hold : zipWith (fun p a' => (⟨p.1, a', ((c.push g col a).table p.1).column p.2⟩ : Cell))
      c.places c.angles = c.cells := by
    apply ext_getElem?
    intro i
    rw [cells, getElem?_zipWith, getElem?_zipWith]
    cases hp : c.places[i]? with
    | none => rfl
    | some p =>
      have hj : p.2 < (c.table p.1).columns.length := by
        rw [hc.columns_length]
        exact (List.getElem?_eq_some_iff.mp ((hc.position p.1 p.2 i).mpr hp)).1
      cases c.angles[i]? with
      | none => rfl
      | some a' =>
        exact congrArg (fun k => some (⟨p.1, a', k⟩ : Cell)) (push_column c g col a hj)
  have hsplit : (c.push g col a).places = c.places ++ [(g.basis, (c.table g.basis).columns.length)] ∧
      (c.push g col a).angles = c.angles ++ [a] := ⟨rfl, rfl⟩
  rw [cells, hsplit.1, hsplit.2, zipWith_append hc.places_length, hold]
  simp [push_column_last]

@[simp] lemma push_wellFormed (hc : c.WellFormed) (g : Gadget) {col : List Bool}
    (a : AngleExpr) (hl : col.length = c.size) (ht : true ∈ col) :
    (c.push g col a).WellFormed where
  places_length := by simp [push, hc.places_length]
  position := by
    intro b j i
    have hplaces : (c.push g col a).places =
      c.places ++ [(g.basis, (c.table g.basis).columns.length)] := rfl
    rw [push_table, hplaces, getElem?_concat_eq_some, ← hc.position, hc.places_length]
    by_cases hb : b = g.basis
    · subst hb
      rw [if_pos rfl, GadgetTable.push, getElem?_concat_eq_some, ← hc.columns_length, Prod.mk.injEq]
      grind
    · grind
  columns_length := by
    intro b
    rw [push_table]
    split
    · simp [GadgetTable.push, hc.columns_length]
    · exact hc.columns_length b
  column := by
    intro b k hk
    rw [push_size]
    rw [push_table] at hk
    split at hk
    · rcases mem_append.mp hk with hk | hk
      · exact hc.column b k hk
      · rw [mem_singleton.mp hk]
        exact ⟨hl, ht⟩
    · exact hc.column b k hk

def cellOf (n : Nat) (g : Gadget) : Cell :=
  ⟨g.basis, reduceAngle g.angle, (List.range n).map fun (i : Nat) => g.legs.contains (i : Int)⟩

lemma strayLeg_eq_none (h : ∀ g ∈ gs, g.Fits n) (b : Basis) : strayLeg n gs b = none := by
  rw [strayLeg, findSome?_eq_none_iff]
  rintro ⟨g, i⟩ hg
  have hmem : g ∈ gs := by grind
  rw [findSome?_eq_none_iff]
  rintro ⟨v, q⟩ hq
  have hr := (h g hmem).2 q (of_mem_zip hq).2
  simp [hr.1, hr.2]

lemma cellOf_proper {g : Gadget} (h : g.Fits n) : (cellOf n g).Proper n := by
  refine ⟨by simp [cellOf], ?_⟩
  obtain ⟨q, hq⟩ := exists_mem_of_ne_nil _ h.1
  obtain ⟨h0, hn⟩ := h.2 q hq
  refine mem_map.mpr ⟨q.toNat, mem_range.mpr (by omega), ?_⟩
  simpa [Int.toNat_of_nonneg h0] using hq

lemma cellOf_bits {g : Gadget} (h : g.legs.Nodup) :
    (ofLegs (cellOf n g).gadget.legs : Bits n) = ofLegs g.legs := by
  rw [Cell.gadget_legs_bits]
  funext i
  rw [ofLegs_of_nodup h]
  simp [ofColumn, cellOf]

lemma ofGadgets_ok (h : ∀ g ∈ gs, g.Fits n) :
    ∃ c, ofGadgets n gs = .ok c ∧ c.WellFormed ∧ c.size = n ∧ c.cells = gs.map (cellOf n) := by
  rw [ofGadgets, strayLeg_eq_none h, strayLeg_eq_none h]
  refine ⟨_, rfl, ?_⟩
  have hfold : ∀ (gs : List Gadget) (c : PhaseCircuit), (∀ g ∈ gs, g.Fits n) → c.WellFormed →
      c.size = n →
      let d := gs.foldl (fun c g => c.push g (cellOf n g).column (cellOf n g).angle) c
      d.WellFormed ∧ d.size = n ∧ d.cells = c.cells ++ gs.map (cellOf n) := by
    intro gs
    induction gs with
    | nil =>
      intro c _ hc hn
      exact ⟨hc, hn, by simp⟩
    | cons g gs ih =>
      intro c hg hc hn
      have hp := cellOf_proper (hg g mem_cons_self)
      obtain ⟨hw, hs, hcells⟩ := ih (c.push g (cellOf n g).column (cellOf n g).angle)
        (fun k hk => hg k (mem_cons_of_mem g hk))
        (push_wellFormed hc g _ (hp.1.trans hn.symm) hp.2) (by rw [push_size, hn])
      refine ⟨hw, hs, hcells.trans ?_⟩
      rw [push_cells hc]
      simp [cellOf]
  obtain ⟨hw, hs, hcells⟩ := hfold gs { size := n } h (wellFormed_empty n) rfl
  exact ⟨hw, hs, hcells⟩

lemma ofGadgets_fits (h : ofGadgets n gs = .ok c) (hlegs : ∀ g ∈ gs, g.legs ≠ []) :
    ∀ g ∈ gs, g.Fits n := by
  intro g hg
  refine ⟨hlegs g hg, fun q hq => ?_⟩
  have hnone : strayLeg n gs g.basis = none := by
    rw [ofGadgets] at h
    split at h
    · cases h
    · cases h
    · rename_i hz hx
      cases hb : g.basis with
      | z => exact hz
      | x => exact hx
  obtain ⟨i, hi⟩ := mem_iff_getElem?.mp hg
  rw [strayLeg, findSome?_eq_none_iff] at hnone
  have hleg := hnone (g, i) (mem_filter.mpr ⟨mem_zipIdx_iff_getElem?.mpr hi, by simp⟩)
  rw [findSome?_eq_none_iff] at hleg
  have hzip : (g.shownLeg q, q) ∈ g.shownLegs.zip g.legs := by
    obtain ⟨j, hj⟩ := mem_iff_getElem?.mp hq
    rw [Gadget.shownLegs, zip_map_left]
    exact mem_map.mpr ⟨(q, q), mem_of_getElem? (getElem?_zip_eq_some.mpr ⟨hj, hj⟩), rfl⟩
  have hrange := hleg _ hzip
  simpa using hrange

def conjugateAll (gs : List CX) (c : PhaseCircuit) : PhaseCircuit :=
  gs.foldl (fun c g => c.conjugate g.1 g.2) c

lemma conjugate_wellFormed (hc : c.WellFormed) {g : CX} (hg : g.1 ≠ g.2) :
    (c.conjugate g.1 g.2).WellFormed where
  places_length := hc.places_length
  position := by
    intro b j i
    cases b with
    | z => exact hc.position .z j i
    | x => exact hc.position .x j i
  columns_length := by
    intro b
    cases b with
    | z => simpa [conjugate, table, addRow_columns] using hc.columns_length .z
    | x => simpa [conjugate, table, addRow_columns] using hc.columns_length .x
  column := by
    intro b col hcol
    cases b with
    | z =>
      obtain ⟨k, hk, rfl⟩ := mem_map.mp hcol
      obtain ⟨hl, ht⟩ := hc.column .z k hk
      exact ⟨(crossed_length _ _ k).trans hl, true_mem_crossed hg.symm ht⟩
    | x =>
      obtain ⟨k, hk, rfl⟩ := mem_map.mp hcol
      obtain ⟨hl, ht⟩ := hc.column .x k hk
      exact ⟨(crossed_length _ _ k).trans hl, true_mem_crossed hg ht⟩

end PhaseCircuit

end GadgetCircuits
