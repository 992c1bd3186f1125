import GadgetCircuits.Proofs.Flips
import GadgetCircuits.Proofs.NormalForm
import GadgetCircuits.Proofs.Synthesis

/-!
Conjugation of a circuit by one CX gate. The legs of Z and X gadgets are changed by maps that are adjoint
to each other, so what a Z gadget shares with an X gadget keeps its parity, and the circuit becomes what
it is between two of the gates.
-/

namespace GadgetCircuits

open List PhaseCircuit

variable {n : Nat}

lemma Bits.sign_onBits {g : CX} (hg : g.1 ≠ g.2) (l m : Bits n) :
    Bits.sign (g.onBits .z l) (g.onBits .x m) = Bits.sign l m := by
  rw [CX.onBits, CX.onBits, Bits.sign_addBit, Bits.addBit_addBit hg.symm]

namespace Cell

variable {k l : Cell}

lemma oddOverlap_crossed (hk : k.Proper n) (hl : l.Proper n) (hz : k.basis = .z)
    (hx : l.basis = .x) {g : CX} (hg : g.1 ≠ g.2) :
    GadgetGroup.oddOverlap (k.crossed g).gadget.legs (l.crossed g).gadget.legs =
      GadgetGroup.oddOverlap k.gadget.legs l.gadget.legs := by
  apply oddOverlap_congr (n := n) (cell_legsOn (hk.crossed hg))
    (cell_legsOn (hl.crossed hg)) (cell_legsOn hk)
    (cell_legsOn hl)
  rw [bits_crossed hk, bits_crossed hl, hz, hx]
  exact Bits.sign_onBits hg _ _

lemma odd_shared_crossed (hk : k.Proper n) (hl : l.Proper n) (hz : k.basis = .z)
    (hx : l.basis = .x) {g : CX} (hg : g.1 ≠ g.2) :
    Odd ((k.crossed g).gadget.legs.toFinset ∩ (l.crossed g).gadget.legs.toFinset).card ↔
      Odd (k.gadget.legs.toFinset ∩ l.gadget.legs.toFinset).card := by
  have hnodup := (cell_legsOn hk).nodup
  have hnodup' := (cell_legsOn (hk.crossed hg)).nodup
  rw [← Simplifier.oddOverlap_iff hnodup', ← Simplifier.oddOverlap_iff hnodup,
    oddOverlap_crossed hk hl hz hx hg]

end Cell

def Gadget.kind (g : Gadget) : Basis × AngleExpr :=
  (g.basis, g.angle)

namespace PhaseCircuit

variable {c : PhaseCircuit} {g : CX}

lemma conjugate_cells (hc : c.WellFormed) (hg : g.1 ≠ g.2) :
    (c.conjugate g.1 g.2).cells = c.cells.map (Cell.crossed g) := by
  rw [cells_eq_map (conjugate_wellFormed hc hg), cells_eq_map hc, map_map]
  exact map_congr_left fun p _ => cell_conjugate c g p

lemma conjugate_conjugate_cells (hc : c.WellFormed) (hg : g.1 ≠ g.2) :
    ((c.conjugate g.1 g.2).conjugate g.1 g.2).cells = c.cells := by
  rw [conjugate_cells (conjugate_wellFormed hc hg) hg, conjugate_cells hc hg, map_map]
  exact (map_congr_left fun k _ => Cell.crossed_crossed hg k).trans (map_id _)

lemma inOrder_crossed {ks : List Cell} (hks : ∀ k ∈ ks, k.Proper n) (hg : g.1 ≠ g.2)
    (value : AngleExpr → ℝ) :
    inOrder (ks.map fun k => (k.crossed g).gadget.unitary n value) =
      CX.unitary n g * inOrder (ks.map fun k => k.gadget.unitary n value) * CX.unitary n g := by
  rw [← inOrder_conj (CX.unitary_mul_self hg), map_map]
  refine congrArg inOrder (map_congr_left fun k hk => ?_)
  exact (Cell.unitary_crossed value (hks k hk) hg).symm

/-- The gadgets `ds` are the gadgets `gs` between two CX gates: one for one of the same bases and angles,
all with legs on the qubits, and together conjugated by the gate. A Z and an X gadget share an odd number of
legs if and only if they did before. -/
structure Conjugates (n : Nat) (k : CX) (gs ds : List Gadget) : Prop where
  kinds : ds.map Gadget.kind = gs.map Gadget.kind
  fits : ∀ g ∈ ds, g.Fits n
  unitary : ∀ value : AngleExpr → ℝ, inOrder (ds.map (Gadget.unitary n value)) =
    CX.unitary n k * inOrder (gs.map (Gadget.unitary n value)) * CX.unitary n k
  parity : ∀ (i j : Nat) (g h g' h' : Gadget), gs[i]? = some g → gs[j]? = some h →
    ds[i]? = some g' → ds[j]? = some h' → g.basis = .z → h.basis = .x →
    (Odd (g'.legs.toFinset ∩ h'.legs.toFinset).card ↔ Odd (g.legs.toFinset ∩ h.legs.toFinset).card)

lemma conjugates_crossed {ks : List Cell} (hks : ∀ k ∈ ks, k.Proper n) (hg : g.1 ≠ g.2) :
    Conjugates n g (ks.map Cell.gadget) ((ks.map (Cell.crossed g)).map Cell.gadget) where
  kinds := by
    simp only [map_map]
    apply map_congr_left
    intro k _
    simp [Gadget.kind, Cell.gadget]
  fits := by
    intro h hh
    simp only [map_map, mem_map, Function.comp_apply] at hh
    obtain ⟨k, hk, rfl⟩ := hh
    exact (cell_legsOn ((hks k hk).crossed hg)).fits
  unitary := by
    intro value
    simp only [map_map]
    exact inOrder_crossed hks hg value
  parity := by
    intro i j h l h' l' hi hj hi' hj' hz hx
    simp only [map_map, getElem?_map] at hi hj hi' hj'
    obtain ⟨k, hk, rfl⟩ := Option.map_eq_some_iff.mp hi
    obtain ⟨m, hm, rfl⟩ := Option.map_eq_some_iff.mp hj
    rw [hk] at hi'
    rw [hm] at hj'
    cases hi'
    cases hj'
    exact Cell.odd_shared_crossed (hks k (mem_of_getElem? hk)) (hks m (mem_of_getElem? hm)) hz hx hg

/-- Conjugating a circuit by a CX gate conjugates its gadgets, and a second time restores them. -/
theorem conjugateValues_conjugates (hc : c.WellFormed) {ctrl trgt : Nat} (hctrl : ctrl < c.size)
    (htrgt : trgt < c.size) (hne : ctrl ≠ trgt) :
    ∃ d e gs ds, c.conjugateValues (.ofNat ctrl) (.ofNat trgt) = .ok d ∧
      d.conjugateValues (.ofNat ctrl) (.ofNat trgt) = .ok e ∧ d.size = c.size ∧
      c.gadgets = .ok gs ∧ d.gadgets = .ok ds ∧ e.gadgets = .ok gs ∧
      Conjugates c.size (ctrl, trgt) gs ds := by
  have hg : ((ctrl, trgt) : CX).1 ≠ ((ctrl, trgt) : CX).2 := hne
  have hd := conjugate_wellFormed hc hg
  refine ⟨_, _, _, _, ConjugatedCircuit.conjugateValues_ok (g := (ctrl, trgt)) hctrl htrgt,
    ConjugatedCircuit.conjugateValues_ok (g := (ctrl, trgt)) hctrl htrgt, rfl, gadgets_eq hc,
    gadgets_eq hd, ?_, ?_⟩
  · rw [gadgets_eq (conjugate_wellFormed hd hg), conjugate_conjugate_cells hc hg]
  · rw [conjugate_cells hc hg]
    exact conjugates_crossed hc.cells_proper hg

def sharedPair : PhaseCircuit :=
  (({ size := 3 } : PhaseCircuit).push { basis := .z, angle := .angle ⟨1 / 4⟩, legs := [0, 1] }
    [true, true, false] (.angle ⟨1 / 4⟩)).push
    { basis := .x, angle := .angle ⟨1 / 2⟩, legs := [0, 1, 2] } [true, true, true] (.angle ⟨1 / 2⟩)

theorem sharedPair_conjugates :
    sharedPair.WellFormed ∧ 0 < sharedPair.size ∧ 2 < sharedPair.size ∧
    ∃ d e gs ds, sharedPair.conjugateValues (.ofNat 0) (.ofNat 2) = .ok d ∧
      d.conjugateValues (.ofNat 0) (.ofNat 2) = .ok e ∧ d.size = sharedPair.size ∧
      sharedPair.gadgets = .ok gs ∧ d.gadgets = .ok ds ∧ e.gadgets = .ok gs ∧
      Conjugates sharedPair.size (0, 2) gs ds := by
  have hwell : sharedPair.WellFormed := by simp [sharedPair]
  have hsize : sharedPair.size = 3 := rfl
  have h0 : 0 < sharedPair.size := by omega
  have h2 : 2 < sharedPair.size := by omega
  exact ⟨hwell, h0, h2, conjugateValues_conjugates hwell h0 h2 (by decide)⟩

end PhaseCircuit

end GadgetCircuits
