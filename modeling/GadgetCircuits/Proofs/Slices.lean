import GadgetCircuits.Proofs.Dagger

/-!
Positions and slices of a circuit, compared with those of its sequence of gadgets. A single position
is looked up as in the sequence. The bounds of a slice are looked up as if they were positions, so a
bound past the last gadget is refused, where a sequence cuts it.
-/

namespace GadgetCircuits

open List

namespace Slice

variable {n : Nat}

def value (bound : Option Int) : Value :=
  (bound.map Value.int).getD .null

lemma clamp_of_position {i : Int} {k : Nat} (h : position? n i = some k) : clamp n 0 n i = k := by
  obtain ⟨hk, hi⟩ := PhaseCircuit.position?_eq_some.mp h
  simp only [clamp]
  split_ifs <;> omega

/-- Bounds that are positions count as in a sequence. -/
lemma range_eq_strided {start stop : Option Int} {a b : Option Nat} {step : Nat} (hstep : 0 < step)
    (ha : start.map (position? n) = a.map some) (hb : stop.map (position? n) = b.map some) :
    range n start stop step = PhaseCircuit.strided (a.getD 0) (b.getD n) step := by
  have hclamp : ∀ {x : Option Int} {y : Option Nat} (z : Nat), x.map (position? n) = y.map some →
      (x.map (clamp n 0 n)).getD z = (y.getD z : Nat) := by
    intro x y z h
    cases x <;> cases y <;> simp_all [clamp_of_position]
  have hstart := hclamp 0 ha
  rw [Nat.cast_zero] at hstart
  rw [range, if_pos (by exact_mod_cast hstep), hstart, hclamp n hb, PhaseCircuit.strided]
  generalize a.getD 0 = first, b.getD n = last
  have hcount : (if (first : Int) < last then ((last - first - 1 : Int) / step + 1).toNat else 0) =
      (last - first + (step - 1)) / step := by
    split
    · obtain ⟨m, hm⟩ : ∃ m, last = first + (m + 1) := ⟨last - first - 1, by omega⟩
      have hnat : ((last : Int) - first - 1) = m := by omega
      have hsum : last - first + (step - 1) = m + step := by omega
      rw [hnat, hsum, Nat.add_div_right m hstep, ← Int.natCast_div]
      exact Int.toNat_natCast _
    · rw [Nat.div_eq_of_lt (by omega)]
  simp only [hcount]
  exact map_congr_left fun k _ => by exact_mod_cast Int.toNat_natCast _

lemma pick_subset {α : Type} (xs : List α) (ps : List Nat) : pick xs ps ⊆ xs := by
  intro x hx
  obtain ⟨i, -, hi⟩ := mem_filterMap.mp hx
  exact mem_of_getElem? hi

end Slice

namespace PhaseCircuit

variable {c : PhaseCircuit} {gs : List Gadget}

lemma strided_lt {first last step : Nat} (hstep : 0 < step) :
    ∀ i ∈ strided first last step, i < last := by
  intro i hi
  obtain ⟨k, hk, rfl⟩ := mem_map.mp hi
  have hk := (Nat.le_div_iff_mul_le hstep).mp (mem_range.mp hk)
  rw [Nat.add_one_mul, Nat.mul_comm] at hk
  omega

lemma gadgetAt_of_lt (h : c.gadgets = .ok gs) {i : Nat} (hi : i < c.numGadgets) :
    ∃ g, gs[i]? = some g ∧ c.gadgetAt i = .ok g :=
  mapM_getElem? h (getElem?_range hi)

lemma gadgetsAt_eq_pick (h : c.gadgets = .ok gs) {ps : List Nat} (hps : ∀ i ∈ ps, i < c.numGadgets) :
    c.gadgetsAt ps = .ok (Slice.pick gs ps) := by
  induction ps with
  | nil => rfl
  | cons i ps ih =>
    obtain ⟨hi, hps⟩ := forall_mem_cons.mp hps
    obtain ⟨g, hg, hat⟩ := gadgetAt_of_lt h hi
    have hpick : Slice.pick gs (i :: ps) = g :: Slice.pick gs ps := filterMap_cons_some hg
    rw [gadgetsAt, mapM_cons, hat, ok_bind, ← gadgetsAt, ih hps, hpick]
    rfl

lemma bound_value (start : Option Int) :
    (∃ a, c.bound (Slice.value start) = .ok a ∧ start.map (Slice.position? c.numGadgets) = a.map some) ∨
      ∃ i ∈ start, Slice.position? c.numGadgets i = none ∧
        c.bound (Slice.value start) = .error (.gadgetIndex (.int i)) := by
  cases start with
  | none => exact .inl ⟨none, rfl, rfl⟩
  | some i =>
    cases hi : Slice.position? c.numGadgets i with
    | none => exact .inr ⟨i, rfl, hi, by simp [bound, Slice.value, Value.int?, hi]⟩
    | some k => exact .inl ⟨some k, by simp [bound, Slice.value, Value.int?, hi], by simp [hi]⟩

lemma stepOf_value {step : Option Int} (hstep : ∀ k ∈ step, 0 < k) :
    ∃ k : Nat, 0 < k ∧ step.getD 1 = k ∧ stepOf (Slice.value step) = .ok k := by
  cases step with
  | none => exact ⟨1, one_pos, rfl, rfl⟩
  | some k =>
    have hk := hstep k rfl
    exact ⟨k.toNat, by omega, (Int.toNat_of_nonneg hk.le).symm, if_pos hk⟩

lemma rebuilt_gadgets (hc : c.WellFormed) {hs : List Gadget} (hsub : hs ⊆ c.cells.map Cell.gadget) :
    ∃ d, ofGadgets c.size hs = .ok d ∧ d.size = c.size ∧
      d.gadgets = .ok (hs.map fun g => { g with angle := reduceAngle g.angle }) := by
  have hfits : ∀ g ∈ hs, ∃ k : Cell, k.Proper c.size ∧ k.gadget = g := by
    intro g hg
    obtain ⟨k, hk, rfl⟩ := mem_map.mp (hsub hg)
    exact ⟨k, hc.cells_proper k hk, rfl⟩
  obtain ⟨d, hd, hdwf, hsize, hcells⟩ := ofGadgets_ok (n := c.size) fun g hg => by
    obtain ⟨k, hk, rfl⟩ := hfits g hg
    exact (cell_legsOn hk).fits
  refine ⟨d, hd, hsize, ?_⟩
  rw [gadgets_eq hdwf, hcells, map_map]
  refine congrArg _ (map_congr_left fun g hg => ?_)
  obtain ⟨k, hk, rfl⟩ := hfits g hg
  rw [Function.comp_apply, cellOf_cell hk]
  rfl

/-- A position finds the gadget of the sequence, or is refused where the sequence has none. -/
def FoundAt (c : PhaseCircuit) (gs : List Gadget) (i : Int) : Prop :=
  (∃ g, (Slice.position? gs.length i).bind (gs[·]?) = some g ∧ c.get (.int i) = .ok g) ∨
    Slice.position? gs.length i = none ∧ c.get (.int i) = .error (.gadgetIndex (.int i))

/-- A slice holds the gadgets of the slice of the sequence, with angles up to full turns. -/
def CutFrom (c : PhaseCircuit) (gs : List Gadget) (start stop step : Option Int) : Prop :=
  ∃ d, c.slice (Slice.value start) (Slice.value stop) (Slice.value step) = .ok d ∧
    d.size = c.size ∧ d.gadgets = .ok ((Slice.pick gs
      (Slice.range gs.length start stop (step.getD 1))).map fun g =>
        { g with angle := reduceAngle g.angle })

lemma cutFrom_of_bounds (hc : c.WellFormed) {start stop step : Option Int} (hstep : ∀ k ∈ step, 0 < k)
    {a b : Option Nat} (ha : c.bound (Slice.value start) = .ok a)
    (hstart : start.map (Slice.position? c.numGadgets) = a.map some)
    (hb : c.bound (Slice.value stop) = .ok b)
    (hstop : stop.map (Slice.position? c.numGadgets) = b.map some) :
    c.CutFrom (c.cells.map Cell.gadget) start stop step := by
  obtain ⟨k, hk, hstride, hstepOf⟩ := stepOf_value hstep
  have hlast : b.getD c.numGadgets ≤ c.numGadgets := by
    cases b with
    | none => exact le_rfl
    | some j =>
      obtain ⟨i, -, hi⟩ := Option.map_eq_some_iff.mp hstop
      exact (position?_eq_some.mp hi).1.le
  have hps : ∀ i ∈ strided (a.getD 0) (b.getD c.numGadgets) k, i < c.numGadgets :=
    fun i hi => (strided_lt hk i hi).trans_le hlast
  obtain ⟨d, hd, hsize, hgadgets⟩ := rebuilt_gadgets hc (Slice.pick_subset _ _)
  refine ⟨d, ?_, hsize, ?_⟩
  · rw [slice, ha, ok_bind, hb, ok_bind, hstepOf, ok_bind, gadgetsAt_eq_pick (gadgets_eq hc) hps,
      ok_bind, hd]
  · rw [length_map, cells_length hc, hstride, Slice.range_eq_strided hk hstart hstop, hgadgets]

/-- Positions are those of the sequence of gadgets. A slice is that of the sequence if its bounds are
positions or missing; a bound that is no position is refused, even the length of the circuit. -/
theorem slices_of_gadgets (hc : c.WellFormed) : ∃ gs, c.gadgets = .ok gs ∧ (∀ i, c.FoundAt gs i) ∧
    ∀ start stop step : Option Int, (∀ k ∈ step, 0 < k) → c.CutFrom gs start stop step ∨
      ∃ i, (i ∈ start ∨ i ∈ stop) ∧ Slice.position? gs.length i = none ∧
        c.slice (Slice.value start) (Slice.value stop) (Slice.value step) =
          .error (.gadgetIndex (.int i)) := by
  refine ⟨_, gadgets_eq hc, fun i => ?_, fun start stop step hstep => ?_⟩
  · rw [FoundAt, length_map, cells_length hc]
    cases hi : Slice.position? c.numGadgets i with
    | none => exact .inr ⟨rfl, by simp [get, Value.int?, hi]⟩
    | some k =>
      obtain ⟨g, hg, hat⟩ := gadgetAt_of_lt (gadgets_eq hc) (position?_eq_some.mp hi).1
      exact .inl ⟨g, hg, by simp [get, Value.int?, hi, hat]⟩
  · rw [length_map, cells_length hc]
    rcases bound_value (c := c) start with ⟨a, ha, hstart⟩ | ⟨i, hi, hnone, herror⟩
    · rcases bound_value (c := c) stop with ⟨b, hb, hstop⟩ | ⟨i, hi, hnone, herror⟩
      · exact .inl (cutFrom_of_bounds hc hstep ha hstart hb hstop)
      · exact .inr ⟨i, .inr hi, hnone, by rw [slice, ha, ok_bind, herror]; rfl⟩
    · exact .inr ⟨i, .inl hi, hnone, by rw [slice, herror]; rfl⟩

theorem overTurned_slices : overTurned.WellFormed ∧ (∀ k ∈ some (2 : Int), 0 < k) ∧
    ∃ gs, overTurned.gadgets = .ok gs ∧ (∀ i, overTurned.FoundAt gs i) ∧
      overTurned.CutFrom gs (some (-2)) none (some 2) := by
  have hover := overTurned_wellFormed
  have hstep : ∀ k ∈ some (2 : Int), 0 < k := by simp
  obtain ⟨gs, hgs, hfound, hcut⟩ := slices_of_gadgets hover
  obtain rfl := Except.ok.inj (hgs.symm.trans (gadgets_eq hover))
  refine ⟨hover, hstep, _, hgs, hfound, (hcut (some (-2)) none (some 2) hstep).resolve_right ?_⟩
  rintro ⟨i, hi, hnone, -⟩
  obtain rfl : -2 = i := by simpa using hi
  exact absurd hnone (by decide)

/-- The slice up to the length of the circuit is the whole sequence, and is refused. -/
theorem slice_to_length_refused : ∃ gs, overTurned.gadgets = .ok gs ∧
    Slice.pick gs (Slice.range gs.length (some 0) (some 2) 1) = gs ∧
    overTurned.slice (.int 0) (.int 2) .null = .error (.gadgetIndex (.int 2)) :=
  ⟨_, rfl, rfl, rfl⟩

end PhaseCircuit

end GadgetCircuits
