import GadgetCircuits.Proofs.CXLayer
import GadgetCircuits.Proofs.PhaseCircuit
import GadgetCircuits.Proofs.Topology

/-!
What every synthesis keeps. Between its steps, what is placed, then the gadgets that are still to be
done, then the CX gates undone, is the circuit that was given. Placing a CX gate and placing a gadget
that has a single leg keep this, so a synthesis that is left without gadgets is correct.
-/

namespace GadgetCircuits

open List GadgetTable PhaseCircuit CXLayer

namespace PhaseCircuit

variable {c : PhaseCircuit}

def cell (c : PhaseCircuit) (p : Basis × Nat) : Cell where
  basis := p.1
  angle := (((c.table p.1).positions[p.2]?).bind fun i => c.angles[i]?).getD default
  column := (c.table p.1).column p.2

lemma cells_eq_map (hc : c.WellFormed) : c.cells = c.places.map c.cell := by
  apply ext_getElem?
  intro i
  by_cases hi : i < c.numGadgets
  · obtain ⟨b, j, a, hp, ha⟩ := hc.cell_at hi
    rw [cells_getElem? c hp ha, getElem?_map, hp, Option.map_some, cell,
      (hc.position b j i).mpr hp, Option.bind_some, ha, Option.getD_some]
  · have hlen : c.places.length ≤ i := by
      rw [hc.places_length]
      exact Nat.le_of_not_lt hi
    rw [getElem?_eq_none (by rw [cells_length hc]; exact Nat.le_of_not_lt hi),
      getElem?_eq_none (by simpa using hlen)]

lemma cell_proper (hc : c.WellFormed) {p : Basis × Nat} (hp : p ∈ c.places) :
    (c.cell p).Proper c.size := by
  refine hc.cells_proper _ ?_
  rw [cells_eq_map hc]
  exact mem_map_of_mem hp

lemma cell_conjugate (c : PhaseCircuit) (g : CX) (p : Basis × Nat) :
    (c.conjugate g.1 g.2).cell p = (c.cell p).crossed g := by
  rcases p with ⟨b, j⟩
  cases b with
  | z => simp [cell, Cell.crossed, conjugate, table, addRow_column]
  | x => simp [cell, Cell.crossed, conjugate, table, addRow_column]

end PhaseCircuit

lemma inOrder_conj {n : Nat} {x : Operator n} (hx : x * x = 1) (us : List (Operator n)) :
    inOrder (us.map fun u => x * u * x) = x * inOrder us * x := by
  induction us with
  | nil => simp [hx]
  | cons u us ih =>
    rw [map_cons, inOrder_cons, inOrder_cons, ih]
    calc x * inOrder us * x * (x * u * x) = x * inOrder us * (x * x) * u * x := by
          simp only [mul_assoc]
      _ = x * (inOrder us * u) * x := by rw [hx]; simp only [mul_assoc, one_mul]

/-- A gadget with one leg, on a qubit, or a CX gate on a coupling. -/
def Placed.Allowed (t : Topology) : Placed → Prop
  | .gadget g => ∃ q < t.size, g.legs = [(q : Int)]
  | .cx g => t.hasCoupling g.1 g.2 = true

def Placed.kind? : Placed → Option (Basis × AngleExpr)
  | .gadget g => some (g.basis, g.angle)
  | .cx _ => none

def Cell.kind (k : Cell) : Basis × AngleExpr :=
  (k.basis, k.angle)

namespace Synthesis

variable {c : PhaseCircuit} {t : Topology} {s : Synthesis} {todo : List (Basis × Nat)}

def withCX (s : Synthesis) (g : CX) : Synthesis where
  circuit := s.circuit.conjugate g.1 g.2
  placed := s.placed ++ [.cx g]
  cxs := s.cxs ++ [g]

def withGadget (s : Synthesis) (p : Basis × Nat) : Synthesis :=
  { s with placed := s.placed ++ [.gadget (s.circuit.cell p).gadget] }

/-- What has been placed, then the gadgets of the columns `todo`, then the CX gates undone, is the
circuit `c`. -/
structure Realizes (c : PhaseCircuit) (t : Topology) (s : Synthesis) (todo : List (Basis × Nat)) :
    Prop where
  wellFormed : s.circuit.WellFormed
  size : s.circuit.size = c.size
  listed : ∀ p ∈ todo, p ∈ s.circuit.places
  allowed : ∀ p ∈ s.placed, p.Allowed t
  coupled : ∀ g ∈ s.cxs, t.hasCoupling g.1 g.2 = true
  kinds : (s.placed.filterMap Placed.kind? ++ todo.map fun p => (s.circuit.cell p).kind).Perm
    (c.cells.map Cell.kind)
  unitary : ∀ value : AngleExpr → ℝ,
    inOrder (s.placed.map (Placed.unitary c.size value) ++
        todo.map (fun p => (s.circuit.cell p).gadget.unitary c.size value) ++
        s.cxs.reverse.map (CX.unitary c.size)) =
      inOrder (c.cells.map fun k => k.gadget.unitary c.size value)

namespace Realizes

lemma start (hc : c.WellFormed) (t : Topology) : Realizes c t { circuit := c } c.places where
  wellFormed := hc
  size := rfl
  listed := fun _ hp => hp
  allowed := by simp
  coupled := by simp
  kinds := by
    rw [cells_eq_map hc, map_map]
    exact .refl _
  unitary := by
    intro value
    rw [cells_eq_map hc, map_map]
    simp only [map_nil, nil_append, reverse_nil, append_nil]
    rfl

lemma cell_proper (h : Realizes c t s todo) {p : Basis × Nat} (hp : p ∈ todo) :
    (s.circuit.cell p).Proper c.size := by
  have := PhaseCircuit.cell_proper h.wellFormed (h.listed p hp)
  rwa [h.size] at this

lemma withCX (h : Realizes c t s todo) {g : CX} (hne : g.1 ≠ g.2)
    (hg : t.hasCoupling g.1 g.2) : Realizes c t (s.withCX g) todo where
  wellFormed := conjugate_wellFormed h.wellFormed hne
  size := h.size
  listed := h.listed
  allowed := by
    intro p hp
    rcases mem_append.mp hp with hp | hp
    · exact h.allowed p hp
    · rw [mem_singleton.mp hp]
      exact hg
  coupled := by
    intro k hk
    rcases mem_append.mp hk with hk | hk
    · exact h.coupled k hk
    · rw [mem_singleton.mp hk]
      exact hg
  kinds := by
    have hkind : (fun p => ((s.withCX g).circuit.cell p).kind) = fun p => (s.circuit.cell p).kind := by
      funext p
      simp [Synthesis.withCX, cell_conjugate, Cell.kind]
    rw [hkind]
    simpa [Synthesis.withCX, filterMap_cons, Placed.kind?] using h.kinds
  unitary := by
    -- The gate before, its inverse after, and each gadget conjugated: they cancel.
    intro value
    rw [← h.unitary value]
    have hx := CX.unitary_mul_self (n := c.size) hne
    have hcells : todo.map (fun p => ((s.withCX g).circuit.cell p).gadget.unitary c.size value) =
        (todo.map fun p => (s.circuit.cell p).gadget.unitary c.size value).map fun u =>
          CX.unitary c.size g * u * CX.unitary c.size g := by
      rw [map_map]
      refine map_congr_left fun p hp => ?_
      simp only [Synthesis.withCX, cell_conjugate, Function.comp_apply]
      exact (Cell.unitary_crossed value (h.cell_proper hp) hne).symm
    rw [hcells]
    simp only [Synthesis.withCX, map_append, map_cons, map_nil, reverse_append,
      reverse_cons, reverse_nil, nil_append, cons_append, inOrder_append,
      inOrder_cons, inOrder_nil, one_mul, inOrder_conj hx, Placed.unitary]
    generalize inOrder (s.placed.map (Placed.unitary c.size value)) = A
    generalize inOrder (todo.map fun p => (s.circuit.cell p).gadget.unitary c.size value) = B
    generalize inOrder (s.cxs.reverse.map (CX.unitary c.size)) = C
    generalize CX.unitary c.size g = x at hx
    calc C * x * (x * B * x * (x * A)) = C * (x * x) * B * (x * x) * A := by simp only [mul_assoc]
      _ = C * (B * A) := by rw [hx]; simp only [mul_assoc, mul_one]

lemma withGadget {p : Basis × Nat} (h : Realizes c t s (p :: todo))
    (hq : ∃ q < t.size, (s.circuit.cell p).gadget.legs = [(q : Int)]) :
    Realizes c t (s.withGadget p) todo where
  wellFormed := h.wellFormed
  size := h.size
  listed := fun p hp => h.listed p (mem_cons_of_mem _ hp)
  allowed := by
    intro k hk
    rcases mem_append.mp hk with hk | hk
    · exact h.allowed k hk
    · rw [mem_singleton.mp hk]
      exact hq
  coupled := h.coupled
  kinds := by
    simpa [Synthesis.withGadget, filterMap_cons, Placed.kind?, Cell.kind, Cell.gadget] using h.kinds
  unitary := by
    intro value
    rw [← h.unitary value]
    simp only [Synthesis.withGadget, map_append, map_cons, map_nil, append_assoc,
      cons_append, nil_append, Placed.unitary]

lemma perm {b : Basis} {js ks : List Nat} {later : List (Basis × Nat)}
    (h : Realizes c t s (js.map (Prod.mk b) ++ later)) (hp : js.Perm ks) :
    Realizes c t s (ks.map (Prod.mk b) ++ later) where
  wellFormed := h.wellFormed
  size := h.size
  listed := fun p hk => h.listed p ((((hp.map _).append_right later).mem_iff).mpr hk)
  allowed := h.allowed
  coupled := h.coupled
  kinds := by
    refine List.Perm.trans ?_ h.kinds
    exact (((hp.symm.map _).append_right later).map _).append_left _
  unitary := by
    intro value
    rw [← h.unitary value]
    have hrun : inOrder ((ks.map (Prod.mk b)).map fun p =>
          (s.circuit.cell p).gadget.unitary c.size value) =
        inOrder ((js.map (Prod.mk b)).map fun p =>
          (s.circuit.cell p).gadget.unitary c.size value) := by
      refine inOrder_perm ((hp.symm.map _).map _) ?_
      rw [map_map]
      refine pairwise_map.mpr (pairwise_of_forall fun i j => ?_)
      exact Gadget.unitary_commute value rfl
    simp only [map_append, inOrder_append, hrun]

end Realizes

lemma run_bind_ok {α β : Type} {x : Synth α} {a : α} {s' : Synthesis} (h : x.run s = .ok (a, s'))
    (f : α → Synth β) : (x >>= f).run s = (f a).run s' := by
  rw [StateT.run_bind, h, ok_bind]

variable {α : Type} {xs : List α} {step : Synthesis → α → Synthesis} {I : Synthesis → Prop}
variable {f : α → Synth Bool}

lemma filterM_run {p : α → Bool}
    (h : ∀ s, I s → ∀ x ∈ xs, (f x).run s = .ok (p x, step s x) ∧ I (step s x)) (hs : I s) :
    (xs.filterM f).run s = .ok (xs.filter p, xs.foldl step s) := by
  have haux : ∀ (ys acc : List α) (s : Synthesis), (∀ x ∈ ys, x ∈ xs) → I s →
      (ys.filterAuxM f acc).run s = .ok ((ys.filter p).reverse ++ acc, ys.foldl step s) := by
    intro ys
    induction ys with
    | nil => exact fun acc s _ _ => rfl
    | cons y ys ih =>
      intro acc s hys hs
      obtain ⟨hrun, hI⟩ := h s hs y (hys y mem_cons_self)
      rw [List.filterAuxM, run_bind_ok hrun]
      grind
  rw [List.filterM, run_bind_ok (haux xs [] s (fun _ hx => hx) hs)]
  simp only [append_nil, reverse_reverse]
  rfl

lemma filterM_look {p : α → Bool} (h : ∀ x ∈ xs, (f x).run s = .ok (p x, s)) :
    (xs.filterM f).run s = .ok (xs.filter p, s) := by
  have hrun : (xs.filterM f).run s = .ok (xs.filter p, xs.foldl (fun s _ => s) s) := by
    refine filterM_run (I := fun s' => s' = s) ?_ rfl
    rintro _ rfl x hx
    exact ⟨h x hx, rfl⟩
  rw [hrun, foldl_fixed]

lemma mapM_look {β : Type} {f : α → Synth β} {g : α → β}
    (h : ∀ x ∈ xs, (f x).run s = .ok (g x, s)) : (xs.mapM f).run s = .ok (xs.map g, s) := by
  induction xs with
  | nil => rfl
  | cons x xs ih =>
    rw [mapM_cons, run_bind_ok (h x mem_cons_self),
      run_bind_ok (ih fun y hy => h y (mem_cons_of_mem x hy))]
    rfl

lemma liftM_run {x : Except Error α} {a : α} (h : x = .ok a) :
    (liftM x : Synth α).run s = .ok (a, s) := by
  subst h
  rfl

lemma forIn_run {f : α → PUnit → Synth (ForInStep PUnit)}
    (h : ∀ s, I s → ∀ x ∈ xs, (f x ⟨⟩).run s = .ok (.yield ⟨⟩, step s x) ∧ I (step s x))
    (hs : I s) :
    (forIn xs PUnit.unit f).run s = .ok (⟨⟩, xs.foldl step s) := by
  induction xs generalizing s with
  | nil => rfl
  | cons x xs ih =>
    obtain ⟨hrun, hI⟩ := h s hs x mem_cons_self
    rw [forIn_cons, run_bind_ok hrun, foldl_cons]
    exact ih (fun s hs y hy => h s hs y (mem_cons_of_mem x hy)) hI

lemma leastAt_lt {ns : List Nat} (h : ns ≠ []) : ∃ k < ns.length, leastAt ns = some k := by
  cases ns with
  | nil => exact absurd rfl h
  | cons n ns =>
    refine findIdx?_beq_of_mem ?_
    rw [foldl_cons, Nat.min_self]
    exact foldl_mem (fun a b => (Nat.le_total a b).imp Nat.min_eq_left Nat.min_eq_right) n ns

lemma greatestAt_lt {ns : List Nat} (h : ns ≠ []) : ∃ k < ns.length, greatestAt ns = some k := by
  cases ns with
  | nil => exact absurd rfl h
  | cons n ns =>
    refine findIdx?_beq_of_mem ?_
    rw [foldl_cons, Nat.max_self]
    exact foldl_mem (fun a b => (Nat.le_total b a).imp Nat.max_eq_left Nat.max_eq_right) n ns

def leg (s : Synthesis) (b : Basis) (j q : Nat) : Bool :=
  ((s.circuit.cell (b, j)).column[q]?).getD false

variable {b : Basis} {j q : Nat}

lemma leg_iff : s.leg b j q ↔ q ∈ GadgetTable.legsOf (s.circuit.cell (b, j)).column := by
  rw [mem_legsOf, leg]
  cases (s.circuit.cell (b, j)).column[q]? with
  | none => simp
  | some b => simp

lemma filter_leg_qubits {j : Nat}
    (h : (s.circuit.cell (b, j)).column.length = t.size) :
    t.qubits.filter (s.leg b j) = GadgetTable.legsOf (s.circuit.cell (b, j)).column := by
  refine List.Pairwise.eq_of_mem_iff (pairwise_lt_range.filter _) (legsOf_sorted _) fun q => ?_
  rw [mem_filter, leg_iff]
  refine and_iff_right_of_imp fun hq => mem_range.mpr ?_
  rw [← h]
  exact (List.getElem?_eq_some_iff.mp (mem_legsOf.mp hq)).1

lemma legsOf_eq_singleton (h : ∀ r, s.leg b j r ↔ r = q) :
    GadgetTable.legsOf (s.circuit.cell (b, j)).column = [q] := by
  have hmem : ∀ r, r ∈ GadgetTable.legsOf (s.circuit.cell (b, j)).column ↔ r ∈ [q] := by
    intro r
    rw [← leg_iff, h, mem_singleton]
  exact perm_singleton.mp ((perm_ext_iff_of_nodup (legsOf_nodup _) (nodup_singleton q)).mpr hmem)

lemma hasLeg_run (hq : q < (s.circuit.cell (b, j)).column.length) :
    (hasLeg b j q).run s = .ok (s.leg b j q, s) := by
  have hcol : ((s.circuit.table b).column j)[q]? = some (s.leg b j q) := by
    change (s.circuit.cell (b, j)).column[q]? = _
    rw [leg, getElem?_eq_getElem hq, Option.getD_some]
  simp only [hasLeg, StateT.run_bind, StateT.run_get, pure_bind, hcol, StateT.run_pure]
  rfl

lemma legsAmong_run {j : Nat} {qs : List Nat}
    (hq : ∀ q ∈ qs, q < (s.circuit.cell (b, j)).column.length) :
    (legsAmong b j qs).run s = .ok (qs.filter (s.leg b j), s) :=
  filterM_look fun q h => hasLeg_run (hq q h)

lemma legCount_run (b : Basis) (j : Nat) :
    (legCount b j).run s = .ok ((GadgetTable.legsOf (s.circuit.cell (b, j)).column).length, s) := rfl

lemma placeGadget_run (h : GadgetTable.legsOf (s.circuit.cell (b, j)).column = [q]) :
    (placeGadget b j [q]).run s = .ok ((), s.withGadget (b, j)) := by
  have hsort : sortInts [(q : Int)] = [(q : Int)] := by simp [sortInts, eraseDups_cons]
  simp [placeGadget, withGadget, Cell.gadget, h, hsort]
  rfl

/-- The gate that adds the legs on a qubit to those on another, for gadgets of a basis. -/
def adding (b : Basis) (source goal : Nat) : CX :=
  match b with
  | .z => (goal, source)
  | .x => (source, goal)

lemma cell_adding (s : Synthesis) (b : Basis) (source goal j : Nat) :
    ((s.withCX (adding b source goal)).circuit.cell (b, j)).column =
      GadgetTable.crossed source goal (s.circuit.cell (b, j)).column := by
  rw [withCX, cell_conjugate]
  cases b with
  | z => rfl
  | x => rfl

lemma leg_adding_of_ne (s : Synthesis) (b : Basis) (source : Nat) {goal q : Nat} (j : Nat)
    (h : q ≠ goal) : (s.withCX (adding b source goal)).leg b j q = s.leg b j q := by
  rw [leg, cell_adding, crossed_getElem?, if_neg h, leg]

lemma leg_adding {goal j : Nat} (source : Nat)
    (h : goal < (s.circuit.cell (b, j)).column.length) :
    (s.withCX (adding b source goal)).leg b j goal = xor (s.leg b j goal) (s.leg b j source) := by
  rw [leg, cell_adding, crossed_getElem?, if_pos rfl, leg, getElem?_eq_getElem h]
  rfl

namespace Realizes

lemma adding (h : Realizes c t s todo) (ht : t.WellFormed) (b : Basis) {source goal : Nat}
    (hc : t.hasCoupling source goal) :
    Realizes c t (s.withCX (Synthesis.adding b source goal)) todo := by
  obtain ⟨hne, -, -⟩ := Topology.ends_of_hasCoupling ht hc
  cases b with
  | z => exact h.withCX hne.symm (by rw [Topology.hasCoupling_comm]; exact hc)
  | x => exact h.withCX hne hc

lemma column_length (h : Realizes c t s todo) {b : Basis} {j : Nat} (hj : (b, j) ∈ todo) :
    (s.circuit.cell (b, j)).column.length = c.size :=
  (h.cell_proper hj).1

lemma leg_lt (h : Realizes c t s todo) {b : Basis} {j q : Nat} (hj : (b, j) ∈ todo)
    (hq : s.leg b j q) : q < c.size := by
  rw [← h.column_length hj]
  exact (List.getElem?_eq_some_iff.mp (mem_legsOf.mp (leg_iff.mp hq))).1

end Realizes

lemma runs_flatMap (ps : List (Basis × Nat)) :
    (runs ps).flatMap (fun r => r.2.map (Prod.mk r.1)) = ps := by
  induction ps with
  | nil => rfl
  | cons p ps ih =>
    rcases p with ⟨b, j⟩
    rw [runs]
    grind

lemma undoing_ok (ht : t.WellFormed) {cxs : List CX} (hc : ∀ g ∈ cxs, t.hasCoupling g.1 g.2) :
    ∃ u, undoing t cxs = .ok u ∧ u.layers.flatMap gates = cxs.reverse := by
  have hflip : ∀ g ∈ cxs.reverse, (empty t).flip g.1 g.2 =
      .ok ((empty t).insert g) := by
    intro g hg
    have hk := hc g (mem_reverse.mp hg)
    obtain ⟨hne, h₁, h₂⟩ := Topology.ends_of_hasCoupling ht hk
    refine CXLayer.flip_of_apart (CXLayer.empty_valid t) hne h₁ h₂ ?_ ?_
    · exact contains_iff_mem.mp hk
    · exact fun k hk => absurd hk not_mem_nil
  have hsame : ∀ l ∈ cxs.reverse.map (CXLayer.empty t).insert, l.topology.same t := by
    intro l hl
    obtain ⟨g, -, rfl⟩ := mem_map.mp hl
    simp [CXLayer.insert, CXLayer.empty, Topology.same]
  refine ⟨{ topology := t, layers := cxs.reverse.map (CXLayer.empty t).insert }, ?_, ?_⟩
  · rw [undoing, mapM_ok hflip, ok_bind, CXCircuit.ofLayers, if_pos]
    rw [all_eq_true]
    exact hsame
  · change (cxs.reverse.map (empty t).insert).flatMap gates = cxs.reverse
    rw [flatMap_map]
    exact flatMap_singleton' _

/-- What is placed and then undone is the sequence of gadgets, on any reading of the angles. All CX
gates are on couplings, all gadgets have one leg, and they are the given ones in another order. -/
structure Result.Correct (gs : List Gadget) (t : Topology) (r : Result) : Prop where
  unitary : ∀ value : AngleExpr → ℝ,
    inOrder (r.placed.map (Placed.unitary t.size value) ++
        (r.undo.layers.flatMap gates).map (CX.unitary t.size)) =
      inOrder (gs.map (Gadget.unitary t.size value))
  placed : ∀ p ∈ r.placed, p.Allowed t
  undo : ∀ l ∈ r.undo.layers, ∀ g ∈ l.gates, t.hasCoupling g.1 g.2 = true
  kinds : (r.placed.filterMap Placed.kind?).Perm (gs.map fun g => (g.basis, g.angle))

lemma perform_correct (hc : c.WellFormed) (hs : c.size = t.size) (ht : t.WellFormed)
    {body : Synth Unit}
    (hb : ∀ s, Realizes c t s c.places → ∃ s', body.run s = .ok ((), s') ∧ Realizes c t s' []) :
    ∃ gs r, c.gadgets = .ok gs ∧ perform c t body = .ok r ∧ r.Correct gs t := by
  refine ⟨c.cells.map Cell.gadget, ?_⟩
  rw [perform, gadgets_eq hc, ok_bind]
  cases hcells : c.cells with
  | nil =>
    refine ⟨{ placed := [], undo := { topology := t }, residual := c }, rfl, rfl, ?_⟩
    exact ⟨fun _ => rfl, by simp, by simp, by simp⟩
  | cons k ks =>
    obtain ⟨s, hrun, h⟩ := hb _ (Realizes.start hc t)
    obtain ⟨u, hu, hgates⟩ := undoing_ok ht h.coupled
    rw [← hcells]
    refine ⟨{ placed := s.placed, undo := u, residual := s.circuit }, rfl, ?_, ?_, h.allowed, ?_, ?_⟩
    · rw [if_neg (by simp [hcells]), hrun, ok_bind]
      simp only [hu, ok_bind]
      rfl
    · intro value
      have hunitary := h.unitary value
      rw [hs] at hunitary
      rw [hgates, map_map]
      simpa [Function.comp_def] using hunitary
    · intro l hl g hg
      have hmem : g ∈ u.layers.flatMap gates := mem_flatMap.mpr ⟨l, hl, hg⟩
      rw [hgates, mem_reverse] at hmem
      exact h.coupled g hmem
    · have hkinds := h.kinds
      rw [map_nil, append_nil] at hkinds
      rw [map_map]
      exact hkinds

end Synthesis

end GadgetCircuits
