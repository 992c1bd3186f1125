import GadgetCircuits.Graph.Standard
import GadgetCircuits.Phase.GraySynthesis
import GadgetCircuits.Proofs.Synthesis

/-!
Synthesis by recursion on qubits. The gadgets of a call have all their legs in a linked part of the
topology, and the call places CX gates inside that part only, while gadgets that wait have their legs
outside. Each round takes the leg on the chosen qubit from at least one gadget, so the rounds come to an
end.
-/

namespace GadgetCircuits

open List GadgetTable Bool

namespace GraySynthesis

open Synthesis

variable {c : PhaseCircuit} {t : Topology} {b : Basis} {s : Synthesis} {js : List Nat}
variable {later : List (Basis × Nat)} {take : Nat → Synth Bool}

def takeAll (b : Basis) (js : List Nat) (s : Synthesis) : Synthesis :=
  js.foldl (fun s j => s.withGadget (b, j)) s

lemma takeAll_circuit (b : Basis) (js : List Nat) (s : Synthesis) :
    (takeAll b js s).circuit = s.circuit := by
  induction js generalizing s with
  | nil => rfl
  | cons j js ih => exact ih (s.withGadget (b, j))

lemma takeAll_leg (b : Basis) (js : List Nat) (s : Synthesis) (b' : Basis) (j q : Nat) :
    (takeAll b js s).leg b' j q = s.leg b' j q := by
  rw [leg, takeAll_circuit, leg]

def Single (s : Synthesis) (b : Basis) (j : Nat) : Prop :=
  ∃ q, legsOf (s.circuit.cell (b, j)).column = [q]

lemma single_iff {j : Nat} : Single s b j ↔ (legsOf (s.circuit.cell (b, j)).column).length = 1 :=
  length_eq_one_iff.symm

lemma realizes_takeAll {taken rest : List Nat}
    (h : Realizes c t s ((taken ++ rest).map (Prod.mk b) ++ later)) (hs : c.size = t.size)
    (ht : ∀ j ∈ taken, Single s b j) :
    Realizes c t (takeAll b taken s) (rest.map (Prod.mk b) ++ later) := by
  induction taken generalizing s with
  | nil => exact h
  | cons j taken ih =>
    obtain ⟨q, hq⟩ := ht j mem_cons_self
    refine ih (Realizes.withGadget h ⟨q, ?_, ?_⟩) fun k hk => ht k (mem_cons_of_mem j hk)
    · have hlen := h.column_length (b := b) (j := j) mem_cons_self
      have hmem : q ∈ legsOf (s.circuit.cell (b, j)).column := by simp [hq]
      rw [← hs, ← hlen]
      exact (List.getElem?_eq_some_iff.mp (mem_legsOf.mp hmem)).1
    · simp [Cell.gadget, hq]

/-- The step looks at a column and may place its gadget. -/
def Takes (b : Basis) (take : Nat → Synth Bool) (r : Nat → Bool) (s : Synthesis) (js : List Nat) :
    Prop :=
  ∀ s' : Synthesis, s'.circuit = s.circuit → ∀ j ∈ js,
    (take j).run s' = .ok (r j, if r j then s'.withGadget (b, j) else s')

lemma filterM_takes {r : Nat → Bool} (h : Takes b take r s js) :
    (js.filterM fun j => do return !(← take j)).run s =
      .ok (js.filter (fun j => !r j), takeAll b (js.filter r) s) := by
  rw [takeAll, foldl_filter]
  refine filterM_run (I := fun s' => s'.circuit = s.circuit) ?_ rfl
  intro s' hs' j hj
  constructor
  · rw [run_bind_ok (h s' hs' j hj)]
    rfl
  · split
    · exact hs'
    · exact hs'

lemma sweep_takes {r : Nat → Bool} (h : Takes b take r s js) :
    ∃ taken kept, (sweep take js).run s = .ok (kept, takeAll b taken s) ∧
      (taken ++ kept).Perm js ∧ ∀ j ∈ taken, r j := by
  induction hn : js.length using Nat.strong_induction_on generalizing js s with
  | _ n ih =>
    cases js with
    | nil => exact ⟨[], [], rfl, .refl _, by simp⟩
    | cons j rest =>
      have hj := h s rfl j mem_cons_self
      rw [length_cons] at hn
      cases hr : r j with
      | false =>
        have hrest : Takes b take r s rest := fun s' hs' k hk =>
          h s' hs' k (mem_cons_of_mem j hk)
        obtain ⟨taken, kept, hrun, hp, htaken⟩ := ih rest.length (by omega) hrest rfl
        refine ⟨taken, j :: kept, ?_, perm_middle.trans (hp.cons j), htaken⟩
        rw [hr] at hj
        rw [sweep.eq_def, run_bind_ok hj]
        simp only [false_eq_true, if_false, run_bind_ok hrun]
        rfl
      | true =>
        rw [hr] at hj
        cases rest with
        | nil =>
          refine ⟨[j], [], ?_, .refl _, by simpa using hr⟩
          rw [sweep, run_bind_ok hj]
          rfl
        | cons k more =>
          have hmore : Takes b take r (s.withGadget (b, j)) more := fun s' hs' i hi =>
            h s' hs' i (mem_cons_of_mem j (mem_cons_of_mem k hi))
          rw [length_cons] at hn
          obtain ⟨taken, kept, hrun, hp, htaken⟩ := ih more.length (by omega) hmore rfl
          refine ⟨j :: taken, k :: kept, ?_, (perm_middle.trans (hp.cons k)).cons j, ?_⟩
          · rw [sweep, run_bind_ok hj]
            simp only [if_true, run_bind_ok hrun]
            rfl
          · simp_all

variable {part : List Nat}

lemma legsOf_eq_of_part {j q : Nat}
    (hlegs : ∀ q, s.leg b j q → q ∈ part) (h : part.filter (s.leg b j) = [q]) :
    legsOf (s.circuit.cell (b, j)).column = [q] := by
  refine legsOf_eq_singleton fun r => ?_
  have hmem : r ∈ part.filter (s.leg b j) ↔ r = q := by rw [h, mem_singleton]
  rw [← hmem, mem_filter]
  exact (and_iff_right_of_imp (hlegs r)).symm

lemma placeSingle_takes (h : ∀ j ∈ js, (s.circuit.cell (b, j)).column.length = t.size) :
    Takes b (placeSingle t b)
      (fun j => decide ((legsOf (s.circuit.cell (b, j)).column).length = 1)) s js := by
  intro s' hs' j hj
  have hlen := h j hj
  rw [← hs'] at hlen ⊢
  have hqubits : ∀ q ∈ t.qubits, q < (s'.circuit.cell (b, j)).column.length := by
    intro q hq
    rw [hlen]
    exact mem_range.mp hq
  simp only [placeSingle, StateT.run_bind, legCount_run, ok_bind]
  by_cases hone : (legsOf (s'.circuit.cell (b, j)).column).length = 1
  · obtain ⟨q, hq⟩ := length_eq_one_iff.mp hone
    have hplace := placeGadget_run hq
    simp only [hone, if_true, decide_true]
    simp only [StateT.run_bind, legsAmong_run hqubits, filter_leg_qubits hlen, ok_bind, hq, hplace]
    rfl
  · simp only [hone, if_false, decide_false, false_eq_true]
    rfl

lemma placeSingleIn_takes (hp : ∀ q ∈ part, q < t.size)
    (h : ∀ j ∈ js, (s.circuit.cell (b, j)).column.length = t.size)
    (hlegs : ∀ j ∈ js, ∀ q, s.leg b j q → q ∈ part) :
    Takes b (placeSingleIn part b) (fun j => decide ((part.filter (s.leg b j)).length = 1)) s js := by
  intro s' hs' j hj
  have hleg : s'.leg = s.leg := by
    funext b j q
    rw [leg, hs', leg]
  have hlen := h j hj
  have hlegs := hlegs j hj
  rw [← hs'] at hlen
  rw [← hleg] at hlegs ⊢
  have hpart : ∀ q ∈ part, q < (s'.circuit.cell (b, j)).column.length := by
    intro q hq
    rw [hlen]
    exact hp q hq
  simp only [placeSingleIn, StateT.run_bind, legsAmong_run hpart, ok_bind]
  by_cases hone : (part.filter (s'.leg b j)).length = 1
  · obtain ⟨q, hq⟩ := length_eq_one_iff.mp hone
    have hplace := placeGadget_run (legsOf_eq_of_part hlegs hq)
    simp_all
  · simp only [hone, if_false, decide_false, false_eq_true]
    rfl

section Choices

variable {row : Nat}
variable (hlen : ∀ j ∈ js, (s.circuit.cell (b, j)).column.length = t.size)
include hlen

lemma hasLeg_look {j q : Nat} (hj : j ∈ js) (hq : q < t.size) :
    (hasLeg b j q).run s = .ok (s.leg b j q, s) :=
  hasLeg_run (by rwa [hlen j hj])

lemma split_run (hr : row < t.size) : (split b js row).run s =
      .ok ((js.filter fun j => !s.leg b j row, js.filter fun j => s.leg b j row), s) := by
  have hwithout : (js.filterM fun j => do return !(← hasLeg b j row)).run s =
      .ok (js.filter fun j => !s.leg b j row, s) := by
    refine filterM_look fun j hj => ?_
    rw [run_bind_ok (hasLeg_look hlen hj hr)]
    rfl
  have hhaving : (js.filterM fun j => hasLeg b j row).run s =
      .ok (js.filter fun j => s.leg b j row, s) :=
    filterM_look fun j hj => hasLeg_look hlen hj hr
  rw [split, run_bind_ok hwithout, run_bind_ok hhaving]
  rfl

lemma splitQubit_run [SetOrder] (ht : t.WellFormed) (hl : t.Linked part) (hne : part ≠ [])
    (hp : ∀ q ∈ part, q < t.size) :
    ∃ r ∈ part, (t.part part).isCut r = false ∧ (splitQubit t b js part).run s = .ok (r, s) := by
  have hmem : ∀ r, r ∈ removable t part ↔ r ∈ part ∧ (t.part part).isCut r = false := by
    intro r
    rw [removable, mem_filter, not_eq_true']
  obtain ⟨q, hq, hcut⟩ := hl.exists_not_cut ht hne hp
  have hrows : removable t part ≠ [] := ne_nil_of_mem ((hmem q).mpr ⟨hq, hcut⟩)
  let counts (r : Nat) : List Nat := (js.filter fun j => s.leg b j r).map fun j =>
    (legsOf (s.circuit.cell (b, j)).column).length
  let size (r : Nat) : Nat := (counts r).head?.elim t.size ((counts r).tail.foldl max)
  have hsome : (removable t part).map size ≠ [] := by simpa using hrows
  obtain ⟨k, hk, hgreatest⟩ := greatestAt_lt hsome
  rw [length_map] at hk
  obtain ⟨hr, hrcut⟩ := (hmem _).mp (getElem_mem hk)
  refine ⟨(removable t part)[k], hr, hrcut, ?_⟩
  rw [splitQubit, StateT.run_bind, mapM_look (g := size), ok_bind]
  · simp only [hgreatest, Option.bind_some, getElem?_eq_getElem hk]
    rfl
  · intro r hr
    have hr' := hp r ((hmem r).mp hr).1
    rw [run_bind_ok (filterM_look fun j hj => hasLeg_look hlen hj hr'),
      run_bind_ok (mapM_look fun j _ => legCount_run b j)]
    simp only [size, counts]
    cases (js.filter fun j => s.leg b j r).map fun j =>
      (legsOf (s.circuit.cell (b, j)).column).length with
    | nil => rfl
    | cons n more => rfl

lemma busiestNeighbour_run [SetOrder] (hp : ∀ q ∈ part, q < t.size)
    (hn : ∃ n ∈ part, n ≠ row ∧ t.hasCoupling row n) :
    ∃ n ∈ part, n ≠ row ∧ t.hasCoupling row n ∧ (busiestNeighbour t b js part row).run s =
        .ok ((n, (js.filter fun j => s.leg b j n).length), s) := by
  -- Only which neighbours there are matters, not their order.
  have hmem : ∀ n, n ∈ (SetOrder.arrange (some row) (t.adjacent row)).filter part.contains ↔
      n < t.size ∧ n ≠ row ∧ t.hasCoupling row n ∧ n ∈ part := by
    intro n
    simp only [(SetOrder.perm _ _).mem_iff, Topology.adjacent, Topology.qubits, mem_filter, mem_range,
      contains_iff_mem, and_eq_true, bne_iff_ne]
    tauto
  generalize hns : (SetOrder.arrange (some row) (t.adjacent row)).filter part.contains = ns at hmem
  obtain ⟨m, hm, hmr, hmc⟩ := hn
  have hne : ns ≠ [] := ne_nil_of_mem ((hmem m).mpr ⟨hp m hm, hmr, hmc, hm⟩)
  have hcounts : (ns.mapM fun q => do
      return (← js.filterM fun j => hasLeg b j q).length : Synth (List Nat)).run s =
      .ok (ns.map fun q => (js.filter fun j => s.leg b j q).length, s) := by
    refine mapM_look fun q hq => ?_
    rw [run_bind_ok (filterM_look fun j hj => hasLeg_look hlen hj ((hmem q).mp hq).1)]
    rfl
  have hsome : ns.map (fun q => (js.filter fun j => s.leg b j q).length) ≠ [] := by simpa using hne
  obtain ⟨k, hk, hgreatest⟩ := greatestAt_lt hsome
  rw [length_map] at hk
  obtain ⟨-, hkr, hkc, hkp⟩ := (hmem _).mp (getElem_mem hk)
  refine ⟨ns[k], hkp, hkr, hkc, ?_⟩
  simp only [busiestNeighbour, hns]
  rw [run_bind_ok hcounts]
  simp only [hgreatest, getElem?_map, getElem?_eq_getElem hk, Option.map_some, Option.getD_some]
  rfl

end Choices

def Outside (b : Basis) (part : List Nat) (s s' : Synthesis) : Prop :=
  ∀ j q, q ∉ part → s'.leg b j q = s.leg b j q

lemma Outside.trans {s₁ s₂ s₃ : Synthesis} (h₁ : Outside b part s₁ s₂)
    (h₂ : Outside b part s₂ s₃) : Outside b part s₁ s₃ :=
  fun j q hq => (h₂ j q hq).trans (h₁ j q hq)

lemma Outside.mono {part part' : List Nat} {s₁ s₂ : Synthesis} (h : Outside b part s₁ s₂)
    (hp : ∀ q ∈ part, q ∈ part') : Outside b part' s₁ s₂ :=
  fun j q hq => h j q fun hm => hq (hp q hm)

lemma outside_adding {goal : Nat} (hg : goal ∈ part) (s : Synthesis) (b : Basis)
    (source : Nat) : Outside b part s (s.withCX (adding b source goal)) := by
  intro j q hq
  refine leg_adding_of_ne s b source j ?_
  rintro rfl
  exact hq hg

lemma outside_takeAll (part : List Nat) (js : List Nat) (s : Synthesis) :
    Outside b part s (takeAll b js s) :=
  fun j q _ => takeAll_leg b js s b j q

/-- The gadgets `js` are to be done on a linked part that has all their legs, before those that wait
and those of later runs. -/
structure Ready (c : PhaseCircuit) (t : Topology) (b : Basis) (s : Synthesis) (js waiting : List Nat)
    (later : List (Basis × Nat)) (part : List Nat) : Prop where
  realizes : Realizes c t s ((js ++ waiting).map (Prod.mk b) ++ later)
  linked : t.Linked part
  qubits : ∀ q ∈ part, q < t.size
  legs : ∀ j ∈ js, ∀ q, s.leg b j q = true → q ∈ part

/-- The steps place the gadgets before those that wait, with CX gates inside the part. -/
def Finishes (c : PhaseCircuit) (t : Topology) (b : Basis) (x : Synth Unit) (s : Synthesis)
    (waiting : List Nat) (later : List (Basis × Nat)) (part : List Nat) : Prop :=
  ∃ s', x.run s = .ok ((), s') ∧ Realizes c t s' (waiting.map (Prod.mk b) ++ later) ∧
    Outside b part s s'

def PlacesOn [SetOrder] (c : PhaseCircuit) (t : Topology) (b : Basis) (fuel : Nat) : Prop :=
  ∀ {s : Synthesis} {js waiting : List Nat} {later : List (Basis × Nat)} {part : List Nat},
    Ready c t b s js waiting later part → part.length * (js.length + 2) + 1 ≤ fuel →
    Finishes c t b (placeOn t b fuel js part) s waiting later part

def PlacesAt [SetOrder] (c : PhaseCircuit) (t : Topology) (b : Basis) (fuel : Nat) : Prop :=
  ∀ {s : Synthesis} {js waiting : List Nat} {later : List (Basis × Nat)} {part : List Nat} {row : Nat},
    Ready c t b s js waiting later part → row ∈ part → t.Linked (part.filter (· != row)) →
    (∀ j ∈ js, s.leg b j row = true) → part.length * (js.length + 2) ≤ fuel →
    Finishes c t b (placeAt t b fuel js part row) s waiting later part

section Rounds

variable {waiting : List Nat} {row fuel : Nat}

lemma mem_filter_ne {q : Nat} : q ∈ part.filter (· != row) ↔ q ∈ part ∧ q ≠ row := by
  rw [mem_filter, bne_iff_ne]

lemma placeFor_run (b : Basis) (goal source : Nat) :
    (placeFor b goal source).run s = .ok ((), s.withCX (adding b source goal)) := by
  cases b with
  | z => rfl
  | x => rfl

/-- The gadgets `js'` of `js` are left to be done, and fewer have a leg on the qubit. -/
structure Cleared (c : PhaseCircuit) (t : Topology) (b : Basis) (s : Synthesis)
    (js waiting : List Nat) (later : List (Basis × Nat)) (part : List Nat) (row : Nat)
    (s' : Synthesis) (js' : List Nat) : Prop where
  ready : Ready c t b s' js' waiting later part
  length : js'.length ≤ js.length
  fewer : (js'.filter fun j => s'.leg b j row).length < js.length
  outside : Outside b part s s'

lemma exists_other_leg {j : Nat} (hrow : s.leg b j row) (hj : ¬ Single s b j) :
    ∃ q, q ≠ row ∧ s.leg b j q := by
  by_contra hnone
  refine hj ⟨row, legsOf_eq_singleton fun q => ⟨fun hq => ?_, ?_⟩⟩
  · by_contra hne
    exact hnone ⟨q, hne, hq⟩
  · rintro rfl
    exact hrow

lemma mul_pred_add {p : Nat} (hp : 0 < p) (m : Nat) : (p - 1) * m + m = p * m := by
  rw [← Nat.succ_mul, Nat.succ_eq_add_one, Nat.sub_add_cancel hp]

section Step

variable (hs : c.size = t.size) (ht : t.WellFormed) (h : Ready c t b s js waiting later part)
  (hrow : row ∈ part) (hlegs : ∀ j ∈ js, s.leg b j row)
include h

lemma Ready.without (hl : t.Linked (part.filter (· != row))) :
    Ready c t b s (js.filter fun j => !s.leg b j row)
      ((js.filter fun j => s.leg b j row) ++ waiting) later (part.filter (· != row)) := by
  have hperm : (js ++ waiting).Perm ((js.filter fun j => !s.leg b j row) ++
      ((js.filter fun j => s.leg b j row) ++ waiting)) := by
    have hsplit := filter_append_perm (fun j => s.leg b j row) js
    rw [← append_assoc]
    exact (hsplit.symm.trans perm_append_comm).append_right waiting
  refine ⟨h.realizes.perm hperm, hl, fun q hq => h.qubits q (mem_filter_ne.mp hq).1, ?_⟩
  intro j hj q hq
  obtain ⟨hj, hno⟩ := mem_filter.mp hj
  refine mem_filter_ne.mpr ⟨h.legs j hj q hq, ?_⟩
  rintro rfl
  rw [hq] at hno
  cases hno

lemma Ready.having {s₁ : Synthesis} (hr : Realizes c t s₁
      (((js.filter fun j => s.leg b j row) ++ waiting).map (Prod.mk b) ++ later))
    (ho : Outside b (part.filter (· != row)) s s₁) :
    Ready c t b s₁ (js.filter fun j => s.leg b j row) waiting later part ∧
      ∀ j ∈ js.filter fun j => s.leg b j row, s₁.leg b j row := by
  refine ⟨⟨hr, h.linked, h.qubits, fun j hj q hq => ?_⟩, fun j hj => ?_⟩
  · by_cases hqp : q ∈ part.filter (· != row)
    · exact (mem_filter_ne.mp hqp).1
    · rw [ho j q hqp] at hq
      exact h.legs j (mem_filter.mp hj).1 q hq
  · rw [ho j row (by simp)]
    exact (mem_filter.mp hj).2

include ht in
lemma Ready.adding {source goal : Nat} (hg : goal ∈ part) (hc : t.hasCoupling source goal) :
    Ready c t b (s.withCX (Synthesis.adding b source goal)) js waiting later part := by
  refine ⟨h.realizes.adding ht b hc, h.linked, h.qubits, fun j hj q hq => ?_⟩
  by_cases e : q = goal
  · exact e ▸ hg
  · rw [leg_adding_of_ne s b source j e] at hq
    exact h.legs j hj q hq

include hs

lemma Ready.column_length : ∀ j ∈ js, (s.circuit.cell (b, j)).column.length = t.size := by
  intro j hj
  rw [← hs]
  refine h.realizes.column_length (mem_append_left _ (mem_map_of_mem ?_))
  exact mem_append_left _ hj

lemma Ready.takeAll {taken kept : List Nat} (hp : (taken ++ kept).Perm js)
    (hone : ∀ j ∈ taken, Single s b j) :
    Ready c t b (takeAll b taken s) kept waiting later part := by
  refine ⟨realizes_takeAll ?_ hs hone, h.linked, h.qubits, fun j hj q hq => ?_⟩
  · rw [← append_assoc]
    exact h.realizes.perm (hp.symm.append_right waiting)
  · rw [takeAll_leg] at hq
    exact h.legs j (hp.mem_iff.mp (mem_append_right taken hj)) q hq

include hrow in
lemma split_finishes [SetOrder] (hon : PlacesOn c t b fuel) (hat : PlacesAt c t b fuel)
    (hl : t.Linked (part.filter (· != row)))
    (hfon : (part.length - 1) * (js.length + 2) + 1 ≤ fuel)
    (hfat : part.length * ((js.filter fun j => s.leg b j row).length + 2) ≤ fuel) :
    Finishes c t b (do
      let (without, having) ← split b js row
      placeOn t b fuel without (part.filter (· != row))
      placeAt t b fuel having part row) s waiting later part := by
  have hlen : (part.filter (· != row)).length ≤ part.length - 1 := by
    have hlt : (part.filter (· != row)).length < part.length :=
      length_filter_lt_length_iff_exists.mpr ⟨row, hrow, by simp⟩
    omega
  have hfuel : (part.filter (· != row)).length *
      ((js.filter fun j => !s.leg b j row).length + 2) + 1 ≤ fuel := by
    have hle := length_filter_le (fun j => !s.leg b j row) js
    exact Nat.le_trans (Nat.add_le_add_right (Nat.mul_le_mul hlen (by omega)) 1) hfon
  obtain ⟨s₁, hrun₁, hr₁, ho₁⟩ := hon (h.without hl) hfuel
  obtain ⟨h₁, hkeep⟩ := h.having hr₁ ho₁
  obtain ⟨s₂, hrun₂, hr₂, ho₂⟩ := hat h₁ hrow hl hkeep hfat
  refine ⟨s₂, ?_, hr₂, (ho₁.mono fun q hq => (mem_filter_ne.mp hq).1).trans ho₂⟩
  rw [run_bind_ok (split_run (h.column_length hs) (h.qubits row hrow))]
  dsimp only
  rw [run_bind_ok hrun₁, hrun₂]

include hlegs

lemma takeSingles_run :
    ∃ s' kept, (js.filterM fun j => do return !(← placeSingle t b j)).run s = .ok (kept, s') ∧
      Ready c t b s' kept waiting later part ∧ kept.length ≤ js.length ∧
      (∀ j ∈ kept, s'.leg b j row ∧ ∃ q, q ≠ row ∧ s'.leg b j q) ∧
      Outside b part s s' := by
  have htakes := placeSingle_takes (h.column_length hs)
  generalize hr : (fun j => decide
    ((legsOf (s.circuit.cell (b, j)).column).length = 1)) = r at htakes
  have hsingle : ∀ j, r j ↔ Single s b j := by
    intro j
    rw [← hr, single_iff]
    exact decide_eq_true_iff
  refine ⟨_, _, filterM_takes htakes, ?_, length_filter_le _ _, fun j hj => ?_,
    outside_takeAll part (js.filter r) s⟩
  · exact h.takeAll hs (filter_append_perm r js) fun j hj =>
      (hsingle j).mp (mem_filter.mp hj).2
  · obtain ⟨hj, hmany⟩ := mem_filter.mp hj
    simp only [takeAll_leg]
    refine ⟨hlegs j hj, exists_other_leg (hlegs j hj) fun hone => ?_⟩
    rw [(hsingle j).mpr hone] at hmany
    cases hmany

include ht hrow

lemma cancel_cleared {n : Nat} (hc : t.hasCoupling n row)
    (hsome : 0 < (js.filter fun j => s.leg b j n).length) :
    ∃ s' js', (sweep (placeSingleIn part b) js).run (s.withCX (adding b n row)) = .ok (js', s') ∧
      Cleared c t b s js waiting later part row s' js' := by
  have h₁ := h.adding ht hrow hc
  obtain ⟨taken, kept, hrun, hp, htaken⟩ :=
    sweep_takes (placeSingleIn_takes h.qubits (h₁.column_length hs) h₁.legs)
  have hsingle : ∀ j ∈ taken, Single (s.withCX (adding b n row)) b j := by
    intro j hj
    obtain ⟨q, hq⟩ := length_eq_one_iff.mp (of_decide_eq_true (htaken j hj))
    have hmem := hp.mem_iff.mp (mem_append_left kept hj)
    exact ⟨q, legsOf_eq_of_part (h₁.legs j hmem) hq⟩
  have hleg : ∀ j ∈ js, (s.withCX (adding b n row)).leg b j row = !s.leg b j n := by
    intro j hj
    rw [leg_adding n (by rw [h.column_length hs j hj]; exact h.qubits row hrow), hlegs j hj,
      true_xor]
  refine ⟨_, kept, hrun, h₁.takeAll hs hp hsingle, ?_, ?_,
    (outside_adding hrow s b n).trans (outside_takeAll part taken _)⟩
  · rw [← hp.length_eq, length_append]
    omega
  · simp only [takeAll_leg]
    obtain ⟨j, hj⟩ := exists_mem_of_length_pos hsome
    obtain ⟨hj, hjn⟩ := mem_filter.mp hj
    have hlt : (js.filter fun j => (s.withCX (adding b n row)).leg b j row).length < js.length :=
      length_filter_lt_length_iff_exists.mpr ⟨j, hj, by simp [hleg j hj, hjn]⟩
    have hle := (hp.filter fun j => (s.withCX (adding b n row)).leg b j row).length_eq
    rw [filter_append, length_append] at hle
    omega

variable {n : Nat} (hn : n ∈ part) (hne : n ≠ row) (hc : t.hasCoupling row n) (hsome : js ≠ [])
include hn hne hc hsome

lemma move_cleared (hfree : ∀ j ∈ js, s.leg b j n = false) :
    Cleared c t b s js waiting later part row
      ((s.withCX (adding b row n)).withCX (adding b n row)) js := by
  have h₁ := h.adding ht hn hc
  have h₂ := h₁.adding ht hrow (by rwa [Topology.hasCoupling_comm])
  have hleg : ∀ j ∈ js, ((s.withCX (adding b row n)).withCX (adding b n row)).leg b j row =
      false := by
    intro j hj
    rw [leg_adding n (by rw [h₁.column_length hs j hj]; exact h.qubits row hrow),
      leg_adding row (by rw [h.column_length hs j hj]; exact h.qubits n hn),
      leg_adding_of_ne s b row j hne.symm, hlegs j hj, hfree j hj]
    rfl
  refine ⟨h₂, Nat.le_refl _, ?_, (outside_adding hn s b row).trans (outside_adding hrow _ b n)⟩
  rw [filter_eq_nil_iff.mpr fun j hj => by simp [hleg j hj]]
  exact length_pos_of_ne_nil hsome

lemma clear_run : ∃ s' js', (∀ next : List Nat → Synth Unit,
        (if 0 < (js.filter fun j => s.leg b j n).length then do
          placeFor b row n
          next (← sweep (placeSingleIn part b) js)
        else do
          placeFor b n row
          placeFor b row n
          next (← pure js)).run s = (next js').run s') ∧
      Cleared c t b s js waiting later part row s' js' := by
  split
  · rename_i hcount
    have hc' : t.hasCoupling n row := by rwa [Topology.hasCoupling_comm]
    obtain ⟨s', js', hrun, hcleared⟩ := cancel_cleared hs ht h hrow hlegs hc' hcount
    refine ⟨s', js', fun next => ?_, hcleared⟩
    rw [run_bind_ok (placeFor_run ..), run_bind_ok hrun]
  · rename_i hcount
    have hfree : ∀ j ∈ js, s.leg b j n = false := by simp_all
    refine ⟨_, js, fun next => ?_, move_cleared hs ht h hrow hlegs hn hne hc hsome hfree⟩
    rw [run_bind_ok (placeFor_run ..), run_bind_ok (placeFor_run ..), pure_bind]

end Step

lemma placesAt_succ [SetOrder] (hs : c.size = t.size) (ht : t.WellFormed) (hon : PlacesOn c t b fuel)
    (hat : PlacesAt c t b fuel) : PlacesAt c t b (fuel + 1) := by
  intro s js waiting later part row h hrow hl hlegs hfuel
  obtain ⟨s₁, kept, htaken, h₁, hkept, hlegs₁, hout₁⟩ := takeSingles_run hs h hlegs
  rw [placeAt]
  cases kept with
  | nil =>
    refine ⟨s₁, ?_, h₁.realizes, hout₁⟩
    rw [run_bind_ok htaken]
    rfl
  | cons j₀ rest =>
    obtain ⟨-, q, hq, hleg⟩ := hlegs₁ j₀ mem_cons_self
    obtain ⟨n, hn, hne, hc, hbusiest⟩ := busiestNeighbour_run (h₁.column_length hs) h.qubits
      (h.linked.exists_neighbour hrow (h₁.legs j₀ mem_cons_self q hleg) hq.symm)
    obtain ⟨s₂, js', hclear, h₂, hle, hlt, hout₂⟩ := clear_run hs ht h₁ hrow
      (fun j hj => (hlegs₁ j hj).1) hn hne hc (cons_ne_nil j₀ rest)
    have hfon : (part.length - 1) * (js'.length + 2) + 1 ≤ fuel := by
      have hbound := mul_pred_add (length_pos_of_mem hrow) (js.length + 2)
      have hmul : (part.length - 1) * (js'.length + 2) ≤ (part.length - 1) * (js.length + 2) :=
        Nat.mul_le_mul_left _ (by omega)
      omega
    have hfat : part.length * ((js'.filter fun j => s₂.leg b j row).length + 2) ≤ fuel := by
      have hpos := length_pos_of_mem hrow
      have hmul : part.length * ((js'.filter fun j => s₂.leg b j row).length + 2) ≤
          part.length * (js.length + 1) := Nat.mul_le_mul_left _ (by omega)
      have hone : part.length * (js.length + 2) = part.length * (js.length + 1) + part.length := by
        rw [← Nat.mul_succ]
      omega
    obtain ⟨s₃, hrun₃, hr₃, hout₃⟩ := split_finishes hs h₂ hrow hon hat hl hfon hfat
    refine ⟨s₃, ?_, hr₃, (hout₁.trans hout₂).trans hout₃⟩
    rw [run_bind_ok htaken]
    simp only [isEmpty_cons, false_eq_true, if_false]
    rw [run_bind_ok hbusiest]
    exact (hclear _).trans hrun₃

lemma placesOn_succ [SetOrder] (hs : c.size = t.size) (ht : t.WellFormed) (hon : PlacesOn c t b fuel)
    (hat : PlacesAt c t b fuel) : PlacesOn c t b (fuel + 1) := by
  intro s js waiting later part h hfuel
  rw [placeOn]
  cases js with
  | nil =>
    refine ⟨s, ?_, h.realizes, fun _ _ _ => rfl⟩
    simp only [isEmpty_nil, Bool.or_true, if_true]
    rfl
  | cons j rest =>
    have hpart : part ≠ [] := by
      have hcell := h.realizes.cell_proper (p := (b, j)) mem_cons_self
      obtain ⟨q, hq⟩ := exists_mem_of_ne_nil _ (legsOf_ne_nil hcell.2)
      exact ne_nil_of_mem (h.legs j mem_cons_self q (leg_iff.mpr hq))
    obtain ⟨row, hrow, hcut, hsplit⟩ :=
      splitQubit_run (h.column_length hs) ht h.linked hpart h.qubits
    have hl := h.linked.filter ht h.qubits hrow hcut
    have hpos : 0 < part.length := length_pos_of_mem hrow
    have hfon : (part.length - 1) * ((j :: rest).length + 2) + 1 ≤ fuel := by
      have hmul := mul_pred_add hpos ((j :: rest).length + 2)
      omega
    have hfat : part.length * (((j :: rest).filter fun j => s.leg b j row).length + 2) ≤ fuel := by
      have hle := length_filter_le (fun j => s.leg b j row) (j :: rest)
      exact Nat.le_trans (Nat.mul_le_mul_left _ (by omega)) (Nat.le_of_succ_le_succ hfuel)
    obtain ⟨s', hrun, hr, hout⟩ := split_finishes hs h hrow hon hat hl hfon hfat
    refine ⟨s', ?_, hr, hout⟩
    have hempty : (part.isEmpty || (j :: rest).isEmpty) = false := by
      simpa using hpart
    rw [hempty]
    simp only [false_eq_true, if_false]
    rw [run_bind_ok hsplit]
    exact hrun

lemma places_right [SetOrder] (hs : c.size = t.size) (ht : t.WellFormed) (fuel : Nat) :
    PlacesOn c t b fuel ∧ PlacesAt c t b fuel := by
  induction fuel with
  | zero =>
    constructor
    · intro s js waiting later part _ hfuel
      omega
    · intro s js waiting later part row _ hrow _ _ hfuel
      simp_all
  | succ fuel ih => exact ⟨placesOn_succ hs ht ih.1 ih.2, placesAt_succ hs ht ih.1 ih.2⟩

end Rounds

lemma placeRun_run [SetOrder] (hs : c.size = t.size) (ht : t.WellFormed) (hl : t.Linked t.qubits)
    (h : Realizes c t s (js.map (Prod.mk b) ++ later)) :
    ∃ s', (placeRun t b js).run s = .ok ((), s') ∧ Realizes c t s' later := by
  have hready : Ready c t b s js [] later t.qubits := by
    refine ⟨by rwa [append_nil], hl, fun q hq => mem_range.mp hq, fun j hj q hq => ?_⟩
    refine mem_range.mpr ?_
    rw [← hs]
    exact h.leg_lt (mem_append_left later (mem_map_of_mem hj)) hq
  obtain ⟨taken, kept, hsweep, hp, htaken⟩ :=
    sweep_takes (placeSingle_takes (hready.column_length hs))
  have hkept := hready.takeAll hs hp fun j hj =>
    single_iff.mpr (of_decide_eq_true (htaken j hj))
  have hfuel : t.qubits.length * (kept.length + 2) + 1 ≤ (t.size + 2) * (kept.length + 3) := by
    rw [Topology.qubits, length_range]
    nlinarith
  obtain ⟨s', hrun, hr, -⟩ := (places_right hs ht _).1 hkept hfuel
  refine ⟨s', ?_, hr⟩
  rw [placeRun, run_bind_ok hsweep, hrun]

lemma placeRuns_run [SetOrder] (hs : c.size = t.size) (ht : t.WellFormed) (hl : t.Linked t.qubits)
    {runs : List (Basis × List Nat)}
    (h : Realizes c t s (runs.flatMap fun r => r.2.map (Prod.mk r.1))) :
    ∃ s', (placeRuns t runs).run s = .ok ((), s') ∧ Realizes c t s' [] := by
  induction runs generalizing s with
  | nil => exact ⟨s, rfl, h⟩
  | cons r runs ih =>
    obtain ⟨b, js⟩ := r
    obtain ⟨s₁, hrun₁, h₁⟩ := placeRun_run hs ht hl h
    obtain ⟨s₂, hrun₂, h₂⟩ := ih h₁
    refine ⟨s₂, ?_, h₂⟩
    rw [placeRuns, run_bind_ok hrun₁, hrun₂]

end GraySynthesis

namespace PhaseCircuit

/-- On a connected topology synthesis by recursion on qubits always returns, and is correct, whatever the
order in which neighbours are looked at. -/
theorem graySynthesis_correct [SetOrder] {c : PhaseCircuit} {t : Topology} (hc : c.WellFormed)
    (hs : c.size = t.size) (ht : t.WellFormed) (hconn : t.graph.Preconnected) :
    ∃ gs r, c.gadgets = .ok gs ∧ c.graySynthesis t = .ok r ∧ r.Correct gs t := by
  refine Synthesis.perform_correct hc hs ht fun s h => ?_
  refine GraySynthesis.placeRuns_run hs ht (Topology.linked_qubits hconn) ?_
  rwa [Synthesis.runs_flatMap]

def endsOfLine : PhaseCircuit :=
  ((({ size := 3 } : PhaseCircuit).push
    { basis := .z, angle := .angle Angle.pi, legs := [0, 2] } [true, false, true]
    (.angle Angle.pi)).push
    { basis := .z, angle := .angle ⟨1 / 2⟩, legs := [0, 2] } [true, false, true]
    (.angle ⟨1 / 2⟩)).push
    { basis := .x, angle := .angle ⟨1 / 4⟩, legs := [0, 1, 2] } [true, true, true]
    (.angle ⟨1 / 4⟩)

lemma endsOfLine_wellFormed : endsOfLine.WellFormed := by
  apply_rules [push_wellFormed, wellFormed_empty] <;> simp

def lineOfThree : Topology where
  size := 3
  couplings := [(0, 1), (1, 2)]

lemma lineOfThree_preconnected : lineOfThree.graph.Preconnected := by
  have hmiddle : ∀ q : Fin 3, lineOfThree.graph.Reachable (1 : Fin 3) q := by
    intro q
    fin_cases q
    · exact SimpleGraph.Adj.reachable ⟨show (1 : Fin 3) ≠ 0 by decide, rfl⟩
    · exact .refl _
    · exact SimpleGraph.Adj.reachable ⟨show (1 : Fin 3) ≠ 2 by decide, rfl⟩
  exact fun a b => (hmiddle a).symm.trans (hmiddle b)

theorem endsOfLine_graySynthesis :
    endsOfLine.WellFormed ∧ endsOfLine.size = lineOfThree.size ∧ lineOfThree.WellFormed ∧
    lineOfThree.graph.Preconnected ∧
    ∃ gs r, endsOfLine.gadgets = .ok gs ∧ endsOfLine.graySynthesis lineOfThree = .ok r ∧
      r.Correct gs lineOfThree := by
  have ht : lineOfThree.WellFormed := by simp [Topology.WellFormed, lineOfThree]
  exact ⟨endsOfLine_wellFormed, rfl, ht, lineOfThree_preconnected,
    graySynthesis_correct endsOfLine_wellFormed rfl ht lineOfThree_preconnected⟩

end PhaseCircuit

end GadgetCircuits
