import GadgetCircuits.Proofs.Composition
import GadgetCircuits.Proofs.CircuitSteps
import GadgetCircuits.Proofs.Placement
import GadgetCircuits.Tableau.Synthesis

/-!
Steps of a tableau synthesis. A gate acts on what remains of the tableau and goes into the circuit; a CX
gate also ties its qubits to their places. So at every time the gates of the circuit lead from the inverse
tableau to what remains of it, and CX gates are on couplings.
-/

namespace GadgetCircuits

open TableauSynthesis Value Tableau

variable {n : Nat} (b : Basis)

lemma Value.order_ofNat (a b : Nat) : (ofNat a).order (.ofNat b) = .ok (some (compare a b)) := by
  have hlt : (((a : Int) : Rat) < ((b : Int) : Rat)) ↔ a < b := by simp
  have heq : (((a : Int) : Rat) = ((b : Int) : Rat)) ↔ a = b := by simp
  simp only [ofNat, order, isNumber, rat?, hlt, heq]
  rcases Nat.lt_trichotomy a b with h | h | h
  · rw [if_pos h, Nat.compare_eq_lt.mpr h]
    rfl
  · rw [if_neg h.not_lt, if_pos h, Nat.compare_eq_eq.mpr h]
    rfl
  · rw [if_neg (Nat.lt_asymm h), if_neg h.ne', Nat.compare_eq_gt.mpr h]
    rfl

lemma Value.distinct_ofNat {qs : List (Fin n)} (h : qs.Nodup) :
    distinct (qs.map fun q : Fin n => .ofNat q) = qs.map fun q : Fin n => .ofNat q := by
  induction qs with
  | nil => rfl
  | cons q qs ih =>
    obtain ⟨hq, hqs⟩ := List.nodup_cons.mp h
    rw [List.map_cons, distinct, ih hqs, List.filter_eq_self.mpr]
    intro v hv
    obtain ⟨r, hr, rfl⟩ := List.mem_map.mp hv
    have hne : ((q : Nat) : Int) ≠ ((r : Nat) : Int) := by
      rintro hqr
      exact hq (Fin.ext (Int.ofNat_inj.mp hqr) ▸ hr)
    have hsame : (ofNat q).same (.ofNat r) = (((q : Nat) : Int) == ((r : Nat) : Int)) :=
      same_of_int? rfl rfl
    rw [hsame, beq_false_of_ne hne]
    rfl

namespace Circuit

lemma inRange_ofNat (q : Fin n) : inRange (.ofNat n) (.ofNat q) = .ok true := by
  have hle : (int 0).le (.ofNat q) = .ok true := by
    rw [le, show (int 0).order (.ofNat q) = _ from order_ofNat 0 q, ok_bind]
    rcases Nat.eq_zero_or_pos q with h | h
    · rw [h]
      rfl
    · rw [Nat.compare_eq_lt.mpr h]
      rfl
  have hlt : (ofNat q).lt (.ofNat n) = .ok true := by
    rw [lt, order_ofNat, Nat.compare_eq_lt.mpr q.isLt]
    rfl
  rw [inRange, hle, ok_bind, if_pos rfl, hlt]

lemma allInRange_ofNat (qs : List (Fin n)) :
    allInRange (.ofNat n) (qs.map fun q : Fin n => .ofNat q) = .ok true := by
  induction qs with
  | nil => rfl
  | cons q qs ih =>
    rw [List.map_cons, allInRange, inRange_ofNat, ok_bind, if_pos rfl]
    exact ih

lemma checkGate_ofNat {g : Gate} {qs : List (Fin n)}
    (hqubits : g.qubits = qs.map fun q : Fin n => .ofNat q) (hqs : qs.Nodup) :
    checkGate (.ofNat n) (.gate g) = .ok g := by
  have hhash : g.qubits.all isHashable := by
    rw [hqubits]
    simp [isHashable, ofNat]
  have hdistinct : allDistinct g.qubits := by
    rw [allDistinct, hqubits, distinct_ofNat hqs, beq_self_eq_true]
  rw [checkGate, hhash, hdistinct, hqubits, allInRange_ofNat]
  rfl

end Circuit

open List Update

open PauliVector

@[simp] lemma Basis.other_other : b.other.other = b := by
  cases b <;> rfl

lemma Basis.other_ne : b.other ≠ b := by
  cases b <;> decide

namespace Generator

lemma on_inj {b b' : Basis} {p q : Fin n} : on b p = on b' q ↔ b = b' ∧ p = q := by
  cases b <;> cases b' <;> simp [on]

lemma swap_on (b : Basis) (q : Fin n) : Sum.swap (on b q) = on b.other q := by
  cases b <;> rfl

lemma exists_on (k : Generator n) : ∃ b q, on b q = k := by
  cases k with
  | inl q => exact ⟨.x, q, rfl⟩
  | inr q => exact ⟨.z, q, rfl⟩

end Generator

def TrivialAt (v : PauliVector n) (q : Fin n) : Prop :=
  ∀ b, v (.on b q) = 0

variable {v : PauliVector n}

lemma trivialAt_iff_on {q : Fin n} : TrivialAt v q ↔ v (.on b q) = 0 ∧ v (.on b.other q) = 0 := by
  refine ⟨fun h => ⟨h b, h b.other⟩, fun h b' => ?_⟩
  cases b <;> cases b' <;> simp_all [Basis.other]

lemma trivialAt_iff {q : Fin n} :
    TrivialAt v q ↔ v (.inl q) = 0 ∧ v (.inr q) = 0 :=
  trivialAt_iff_on .x

lemma eq_single {p : Fin n} {b : Basis} (hp : ∀ q, q ≠ p → TrivialAt v q)
    (hone : v (.on b p) = 1) (hzero : v (.on b.other p) = 0) : v = Pi.single (.on b p) 1 := by
  funext k
  obtain ⟨b', q, rfl⟩ := k.exists_on
  simp only [Pi.single_apply, Generator.on_inj]
  by_cases hq : q = p
  · subst hq
    cases b <;> cases b' <;> simp_all [Basis.other]
  · rw [hp q hq b', if_neg fun e => hq e.2]

/-- Whether a string with one letter anticommutes with another shows at its qubit. -/
theorem symp_of_trivialAt {p : Fin n} (h : ∀ q, q ≠ p → TrivialAt v q)
    (w : PauliVector n) :
    symp v w = v (.inr p) * w (.inl p) + w (.inr p) * v (.inl p) := by
  rw [symp, meets, meets]
  congr 1
  · exact Finset.sum_eq_single_of_mem p (Finset.mem_univ p) fun q _ hq => by
      rw [(trivialAt_iff.mp (h q hq)).2, zero_mul]
  · exact Finset.sum_eq_single_of_mem p (Finset.mem_univ p) fun q _ hq => by
      rw [(trivialAt_iff.mp (h q hq)).1, mul_zero]

namespace TableauGate

def qubits : TableauGate n → List (Fin n)
  | .h q => [q]
  | .s q => [q]
  | .cx c t _ => [c, t]

variable (g : TableauGate n)

lemma onVector_off (v : PauliVector n) {q : Fin n} (hq : q ∉ g.qubits) (b : Basis) :
    g.onVector v (.on b q) = v (.on b q) := by
  cases g <;> cases b <;> simp_all [qubits, onVector]

lemma onVector_of_trivialAt {v : PauliVector n} (hv : ∀ q ∈ g.qubits, TrivialAt v q) :
    g.onVector v = v := by
  cases g <;> simp_all [qubits, onVector, trivialAt_iff]

lemma turnsSign_of_trivialAt {v : PauliVector n} (hv : ∀ q ∈ g.qubits, TrivialAt v q) :
    g.turnsSign v = 0 := by
  cases g <;> simp_all [qubits, turnsSign, trivialAt_iff]

lemma act_of_trivialAt {p : SignedPauli n} (hp : ∀ q ∈ g.qubits, TrivialAt p.vec q) :
    g.act p = p := by
  rw [act, g.onVector_of_trivialAt hp, g.turnsSign_of_trivialAt hp, add_zero]

variable (q : Fin n) (v : PauliVector n)

@[simp] lemma h_onVector_inl : (h q).onVector v (.inl q) = v (.inr q) := by
  have hcancel : ∀ a b : ZMod 2, a + (a + b) = b := by decide
  simp [onVector, hcancel]

@[simp] lemma h_onVector_inr : (h q).onVector v (.inr q) = v (.inl q) := by
  have hcancel : ∀ a b : ZMod 2, b + (a + b) = a := by decide
  simp [onVector, hcancel]

lemma h_onVector_on (b : Basis) : (h q).onVector v (.on b q) = v (.on b.other q) := by
  cases b <;> simp [Basis.other]

@[simp] lemma s_onVector_inl : (s q).onVector v (.inl q) = v (.inl q) := by
  simp [onVector]

@[simp] lemma s_onVector_inr : (s q).onVector v (.inr q) = v (.inr q) + v (.inl q) := by
  simp [onVector]

lemma trivialAt_onVector {q : Fin n} (hg : g.qubits = [q]) (v : PauliVector n) :
    TrivialAt (g.onVector v) q ↔ TrivialAt v q := by
  rw [trivialAt_iff, trivialAt_iff]
  cases g with
  | h r =>
    cases hg
    rw [h_onVector_inl, h_onVector_inr, and_comm]
  | s r =>
    cases hg
    simp_all
  | cx c t hne => cases hg

end TableauGate

namespace Tableau

variable {t : Tableau} {q : Fin n}

structure Lawful (n : Nat) (t : Tableau) : Prop where
  regular : t.Regular n
  binary : t.BinarySigns
  commutes : ∀ k l, symp (image n t k).vec (image n t l).vec =
    symp (Pi.single k 1 : PauliVector n) (Pi.single l 1)

lemma Lawful.appended (h : t.Lawful n) (g : TableauGate n) : (g.appended t).Lawful n where
  regular := g.appended_regular h.regular
  binary := appended_binarySigns g t
  commutes k l := by
    rw [g.image_appended h.regular, g.image_appended h.regular, ← h.commutes k l]
    exact (g.unitary_moves _).symp_eq (mul_eq_one_comm.mp g.unitary_mul_conjTranspose)
      (g.unitary_moves _)

lemma Lawful.bit_of_unit (h : t.Lawful n) {l : Generator n}
    (hl : (image n t l).vec = Pi.single l 1) (k : Generator n) :
    (image n t k).vec l.swap = (Pi.single k 1 : PauliVector n) l.swap := by
  have hcomm := h.commutes k l
  rwa [hl, symp_single_right, symp_single_right] at hcomm

lemma inverted_lawful {gs : List (TableauGate n)} (ht : t.Regular n)
    (hgs : ∀ k, image n t k = actAll gs (SignedPauli.generator k)) : (inverted n t).Lawful n where
  regular := inverted_regular ht
  binary := inverted_binarySigns n t
  commutes k l := by
    rw [← vec_actAll_inverted ht hgs k, ← vec_actAll_inverted ht hgs l]
    exact ((circuitUnitary_moves gs _).symp_eq (circuitUnitary_conjTranspose_mul gs)
      (circuitUnitary_moves gs _)).symm

def letterAt (v : PauliVector n) (q : Fin n) : Int :=
  (v (.inl q)).val + 2 * (v (.inr q)).val

def letterOf : Basis → Int
  | .x => 1
  | .z => 2

lemma letterAt_eq_zero : letterAt v q = 0 ↔ TrivialAt v q := by
  rw [trivialAt_iff, letterAt]
  rcases bit_cases (v (.inl q)) with hx | hx <;> rcases bit_cases (v (.inr q)) with hz | hz <;>
    rw [hx, hz] <;> decide

lemma letterAt_eq_letterOf {b : Basis} :
    letterAt v q = letterOf b ↔ v (.on b q) = 1 ∧ v (.on b.other q) = 0 := by
  rw [letterAt]
  cases b <;> simp only [Generator.on_x, Generator.on_z, Basis.other] <;>
    rcases bit_cases (v (.inl q)) with hx | hx <;> rcases bit_cases (v (.inr q)) with hz | hz <;>
    rw [hx, hz] <;> decide

lemma letterAt_eq_three : letterAt v q = 3 ↔ v (.inl q) = 1 ∧ v (.inr q) = 1 := by
  rw [letterAt]
  rcases bit_cases (v (.inl q)) with hx | hx <;> rcases bit_cases (v (.inr q)) with hz | hz <;>
    rw [hx, hz] <;> decide

lemma operator_eq (h : t.Regular n) (k : Generator n) (q : Fin n) :
    t.operator k.index q (n + q) = letterAt (image n t k).vec q := by
  have hbit : ∀ l : Generator n, entry (t.row k.index) l.index = ((image n t k).vec l).val := by
    intro l
    change _ = (((entry (t.row k.index) l.index : Int) : ZMod 2).val : Int)
    rcases (h.row_bits k).entry_bit l.index with e | e <;> rw [e] <;> rfl
  have hx : entry (t.row k.index) q = _ := hbit (.inl q)
  have hz : entry (t.row k.index) (n + q) = _ := hbit (.inr q)
  rw [operator, letterAt, hx, hz]
  rcases bit_cases ((image n t k).vec (.inl q)) with e | e <;>
    rcases bit_cases ((image n t k).vec (.inr q)) with e' | e' <;>
    rw [e, e'] <;> cases t.rowWidth <;> rfl

lemma xOutAt_eq (h : t.Regular n) (p q : Fin n) :
    t.xOutAt p q = .ok (letterAt (image n t (.inl p)).vec q) := by
  have hrow : t.rowAt (.ofNat p) = .ok (p : Nat) := h.rowAt (.inl p) rfl
  have hx : t.columnOrNone (.ofNat q) = .ok (q : Nat) := h.column (.inl q) rfl
  rw [xOutAt, xOut, hrow, ok_bind, hx, ok_bind, moved_ofNat, ok_bind,
    h.column (.inr q) (h.moved_index q), ok_bind]
  exact congrArg Except.ok (operator_eq h (.inl p) q)

lemma zOutAt_eq (h : t.Regular n) (p q : Fin n) :
    t.zOutAt p q = .ok (letterAt (image n t (.inr p)).vec q) := by
  have hx : t.columnOrNone (.ofNat q) = .ok (q : Nat) := h.column (.inl q) rfl
  rw [zOutAt, zOut, moved_ofNat, ok_bind, h.rowAt (.inr p) (h.moved_index p), ok_bind, hx, ok_bind,
    moved_ofNat, ok_bind, h.column (.inr q) (h.moved_index q), ok_bind]
  exact congrArg Except.ok (operator_eq h (.inr p) q)

end Tableau

def TableauGate.toGate : TableauGate n → Gate
  | .h q => { kind := .h, qubits := [.ofNat q] }
  | .s q => { kind := .s, qubits := [.ofNat q] }
  | .cx c t _ => { kind := .cx, qubits := [.ofNat c, .ofNat t] }

def Gate.append (g : Gate) : Update Tableau Unit :=
  match g.kind, g.qubits with
  | .h, [q] => hAt q
  | .s, [q] => sAt q
  | .cx, [c, t] => cxAt c t
  | _, _ => throw .operands

lemma TableauGate.toGate_append (g : TableauGate n) : g.toGate.append = g.append := by
  cases g <;> rfl

lemma TableauGate.add_toGate (g : TableauGate n) {c : Circuit} (hc : c.size = .ofNat n) :
    c.add (.gate g.toGate) = .ok { c with gates := c.gates ++ [g.toGate] } := by
  have hqubits : g.toGate.qubits = g.qubits.map fun q : Fin n => .ofNat q := by cases g <;> rfl
  have hnodup : g.qubits.Nodup := by
    cases g with
    | h q => exact nodup_singleton q
    | s q => exact nodup_singleton q
    | cx c t hne =>
      exact nodup_cons.mpr ⟨mem_singleton.not.mpr hne, nodup_singleton t⟩
  have hcheck := Circuit.checkGate_ofNat hqubits hnodup
  rw [Circuit.add, Circuit.addAll, mapM_cons, hc, hcheck, ok_bind]
  rfl

namespace TableauSynthesis

variable {s : TableauSynthesis} (g : TableauGate n)

def step : TableauGate n → Step Unit
  | .h q => h q
  | .s q => TableauSynthesis.s q
  | .cx c t _ => cx c t

def after (g : TableauGate n) (s : TableauSynthesis) : TableauSynthesis where
  remaining := g.appended s.remaining
  circuit := { s.circuit with gates := s.circuit.gates ++ [g.toGate] }
  placement :=
    match g with
    | .cx c t _ => { s.placement with graph := s.placement.graph.addEdge c t 2 }
    | _ => s.placement
  free :=
    match g with
    | .cx c t _ => s.free.filter fun q => q != c && q != t
    | _ => s.free

@[simp] lemma after_remaining (s : TableauSynthesis) :
    (after g s).remaining = g.appended s.remaining := rfl

@[simp] lemma after_circuit (s : TableauSynthesis) :
    (after g s).circuit = { s.circuit with gates := s.circuit.gates ++ [g.toGate] } := rfl

def Allows (s : TableauSynthesis) : TableauGate n → Prop
  | .cx c t _ => s.placement.graph.Joined c t
  | _ => True

lemma allows_of_qubits {g : TableauGate n} {q : Fin n} (hg : g.qubits = [q])
    (s : TableauSynthesis) : s.Allows g := by
  cases g with
  | h _ => exact True.intro
  | s _ => exact True.intro
  | cx _ _ _ => cases hg

lemma placement_after {g : TableauGate n} {q : Fin n} (hg : g.qubits = [q])
    (s : TableauSynthesis) : (after g s).placement = s.placement := by
  cases g with
  | h _ => rfl
  | s _ => rfl
  | cx _ _ _ => cases hg

lemma onTableau_run {x : Update Tableau Unit} {t : Tableau}
    (h : x.runFrom s.remaining = (.ok (), t)) :
    (onTableau x).runFrom s = (.ok (), { s with remaining := t }) := by
  simp only [onTableau, runFrom_bind, runFrom_get, h, runFrom_modify, runFrom_check]

lemma onPlacement_run {α : Type} {x : Update Placement α} {a : α} {p : Placement}
    (h : x.runFrom s.placement = (.ok a, p)) :
    (onPlacement x).runFrom s = (.ok a, { s with placement := p }) := by
  simp only [onPlacement, runFrom_bind, runFrom_get, h, runFrom_modify, runFrom_check]

lemma emit_run {kind : GateKind} {qubits : List Nat} {c : Circuit}
    (h : s.circuit.add (.gate { kind, qubits := qubits.map ofNat }) = .ok c) :
    (emit kind qubits).runFrom s = (.ok (), { s with circuit := c }) := by
  refine runFrom_replace ?_
  rw [h]
  rfl

lemma step_run (ht : s.remaining.Regular n) (hc : s.circuit.size = .ofNat n) (hg : s.Allows g) :
    (step g).runFrom s = (.ok (), after g s) := by
  have htableau := onTableau_run (g.append_run ht)
  have hadd := g.add_toGate hc
  cases g with
  | h q => exact (runFrom_bind_ok htableau).trans (emit_run hadd)
  | s q => exact (runFrom_bind_ok htableau).trans (emit_run hadd)
  | cx c t hne =>
    have hweight : s.placement.graph.setWeight? c t 2 = some (s.placement.graph.addEdge c t 2) :=
      if_pos (contains_iff_mem.mpr hg)
    refine (runFrom_bind_ok htableau).trans ((runFrom_bind_ok (emit_run hadd)).trans ?_)
    refine (runFrom_bind_ok (runFrom_modify _ _)).trans (runFrom_replace ?_)
    simp only [hweight]
    rfl

def row (s : TableauSynthesis) (k : Generator n) : PauliVector n :=
  (image n s.remaining k).vec

/-- The gates so far lead from `u` to what remains. The CX gates are on couplings, and their qubits
are not free any more; without swaps every qubit is at its own place. -/
structure Tracks (t : Topology) (swaps : Bool) (u : Tableau) (s : TableauSynthesis) : Prop where
  gates : ∃ gs : List (TableauGate t.size), s.remaining = appendedAll gs u ∧
    s.circuit = ⟨.ofNat t.size, gs.map TableauGate.toGate⟩ ∧
    ∀ c d hne, TableauGate.cx c d hne ∈ gs →
      t.hasCoupling (s.placement.place c) (s.placement.place d) = true ∧
        (c : Nat) ∉ s.free ∧ (d : Nat) ∉ s.free
  lawful : s.remaining.Lawful t.size
  fits : s.placement.Fits t swaps s.free
  unmoved : swaps = false → s.placement.permutation = List.range t.size

namespace Tracks

variable {t : Topology} {swaps : Bool} {u : Tableau}
variable {g : TableauGate t.size}

lemma step_run (h : Tracks t swaps u s) (hg : s.Allows g) :
    (step g).runFrom s = (.ok (), after g s) := by
  obtain ⟨gs, -, hcircuit, -⟩ := h.gates
  exact TableauSynthesis.step_run g h.lawful.regular (by rw [hcircuit]) hg

lemma row_after (h : Tracks t swaps u s) (g : TableauGate t.size) (k : Generator t.size) :
    (after g s).row k = g.onVector (s.row k) := by
  rw [row, after_remaining, g.image_appended h.lawful.regular]
  rfl

lemma renamed_after (h : Tracks t swaps u s) (ht : t.WellFormed) (hg : s.Allows g) :
    Graph.Renamed 1 s.placement.graph (after g s).placement.graph := by
  have hproper := h.fits.arranged.proper ht
  cases g with
  | h q => exact .refl hproper
  | s q => exact .refl hproper
  | cx c d hne => exact Graph.addEdge_renamed hproper hg 2

lemma after (h : Tracks t swaps u s) (ht : t.WellFormed) (hg : s.Allows g) :
    Tracks t swaps u (after g s) := by
  obtain ⟨gs, hremaining, hcircuit, hcouplings⟩ := h.gates
  have hgates : appendedAll (gs ++ [g]) u = g.appended s.remaining := by
    rw [hremaining, appendedAll, foldl_append]
    rfl
  have hcircuit' : (TableauSynthesis.after g s).circuit =
      ⟨.ofNat t.size, (gs ++ [g]).map TableauGate.toGate⟩ := by
    rw [after_circuit, hcircuit, map_append]
    rfl
  have hlawful := h.lawful.appended g
  cases g with
  | h q =>
    refine ⟨⟨gs ++ [TableauGate.h q], hgates.symm, hcircuit', fun c d hne hmem => ?_⟩, hlawful, h.fits,
      h.unmoved⟩
    exact hcouplings c d hne (by simpa using hmem)
  | s q =>
    refine ⟨⟨gs ++ [TableauGate.s q], hgates.symm, hcircuit', fun c d hne hmem => ?_⟩, hlawful, h.fits,
      h.unmoved⟩
    exact hcouplings c d hne (by simpa using hmem)
  | cx c d hne =>
    refine ⟨⟨gs ++ [TableauGate.cx c d hne], hgates.symm, hcircuit', fun a b hab hmem => ?_⟩, hlawful,
      h.fits.used ht hg, h.unmoved⟩
    rcases mem_append.mp hmem with hmem | hmem
    · obtain ⟨hcoupling, ha, hb⟩ := hcouplings a b hab hmem
      exact ⟨hcoupling, fun h => ha (mem_filter.mp h).1, fun h => hb (mem_filter.mp h).1⟩
    · cases mem_singleton.mp hmem
      exact ⟨((h.fits.joined c d).mp hg).2.2, by simp [after],
        by simp [after]⟩

lemma trades (h : Tracks t swaps u s) {p : Placement} {σ : Equiv.Perm Nat} (hp : p.Fits t swaps s.free)
    (hσ : Placement.Trades σ s.placement p) (hfix : ∀ q, q ∉ s.free → σ q = q)
    (hsame : swaps = false → p = s.placement) : Tracks t swaps u { s with placement := p } := by
  obtain ⟨gs, hremaining, hcircuit, hcouplings⟩ := h.gates
  refine ⟨⟨gs, hremaining, hcircuit, fun c d hne hmem => ?_⟩, h.lawful, hp, ?_⟩
  · -- The qubits of a CX gate are not free, so they stay where they are.
    obtain ⟨hcoupling, hc, hd⟩ := hcouplings c d hne hmem
    refine ⟨?_, hc, hd⟩
    rwa [hσ.place, hσ.place, hfix c hc, hfix d hd]
  · intro hs
    rw [hsame hs]
    exact h.unmoved hs

lemma remove (h : Tracks t swaps u s) (ht : t.WellFormed) {v : Nat}
    (hv : s.placement.graph.isCut v = false) : Tracks t swaps u { s with
        free := s.free.filter (· != v)
        placement := { s.placement with graph := s.placement.graph.removeNode v } } := by
  obtain ⟨gs, hremaining, hcircuit, hcouplings⟩ := h.gates
  refine ⟨⟨gs, hremaining, hcircuit, fun c d hne hmem => ?_⟩, h.lawful, h.fits.remove ht hv, h.unmoved⟩
  obtain ⟨hcoupling, hc, hd⟩ := hcouplings c d hne hmem
  exact ⟨hcoupling, fun h => hc (mem_filter.mp h).1, fun h => hd (mem_filter.mp h).1⟩

end Tracks

end TableauSynthesis

end GadgetCircuits
