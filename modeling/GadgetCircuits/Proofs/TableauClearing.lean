import GadgetCircuits.Proofs.TableauSteps

/-!
Clearing qubits of a tableau. The letters of the X image of a qubit are turned into X and carried to
the qubit along a tree; then the same is done for its Z image. Cleared qubits stay cleared, as the
gates that follow are on other qubits.
-/

open List GadgetCircuits.Update GadgetCircuits.Generator GadgetCircuits.TableauGate

namespace GadgetCircuits.TableauSynthesis

open Tableau Pi Placement

variable {t : Topology} {swaps : Bool} {u : Tableau} {s s' : TableauSynthesis}
  {ns : List Nat} {p : Fin t.size}

def out : Basis → Nat → Nat → Step Int
  | .x => xOut
  | .z => zOut

lemma Tracks.out_run (h : Tracks t swaps u s) (b : Basis) (p q : Fin t.size) :
    (out b p q).runFrom s = (.ok (letterAt (s.row (.on b p)) q), s) := by
  cases b with
  | x =>
    refine (runFrom_bind_ok (runFrom_get s)).trans ?_
    rw [runFrom_lift, xOutAt_eq h.lawful.regular]
    rfl
  | z =>
    refine (runFrom_bind_ok (runFrom_get s)).trans ?_
    rw [runFrom_lift, zOutAt_eq h.lawful.regular]
    rfl

lemma Tracks.anticommute (h : Tracks t swaps u s) (p : Fin t.size) :
    PauliVector.symp (s.row (.on .x p)) (s.row (.on .z p)) = 1 := by
  refine (h.lawful.commutes _ _).trans ?_
  rw [PauliVector.symp_single_right]
  exact single_eq_same _ _

lemma Tracks.exists_letter (h : Tracks t swaps u s) (p : Fin t.size) (b : Basis) :
    ∃ q, ¬TrivialAt (s.row (.on b p)) q := by
  by_contra hnone
  push Not at hnone
  have hzero : ∀ w, PauliVector.symp (s.row (.on b p)) w = 0 := by
    intro w
    obtain ⟨hx, hz⟩ := trivialAt_iff.mp (hnone p)
    rw [symp_of_trivialAt (p := p) fun q _ => hnone q, hx, hz, zero_mul, mul_zero, add_zero]
  have hcomm := h.anticommute p
  cases b with
  | x => exact zero_ne_one ((hzero _).symm.trans hcomm)
  | z => exact zero_ne_one ((hzero _).symm.trans ((add_comm _ _).trans hcomm))

lemma Tracks.bit_of_unit (h : Tracks t swaps u s) {b : Basis}
    (hunit : s.row (.on b.other p) = single (.on b.other p) 1) :
    s.row (.on b p) (.on b p) = 1 := by
  have hbit := h.lawful.bit_of_unit hunit (.on b p)
  rwa [swap_on, Basis.other_other, single_eq_same] at hbit

/-- The qubits in `ns` are left, the others are cleared, and `p` can be removed. -/
structure Clearing (t : Topology) (swaps : Bool) (u : Tableau) (ns : List Nat) (p : Fin t.size)
    (s : TableauSynthesis) : Prop where
  tracks : Tracks t swaps u s
  nodes : ∀ q, q ∈ s.placement.graph.nodes ↔ q ∈ ns
  cleared : ∀ q : Fin t.size, (q : Nat) ∉ ns → ∀ b, s.row (.on b q) = single (.on b q) 1
  pivot : (p : Nat) ∈ ns
  rim : s.placement.graph.isCut p = false

section

variable (h : Clearing t swaps u ns p s) (ht : t.WellFormed)

include h

lemma Clearing.trivialAt (b : Basis) {q : Fin t.size} (hq : (q : Nat) ∉ ns) :
    TrivialAt (s.row (.on b p)) q := by
  intro b'
  have hne : p ≠ q := fun e => hq (e ▸ h.pivot)
  have hbit := h.tracks.lawful.bit_of_unit (h.cleared q hq b'.other) (.on b p)
  rw [swap_on, Basis.other_other, single_apply, if_neg] at hbit
  · exact hbit
  · rw [on_inj]
    exact fun e => hne e.2.symm

include ht

lemma Clearing.after {g : TableauGate t.size}
    (hg : s.Allows g) (hon : ∀ q ∈ g.qubits, (q : Nat) ∈ ns) :
    Clearing t swaps u ns p (after g s) := by
  have hcleared : ∀ q : Fin t.size, (q : Nat) ∉ ns → ∀ b,
      (TableauSynthesis.after g s).row (.on b q) = single (.on b q) 1 := by
    intro q hq b
    rw [h.tracks.row_after, h.cleared q hq]
    refine g.onVector_of_trivialAt fun r hr b' => single_eq_of_ne ?_ _
    rw [Ne, on_inj]
    rintro ⟨-, rfl⟩
    exact hq (hon r hr)
  have hrenamed := h.tracks.renamed_after ht hg
  refine ⟨h.tracks.after ht hg, fun q => (hrenamed.nodes q).trans (h.nodes q), hcleared, h.pivot, ?_⟩
  exact (hrenamed.isCut (h.tracks.fits.arranged.proper ht)).mpr h.rim

lemma Clearing.acting_run (b : Basis) :
    ∃ row, (acting (out b p)).runFrom s = (.ok row, s) ∧ (∀ q ∈ row, q ∈ ns) ∧
      ∀ q : Fin t.size, (q : Nat) ∈ row ↔ ¬TrivialAt (s.row (.on b p)) q := by
  let acts : Nat → Bool := fun q =>
    if hq : q < t.size then decide (letterAt (s.row (.on b p)) ⟨q, hq⟩ ≠ 0) else false
  have hlook : ∀ q ∈ s.placement.graph.nodes,
      (do return decide ((← out b p q) ≠ 0) : Step Bool).runFrom s = (.ok (acts q), s) := by
    intro q hq
    have hlt := h.tracks.fits.arranged.lt_size ht q hq
    refine (runFrom_bind_ok (h.tracks.out_run b p ⟨q, hlt⟩)).trans ?_
    simp only [acts, dif_pos hlt]
    rfl
  refine ⟨s.placement.graph.nodes.filter acts, ?_, fun q hq => ?_, fun q => ?_⟩
  · refine (runFrom_bind_ok (a := s.placement.graph) rfl).trans ?_
    exact Update.filterM_look hlook
  · exact (h.nodes q).mp (mem_filter.mp hq).1
  · rw [mem_filter, h.nodes]
    have hacts : acts q ↔ ¬TrivialAt (s.row (.on b p)) q := by
      simp only [acts, dif_pos q.isLt, decide_eq_true_eq, ne_eq, letterAt_eq_zero]
    rw [hacts]
    exact and_iff_right_of_imp fun hq => by_contra fun hns => hq (h.trivialAt b hns)

end

/-- Only letters at one qubit have changed, and none has come or gone. -/
structure Touched (q : Fin t.size) (s s' : TableauSynthesis) : Prop where
  placement : s'.placement = s.placement
  off : ∀ (k : Generator t.size) r, r ≠ q → ∀ b, s'.row k (.on b r) = s.row k (.on b r)
  trivialAt : ∀ k : Generator t.size, TrivialAt (s'.row k) q ↔ TrivialAt (s.row k) q

namespace Touched

variable {q : Fin t.size} {s'' : TableauSynthesis}

lemma refl (q : Fin t.size) (s : TableauSynthesis) : Touched q s s :=
  ⟨rfl, fun _ _ _ _ => rfl, fun _ => .rfl⟩

lemma trans (h : Touched q s s') (h' : Touched q s' s'') : Touched q s s'' :=
  ⟨h'.placement.trans h.placement, fun k r hr b => (h'.off k r hr b).trans (h.off k r hr b),
    fun k => (h'.trivialAt k).trans (h.trivialAt k)⟩

lemma trivialAt_off (h : Touched q s s') (k : Generator t.size) (r : Fin t.size) :
    TrivialAt (s'.row k) r ↔ TrivialAt (s.row k) r := by
  by_cases hr : r = q
  · exact hr ▸ h.trivialAt k
  · exact forall_congr' fun b => by rw [h.off k r hr b]

end Touched

lemma Tracks.touched (h : Tracks t swaps u s) {g : TableauGate t.size} {q : Fin t.size}
    (hg : g.qubits = [q]) : Touched q s (TableauSynthesis.after g s) where
  placement := placement_after hg s
  off k r hr b := by
    rw [h.row_after]
    exact g.onVector_off _ (by rwa [hg, mem_singleton]) b
  trivialAt k := by
    rw [h.row_after]
    exact g.trivialAt_onVector hg _

def alignColumn (b : Basis) (pivot col : Nat) : Step Unit := do
  if (← out b pivot col) = 3 then TableauSynthesis.s col
  if (← out b pivot col) = letterOf b.other then TableauSynthesis.h col

lemma alignX_eq : alignX = fun pivot row => row.forM (alignColumn .x pivot) := rfl

lemma alignZ_eq (pivot : Nat) (row : List Nat) : alignZ pivot row = (do
      row.forM (alignColumn .z pivot)
      if (← xOut pivot pivot) = 3 then TableauSynthesis.s pivot) := rfl

section

variable (h : Clearing t swaps u ns p s) (ht : t.WellFormed)
variable {row : List Nat} (b : Basis)

include h ht

lemma Clearing.turn_finishes {q : Fin t.size} (hq : (q : Nat) ∈ ns)
    (hletter : letterAt (s.row (.on b p)) q ≠ 3) :
    Update.Finishes (do if (← out b p q) = letterOf b.other then TableauSynthesis.h q) s
      fun _ s' => Clearing t swaps u ns p s' ∧ Touched q s s' ∧
        s'.row (.on b p) (.on b.other q) = 0 := by
  refine finishes_bind_of_run (h.tracks.out_run b p q) ?_
  by_cases hother : letterAt (s.row (.on b p)) q = letterOf b.other
  · rw [if_pos hother]
    refine finishes_of_run (h.tracks.step_run (g := .h q) trivial)
      ⟨h.after ht trivial (by simpa [TableauGate.qubits] using hq), h.tracks.touched rfl, ?_⟩
    rw [h.tracks.row_after, h_onVector_on]
    exact (letterAt_eq_letterOf.mp hother).2
  · rw [if_neg hother]
    refine finishes_of_run rfl ⟨h, .refl q s, ?_⟩
    by_contra hone
    have hone := (bit_cases _).resolve_left hone
    rcases bit_cases (s.row (.on b p) (.on b q)) with hzero | htwo
    · exact hother (letterAt_eq_letterOf.mpr ⟨hone, by rwa [Basis.other_other]⟩)
    · refine hletter (letterAt_eq_three.mpr ?_)
      cases b
      · exact ⟨hone, htwo⟩
      · exact ⟨htwo, hone⟩

lemma Clearing.alignColumn_finishes {q : Fin t.size} (hq : (q : Nat) ∈ ns) :
    (alignColumn b p q).Finishes s fun _ s' =>
      Clearing t swaps u ns p s' ∧ Touched q s s' ∧ s'.row (.on b p) (.on b.other q) = 0 := by
  refine finishes_bind_of_run (h.tracks.out_run b p q) ?_
  by_cases hletter : letterAt (s.row (.on b p)) q = 3
  · rw [if_pos hletter]
    have h₀ := h.after ht (g := .s q) trivial (by simpa [TableauGate.qubits] using hq)
    have htouched : Touched q s (TableauSynthesis.after (.s q) s) := h.tracks.touched rfl
    refine finishes_bind_of_run (h.tracks.step_run (g := .s q) trivial) ?_
    refine (h₀.turn_finishes ht b hq ?_).mono ?_
    · obtain ⟨hx, hz⟩ := letterAt_eq_three.mp hletter
      rw [h.tracks.row_after, Ne, letterAt_eq_three, s_onVector_inr, hx, hz]
      exact fun hone => absurd hone.2 (by decide)
    · rintro - s₁ ⟨h₁, htouched₁, hzero⟩
      exact ⟨h₁, htouched.trans htouched₁, hzero⟩
  · rw [if_neg hletter]
    exact h.turn_finishes ht b hq hletter

lemma Clearing.align_finishes (hrow : ∀ q ∈ row, q ∈ ns)
    (hacts : ∀ q : Fin t.size, (q : Nat) ∈ row ↔ ¬TrivialAt (s.row (.on b p)) q) :
    (row.forM (alignColumn b p)).Finishes s fun _ s' =>
      Clearing t swaps u ns p s' ∧
      (∀ (k : Generator t.size) q, TrivialAt (s'.row k) q ↔ TrivialAt (s.row k) q) ∧
      ∀ q : Fin t.size, s'.row (.on b p) (.on b.other q) = 0 := by
  refine Update.Finishes.mono (forM_finishes (fun rest s' => (∀ q ∈ rest, q ∈ ns) ∧
    Clearing t swaps u ns p s' ∧
    (∀ (k : Generator t.size) q, TrivialAt (s'.row k) q ↔ TrivialAt (s.row k) q) ∧
    ∀ q : Fin t.size, (q : Nat) ∉ rest → s'.row (.on b p) (.on b.other q) = 0) ?_ ?_)
    fun _ s' h => ⟨h.2.1, h.2.2.1, fun q => h.2.2.2 q not_mem_nil⟩
  · rintro col rest s₁ ⟨hns, h₁, htrivial, haligned⟩
    obtain ⟨hcol, hns⟩ := forall_mem_cons.mp hns
    have hlt := h₁.tracks.fits.arranged.lt_size ht col ((h₁.nodes col).mpr hcol)
    refine (h₁.alignColumn_finishes ht b (q := ⟨col, hlt⟩) hcol).mono ?_
    rintro - s₂ ⟨h₂, htouched, hzero⟩
    refine ⟨hns, h₂, fun k q => (htouched.trivialAt_off k q).trans (htrivial k q), fun q hq => ?_⟩
    by_cases hqc : q = ⟨col, hlt⟩
    · exact hqc ▸ hzero
    · rw [htouched.off _ q hqc]
      grind
  · exact ⟨hrow, h, fun _ _ => .rfl, fun q hq => not_not.mp (mt (hacts q).mpr hq) b.other⟩

lemma Clearing.alignZ_finishes (hrow : ∀ q ∈ row, q ∈ ns)
    (hacts : ∀ q : Fin t.size, (q : Nat) ∈ row ↔ ¬TrivialAt (s.row (.on .z p)) q)
    (hunit : s.row (.on .x p) = single (.on .x p) 1) :
    (alignZ p row).Finishes s fun _ s' =>
      Clearing t swaps u ns p s' ∧ s'.row (.on .x p) = single (.on .x p) 1 ∧
      (∀ q, TrivialAt (s'.row (.on .z p)) q ↔ TrivialAt (s.row (.on .z p)) q) ∧
      ∀ q : Fin t.size, s'.row (.on .z p) (.on .x q) = 0 := by
  rw [alignZ_eq]
  refine (h.align_finishes ht .z hrow hacts).bind ?_
  rintro - s₁ ⟨h₁, htrivial, hpure⟩
  have hoff : ∀ q, q ≠ p → TrivialAt (s₁.row (.on .x p)) q := by
    intro q hq
    rw [htrivial, hunit]
    exact fun b => single_eq_of_ne (fun e => hq (on_inj.mp e).2) _
  have hz : s₁.row (.on .z p) (.on .z p) = 1 := by
    refine (bit_cases _).resolve_left fun hzero => ?_
    have hbit := h.tracks.bit_of_unit (b := .z) hunit
    have hgone := (htrivial (.on .z p) p).mp (trivialAt_iff.mpr ⟨hpure p, hzero⟩) .z
    exact one_ne_zero (hbit.symm.trans hgone)
  -- The two images of the pivot anticommute, and only the letters at the pivot can show it.
  have hx : s₁.row (.on .x p) (.on .x p) = 1 := by
    have hcomm := h₁.tracks.anticommute p
    rwa [symp_of_trivialAt hoff, ← on_x, ← on_z, hz, one_mul,
      show s₁.row (.on .z p) (.on .x p) = 0 from hpure p, mul_zero, zero_add] at hcomm
  refine finishes_bind_of_run (h₁.tracks.out_run .x p p) ?_
  by_cases hletter : letterAt (s₁.row (.on .x p)) p = 3
  · rw [if_pos hletter]
    refine finishes_of_run (h₁.tracks.step_run (g := .s p) trivial)
      ⟨h₁.after ht trivial (by simpa [TableauGate.qubits] using h.pivot), ?_, ?_, ?_⟩
    · refine eq_single (fun q hq => ?_) ?_ ?_
      · exact ((h₁.tracks.touched rfl).trivialAt_off _ q).mpr (hoff q hq)
      · rw [h₁.tracks.row_after]
        exact (s_onVector_inl p _).trans hx
      · rw [h₁.tracks.row_after]
        refine (s_onVector_inr p _).trans ?_
        rw [(letterAt_eq_three.mp hletter).1, (letterAt_eq_three.mp hletter).2]
        decide
    · exact fun q => ((h₁.tracks.touched rfl).trivialAt_off _ q).trans (htrivial _ q)
    · intro q
      rw [h₁.tracks.row_after]
      by_cases hq : q = p
      · subst hq
        exact (s_onVector_inl q _).trans (hpure q)
      · exact (onVector_off _ _ (by simpa [TableauGate.qubits] using hq) .x).trans
          (hpure q)
  · rw [if_neg hletter]
    refine finishes_of_run rfl ⟨h₁, eq_single hoff hx ?_, htrivial _, hpure⟩
    refine (bit_cases _).resolve_right fun hone => hletter (letterAt_eq_three.mpr ⟨hx, hone⟩)

lemma Clearing.tree_finishes [GraphLibrary] (htrees : t.FindsTrees GraphLibrary.steinerTree swaps)
    (hrow : ∀ q ∈ row, q ∈ ns) :
    (tree p row swaps).Finishes s fun edges s' =>
      Clearing t swaps u ns p s' ∧ s'.remaining = s.remaining ∧
        ∃ es, edges = es.reverse ∧ s'.placement.graph.Ladder p (p :: row) es := by
  let mark : Nat → Nat × Int := fun q =>
    (q, if hq : q < t.size then if letterAt (s.row (.on .x p)) ⟨q, hq⟩ = 0 then 0 else 1 else 0)
  have hlook : ∀ q ∈ s.placement.graph.nodes,
      (do return (q, if (← xOut p q) = 0 then (0 : Int) else 1) : Step (Nat × Int)).runFrom s =
        (.ok (mark q), s) := by
    intro q hq
    have hlt := h.tracks.fits.arranged.lt_size ht q hq
    refine (runFrom_bind_ok (h.tracks.out_run .x p ⟨q, hlt⟩)).trans ?_
    simp only [mark, dif_pos hlt]
    rfl
  let rules : SwapRules :=
    { mark := fun q => ((s.placement.graph.nodes.map mark).find? fun m => m.1 == q).map Prod.snd
      free := s.free
      rounds := s.remaining.n }
  have hmarked : ∀ q ∈ s.placement.graph.nodes, ∃ m, rules.mark q = some m := by
    intro q hq
    have hsome : ((s.placement.graph.nodes.map mark).find? fun m => m.1 == q).isSome :=
      find?_isSome.mpr ⟨mark q, mem_map_of_mem hq, beq_self_eq_true q⟩
    obtain ⟨m, hm⟩ := Option.isSome_iff_exists.mp hsome
    exact ⟨m.2, by simp only [rules, hm, Option.map_some]⟩
  have hrules : ∀ r, (if swaps then some rules else none) = some r → swaps = true ∧ r.free = s.free ∧
      ∀ q ∈ s.placement.graph.nodes, ∃ m, r.mark q = some m := by
    intro r hr
    cases swaps with
    | false => cases hr
    | true =>
      cases hr
      exact ⟨rfl, rfl, hmarked⟩
  have hterm : ∀ q ∈ (p : Nat) :: row, q ∈ s.placement.graph.nodes :=
    forall_mem_cons.mpr ⟨(h.nodes p).mpr h.pivot, fun q hq => (h.nodes q).mpr (hrow q hq)⟩
  obtain ⟨edges, p', hrun, hfits, ⟨σ, hσ, hfix⟩, hsame, hes⟩ :=
    treeEdges_finishes ht htrees h.tracks.fits hterm mem_cons_self hrules
  refine finishes_bind_of_run (a := s.placement.graph) rfl ?_
  refine finishes_bind_of_run (Update.mapM_look hlook) (finishes_bind_get ?_)
  refine finishes_of_run (onPlacement_run hrun) ⟨⟨?_, ?_, h.cleared, h.pivot, ?_⟩, rfl, hes⟩
  · exact h.tracks.trades hfits hσ (fun q hq => hfix q (.inr hq)) fun hs => hsame (by rw [hs]; rfl)
  · exact fun q => (hσ.mem_nodes q).trans (h.nodes q)
  · rw [hσ.renamed.isCut (h.tracks.fits.arranged.proper ht), hfix p (.inl rfl)]
    exact h.rim

end

def carry : Basis → Nat → Nat → Step Unit
  | .x, source, goal => cx source goal
  | .z, source, goal => cx goal source

/-- The gate that adds a letter. In the other basis it works backwards. -/
def carryGate {n : Nat} : Basis → (i j : Fin n) → i ≠ j → TableauGate n
  | .x, i, j, hne => .cx i j hne
  | .z, i, j, hne => .cx j i hne.symm

lemma carryGate_onVector {n : Nat} (b : Basis) {i j : Fin n} (hne : i ≠ j) (v : PauliVector n) :
    (carryGate b i j hne).onVector v = v + single (.on b j) (v (.on b i)) +
      single (.on b.other i) (v (.on b.other j)) := by
  cases b with
  | x => rfl
  | z => exact add_right_comm _ _ _

/-- Letters are carried to the pivot along edges. The image has letters of its basis only; if the
other image of the pivot was cleared at first, it still is. -/
structure Climbing (t : Topology) (swaps : Bool) (u : Tableau) (ns : List Nat) (p : Fin t.size)
    (b : Basis) (es : List (Nat × Nat)) (s₀ s : TableauSynthesis) : Prop where
  clearing : Clearing t swaps u ns p s
  joined : ∀ e ∈ es, s.placement.graph.Joined e.1 e.2
  pure : ∀ q : Fin t.size, s.row (.on b p) (.on b.other q) = 0
  unit : s₀.row (.on b.other p) = single (.on b.other p) 1 →
    s.row (.on b.other p) = single (.on b.other p) 1

lemma Climbing.carry_finishes {b : Basis} {es : List (Nat × Nat)} {s₀ : TableauSynthesis}
    (h : Climbing t swaps u ns p b es s₀ s) (ht : t.WellFormed) {i j : Fin t.size}
    (hij : s.placement.graph.Joined i j)
    (hj : s₀.row (.on b.other p) = single (.on b.other p) 1 → j ≠ p) :
    (carry b i j).Finishes s fun _ s' => Climbing t swaps u ns p b es s₀ s' ∧
      ∀ q, s'.row (.on b p) (.on b q) =
        s.row (.on b p) (.on b q) + if q = j then s.row (.on b p) (.on b i) else 0 := by
  have hproper := h.clearing.tracks.fits.arranged.proper ht
  have hne : i ≠ j := by
    rintro rfl
    exact hproper.irrefl _ hij
  have hallows : s.Allows (carryGate b i j hne) := by
    cases b with
    | x => exact hij
    | z => exact hproper.symm hij
  have hrun : (carry b i j).runFrom s = (.ok (), after (carryGate b i j hne) s) := by
    cases b <;> exact h.clearing.tracks.step_run hallows
  have hrow := fun k => (h.clearing.tracks.row_after (carryGate b i j hne) k).trans
    (carryGate_onVector b hne _)
  have hon : ∀ q ∈ (carryGate b i j hne).qubits, (q : Nat) ∈ ns := by
    have hi := (h.clearing.nodes i).mp hij.mem_nodes
    have hgoal := (h.clearing.nodes j).mp (hproper.mem_nodes hij)
    cases b <;> simp [carryGate, TableauGate.qubits, hi, hgoal]
  have hsame : ∀ q r : Fin t.size, (Generator.on b q : Generator t.size) ≠ .on b.other r := by
    intro q r e
    exact b.other_ne (on_inj.mp e).1.symm
  refine finishes_of_run hrun ⟨⟨h.clearing.after ht hallows hon, ?_, ?_, ?_⟩, ?_⟩
  · intro e he
    exact ((h.clearing.tracks.renamed_after ht hallows).joined _ _).mpr (h.joined e he)
  · intro q
    rw [hrow, h.pure j, Pi.single_zero, add_zero, Pi.add_apply, h.pure q, zero_add]
    exact Pi.single_eq_of_ne (hsame j q).symm _
  · intro hunit
    rw [hrow, h.unit hunit, Pi.single_eq_of_ne (hsame i p), Pi.single_zero, add_zero,
      Pi.single_eq_of_ne (fun e => hj hunit (on_inj.mp e).2), Pi.single_zero, add_zero]
  · intro q
    rw [hrow, Pi.add_apply, Pi.add_apply, Pi.single_eq_of_ne (hsame q i), add_zero]
    congr 1
    by_cases hq : q = j
    · rw [if_pos hq, hq, Pi.single_eq_same]
    · rw [if_neg hq, single_eq_of_ne fun e => hq (on_inj.mp e).2]

def fillEdge (b : Basis) (pivot : Nat) : Nat × Nat → Step Unit
  | (parent, child) => do if (← out b pivot parent) = 0 then carry b child parent

def contractEdge (b : Basis) : Nat × Nat → Step Unit
  | (parent, child) => carry b parent child

def clear [GraphLibrary] (b : Basis) (pivot : Nat) (row : List Nat) (swaps : Bool) : Step Unit := do
  let edges ← tree pivot row swaps
  edges.forM (fillEdge b pivot)
  edges.forM (contractEdge b)

lemma clearX_eq [GraphLibrary] : clearX = clear .x := rfl

lemma clearZ_eq [GraphLibrary] : clearZ = clear .z := rfl

section Ladder

variable {b : Basis} {g : Graph} {row : List Nat} {es : List (Nat × Nat)} {s₀ : TableauSynthesis}

variable (h : Climbing t swaps u ns p b es s₀ s) (ht : t.WellFormed)

include h ht

lemma Climbing.ends {i j : Nat} (he : (i, j) ∈ es) : i < t.size ∧ j < t.size ∧ s.placement.graph.Joined i j ∧
      s.placement.graph.Joined j i := by
  have hji := (h.clearing.tracks.fits.arranged.proper ht).symm (h.joined _ he)
  exact ⟨h.clearing.tracks.fits.arranged.lt_size ht i (h.joined _ he).mem_nodes,
    h.clearing.tracks.fits.arranged.lt_size ht j hji.mem_nodes, h.joined _ he, hji⟩

/-- Filling goes from the far ends of the ladder to the pivot, so that every child has a letter when
its turn comes. -/
theorem Climbing.fill_finishes (hladder : g.Ladder p (p :: row) es)
    (hrow : ∀ q : Fin t.size, (q : Nat) ∈ row → s.row (.on b p) (.on b q) = 1) :
    (es.reverse.forM (fillEdge b p)).Finishes s fun _ s' => Climbing t swaps u ns p b es s₀ s' ∧
      ∀ q : Fin t.size, s'.row (.on b p) (.on b q) = 1 ↔
        s.row (.on b p) (.on b q) = 1 ∨ ∃ e ∈ es, e.1 = q := by
  refine forM_reverse_finishes (fun (done : List (Nat × Nat)) s' =>
    Climbing t swaps u ns p b es s₀ s' ∧ ∀ q : Fin t.size, s'.row (.on b p) (.on b q) = 1 ↔
      s.row (.on b p) (.on b q) = 1 ∨ ∃ e ∈ done, e.1 = (q : Nat)) ?_ ⟨h, by simp⟩
  rintro front ⟨i, j⟩ done s₁ hes ⟨h₁, hbits⟩
  have hmem : (i, j) ∈ es := by simp [hes]
  obtain ⟨hi, hj, hij, hji⟩ := h₁.ends ht hmem
  obtain ⟨hroot, hlater, -⟩ := hladder.at_edge hes
  have hchild : s₁.row (.on b p) (.on b ⟨j, hj⟩) = 1 := by
    refine (hbits ⟨j, hj⟩).mpr ?_
    rcases hladder.inner _ hmem with ⟨e, he, hej⟩ | hterm
    · exact .inr ⟨e, hlater e he hej, hej⟩
    · exact .inl (hrow ⟨j, hj⟩ ((mem_cons.mp hterm).resolve_left hroot))
  have hdone : ∀ q : Fin t.size, (s₁.row (.on b p) (.on b q) = 1 ∨ q = ⟨i, hi⟩) ↔
      s.row (.on b p) (.on b q) = 1 ∨ ∃ e ∈ (i, j) :: done, e.1 = (q : Nat) := by grind
  refine finishes_bind_of_run (h₁.clearing.tracks.out_run b p ⟨i, hi⟩) ?_
  by_cases hzero : letterAt (s₁.row (.on b p)) ⟨i, hi⟩ = 0
  · rw [if_pos hzero]
    have hparent := letterAt_eq_zero.mp hzero b
    refine (h₁.carry_finishes ht (i := ⟨j, hj⟩) (j := ⟨i, hi⟩) hji ?_).mono ?_
    · rintro hunit rfl
      exact one_ne_zero ((h₁.clearing.tracks.bit_of_unit (h₁.unit hunit)).symm.trans hparent)
    · grind
  · rw [if_neg hzero]
    refine finishes_of_run rfl ⟨h₁, fun q => ?_⟩
    rw [← hdone]
    refine (or_iff_left_of_imp ?_).symm
    rintro rfl
    refine (bit_cases _).resolve_left fun hparent => hzero (letterAt_eq_zero.mpr ?_)
    exact (trivialAt_iff_on b).mpr ⟨hparent, h₁.pure _⟩

lemma Climbing.contract_finishes (hladder : g.Ladder p (p :: row) es)
    (hfull : ∀ e ∈ es, ∀ q : Fin t.size, e.1 = q ∨ e.2 = q → s.row (.on b p) (.on b q) = 1) :
    (es.reverse.forM (contractEdge b)).Finishes s fun _ s' => Climbing t swaps u ns p b es s₀ s' ∧
      ∀ q : Fin t.size, s'.row (.on b p) (.on b q) = 1 ↔
        s.row (.on b p) (.on b q) = 1 ∧ ∀ e ∈ es, e.2 ≠ q := by
  refine forM_reverse_finishes (fun (done : List (Nat × Nat)) s' =>
    Climbing t swaps u ns p b es s₀ s' ∧ ∀ q : Fin t.size, s'.row (.on b p) (.on b q) = 1 ↔
      s.row (.on b p) (.on b q) = 1 ∧ ∀ e ∈ done, e.2 ≠ (q : Nat)) ?_ ⟨h, by simp⟩
  rintro front ⟨i, j⟩ done s₁ hes ⟨h₁, hbits⟩
  have hmem : (i, j) ∈ es := by simp [hes]
  obtain ⟨hi, hj, hij, hji⟩ := h₁.ends ht hmem
  obtain ⟨hroot, -, hlater⟩ := hladder.at_edge hes
  have hparent : s₁.row (.on b p) (.on b ⟨i, hi⟩) = 1 :=
    (hbits _).mpr ⟨hfull _ hmem _ (.inl rfl), fun e he => (hlater e he).1⟩
  have hchild : s₁.row (.on b p) (.on b ⟨j, hj⟩) = 1 :=
    (hbits _).mpr ⟨hfull _ hmem _ (.inr rfl), fun e he => (hlater e he).2⟩
  refine (h₁.carry_finishes ht (i := ⟨i, hi⟩) (j := ⟨j, hj⟩) hij ?_).mono ?_
  · rintro - rfl
    exact hroot rfl
  · grind

end Ladder

section

variable [GraphLibrary] (ht : t.WellFormed) (htrees : t.FindsTrees GraphLibrary.steinerTree swaps)

include ht htrees

/-- Clearing an image leaves the generator only, and does not touch the other image of the pivot if
that is cleared. -/
theorem Clearing.clear_finishes (h : Clearing t swaps u ns p s) (b : Basis) {row : List Nat}
    (hrow : ∀ q ∈ row, q ∈ ns) (hpure : ∀ q : Fin t.size, s.row (.on b p) (.on b.other q) = 0)
    (hacts : ∀ q : Fin t.size, (q : Nat) ∈ row ↔ ¬TrivialAt (s.row (.on b p)) q) :
    (clear b p row swaps).Finishes s fun _ s' =>
      Clearing t swaps u ns p s' ∧ s'.row (.on b p) = single (.on b p) 1 ∧
      (s.row (.on b.other p) = single (.on b.other p) 1 →
        s'.row (.on b.other p) = single (.on b.other p) 1) := by
  have hbit : ∀ q : Fin t.size, (q : Nat) ∈ row ↔ s.row (.on b p) (.on b q) = 1 := by
    intro q
    rw [hacts, trivialAt_iff_on b, and_iff_left (hpure q)]
    rcases bit_cases (s.row (.on b p) (.on b q)) with e | e <;> simp [e]
  refine (h.tree_finishes ht htrees hrow).bind ?_
  rintro _ s₁ ⟨h₁, hremaining, es, rfl, hladder⟩
  have hrows : ∀ k : Generator t.size, s₁.row k = s.row k := fun k => by
    rw [TableauSynthesis.row, TableauSynthesis.row, hremaining]
  have hclimb : Climbing t swaps u ns p b es s s₁ :=
    ⟨h₁, hladder.grows.joined, by simpa only [hrows] using hpure, fun hu => (hrows _).trans hu⟩
  have hgoal : ∀ e ∈ es, e.2 ≠ p := fun e he hep =>
    hladder.grows.fresh e he (mem_singleton.mpr hep)
  refine (hclimb.fill_finishes ht hladder fun q hq => by rw [hrows]; exact (hbit q).mp hq).bind ?_
  rintro - s₂ ⟨h₂, hbits₂⟩
  simp only [hrows, ← hbit] at hbits₂
  refine (h₂.contract_finishes ht hladder ?_).mono ?_
  · rintro e he q (hq | hq)
    · exact (hbits₂ q).mpr (.inr ⟨e, he, hq⟩)
    · rcases hladder.inner e he with ⟨f, hf, hfe⟩ | hterm
      · exact (hbits₂ q).mpr (.inr ⟨f, hf, hfe.trans hq⟩)
      · grind
  · rintro - s₃ ⟨h₃, hbits₃⟩
    refine ⟨h₃.clearing, eq_single (fun q hq => ?_) ?_ (h₃.pure p), h₃.unit⟩
    · refine (trivialAt_iff_on b).mpr ⟨(bit_cases _).resolve_right fun hone => ?_, h₃.pure q⟩
      obtain ⟨hone, hnot⟩ := (hbits₃ q).mp hone
      have hfound : (q : Nat) = p ∨ ∃ e ∈ es, e.2 = (q : Nat) := by
        rcases (hbits₂ q).mp hone with hmem | ⟨e, he, hq⟩
        · exact hladder.covers q (mem_cons_of_mem _ hmem)
        · rw [← hq, ← mem_singleton, ← mem_map]
          exact hladder.grows.source_mem e he
      grind
    · refine (hbits₃ p).mpr ⟨(hbits₂ p).mpr ?_, hgoal⟩
      -- Without edges the only letter of the image is at the pivot already.
      cases es with
      | nil =>
        obtain ⟨q, hq⟩ := h.tracks.exists_letter p b
        have hmem := (hacts q).mpr hq
        rcases hladder.covers q (mem_cons_of_mem _ hmem) with e | ⟨e, he, -⟩
        · exact .inl (e ▸ hmem)
        · cases he
      | cons e es =>
        cases hladder.grows with
        | cons hu _ _ _ => exact .inr ⟨_, mem_cons_self, mem_singleton.mp hu⟩

lemma Clearing.reduce_finishes (h : Clearing t swaps u ns p s) :
    (reduce p swaps).Finishes s fun _ s' => Clearing t swaps u ns p s' ∧
      ∀ b, s'.row (.on b p) = single (.on b p) 1 := by
  rw [reduce, alignX_eq, clearX_eq, clearZ_eq]
  obtain ⟨rowX, hrun, hns, hacts⟩ := h.acting_run ht .x
  refine finishes_bind_of_run hrun ?_
  refine (h.align_finishes ht .x hns hacts).bind ?_
  rintro - s₁ ⟨h₁, htrivial₁, hpure₁⟩
  refine (h₁.clear_finishes ht htrees .x hns hpure₁ fun q =>
    (hacts q).trans (not_congr (htrivial₁ _ q).symm)).bind ?_
  rintro - s₂ ⟨h₂, hx₂, -⟩
  obtain ⟨rowZ, hrun, hns, hacts⟩ := h₂.acting_run ht .z
  refine finishes_bind_of_run hrun ?_
  refine (h₂.alignZ_finishes ht hns hacts hx₂).bind ?_
  rintro - s₃ ⟨h₃, hx₃, htrivial₃, hpure₃⟩
  refine (h₃.clear_finishes ht htrees .z hns hpure₃ fun q =>
    (hacts q).trans (not_congr (htrivial₃ q).symm)).bind ?_
  rintro - s₄ ⟨h₄, hz₄, hkeep⟩
  have hunits : ∀ b, s₄.row (.on b p) = single (.on b p) 1
    | .x => hkeep hx₃
    | .z => hz₄
  have hletters : ∀ b, letterAt (s₄.row (.on b p)) p = letterOf b := by
    intro b
    rw [letterAt_eq_letterOf, hunits, single_eq_same, single_eq_of_ne]
    · exact ⟨rfl, rfl⟩
    · exact fun e => b.other_ne (on_inj.mp e).1
  refine finishes_bind_of_run (h₄.tracks.out_run .x p p) ?_
  rw [if_neg (not_not.mpr (show _ = (1 : Int) from hletters .x))]
  refine finishes_bind_of_run (h₄.tracks.out_run .z p p) ?_
  rw [if_neg (not_not.mpr (show _ = (2 : Int) from hletters .z))]
  exact finishes_of_run rfl ⟨h₄, hunits⟩

/-- All qubits but those that are left are cleared. -/
structure Cleared (t : Topology) (swaps : Bool) (u : Tableau) (s : TableauSynthesis) : Prop where
  tracks : Tracks t swaps u s
  units : ∀ q : Fin t.size, (q : Nat) ∉ s.placement.graph.nodes → ∀ b,
    s.row (.on b q) = single (.on b q) 1

lemma Clearing.remove_finishes (h : Clearing t swaps u ns p s) : Update.Finishes (do
      reduce p swaps
      modify fun s =>
        { s with
          free := s.free.filter (· != (p : Nat))
          placement := { s.placement with graph := s.placement.graph.removeNode p } }) s
      fun _ s' => Cleared t swaps u s' ∧ s'.placement.graph.nodes.length < ns.length := by
  refine (h.reduce_finishes ht htrees).bind ?_
  rintro - s₁ ⟨h₁, hunits⟩
  obtain ⟨hp, hn, -⟩ := Graph.removeNode_spec (h₁.tracks.fits.arranged.proper ht) p
  refine finishes_of_run (runFrom_modify _ _) ⟨⟨h₁.tracks.remove ht h₁.rim, fun q hq b => ?_⟩, ?_⟩
  · by_cases hqp : q = p
    · exact hqp ▸ hunits b
    · refine h₁.cleared q (fun hmem => hq ?_) b
      exact (hn q).mpr ⟨(h₁.nodes q).mpr hmem, fun e => hqp (Fin.ext e)⟩
  · have hsub : ((p : Nat) :: (s₁.placement.graph.removeNode p).nodes).Subperm ns := by
      refine subperm_of_subset (nodup_cons.mpr ⟨fun hmem => ?_, hp.nodes⟩) ?_
      · exact ((hn p).mp hmem).2 rfl
      · refine cons_subset.mpr ⟨h₁.pivot, fun q hq => ?_⟩
        exact (h₁.nodes q).mp ((hn q).mp hq).1
    exact hsub.length_le

variable (hl : t.Linked t.qubits)
include hl

lemma Cleared.clearOne_finishes (h : Cleared t swaps u s) (hne : s.placement.graph.nodes ≠ []) :
    (clearOne swaps).Finishes s fun _ s' =>
      Cleared t swaps u s' ∧ s'.placement.graph.nodes.length < s.placement.graph.nodes.length := by
  have hproper := h.tracks.fits.arranged.proper ht
  have hlinked := h.tracks.fits.arranged.linked ht hl
  have hlt := h.tracks.fits.arranged.lt_size ht
  obtain ⟨q, hpivot, hq, hcut⟩ := pivot_ok hproper hlinked hne (t := s.remaining) (fun q hq r hr =>
    ⟨⟨_, xOutAt_eq h.tracks.lawful.regular ⟨q, hlt q hq⟩ ⟨r, hlt r hr⟩⟩,
      ⟨_, zOutAt_eq h.tracks.lawful.regular ⟨q, hlt q hq⟩ ⟨r, hlt r hr⟩⟩⟩) s.free swaps
  refine finishes_bind_get (finishes_bind_lift hpivot ?_)
  by_cases hswap : (s.placement.graph.isCut q && swaps)
  · rw [if_pos hswap]
    rw [Bool.and_eq_true] at hswap
    obtain ⟨-, hfree, f, hf, hfcut⟩ := hcut hswap.1
    obtain ⟨r, hnearest, hr, hrfree, hrcut⟩ := Graph.nearestRemovable_ok hproper hlinked hq
      ⟨f, hf, h.tracks.fits.arranged.free_nodes ht f hf, hfcut⟩
    have hrq : r ≠ q := by
      rintro rfl
      exact Bool.false_ne_true (hrcut.symm.trans hswap.1)
    obtain ⟨hfits, htrades⟩ := h.tracks.fits.traded ht hswap.2 hrfree hfree hrq
    have hexchange : (exchange q r).runFrom
        ⟨s.placement.graph.swapNodes r q, s.placement.permutation⟩ =
          (.ok (), s.placement.traded r q) := by
      refine (exchange_run (p := ⟨s.placement.graph.swapNodes r q, _⟩)
        (h.tracks.fits.lt_length ht hq) (h.tracks.fits.lt_length ht hr)).trans ?_
      rw [traded, set_comm _ _ hrq]
      rfl
    refine finishes_bind_lift hnearest ?_
    refine finishes_bind_of_run (onPlacement_run (runFrom_modify _ _)) ?_
    refine finishes_bind_of_run (onPlacement_run hexchange) ?_
    refine Clearing.remove_finishes ht htrees (p := ⟨q, hlt q hq⟩)
      ⟨?_, htrades.mem_nodes, h.units, hq, ?_⟩
    · refine h.tracks.trades hfits htrades (fun v hv => Equiv.swap_apply_of_ne_of_ne ?_ ?_) ?_
      · rintro rfl
        exact hv hrfree
      · rintro rfl
        exact hv hfree
      · intro hno
        exact absurd (hno.symm.trans hswap.2) Bool.false_ne_true
    · rw [htrades.renamed.isCut hproper, Equiv.swap_apply_right]
      exact hrcut
  · rw [if_neg hswap]
    have hrim : s.placement.graph.isCut q = false :=
      Bool.eq_false_iff.mpr fun hc => hswap (by rw [hc, (hcut hc).1]; rfl)
    exact Clearing.remove_finishes ht htrees (p := ⟨q, hlt q hq⟩)
      ⟨h.tracks, fun _ => .rfl, h.units, hq, hrim⟩

lemma Cleared.clearAll_finishes {k : Nat} (h : Cleared t swaps u s) (hk : s.placement.graph.nodes.length ≤ k) :
    (clearAll swaps k).Finishes s fun _ s' =>
      Cleared t swaps u s' ∧ s'.placement.graph.nodes = [] := by
  induction k generalizing s with
  | zero =>
    exact finishes_of_run rfl ⟨h, eq_nil_of_length_eq_zero (Nat.le_zero.mp hk)⟩
  | succ k ih =>
    refine finishes_bind_of_run (a := s.placement.graph) rfl ?_
    by_cases hnone : s.placement.graph.nodes.isEmpty
    · rw [if_pos hnone]
      exact finishes_of_run rfl ⟨h, List.isEmpty_iff.mp hnone⟩
    · rw [if_neg hnone]
      refine (h.clearOne_finishes ht htrees hl fun e => hnone (List.isEmpty_iff.mpr e)).bind ?_
      rintro - s₁ ⟨h₁, hless⟩
      exact ih h₁ (by omega)

end

end GadgetCircuits.TableauSynthesis
