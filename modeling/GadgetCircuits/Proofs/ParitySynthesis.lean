import GadgetCircuits.Graph.Standard
import GadgetCircuits.Phase.ParitySynthesis
import GadgetCircuits.Proofs.SteinerTree
import GadgetCircuits.Proofs.Synthesis

/-!
Synthesis gadget by gadget. On a Steiner tree of its legs a gadget first gets a leg on every node,
from the leaves up, and then loses all of them but the one on the root. Nothing depends on which
gadget is taken next or which node is the root.
-/

namespace GadgetCircuits

open List

namespace ParitySynthesis

open Synthesis

variable {c : PhaseCircuit} {t : Topology} {b : Basis} {j : Nat} {s : Synthesis}
  {todo : List (Basis × Nat)}

lemma filling_eq (b : Basis) (e : Nat × Nat) : filling b e = adding b e.2 e.1 := by
  cases b <;> rfl

lemma contraction_eq (b : Basis) (e : Nat × Nat) : contraction b e = adding b e.1 e.2 := by
  cases b <;> rfl

/-- One step of filling: the parent of an edge gets a leg if it has none. -/
def fill (b : Basis) (j : Nat) (e : Nat × Nat) (s : Synthesis) : Synthesis :=
  if s.leg b j e.1 then s else s.withCX (filling b e)

def contract (b : Basis) (e : Nat × Nat) (s : Synthesis) : Synthesis :=
  s.withCX (contraction b e)

section Steps

variable {e : Nat × Nat} (h : Realizes c t s todo) (ht : t.WellFormed) (he : t.hasCoupling e.1 e.2)
include h ht he

lemma realizes_fill (b : Basis) (j : Nat) : Realizes c t (fill b j e s) todo := by
  unfold fill
  split
  · exact h
  · rw [filling_eq]
    exact h.adding ht b (by rw [Topology.hasCoupling_comm]; exact he)

end Steps

lemma pickRoot_mem (c : PhaseCircuit) (rest : Pending) (b : Basis) {tree : Graph} {q : Nat}
    (hq : q ∈ tree.nodes) : (pickRoot c rest b tree).getD q ∈ tree.nodes := by
  refine foldlRecOn (motive := fun best : Option (Nat × Nat) =>
    (best.map Prod.fst).getD q ∈ tree.nodes) tree.nodes _ hq ?_
  grind

lemma treeEdges_eq {tree : Graph} {root : Nat} (h : root ∈ tree.nodes) :
    treeEdges tree root = .ok (tree.bfsEdges root) :=
  if_pos (Graph.hasNode_iff.mpr h)

lemma contractAll_run (b : Basis) (es : List (Nat × Nat)) :
    (forIn es.reverse PUnit.unit fun edge _ => (do
      placeCX (contraction b edge).1 (contraction b edge).2
      pure (ForInStep.yield PUnit.unit) : Synth (ForInStep PUnit))).run s =
        .ok (⟨⟩, es.foldr (contract b) s) := by
  rw [← foldl_reverse]
  exact forIn_run (I := fun _ => True) (fun s _ e _ => ⟨rfl, trivial⟩) trivial

lemma finish_run {q : Nat} (h : Realizes c t s ((b, j) :: todo)) (hq : q < t.size)
    (hleg : ∀ v, s.leg b j v ↔ v = q) :
    ∃ s', (do
      placeGadget b j [q]
      if (← legCount b j) ≠ 1 then throw .failedAssertion : Synth Unit).run s = .ok ((), s') ∧
        Realizes c t s' todo := by
  have hlegs := legsOf_eq_singleton hleg
  have hcount : (GadgetTable.legsOf
      ((s.withGadget (b, j)).circuit.cell (b, j)).column).length = 1 := by
    rw [withGadget, hlegs]
    rfl
  refine ⟨s.withGadget (b, j), ?_, h.withGadget ⟨q, hq, ?_⟩⟩
  · rw [run_bind_ok (placeGadget_run hlegs), run_bind_ok (legCount_run b j),
      if_neg (by simp [hcount])]
    rfl
  · rw [Cell.gadget, hlegs]
    rfl

lemma coupled_of_tree (ht : t.WellFormed) {terminals : List Nat} {tree : Graph} {root : Nat}
    (htree : t.toGraph.IsSteinerTree terminals tree) :
    ∀ e ∈ tree.bfsEdges root, t.hasCoupling e.1 e.2 = true := fun e he =>
  ((Topology.toGraph_spec ht).2.2 _ _).mp
    (htree.joined _ _ ((Graph.bfsEdges_grows htree.proper root).joined e he))

section Column

variable (h : Realizes c t s todo) (hs : c.size = t.size) (ht : t.WellFormed) (hj : (b, j) ∈ todo)
include h hs hj

lemma legsAmong_qubits : (legsAmong b j t.qubits).run s = .ok (t.qubits.filter (s.leg b j), s) := by
  refine legsAmong_run fun q hq => ?_
  rw [h.column_length hj, hs]
  exact mem_range.mp hq

lemma mem_terminals {v : Nat} : v ∈ t.qubits.filter (s.leg b j) ↔ s.leg b j v := by
  rw [filter_leg_qubits ((h.column_length hj).trans hs), leg_iff]

lemma exists_terminal : t.qubits.filter (s.leg b j) ≠ [] := by
  rw [filter_leg_qubits ((h.column_length hj).trans hs)]
  exact GadgetTable.legsOf_ne_nil (h.cell_proper hj).2

include ht

lemma steinerTree_of_legs [GraphLibrary] (htrees : t.toGraph.FindsTrees GraphLibrary.steinerTree) :
    ∃ tree, t.steinerTree (t.qubits.filter (s.leg b j)) [] = .ok tree ∧
      (2 ≤ (t.qubits.filter (s.leg b j)).length →
        t.toGraph.IsSteinerTree (t.qubits.filter (s.leg b j)) tree) := by
  obtain ⟨tree, hfound, htree⟩ := htrees _ (exists_terminal h hs hj) fun v hv => by
    rw [(Topology.toGraph_spec ht).2.1]
    exact mem_of_mem_filter hv
  refine ⟨tree, hfound, fun hlen => htree.resolve_right ?_⟩
  -- Qubits in order are different ones.
  rintro ⟨-, hall⟩
  generalize hterminals : t.qubits.filter (s.leg b j) = terminals at hlen hall
  match terminals, hlen with
  | p :: q :: _, _ =>
    have hnodup := hterminals ▸ (nodup_range (n := t.size)).filter (s.leg b j)
    exact (nodup_cons.mp hnodup).1 (hall p (by simp) q (by simp) ▸ mem_cons_self)

lemma leg_fill {e : Nat × Nat} (he : t.hasCoupling e.1 e.2) (hchild : s.leg b j e.2) (q : Nat) :
    (fill b j e s).leg b j q ↔ q = e.1 ∨ s.leg b j q := by
  obtain ⟨-, hlt, -⟩ := Topology.ends_of_hasCoupling ht he
  rw [← hs, ← h.column_length hj] at hlt
  unfold fill
  by_cases hp : s.leg b j e.1
  · rw [if_pos hp]
    refine (or_iff_right_of_imp ?_).symm
    rintro rfl
    exact hp
  · rw [if_neg hp, filling_eq]
    by_cases hq : q = e.1
    · subst hq
      simp [leg_adding e.2 hlt, hchild, hp]
    · simp [leg_adding_of_ne s b e.2 j hq, hq]

lemma leg_contract {e : Nat × Nat} (he : t.hasCoupling e.1 e.2) (hparent : s.leg b j e.1)
    (hchild : s.leg b j e.2) (q : Nat) :
    (contract b e s).leg b j q ↔ e.2 ≠ q ∧ s.leg b j q := by
  obtain ⟨-, -, hlt⟩ := Topology.ends_of_hasCoupling ht he
  rw [← hs, ← h.column_length hj] at hlt
  rw [contract, contraction_eq]
  by_cases hq : q = e.2
  · subst hq
    simp [leg_adding e.1 hlt, hparent, hchild]
  · simp [leg_adding_of_ne s b e.1 j hq, Ne.symm hq]

section Trees

variable {tree : Graph} {seen : List Nat} {es : List (Nat × Nat)}

/-- Filling takes the edges from the last to the first, so a node that is not a parent has to have a
leg from the start. -/
theorem leg_fillAll (hgrows : tree.Grows seen es) (hes : ∀ e ∈ es, t.hasCoupling e.1 e.2)
    (hfull : ∀ e ∈ es, (∃ f ∈ es, f.1 = e.2) ∨ s.leg b j e.2) :
    Realizes c t (es.foldr (fill b j) s) todo ∧ ∀ q, (es.foldr (fill b j) s).leg b j q ↔
        (∃ e ∈ es, e.1 = q) ∨ s.leg b j q := by
  induction hgrows with
  | nil => exact ⟨h, by simp⟩
  | @cons seen u v es hu hv hadj hgrows ih =>
    obtain ⟨he, hes⟩ := forall_mem_cons.mp hes
    obtain ⟨hr, hleg⟩ := ih hes fun e hmem => by
      refine (hfull e (mem_cons_of_mem _ hmem)).imp_left ?_
      rintro ⟨f, hf, hfe⟩
      rcases mem_cons.mp hf with rfl | hf
      · exact absurd (hfe ▸ mem_cons_of_mem v hu) (hgrows.fresh e hmem)
      · exact ⟨f, hf, hfe⟩
    have hchild : (es.foldr (fill b j) s).leg b j v := by
      refine (hleg v).mpr ((hfull (u, v) mem_cons_self).imp_left ?_)
      rintro ⟨f, hf, hfv⟩
      rcases mem_cons.mp hf with rfl | hf
      · have hsame : u = v := hfv
        exact absurd (hsame ▸ hu) hv
      · exact ⟨f, hf, hfv⟩
    refine ⟨realizes_fill hr ht he b j, fun q => ?_⟩
    rw [foldr_cons, leg_fill hr hs ht hj he hchild, hleg, exists_mem_cons_iff, or_assoc, eq_comm]

lemma leg_contractAll (hgrows : tree.Grows seen es) (hes : ∀ e ∈ es, t.hasCoupling e.1 e.2)
    (hseen : ∀ q ∈ seen, s.leg b j q) (hfull : ∀ e ∈ es, s.leg b j e.2) :
    Realizes c t (es.foldr (contract b) s) todo ∧ ∀ q, (es.foldr (contract b) s).leg b j q ↔
        (∀ e ∈ es, e.2 ≠ q) ∧ s.leg b j q := by
  induction hgrows with
  | nil => exact ⟨h, by simp⟩
  | @cons seen u v es hu hv hadj hgrows ih =>
    obtain ⟨he, hes⟩ := forall_mem_cons.mp hes
    obtain ⟨hleaf, hfull⟩ := forall_mem_cons.mp hfull
    have hseen' : ∀ q ∈ v :: seen, s.leg b j q := forall_mem_cons.mpr ⟨hleaf, hseen⟩
    obtain ⟨hr, hleg⟩ := ih hes hseen' hfull
    have hkept : ∀ q ∈ v :: seen, (es.foldr (contract b) s).leg b j q := by
      intro q hq
      refine (hleg q).mpr ⟨fun e hmem hsame => ?_, hseen' q hq⟩
      exact hgrows.fresh e hmem (hsame ▸ hq)
    refine ⟨by rw [foldr_cons, contract, contraction_eq]; exact hr.adding ht b he, fun q => ?_⟩
    rw [foldr_cons, leg_contract hr hs ht hj he (hkept u (mem_cons_of_mem v hu))
      (hkept v mem_cons_self), hleg, forall_mem_cons, and_assoc]

lemma fill_tree {q : Nat}
    (htree : t.toGraph.IsSteinerTree (t.qubits.filter (s.leg b j)) tree) (hq : s.leg b j q) :
    Realizes c t ((tree.bfsEdges q).foldr (fill b j) s) todo ∧
      ∀ v, ((tree.bfsEdges q).foldr (fill b j) s).leg b j v ↔ v ∈ tree.nodes := by
  have hgrows := Graph.bfsEdges_grows htree.proper q
  have hnodes : ∀ v, s.leg b j v → v ∈ tree.nodes := by
    intro v hv
    refine htree.spanning v (mem_filter.mpr ⟨mem_range.mpr ?_, hv⟩)
    rw [← hs]
    exact h.leg_lt hj hv
  have hterminal : ∀ e ∈ tree.bfsEdges q, (∃ f ∈ tree.bfsEdges q, f.1 = e.2) ∨ s.leg b j e.2 := by
    intro e he
    refine (htree.terminal_or_left htree.proper (hnodes q hq) he).imp_right fun hmem => ?_
    exact (mem_filter.mp hmem).2
  obtain ⟨hr, hleg⟩ := leg_fillAll h hs ht hj hgrows
    (coupled_of_tree ht htree) hterminal
  refine ⟨hr, fun v => (hleg v).trans ⟨?_, fun hv => ?_⟩⟩
  · rintro (⟨e, he, rfl⟩ | hv)
    · exact (hgrows.joined e he).mem_nodes
    · exact hnodes v hv
  · rcases mem_cons.mp ((htree.mem_reach htree.proper (hnodes q hq)).mpr hv) with rfl | hv
    · exact Or.inr hq
    · obtain ⟨e, he, rfl⟩ := mem_map.mp hv
      exact hterminal e he

lemma contract_tree {root : Nat} {terminals : List Nat}
    (htree : t.toGraph.IsSteinerTree terminals tree) (hroot : root ∈ tree.nodes)
    (hleg : ∀ v, s.leg b j v ↔ v ∈ tree.nodes) :
    Realizes c t ((tree.bfsEdges root).foldr (contract b) s) todo ∧
      ∀ v, ((tree.bfsEdges root).foldr (contract b) s).leg b j v ↔ v = root := by
  have hgrows := Graph.bfsEdges_grows htree.proper root
  have hseen : ∀ q ∈ [root], s.leg b j q := by
    intro q hq
    rw [mem_singleton.mp hq]
    exact (hleg root).mpr hroot
  obtain ⟨hr, hleg'⟩ := leg_contractAll h hs ht hj hgrows
    (coupled_of_tree ht htree) hseen
    (fun e he => (hleg e.2).mpr (htree.proper.mem_nodes (hgrows.joined e he)))
  refine ⟨hr, fun v => (hleg' v).trans ⟨?_, ?_⟩⟩
  · rintro ⟨hnot, hv⟩
    rcases mem_cons.mp ((htree.mem_reach htree.proper hroot).mpr ((hleg v).mp hv)) with rfl | hv
    · rfl
    · obtain ⟨e, he, hsame⟩ := mem_map.mp hv
      exact absurd hsame (hnot e he)
  · rintro rfl
    exact ⟨fun e he hsame => hgrows.fresh e he (hsame ▸ mem_cons_self), hseen v mem_cons_self⟩

end Trees

lemma fillAll_run {es : List (Nat × Nat)} (hes : ∀ e ∈ es, t.hasCoupling e.1 e.2) :
    (forIn es.reverse PUnit.unit fun edge _ => (do
      if !(← hasLeg b j edge.1) then do
        placeCX (filling b edge).1 (filling b edge).2
        pure (ForInStep.yield PUnit.unit)
      else pure (ForInStep.yield PUnit.unit) : Synth (ForInStep PUnit))).run s =
        .ok (⟨⟩, es.foldr (fill b j) s) := by
  rw [← foldl_reverse]
  refine forIn_run (I := fun s => Realizes c t s todo) (fun s h e he => ?_) h
  have he := hes e (mem_reverse.mp he)
  refine ⟨?_, realizes_fill h ht he b j⟩
  have hlt : e.1 < (s.circuit.cell (b, j)).column.length := by
    rw [h.column_length hj, hs]
    exact (Topology.ends_of_hasCoupling ht he).2.1
  rw [run_bind_ok (hasLeg_run hlt), fill]
  cases s.leg b j e.1 with
  | true => rfl
  | false => rfl

end Column

section Runs

variable [GraphLibrary] (htrees : t.toGraph.FindsTrees GraphLibrary.steinerTree)
include htrees

lemma placeNext_run (h : Realizes c t s ((b, j) :: todo)) (hs : c.size = t.size)
    (ht : t.WellFormed) (rest : Pending) :
    ∃ s', (placeNext t rest b j).run s = .ok ((), s') ∧ Realizes c t s' todo := by
  have hj : (b, j) ∈ (b, j) :: todo := mem_cons_self
  have hleg := fun v => mem_terminals h hs hj (v := v)
  rw [placeNext, run_bind_ok (legsAmong_qubits h hs hj)]
  rcases hterm : t.qubits.filter (s.leg b j) with _ | ⟨q, _ | ⟨q', more⟩⟩
  · exact absurd hterm (exists_terminal h hs hj)
  · have hone : ∀ v, s.leg b j v ↔ v = q := by
      intro v
      rw [← hleg, hterm, mem_singleton]
    simp only [pure_bind]
    refine finish_run h ?_ hone
    rw [← hs]
    exact h.leg_lt hj ((hone q).mpr rfl)
  · obtain ⟨tree, htree, hsteiner⟩ := steinerTree_of_legs h hs ht hj htrees
    replace hsteiner := hsteiner (by simp [hterm])
    have hmem : q ∈ t.qubits.filter (s.leg b j) := hterm ▸ mem_cons_self
    have hqnode := hsteiner.spanning q hmem
    obtain ⟨h₁, hleg₁⟩ := fill_tree h hs ht hj hsteiner ((hleg q).mp hmem)
    generalize hs₁ : (tree.bfsEdges q).foldr (fill b j) s = s₁ at h₁ hleg₁
    have hroot := pickRoot_mem s₁.circuit rest b hqnode
    obtain ⟨h₂, hleg₂⟩ := contract_tree h₁ hs ht hj hsteiner hroot hleg₁
    have hsize := h₁.leg_lt hj ((hleg₁ _).mpr hroot)
    obtain ⟨s₃, hrun₃, h₃⟩ := finish_run h₂ (hs ▸ hsize) hleg₂
    refine ⟨s₃, ?_, h₃⟩
    rw [hterm] at htree
    simp only [pure_bind]
    rw [run_bind_ok (liftM_run htree), run_bind_ok (liftM_run (treeEdges_eq hqnode)),
      run_bind_ok (fillAll_run h hs ht hj (coupled_of_tree ht hsteiner)), hs₁, StateT.run_bind, StateT.run_get, pure_bind,
      run_bind_ok (liftM_run (treeEdges_eq hroot)), run_bind_ok (contractAll_run b _), hrun₃]

lemma cheapest_run {js : List Nat} (h : Realizes c t s todo) (hs : c.size = t.size)
    (ht : t.WellFormed) (hjs : ∀ j ∈ js, (b, j) ∈ todo) (hne : js ≠ []) :
    ∃ j ∈ js, (cheapest t b js).run s = .ok (j, s) := by
  have hsizes : ∀ j ∈ js, ∃ n, (do
      return (← t.steinerTree (← legsAmong b j t.qubits) []).edges.length : Synth Nat).run s =
        .ok (n, s) := by
    intro j hj
    obtain ⟨tree, htree, -⟩ := steinerTree_of_legs h hs ht (hjs j hj) htrees
    refine ⟨tree.edges.length, ?_⟩
    rw [run_bind_ok (legsAmong_qubits h hs (hjs j hj)), run_bind_ok (liftM_run htree)]
    rfl
  choose! size hsize using hsizes
  have hsome : js.map size ≠ [] := by simpa using hne
  obtain ⟨k, hk, hleast⟩ := leastAt_lt hsome
  rw [length_map] at hk
  refine ⟨js[k], getElem_mem hk, ?_⟩
  rw [cheapest, run_bind_ok (mapM_look hsize)]
  simp only [hleast, Option.bind_some, getElem?_eq_getElem hk]
  rfl

lemma placeRun_run (hs : c.size = t.size) (ht : t.WellFormed) (later : Pending) {js : List Nat} (hjs : js.Nodup)
    (h : Realizes c t s (js.map (Prod.mk b) ++ todo)) {rounds : Nat} (hr : js.length ≤ rounds) :
    ∃ s', (placeRun t b later rounds js).run s = .ok ((), s') ∧ Realizes c t s' todo := by
  induction rounds generalizing js s with
  | zero =>
    have hnil : js = [] := eq_nil_of_length_eq_zero (Nat.le_zero.mp hr)
    subst hnil
    exact ⟨s, rfl, h⟩
  | succ rounds ih =>
    rcases eq_or_ne js [] with rfl | hne
    · exact ⟨s, rfl, h⟩
    obtain ⟨j, hj, hrun⟩ := cheapest_run htrees h hs ht
      (fun j hj => mem_append_left todo (mem_map_of_mem hj)) hne
    have hperm : js.Perm (j :: js.filter (· != j)) := by
      rw [← List.Nodup.erase_eq_filter hjs]
      exact perm_cons_erase hj
    obtain ⟨s₁, hrun₁, h₁⟩ := placeNext_run htrees (h.perm hperm) hs ht ((b, js) :: later)
    have hlen : (js.filter (· != j)).length ≤ rounds := by
      have := hperm.length_eq
      rw [length_cons] at this
      omega
    obtain ⟨s₂, hrun₂, h₂⟩ := ih (hjs.filter _) h₁ hlen
    refine ⟨s₂, ?_, h₂⟩
    rw [placeRun, run_bind_ok hrun, run_bind_ok hrun₁, hrun₂]
    exact hne

lemma placeRuns_run (hs : c.size = t.size) (ht : t.WellFormed) {runs : Pending}
    (hruns : (runs.flatMap fun r => r.2.map (Prod.mk r.1)).Nodup)
    (h : Realizes c t s (runs.flatMap fun r => r.2.map (Prod.mk r.1))) :
    ∃ s', (placeRuns t runs).run s = .ok ((), s') ∧ Realizes c t s' [] := by
  induction runs generalizing s with
  | nil => exact ⟨s, rfl, h⟩
  | cons r runs ih =>
    obtain ⟨b, js⟩ := r
    rw [flatMap_cons] at hruns h
    obtain ⟨hjs, hlater, -⟩ := nodup_append.mp hruns
    obtain ⟨s₁, hrun₁, h₁⟩ := placeRun_run htrees hs ht runs hjs.of_map h (Nat.le_refl _)
    obtain ⟨s₂, hrun₂, h₂⟩ := ih hlater h₁
    refine ⟨s₂, ?_, h₂⟩
    rw [placeRuns, run_bind_ok hrun₁, hrun₂]

end Runs

end ParitySynthesis

namespace PhaseCircuit

/-- On a tree Steiner trees are always found. Wherever they are found, by whatever means, synthesis gadget
by gadget always returns, and is correct. -/
theorem paritySynthesis_correct [GraphLibrary] {c : PhaseCircuit} {t : Topology} (hc : c.WellFormed)
    (hs : c.size = t.size) (ht : t.WellFormed) :
    (t.graph.IsTree → t.toGraph.FindsTrees Graph.steinerTree) ∧
    (t.toGraph.FindsTrees GraphLibrary.steinerTree →
      ∃ gs r, c.gadgets = .ok gs ∧ c.paritySynthesis t = .ok r ∧ r.Correct gs t) := by
  refine ⟨fun htree => ?_, fun htrees => Synthesis.perform_correct hc hs ht fun s h => ?_⟩
  · have hl := Topology.linked_qubits htree.connected.preconnected
    refine Graph.findsTrees_of_acyclic (Topology.toGraph_spec ht).1 (Topology.toGraph_linked ht hl) ?_
    rw [Topology.toGraph_simple ht]
    exact Topology.within_acyclic htree.isAcyclic
  refine ParitySynthesis.placeRuns_run htrees hs ht ?_ ?_
  · rw [Synthesis.runs_flatMap]
    exact hc.places_nodup
  · rwa [Synthesis.runs_flatMap]

def aroundStar : PhaseCircuit :=
  (({ size := 4 } : PhaseCircuit).push
    { basis := .z, angle := .angle ⟨1 / 2⟩, legs := [1, 2, 3] } [false, true, true, true]
    (.angle ⟨1 / 2⟩)).push
    { basis := .x, angle := .angle ⟨1 / 4⟩, legs := [1, 3] } [false, true, false, true]
    (.angle ⟨1 / 4⟩)

lemma aroundStar_wellFormed : aroundStar.WellFormed := by
  simp [aroundStar]

def starOfFour : Topology where
  size := 4
  couplings := [(0, 1), (0, 2), (0, 3)]

lemma starOfFour_isTree : starOfFour.graph.IsTree := by
  have hcentre : ∀ q : Fin 4, starOfFour.graph.Reachable (0 : Fin 4) q := by
    intro q
    by_cases hq : q = 0
    · exact hq ▸ .refl _
    · refine SimpleGraph.Adj.reachable ⟨Ne.symm hq, ?_⟩
      revert q
      decide
  have hsome : Nonempty (Fin starOfFour.size) := ⟨(0 : Fin 4)⟩
  refine SimpleGraph.isTree_iff_connected_and_card.mpr ⟨⟨fun a b => ?_⟩, ?_⟩
  · exact (hcentre a).symm.trans (hcentre b)
  · rw [Nat.card_eq_fintype_card, Nat.card_eq_fintype_card]
    decide +kernel

theorem aroundStar_paritySynthesis :
    aroundStar.WellFormed ∧ aroundStar.size = starOfFour.size ∧ starOfFour.WellFormed ∧
    starOfFour.graph.IsTree ∧
    ∃ gs r, aroundStar.gadgets = .ok gs ∧ aroundStar.paritySynthesis starOfFour = .ok r ∧
      r.Correct gs starOfFour := by
  have ht : starOfFour.WellFormed := by simp [Topology.WellFormed, starOfFour]
  have hcorrect := paritySynthesis_correct aroundStar_wellFormed rfl ht
  exact ⟨aroundStar_wellFormed, rfl, ht, starOfFour_isTree,
    hcorrect.2 (hcorrect.1 starOfFour_isTree)⟩

end PhaseCircuit

end GadgetCircuits
