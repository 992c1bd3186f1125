import GadgetCircuits.Proofs.SteinerTree

/-!
Graphs under other names. Exchanging the names of two nodes, setting weights and building a graph
anew change orders and weights, but leave the graph the same up to a permutation of names; so they
keep paths, cut vertices and the absence of cycles.
-/

open List Equiv

namespace GadgetCircuits.Graph

variable {g g' g'' : Graph} {σ τ : Equiv.Perm Nat} {u v : Nat}

/-- A graph with the nodes and edges of another, where a permutation leads to the other's names. -/
structure Renamed (σ : Equiv.Perm Nat) (g g' : Graph) : Prop where
  proper : g'.Proper
  nodes : ∀ a, a ∈ g'.nodes ↔ σ a ∈ g.nodes
  joined : ∀ a b, g'.Joined a b ↔ g.Joined (σ a) (σ b)

namespace Renamed

lemma refl (hg : g.Proper) : Renamed 1 g g := ⟨hg, fun _ => .rfl, fun _ _ => .rfl⟩

variable (h : Renamed σ g g')
include h

lemma trans (h' : Renamed τ g' g'') : Renamed (σ * τ) g g'' where
  proper := h'.proper
  nodes a := (h'.nodes a).trans (h.nodes (τ a))
  joined a b := (h'.joined a b).trans (h.joined (τ a) (τ b))

lemma reachable (hg : g.Proper) (a b : Nat) :
    g'.simple.Reachable a b ↔ g.simple.Reachable (σ a) (σ b) := by
  have hadj : ∀ a b, g'.simple.Adj a b ↔ g.simple.Adj (σ a) (σ b) := by
    intro a b
    rw [h.proper.adj_iff, hg.adj_iff, h.joined]
  let e : g'.simple ≃g g.simple := ⟨σ, fun {a b} => (hadj a b).symm⟩
  exact e.reachable_iff.symm

lemma linked (hg : g.Proper) (hl : g.Linked) : g'.Linked := by
  intro a ha b hb
  rw [h.reachable hg]
  exact hl _ ((h.nodes a).mp ha) _ ((h.nodes b).mp hb)

lemma isAcyclic (hg : g.Proper) (hac : g.simple.IsAcyclic) : g'.simple.IsAcyclic := by
  let f : g'.simple →g g.simple :=
    ⟨σ, fun {a b} hab => hg.adj_iff.mpr ((h.joined a b).mp (h.proper.adj_iff.mp hab))⟩
  exact hac.comap f σ.injective

lemma removeNode (hg : g.Proper) (v : Nat) : Renamed σ (g.removeNode (σ v)) (g'.removeNode v) := by
  obtain ⟨hp, hn, hj⟩ := removeNode_spec h.proper v
  obtain ⟨-, hn', hj'⟩ := removeNode_spec hg (σ v)
  refine ⟨hp, fun a => ?_, fun a b => ?_⟩
  · rw [hn, hn', h.nodes, Ne, Ne, σ.injective.eq_iff]
  · rw [hj, hj', h.joined, Ne, Ne, Ne, Ne, σ.injective.eq_iff, σ.injective.eq_iff]

lemma isCut (hg : g.Proper) : g'.isCut v = false ↔ g.isCut (σ v) = false := by
  obtain ⟨hp, -, -⟩ := removeNode_spec hg (σ v)
  rw [isCut_eq_false h.proper, isCut_eq_false hg]
  simp only [(h.removeNode hg v).reachable hp, h.joined]
  constructor
  · intro hall a b ha hb
    have := hall (σ.symm a) (σ.symm b)
    simp only [apply_symm_apply] at this
    exact this ha hb
  · exact fun hall a b => hall (σ a) (σ b)

lemma length_nodes (hg : g.Proper) : g'.nodes.length = g.nodes.length := by
  have hperm : (g'.nodes.map σ).Perm g.nodes := by
    refine (perm_ext_iff_of_nodup (h.proper.nodes.map σ.injective) hg.nodes).mpr fun a => ?_
    rw [mem_map]
    constructor
    · rintro ⟨b, hb, rfl⟩
      exact (h.nodes b).mp hb
    · intro ha
      exact ⟨σ.symm a, (h.nodes _).mpr (by rwa [apply_symm_apply]), apply_symm_apply _ _⟩
  rw [← hperm.length_eq, length_map]

end Renamed

lemma addEdge_renamed (hg : g.Proper) (h : g.Joined u v) (w : Nat) :
    Renamed 1 g (g.addEdge u v w) := by
  have hne : u ≠ v := by
    rintro rfl
    exact hg.irrefl u h
  refine ⟨addEdge_proper hg hne w, fun a => ?_, fun a b => ?_⟩
  · rw [nodes_addEdge_of_mem h.mem_nodes (hg.mem_nodes h)]
    rfl
  · rw [joined_addEdge hne]
    refine or_iff_left_of_imp ?_
    rintro (⟨rfl, rfl⟩ | ⟨rfl, rfl⟩)
    · exact h
    · exact hg.symm h

lemma foldl_addEdge_renamed {α : Type} (ends : α → Nat × Nat) (weight : α → Nat) {xs : List α}
    (hg : g.Proper) (hxs : ∀ x ∈ xs, g.Joined (ends x).1 (ends x).2) :
    Renamed 1 g (xs.foldl (fun g x => g.addEdge (ends x).1 (ends x).2 (weight x)) g) := by
  induction xs generalizing g with
  | nil => exact .refl hg
  | cons x xs ih =>
    obtain ⟨hx, hxs⟩ := forall_mem_cons.mp hxs
    have h := addEdge_renamed hg hx (weight x)
    exact h.trans (ih h.proper fun y hy => (h.joined _ _).mpr (hxs y hy))

lemma lt_freshNode (h : v ∈ g.nodes) : v < g.freshNode := by
  have hmax : ∀ (ns : List Nat) (m : Nat), m ≤ ns.foldl max m ∧ ∀ n ∈ ns, n ≤ ns.foldl max m := by
    intro ns
    induction ns with
    | nil => simp
    | cons n ns ih =>
      grind
  exact Nat.lt_succ_of_le ((hmax g.nodes 0).2 v h)

lemma relabel_spec (hg : g.Proper) (hu : u ∈ g.nodes) (hv : v ∉ g.nodes) :
    (g.relabel u v).Proper ∧ (∀ a, a ∈ (g.relabel u v).nodes ↔ (a ∈ g.nodes ∨ a = v) ∧ a ≠ u) ∧
      ∀ a b, (g.relabel u v).Joined a b ↔ (a ≠ u ∧ b ≠ u ∧ g.Joined a b) ∨
        (a = v ∧ g.Joined u b) ∨ (b = v ∧ g.Joined u a) := by
  have hne : u ≠ v := by
    rintro rfl
    exact hv hu
  obtain ⟨hp, hn, hj⟩ := removeNode_spec (addNode_proper hg v) u
  have harc : ∀ x ∈ g.row u, g.Joined u x.1 := fun x hx => mem_map_of_mem hx
  have hends : ∀ x ∈ g.row u, (v, if x.1 = u then v else x.1) = (v, x.1) := by
    intro x hx
    rw [if_neg]
    rintro e
    exact hg.irrefl u (e ▸ harc x hx)
  obtain ⟨hp', hj'⟩ := foldl_addEdge_spec (fun x : Nat × Nat => (v, if x.1 = u then v else x.1))
    Prod.snd (fun x (hx : x ∈ g.row u) => by
      rw [hends x hx]
      exact fun e : v = x.1 => hv (e ▸ hg.mem_nodes (harc x hx))) hp
  have hn' := nodes_foldl_addEdge (fun x : Nat × Nat => (v, if x.1 = u then v else x.1))
    Prod.snd (g := (g.addNode v).removeNode u) (fun x (hx : x ∈ g.row u) => by
      rw [hends x hx, hn, hn, mem_nodes_addNode, mem_nodes_addNode]
      refine ⟨⟨.inr rfl, hne.symm⟩, .inl (hg.mem_nodes (harc x hx)), ?_⟩
      rintro e
      exact hg.irrefl u (e ▸ harc x hx))
  have hrelabel : g.relabel u v = (g.row u).foldl
      (fun acc x => acc.addEdge v (if x.1 = u then v else x.1) x.2) ((g.addNode v).removeNode u) :=
    if_pos ⟨hasNode_iff.mpr hu, hne⟩
  have hold : ∀ a b, ((g.addNode v).removeNode u).Joined a b ↔ a ≠ u ∧ b ≠ u ∧ g.Joined a b := by
    intro a b
    rw [hj, Joined, neighbours, row_addNode]
    rfl
  have hnew : ∀ a b, (∃ x ∈ g.row u, (v, if x.1 = u then v else x.1) = (a, b)) ↔
      a = v ∧ g.Joined u b := by
    intro a b
    constructor
    · grind
    · rintro ⟨rfl, h⟩
      obtain ⟨x, hx, rfl⟩ := mem_map.mp h
      exact ⟨x, hx, hends x hx⟩
  rw [hrelabel]
  refine ⟨hp', fun a => ?_, fun a b => ?_⟩
  · rw [hn', hn, mem_nodes_addNode]
  · rw [hj', hold]
    simp only [and_or_left, exists_or, hnew]

lemma relabel_renamed (hg : g.Proper) (hu : u ∈ g.nodes) (hv : v ∉ g.nodes) :
    Renamed (Equiv.swap u v) g (g.relabel u v) := by
  have hne : u ≠ v := by
    rintro rfl
    exact hv hu
  have hnot : ∀ a, ¬g.Joined v a ∧ ¬g.Joined a v := fun a =>
    ⟨fun h => hv h.mem_nodes, fun h => hv (hg.mem_nodes h)⟩
  have hsymm : ∀ c, g.Joined c u ↔ g.Joined u c := fun c => ⟨hg.symm, hg.symm⟩
  obtain ⟨hp, hn, hj⟩ := relabel_spec hg hu hv
  refine ⟨hp, fun a => ?_, fun a b => ?_⟩
  · grind
  · rw [hj]
    -- The old name is gone, and the new one stands for it.
    by_cases ha : a = u
    · simp [ha, hnot, hne, hg.irrefl u]
    · by_cases hb : b = u
      · simp [hb, hnot, hne, hg.irrefl u]
      · by_cases ha' : a = v
        · by_cases hb' : b = v
          · simp [ha', hb', hnot, hg.irrefl u]
          · simp [ha', hb', hb, hnot, hne.symm, swap_apply_of_ne_of_ne hb hb']
        · grind

lemma swap_mem {ns : List Nat} (hu : u ∈ ns) (hv : v ∈ ns) (a : Nat) :
    Equiv.swap u v a ∈ ns ↔ a ∈ ns := by
  grind

lemma swap_mul_swap_mul_swap {w : Nat} (hu : w ≠ u) (hv : w ≠ v) (hne : u ≠ v) :
    Equiv.swap u w * Equiv.swap v u * Equiv.swap w v = Equiv.swap u v := by
  ext a
  simp only [Equiv.Perm.coe_mul, Function.comp_apply, swap_apply_def]
  grind

lemma swapNodes_renamed (hg : g.Proper) (hu : u ∈ g.nodes) (hv : v ∈ g.nodes) (hne : u ≠ v) :
    Renamed (Equiv.swap u v) g (g.swapNodes u v) := by
  have hfresh : max g.freshNode (max u v + 1) ∉ g.nodes := fun h => by
    have := lt_freshNode h
    omega
  rw [swapNodes]
  generalize hw : max g.freshNode (max u v + 1) = w at hfresh ⊢
  have hwu : w ≠ u := by omega
  have hwv : w ≠ v := by omega
  have h₁ := relabel_renamed hg hu hfresh
  have hv₁ : v ∈ (g.relabel u w).nodes := by
    rwa [h₁.nodes, swap_apply_of_ne_of_ne hne.symm hwv.symm]
  have hu₁ : u ∉ (g.relabel u w).nodes := by
    rwa [h₁.nodes, swap_apply_left]
  have h₂ := relabel_renamed h₁.proper hv₁ hu₁
  have hw₂ : w ∈ ((g.relabel u w).relabel v u).nodes := by
    rwa [h₂.nodes, swap_apply_of_ne_of_ne hwv hwu, h₁.nodes, swap_apply_right]
  have hv₂ : v ∉ ((g.relabel u w).relabel v u).nodes := by
    rwa [h₂.nodes, swap_apply_left]
  have h₃ := relabel_renamed h₂.proper hw₂ hv₂
  have h := (h₁.trans h₂).trans h₃
  rwa [swap_mul_swap_mul_swap hwu hwv hne] at h

def arcs (g : Graph) : List (Nat × Nat × Nat) :=
  g.adj.flatMap fun r => r.2.map fun a => (r.1, a)

lemma mem_arcs (hg : g.Proper) : (∃ w, (u, v, w) ∈ g.arcs) ↔ g.Joined u v := by
  constructor
  · rintro ⟨w, h⟩
    obtain ⟨r, hr, h⟩ := mem_flatMap.mp h
    obtain ⟨a, ha, e⟩ := mem_map.mp h
    cases e
    rw [Joined, neighbours, row_of_mem hg hr]
    exact mem_map_of_mem ha
  · intro h
    obtain ⟨r, hr, e⟩ := mem_map.mp h.mem_nodes
    rw [Joined, neighbours, ← e, row_of_mem hg hr] at h
    obtain ⟨a, ha, rfl⟩ := mem_map.mp h
    exact ⟨a.2, mem_flatMap.mpr ⟨r, hr, mem_map.mpr ⟨a, ha, by rw [e]⟩⟩⟩

lemma rebuilt_eq (g : Graph) : g.rebuilt =
    g.arcs.foldl (fun acc e => acc.addEdge e.1 e.2.1 e.2.2) (g.nodes.foldl addNode {}) := by
  rw [rebuilt, arcs, foldl_flatMap]
  simp only [foldl_map]

lemma rebuilt_renamed (hg : g.Proper) : Renamed 1 g g.rebuilt := by
  obtain ⟨hp, hn, hj⟩ := foldl_addNode_spec hg.nodes
  have hjoined : ∀ e ∈ g.arcs, g.Joined e.1 e.2.1 := fun e he => (mem_arcs hg).mp ⟨e.2.2, he⟩
  obtain ⟨hp', hj'⟩ := foldl_addEdge_spec (fun e : Nat × Nat × Nat => (e.1, e.2.1))
    (fun e => e.2.2) (fun e (he : e ∈ g.arcs) heq => hg.irrefl e.1 (by
      have := hjoined e he
      rwa [← show e.1 = e.2.1 from heq] at this)) hp
  have hn' := nodes_foldl_addEdge (fun e : Nat × Nat × Nat => (e.1, e.2.1)) (fun e => e.2.2)
    (g := g.nodes.foldl addNode {}) (fun e (he : e ∈ g.arcs) => by
      rw [hn]
      exact ⟨(hjoined e he).mem_nodes, hg.mem_nodes (hjoined e he)⟩)
  rw [rebuilt_eq]
  refine ⟨hp', fun a => by rw [hn', hn]; rfl, fun a b => ?_⟩
  rw [hj', or_iff_right (hj a b)]
  constructor
  · rintro ⟨e, he, h | h⟩
    · cases h
      exact hjoined e he
    · cases h
      exact hg.symm (hjoined e he)
  · intro h
    obtain ⟨w, hw⟩ := (mem_arcs hg).mpr h
    exact ⟨_, hw, .inl rfl⟩

end GadgetCircuits.Graph
