import GadgetCircuits.Graph.Basic
import GadgetCircuits.Proofs.Prelude

/-!
Graphs given by lists of neighbours. In a proper graph the lists describe a simple graph, and a
breadth-first search from a node finds the nodes that can be reached from it, each over one edge from
a node found before.
-/

open List

namespace GadgetCircuits.Graph

variable {g : Graph} {u v a b : Nat}
variable {ns : List Nat} {arcs : List (Nat × Nat)} {chosen all : List Nat}

def Joined (g : Graph) (u v : Nat) : Prop :=
  v ∈ g.neighbours u

/-- No node or neighbour is listed twice, and edges have two distinct ends that list each other. -/
structure Proper (g : Graph) : Prop where
  nodes : g.nodes.Nodup
  neighbours : ∀ u, (g.neighbours u).Nodup
  symm : ∀ {u v}, g.Joined u v → g.Joined v u
  irrefl : ∀ u, ¬ g.Joined u u

def simple (g : Graph) : SimpleGraph Nat :=
  SimpleGraph.fromRel g.Joined

lemma Proper.adj_iff (hg : g.Proper) : g.simple.Adj u v ↔ g.Joined u v := by
  rw [simple, SimpleGraph.fromRel_adj]
  constructor
  · rintro ⟨-, h | h⟩
    · exact h
    · exact hg.symm h
  · intro h
    refine ⟨?_, Or.inl h⟩
    rintro rfl
    exact hg.irrefl u h

lemma hasNode_iff : g.hasNode v ↔ v ∈ g.nodes := by
  simp [hasNode]

lemma isEmpty_adj_iff : g.adj.isEmpty ↔ g.nodes = [] := by
  rw [List.isEmpty_iff, nodes, map_eq_nil_iff]

lemma row_of_not_mem (h : v ∉ g.nodes) : g.row v = [] := by
  have hnone : (g.adj.find? fun r => r.1 == v) = none := by
    refine find?_eq_none.mpr fun r hr => ?_
    have : r.1 ≠ v := fun e => h (e ▸ mem_map_of_mem hr)
    simpa using this
  rw [row, hnone]
  rfl

lemma Joined.mem_nodes (h : g.Joined u v) : u ∈ g.nodes := by
  by_contra hu
  rw [Joined, neighbours, row_of_not_mem hu] at h
  cases h

lemma Proper.mem_nodes (hg : g.Proper) (h : g.Joined u v) : v ∈ g.nodes := (hg.symm h).mem_nodes

lemma row_addNode (g : Graph) (v u : Nat) : (g.addNode v).row u = g.row u := by
  unfold addNode
  split
  · rfl
  · rename_i hv
    simp only [row, find?_append]
    grind

lemma nodes_addNode (g : Graph) (v : Nat) :
    (g.addNode v).nodes = if v ∈ g.nodes then g.nodes else g.nodes ++ [v] := by
  unfold addNode
  by_cases h : v ∈ g.nodes
  · rw [if_pos (hasNode_iff.mpr h), if_pos h]
  · rw [if_neg (by rwa [hasNode_iff]), if_neg h]
    simp [nodes]

lemma nodes_mapRow (g : Graph) (v : Nat) (f : List (Nat × Nat) → List (Nat × Nat)) :
    (g.mapRow v f).nodes = g.nodes := by
  simp only [nodes, mapRow, map_map]
  refine map_congr_left fun r _ => ?_
  simp only [Function.comp_apply]
  split <;> rfl

lemma row_mapRow (g : Graph) (v : Nat) (f : List (Nat × Nat) → List (Nat × Nat)) (u : Nat) :
    (g.mapRow v f).row u = if u = v ∧ u ∈ g.nodes then f (g.row u) else g.row u := by
  have hkey : ((fun r : Nat × List (Nat × Nat) => r.1 == u) ∘
      fun r => if r.1 == v then (r.1, f r.2) else r) = fun r => r.1 == u := by
    funext r
    by_cases h : r.1 = v <;> simp [h]
  by_cases hu : u ∈ g.nodes
  · obtain ⟨r, hr⟩ : ∃ r, (g.adj.find? fun r => r.1 == u) = some r := by
      obtain ⟨r, hr, e⟩ := mem_map.mp hu
      exact Option.isSome_iff_exists.mp (find?_isSome.mpr ⟨r, hr, by simpa using e⟩)
    have hru : r.1 = u := by simpa using find?_some hr
    simp only [row, mapRow, find?_map, hkey, hr, Option.map_some, Option.getD_some]
    by_cases hv : u = v
    · simp [hru, hv, hv ▸ hu]
    · simp [hru, hv]
  · rw [if_neg fun h => hu h.2, row_of_not_mem hu]
    exact row_of_not_mem (by rwa [nodes_mapRow])

lemma putArc_keys (arcs : List (Nat × Nat)) (v w : Nat) : (putArc arcs v w).map Prod.fst =
      if v ∈ arcs.map Prod.fst then arcs.map Prod.fst else arcs.map Prod.fst ++ [v] := by
  have hany : (arcs.any fun a => a.1 == v) ↔ v ∈ arcs.map Prod.fst := by
    simp [any_eq_true, mem_map]
  unfold putArc
  by_cases hv : v ∈ arcs.map Prod.fst
  · rw [if_pos (hany.mpr hv), if_pos hv, map_map]
    refine map_congr_left fun a _ => ?_
    by_cases e : a.1 = v <;> simp [e]
  · rw [if_neg (by rwa [hany]), if_neg hv, map_append]
    rfl

lemma mem_putArc {v w x : Nat} :
    x ∈ (putArc arcs v w).map Prod.fst ↔ x = v ∨ x ∈ arcs.map Prod.fst := by
  rw [putArc_keys]
  grind

lemma putArc_nodup (h : (arcs.map Prod.fst).Nodup) (v w : Nat) :
    ((putArc arcs v w).map Prod.fst).Nodup := by
  rw [putArc_keys]
  split
  · exact h
  · rename_i hv
    exact concat_eq_append ▸ h.concat hv

lemma mem_nodes_addNode : u ∈ (g.addNode v).nodes ↔ u ∈ g.nodes ∨ u = v := by
  rw [nodes_addNode]
  grind

lemma nodes_addEdge (g : Graph) (u v w : Nat) :
    (g.addEdge u v w).nodes = ((g.addNode u).addNode v).nodes := by
  rw [addEdge, nodes_mapRow, nodes_mapRow]

lemma nodes_addEdge_of_mem (hu : u ∈ g.nodes) (hv : v ∈ g.nodes) (w : Nat) :
    (g.addEdge u v w).nodes = g.nodes := by
  rw [nodes_addEdge, nodes_addNode, nodes_addNode, if_pos hu, if_pos hv]

lemma row_addEdge (hne : u ≠ v) (w a : Nat) : (g.addEdge u v w).row a =
      if a = v then putArc (g.row a) u w else if a = u then putArc (g.row a) v w else g.row a := by
  have hu : u ∈ ((g.addNode u).addNode v).nodes := by simp [mem_nodes_addNode]
  have hv : v ∈ ((g.addNode u).addNode v).nodes := by simp [mem_nodes_addNode]
  simp only [addEdge, row_mapRow, nodes_mapRow, row_addNode]
  grind

lemma joined_addEdge (hne : u ≠ v) (w : Nat) :
    (g.addEdge u v w).Joined a b ↔ g.Joined a b ∨ (a = u ∧ b = v) ∨ (a = v ∧ b = u) := by
  rw [Joined, neighbours, row_addEdge hne, Joined, neighbours]
  by_cases hav : a = v
  · subst hav
    simp [mem_putArc, hne.symm, or_comm]
  · by_cases hau : a = u
    · subst hau
      simp [mem_putArc, hne, or_comm]
    · simp [hav, hau]

lemma addNode_proper (hg : g.Proper) (v : Nat) : (g.addNode v).Proper := by
  have hj : ∀ a b, (g.addNode v).Joined a b ↔ g.Joined a b := by
    intro a b
    rw [Joined, neighbours, row_addNode]
    rfl
  refine ⟨?_, fun u => ?_, fun h => (hj _ _).mpr (hg.symm ((hj _ _).mp h)),
    fun u h => hg.irrefl u ((hj _ _).mp h)⟩
  · rw [nodes_addNode]
    split
    · exact hg.nodes
    · rename_i h
      exact concat_eq_append ▸ hg.nodes.concat h
  · rw [neighbours, row_addNode]
    exact hg.neighbours u

lemma addEdge_proper (hg : g.Proper) (hne : u ≠ v) (w : Nat) : (g.addEdge u v w).Proper where
  nodes := by
    rw [nodes_addEdge]
    exact (addNode_proper (addNode_proper hg u) v).nodes
  neighbours := by
    intro a
    rw [neighbours, row_addEdge hne]
    split
    · exact putArc_nodup (hg.neighbours a) u w
    · split
      · exact putArc_nodup (hg.neighbours a) v w
      · exact hg.neighbours a
  symm := by
    intro a b
    rw [joined_addEdge hne, joined_addEdge hne]
    rintro (h | ⟨rfl, rfl⟩ | ⟨rfl, rfl⟩)
    · exact Or.inl (hg.symm h)
    · exact Or.inr (Or.inr ⟨rfl, rfl⟩)
    · exact Or.inr (Or.inl ⟨rfl, rfl⟩)
  irrefl := by
    intro a h
    rcases (joined_addEdge hne w).mp h with h | ⟨h₁, h₂⟩ | ⟨h₁, h₂⟩
    · exact hg.irrefl a h
    · exact hne (h₁.symm.trans h₂)
    · exact hne (h₂.symm.trans h₁)

lemma empty_proper : ({} : Graph).Proper where
  nodes := nodup_nil
  neighbours := fun _ => nodup_nil
  symm := fun h => by cases h
  irrefl := fun _ h => by cases h

lemma nodes_foldl_addNode (g : Graph) (h : (g.nodes ++ ns).Nodup) :
    (ns.foldl addNode g).nodes = g.nodes ++ ns := by
  induction ns generalizing g with
  | nil => simp
  | cons v ns ih =>
    have hv : v ∉ g.nodes := fun hv =>
      (nodup_append.mp h).2.2 v hv v mem_cons_self rfl
    have hnodes : (g.addNode v).nodes = g.nodes ++ [v] := by rw [nodes_addNode, if_neg hv]
    rw [foldl_cons, ih _ (by rw [hnodes]; simpa using h), hnodes]
    simp

lemma foldl_addEdge_spec {α : Type} (ends : α → Nat × Nat) (weight : α → Nat) {xs : List α}
    (hxs : ∀ x ∈ xs, (ends x).1 ≠ (ends x).2) (hg : g.Proper) :
    (xs.foldl (fun g x => g.addEdge (ends x).1 (ends x).2 (weight x)) g).Proper ∧
      ∀ a b, (xs.foldl (fun g x => g.addEdge (ends x).1 (ends x).2 (weight x)) g).Joined a b ↔
        g.Joined a b ∨ ∃ x ∈ xs, ends x = (a, b) ∨ ends x = (b, a) := by
  induction xs generalizing g with
  | nil => exact ⟨hg, by simp⟩
  | cons x xs ih =>
    obtain ⟨hne, hxs⟩ := forall_mem_cons.mp hxs
    obtain ⟨hp, hj⟩ := ih hxs (addEdge_proper hg hne (weight x))
    refine ⟨hp, fun a b => (hj a b).trans ?_⟩
    have hends : (a = (ends x).1 ∧ b = (ends x).2 ∨ a = (ends x).2 ∧ b = (ends x).1) ↔
        (ends x = (a, b) ∨ ends x = (b, a)) := by grind
    rw [joined_addEdge hne, exists_mem_cons_iff, hends, or_assoc]

lemma nodes_foldl_addEdge {α : Type} (ends : α → Nat × Nat) (weight : α → Nat) {xs : List α}
    (hxs : ∀ x ∈ xs, (ends x).1 ∈ g.nodes ∧ (ends x).2 ∈ g.nodes) :
    (xs.foldl (fun g x => g.addEdge (ends x).1 (ends x).2 (weight x)) g).nodes = g.nodes := by
  induction xs generalizing g with
  | nil => rfl
  | cons x xs ih =>
    obtain ⟨⟨h₁, h₂⟩, hxs⟩ := forall_mem_cons.mp hxs
    have hsame := nodes_addEdge_of_mem h₁ h₂ (weight x)
    rw [foldl_cons, ih (by rwa [hsame]), hsame]

lemma foldl_addNode_spec (hns : ns.Nodup) :
    (ns.foldl addNode {}).Proper ∧ (ns.foldl addNode {}).nodes = ns ∧
      ∀ a b, ¬(ns.foldl addNode {}).Joined a b := by
  have hrow : ∀ a, (ns.foldl addNode {}).row a = [] := by
    intro a
    refine foldlRecOn (motive := fun g : Graph => g.row a = []) ns addNode rfl
      fun g hg v _ => ?_
    rwa [row_addNode]
  refine ⟨foldlRecOn ns addNode empty_proper fun g hg v _ => addNode_proper hg v, ?_,
    fun a b h => ?_⟩
  · simpa [nodes] using nodes_foldl_addNode {} (by simpa [nodes] using hns)
  · rw [Joined, neighbours, hrow] at h
    cases h

lemma ofEdges_spec {es : List (Nat × Nat)} (hns : ns.Nodup)
    (hes : ∀ e ∈ es, e.1 ≠ e.2 ∧ e.1 ∈ ns ∧ e.2 ∈ ns) :
    (ofEdges ns es).Proper ∧ (ofEdges ns es).nodes = ns ∧
      ∀ a b, (ofEdges ns es).Joined a b ↔ (a, b) ∈ es ∨ (b, a) ∈ es := by
  obtain ⟨hp, hn, hj⟩ := foldl_addNode_spec hns
  obtain ⟨hp', hj'⟩ := foldl_addEdge_spec id (fun _ => 1) (fun e he => (hes e he).1) hp
  have hn' := nodes_foldl_addEdge id (fun _ => 1) fun e he => hn.symm ▸ (hes e he).2
  refine ⟨hp', hn'.trans hn, fun a b => (hj' a b).trans ?_⟩
  rw [or_iff_right (hj a b)]
  simp [and_or_left, exists_or]

lemma row_map (f : Nat → List (Nat × Nat)) (v : Nat) :
    (⟨ns.map fun u => (u, f u)⟩ : Graph).row v = if v ∈ ns then f v else [] := by
  have hkey : ((fun r : Nat × List (Nat × Nat) => r.1 == v) ∘ fun u => (u, f u)) =
      fun u => u == v := rfl
  simp only [row, find?_map, hkey]
  by_cases hv : v ∈ ns
  · have hfind : ns.find? (fun u => u == v) = some v := by
      obtain ⟨u, hu⟩ := Option.isSome_iff_exists.mp
        (find?_isSome.mpr ⟨v, hv, by simp⟩ : (ns.find? fun u => u == v).isSome)
      have : u = v := by simpa using find?_some hu
      rwa [this] at hu
    rw [hfind, if_pos hv]
    rfl
  · have hfind : ns.find? (fun u => u == v) = none := by grind
    rw [hfind, if_neg hv]
    rfl

lemma mem_viewOrder [SetOrder] : v ∈ viewOrder chosen all ↔ v ∈ chosen ∧ v ∈ all := by
  unfold viewOrder
  split
  · rw [mem_filter, (SetOrder.perm none chosen).mem_iff, contains_iff_mem]
  · rw [mem_filter, contains_iff_mem, and_comm]

lemma viewOrder_nodup [SetOrder] (hc : chosen.Nodup) (ha : all.Nodup) :
    (viewOrder chosen all).Nodup := by
  unfold viewOrder
  split
  · exact ((SetOrder.perm none chosen).nodup_iff.mpr hc).filter _
  · exact ha.filter _

lemma view_spec (hg : g.Proper) (hn : ns.Nodup) (keep : Nat → Nat → Bool)
    (hkeep : ∀ a b, g.Joined a b → a ∈ ns → keep a b → b ∈ ns ∧ keep b a) :
    (⟨ns.map fun v => (v, (g.row v).filter fun a => keep v a.1)⟩ : Graph).Proper ∧
      (⟨ns.map fun v => (v, (g.row v).filter fun a => keep v a.1)⟩ : Graph).nodes = ns ∧
      ∀ a b, (⟨ns.map fun v => (v, (g.row v).filter fun a => keep v a.1)⟩ : Graph).Joined a b ↔
        a ∈ ns ∧ g.Joined a b ∧ keep a b := by
  generalize hh : (⟨ns.map fun v => (v, (g.row v).filter fun a => keep v a.1)⟩ : Graph) = h
  have hnodes : h.nodes = ns := by
    rw [← hh, nodes, map_map]
    exact map_id ns
  have hrow : ∀ v, h.neighbours v = if v ∈ ns then (g.neighbours v).filter (keep v) else [] := by
    intro v
    rw [← hh, neighbours, row_map]
    split
    · rw [neighbours, filter_map]
      rfl
    · rfl
  have hj : ∀ a b, h.Joined a b ↔ a ∈ ns ∧ g.Joined a b ∧ keep a b := by
    intro a b
    rw [Joined, hrow]
    by_cases ha : a ∈ ns
    · simp [ha, Joined]
    · simp [ha]
  refine ⟨⟨?_, fun v => ?_, fun h => ?_, fun u h => ?_⟩, hnodes, hj⟩
  · rw [hnodes]
    exact hn
  · rw [hrow]
    split
    · exact (hg.neighbours v).filter _
    · exact nodup_nil
  · obtain ⟨ha, h, hk⟩ := (hj _ _).mp h
    obtain ⟨hb, hk⟩ := hkeep _ _ h ha hk
    exact (hj _ _).mpr ⟨hb, hg.symm h, hk⟩
  · exact hg.irrefl u ((hj _ _).mp h).2.1

lemma subgraph_spec [SetOrder] (hg : g.Proper) (chosen : List Nat) :
    (g.subgraph chosen).Proper ∧ (∀ v, v ∈ (g.subgraph chosen).nodes ↔ v ∈ chosen ∧ v ∈ g.nodes) ∧
      ∀ a b, (g.subgraph chosen).Joined a b ↔ a ∈ chosen ∧ b ∈ chosen ∧ g.Joined a b := by
  have hmem : ∀ v, v ∈ (chosen.filter g.hasNode).eraseDups ↔ v ∈ chosen ∧ v ∈ g.nodes := by
    intro v
    rw [mem_eraseDups, mem_filter, hasNode_iff]
  have hview : ∀ v, v ∈ viewOrder (chosen.filter g.hasNode).eraseDups g.nodes ↔
      v ∈ chosen ∧ v ∈ g.nodes := by
    intro v
    rw [mem_viewOrder, hmem, and_assoc, and_self]
  obtain ⟨hp, hn, hj⟩ := view_spec hg (viewOrder_nodup (nodup_eraseDups _) hg.nodes)
    (fun _ b => (chosen.filter g.hasNode).eraseDups.contains b) fun a b h ha hb => by
      rw [contains_iff_mem, hmem] at hb ⊢
      exact ⟨(hview b).mpr hb, (hview a).mp ha⟩
  refine ⟨hp, fun v => ?_, fun a b => (hj a b).trans ?_⟩
  · rw [subgraph, hn, hview]
  · rw [hview, contains_iff_mem, hmem]
    constructor
    · rintro ⟨⟨ha, -⟩, h, hb, -⟩
      exact ⟨ha, hb, h⟩
    · rintro ⟨ha, hb, h⟩
      exact ⟨⟨ha, h.mem_nodes⟩, h, hb, hg.mem_nodes h⟩

lemma edgeSubgraph_spec [SetOrder] (hg : g.Proper) (chosen : List (Nat × Nat)) :
    (g.edgeSubgraph chosen).Proper ∧ (∀ v, v ∈ (g.edgeSubgraph chosen).nodes ↔
        (∃ e ∈ chosen, v = e.1 ∨ v = e.2) ∧ v ∈ g.nodes) ∧
      ∀ a b, (g.edgeSubgraph chosen).Joined a b ↔
        g.Joined a b ∧ ((a, b) ∈ chosen ∨ (b, a) ∈ chosen) := by
  have hview : ∀ v, v ∈ viewOrder (chosen.flatMap fun e => [e.1, e.2]).eraseDups g.nodes ↔
      (∃ e ∈ chosen, v = e.1 ∨ v = e.2) ∧ v ∈ g.nodes := by
    intro v
    simp [mem_viewOrder, mem_eraseDups, mem_flatMap]
  have hkept : ∀ a b, (chosen.contains (a, b) || chosen.contains (b, a)) ↔
      (a, b) ∈ chosen ∨ (b, a) ∈ chosen := by
    intro a b
    rw [Bool.or_eq_true, contains_iff_mem, contains_iff_mem]
  have hends : ∀ a b, (a, b) ∈ chosen ∨ (b, a) ∈ chosen → ∃ e ∈ chosen, a = e.1 ∨ a = e.2 := by grind
  obtain ⟨hp, hn, hj⟩ := view_spec hg (viewOrder_nodup (nodup_eraseDups _) hg.nodes)
    (fun a b => chosen.contains (a, b) || chosen.contains (b, a)) fun a b h ha hb => by
      rw [hkept] at hb
      rw [hview, hkept]
      exact ⟨⟨hends b a hb.symm, hg.mem_nodes h⟩, hb.symm⟩
  refine ⟨hp, fun v => ?_, fun a b => (hj a b).trans ?_⟩
  · rw [edgeSubgraph, hn, hview]
  · rw [hview, hkept]
    constructor
    · exact fun h => h.2
    · exact fun h => ⟨⟨hends a b h.2, h.1.mem_nodes⟩, h⟩

lemma removeNode_spec (hg : g.Proper) (v : Nat) :
    (g.removeNode v).Proper ∧ (∀ u, u ∈ (g.removeNode v).nodes ↔ u ∈ g.nodes ∧ u ≠ v) ∧
      ∀ a b, (g.removeNode v).Joined a b ↔ a ≠ v ∧ b ≠ v ∧ g.Joined a b := by
  have hnodes : (g.removeNode v).nodes = g.nodes.filter (· != v) := by
    simp [removeNode, nodes, filter_map, Function.comp_def]
  have hrow : ∀ u, (g.removeNode v).neighbours u =
      if u = v then [] else (g.neighbours u).filter (· != v) := by
    intro u
    by_cases hu : u = v
    · rw [if_pos hu, neighbours, row_of_not_mem, map_nil]
      rw [hnodes, mem_filter]
      simp [hu]
    · have hfind : (g.removeNode v).adj.find? (fun r => r.1 == u) =
          (g.adj.find? fun r => r.1 == u).map fun r => (r.1, r.2.filter fun a => a.1 != v) := by
        simp only [removeNode, find?_map, find?_filter]
        congr 2
        funext r
        by_cases hr : r.1 = u <;> simp [hr, hu]
      rw [if_neg hu, neighbours, neighbours, row, row, hfind]
      cases g.adj.find? fun r => r.1 == u with
      | none => rfl
      | some r => simp [filter_map, Function.comp_def]
  have hj : ∀ a b, (g.removeNode v).Joined a b ↔ a ≠ v ∧ b ≠ v ∧ g.Joined a b := by
    intro a b
    rw [Joined, hrow]
    by_cases ha : a = v
    · simp [ha]
    · simp [ha, Joined, and_comm]
  refine ⟨⟨?_, fun u => ?_, fun h => ?_, fun u h => ?_⟩, fun u => ?_, hj⟩
  · rw [hnodes]
    exact hg.nodes.filter _
  · rw [hrow]
    split
    · exact nodup_nil
    · exact (hg.neighbours u).filter _
  · obtain ⟨ha, hb, h⟩ := (hj _ _).mp h
    exact (hj _ _).mpr ⟨hb, ha, hg.symm h⟩
  · exact hg.irrefl u ((hj _ _).mp h).2.2
  · rw [hnodes, mem_filter, bne_iff_ne]

/-- Each edge leads from a node that is there to one that is not, which is there from then on. -/
inductive Grows (g : Graph) : List Nat → List (Nat × Nat) → Prop
  | nil (seen : List Nat) : Grows g seen []
  | cons {seen : List Nat} {u v : Nat} {es : List (Nat × Nat)} (hu : u ∈ seen) (hv : v ∉ seen)
      (h : g.Joined u v) (hes : Grows g (v :: seen) es) : Grows g seen ((u, v) :: es)

namespace Grows

variable {es : List (Nat × Nat)} {seen : List Nat} {fs : List (Nat × Nat)}

lemma congr {seen' : List Nat} (h : Grows g seen es) (hs : ∀ v, v ∈ seen ↔ v ∈ seen') :
    Grows g seen' es := by
  induction h generalizing seen' with
  | nil => exact .nil seen'
  | cons hu hv hj _ ih =>
    refine .cons ((hs _).mp hu) (fun h => hv ((hs _).mpr h)) hj (ih fun v => ?_)
    rw [mem_cons, mem_cons, hs]

lemma append (h : Grows g seen es) (hf : Grows g (es.map Prod.snd ++ seen) fs) :
    Grows g seen (es ++ fs) := by
  induction h with
  | nil => exact hf
  | cons hu hv hj _ ih =>
    refine .cons hu hv hj (ih (hf.congr fun v => ?_))
    simp only [map_cons, cons_append, mem_cons, mem_append]
    tauto

lemma split (h : Grows g seen (es ++ fs)) :
    Grows g seen es ∧ Grows g (es.map Prod.snd ++ seen) fs := by
  induction es generalizing seen with
  | nil => exact ⟨.nil seen, h⟩
  | cons e es ih =>
    cases h with
    | cons hu hv hj hes =>
      obtain ⟨h₁, h₂⟩ := ih hes
      refine ⟨.cons hu hv hj h₁, h₂.congr fun w => ?_⟩
      simp only [map_cons, cons_append, mem_cons, mem_append]
      tauto

lemma fan {children : List Nat} (hu : u ∈ seen) (hc : children.Nodup)
    (hnew : ∀ c ∈ children, c ∉ seen ∧ g.Joined u c) : Grows g seen (children.map fun c => (u, c)) := by
  induction children generalizing seen with
  | nil => exact .nil seen
  | cons c children ih =>
    obtain ⟨hc, hrest⟩ := nodup_cons.mp hc
    obtain ⟨hs, hj⟩ := hnew c mem_cons_self
    refine .cons hu hs hj (ih (mem_cons_of_mem c hu) hrest fun d hd => ?_)
    grind

variable (h : Grows g seen es)
include h

lemma joined : ∀ e ∈ es, g.Joined e.1 e.2 := by
  induction h with
  | nil => simp
  | cons _ _ hj _ ih => exact forall_mem_cons.mpr ⟨hj, ih⟩

lemma fresh : ∀ e ∈ es, e.2 ∉ seen := by
  induction h with
  | nil => simp
  | cons _ hv _ _ ih =>
    exact forall_mem_cons.mpr ⟨hv, fun e he hs => ih e he (mem_cons_of_mem _ hs)⟩

lemma source_mem : ∀ e ∈ es, e.1 ∈ seen ∨ e.1 ∈ es.map Prod.snd := by
  induction h with
  | nil => simp
  | cons hu _ _ _ ih =>
    grind

lemma goals_nodup : (es.map Prod.snd).Nodup := by
  induction h with
  | nil => exact nodup_nil
  | cons _ _ _ hes ih =>
    refine nodup_cons.mpr ⟨fun hv => ?_, ih⟩
    obtain ⟨e, he, h⟩ := mem_map.mp hv
    exact hes.fresh e he (h ▸ mem_cons_self)

theorem reachable {G : SimpleGraph Nat} (hG : ∀ e ∈ es, G.Adj e.1 e.2)
    (hr : ∀ v ∈ seen, G.Reachable a v) : ∀ e ∈ es, G.Reachable a e.2 := by
  induction h with
  | nil => simp
  | cons hu _ _ _ ih =>
    obtain ⟨hadj, hG⟩ := forall_mem_cons.mp hG
    have hnew := (hr _ hu).trans hadj.reachable
    exact forall_mem_cons.mpr ⟨hnew, ih hG (forall_mem_cons.mpr ⟨hnew, hr⟩)⟩

end Grows

variable (hg : g.Proper) {queue seen : List Nat}
include hg

lemma bfsLoop_grows (fuel : Nat) (hq : ∀ v ∈ queue, v ∈ seen) :
    Grows g seen (bfsLoop g fuel queue seen) := by
  induction fuel generalizing queue seen with
  | zero => exact .nil seen
  | succ fuel ih =>
    cases queue with
    | nil => exact .nil seen
    | cons parent queue =>
      rw [bfsLoop]
      refine (Grows.fan (hq parent mem_cons_self) ((hg.neighbours parent).filter _) ?_).append ?_
      · intro c hc
        obtain ⟨hj, hs⟩ := mem_filter.mp hc
        exact ⟨by simpa using hs, hj⟩
      · rw [map_map]
        simp only [Function.comp_def, map_id']
        grind

lemma unseen_length {seen children : List Nat} (hnodup : children.Nodup)
    (hchild : ∀ c ∈ children, c ∈ g.nodes ∧ c ∉ seen) :
    children.length + (g.nodes.filter fun v => !(children ++ seen).contains v).length ≤
      (g.nodes.filter fun v => !seen.contains v).length := by
  rw [← length_append]
  refine (subperm_of_subset ?_ ?_).length_le
  · refine nodup_append.mpr ⟨hnodup, hg.nodes.filter _, ?_⟩
    rintro c hc d hd rfl
    simp [hc] at hd
  · grind

/-- With a round for every node in the queue and every node that is not seen, the search ends with
a set of nodes that no edge leaves. -/
theorem bfsLoop_closed {fuel : Nat} (hq : ∀ v ∈ queue, v ∈ seen)
    (hfuel : (g.nodes.filter fun v => !seen.contains v).length + queue.length ≤ fuel)
    (hdone : ∀ u ∈ seen, u ∉ queue → ∀ v, g.Joined u v → v ∈ seen)
    (hu : u ∈ (bfsLoop g fuel queue seen).map Prod.snd ++ seen) (hj : g.Joined u v) :
    v ∈ (bfsLoop g fuel queue seen).map Prod.snd ++ seen := by
  induction fuel generalizing queue seen with
  | zero =>
    have hempty : queue = [] := eq_nil_of_length_eq_zero (by omega)
    subst hempty
    exact hdone u hu not_mem_nil v hj
  | succ fuel ih =>
    cases queue with
    | nil => exact hdone u hu not_mem_nil v hj
    | cons parent queue =>
      simp only [bfsLoop] at hu ⊢
      generalize hch : (g.neighbours parent).filter (fun c => !seen.contains c) = children at hu ⊢
      have hchild : ∀ c, c ∈ children ↔ g.Joined parent c ∧ c ∉ seen := by
        intro c
        rw [← hch, mem_filter]
        simp [Joined]
      have hnodup : children.Nodup := by
        rw [← hch]
        exact (hg.neighbours parent).filter _
      have hlen := unseen_length hg hnodup fun c hc =>
        ⟨hg.mem_nodes ((hchild c).mp hc).1, ((hchild c).mp hc).2⟩
      have hstep : v ∈ (bfsLoop g fuel (queue ++ children) (children ++ seen)).map Prod.snd ++
          (children ++ seen) := by
        refine ih ?_ ?_ ?_ (by simpa [or_assoc, or_left_comm] using hu)
        · grind
        · rw [length_append]
          rw [length_cons] at hfuel
          omega
        · grind
      simpa [or_assoc, or_left_comm] using hstep

lemma bfsEdges_grows (source : Nat) : Grows g [source] (g.bfsEdges source) :=
  bfsLoop_grows hg _ fun _ h => h

lemma mem_reach (ha : a ∈ g.nodes) : v ∈ g.reach a ↔ g.simple.Reachable a v := by
  constructor
  · intro h
    rcases mem_cons.mp h with rfl | h
    · exact .refl _
    · obtain ⟨e, he, rfl⟩ := mem_map.mp h
      have hgrows := bfsEdges_grows hg a
      refine hgrows.reachable (fun e he => hg.adj_iff.mpr (hgrows.joined e he)) (fun v hv => ?_) e he
      rw [mem_singleton.mp hv]
  · intro h
    have hmem : ∀ w, w ∈ g.reach a ↔ w ∈ (g.bfsEdges a).map Prod.snd ++ [a] := by
      intro w
      simp [reach, or_comm]
    have hfuel : (g.nodes.filter fun v => !([a].contains v)).length + 1 ≤ g.adj.length := by
      have hlen : g.nodes.length = g.adj.length := length_map ..
      have hcount := length_eq_length_filter_add (l := g.nodes) fun v => !([a].contains v)
      have hpos : 0 < (g.nodes.filter fun v => !(!([a].contains v))).length :=
        length_pos_of_mem (mem_filter.mpr ⟨ha, by simp⟩)
      omega
    rw [SimpleGraph.reachable_iff_reflTransGen] at h
    induction h with
    | refl => exact mem_cons_self
    | tail _ hadj ih =>
      rw [hmem] at ih ⊢
      refine bfsLoop_closed hg (fun _ h => h) hfuel ?_ ih (hg.adj_iff.mp hadj)
      intro u hu hnot
      exact absurd hu hnot

end GadgetCircuits.Graph
