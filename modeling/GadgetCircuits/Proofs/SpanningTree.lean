import GadgetCircuits.Proofs.ShortestPath

/-!
Minimum spanning trees and forests. No edge between the two parts that an edge of a minimum spanning tree
joins is lighter: it could be exchanged for that one. Trees that grow by lightest arcs have no cycle, and
every connected graph on the nodes can be made to contain them, exchange by exchange, without becoming
heavier.
-/

namespace GadgetCircuits

open List SimpleGraph Bool

section Exchange

variable {V : Type}
variable {H : SimpleGraph V} {u v : V}

lemma exchange_connected (hH : H.Connected) (hne : u ≠ v) (huv : ¬ H.Adj u v) {p : H.Walk u v}
    (hp : p.IsPath) {d : H.Dart} (hd : d ∈ p.darts) :
    ((H ⊔ edge u v).deleteEdges {s(d.fst, d.snd)}).Connected := by
  have hle : H ≤ H ⊔ edge u v := le_sup_left
  have hadj : (H ⊔ edge u v).Adj v u := by
    rw [sup_adj, edge_adj]
    exact .inr ⟨.inr ⟨rfl, rfl⟩, hne.symm⟩
  have hcycle : (Walk.cons hadj (p.mapLe hle)).IsCycle := by
    rw [Walk.cons_isCycle_iff]
    refine ⟨hp.mapLe hle, fun hmem => huv ?_⟩
    rw [Walk.edges_mapLe_eq_edges, Sym2.eq_swap] at hmem
    exact p.adj_of_mem_edges hmem
  have hedge : s(d.fst, d.snd) ∈ (Walk.cons hadj (p.mapLe hle)).edges := by
    rw [Walk.edges_cons, Walk.edges_mapLe_eq_edges]
    exact mem_cons_of_mem _ (mem_map_of_mem hd)
  exact (hH.mono hle).connected_delete_edge_of_not_isBridge fun hbridge =>
    hbridge.notMem_edges_of_isCycle hcycle hedge

variable [Fintype V] (w : Sym2 V → Nat)

open Classical in
noncomputable def edgeCost (w : Sym2 V → Nat) (G : SimpleGraph V) : Nat := ∑ e ∈ G.edgeFinset, w e

lemma edgeCost_eq {G : SimpleGraph V} {s : Finset (Sym2 V)} (h : ∀ e, e ∈ s ↔ e ∈ G.edgeSet) :
    edgeCost w G = ∑ e ∈ s, w e := by
  classical
  refine Finset.sum_congr ?_ fun _ _ => rfl
  ext e
  rw [mem_edgeFinset, h]

/-- A spanning tree than which no other is lighter. -/
structure IsMinimumTree (w : Sym2 V → Nat) (T : SimpleGraph V) : Prop where
  isTree : T.IsTree
  le : ∀ H : SimpleGraph V, H.IsTree → edgeCost w T ≤ edgeCost w H

lemma edgeCost_exchange {a b : V} (hne : u ≠ v) (huv : ¬ H.Adj u v) (hab : H.Adj a b) :
    edgeCost w ((H ⊔ edge u v).deleteEdges {s(a, b)}) + w s(a, b) = edgeCost w H + w s(u, v) := by
  classical
  have hnew : s(u, v) ≠ s(a, b) := fun e => huv (H.mem_edgeSet.mp (e ▸ H.mem_edgeSet.mpr hab))
  have hedges : ∀ e, e ∈ insert s(u, v) (H.edgeFinset.erase s(a, b)) ↔
      e ∈ ((H ⊔ edge u v).deleteEdges {s(a, b)}).edgeSet := by
    intro e
    simp only [mem_edgeFinset, edgeSet_deleteEdges, edgeSet_sup,
      edgeSet_edge_of_ne hne, Set.mem_sdiff, Set.mem_union, Set.mem_singleton_iff,
      Finset.mem_insert, Finset.mem_erase]
    constructor
    · grind
    · rintro ⟨he | he, hne'⟩
      · exact .inr ⟨hne', he⟩
      · exact .inl he
  have hmem : s(a, b) ∈ H.edgeFinset := mem_edgeFinset.mpr hab
  have hfresh : s(u, v) ∉ H.edgeFinset.erase s(a, b) := fun h =>
    huv (mem_edgeFinset.mp (Finset.mem_of_mem_erase h))
  rw [edgeCost_eq w hedges, Finset.sum_insert hfresh,
    edgeCost_eq w (s := H.edgeFinset) fun e => mem_edgeFinset, ← Finset.add_sum_erase _ w hmem]
  omega

lemma edgeCost_sup_edge (hne : u ≠ v) (hfresh : ¬ H.Adj u v) :
    edgeCost w (H ⊔ edge u v) = edgeCost w H + w s(u, v) := by
  classical
  have hedges : ∀ e, e ∈ insert s(u, v) H.edgeFinset ↔ e ∈ (H ⊔ edge u v).edgeSet := by
    intro e
    rw [edgeSet_sup, edgeSet_edge_of_ne hne, Finset.mem_insert, mem_edgeFinset, Set.mem_union,
      Set.mem_singleton_iff]
    exact Or.comm
  rw [edgeCost_eq w hedges, Finset.sum_insert fun h => hfresh (mem_edgeFinset.mp h),
    edgeCost_eq w (s := H.edgeFinset) fun e => mem_edgeFinset, Nat.add_comm]

lemma edgeCost_bot : edgeCost w (⊥ : SimpleGraph V) = 0 := by
  rw [edgeCost_eq w (s := ∅) (by simp), Finset.sum_empty]

lemma edgeCost_mono {G : SimpleGraph V} (h : G ≤ H) : edgeCost w G ≤ edgeCost w H := by
  classical exact Finset.sum_le_sum_of_subset (edgeFinset_mono h)

lemma IsMinimumTree.le_of_connected {T : SimpleGraph V} (hT : IsMinimumTree w T) (hH : H.Connected) :
    edgeCost w T ≤ edgeCost w H := by
  obtain ⟨F, hle, hF⟩ := hH.exists_isTree_le
  exact (hT.le F hF).trans (edgeCost_mono w hle)

/-- No edge between the two parts that an edge of a minimum spanning tree joins is lighter. -/
theorem IsMinimumTree.exists_cut {T : SimpleGraph V} (hT : IsMinimumTree w T) {a b : V} (hab : T.Adj a b) :
    ∃ S : Set V, a ∈ S ∧ b ∉ S ∧ ∀ x ∈ S, ∀ y ∉ S, w s(a, b) ≤ w s(x, y) := by
  have hbridge := isBridge_iff.mp (isAcyclic_iff_forall_adj_isBridge.mp hT.isTree.isAcyclic hab)
  refine ⟨{x | (T.deleteEdges {s(a, b)}).Reachable a x}, .refl a, hbridge, fun x hx y hy => ?_⟩
  -- A path from one part to the other uses the edge, as no other edge of the tree joins the two.
  have hcross : ∀ c d, (T.deleteEdges {s(a, b)}).Reachable a c →
      ¬ (T.deleteEdges {s(a, b)}).Reachable a d → T.Adj c d → s(c, d) = s(a, b) := by
    intro c d hc hd hcd
    by_contra hother
    exact hd (hc.trans (Adj.reachable (deleteEdges_adj.mpr ⟨hcd, hother⟩)))
  by_cases hxy : T.Adj x y
  · rw [hcross x y hx hy hxy]
  · obtain ⟨p, hp⟩ := hT.isTree.connected.exists_isPath x y
    obtain ⟨d, hd, hfst, hsnd⟩ := p.exists_boundary_dart _ hx hy
    have hne : x ≠ y := fun e => hy (e ▸ hx)
    have hedge := hcross _ _ hfst hsnd d.adj
    have hconn := exchange_connected hT.isTree.connected hne hxy hp hd
    rw [hedge] at hconn
    have hle := hT.le_of_connected w hconn
    have hcost := edgeCost_exchange w hne hxy hab
    omega

lemma exists_exchange (hH : H.Connected) {S : Set V} (hu : u ∈ S) (hv : v ∉ S)
    (hlight : ∀ a ∈ S, ∀ b ∉ S, w s(u, v) ≤ w s(a, b)) :
    ∃ H' : SimpleGraph V, H'.Connected ∧ edgeCost w H' ≤ edgeCost w H ∧ H'.Adj u v ∧
      ∀ a ∈ S, ∀ b ∈ S, H.Adj a b → H'.Adj a b := by
  have hne : u ≠ v := fun e => hv (e ▸ hu)
  by_cases huv : H.Adj u v
  · exact ⟨H, hH, le_rfl, huv, fun _ _ _ _ h => h⟩
  obtain ⟨p, hp⟩ := hH.exists_isPath u v
  obtain ⟨d, hd, hfst, hsnd⟩ := p.exists_boundary_dart S hu hv
  have hnew : s(u, v) ≠ s(d.fst, d.snd) := fun e => huv (H.mem_edgeSet.mp (e ▸ d.edge_mem))
  have hout : ∀ a ∈ S, ∀ b ∈ S, s(a, b) ≠ s(d.fst, d.snd) := by
    intro a ha b hb e
    have hmem : d.snd ∈ s(a, b) := e ▸ Sym2.mem_mk_right d.fst d.snd
    rcases Sym2.mem_iff.mp hmem with e | e
    · exact hsnd (e ▸ ha)
    · exact hsnd (e ▸ hb)
  have hcost := edgeCost_exchange w hne huv d.adj
  have hle := hlight _ hfst _ hsnd
  refine ⟨_, exchange_connected hH hne huv hp hd, by omega, ?_, fun a ha b hb h => ?_⟩
  · rw [deleteEdges_adj, sup_adj, edge_adj]
    exact ⟨.inr ⟨.inl ⟨rfl, rfl⟩, hne⟩, hnew⟩
  · rw [deleteEdges_adj, sup_adj]
    exact ⟨.inl h, hout a ha b hb⟩

end Exchange

section Joins

variable {α : Type} {es : List (α × α)}

def joins (es : List (α × α)) : SimpleGraph α :=
  fromRel fun a b => (a, b) ∈ es

lemma joins_adj {a b : α} : (joins es).Adj a b ↔ a ≠ b ∧ ((a, b) ∈ es ∨ (b, a) ∈ es) :=
  fromRel_adj _ a b

lemma joins_nil : joins ([] : List (α × α)) = ⊥ := by
  ext a b
  simp [joins_adj]

lemma joins_append (es : List (α × α)) (u v : α) :
    joins (es ++ [(u, v)]) = joins es ⊔ edge u v := by
  ext a b
  rw [sup_adj, joins_adj, joins_adj, edge_adj]
  simp only [mem_append, mem_singleton, Prod.mk.injEq]
  tauto

lemma joins_le_append (es : List (α × α)) (u v : α) : joins es ≤ joins (es ++ [(u, v)]) := by
  rw [joins_append]
  exact le_sup_left

lemma joins_map {β : Type} {name : α → β} (hname : Function.Injective name) :
    (joins (es.map (Prod.map name name))).comap name = joins es := by
  ext a b
  rw [comap_adj, joins_adj, joins_adj, hname.ne_iff]
  have hmem : ∀ x y, (name x, name y) ∈ es.map (Prod.map name name) ↔ (x, y) ∈ es := fun x y =>
    mem_map_of_injective (hname.prodMap hname) (a := (x, y))
  rw [hmem, hmem]

lemma reachable_joins_map {β : Type} {name : α → β} {a b : α} (h : (joins es).Reachable a b)
    (hname : Function.Injective name) : (joins (es.map (Prod.map name name))).Reachable (name a) (name b) := by
  rw [← joins_map hname] at h
  exact h.map ⟨name, id⟩

lemma reachable_of_joins_map {β : Type} {name : α → β} (hname : Function.Injective name) {a : α} {v : β}
    (h : (joins (es.map (Prod.map name name))).Reachable (name a) v) :
    ∃ b, name b = v ∧ (joins es).Reachable a b := by
  obtain ⟨walk⟩ := h
  generalize hu : name a = u at walk
  induction walk generalizing a with
  | nil => exact ⟨a, hu, .refl a⟩
  | @cons u v' _ hadj _ ih =>
    subst hu
    have hnamed : ∃ c, name c = v' := by
      rcases (joins_adj.mp hadj).2 with he | he
      · obtain ⟨e, -, heq⟩ := mem_map.mp he
        exact ⟨e.2, congrArg Prod.snd heq⟩
      · obtain ⟨e, -, heq⟩ := mem_map.mp he
        exact ⟨e.1, congrArg Prod.fst heq⟩
    obtain ⟨c, rfl⟩ := hnamed
    obtain ⟨b, hb, hreach⟩ := ih rfl
    rw [← comap_adj, joins_map hname] at hadj
    exact ⟨b, hb, hadj.reachable.trans hreach⟩

section Cost

variable [Fintype α] (w : Sym2 α → Nat)

lemma edgeCost_joins_le (es : List (α × α)) :
    edgeCost w (joins es) ≤ (es.map fun e => w s(e.1, e.2)).sum := by
  induction es using reverseRecOn with
  | nil => exact (edgeCost_mono w joins_nil.le).trans (edgeCost_bot w).le
  | append_singleton es e ih =>
    obtain ⟨u, v⟩ := e
    rw [joins_append, map_append, sum_append, map_singleton, sum_singleton]
    by_cases hnew : u ≠ v ∧ ¬ (joins es).Adj u v
    · rw [edgeCost_sup_edge w hnew.1 hnew.2]
      exact Nat.add_le_add_right ih _
    · have hsame : joins es ⊔ edge u v ≤ joins es := by
        refine sup_le le_rfl fun a b hab => ?_
        rw [edge_adj] at hab
        grind [SimpleGraph.Adj.symm]
      exact (edgeCost_mono w hsame).trans (ih.trans (Nat.le_add_right _ _))

lemma exists_joins (H : SimpleGraph α) : ∃ es : List (α × α), joins es = H ∧ (∀ e ∈ es, H.Adj e.1 e.2) ∧
    (es.map fun e => w s(e.1, e.2)).sum = edgeCost w H := by
  classical
  have hout : ∀ e : Sym2 α, s(e.out.1, e.out.2) = e := fun e => Quot.out_eq e
  have hadj : ∀ e ∈ H.edgeFinset, H.Adj e.out.1 e.out.2 := fun e he =>
    H.mem_edgeSet.mp ((hout e).symm ▸ mem_edgeFinset.mp he)
  refine ⟨H.edgeFinset.toList.map Quot.out, ?_, ?_, ?_⟩
  · ext a b
    rw [joins_adj]
    simp only [mem_map, Finset.mem_toList, mem_edgeFinset]
    constructor
    · rintro ⟨-, ⟨e, he, heq⟩ | ⟨e, he, heq⟩⟩
      · rw [← hout e, heq] at he
        exact he
      · rw [← hout e, heq] at he
        exact he.symm
    · intro hab
      refine ⟨hab.ne, ?_⟩
      have hpair := Sym2.eq_iff.mp (hout s(a, b))
      exact hpair.imp (fun h => ⟨_, hab, Prod.ext h.1 h.2⟩) fun h => ⟨_, hab, Prod.ext h.1 h.2⟩
  · intro e he
    obtain ⟨e', he', rfl⟩ := mem_map.mp he
    exact hadj e' (Finset.mem_toList.mp he')
  · rw [List.map_map, edgeCost_eq w (s := H.edgeFinset) fun e => mem_edgeFinset, ← Finset.sum_map_toList]
    exact congrArg sum (map_congr_left fun e _ => congrArg w (hout e))

end Cost

end Joins

namespace Graph

variable {g : Graph} {seen : List Nat} {es : List (Nat × Nat)} {u v : Nat}

def Closed (g : Graph) (seen : List Nat) : Prop :=
  ∀ a ∈ seen, ∀ b, g.Joined a b → b ∈ seen

/-- The nodes that were reached and the edges over which they were, from the first on. -/
inductive Grown (g : Graph) : List Nat → List (Nat × Nat) → Prop
  | empty : Grown g [] []
  | root {seen : List Nat} {es : List (Nat × Nat)} {v : Nat} (h : Grown g seen es) (hv : v ∉ seen)
      (hclosed : g.Closed seen) : Grown g (v :: seen) es
  | grow {seen : List Nat} {es : List (Nat × Nat)} {u v w : Nat} (h : Grown g seen es) (hu : u ∈ seen)
      (hv : v ∉ seen) (harc : (v, w) ∈ g.row u)
      (hlight : ∀ a ∈ seen, ∀ arc ∈ g.row a, arc.1 ∉ seen → w ≤ arc.2) :
      Grown g (v :: seen) (es ++ [(u, v)])

lemma popCheapest_none {os : List Offer} (h : popCheapest os = none) : os = [] := by
  cases os with
  | nil => rfl
  | cons o rest =>
    rw [popCheapest] at h
    split at h
    · cases h
    · split at h <;> cases h

lemma popCheapest_some {os rest : List Offer} {o : Offer} (h : popCheapest os = some (o, rest)) :
    os.Perm (o :: rest) ∧ ∀ p ∈ os, o.weight ≤ p.weight := by
  induction os generalizing o rest with
  | nil => cases h
  | cons p ps ih =>
    rw [popCheapest] at h
    split at h
    · rename_i hnone
      cases h
      rw [popCheapest_none hnone]
      exact ⟨.refl _, by simp⟩
    · rename_i q others hsome
      obtain ⟨hperm, hmin⟩ := ih hsome
      split at h
      · rename_i hlt
        cases h
        have hle : p.weight ≤ q.weight := by grind
        exact ⟨hperm.cons _, forall_mem_cons.mpr ⟨le_rfl, fun x hx => hle.trans (hmin x hx)⟩⟩
      · rename_i hlt
        obtain ⟨rfl, rfl⟩ := Prod.mk.inj (Option.some.inj h)
        have hle : q.weight ≤ p.weight := by simp_all
        exact ⟨(hperm.cons p).trans (.swap _ p others), forall_mem_cons.mpr ⟨hle, hmin⟩⟩

lemma mem_offers {stamp : Nat} {o : Offer} (h : o ∈ g.offers stamp u) :
    o.source = u ∧ (o.goal, o.weight) ∈ g.row u := by
  obtain ⟨⟨a, i⟩, ha, rfl⟩ := mem_map.mp h
  exact ⟨rfl, fst_mem_of_mem_zipIdx ha⟩

lemma exists_offer (stamp : Nat) {a : Nat × Nat} (h : a ∈ g.row u) :
    ∃ o ∈ g.offers stamp u, o.goal = a.1 ∧ o.weight = a.2 := by
  obtain ⟨i, hi⟩ := mem_iff_getElem?.mp h
  exact ⟨_, mem_map_of_mem (mk_add_mem_zipIdx_iff_getElem?.mpr hi), rfl, rfl⟩

lemma length_offers (g : Graph) (stamp u : Nat) : (g.offers stamp u).length = (g.row u).length := by
  simp [offers]

/-- What holds while a tree grows: the offers are arcs from the nodes so far, and all arcs that leave
these nodes are on offer. -/
structure Growing (g : Graph) (pending : List Offer) (seen : List Nat) (es : List (Nat × Nat)) : Prop where
  grown : g.Grown seen es
  offered : ∀ o ∈ pending, o.source ∈ seen ∧ (o.goal, o.weight) ∈ g.row o.source
  covered : ∀ a ∈ seen, ∀ arc ∈ g.row a, arc.1 ∉ seen → ∃ o ∈ pending, o.goal = arc.1 ∧ o.weight = arc.2

namespace Growing

variable {pending rest : List Offer} {o : Offer}

lemma start (h : g.Grown seen es) (hclosed : g.Closed seen) (hv : v ∉ seen) :
    g.Growing (g.offers 0 v) (v :: seen) es where
  grown := h.root hv hclosed
  offered := by
    intro o ho
    obtain ⟨hsource, harc⟩ := mem_offers ho
    rw [hsource]
    exact ⟨mem_cons_self, harc⟩
  covered := by
    intro a ha arc harc hout
    rcases mem_cons.mp ha with rfl | ha
    · exact exists_offer 0 harc
    · exact absurd (mem_cons_of_mem v (hclosed a ha _ (mem_map_of_mem harc))) hout

lemma drop (h : g.Growing pending seen es) (hperm : pending.Perm (o :: rest)) (ho : o.goal ∈ seen) :
    g.Growing rest seen es where
  grown := h.grown
  offered := fun p hp => h.offered p (hperm.mem_iff.mpr (mem_cons_of_mem o hp))
  covered := by
    intro a ha arc harc hout
    obtain ⟨p, hp, hgoal, hweight⟩ := h.covered a ha arc harc hout
    grind

lemma take (h : g.Growing pending seen es) (hperm : pending.Perm (o :: rest))
    (hmin : ∀ p ∈ pending, o.weight ≤ p.weight) (ho : o.goal ∉ seen) (stamp : Nat) :
    g.Growing ((g.offers stamp o.goal).filter (fun p => !(o.goal :: seen).contains p.goal) ++ rest)
      (o.goal :: seen) (es ++ [(o.source, o.goal)]) where
  grown := by
    obtain ⟨hsource, harc⟩ := h.offered o (hperm.mem_iff.mpr mem_cons_self)
    refine h.grown.grow hsource ho harc fun a ha arc harc' hout => ?_
    obtain ⟨p, hp, -, hweight⟩ := h.covered a ha arc harc' hout
    exact hweight ▸ hmin p hp
  offered := by
    intro p hp
    rcases mem_append.mp hp with hp | hp
    · obtain ⟨hsource, harc⟩ := mem_offers (mem_filter.mp hp).1
      rw [hsource]
      exact ⟨mem_cons_self, harc⟩
    · obtain ⟨hsource, harc⟩ := h.offered p (hperm.mem_iff.mpr (mem_cons_of_mem o hp))
      exact ⟨mem_cons_of_mem _ hsource, harc⟩
  covered := by
    intro a ha arc harc hout
    rcases mem_cons.mp ha with rfl | ha
    · obtain ⟨p, hp, hgoal, hweight⟩ := exists_offer stamp harc
      grind
    · obtain ⟨p, hp, hgoal, hweight⟩ := h.covered a ha arc harc fun hin =>
        hout (mem_cons_of_mem _ hin)
      grind

lemma closed (h : g.Growing [] seen es) : g.Closed seen := by
  intro a ha b hb
  obtain ⟨arc, harc, rfl⟩ := mem_map.mp hb
  by_contra hout
  obtain ⟨o, ho, -⟩ := h.covered a ha arc harc hout
  cases ho

end Growing

/-- A tree grows until no arc leaves it; every round uses up an offer, and the arcs of new nodes pay for
new offers. -/
theorem growTree_spec {fuel : Nat} {pending : List Offer} (stamp : Nat) (h : g.Growing pending seen es)
    (hfuel : pending.length + arcsBeyond g.adj seen < fuel) :
    g.Grown (growTree g fuel pending stamp seen es).1 (growTree g fuel pending stamp seen es).2 ∧
      g.Closed (growTree g fuel pending stamp seen es).1 ∧
      ∀ v ∈ seen, v ∈ (growTree g fuel pending stamp seen es).1 := by
  induction fuel generalizing pending stamp seen es with
  | zero => exact absurd hfuel (Nat.not_lt_zero _)
  | succ fuel ih =>
    rw [growTree]
    cases hpop : popCheapest pending with
    | none =>
      obtain rfl := popCheapest_none hpop
      exact ⟨h.grown, h.closed, fun _ hv => hv⟩
    | some found =>
      obtain ⟨o, rest⟩ := found
      obtain ⟨hperm, hmin⟩ := popCheapest_some hpop
      have hlength := hperm.length_eq
      rw [length_cons] at hlength
      by_cases ho : o.goal ∈ seen
      · simp only [contains_iff_mem.mpr ho, if_true]
        exact ih stamp (h.drop hperm ho) (by omega)
      · have hcontains : seen.contains o.goal = false := by
          rw [← not_eq_true, contains_iff_mem]
          exact ho
        simp only [hcontains, false_eq_true, if_false]
        have hpaid : arcsBeyond g.adj (o.goal :: seen) + (g.row o.goal).length ≤ arcsBeyond g.adj seen :=
          arcsBeyond_of_new g ho fun u => mem_cons.trans or_comm
        have hnew := length_filter_le (fun p : Offer => !(o.goal :: seen).contains p.goal)
          (g.offers stamp o.goal)
        rw [length_offers] at hnew
        obtain ⟨hgrown, hclosed, hkeep⟩ := ih (stamp + (g.row o.goal).length)
          (h.take hperm hmin ho stamp) (by rw [length_append]; omega)
        exact ⟨hgrown, hclosed, fun v hv => hkeep v (mem_cons_of_mem _ hv)⟩

lemma growTrees_spec (ns : List Nat) (hgrown : g.Grown seen es) (hclosed : g.Closed seen) :
    ∃ seen' es', ns.foldl (fun (acc : List Nat × List (Nat × Nat)) v =>
          if acc.1.contains v then acc
          else
            let first := g.offers 0 v
            growTree g (g.arcCount + 1) first first.length (v :: acc.1) acc.2) (seen, es) = (seen', es') ∧
      g.Grown seen' es' ∧ (∀ v ∈ seen, v ∈ seen') ∧ ∀ v ∈ ns, v ∈ seen' := by
  induction ns generalizing seen es with
  | nil => exact ⟨seen, es, rfl, hgrown, fun _ hv => hv, by simp⟩
  | cons v ns ih =>
    rw [foldl_cons]
    by_cases hv : v ∈ seen
    · grind
    · have hcontains : seen.contains v = false := by
        rw [← not_eq_true, contains_iff_mem]
        exact hv
      simp only [hcontains, false_eq_true, if_false]
      have hfuel : (g.offers 0 v).length + arcsBeyond g.adj (v :: seen) < g.arcCount + 1 := by
        have hpaid : arcsBeyond g.adj (v :: seen) + (g.row v).length ≤ arcsBeyond g.adj seen :=
          arcsBeyond_of_new g hv fun u => mem_cons.trans or_comm
        have hall : arcsBeyond g.adj seen ≤ arcsBeyond g.adj [] := arcsBeyond_mono g.adj (by simp)
        have harcs : arcsBeyond g.adj [] = g.arcCount := by simp [arcsBeyond, arcCount]
        rw [length_offers]
        omega
      obtain ⟨hgrown₁, hclosed₁, hkeep₁⟩ := growTree_spec (g.offers 0 v).length
        (.start hgrown hclosed hv) hfuel
      grind

lemma prim_grown (g : Graph) : ∃ seen, g.Grown seen g.prim ∧ ∀ v ∈ g.nodes, v ∈ seen := by
  obtain ⟨seen, es, heq, hgrown, -, hall⟩ := growTrees_spec (g := g) g.nodes .empty
    fun a ha => absurd ha not_mem_nil
  refine ⟨seen, ?_, hall⟩
  rw [prim, heq]
  exact hgrown

namespace Grown

lemma ends (h : g.Grown seen es) : ∀ e ∈ es, e.1 ∈ seen ∧ e.2 ∈ seen ∧ e.1 ≠ e.2 := by
  induction h with
  | empty => simp
  | root _ _ _ ih =>
    grind
  | @grow seen es u v _ _ hu hv _ _ ih =>
    grind

lemma not_reachable (h : g.Grown seen es) (hv : v ∉ seen) (hne : u ≠ v) :
    ¬ (joins es).Reachable u v := by
  intro hreach
  obtain ⟨w⟩ := hreach.symm
  cases w with
  | nil => exact hne rfl
  | cons hadj _ =>
    rcases (joins_adj.mp hadj).2 with he | he
    · exact hv (h.ends _ he).1
    · exact hv (h.ends _ he).2.1

lemma acyclic (h : g.Grown seen es) : (joins es).IsAcyclic := by
  induction h with
  | empty =>
    rw [joins_nil]
    exact isAcyclic_bot
  | root _ _ _ ih => exact ih
  | @grow seen es u v w h hu hv _ _ ih =>
    rw [joins_append]
    exact ih.sup_edge_of_not_reachable (h.not_reachable hv fun e => hv (e ▸ hu))

/-- The edges join nodes that are joined in the graph, and all nodes from which arcs lead on. -/
structure Spans (g : Graph) (seen : List Nat) (es : List (Nat × Nat)) : Prop where
  frontier : ∀ a ∈ seen, ∀ b ∈ seen, (∃ x, x ∉ seen ∧ g.Joined a x) → (∃ x, x ∉ seen ∧ g.Joined b x) →
    (joins es).Reachable a b
  joined : ∀ a ∈ seen, ∀ b ∈ seen, g.Joined a b → (joins es).Reachable a b

/-- Where no arc leads on, a new tree begins apart from all others. -/
theorem Spans.root (h : Spans g seen es) (hg : g.Proper) (hclosed : g.Closed seen) (hv : v ∉ seen) :
    Spans g (v :: seen) es where
  frontier := by
    have hself : ∀ a ∈ v :: seen, (∃ x, x ∉ v :: seen ∧ g.Joined a x) → a = v := by
      rintro a ha ⟨x, hx, hax⟩
      rcases mem_cons.mp ha with rfl | ha'
      · rfl
      · exact absurd (mem_cons_of_mem v (hclosed a ha' x hax)) hx
    intro a ha b hb hax hbx
    rw [hself a ha hax, hself b hb hbx]
  joined := by
    intro a ha b hb hab
    rcases mem_cons.mp ha with rfl | ha'
    · rcases mem_cons.mp hb with rfl | hb'
      · exact .refl _
      · exact absurd (hclosed b hb' a (hg.symm hab)) hv
    · rcases mem_cons.mp hb with rfl | hb'
      · exact absurd (hclosed a ha' b hab) hv
      · exact h.joined a ha' b hb' hab

/-- A new node hangs on the tree from which arcs lead on. -/
theorem Spans.grow (h : Spans g seen es) (hg : g.Proper) (hu : u ∈ seen) (hv : v ∉ seen)
    (huv : g.Joined u v) : Spans g (v :: seen) (es ++ [(u, v)]) := by
  have hle := joins_le_append es u v
  have hnew : ∀ a ∈ seen, (∃ x, x ∉ seen ∧ g.Joined a x) → (joins (es ++ [(u, v)])).Reachable a v := by
    intro a ha hax
    refine ((h.frontier a ha u hu hax ⟨v, hv, huv⟩).mono hle).trans (Adj.reachable ?_)
    exact joins_adj.mpr ⟨fun e => hv (e ▸ hu), .inl (by simp)⟩
  have hleave : ∀ a, (∃ x, x ∉ v :: seen ∧ g.Joined a x) → ∃ x, x ∉ seen ∧ g.Joined a x := by grind
  constructor
  · intro a ha b hb hax hbx
    rcases mem_cons.mp ha with rfl | ha'
    · rcases mem_cons.mp hb with rfl | hb'
      · exact .refl _
      · exact (hnew b hb' (hleave b hbx)).symm
    · rcases mem_cons.mp hb with rfl | hb'
      · exact hnew a ha' (hleave a hax)
      · exact (h.frontier a ha' b hb' (hleave a hax) (hleave b hbx)).mono hle
  · intro a ha b hb hab
    rcases mem_cons.mp ha with rfl | ha'
    · rcases mem_cons.mp hb with rfl | hb'
      · exact .refl _
      · exact (hnew b hb' ⟨a, hv, hg.symm hab⟩).symm
    · rcases mem_cons.mp hb with rfl | hb'
      · exact hnew a ha' ⟨b, hv, hab⟩
      · exact (h.joined a ha' b hb' hab).mono hle

lemma spans (h : g.Grown seen es) (hg : g.Proper) : Spans g seen es := by
  induction h with
  | empty => exact ⟨by simp, by simp⟩
  | root _ hv hclosed ih => exact ih.root hg hclosed hv
  | grow _ hu hv harc _ ih => exact ih.grow hg hu hv (mem_map_of_mem harc)

lemma joined (h : g.Grown seen es) : ∀ e ∈ es, g.Joined e.1 e.2 := by
  induction h with
  | empty => simp
  | root _ _ _ ih => exact ih
  | grow _ _ _ harc _ ih =>
    intro e he
    rcases mem_append.mp he with he | he
    · exact ih e he
    · rw [mem_singleton.mp he]
      exact mem_map_of_mem harc

end Grown

section Complete

variable {V : Type} {node : V → Nat} {w : Sym2 V → Nat}
variable {cost : Nat → Nat → Nat}

/-- The arcs of a graph are those between any two of some nodes, with the given weights. -/
structure Complete (g : Graph) (node : V → Nat) (w : Sym2 V → Nat) : Prop where
  injective : Function.Injective node
  arcs : ∀ u arc, arc ∈ g.row u ↔ ∃ a b, a ≠ b ∧ node a = u ∧ (node b, w s(a, b)) = arc

def Weighs (g : Graph) (cost : Nat → Nat → Nat) : Prop :=
  ∀ u, ∀ arc ∈ g.row u, arc.2 = cost u arc.1

lemma mem_of_mem_putArc {arcs : List (Nat × Nat)} {v w : Nat} {arc : Nat × Nat}
    (h : arc ∈ putArc arcs v w) : arc = (v, w) ∨ arc ∈ arcs := by
  rw [putArc] at h
  grind

lemma Weighs.addEdge (h : g.Weighs cost) (hne : u ≠ v) (hsymm : cost u v = cost v u) :
    (g.addEdge u v (cost u v)).Weighs cost := by
  intro a arc harc
  rw [row_addEdge hne] at harc
  split_ifs at harc with hv hu
  · rcases mem_of_mem_putArc harc with rfl | harc
    · rw [hv]
      exact hsymm
    · exact h a arc harc
  · rcases mem_of_mem_putArc harc with rfl | harc
    · rw [hu]
    · exact h a arc harc
  · exact h a arc harc

lemma foldl_weighs {pairs : List (Nat × Nat)} (hne : ∀ p ∈ pairs, p.1 ≠ p.2)
    (hsymm : ∀ p ∈ pairs, cost p.1 p.2 = cost p.2 p.1) (h : g.Weighs cost) :
    (pairs.foldl (fun (g : Graph) p => g.addEdge p.1 p.2 (cost p.1 p.2)) g).Weighs cost :=
  foldlRecOn (motive := fun g : Graph => g.Weighs cost) pairs _ h fun _ hg p hp =>
    hg.addEdge (hne p hp) (hsymm p hp)

lemma complete_of_weighs (hnode : Function.Injective node)
    (hjoined : ∀ u v, g.Joined u v ↔ ∃ a b, a ≠ b ∧ node a = u ∧ node b = v) (h : g.Weighs cost)
    (hw : ∀ a b, cost (node a) (node b) = w s(a, b)) : g.Complete node w where
  injective := hnode
  arcs := by
    intro u arc
    constructor
    · intro harc
      obtain ⟨a, b, hab, rfl, hb⟩ := (hjoined u arc.1).mp (mem_map_of_mem harc)
      refine ⟨a, b, hab, rfl, Prod.ext hb ?_⟩
      rw [h _ arc harc, ← hb, hw]
    · rintro ⟨a, b, hab, rfl, rfl⟩
      obtain ⟨arc, harc, hb⟩ := mem_map.mp ((hjoined _ _).mpr ⟨a, b, hab, rfl, rfl⟩)
      have hweight := h _ arc harc
      rw [hb, hw] at hweight
      rw [← hb, ← hweight]
      exact harc

def weight (g : Graph) (u v : Nat) : Nat :=
  ((g.row u).find? fun arc => arc.1 == v).elim 0 Prod.snd

def totalWeight (g : Graph) (es : List (Nat × Nat)) : Nat :=
  (es.map fun e => g.weight e.1 e.2).sum

/-- Edges of a graph that join all that it joins. -/
structure Spanning (g : Graph) (es : List (Nat × Nat)) : Prop where
  joined : ∀ e ∈ es, g.Joined e.1 e.2
  reachable : ∀ u v, g.Joined u v → (joins es).Reachable u v

/-- A spanning forest than which no spanning edges are lighter. -/
structure IsMinimumForest (g : Graph) (es : List (Nat × Nat)) : Prop extends g.Spanning es where
  acyclic : (joins es).IsAcyclic
  le : ∀ fs, g.Spanning fs → g.totalWeight es ≤ g.totalWeight fs

namespace Complete

variable (hg : g.Complete node w)
include hg

lemma joined_iff : g.Joined u v ↔ ∃ a b, a ≠ b ∧ node a = u ∧ node b = v := by
  constructor
  · intro h
    obtain ⟨arc, harc, rfl⟩ := mem_map.mp h
    obtain ⟨a, b, hab, ha, rfl⟩ := (hg.arcs u arc).mp harc
    exact ⟨a, b, hab, ha, rfl⟩
  · rintro ⟨a, b, hab, rfl, rfl⟩
    exact mem_map_of_mem ((hg.arcs _ _).mpr ⟨a, b, hab, rfl, rfl⟩)

lemma weight_eq {a b : V} (hab : a ≠ b) : g.weight (node a) (node b) = w s(a, b) := by
  have harc := (hg.arcs (node a) _).mpr ⟨a, b, hab, rfl, rfl⟩
  obtain ⟨arc, hfind⟩ := Option.isSome_iff_exists.mp (find?_isSome.mpr ⟨_, harc, by simp⟩ :
    ((g.row (node a)).find? fun arc => arc.1 == node b).isSome)
  have hgoal : arc.1 = node b := by simpa using find?_some hfind
  obtain ⟨a', b', -, ha, rfl⟩ := (hg.arcs _ _).mp (mem_of_find?_eq_some hfind)
  rw [weight, hfind, ← hg.injective ha, ← hg.injective hgoal]
  rfl

lemma totalWeight_map {es : List (V × V)} (hes : ∀ e ∈ es, e.1 ≠ e.2) :
    g.totalWeight (es.map (Prod.map node node)) = (es.map fun e => w s(e.1, e.2)).sum := by
  rw [totalWeight, List.map_map]
  exact congrArg sum (map_congr_left fun e he => hg.weight_eq (hes e he))

lemma lift (hes : ∀ e ∈ es, g.Joined e.1 e.2) : ∃ es' : List (V × V),
    es'.map (Prod.map node node) = es ∧ ∀ e ∈ es', e.1 ≠ e.2 := by
  have hrange : es ∈ Set.range (List.map (Prod.map node node)) := by
    rw [Set.range_list_map]
    intro e he
    obtain ⟨a, b, -, ha, hb⟩ := hg.joined_iff.mp (hes e he)
    exact ⟨(a, b), Prod.ext ha hb⟩
  obtain ⟨es', rfl⟩ := hrange
  refine ⟨es', rfl, fun e he heq => ?_⟩
  obtain ⟨a, b, hab, ha, hb⟩ := hg.joined_iff.mp (hes _ (mem_map_of_mem he))
  exact hab (hg.injective (ha.trans ((congrArg node heq).trans hb.symm)))

theorem isMinimumTree [Fintype V] (hes : g.IsMinimumForest es) {T : SimpleGraph V} (hT : T.Connected)
    (hle : T ≤ (joins es).comap node) : IsMinimumTree w T where
  isTree := ⟨hT, (hes.acyclic.of_comap ⟨node, hg.injective⟩).anti hle⟩
  le := by
    intro H hH
    obtain ⟨es', rfl, hne⟩ := hg.lift hes.joined
    obtain ⟨hs, rfl, hadj, hcost⟩ := exists_joins w H
    have hspanning : g.Spanning (hs.map (Prod.map node node)) := by
      refine ⟨fun e he => ?_, fun u v huv => ?_⟩
      · obtain ⟨e', he', rfl⟩ := mem_map.mp he
        exact hg.joined_iff.mpr ⟨e'.1, e'.2, (hadj e' he').ne, rfl, rfl⟩
      · obtain ⟨a, b, -, rfl, rfl⟩ := hg.joined_iff.mp huv
        exact reachable_joins_map (hH.connected.preconnected a b) hg.injective
    rw [joins_map hg.injective] at hle
    calc edgeCost w T ≤ edgeCost w (joins es') := edgeCost_mono w hle
      _ ≤ (es'.map fun e => w s(e.1, e.2)).sum := edgeCost_joins_le w es'
      _ = g.totalWeight (es'.map (Prod.map node node)) := (hg.totalWeight_map hne).symm
      _ ≤ g.totalWeight (hs.map (Prod.map node node)) := hes.le _ hspanning
      _ = (hs.map fun e => w s(e.1, e.2)).sum := hg.totalWeight_map fun e he => (hadj e he).ne
      _ = edgeCost w (joins hs) := hcost

end Complete

variable (h : g.Grown seen es)
include h

lemma Grown.exists_containing [Fintype V] (hg : g.Complete node w)
    {H : SimpleGraph V} (hH : H.Connected) :
    ∃ H' : SimpleGraph V, H'.Connected ∧ edgeCost w H' ≤ edgeCost w H ∧ (joins es).comap node ≤ H' := by
  induction h with
  | empty => exact ⟨H, hH, le_rfl, fun a b hab => by simp [joins_adj] at hab⟩
  | root _ _ _ ih => exact ih
  | @grow seen es u v k h hu hv harc hlight ih =>
    obtain ⟨H₁, hconn, hcost, hle⟩ := ih
    obtain ⟨a, b, hab, rfl, hb⟩ := (hg.arcs _ _).mp harc
    obtain ⟨rfl, rfl⟩ := Prod.mk.inj hb
    obtain ⟨H₂, hconn₂, hcost₂, hadj, hkeep⟩ := exists_exchange w hconn (S := {x | node x ∈ seen}) hu hv
      fun x hx y hy => by
        have hne : x ≠ y := by
          rintro rfl
          exact hy hx
        exact hlight (node x) hx _ ((hg.arcs _ _).mpr ⟨x, y, hne, rfl, rfl⟩) hy
    refine ⟨H₂, hconn₂, hcost₂.trans hcost, fun x y hxy => ?_⟩
    rw [comap_adj, joins_append, sup_adj, edge_adj] at hxy
    rcases hxy with hxy | ⟨⟨hx, hy⟩ | ⟨hx, hy⟩, -⟩
    · have hends : node x ∈ seen ∧ node y ∈ seen := by
        rcases (joins_adj.mp hxy).2 with he | he
        · exact ⟨(h.ends _ he).1, (h.ends _ he).2.1⟩
        · exact ⟨(h.ends _ he).2.1, (h.ends _ he).1⟩
      exact hkeep x hends.1 y hends.2 (hle hxy)
    · rw [hg.injective hx, hg.injective hy]
      exact hadj
    · rw [hg.injective hx, hg.injective hy]
      exact hadj.symm

lemma Grown.totalWeight_eq [Fintype V] (hg : g.Complete node w) :
    g.totalWeight es = edgeCost w ((joins es).comap node) := by
  induction h with
  | empty =>
    rw [joins_nil, comap_bot, edgeCost_bot]
    rfl
  | root _ _ _ ih => exact ih
  | @grow seen es u v k h hu hv harc _ ih =>
    obtain ⟨a, b, hab, rfl, hb⟩ := (hg.arcs _ _).mp harc
    obtain ⟨rfl, rfl⟩ := Prod.mk.inj hb
    have hsplit : (joins (es ++ [(node a, node b)])).comap node = (joins es).comap node ⊔ edge a b := by
      ext x y
      simp only [joins_append, comap_adj, sup_adj, edge_adj, hg.injective.eq_iff, hg.injective.ne_iff]
    have hfresh : ¬ ((joins es).comap node).Adj a b := fun hadj =>
      h.not_reachable hv (hg.injective.ne hab) (Adj.reachable hadj)
    rw [hsplit, edgeCost_sup_edge w hab hfresh, ← ih, totalWeight, map_append, sum_append, map_singleton,
      sum_singleton, hg.weight_eq hab]
    rfl

omit h

/-- What grows by lightest arcs is a minimum spanning forest. -/
theorem prim_isMinimumForest [Fintype V] (hproper : g.Proper) (hg : g.Complete node w) :
    g.IsMinimumForest g.prim := by
  obtain ⟨seen, hgrown, hseen⟩ := prim_grown g
  refine ⟨⟨hgrown.joined, fun u v huv => ?_⟩, hgrown.acyclic, fun fs hfs => ?_⟩
  · exact (hgrown.spans hproper).joined u (hseen u huv.mem_nodes) v (hseen v (hproper.mem_nodes huv)) huv
  obtain ⟨fs', rfl, hne⟩ := hg.lift hfs.joined
  rcases isEmpty_or_nonempty V with hempty | hsome
  · have hnil : g.prim = [] := eq_nil_iff_forall_not_mem.mpr fun e he =>
      hempty.elim (hg.joined_iff.mp (hgrown.joined e he)).choose
    rw [hnil]
    exact Nat.zero_le _
  have hconn : (joins fs').Connected := by
    refine ⟨fun a b => ?_⟩
    by_cases hab : a = b
    · rw [hab]
    · have hreach := hfs.reachable _ _ (hg.joined_iff.mpr ⟨a, b, hab, rfl, rfl⟩)
      obtain ⟨b', hb', hreach⟩ := reachable_of_joins_map hg.injective hreach
      rwa [← hg.injective hb']
  obtain ⟨H, -, hcost, hle⟩ := hgrown.exists_containing hg hconn
  calc g.totalWeight g.prim = edgeCost w ((joins g.prim).comap node) := hgrown.totalWeight_eq hg
    _ ≤ edgeCost w H := edgeCost_mono w hle
    _ ≤ edgeCost w (joins fs') := hcost
    _ ≤ (fs'.map fun e => w s(e.1, e.2)).sum := edgeCost_joins_le w fs'
    _ = g.totalWeight (fs'.map (Prod.map node node)) := (hg.totalWeight_map hne).symm

end Complete

end Graph

end GadgetCircuits
