import GadgetCircuits.Proofs.Renaming
import GadgetCircuits.Tableau.Routing

/-!
Qubits that trade places. The graph of the qubits that are left shows, at every time, which of them
are at coupled places. A tree in that graph is a ladder of couplings: each of its edges leads from a
qubit that is reached to a new one.
-/

namespace GadgetCircuits

open List Update Equiv

namespace Topology

variable {t : Topology} {g : Graph} {swaps : Bool} {free : List Nat}

/-- The graphs of a topology as a synthesis comes to them, with the qubits that are free: at first all of
them. Free qubits trade places if swaps are allowed; the ends of an edge that is used are free no more; and
a qubit is removed that does not separate the others. -/
inductive Arranged (t : Topology) (swaps : Bool) : List Nat → Graph → Prop
  | start : Arranged t swaps (range t.size)
      (t.toGraph.edges.foldl (fun acc e => acc.addEdge e.1 e.2 0) t.toGraph)
  | exchange {free : List Nat} {g : Graph} {u v : Nat} (h : Arranged t swaps free g) (hs : swaps = true)
      (hu : u ∈ free) (hv : v ∈ free) (hne : u ≠ v) : Arranged t swaps free (g.swapNodes u v)
  | used {free : List Nat} {g : Graph} {u v : Nat} (h : Arranged t swaps free g) (huv : g.Joined u v) :
      Arranged t swaps (free.filter fun q => q != u && q != v) (g.addEdge u v 2)
  | remove {free : List Nat} {g : Graph} {v : Nat} (h : Arranged t swaps free g)
      (hv : g.isCut v = false) : Arranged t swaps (free.filter (· != v)) (g.removeNode v)

lemma start_renamed (ht : t.WellFormed) : Graph.Renamed 1 t.toGraph
    (t.toGraph.edges.foldl (fun acc e => acc.addEdge e.1 e.2 0) t.toGraph) := by
  obtain ⟨hp, -, -⟩ := toGraph_spec ht
  refine Graph.foldl_addEdge_renamed id (fun _ => 0) hp fun e he => ?_
  obtain ⟨w, hw, rfl⟩ := mem_map.mp he
  exact Graph.weightedEdges_sound hp hw

namespace Arranged

variable (h : t.Arranged swaps free g) (ht : t.WellFormed)
include h ht

lemma proper_free : g.Proper ∧ ∀ q ∈ free, q ∈ g.nodes := by
  induction h with
  | start =>
    refine ⟨(start_renamed ht).proper, fun q hq => ?_⟩
    rwa [(start_renamed ht).nodes, (toGraph_spec ht).2.1]
  | exchange _ _ hu hv hne ih =>
    have hswap := Graph.swapNodes_renamed ih.1 (ih.2 _ hu) (ih.2 _ hv) hne
    refine ⟨hswap.proper, fun q hq => (hswap.nodes q).mpr ?_⟩
    exact (Graph.swap_mem (ih.2 _ hu) (ih.2 _ hv) q).mpr (ih.2 q hq)
  | used _ huv ih =>
    have hused := Graph.addEdge_renamed ih.1 huv 2
    exact ⟨hused.proper, fun q hq => (hused.nodes q).mpr (ih.2 q (mem_of_mem_filter hq))⟩
  | @remove free g v _ _ ih =>
    obtain ⟨hp, hn, -⟩ := Graph.removeNode_spec ih.1 v
    refine ⟨hp, fun q hq => (hn q).mpr ?_⟩
    obtain ⟨hq, hne⟩ := mem_filter.mp hq
    exact ⟨ih.2 q hq, by simpa using hne⟩

lemma proper : g.Proper :=
  (h.proper_free ht).1

lemma free_nodes : ∀ q ∈ free, q ∈ g.nodes :=
  (h.proper_free ht).2

lemma exchange_renamed {u v : Nat} (hu : u ∈ free) (hv : v ∈ free) (hne : u ≠ v) :
    Graph.Renamed (swap u v) g (g.swapNodes u v) :=
  Graph.swapNodes_renamed (h.proper ht) (h.free_nodes ht u hu) (h.free_nodes ht v hv) hne

lemma linked (hl : t.Linked t.qubits) : g.Linked := by
  induction h with
  | start => exact (start_renamed ht).linked (toGraph_spec ht).1 (toGraph_linked ht hl)
  | exchange h _ hu hv hne ih => exact (h.exchange_renamed ht hu hv hne).linked (h.proper ht) ih
  | used h huv ih => exact (Graph.addEdge_renamed (h.proper ht) huv 2).linked (h.proper ht) ih
  | remove h hv ih => exact ih.removeNode (h.proper ht) hv

lemma isAcyclic (hac : t.graph.IsAcyclic) : g.simple.IsAcyclic := by
  induction h with
  | start =>
    refine (start_renamed ht).isAcyclic (toGraph_spec ht).1 ?_
    rw [toGraph_simple ht]
    exact within_acyclic hac
  | exchange h _ hu hv hne ih => exact (h.exchange_renamed ht hu hv hne).isAcyclic (h.proper ht) ih
  | used h huv ih => exact (Graph.addEdge_renamed (h.proper ht) huv 2).isAcyclic (h.proper ht) ih
  | @remove free g v h _ ih =>
    obtain ⟨hp, -, hj⟩ := Graph.removeNode_spec (h.proper ht) v
    refine ih.anti fun a b hab => (h.proper ht).adj_iff.mpr ?_
    exact ((hj a b).mp (hp.adj_iff.mp hab)).2.2

lemma lt_size : ∀ q ∈ g.nodes, q < t.size := by
  induction h with
  | start =>
    intro q hq
    rw [(start_renamed ht).nodes, (toGraph_spec ht).2.1] at hq
    exact mem_range.mp hq
  | exchange h _ hu hv hne ih =>
    intro q hq
    rw [(h.exchange_renamed ht hu hv hne).nodes,
      Graph.swap_mem (h.free_nodes ht _ hu) (h.free_nodes ht _ hv)] at hq
    exact ih q hq
  | used h huv ih =>
    intro q hq
    exact ih q (((Graph.addEdge_renamed (h.proper ht) huv 2).nodes q).mp hq)
  | @remove free g v h _ ih =>
    exact fun q hq => ih q (((Graph.removeNode_spec (h.proper ht) v).2.1 q).mp hq).1

end Arranged

/-- Steiner trees are found on all graphs that a synthesis can come to. -/
def FindsTrees (t : Topology) (find : Graph → List Nat → Except Error Graph) (swaps : Bool) : Prop :=
  ∀ free g, t.Arranged swaps free g → g.FindsTrees find

lemma findsTrees_of_acyclic [SetOrder] (ht : t.WellFormed) (hl : t.Linked t.qubits)
    (hac : t.graph.IsAcyclic) : t.FindsTrees Graph.steinerTree swaps :=
  fun _ _ hg => Graph.findsTrees_of_acyclic (hg.proper ht) (hg.linked ht hl) (hg.isAcyclic ht hac)

end Topology

namespace Placement

variable {t : Topology} {swaps : Bool} {free : List Nat} {p p' p'' : Placement} {σ τ : Perm Nat}
variable {u v : Nat}

def place (p : Placement) (q : Nat) : Nat :=
  p.permutation[q]?.getD 0

/-- The qubits are at different places, and the edges are the couplings between the places of the
qubits that are left. -/
structure Fits (t : Topology) (swaps : Bool) (free : List Nat) (p : Placement) : Prop where
  arranged : t.Arranged swaps free p.graph
  bijective : p.permutation.Perm (List.range t.size)
  joined : ∀ a b, p.graph.Joined a b ↔
    a ∈ p.graph.nodes ∧ b ∈ p.graph.nodes ∧ t.hasCoupling (p.place a) (p.place b) = true

lemma Fits.length (h : p.Fits t swaps free) : p.permutation.length = t.size := by
  rw [h.bijective.length_eq, length_range]

lemma Fits.lt_length (h : p.Fits t swaps free) (ht : t.WellFormed) {q : Nat} (hq : q ∈ p.graph.nodes) :
    q < p.permutation.length := by
  rw [h.length]
  exact h.arranged.lt_size ht q hq

lemma start_fits (ht : t.WellFormed) : Fits t swaps (range t.size)
    ⟨t.toGraph.edges.foldl (fun acc e => acc.addEdge e.1 e.2 0) t.toGraph, range t.size⟩ where
  arranged := .start
  bijective := .refl _
  joined a b := by
    obtain ⟨-, hn, hj⟩ := Topology.toGraph_spec ht
    have hstart := Topology.start_renamed ht
    have hplace : ∀ {q g}, q < t.size → Placement.place ⟨g, range t.size⟩ q = q := by
      intro q g hq
      simp [place, hq]
    rw [hstart.joined, hj, hstart.nodes, hstart.nodes, hn, Topology.qubits, mem_range,
      mem_range, Perm.one_apply, Perm.one_apply]
    constructor
    · intro h
      obtain ⟨-, ha, hb⟩ := Topology.ends_of_hasCoupling ht h
      exact ⟨ha, hb, by rwa [hplace ha, hplace hb]⟩
    · rintro ⟨ha, hb, h⟩
      rwa [hplace ha, hplace hb] at h

lemma Fits.used (h : p.Fits t swaps free) (ht : t.WellFormed) (huv : p.graph.Joined u v) :
    Fits t swaps (free.filter fun q => q != u && q != v) { p with graph := p.graph.addEdge u v 2 } where
  arranged := h.arranged.used huv
  bijective := h.bijective
  joined a b := by
    have hrenamed := Graph.addEdge_renamed (h.arranged.proper ht) huv 2
    rw [hrenamed.joined, hrenamed.nodes, hrenamed.nodes]
    exact h.joined a b

lemma Fits.remove (h : p.Fits t swaps free) (ht : t.WellFormed) (hv : p.graph.isCut v = false) :
    Fits t swaps (free.filter (· != v)) { p with graph := p.graph.removeNode v } where
  arranged := h.arranged.remove hv
  bijective := h.bijective
  joined a b := by
    obtain ⟨-, hn, hj⟩ := Graph.removeNode_spec (h.arranged.proper ht) v
    rw [hj, hn, hn, h.joined]
    change _ ↔ (_ ∧ _) ∧ (_ ∧ _) ∧ t.hasCoupling (p.place a) (p.place b)
    tauto

/-- Every qubit has gone where another one was, and the graph has followed. -/
structure Trades (σ : Perm Nat) (p p' : Placement) : Prop where
  renamed : Graph.Renamed σ p.graph p'.graph
  nodes : ∀ q, σ q ∈ p.graph.nodes ↔ q ∈ p.graph.nodes
  place : ∀ q, p'.place q = p.place (σ q)

namespace Trades

lemma refl (hg : p.graph.Proper) : Trades 1 p p := ⟨.refl hg, fun _ => .rfl, fun _ => rfl⟩

lemma mem_nodes (h : Trades σ p p') (q : Nat) : q ∈ p'.graph.nodes ↔ q ∈ p.graph.nodes :=
  (h.renamed.nodes q).trans (h.nodes q)

lemma trans (h : Trades σ p p') (h' : Trades τ p' p'') : Trades (σ * τ) p p'' where
  renamed := h.renamed.trans h'.renamed
  nodes q := (h.nodes (τ q)).trans (((h.mem_nodes _).symm.trans (h'.nodes q)).trans (h.mem_nodes q))
  place q := (h'.place q).trans (h.place (τ q))

end Trades

def traded (u v : Nat) (p : Placement) : Placement where
  graph := p.graph.swapNodes u v
  permutation := (p.permutation.set u (p.place v)).set v (p.place u)

lemma place_eq {q : Nat} (h : q < p.permutation.length) : p.place q = p.permutation[q] := by
  rw [place, getElem?_eq_getElem h, Option.getD_some]

lemma exchange_run (hu : u < p.permutation.length) (hv : v < p.permutation.length) :
    (exchange u v).runFrom p = (.ok (),
      { p with permutation := (p.permutation.set u (p.place v)).set v (p.place u) }) := by
  refine runFrom_replace ?_
  rw [getElem?_eq_getElem hu, getElem?_eq_getElem hv, place_eq hu, place_eq hv]

lemma traded_trades (hg : p.graph.Proper) (hu : u ∈ p.graph.nodes) (hv : v ∈ p.graph.nodes)
    (hu' : u < p.permutation.length) (hv' : v < p.permutation.length) (hne : u ≠ v) :
    Trades (swap u v) p (p.traded u v) where
  renamed := Graph.swapNodes_renamed hg hu hv hne
  nodes := Graph.swap_mem hu hv
  place q := by
    rw [place, traded, getElem?_set, getElem?_set, length_set]
    rcases eq_or_ne q v with rfl | hqv
    · simp [hv']
    · rcases eq_or_ne q u with rfl | hqu
      · simp [hu', hne.symm]
      · rw [swap_apply_of_ne_of_ne hqu hqv, if_neg hqv.symm, if_neg hqu.symm, place]

lemma Fits.traded (h : p.Fits t swaps free) (ht : t.WellFormed) (hs : swaps = true) (hu : u ∈ free)
    (hv : v ∈ free) (hne : u ≠ v) :
    (p.traded u v).Fits t swaps free ∧ Trades (swap u v) p (p.traded u v) := by
  have hnodes := h.arranged.free_nodes ht
  have hu' := h.lt_length ht (hnodes u hu)
  have hv' := h.lt_length ht (hnodes v hv)
  have htrades := traded_trades (h.arranged.proper ht) (hnodes u hu) (hnodes v hv) hu' hv' hne
  refine ⟨⟨h.arranged.exchange hs hu hv hne, ?_, fun a b => ?_⟩, htrades⟩
  · rw [Placement.traded, place_eq hu', place_eq hv']
    exact (set_set_perm hu' hv').trans h.bijective
  · rw [htrades.renamed.joined, h.joined, htrades.nodes, htrades.nodes, htrades.mem_nodes,
      htrades.mem_nodes, htrades.place, htrades.place]

end Placement

namespace Graph

variable {g tree : Graph} {root v : Nat} {terminals : List Nat}

lemma Grows.mono {seen : List Nat} {es : List (Nat × Nat)} (h : tree.Grows seen es)
    (hsub : ∀ a b, tree.Joined a b → g.Joined a b) : g.Grows seen es := by
  induction h with
  | nil => exact .nil _
  | cons hu hv hj _ ih => exact .cons hu hv (hsub _ _ hj) ih

/-- Edges from a root to all terminals, each to a new node. Where they do not lead on there is a
terminal. -/
structure Ladder (g : Graph) (root : Nat) (terminals : List Nat) (es : List (Nat × Nat)) : Prop where
  grows : g.Grows [root] es
  covers : ∀ v ∈ terminals, v = root ∨ ∃ e ∈ es, e.2 = v
  inner : ∀ e ∈ es, (∃ f ∈ es, f.1 = e.2) ∨ e.2 ∈ terminals

/-- At an edge of a ladder, the edges that leave its end come later, and none of the later ones leads
back to it. -/
theorem Ladder.at_edge {pre post es : List (Nat × Nat)} {i j : Nat}
    (h : g.Ladder root terminals es) (hes : es = pre ++ (i, j) :: post) :
    j ≠ root ∧ (∀ e ∈ es, e.1 = j → e ∈ post) ∧ ∀ e ∈ post, e.2 ≠ i ∧ e.2 ≠ j := by
  obtain ⟨hpre, hpost⟩ := (hes ▸ h.grows).split
  cases hpost with
  | cons hi hj hij hpost =>
    refine ⟨fun e => hj (by simp [e]), fun e he hej => ?_, fun e he => ⟨?_, ?_⟩⟩
    · rw [hes, mem_append, mem_cons] at he
      rcases he with he | rfl | he
      · refine absurd ?_ hj
        rw [← hej, mem_append]
        exact (hpre.source_mem e he).symm
      · exact absurd (hej ▸ hi) hj
      · exact he
    · rintro rfl
      exact hpost.fresh e he (mem_cons_of_mem _ hi)
    · rintro rfl
      exact hpost.fresh e he mem_cons_self

lemma Spans.ladder (h : tree.Spans terminals) (hp : tree.Proper) (hr : root ∈ tree.nodes)
    (hsub : ∀ a b, tree.Joined a b → g.Joined a b) :
    g.Ladder root terminals (tree.bfsEdges root) where
  grows := (bfsEdges_grows hp root).mono hsub
  covers v hv := by
    have hmem := (h.mem_reach hp hr).mpr (h.spanning v hv)
    rwa [reach, mem_cons, mem_map] at hmem
  inner _ he := h.terminal_or_left hp hr he

lemma Ladder.eq_nil {es : List (Nat × Nat)} (h : g.Ladder root terminals es)
    (hone : ∀ v ∈ terminals, v = root) : es = [] := by
  rcases eq_nil_or_concat' es with hnil | ⟨pre, e, hes⟩
  · exact hnil
  obtain ⟨hne, hlater, -⟩ := h.at_edge hes
  rcases h.inner e (by simp [hes]) with ⟨f, hf, hfe⟩ | hterm
  · exact absurd (hlater f hf hfe) not_mem_nil
  · exact absurd (hone _ hterm) hne

lemma Spans.eq_root (h : tree.Spans terminals) (hp : tree.Proper) (hroot : root ∈ terminals)
    (hone : ∀ v ∈ terminals, v = root) (hv : v ∈ tree.nodes) : v = root := by
  have hr := h.spanning root hroot
  have hmem := (h.mem_reach hp hr).mpr hv
  rw [reach, (h.ladder hp hr fun _ _ hab => hab).eq_nil hone] at hmem
  exact mem_singleton.mp hmem

lemma Renamed.spans {tree' : Graph} (h : Renamed 1 tree tree') (hp : tree.Proper)
    (hs : tree.Spans terminals) : tree'.Spans terminals where
  acyclic := h.isAcyclic hp hs.acyclic
  linked := h.linked hp hs.linked
  spanning v hv := (h.nodes v).mpr (hs.spanning v hv)
  leaves v hv hone := by
    have hperm : (tree'.neighbours v).Perm (tree.neighbours v) :=
      (perm_ext_iff_of_nodup (h.proper.neighbours v) (hp.neighbours v)).mpr (h.joined v)
    exact hs.leaves v ((h.nodes v).mp hv) (hperm.length_eq ▸ hone)

end Graph

namespace Graph

variable {g : Graph} {root : Nat}

lemma dfsLoop_sound (hg : g.Proper) {fuel : Nat} {stack : List (Nat × List Nat)} {seen : List Nat}
    (hstack : ∀ x ∈ stack, x.1 ∈ g.nodes ∧ ∀ c ∈ x.2, c ∈ g.nodes) :
    ∀ e ∈ dfsLoop g fuel stack seen, e.1 ∈ g.nodes ∧ e.2 ∈ g.nodes ∧ e.2 ∉ seen := by
  induction fuel generalizing stack seen with
  | zero => exact fun e he => absurd he not_mem_nil
  | succ fuel ih =>
    match stack, hstack with
    | [], _ => exact fun e he => absurd he not_mem_nil
    | (q, []) :: stack, hstack => exact ih (forall_mem_cons.mp hstack).2
    | (q, c :: cs) :: stack, hstack =>
      obtain ⟨⟨hq, hcs⟩, hrest⟩ := forall_mem_cons.mp hstack
      obtain ⟨hc, hcs⟩ := forall_mem_cons.mp hcs
      have hrest' : ∀ x ∈ (q, cs) :: stack, x.1 ∈ g.nodes ∧ ∀ c ∈ x.2, c ∈ g.nodes :=
        forall_mem_cons.mpr ⟨⟨hq, hcs⟩, hrest⟩
      rw [dfsLoop]
      split
      · exact ih hrest'
      · rename_i hseen
        refine forall_mem_cons.mpr ⟨⟨hq, hc, by simpa using hseen⟩, fun e he => ?_⟩
        have hnew : ∀ x ∈ (c, g.neighbours c) :: (q, cs) :: stack,
            x.1 ∈ g.nodes ∧ ∀ c ∈ x.2, c ∈ g.nodes :=
          forall_mem_cons.mpr ⟨⟨hc, fun d hd => hg.mem_nodes hd⟩, hrest'⟩
        grind

lemma dfsEdges_sound (hg : g.Proper) (hr : root ∈ g.nodes) :
    ∀ e ∈ g.dfsEdges root, e.1 ∈ g.nodes ∧ e.2 ∈ g.nodes ∧ e.2 ≠ root := by
  intro e he
  have hstart : ∀ x ∈ [(root, g.neighbours root)], x.1 ∈ g.nodes ∧ ∀ c ∈ x.2, c ∈ g.nodes :=
    forall_mem_singleton.mpr ⟨hr, fun c hc => hg.mem_nodes hc⟩
  obtain ⟨h₁, h₂, h₃⟩ := dfsLoop_sound hg hstart e he
  exact ⟨h₁, h₂, fun h => h₃ (mem_singleton.mpr h)⟩

lemma exchangeIn_sound {ns : List Nat} {edges : List (Nat × Nat)} {parent child : Nat}
    (hedges : ∀ e ∈ edges, e.1 ∈ ns ∧ e.2 ∈ ns ∧ e.2 ≠ root) (hp : parent ∈ ns) (hc : child ∈ ns)
    (hpr : parent ≠ root) (hcr : child ≠ root) :
    ∀ e ∈ exchangeIn edges parent child, e.1 ∈ ns ∧ e.2 ∈ ns ∧ e.2 ≠ root := by
  intro e he
  obtain ⟨⟨a, b⟩, hab, rfl⟩ := mem_map.mp he
  grind

end Graph

namespace Placement

variable {t : Topology} {swaps : Bool} {p p' : Placement} {rules : SwapRules} {root : Nat} {tree : Graph}

/-- Free qubits other than the root have traded places. -/
def Shuffled (root : Nat) (free : List Nat) (p p' : Placement) : Prop :=
  ∃ σ, Trades σ p p' ∧ ∀ q, q = root ∨ q ∉ free → σ q = q

lemma Shuffled.refl (hg : p.graph.Proper) (root : Nat) (free : List Nat) : Shuffled root free p p :=
  ⟨1, .refl hg, fun _ _ => rfl⟩

lemma Shuffled.trans {free : List Nat} {p'' : Placement} (h : Shuffled root free p p')
    (h' : Shuffled root free p' p'') : Shuffled root free p p'' := by
  obtain ⟨σ, hσ, hfix⟩ := h
  obtain ⟨τ, hτ, hfix'⟩ := h'
  exact ⟨σ * τ, hσ.trans hτ, fun q hq => by rw [Perm.mul_apply, hfix' q hq, hfix q hq]⟩

lemma applies_eq {parent child : Nat} {m m' : Int} (hp : rules.mark parent = some m)
    (hc : rules.mark child = some m') : ∃ b, rules.applies parent child = .ok b ∧
      (b → parent ≠ child ∧ parent ∈ rules.free ∧ child ∈ rules.free) := by
  unfold SwapRules.applies
  simp only [hp, hc]
  by_cases hm : m = 0
  · refine ⟨_, by simp only [hm, ne_eq, not_true_eq_false, if_false]; rfl, fun h => ?_⟩
    grind
  · exact ⟨false, by simp only [hm, ne_eq, not_false_eq_true, if_true]; rfl, by simp⟩

lemma swapPass_finishes (ht : t.WellFormed) (hs : swaps = true) {k : Nat} {edges : List (Nat × Nat)}
    (hfits : p.Fits t swaps rules.free)
    (hmark : ∀ q ∈ p.graph.nodes, ∃ m, rules.mark q = some m) (htree : tree.Proper)
    (hsub : ∀ q ∈ tree.nodes, q ∈ p.graph.nodes)
    (hedges : ∀ e ∈ edges, e.1 ∈ tree.nodes ∧ e.2 ∈ tree.nodes ∧ e.2 ≠ root) :
    (swapPass root rules k edges tree).Finishes p fun tree' p' =>
      p'.Fits t swaps rules.free ∧ Shuffled root rules.free p p' ∧ tree'.Proper ∧
        ∀ q, q ∈ tree'.nodes ↔ q ∈ tree.nodes := by
  induction k generalizing edges tree p with
  | zero =>
    exact finishes_of_run rfl
      ⟨hfits, .refl (hfits.arranged.proper ht) root rules.free, htree, fun _ => .rfl⟩
  | succ k ih =>
    match edges, hedges with
    | [], _ =>
      exact finishes_of_run rfl
        ⟨hfits, .refl (hfits.arranged.proper ht) root rules.free, htree, fun _ => .rfl⟩
    | (parent, child) :: rest, hedges =>
      obtain ⟨⟨hpt, hct, hcr⟩, hrest⟩ := forall_mem_cons.mp hedges
      obtain ⟨m, hm⟩ := hmark parent (hsub _ hpt)
      obtain ⟨m', hm'⟩ := hmark child (hsub _ hct)
      obtain ⟨b, happlies, hb⟩ := applies_eq hm hm'
      rw [swapPass]
      refine finishes_bind_lift happlies ?_
      -- Only free qubits trade places, and the root never does.
      by_cases hswap : (decide (parent ≠ root) && b)
      · rw [if_pos hswap]
        simp only [Bool.and_eq_true, decide_eq_true_eq] at hswap
        obtain ⟨hpr, hbt⟩ := hswap
        obtain ⟨hne, hpf, hcf⟩ := hb hbt
        obtain ⟨hfits', htrades⟩ := hfits.traded ht hs hpf hcf hne
        have hpl := hfits.lt_length ht (hsub _ hpt)
        have hcl := hfits.lt_length ht (hsub _ hct)
        have hsame : ∀ q, q ∈ (tree.swapNodes parent child).nodes ↔ q ∈ tree.nodes := fun q =>
          ((Graph.swapNodes_renamed htree hpt hct hne).nodes q).trans (Graph.swap_mem hpt hct q)
        refine finishes_bind_of_run (runFrom_modify _ _) ?_
        refine finishes_bind_of_run (exchange_run hpl hcl) ?_
        refine (ih (p := p.traded parent child) hfits'
          (fun q hq => hmark q ((htrades.mem_nodes q).mp hq))
          (Graph.swapNodes_renamed htree hpt hct hne).proper
          (fun q hq => (htrades.mem_nodes q).mpr (hsub q ((hsame q).mp hq))) ?_).mono ?_
        · simp only [hsame]
          exact Graph.exchangeIn_sound hrest hpt hct hpr hcr
        · rintro tree' p' ⟨hf, hs, hp, hn⟩
          refine ⟨hf, .trans ⟨_, htrades, ?_⟩ hs, hp, fun q => (hn q).trans (hsame q)⟩
          grind
      · rw [if_neg hswap]
        exact ih hfits hmark htree hsub hrest

lemma swapRounds_finishes (ht : t.WellFormed) (hs : swaps = true) {k : Nat}
    (hfits : p.Fits t swaps rules.free)
    (hmark : ∀ q ∈ p.graph.nodes, ∃ m, rules.mark q = some m) (htree : tree.Proper)
    (hroot : root ∈ tree.nodes) (hsub : ∀ q ∈ tree.nodes, q ∈ p.graph.nodes) :
    (swapRounds root rules k tree).Finishes p fun _ p' =>
      p'.Fits t swaps rules.free ∧ Shuffled root rules.free p p' := by
  induction k generalizing tree p with
  | zero =>
    exact finishes_of_run rfl ⟨hfits, .refl (hfits.arranged.proper ht) root rules.free⟩
  | succ k ih =>
    have hnode : (!tree.hasNode root) ≠ true := by simp [Graph.hasNode_iff, hroot]
    rw [swapRounds, if_neg hnode]
    refine (swapPass_finishes ht hs hfits hmark htree hsub fun e he => ?_).bind ?_
    · exact Graph.dfsEdges_sound htree hroot e (mem_reverse.mp he)
    · rintro tree' p' ⟨hf, hs, hp, hn⟩
      obtain ⟨σ, hσ, hfix⟩ := id hs
      refine (ih hf (fun q hq => hmark q ((hσ.mem_nodes q).mp hq)) hp ((hn root).mpr hroot)
        fun q hq => (hσ.mem_nodes q).mpr (hsub q ((hn q).mp hq))).mono ?_
      exact fun _ p'' h => ⟨h.1, hs.trans h.2⟩

lemma swapRounds_lone (rules : SwapRules) (k : Nat) (p : Placement) (htree : tree.Proper)
    (hroot : root ∈ tree.nodes) (hlone : ∀ q ∈ tree.nodes, q = root) :
    (swapRounds root rules k tree).runFrom p = (.ok (), p) := by
  have hedges : tree.dfsEdges root = [] := by
    refine eq_nil_iff_forall_not_mem.mpr fun e he => ?_
    obtain ⟨-, hmem, hne⟩ := Graph.dfsEdges_sound htree hroot e he
    exact hne (hlone _ hmem)
  induction k with
  | zero => rfl
  | succ k ih =>
    rw [swapRounds, if_neg (by simp [Graph.hasNode_iff, hroot]), hedges]
    exact (runFrom_bind_ok (runFrom_pure tree p)).trans ih

lemma search_finishes {terminals : List Nat} (htree : p.graph.IsSteinerTree terminals tree)
    (hroot : root ∈ terminals) : Finishes (do
      if !tree.hasNode root then throw .unknownNode
      return (tree.bfsEdges root).reverse) p fun edges p' =>
        p' = p ∧ ∃ es, edges = es.reverse ∧ p.graph.Ladder root terminals es := by
  have hr := htree.spanning root hroot
  rw [if_neg (by simp [Graph.hasNode_iff, hr])]
  exact finishes_of_run rfl ⟨rfl, _, rfl, htree.ladder htree.proper hr htree.joined⟩

/-- The tree edges are a ladder from the root to the terminals, taken from its far ends. -/
theorem treeEdges_finishes [GraphLibrary] (ht : t.WellFormed)
    (htrees : t.FindsTrees GraphLibrary.steinerTree swaps) {terminals free : List Nat}
    (hfits : p.Fits t swaps free) {given : Option SwapRules} (hterm : ∀ q ∈ terminals, q ∈ p.graph.nodes)
    (hroot : root ∈ terminals) (hrules : ∀ r, given = some r →
      swaps = true ∧ r.free = free ∧ ∀ q ∈ p.graph.nodes, ∃ m, r.mark q = some m) :
    (treeEdges root terminals (.ok given)).Finishes p fun edges p' =>
      p'.Fits t swaps free ∧ Shuffled root free p p' ∧ (given = none → p' = p) ∧
        ∃ es, edges = es.reverse ∧ p'.graph.Ladder root terminals es := by
  have hp := hfits.arranged.proper ht
  obtain ⟨tree, hfound, htree⟩ := htrees _ _ hfits.arranged terminals (ne_nil_of_mem hroot) hterm
  rw [treeEdges]
  refine finishes_bind_get (finishes_bind_lift hfound ?_)
  rcases htree with htree | ⟨hnone, hone⟩
  · have hrebuilt := Graph.rebuilt_renamed htree.proper
    have hnode := (hrebuilt.nodes root).mpr (htree.spanning root hroot)
    rw [if_neg fun h => ne_nil_of_mem hnode (Graph.isEmpty_adj_iff.mp h)]
    refine finishes_bind_lift rfl ?_
    cases given with
    | none =>
      refine finishes_bind_of_run (runFrom_pure _ _) ?_
      refine (search_finishes ⟨hrebuilt.spans htree.proper htree.toSpans, hrebuilt.proper, fun a b h =>
        htree.joined a b ((hrebuilt.joined a b).mp h)⟩ hroot).mono ?_
      rintro edges _ ⟨rfl, hladder⟩
      exact ⟨hfits, .refl hp root free, fun _ => rfl, hladder⟩
    | some rules =>
      obtain ⟨hs, rfl, hmark⟩ := hrules rules rfl
      -- A single terminal trades with no other, and the tree that is taken anew is the one before.
      by_cases hone : ∀ v ∈ terminals, v = root
      · refine finishes_bind_of_run (swapRounds_lone rules _ p hrebuilt.proper hnode fun q hq =>
          htree.eq_root htree.proper hroot hone ((hrebuilt.nodes q).mp hq)) ?_
        refine finishes_bind_get (finishes_bind_lift hfound ?_)
        refine (search_finishes htree hroot).mono ?_
        rintro edges _ ⟨rfl, hladder⟩
        exact ⟨hfits, .refl hp root rules.free, fun _ => rfl, hladder⟩
      refine (swapRounds_finishes ht hs hfits hmark hrebuilt.proper hnode fun q hq =>
        htree.mem_nodes hroot (hterm root hroot) ((hrebuilt.nodes q).mp hq)).bind fun _ p' h => ?_
      obtain ⟨hfits', hshuffled⟩ := h
      obtain ⟨σ, hσ, -⟩ := id hshuffled
      -- The tree is taken anew after the trades, on a graph with the same nodes.
      obtain ⟨tree', hfound', htree'⟩ := htrees _ _ hfits'.arranged terminals (ne_nil_of_mem hroot)
        fun q hq => (hσ.mem_nodes q).mpr (hterm q hq)
      replace htree' := htree'.resolve_right fun h => hone fun v hv => h.2 v hv root hroot
      refine finishes_bind_get (finishes_bind_lift hfound' ?_)
      refine (search_finishes htree' hroot).mono ?_
      rintro edges _ ⟨rfl, hladder⟩
      exact ⟨hfits', hshuffled, by simp, hladder⟩
  -- The tree is empty only if there is nothing to join to the root.
  · have hempty : tree.rebuilt.adj.isEmpty := by
      rw [Graph.rebuilt, Graph.nodes, map_eq_nil_iff.mp hnone]
      rfl
    rw [if_pos hempty]
    refine finishes_of_run rfl ⟨hfits, .refl hp root free, fun _ => rfl, [], rfl, ?_⟩
    exact ⟨.nil _, fun v hv => .inl (hone v hv root hroot), by simp⟩

end Placement

namespace Graph

variable {g : Graph} {u v : Nat}

lemma hops_ok (hg : g.Proper) (hl : g.Linked) (hu : u ∈ g.nodes) (hv : v ∈ g.nodes) :
    ∃ d, g.hops u v = .ok d := by
  have hkeys : ∀ (f : List (Nat × Nat) → Nat × Nat → Nat) (es acc : List (Nat × Nat)),
      v ∈ acc.map Prod.fst ∨ v ∈ es.map Prod.snd →
      ∃ x ∈ es.foldl (fun acc e => (e.2, f acc e) :: acc) acc, (x.1 == v) := by
    intro f es
    induction es with
    | nil =>
      simp
    | cons e es ih =>
      intro acc h
      refine ih _ ?_
      simp only [map_cons, mem_cons] at h ⊢
      tauto
  have hreach : v ∈ g.reach u := (mem_reach hg hu).mpr (hl u hu v hv)
  rw [reach, mem_cons] at hreach
  obtain ⟨x, hx⟩ := Option.isSome_iff_exists.mp (find?_isSome.mpr
    (hkeys (fun acc e => ((acc.find? fun d => d.1 == e.1).map Prod.snd).getD 0 + 1)
      (g.bfsEdges u) [(u, 0)] (by simpa using hreach)))
  have hhops : g.hops? u v = some x.2 := by
    rw [hops?, hx]
    rfl
  refine ⟨x.2, ?_⟩
  rw [hops, if_neg (by simp [hasNode_iff, hu, hv]), hhops]

lemma pathWeight_ok (hg : g.Proper) (hl : g.Linked) (hu : u ∈ g.nodes) (hv : v ∈ g.nodes) :
    ∃ d, g.pathWeight u v = .ok d := by
  obtain ⟨c, hc, hcv⟩ := mem_map.mp ((shortestPaths_spec hg u).2 v (hl u hu v hv))
  have hsome : ((g.shortestPaths u).find? fun c => c.node == v).isSome :=
    find?_isSome.mpr ⟨c, hc, beq_iff_eq.mpr hcv⟩
  obtain ⟨x, hx⟩ := Option.isSome_iff_exists.mp hsome
  exact ⟨x.dist, by rw [pathWeight, distance?, hx]; rfl⟩

end Graph

namespace Tableau

lemma firstLeast_mem {ps : List (Nat × Nat)} (h : ps ≠ []) : ∃ p ∈ ps, firstLeast ps = some p := by
  match ps, h with
  | p :: ps, _ =>
    refine ⟨_, foldl_mem (fun a b => ?_) p ps, rfl⟩
    split
    · exact .inr rfl
    · exact .inl rfl

lemma firstLeast_mapM {cost : Nat → Except Error Nat} {qs : List Nat} (hne : qs ≠ [])
    (hcost : ∀ q ∈ qs, ∃ c, cost q = .ok c) :
    ∃ costs q c, qs.mapM (fun q => do return (q, ← cost q)) = .ok costs ∧
      firstLeast costs = some (q, c) ∧ q ∈ qs := by
  obtain ⟨costs, hmap, hlen⟩ := mapM_exists (f := fun q => do return (q, ← cost q)) fun q hq => by
    obtain ⟨c, hc⟩ := hcost q hq
    exact ⟨(q, c), by rw [hc]; rfl⟩
  have hcosts : costs ≠ [] := fun h => hne (eq_nil_of_length_eq_zero (by rw [← hlen, h]; rfl))
  obtain ⟨⟨q, c⟩, hmem, hleast⟩ := firstLeast_mem hcosts
  obtain ⟨x, hx, hpair⟩ := of_mem_mapM hmap _ hmem
  obtain ⟨c', -, heq⟩ := bind_eq_ok.mp hpair
  cases heq
  exact ⟨costs, _, _, hmap, hleast, hx⟩

variable {g : Graph} {t : Tableau}

lemma spread_ok {out : Nat → Except Error Int} {row : Nat} (hg : g.Proper) (hl : g.Linked)
    (hrow : row ∈ g.nodes) (hout : ∀ col ∈ g.nodes, ∃ x, out col = .ok x) :
    ∃ d, spread g out row = .ok d := by
  refine foldlM_exists (fun total col hcol => ?_) 0
  obtain ⟨x, hx⟩ := hout col hcol
  obtain ⟨d, hd⟩ := g.hops_ok hg hl hrow hcol
  rw [hx, ok_bind, hd]
  split
  · exact ⟨_, rfl⟩
  · exact ⟨_, rfl⟩

/-- The qubit to be cleared can be removed, or can trade places with one that can. -/
theorem pivot_ok (hg : g.Proper) (hl : g.Linked) (hne : g.nodes ≠ [])
    (hout : ∀ q ∈ g.nodes, ∀ col ∈ g.nodes,
      (∃ x, t.xOutAt q col = .ok x) ∧ ∃ z, t.zOutAt q col = .ok z) (free : List Nat) (swaps : Bool) :
    ∃ q, t.pivot g free swaps = .ok q ∧ q ∈ g.nodes ∧
      (g.isCut q → swaps ∧ q ∈ free ∧ ∃ f ∈ free, g.isCut f = false) := by
  have hcost : ∀ q ∈ g.nodes, ∃ c, t.reachCost g q = .ok c := by
    intro q hq
    obtain ⟨x, hx⟩ := spread_ok hg hl hq fun col hcol => (hout q hq col hcol).1
    obtain ⟨z, hz⟩ := spread_ok hg hl hq fun col hcol => (hout q hq col hcol).2
    exact ⟨x + z, by rw [reachCost, hx, ok_bind, hz]; rfl⟩
  let choice : Nat → Bool := fun q =>
    !g.isCut q || (swaps && (free.any fun q => !g.isCut q) && free.contains q)
  obtain ⟨v, hv, hcut⟩ := hl.exists_not_cut hg hne
  have hsome : g.nodes.filter choice ≠ [] :=
    ne_nil_of_mem (mem_filter.mpr ⟨hv, by simp [choice, hcut]⟩)
  obtain ⟨costs, q, c, hmap, hleast, hq⟩ := firstLeast_mapM hsome fun q hq =>
    hcost q (mem_filter.mp hq).1
  obtain ⟨hqn, hqc⟩ := mem_filter.mp hq
  refine ⟨q, ?_, hqn, fun hc => ?_⟩
  · simp only [pivot]
    rw [hmap, ok_bind, hleast]
    rfl
  · grind

end Tableau

lemma Graph.nearestRemovable_ok {g : Graph} {pivot : Nat} {free : List Nat} (hg : g.Proper)
    (hl : g.Linked) (hp : pivot ∈ g.nodes) (hfree : ∃ f ∈ free, f ∈ g.nodes ∧ g.isCut f = false) :
    ∃ q, g.nearestRemovable pivot free = .ok q ∧ q ∈ g.nodes ∧ q ∈ free ∧ g.isCut q = false := by
  obtain ⟨f, hf, hfn, hfc⟩ := hfree
  have hsome : (g.nodes.filter fun q => !g.isCut q && free.contains q) ≠ [] :=
    ne_nil_of_mem (mem_filter.mpr ⟨hfn, by simp [hf, hfc]⟩)
  obtain ⟨costs, q, c, hmap, hleast, hq⟩ := Tableau.firstLeast_mapM hsome fun q hq =>
    g.pathWeight_ok hg hl (mem_filter.mp hq).1 hp
  obtain ⟨hqn, hqc⟩ := mem_filter.mp hq
  refine ⟨q, ?_, hqn, by simpa [and_comm] using hqc⟩
  simp only [nearestRemovable]
  rw [hmap, ok_bind, hleast]
  rfl

end GadgetCircuits
