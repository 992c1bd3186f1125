import GadgetCircuits.Graph.Standard
import GadgetCircuits.Pauli.Ladder
import GadgetCircuits.Proofs.Routes
import GadgetCircuits.Proofs.SpanningTree
import GadgetCircuits.Proofs.Unitary

/-!
Ladders gather a parity. A rooted tree lists its edges with the outer end first, each after the edge through
which its inner end was reached. The gates of a branch add the bit of its outer end to the inner one and
disturb only the qubits on the way. No leg stands there: one of the two shorter branches would make a
lighter tree.
-/

namespace GadgetCircuits

open List SimpleGraph Prod

lemma walk_mem_of_closed {α : Type} {G : SimpleGraph α} {nodes : List α}
    (hclosed : ∀ a b, G.Adj a b → a ∈ nodes → b ∈ nodes) {u v : α} (w : G.Walk u v) (hu : u ∈ nodes) :
    v ∈ nodes := by
  induction w with
  | nil => exact hu
  | cons hadj _ ih => exact ih (hclosed _ _ hadj hu)

/-- The nodes of a rooted tree and its edges from the root outwards, the outer ends first. -/
inductive Rooted {α : Type} (root : α) : List α → List (α × α) → Prop
  | root : Rooted root [root] []
  | branch {nodes : List α} {es : List (α × α)} {h q : α} (tree : Rooted root nodes es) (hq : q ∈ nodes)
      (hh : h ∉ nodes) : Rooted root (h :: nodes) (es ++ [(h, q)])

namespace Rooted

variable {α : Type} {root : α} {nodes : List α} {es : List (α × α)}

lemma root_mem (t : Rooted root nodes es) : root ∈ nodes := by
  induction t with
  | root => exact mem_singleton_self root
  | branch _ _ _ ih => exact mem_cons_of_mem _ ih

lemma eq_root_or_mem (t : Rooted root nodes es) : ∀ v ∈ nodes, v = root ∨ ∃ e ∈ es, e.1 = v := by
  induction t with
  | root => simp
  | @branch nodes es h q _ _ _ ih =>
    intro v hv
    rcases mem_cons.mp hv with rfl | hv
    · exact .inr ⟨(v, q), by simp, rfl⟩
    · refine (ih v hv).imp_right ?_
      rintro ⟨e, he, rfl⟩
      exact ⟨e, mem_append_left _ he, rfl⟩

lemma nodup (t : Rooted root nodes es) : nodes.Nodup := by
  induction t with
  | root => exact nodup_singleton root
  | branch _ _ hh ih => exact nodup_cons.mpr ⟨hh, ih⟩

lemma ends (t : Rooted root nodes es) : ∀ e ∈ es, e.1 ∈ nodes ∧ e.2 ∈ nodes ∧ e.1 ≠ e.2 := by
  induction t with
  | root => simp
  | @branch nodes es h q _ hq hh ih =>
    grind

lemma reachable (t : Rooted root nodes es) : ∀ v ∈ nodes, (joins es).Reachable v root := by
  induction t with
  | root =>
    intro v hv
    rw [mem_singleton.mp hv]
  | @branch nodes es h q _ hq hh ih =>
    have hle := joins_le_append es h q
    intro v hv
    rcases mem_cons.mp hv with rfl | hv'
    · have hadj : (joins (es ++ [(v, q)])).Adj v q :=
        joins_adj.mpr ⟨fun e => hh (e ▸ hq), .inl (by simp)⟩
      exact hadj.reachable.trans ((ih q hq).mono hle)
    · exact (ih v hv').mono hle

lemma branches (t : Rooted root nodes es) {q : α} (hq : q ∈ nodes) {heads : List α} (hheads : heads.Nodup)
    (hnew : ∀ h ∈ heads, h ∉ nodes) :
    Rooted root (heads.reverse ++ nodes) (es ++ heads.map fun h => (h, q)) := by
  induction heads generalizing nodes es with
  | nil => simpa using t
  | cons h heads ih =>
    obtain ⟨hh, hheads⟩ := nodup_cons.mp hheads
    obtain ⟨hhnew, hnew⟩ := forall_mem_cons.mp hnew
    have hrest := ih (t.branch hq hhnew) (mem_cons_of_mem h hq) hheads fun h' hh' hin => by
      rcases mem_cons.mp hin with rfl | hin
      · exact hh hh'
      · exact hnew h' hh' hin
    simpa [append_assoc] using hrest

lemma lift {β : Type} {name : β → α} (t : Rooted root nodes es) (hnodes : ∀ v ∈ nodes, ∃ b, name b = v) :
    ∃ root' nodes' es', Rooted root' nodes' es' ∧ name root' = root ∧ nodes'.map name = nodes ∧
      es'.map (map name name) = es := by
  induction t with
  | root =>
    obtain ⟨b, hb⟩ := hnodes root (mem_singleton_self root)
    exact ⟨b, [b], [], .root, hb, by simp [hb], rfl⟩
  | @branch nodes es h q t hq hh ih =>
    obtain ⟨⟨b, rfl⟩, hothers⟩ := forall_mem_cons.mp hnodes
    obtain ⟨root', nodes', es', t', hroot, hnodes', hes⟩ := ih hothers
    subst hnodes'
    obtain ⟨c, hc, rfl⟩ := mem_map.mp hq
    refine ⟨root', b :: nodes', es' ++ [(b, c)], t'.branch hc fun hin => hh (mem_map_of_mem hin),
      hroot, rfl, ?_⟩
    rw [map_append, hes]
    rfl

lemma connected (t : Rooted root nodes es) (hall : ∀ v, v ∈ nodes) : (joins es).Connected where
  preconnected := fun u v => (t.reachable u (hall u)).trans (t.reachable v (hall v)).symm
  nonempty := ⟨root⟩

lemma edgeCost_joins [Fintype α] (w : Sym2 α → Nat) (t : Rooted root nodes es) :
    edgeCost w (joins es) = (es.map fun e => w s(e.1, e.2)).sum := by
  induction t with
  | root => rw [joins_nil, edgeCost_bot, map_nil, sum_nil]
  | @branch nodes es h q t hq hh ih =>
    have hne : h ≠ q := fun e => hh (e ▸ hq)
    have hfresh : ¬ (joins es).Adj h q := by
      rw [joins_adj]
      rintro ⟨-, he | he⟩
      · exact hh (t.ends _ he).1
      · exact hh (t.ends _ he).2.1
    rw [joins_append, edgeCost_sup_edge w hne hfresh, ih, map_append, sum_append, map_singleton, sum_singleton]

end Rooted

namespace Ladder

variable {tree : List (Nat × Nat)} {root q : Nat} {queue seen : List Nat} {found : List (Nat × Nat)}

lemma mem_neighbours {v : Nat} : v ∈ neighbours tree q ↔ (q, v) ∈ tree ∨ (v, q) ∈ tree := by
  rw [neighbours, mem_eraseDups, mem_filterMap]
  grind

/-- What holds during the search: the nodes seen and those in the queue are a rooted tree of edges found
at nodes that were seen, and no edge at such a node leads elsewhere. -/
structure Searching (tree : List (Nat × Nat)) (n root : Nat) (queue seen : List Nat)
    (found : List (Nat × Nat)) : Prop where
  rooted : ∃ nodes, Rooted root nodes found ∧ ∀ v, v ∈ nodes ↔ v ∈ seen ∨ v ∈ queue
  nodup : (seen ++ queue).Nodup
  below : ∀ v ∈ seen ++ queue, v < n
  edges : ∀ e ∈ found, e.2 ∈ seen ∧ (joins tree).Adj e.1 e.2
  closed : ∀ v ∈ seen, ∀ u, (joins tree).Adj v u → u ∈ seen ∨ u ∈ queue

namespace Searching

variable {n : Nat}

lemma start (hroot : root < n) : Searching tree n root [root] [] [] where
  rooted := ⟨[root], .root, by simp⟩
  nodup := nodup_singleton root
  below := by simpa using hroot
  edges := by simp
  closed := by simp

/-- Without cycles an edge leads from the first node of the queue to nodes seen before it or to new ones:
to a node of the queue there is a way already. -/
theorem not_mem_queue (h : Searching tree n root (q :: queue) seen found) (hacyclic : (joins tree).IsAcyclic)
    {v : Nat} (hadj : (joins tree).Adj q v) (hv : v ∉ seen) : v ∉ queue := by
  intro hqueue
  obtain ⟨nodes, t, hnodes⟩ := h.rooted
  have hqseen : q ∉ seen := fun hin => disjoint_of_nodup_append h.nodup hin mem_cons_self
  have hle : joins found ≤ (joins tree).deleteEdges {s(q, v)} := by
    intro a b hab
    rw [deleteEdges_adj, Set.mem_singleton_iff]
    -- The edge between the two was not found: its inner end would have been seen.
    have hother : ∀ e ∈ found, s(e.1, e.2) ≠ s(q, v) := by
      intro e he heq
      have hin : e.2 ∈ s(q, v) := heq ▸ Sym2.mem_mk_right e.1 e.2
      rcases Sym2.mem_iff.mp hin with e2 | e2
      · exact hqseen (e2 ▸ (h.edges e he).1)
      · exact hv (e2 ▸ (h.edges e he).1)
    rcases (joins_adj.mp hab).2 with he | he
    · exact ⟨(h.edges _ he).2, hother _ he⟩
    · exact ⟨(h.edges _ he).2.symm, fun hc => hother _ he (Sym2.eq_swap.trans hc)⟩
  have hreach : (joins found).Reachable q v :=
    (t.reachable q ((hnodes q).mpr (.inr mem_cons_self))).trans
      (t.reachable v ((hnodes v).mpr (.inr (mem_cons_of_mem q hqueue)))).symm
  have hbridge := isAcyclic_iff_forall_adj_isBridge.mp hacyclic hadj
  exact isBridge_iff.mp hbridge (hreach.mono hle)

lemma mem_heads [SetOrder] {v : Nat} :
    v ∈ ((SetOrder.arrange (some q) (neighbours tree q)).filter fun v => !(q :: seen).contains v) ↔
      (joins tree).Adj q v ∧ v ∉ seen := by
  rw [mem_filter, (SetOrder.perm _ _).mem_iff, mem_neighbours, joins_adj, Bool.not_eq_true', ← Bool.not_eq_true,
    contains_iff_mem, mem_cons, not_or]
  grind

lemma step [SetOrder] (h : Searching tree n root (q :: queue) seen found)
    (hacyclic : (joins tree).IsAcyclic) (hends : ∀ e ∈ tree, e.1 < n ∧ e.2 < n)
    {heads : List Nat} (hheads : heads = (SetOrder.arrange (some q) (neighbours tree q)).filter fun v =>
      !(q :: seen).contains v) :
    Searching tree n root (queue ++ heads) (q :: seen) (found ++ heads.map fun v => (v, q)) := by
  have hmem : ∀ v, v ∈ heads ↔ (joins tree).Adj q v ∧ v ∉ seen := fun v => hheads ▸ mem_heads
  have hnew : ∀ v ∈ heads, v ∉ seen ∧ v ≠ q ∧ v ∉ queue := by
    intro v hv
    obtain ⟨hadj, hseen⟩ := (hmem v).mp hv
    exact ⟨hseen, hadj.ne', h.not_mem_queue hacyclic hadj hseen⟩
  have hheadsNodup : heads.Nodup :=
    hheads ▸ ((SetOrder.perm _ _).nodup_iff.mpr (nodup_eraseDups _)).filter _
  obtain ⟨nodes, t, hnodes⟩ := h.rooted
  have hold : ∀ v, v ∈ nodes ↔ v ∈ seen ∨ v = q ∨ v ∈ queue := fun v => by
    rw [hnodes, mem_cons]
  constructor
  · refine ⟨heads.reverse ++ nodes, t.branches ((hold q).mpr (.inr (.inl rfl))) hheadsNodup
      fun v hv hin => ?_, fun v => ?_⟩
    · simp_all
    · rw [mem_append, mem_reverse, hold, mem_cons, mem_append]
      tauto
  · have hperm : (q :: seen ++ (queue ++ heads)).Perm ((seen ++ q :: queue) ++ heads) := by grind
    refine hperm.nodup_iff.mpr (List.Nodup.append h.nodup hheadsNodup fun v hv hv' => ?_)
    simp_all
  · intro v hv
    simp only [mem_append, mem_cons] at hv
    rcases hv with (rfl | hv) | hv | hv
    · exact h.below v (by simp)
    · exact h.below v (by simp [hv])
    · exact h.below v (by simp [hv])
    · rcases (joins_adj.mp ((hmem v).mp hv).1).2 with he | he
      · exact (hends _ he).2
      · exact (hends _ he).1
  · intro e he
    rcases mem_append.mp he with he | he
    · exact ⟨mem_cons_of_mem q (h.edges e he).1, (h.edges e he).2⟩
    · obtain ⟨v, hv, rfl⟩ := mem_map.mp he
      exact ⟨mem_cons_self, ((hmem v).mp hv).1.symm⟩
  · intro v hv u hvu
    rw [mem_cons, mem_append]
    rcases mem_cons.mp hv with rfl | hv
    · grind
    · rcases h.closed v hv u hvu with hu | hu
      · exact .inl (.inr hu)
      · grind

lemma length_seen_le (h : Searching tree n root queue seen found) : seen.length ≤ n := by
  have hsub : seen ⊆ range n := fun v hv =>
    mem_range.mpr (h.below v (mem_append_left queue hv))
  simpa using ((nodup_append.mp h.nodup).1.subperm hsub).length_le

end Searching

/-- The search ends with a rooted tree of all that the root is joined to; every round sees one more node. -/
theorem outwards_spec [SetOrder] {n fuel : Nat} (hacyclic : (joins tree).IsAcyclic)
    (hends : ∀ e ∈ tree, e.1 < n ∧ e.2 < n)
    (h : Searching tree n root queue seen found) (hfuel : n < seen.length + fuel) :
    ∃ nodes, Rooted root nodes (found ++ outwards tree fuel queue seen) ∧
      (∀ e ∈ found ++ outwards tree fuel queue seen, (joins tree).Adj e.1 e.2) ∧
      ∀ v, (joins tree).Reachable root v → v ∈ nodes := by
  induction fuel generalizing queue seen found with
  | zero => exact absurd h.length_seen_le (by omega)
  | succ fuel ih =>
    cases queue with
    | nil =>
      obtain ⟨nodes, t, hnodes⟩ := h.rooted
      have hseen : ∀ v, v ∈ nodes ↔ v ∈ seen := by simpa using hnodes
      rw [outwards, append_nil]
      · refine ⟨nodes, t, fun e he => (h.edges e he).2, ?_⟩
        rintro v ⟨w⟩
        refine walk_mem_of_closed (fun a b hab ha => ?_) w t.root_mem
        exact (hnodes b).mpr (h.closed a ((hseen a).mp ha) b hab)
      · simp
    | cons q queue =>
      rw [outwards, ← append_assoc]
      exact ih (h.step hacyclic hends rfl) (by rw [length_cons]; omega)

end Ladder

open Bits

def Bits.afterCX {n : Nat} (gates : List (Nat × Nat)) (x : Bits n) : Bits n :=
  gates.foldl (fun x g => addBit g.1 g.2 x) x

namespace Bits

variable {n : Nat}

lemma addBit_val (a b i : Fin n) (x : Bits n) :
    addBit a b x i = if i = b then xor (x i) (x a) else x i := by
  simp only [addBit, bit_val, Fin.ext_iff]

lemma afterCX_cons (g : Nat × Nat) (gates : List (Nat × Nat)) (x : Bits n) :
    afterCX (g :: gates) x = afterCX gates (addBit g.1 g.2 x) := rfl

lemma afterCX_append (gates others : List (Nat × Nat)) (x : Bits n) :
    afterCX (gates ++ others) x = afterCX others (afterCX gates x) :=
  foldl_append

end Bits

namespace Ladder

section Segment

variable {n : Nat} (a : Fin n) (stops : List (Fin n)) (goal : Fin n)

/-- The gates that take the bit of a qubit over some stops to its goal. -/
def segment : Fin n → List (Fin n) → Fin n → List (Nat × Nat)
  | a, [], goal => [((a : Nat), (goal : Nat))]
  | a, q :: stops, goal => ((q : Nat), (a : Nat)) :: ((a : Nat), (q : Nat)) :: segment q stops goal

lemma carry_eq_segment :
    ∃ last, ((a : Nat) :: stops.map Fin.val).getLast? = some last ∧
      carry (a : Nat) (stops.map Fin.val) ++ [(last, (goal : Nat))] = segment a stops goal := by
  induction stops generalizing a with
  | nil => exact ⟨a, rfl, rfl⟩
  | cons q stops ih =>
    obtain ⟨last, hlast, heq⟩ := ih q
    refine ⟨last, ?_, ?_⟩
    · rw [map_cons, getLast?_cons_cons]
      exact hlast
    · rw [map_cons, carry, cons_append, cons_append, heq]
      rfl

lemma branch_eq_segment :
    branch (a : Nat) goal ((a :: stops ++ [goal]).map Fin.val) = .ok (segment a stops goal).reverse := by
  obtain ⟨last, hlast, heq⟩ := carry_eq_segment a stops goal
  have hstops : ((a :: stops ++ [goal]).map Fin.val).tail.dropLast = stops.map Fin.val := by simp
  unfold branch
  rw [hstops, hlast, ← heq]
  cases stops <;> rfl

lemma length_segment : (segment a stops goal).length = 2 * stops.length + 1 := by
  induction stops generalizing a with
  | nil => rfl
  | cons q stops ih =>
    rw [segment, length_cons, length_cons, ih, length_cons]
    omega

lemma segment_coupled {t : Topology} {a goal : Fin t.size} {stops : List (Fin t.size)}
    (h : List.IsChain t.graph.Adj (a :: stops ++ [goal])) :
    ∀ g ∈ segment a stops goal, t.hasCoupling g.1 g.2 := by
  induction stops generalizing a with
  | nil =>
    intro g hg
    obtain rfl := mem_singleton.mp hg
    exact (isChain_cons_cons.mp h).1.2
  | cons q stops ih =>
    obtain ⟨hadj, hrest⟩ := isChain_cons_cons.mp h
    intro g hg
    rcases mem_cons.mp hg with rfl | hg
    · exact hadj.symm.2
    · rcases mem_cons.mp hg with rfl | hg
      · exact hadj.2
      · exact ih hrest g hg

lemma segment_others {a goal : Fin n} {stops : List (Fin n)} {i : Fin n} (hi : i ∉ a :: stops ++ [goal])
    (x : Bits n) : afterCX (segment a stops goal) x i = x i := by
  induction stops generalizing a x with
  | nil =>
    have hgoal : i ≠ goal := fun e => hi (by simp [e])
    rw [segment, afterCX_cons, afterCX, foldl_nil, addBit_val, if_neg hgoal]
  | cons q stops ih =>
    have ha : i ≠ a := fun e => hi (by simp [e])
    have hq : i ≠ q := fun e => hi (by simp [e])
    rw [segment, afterCX_cons, afterCX_cons, ih fun hin => hi (mem_cons_of_mem a hin),
      addBit_val, if_neg hq, addBit_val, if_neg ha]

/-- The first two gates bring the bit to the next stop, and leave what was there behind. -/
theorem segment_goal {a goal : Fin n} {stops : List (Fin n)} (h : (a :: stops ++ [goal]).Nodup) (x : Bits n) :
    afterCX (segment a stops goal) x goal = xor (x goal) (x a) := by
  induction stops generalizing a x with
  | nil => rw [segment, afterCX_cons, afterCX, foldl_nil, addBit_val, if_pos rfl]
  | cons q stops ih =>
    obtain ⟨hout, hrest⟩ := nodup_cons.mp h
    have hqa : q ≠ a := fun e => hout (by simp [e])
    have hga : goal ≠ a := fun e => hout (by simp [e])
    have hgq : goal ≠ q := fun e => (nodup_cons.mp hrest).1 (by simp [e])
    rw [segment, afterCX_cons, afterCX_cons, ih hrest]
    simp only [addBit_val, if_neg hgq, if_neg hga, if_true, if_neg hqa]
    cases x q <;> cases x a <;> rfl

end Segment

lemma dist_lt_of_mem_support {t : Topology} {i j k : Fin t.size} {w : t.graph.Walk i j}
    (hw : w.length = t.graph.dist i j) (hk : k ∈ w.support) (hik : i ≠ k) (hkj : k ≠ j) :
    t.graph.dist i k < t.graph.dist i j ∧ t.graph.dist k j < t.graph.dist i j := by
  have hsum := congrArg Walk.length (w.take_spec hk)
  rw [Walk.length_append, hw] at hsum
  have hfst := dist_le (w.takeUntil k hk)
  have hsnd := dist_le (w.dropUntil k hk)
  grind

lemma exists_stops {t : Topology} (ht : t.WellFormed) {i j : Fin t.size} (h : t.graph.Reachable i j)
    (hne : i ≠ j) : ∃ stops : List (Fin t.size),
      t.routes.route i j = .ok ((i :: stops ++ [j]).map Fin.val) ∧ (i :: stops ++ [j]).Nodup ∧
      List.IsChain t.graph.Adj (i :: stops ++ [j]) ∧ stops.length + 1 = t.graph.dist i j ∧
      ∀ k ∈ stops, t.graph.dist i k < t.graph.dist i j ∧ t.graph.dist k j < t.graph.dist i j := by
  obtain ⟨w, hw, hroute⟩ := Topology.route_routes ht h
  have hpath := Walk.isPath_of_length_eq_dist w hw
  obtain ⟨stops, hsupport⟩ : ∃ stops, w.support = i :: stops ++ [j] := by
    cases w with
    | nil => exact absurd rfl hne
    | cons hadj p =>
      refine ⟨p.support.dropLast, ?_⟩
      simp
  have hnodup : (i :: stops ++ [j]).Nodup := hsupport ▸ hpath.support_nodup
  refine ⟨stops, hsupport ▸ hroute, hnodup, hsupport ▸ w.isChain_adj_support, ?_, fun k hk => ?_⟩
  · have hlength := w.length_support
    rw [hsupport, length_append, length_cons, length_singleton, hw] at hlength
    omega
  · have hik : i ≠ k := fun e => (nodup_cons.mp hnodup).1 (by simp [e, hk])
    have hkj : k ≠ j := fun e =>
      disjoint_of_nodup_append (nodup_cons.mp hnodup).2 hk (by simp [e])
    exact dist_lt_of_mem_support hw (by simp [hsupport, hk]) hik hkj

/-- The names are those of the legs of a column, and each leg has one. -/
structure NamesLegs {V : Type} {n : Nat} (column : List Bool) (node : V → Fin n) : Prop where
  injective : Function.Injective node
  mem_legs : ∀ q, q ∈ legs column ↔ ∃ a, (node a : Nat) = q

section Legs

variable {t : Topology} {column : List Bool} {V : Type} {node : V → Fin t.size}

lemma branch_cost_comm (node : V → Fin t.size) (a b : V) :
    4 * t.graph.dist (node a) (node b) - 2 = 4 * t.graph.dist (node b) (node a) - 2 := by
  rw [SimpleGraph.dist_comm]

/-- The cost of the branch between two legs, by their distance in the graph of couplings. -/
noncomputable def branchCost (node : V → Fin t.size) : Sym2 V → Nat :=
  Sym2.lift ⟨fun a b => 4 * t.graph.dist (node a) (node b) - 2, branch_cost_comm node⟩

lemma branchCost_mk (a b : V) : branchCost node s(a, b) = 4 * t.graph.dist (node a) (node b) - 2 := rfl

lemma cost_eq (ht : t.WellFormed) (hconn : t.graph.Connected) (a b : V) :
    cost t.routes (node a) (node b) = branchCost node s(a, b) := by
  rw [cost, Topology.routes_distance ht (hconn.preconnected (node a) (node b)), branchCost_mk]

lemma mem_legPairs (hnode : NamesLegs column node) {p : Nat × Nat} :
    p ∈ ((legs column).flatMap fun i => ((legs column).filter fun j => j != i).map fun j => (i, j)) ↔
      ∃ a b, a ≠ b ∧ p = ((node a : Nat), (node b : Nat)) := by
  obtain ⟨i, j⟩ := p
  simp only [mem_flatMap, mem_map, mem_filter, bne_iff_ne, mk.injEq]
  constructor
  · rintro ⟨i', hi, j', ⟨hj, hne⟩, rfl, rfl⟩
    obtain ⟨a, rfl⟩ := (hnode.mem_legs _).mp hi
    obtain ⟨b, rfl⟩ := (hnode.mem_legs _).mp hj
    exact ⟨a, b, fun e => hne (e ▸ rfl), rfl, rfl⟩
  · rintro ⟨a, b, hne, rfl, rfl⟩
    refine ⟨_, (hnode.mem_legs _).mpr ⟨a, rfl⟩, _, ⟨(hnode.mem_legs _).mpr ⟨b, rfl⟩, fun e => ?_⟩, rfl, rfl⟩
    exact hne (hnode.injective (Fin.ext e)).symm

lemma branches_spec (ht : t.WellFormed) (hconn : t.graph.Connected) (hlen : column.length = t.size)
    (hnode : NamesLegs column node) :
    ∃ g, branches t column = .ok g ∧ g.Proper ∧
      g.Complete (fun a => (node a : Nat)) (branchCost node) := by
  have hinj : Function.Injective fun a => (node a : Nat) := Fin.val_injective.comp hnode.injective
  generalize hpairs : ((legs column).flatMap fun i =>
    ((legs column).filter fun j => j != i).map fun j => (i, j)) = pairs
  have hmem : ∀ {p}, p ∈ pairs ↔ ∃ a b, a ≠ b ∧ p = ((node a : Nat), (node b : Nat)) := by
    rw [← hpairs]
    exact mem_legPairs hnode
  have hne : ∀ p ∈ pairs, p.1 ≠ p.2 := by grind
  have hin : ∀ p ∈ pairs, p.1 ∈ range t.size ∧ p.2 ∈ range t.size := by
    intro p hp
    obtain ⟨a, b, -, rfl⟩ := hmem.mp hp
    exact ⟨mem_range.mpr (node a).isLt, mem_range.mpr (node b).isLt⟩
  have hsymm : ∀ p ∈ pairs, cost t.routes p.1 p.2 = cost t.routes p.2 p.1 := by
    intro p hp
    obtain ⟨a, b, -, rfl⟩ := hmem.mp hp
    rw [cost_eq ht hconn, cost_eq ht hconn, Sym2.eq_swap]
  obtain ⟨hproper, hnodes, hnone⟩ := Graph.foldl_addNode_spec (nodup_range (n := t.size))
  generalize hstart : (range t.size).foldl Graph.addNode {} = start at hproper hnodes hnone
  have hempty : start.Weighs (cost t.routes) := fun u arc harc =>
    absurd (mem_map_of_mem harc) (hnone u arc.1)
  obtain ⟨hproper', hjoined⟩ :=
    Graph.foldl_addEdge_spec (fun p : Nat × Nat => p) (fun p => cost t.routes p.1 p.2) hne hproper
  refine ⟨_, ?_, hproper', Graph.complete_of_weighs hinj (fun u v => ?_)
    (Graph.foldl_weighs hne hsymm hempty) fun a b => cost_eq ht hconn a b⟩
  · rw [branches, hpairs, hlen, hstart]
    refine foldlM_ok (fun g p hp => ?_) _
    obtain ⟨a, b, -, rfl⟩ := hmem.mp hp
    rw [Topology.distanceOf_ofNat, ok_bind]
    rfl
  · grind

/-- Gates that add the bit of one leg to another one, with no effect on the other legs. -/
structure Carries (node : V → Fin t.size) (h q : V) (gates : List (Nat × Nat)) : Prop where
  coupled : ∀ g ∈ gates, t.hasCoupling g.1 g.2 = true
  cost : 2 * gates.length = branchCost node s(h, q)
  goal : ∀ x, afterCX gates.reverse x (node q) = xor (x (node q)) (x (node h))
  others : ∀ x a, a ≠ h → a ≠ q → afterCX gates.reverse x (node a) = x (node a)

lemma exists_carries (ht : t.WellFormed) (hconn : t.graph.Connected) (hnode : Function.Injective node)
    {h q : V} {S : Set V} (hh : h ∈ S) (hq : q ∉ S)
    (hlight : ∀ a ∈ S, ∀ b ∉ S, branchCost node s(h, q) ≤ branchCost node s(a, b)) :
    ∃ gates, (do branch (node h : Nat) (node q) (← t.routes.route (node h) (node q))) = .ok gates ∧
      Carries node h q gates := by
  have hne : h ≠ q := fun e => hq (e ▸ hh)
  obtain ⟨stops, hroute, hnodup, hchain, hlength, hnear⟩ :=
    exists_stops ht (hconn.preconnected (node h) (node q)) fun e => hne (hnode e)
  have hclear : ∀ a, node a ∉ stops := by
    intro a ha
    obtain ⟨hfst, hsnd⟩ := hnear _ ha
    by_cases hin : a ∈ S
    · have hle := hlight a hin q hq
      rw [branchCost_mk, branchCost_mk] at hle
      omega
    · have hle := hlight h hh a hin
      rw [branchCost_mk, branchCost_mk] at hle
      omega
  refine ⟨(segment (node h) stops (node q)).reverse, ?_, ?_⟩
  · rw [hroute, ok_bind, branch_eq_segment]
  constructor
  · exact fun g hg => segment_coupled hchain g (mem_reverse.mp hg)
  · rw [length_reverse, length_segment, branchCost_mk, ← hlength]
    omega
  · intro x
    rw [reverse_reverse, segment_goal hnodup]
  · intro x a hah haq
    rw [reverse_reverse]
    refine segment_others (fun hin => ?_) x
    grind

variable {root : V} {nodes : List V} {es : List (V × V)} {gates : V × V → List (Nat × Nat)}

/-- Adding the bit of a new leg to one leg changes the parity of the legs by that bit. -/
theorem bodd_countP_add {x y : Bits t.size} {h q : V} (hnodup : nodes.Nodup) (hq : q ∈ nodes)
    (hgoal : y (node q) = xor (x (node q)) (x (node h)))
    (hothers : ∀ a ∈ nodes, a ≠ q → y (node a) = x (node a)) :
    (nodes.countP fun a => y (node a)).bodd = ((h :: nodes).countP fun a => x (node a)).bodd := by
  classical
  have hperm := perm_cons_erase hq
  have hrest : (nodes.erase q).countP (fun a => y (node a)) = (nodes.erase q).countP fun a => x (node a) := by
    refine countP_congr fun a ha => ?_
    obtain ⟨hne, ha⟩ := (hnodup.mem_erase_iff).mp ha
    rw [hothers a ha hne]
  rw [countP_cons, hperm.countP_eq, hperm.countP_eq, countP_cons, countP_cons, hrest, hgoal]
  simp only [Nat.bodd_add]
  cases x (node q) <;> cases x (node h) <;> simp

/-- The branches, run from the outermost inwards, gather the parity of all legs on the root. -/
theorem afterCX_rooted (tree : Rooted root nodes es) (hes : ∀ e ∈ es, Carries node e.1 e.2 (gates e))
    (x : Bits t.size) :
    afterCX (es.flatMap gates).reverse x (node root) = (nodes.countP fun a => x (node a)).bodd := by
  induction tree generalizing x with
  | root => cases hx : x (node root) <;> simp [afterCX, hx]
  | @branch nodes es h q tree hq hh ih =>
    have hlast := hes (h, q) (by simp)
    rw [flatMap_append, reverse_append, afterCX_append,
      ih fun e he => hes e (mem_append_left _ he)]
    rw [flatMap_singleton]
    refine bodd_countP_add tree.nodup hq (hlast.goal x) fun a ha hne => ?_
    have hnew : a ≠ h := fun e => hh (e ▸ ha)
    exact hlast.others x a hnew hne

lemma length_rooted (hes : ∀ e ∈ es, Carries node e.1 e.2 (gates e)) :
    2 * (es.flatMap gates).length = (es.map fun e => branchCost node s(e.1, e.2)).sum := by
  induction es with
  | nil => rfl
  | cons e es ih =>
    obtain ⟨he, hes⟩ := forall_mem_cons.mp hes
    rw [flatMap_cons, length_append, map_cons, sum_cons, Nat.mul_add, he.cost, ih hes]

lemma outwards_rooted [SetOrder] (hlen : column.length = t.size) {g : Graph}
    (hg : g.Complete (fun a => (node a : Nat)) (branchCost node)) {forest : List (Nat × Nat)}
    (hforest : g.IsMinimumForest forest) (root : V) :
    ∃ nodes es, Rooted root nodes es ∧ (∀ a, a ∈ nodes) ∧
      outwards forest (column.length + 1) [(node root : Nat)] [] =
        es.map (map (fun a => (node a : Nat)) fun a => (node a : Nat)) ∧
      ∀ e ∈ es, (joins forest).Adj (node e.1) (node e.2) := by
  have hnamed : ∀ e ∈ forest, ∃ a b, (node a : Nat) = e.1 ∧ (node b : Nat) = e.2 := fun e he => by
    obtain ⟨a, b, -, ha, hb⟩ := hg.joined_iff.mp (hforest.joined e he)
    exact ⟨a, b, ha, hb⟩
  have hends : ∀ e ∈ forest, e.1 < t.size ∧ e.2 < t.size := by
    intro e he
    obtain ⟨a, b, ha, hb⟩ := hnamed e he
    exact ⟨ha ▸ (node a).isLt, hb ▸ (node b).isLt⟩
  have hfuel : t.size < ([] : List Nat).length + (column.length + 1) := by simp [hlen]
  obtain ⟨nodes, tree, hedges, hreach⟩ := outwards_spec hforest.acyclic hends (.start (node root).isLt) hfuel
  rw [nil_append] at tree hedges
  have hall : ∀ a : V, (node a : Nat) ∈ nodes := by
    intro a
    refine hreach _ ?_
    by_cases hne : root = a
    · rw [hne]
    · exact hforest.reachable _ _ (hg.joined_iff.mpr ⟨root, a, hne, rfl, rfl⟩)
  have hnames : ∀ v ∈ nodes, ∃ a, (node a : Nat) = v := by
    intro v hv
    rcases tree.eq_root_or_mem v hv with rfl | ⟨e, he, rfl⟩
    · exact ⟨root, rfl⟩
    · rcases (joins_adj.mp (hedges e he)).2 with he | he
      · obtain ⟨a, _, ha, -⟩ := hnamed _ he
        exact ⟨a, ha⟩
      · obtain ⟨_, b, -, hb⟩ := hnamed _ he
        exact ⟨b, hb⟩
  obtain ⟨root', nodes', es, tree', hroot, rfl, hes⟩ := tree.lift hnames
  obtain rfl := hg.injective hroot
  refine ⟨nodes', es, tree', fun a => ?_, hes.symm, fun e he => ?_⟩
  · exact (mem_map_of_injective hg.injective).mp (hall a)
  · exact hedges _ (hes ▸ mem_map_of_mem he)

/-- What is found between the legs of a column is a minimum spanning forest. -/
def FindsForest (t : Topology) (find : Graph → List (Nat × Nat)) (column : List Bool) : Prop :=
  ∀ g, branches t column = .ok g → g.IsMinimumForest (find g)

/-- The ladder of a column with a leg is made of the branches of a minimum spanning tree. -/
theorem ofColumn_spec [GraphLibrary] [Fintype V] (ht : t.WellFormed) (hconn : t.graph.Connected)
    (hlen : column.length = t.size) (hforest : FindsForest t GraphLibrary.spanningForest column)
    (hnode : NamesLegs column node) {root : V} (hroot : (legs column).head? = some (node root : Nat)) :
    ∃ nodes es gates, Rooted root nodes es ∧ (∀ a, a ∈ nodes) ∧
      ofColumn t column = .ok (es.flatMap gates, (node root : Nat)) ∧
      (∀ e ∈ es, Carries node e.1 e.2 (gates e)) ∧ IsMinimumTree (branchCost node) (joins es) := by
  obtain ⟨g, hbranches, -, hg⟩ := branches_spec ht hconn hlen hnode
  obtain ⟨nodes, es, tree, hall, houtwards, hedges⟩ := outwards_rooted hlen hg (hforest g hbranches) root
  have hmin : IsMinimumTree (branchCost node) (joins es) := by
    refine hg.isMinimumTree (hforest g hbranches) (tree.connected hall) fun a b hab => ?_
    rcases (joins_adj.mp hab).2 with he | he
    · exact hedges _ he
    · exact (hedges _ he).symm
  have hgates : ∀ e ∈ es, ∃ gates,
      (do branch (node e.1 : Nat) (node e.2) (← t.routes.route (node e.1) (node e.2))) = .ok gates ∧
        Carries node e.1 e.2 gates := by
    intro e he
    obtain ⟨S, hh, hq, hlight⟩ := hmin.exists_cut _ (joins_adj.mpr ⟨(tree.ends e he).2.2, .inl he⟩)
    exact exists_carries ht hconn hnode.injective hh hq hlight
  choose! gates hok hcarries using hgates
  have hempty : column.isEmpty = false := by grind
  refine ⟨nodes, es, gates, tree, hall, ?_, hcarries, hmin⟩
  rw [ofColumn, hbranches, ok_bind]
  simp only [hempty, hroot, Option.getD_some, houtwards, mapM_map, Function.comp_def, map_fst, map_snd]
  rw [if_neg Bool.false_ne_true, mapM_ok hok, ok_bind, flatMap_def]
  rfl

variable (ht : t.WellFormed) (hconn : t.graph.Connected) (hlen : column.length = t.size)
include hlen

lemma legs_named : NamesLegs column fun q : { q : Fin t.size // (q : Nat) ∈ legs column } => q.1 where
  injective := Subtype.val_injective
  mem_legs q := by
    constructor
    · intro hq
      have hlt := mem_range.mp (mem_of_mem_filter hq)
      exact ⟨⟨⟨q, hlen ▸ hlt⟩, hq⟩, rfl⟩
    · rintro ⟨a, rfl⟩
      exact a.2

include ht hconn

lemma prim_findsForest : FindsForest t Graph.prim column := by
  obtain ⟨g, hbranches, hproper, hg⟩ := branches_spec ht hconn hlen (legs_named hlen)
  intro g' hg'
  cases hbranches.symm.trans hg'
  exact Graph.prim_isMinimumForest hproper hg

end Legs

abbrev Leg (n : Nat) (column : List Int) : Type :=
  { q : Fin n // column[(q : Nat)]? = some 1 }

variable {column : List Int}

lemma namesLegs {n : Nat} (hlen : column.length = n) :
    NamesLegs (column.map (· == 1)) (fun q : Leg n column => q.1) where
  injective := Subtype.val_injective
  mem_legs := by
    intro q
    rw [legs, mem_filter, mem_range, length_map, getElem?_map]
    constructor
    · rintro ⟨hq, hleg⟩
      rw [getElem?_eq_getElem hq] at hleg
      refine ⟨⟨⟨q, hlen ▸ hq⟩, ?_⟩, rfl⟩
      rw [getElem?_eq_getElem hq]
      simpa using hleg
    · rintro ⟨⟨q, hq⟩, rfl⟩
      exact ⟨hlen ▸ q.isLt, by simp [hq]⟩

lemma exists_root {n : Nat} (hlen : column.length = n) (hleg : 1 ∈ column) :
    ∃ root : Leg n column, (legs (column.map (· == 1))).head? = some (root.1 : Nat) := by
  obtain ⟨i, hi⟩ := mem_iff_getElem?.mp hleg
  have hlt : i < n := hlen ▸ (List.getElem?_eq_some_iff.mp hi).1
  have hmem := ((namesLegs hlen).mem_legs i).mpr ⟨⟨⟨i, hlt⟩, hi⟩, rfl⟩
  cases hlegs : legs (column.map (· == 1)) with
  | nil => simp [hlegs] at hmem
  | cons q rest =>
    obtain ⟨root, hroot⟩ := ((namesLegs hlen).mem_legs q).mp (by simp [hlegs])
    exact ⟨root, by rw [head?_cons, hroot]⟩

lemma countP_legs {n : Nat} {nodes : List (Leg n column)} (hnodup : nodes.Nodup)
    (hall : ∀ a, a ∈ nodes) (x : Bits n) : nodes.countP (fun a => x a.1) =
      (Finset.univ.filter fun q : Fin n => column[(q : Nat)]? = some 1 ∧ x q).card := by
  have hset : (Finset.univ.filter fun q : Fin n => column[(q : Nat)]? = some 1 ∧ x q) =
      ((nodes.map Subtype.val).filter x).toFinset := by
    ext q
    simp [hall]
  rw [hset, toFinset_card_of_nodup ((hnodup.map Subtype.val_injective).filter _),
    ← countP_eq_length_filter, countP_map]
  rfl

/-- The ladder of a column on a connected topology, by any minimum spanning forest: its gates lie on
couplings and gather the parity of the legs on one of them, and it is as long as the branches of a minimum
spanning tree of the legs. -/
theorem ofIntegers_gathers [GraphLibrary] {t : Topology} (ht : t.WellFormed) (hconn : t.graph.Connected)
    {column : List Int} (hlen : column.length = t.size) (hbits : ∀ k ∈ column, k = 0 ∨ k = 1)
    (hleg : 1 ∈ column) :
    FindsForest t Graph.prim (column.map (· == 1)) ∧
    (FindsForest t GraphLibrary.spanningForest (column.map (· == 1)) →
      ∃ (ladder : List (Nat × Nat)) (root : Fin t.size),
        ofIntegers t column = .ok (ladder, (root : Nat)) ∧ column[(root : Nat)]? = some 1 ∧
        (∀ g ∈ ladder, t.hasCoupling g.1 g.2 = true) ∧
        (∀ x : Bits t.size, Bits.afterCX ladder.reverse x root = true ↔
          Odd (Finset.univ.filter fun q : Fin t.size => column[(q : Nat)]? = some 1 ∧ x q = true).card) ∧
        ∃ T : SimpleGraph (Leg t.size column),
          IsMinimumTree (branchCost fun q : Leg t.size column => q.1) T ∧
          2 * ladder.length = edgeCost (branchCost fun q : Leg t.size column => q.1) T) := by
  have hmap : (column.map (· == 1)).length = t.size := by rw [length_map, hlen]
  refine ⟨prim_findsForest ht hconn hmap, fun hforest => ?_⟩
  obtain ⟨root, hroot⟩ := exists_root hlen hleg
  obtain ⟨nodes, es, gates, tree, hall, hladder, hgates, hmin⟩ :=
    ofColumn_spec ht hconn hmap hforest (namesLegs hlen) hroot
  have hbinary : (column.all fun k => k == 0 || k == 1) = true := by simpa using hbits
  refine ⟨es.flatMap gates, root.1, ?_, root.2, fun g hg => ?_, fun x => ?_, joins es, hmin, ?_⟩
  · rw [ofIntegers, if_pos hbinary, hladder]
  · obtain ⟨e, he, hg⟩ := mem_flatMap.mp hg
    exact (hgates e he).coupled g hg
  · rw [afterCX_rooted tree hgates, countP_legs tree.nodup hall, Nat.odd_iff, Nat.mod_two_of_bodd]
    cases Nat.bodd _ <;> simp
  · rw [tree.edgeCost_joins, length_rooted hgates]

def lineOfFive : Topology where
  size := 5
  couplings := [(0, 1), (1, 2), (2, 3), (3, 4)]

lemma lineOfFive_connected : lineOfFive.WellFormed ∧ lineOfFive.graph.Connected := by
  have hwf : lineOfFive.WellFormed := by simp [Topology.WellFormed, lineOfFive]
  have hfinite : ∀ a b : Fin lineOfFive.size, lineOfFive.routes.distance a b ≠ none := by decide +kernel
  exact ⟨hwf, {
    preconnected := fun a b => by_contra fun h => hfinite a b (Topology.routes_distance_apart hwf h)
    nonempty := ⟨⟨0, by decide⟩⟩ }⟩

theorem lineOfFive_gathers :
    lineOfFive.WellFormed ∧ lineOfFive.graph.Connected ∧
    ∃ (ladder : List (Nat × Nat)) (root : Fin lineOfFive.size),
      ofIntegers lineOfFive [1, 0, 0, 1, 1] = .ok (ladder, (root : Nat)) ∧
      ([1, 0, 0, 1, 1] : List Int)[(root : Nat)]? = some 1 ∧
      (∀ g ∈ ladder, lineOfFive.hasCoupling g.1 g.2 = true) ∧
      (∀ x : Bits lineOfFive.size, Bits.afterCX ladder.reverse x root = true ↔
        Odd (Finset.univ.filter fun q : Fin lineOfFive.size =>
          ([1, 0, 0, 1, 1] : List Int)[(q : Nat)]? = some 1 ∧ x q = true).card) ∧
      ∃ T : SimpleGraph (Leg lineOfFive.size [1, 0, 0, 1, 1]),
        IsMinimumTree (branchCost fun q : Leg lineOfFive.size [1, 0, 0, 1, 1] => q.1) T ∧
        2 * ladder.length = edgeCost (branchCost fun q : Leg lineOfFive.size [1, 0, 0, 1, 1] => q.1) T := by
  obtain ⟨hwf, hconn⟩ := lineOfFive_connected
  have hbits : ∀ k ∈ ([1, 0, 0, 1, 1] : List Int), k = 0 ∨ k = 1 := by decide
  obtain ⟨hprim, hgathers⟩ := ofIntegers_gathers hwf hconn (by rfl) hbits (by decide)
  exact ⟨hwf, hconn, hgathers hprim⟩

end Ladder

end GadgetCircuits
