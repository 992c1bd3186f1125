import GadgetCircuits.Proofs.ShortestPath
import GadgetCircuits.Proofs.Topology

/-!
Steiner trees. The edges that are chosen for some terminals lie on paths between terminals and join all of
them, so on a graph without cycles they form a tree that has terminals as its leaves. A breadth-first search
of a tree uses all of its edges.
-/

namespace GadgetCircuits

open List SimpleGraph Option

namespace Graph

variable {g : Graph} {u v root : Nat}

lemma bfsEdges_of_acyclic (hg : g.Proper) (hac : g.simple.IsAcyclic) (hu : u ∈ g.reach root)
    (hv : v ∈ g.reach root) (hj : g.Joined u v) :
    (u, v) ∈ g.bfsEdges root ∨ (v, u) ∈ g.bfsEdges root := by
  by_contra hnot
  rw [not_or] at hnot
  have hgrows := bfsEdges_grows hg root
  -- Without the edge its ends would still be joined through the root.
  have hadj : ∀ e ∈ g.bfsEdges root, (g.simple.deleteEdges {s(u, v)}).Adj e.1 e.2 := by
    intro e he
    rw [deleteEdges_adj]
    refine ⟨hg.adj_iff.mpr (hgrows.joined e he), fun hsame => ?_⟩
    rcases Sym2.eq_iff.mp (Set.mem_singleton_iff.mp hsame) with ⟨h₁, h₂⟩ | ⟨h₁, h₂⟩
    · exact hnot.1 (h₁ ▸ h₂ ▸ he)
    · exact hnot.2 (h₁ ▸ h₂ ▸ he)
  have hreach : ∀ w ∈ g.reach root, (g.simple.deleteEdges {s(u, v)}).Reachable root w := by
    intro w hw
    rcases mem_cons.mp hw with rfl | hw
    · exact .refl _
    · obtain ⟨e, he, rfl⟩ := mem_map.mp hw
      refine hgrows.reachable hadj (fun w hw => ?_) e he
      rw [mem_singleton.mp hw]
  exact isAcyclic_iff_forall_adj_isBridge.mp hac (hg.adj_iff.mpr hj)
    ((hreach u hu).symm.trans (hreach v hv))

def steps (p : List Nat) : List (Nat × Nat) :=
  p.zip p.tail

lemma steps_cons_cons (a b : Nat) (p : List Nat) :
    steps (a :: b :: p) = (a, b) :: steps (b :: p) := rfl

lemma mem_steps_iff {p : List Nat} : (u, v) ∈ steps p ↔ ∃ l r, p = l ++ u :: v :: r := by
  constructor
  · intro h
    induction p with
    | nil => cases h
    | cons a p ih =>
      cases p with
      | nil => cases h
      | cons b p =>
        rw [steps_cons_cons] at h
        rcases mem_cons.mp h with h | h
        · cases h
          exact ⟨[], p, rfl⟩
        · grind
  · rintro ⟨l, r, rfl⟩
    induction l with
    | nil => exact mem_cons_self
    | cons a l ih =>
      cases l with
      | nil => exact mem_cons_of_mem _ ih
      | cons b l => exact mem_cons_of_mem _ ih

variable {e : Nat × Nat}

variable {G : SimpleGraph Nat} {adj : List (Nat × List (Nat × Nat))} {done : List Nat}
variable {ws : List (Nat × Nat × Nat)} {r : Nat × List (Nat × Nat)}

lemma reachable_of_steps {p : List Nat}
    (hG : ∀ e ∈ steps p, G.Adj e.1 e.2) (hu : p.head? = some u) :
    ∀ v ∈ p, G.Reachable u v := by
  induction p generalizing u with
  | nil => simp
  | cons a p ih =>
    cases hu
    cases p with
    | nil =>
      intro v hv
      rw [mem_singleton.mp hv]
    | cons b p =>
      rw [steps_cons_cons] at hG
      obtain ⟨hab, hG⟩ := forall_mem_cons.mp hG
      exact forall_mem_cons.mpr ⟨.refl a, fun v hv => hab.reachable.trans (ih hG rfl v hv)⟩

namespace IsPath

variable {p : List Nat}

lemma joined (h : IsPath g u v p) {e : Nat × Nat} (he : e ∈ steps p) : g.Joined e.1 e.2 := by
  obtain ⟨l, r, hp⟩ := mem_steps_iff.mp he
  exact isChain_iff_forall_rel_of_append_cons_cons.mp h.chain hp

lemma inner (h : IsPath g u v p) {w : Nat} (hw : w ∈ p) (hu : w ≠ u) (hv : w ≠ v) :
    ∃ a b, a ≠ b ∧ (a, w) ∈ steps p ∧ (w, b) ∈ steps p := by
  obtain ⟨l, r, rfl⟩ := append_of_mem hw
  obtain ⟨l, a, rfl⟩ : ∃ l' a, l = l' ++ [a] := by
    rcases eq_nil_or_concat l with rfl | ⟨l', a, rfl⟩
    · exact absurd (some.inj h.head) hu
    · exact ⟨l', a, concat_eq_append⟩
  cases r with
  | nil =>
    have hlast := h.last
    simp_all
  | cons b r =>
    refine ⟨a, b, ?_, mem_steps_iff.mpr ⟨l, b :: r, by simp⟩, mem_steps_iff.mpr ⟨l ++ [a], r, rfl⟩⟩
    rintro rfl
    exact (nodup_append.mp h.nodup).2.2 a (by simp) a (by simp) rfl

end IsPath

def Link.ends (l : Link) : Nat × Nat :=
  (l.fst, l.snd)

lemma linksFrom_sound [SetOrder] (hg : g.Proper) {ns : List Nat} (hns : ns.Nodup) :
    ∀ l ∈ g.linksFrom ns, l.fst ≠ l.snd ∧ IsPath g l.fst l.snd l.path := by
  induction ns with
  | nil => simp [linksFrom]
  | cons u ns ih =>
    obtain ⟨hu, hns⟩ := nodup_cons.mp hns
    intro l hl
    rcases mem_append.mp hl with hl | hl
    · obtain ⟨v, hv, hfound⟩ := mem_filterMap.mp hl
      obtain ⟨c, hc, rfl⟩ := map_eq_some_iff.mp hfound
      have hnode : c.node = v := by simpa using find?_some hc
      refine ⟨fun e : u = v => hu ?_, ?_⟩
      · exact e ▸ (SetOrder.perm none ns).mem_iff.mp hv
      · exact hnode ▸ (shortestPaths_spec hg u).1 c (mem_of_find?_eq_some hc)
    · exact ih hns l hl

lemma linksFrom_complete [SetOrder] (hg : g.Proper) {ns : List Nat}
    (hconn : ∀ u ∈ ns, ∀ v ∈ ns, g.simple.Reachable u v) (hu : u ∈ ns) (hv : v ∈ ns) (hne : u ≠ v) :
    ∃ l ∈ g.linksFrom ns, l.ends = (u, v) ∨ l.ends = (v, u) := by
  have hfirst : ∀ {a b : Nat} {rest : List Nat}, b ∈ rest → g.simple.Reachable a b →
      ∃ l ∈ g.linksFrom (a :: rest), l.ends = (a, b) := by
    intro a b rest hb hr
    obtain ⟨c, hc, hnode⟩ := mem_map.mp ((shortestPaths_spec hg a).2 b hr)
    obtain ⟨d, hd⟩ := isSome_iff_exists.mp (find?_isSome.mpr ⟨c, hc, by simpa using hnode⟩ :
        ((g.shortestPaths a).find? fun c => c.node == b).isSome)
    refine ⟨⟨a, b, d.dist, d.path⟩, mem_append_left _ (mem_filterMap.mpr ?_), rfl⟩
    exact ⟨b, (SetOrder.perm none rest).mem_iff.mpr hb, by rw [hd]; rfl⟩
  induction ns with
  | nil => cases hu
  | cons a ns ih =>
    have hrest := fun u hu v hv =>
      hconn u (mem_cons_of_mem a hu) v (mem_cons_of_mem a hv)
    rcases mem_cons.mp hu with hua | hu'
    · grind
    rcases mem_cons.mp hv with hva | hv'
    · grind
    · obtain ⟨l, hl, e⟩ := ih hrest hu' hv'
      exact ⟨l, mem_append_right _ hl, e⟩

lemma linkOf_spec {ls : List Link} (h : ∃ l ∈ ls, l.ends = (u, v) ∨ l.ends = (v, u)) :
    ∃ l ∈ ls, linkOf ls u v = some l ∧ (l.ends = (u, v) ∨ l.ends = (v, u)) := by
  have hends : ∀ l : Link, ((l.fst == u && l.snd == v) || (l.fst == v && l.snd == u)) ↔
      l.ends = (u, v) ∨ l.ends = (v, u) := by
    intro l
    simp [Link.ends]
  obtain ⟨l, hl, e⟩ := h
  obtain ⟨m, hm⟩ := isSome_iff_exists.mp
    (find?_isSome.mpr ⟨l, hl, (hends l).mpr e⟩ : (linkOf ls u v).isSome)
  have hfound := find?_some hm
  exact ⟨m, mem_of_find?_eq_some hm, hm, (hends m).mp hfound⟩

lemma closure_spec {ls : List Link} (hls : ∀ l ∈ ls, l.fst ≠ l.snd) :
    (closure ls).Proper ∧ ∀ a b, (closure ls).Joined a b ↔
      ∃ l ∈ ls, l.ends = (a, b) ∨ l.ends = (b, a) := by
  obtain ⟨hp, hj⟩ := foldl_addEdge_spec Link.ends Link.dist hls empty_proper
  refine ⟨hp, fun a b => (hj a b).trans (or_iff_right ?_)⟩
  intro h
  cases h

lemma row_of_mem (hg : g.Proper) (hr : r ∈ g.adj) : g.row r.1 = r.2 := by
  obtain ⟨d, hd⟩ := isSome_iff_exists.mp
    (find?_isSome.mpr ⟨r, hr, by simp⟩ : (g.adj.find? fun d => d.1 == r.1).isSome)
  have hkey : d.1 = r.1 := by simpa using find?_some hd
  have hsame := inj_on_of_nodup_map hg.nodes (mem_of_find?_eq_some hd) hr hkey
  rw [row, hd, hsame]
  rfl

lemma edgesFrom_sound {e : Nat × Nat × Nat} (h : e ∈ edgesFrom adj done) :
    ∃ r ∈ adj, r.1 = e.1 ∧ e.2 ∈ r.2 := by
  induction adj generalizing done with
  | nil => cases h
  | cons r adj ih =>
    rcases mem_append.mp h with h | h
    · grind
    · obtain ⟨r', hr', h'⟩ := ih h
      exact ⟨r', mem_cons_of_mem r hr', h'⟩

lemma mem_edgesFrom_cons (adj : List (Nat × List (Nat × Nat))) (hv : v ∉ done)
    (hmem : v ∈ r.2.map Prod.fst) :
    ∃ w, (r.1, v, w) ∈ edgesFrom (r :: adj) done := by
  obtain ⟨arc, harc, rfl⟩ := mem_map.mp hmem
  refine ⟨arc.2, mem_append_left _ (mem_map.mpr ⟨arc, mem_filter.mpr ⟨harc, ?_⟩, rfl⟩)⟩
  simpa using hv

lemma edgesFrom_complete (hu : u ∉ done) (hv : v ∉ done) (hmem : u ∈ adj.map Prod.fst)
    (huv : ∀ r ∈ adj, r.1 = u → v ∈ r.2.map Prod.fst)
    (hvu : ∀ r ∈ adj, r.1 = v → u ∈ r.2.map Prod.fst) :
    ∃ w, (u, v, w) ∈ edgesFrom adj done ∨ (v, u, w) ∈ edgesFrom adj done := by
  induction adj generalizing done with
  | nil => cases hmem
  | cons r adj ih =>
    by_cases hru : r.1 = u
    · obtain ⟨w, hw⟩ := mem_edgesFrom_cons adj hv (huv r mem_cons_self hru)
      exact ⟨w, Or.inl (hru ▸ hw)⟩
    by_cases hrv : r.1 = v
    · obtain ⟨w, hw⟩ := mem_edgesFrom_cons adj hu (hvu r mem_cons_self hrv)
      exact ⟨w, Or.inr (hrv ▸ hw)⟩
    have hnew : ∀ {x : Nat}, x ∉ done → r.1 ≠ x → x ∉ r.1 :: done := by
      intro x hx hne
      rw [mem_cons, not_or]
      exact ⟨hne.symm, hx⟩
    obtain ⟨w, hw⟩ := ih (hnew hu hru) (hnew hv hrv) ((mem_cons.mp hmem).resolve_left (Ne.symm hru))
      (fun r' hr' => huv r' (mem_cons_of_mem r hr'))
      (fun r' hr' => hvu r' (mem_cons_of_mem r hr'))
    exact ⟨w, hw.imp (mem_append_right _) (mem_append_right _)⟩

lemma weightedEdges_sound (hg : g.Proper) {e : Nat × Nat × Nat} (h : e ∈ g.weightedEdges) :
    g.Joined e.1 e.2.1 := by
  obtain ⟨r, hr, hr₁, he⟩ := edgesFrom_sound h
  rw [Joined, neighbours, ← hr₁, row_of_mem hg hr]
  exact mem_map_of_mem he

lemma weightedEdges_complete (hg : g.Proper) (h : g.Joined u v) :
    ∃ w, (u, v, w) ∈ g.weightedEdges ∨ (v, u, w) ∈ g.weightedEdges := by
  have hrow : ∀ {a b}, g.Joined a b → ∀ r ∈ g.adj, r.1 = a → b ∈ r.2.map Prod.fst := by
    intro a b hj r hr hra
    rwa [Joined, neighbours, ← hra, row_of_mem hg hr] at hj
  exact edgesFrom_complete not_mem_nil not_mem_nil h.mem_nodes (hrow h) (hrow (hg.symm h))

lemma joinTrees_subset {tree : Nat → Nat} (h : e ∈ joinTrees ws tree) :
    ∃ w, (e.1, e.2, w) ∈ ws := by
  induction ws generalizing tree with
  | nil => cases h
  | cons k ws ih =>
    rw [joinTrees] at h
    grind

lemma joinTrees_spans {tree : Nat → Nat} (htree : ∀ x y, tree x = tree y → G.Reachable x y)
    (hG : ∀ e ∈ joinTrees ws tree, G.Reachable e.1 e.2) :
    ∀ e ∈ ws, G.Reachable e.1 e.2.1 := by
  induction ws generalizing tree with
  | nil => simp
  | cons k ws ih =>
    obtain ⟨u, v, w⟩ := k
    rw [joinTrees] at hG
    split at hG
    · rename_i hsame
      exact forall_mem_cons.mpr ⟨htree u v hsame, ih htree hG⟩
    · obtain ⟨huv, hG⟩ := forall_mem_cons.mp hG
      refine forall_mem_cons.mpr ⟨huv, ih (fun x y hxy => ?_) hG⟩
      by_cases hx : tree x = tree v <;> by_cases hy : tree y = tree v
      · exact htree x y (hx.trans hy.symm)
      · rw [if_pos hx, if_neg hy] at hxy
        exact ((htree x v hx).trans huv.symm).trans (htree u y hxy)
      · rw [if_neg hx, if_pos hy] at hxy
        exact ((htree x u hxy).trans huv).trans (htree v y hy.symm)
      · rw [if_neg hx, if_neg hy] at hxy
        exact htree x y hxy

lemma kruskal_sound (hg : g.Proper) (h : e ∈ g.kruskal) : g.Joined e.1 e.2 := by
  obtain ⟨w, hw⟩ := joinTrees_subset h
  exact weightedEdges_sound hg (mem_mergeSort.mp hw)

lemma kruskal_spans (hg : g.Proper)
    (hG : ∀ e ∈ g.kruskal, G.Reachable e.1 e.2) (h : g.Joined u v) : G.Reachable u v := by
  have hall := joinTrees_spans (fun x y (e : x = y) => e ▸ .refl x) hG
  obtain ⟨w, hw | hw⟩ := weightedEdges_complete hg h
  · exact hall _ (mem_mergeSort.mpr hw)
  · exact (hall _ (mem_mergeSort.mpr hw)).symm

section Union

variable [SetOrder]

def steinerEdges (g : Graph) (terminals : List Nat) : List (Nat × Nat) :=
  ((closure g.links).subgraph terminals).kruskal.flatMap fun e =>
    ((linkOf g.links e.1 e.2).map fun l => steps l.path).getD []

variable (hg : g.Proper)
include hg

lemma links_sound : ∀ l ∈ g.links, l.fst ≠ l.snd ∧ IsPath g l.fst l.snd l.path :=
  linksFrom_sound hg hg.nodes

lemma terminalGraph_spec (terminals : List Nat) :
    ((closure g.links).subgraph terminals).Proper ∧
      ∀ a b, ((closure g.links).subgraph terminals).Joined a b ↔
        a ∈ terminals ∧ b ∈ terminals ∧ ∃ l ∈ g.links, l.ends = (a, b) ∨ l.ends = (b, a) := by
  obtain ⟨hcp, hcj⟩ := closure_spec fun l hl => (links_sound hg l hl).1
  obtain ⟨hsp, -, hsj⟩ := subgraph_spec hcp terminals
  refine ⟨hsp, fun a b => ?_⟩
  rw [hsj, hcj]

variable {terminals : List Nat}

lemma steinerEdges_of_kruskal {k : Nat × Nat}
    (hk : k ∈ ((closure g.links).subgraph terminals).kruskal) :
    ∃ l, linkOf g.links k.1 k.2 = some l ∧ (l.ends = (k.1, k.2) ∨ l.ends = (k.2, k.1)) ∧
      l.fst ∈ terminals ∧ l.snd ∈ terminals ∧ IsPath g l.fst l.snd l.path ∧
      ∀ e ∈ steps l.path, e ∈ g.steinerEdges terminals := by
  obtain ⟨hp, hj⟩ := terminalGraph_spec hg terminals
  obtain ⟨h₁, h₂, hlink⟩ := (hj _ _).mp (kruskal_sound hp hk)
  obtain ⟨l, hl, hfound, hends⟩ := linkOf_spec hlink
  have hterminals : l.fst ∈ terminals ∧ l.snd ∈ terminals := by
    rcases hends with hends | hends
    · obtain ⟨e₁, e₂⟩ := Prod.mk.inj hends
      exact ⟨e₁ ▸ h₁, e₂ ▸ h₂⟩
    · obtain ⟨e₁, e₂⟩ := Prod.mk.inj hends
      exact ⟨e₁ ▸ h₂, e₂ ▸ h₁⟩
  refine ⟨l, hfound, hends, hterminals.1, hterminals.2, (links_sound hg l hl).2, fun e he => ?_⟩
  refine mem_flatMap.mpr ⟨k, hk, ?_⟩
  rwa [hfound]

lemma steinerEdges_path
    (he : e ∈ g.steinerEdges terminals) :
    ∃ a ∈ terminals, ∃ b ∈ terminals, ∃ p, IsPath g a b p ∧ e ∈ steps p ∧
      ∀ f ∈ steps p, f ∈ g.steinerEdges terminals := by
  obtain ⟨k, hk, hek⟩ := mem_flatMap.mp he
  obtain ⟨l, hfound, -, ha, hb, hpath, hsteps⟩ := steinerEdges_of_kruskal hg hk
  rw [hfound] at hek
  exact ⟨l.fst, ha, l.snd, hb, l.path, hpath, hek, hsteps⟩

lemma steinerEdges_spans (hconn : ∀ u ∈ g.nodes, ∀ v ∈ g.nodes, g.simple.Reachable u v)
    (hnodes : ∀ v ∈ terminals, v ∈ g.nodes)
    (hG : ∀ e ∈ g.steinerEdges terminals, G.Adj e.1 e.2) (hu : u ∈ terminals) (hv : v ∈ terminals) :
    G.Reachable u v := by
  obtain ⟨hp, hj⟩ := terminalGraph_spec hg terminals
  by_cases hne : u = v
  · exact hne ▸ .refl u
  have hlink := linksFrom_complete hg hconn (hnodes u hu) (hnodes v hv) hne
  refine kruskal_spans hp (fun k hk => ?_) ((hj u v).mpr ⟨hu, hv, hlink⟩)
  obtain ⟨l, -, hends, -, -, hpath, hsteps⟩ := steinerEdges_of_kruskal hg hk
  have hreach : G.Reachable l.fst l.snd :=
    reachable_of_steps (fun e he => hG e (hsteps e he)) hpath.head _ (mem_of_getLast? hpath.last)
  rcases hends with hends | hends
  · obtain ⟨e₁, e₂⟩ := Prod.mk.inj hends
    rwa [e₁, e₂] at hreach
  · obtain ⟨e₁, e₂⟩ := Prod.mk.inj hends
    rw [e₁, e₂] at hreach
    exact hreach.symm

omit hg

lemma joined_of_steinerEdges (hg : g.Proper) {e : Nat × Nat} (he : e ∈ g.steinerEdges terminals) :
    (g.edgeSubgraph (g.steinerEdges terminals)).Joined e.1 e.2 := by
  obtain ⟨a, -, b, -, p, hpath, hep, -⟩ := steinerEdges_path hg he
  exact ((edgeSubgraph_spec hg _).2.2 _ _).mpr ⟨hpath.joined hep, Or.inl he⟩

lemma steinerEdges_node (hg : g.Proper)
    (hv : v ∈ (g.edgeSubgraph (g.steinerEdges terminals)).nodes) :
    ∃ a ∈ terminals, ∃ b ∈ terminals, ∃ p, IsPath g a b p ∧ v ∈ p ∧
      ∀ e ∈ steps p, (g.edgeSubgraph (g.steinerEdges terminals)).Joined e.1 e.2 := by
  obtain ⟨⟨e, he, hve⟩, -⟩ := ((edgeSubgraph_spec hg _).2.1 v).mp hv
  obtain ⟨a, ha, b, hb, p, hpath, hep, hsteps⟩ := steinerEdges_path hg he
  refine ⟨a, ha, b, hb, p, hpath, ?_, fun f hf => joined_of_steinerEdges hg (hsteps f hf)⟩
  obtain ⟨l, r, rfl⟩ := mem_steps_iff.mp hep
  rcases hve with rfl | rfl <;> simp

lemma steinerEdges_leaves (hg : g.Proper)
    (hv : v ∈ (g.edgeSubgraph (g.steinerEdges terminals)).nodes)
    (hone : ((g.edgeSubgraph (g.steinerEdges terminals)).neighbours v).length = 1) :
    v ∈ terminals := by
  by_contra hnot
  obtain ⟨hp, -, -⟩ := edgeSubgraph_spec hg (g.steinerEdges terminals)
  obtain ⟨a, ha, b, hb, p, hpath, hvp, hsteps⟩ := steinerEdges_node hg hv
  obtain ⟨x, y, hxy, hx, hy⟩ := hpath.inner hvp (fun e => hnot (e ▸ ha)) (fun e => hnot (e ▸ hb))
  obtain ⟨w, hw⟩ := length_eq_one_iff.mp hone
  have hall : ∀ z, (g.edgeSubgraph (g.steinerEdges terminals)).Joined v z → z = w := by
    intro z hz
    rw [Joined, hw] at hz
    exact mem_singleton.mp hz
  exact hxy ((hall x (hp.symm (hsteps _ hx))).trans (hall y (hsteps _ hy)).symm)

variable (hconn : ∀ u ∈ g.nodes, ∀ v ∈ g.nodes, g.simple.Reachable u v)
  (hnodes : ∀ v ∈ terminals, v ∈ g.nodes)

include hg hconn hnodes

lemma terminals_reachable (hu : u ∈ terminals) (hv : v ∈ terminals) :
    (g.edgeSubgraph (g.steinerEdges terminals)).simple.Reachable u v :=
  steinerEdges_spans hg hconn hnodes
    (fun _ he => (edgeSubgraph_spec hg _).1.adj_iff.mpr (joined_of_steinerEdges hg he)) hu hv

lemma steinerEdges_connected : ∀ u ∈ (g.edgeSubgraph (g.steinerEdges terminals)).nodes,
    ∀ v ∈ (g.edgeSubgraph (g.steinerEdges terminals)).nodes,
      (g.edgeSubgraph (g.steinerEdges terminals)).simple.Reachable u v := by
  obtain ⟨hp, -, -⟩ := edgeSubgraph_spec hg (g.steinerEdges terminals)
  have hreach : ∀ v ∈ (g.edgeSubgraph (g.steinerEdges terminals)).nodes,
      ∃ a ∈ terminals, (g.edgeSubgraph (g.steinerEdges terminals)).simple.Reachable a v := by
    intro v hv
    obtain ⟨a, ha, b, -, p, hpath, hvp, hsteps⟩ := steinerEdges_node hg hv
    refine ⟨a, ha, reachable_of_steps (fun e he => ?_) hpath.head v hvp⟩
    exact hp.adj_iff.mpr (hsteps e he)
  intro u hu v hv
  obtain ⟨a, ha, hau⟩ := hreach u hu
  obtain ⟨b, hb, hbv⟩ := hreach v hv
  exact (hau.symm.trans (terminals_reachable hg hconn hnodes ha hb)).trans hbv

lemma steinerEdges_spanning (hu : u ∈ terminals) (hv : v ∈ terminals) (hne : u ≠ v) :
    u ∈ (g.edgeSubgraph (g.steinerEdges terminals)).nodes := by
  obtain ⟨hp, -, -⟩ := edgeSubgraph_spec hg (g.steinerEdges terminals)
  obtain ⟨walk⟩ := terminals_reachable hg hconn hnodes hu hv
  cases walk with
  | nil => exact absurd rfl hne
  | cons hadj _ => exact (hp.adj_iff.mp hadj).mem_nodes

end Union

/-- A tree that contains the terminals and has no other leaves. -/
structure Spans (tree : Graph) (terminals : List Nat) : Prop where
  acyclic : tree.simple.IsAcyclic
  linked : tree.Linked
  spanning : ∀ v ∈ terminals, v ∈ tree.nodes
  leaves : ∀ v ∈ tree.nodes, (tree.neighbours v).length = 1 → v ∈ terminals

namespace Spans

variable {tree : Graph} {terminals : List Nat}

lemma mem_reach (h : tree.Spans terminals) (hp : tree.Proper) (hr : root ∈ tree.nodes) :
    v ∈ tree.reach root ↔ v ∈ tree.nodes := by
  rw [Graph.mem_reach hp hr]
  constructor
  · rintro ⟨w⟩
    cases w.reverse with
    | nil => exact hr
    | cons hadj _ => exact (hp.adj_iff.mp hadj).mem_nodes
  · exact h.linked root hr v

lemma terminal_or_left (h : tree.Spans terminals) (hp : tree.Proper)
    (hr : root ∈ tree.nodes) {e : Nat × Nat} (he : e ∈ tree.bfsEdges root) :
    (∃ f ∈ tree.bfsEdges root, f.1 = e.2) ∨ e.2 ∈ terminals := by
  have hgrows := bfsEdges_grows hp root
  have hback := hp.symm (hgrows.joined e he)
  by_cases hone : (tree.neighbours e.2).length = 1
  · exact Or.inr (h.leaves e.2 hback.mem_nodes hone)
  · obtain ⟨w, hw, hne⟩ : ∃ w, tree.Joined e.2 w ∧ w ≠ e.1 := by
      by_contra hnone
      push Not at hnone
      have hperm : (tree.neighbours e.2).Perm [e.1] := by
        refine (perm_ext_iff_of_nodup (hp.neighbours e.2) (nodup_singleton e.1)).mpr ?_
        intro w
        rw [mem_singleton]
        exact ⟨hnone w, fun hw => hw ▸ hback⟩
      exact hone hperm.length_eq
    have hreach := fun v => h.mem_reach hp hr (v := v)
    rcases bfsEdges_of_acyclic hp h.acyclic ((hreach _).mpr hw.mem_nodes)
      ((hreach _).mpr (hp.mem_nodes hw)) hw with hmem | hmem
    · exact Or.inl ⟨_, hmem, rfl⟩
    · have hsame := inj_on_of_nodup_map hgrows.goals_nodup hmem he rfl
      exact absurd (congrArg Prod.fst hsame) hne

end Spans

/-- A tree of edges of a graph that contains the terminals and has no other leaves. -/
structure IsSteinerTree (g : Graph) (terminals : List Nat) (tree : Graph) : Prop
    extends tree.Spans terminals where
  proper : tree.Proper
  joined : ∀ u v, tree.Joined u v → g.Joined u v

lemma IsSteinerTree.mem_nodes {terminals : List Nat} {tree : Graph} (h : g.IsSteinerTree terminals tree)
    (hr : root ∈ terminals) (hroot : root ∈ g.nodes) (hv : v ∈ tree.nodes) : v ∈ g.nodes := by
  obtain ⟨walk⟩ := h.linked v hv root (h.spanning root hr)
  cases walk with
  | nil => exact hroot
  | cons hadj _ => exact (h.joined _ _ (h.proper.adj_iff.mp hadj)).mem_nodes

/-- Terminals are joined by a Steiner tree. A single one may be left out of it, as it needs no edge. -/
def FindsTrees (find : Graph → List Nat → Except Error Graph) (g : Graph) : Prop :=
  ∀ terminals, terminals ≠ [] → (∀ v ∈ terminals, v ∈ g.nodes) → ∃ tree, find g terminals = .ok tree ∧
    (g.IsSteinerTree terminals tree ∨ tree.nodes = [] ∧ ∀ u ∈ terminals, ∀ v ∈ terminals, u = v)

lemma isConnected_of_linked (hg : g.Proper) (h : g.Linked) : g.isConnected := by
  unfold isConnected
  split
  · rfl
  · rename_i u rest hn
    have hu : u ∈ g.nodes := hn ▸ mem_cons_self
    refine all_eq_true.mpr fun v hv => ?_
    rw [contains_iff_mem, mem_reach hg hu]
    exact h u hu v hv

section Chosen

variable [SetOrder]

lemma steinerTree_eq (hg : g.Proper) (hl : g.Linked) (hne : g.nodes ≠ []) (terminals : List Nat) :
    g.steinerTree terminals = .ok (g.edgeSubgraph (g.steinerEdges terminals)) := by
  have hadj : ¬ g.adj.isEmpty := fun h => hne (isEmpty_adj_iff.mp h)
  rw [steinerTree, if_neg hadj, if_neg (by simp [isConnected_of_linked hg hl])]
  rfl

lemma steinerEdges_single (hg : g.Proper) {terminals : List Nat}
    (h : ∀ u ∈ terminals, ∀ v ∈ terminals, u = v) : g.steinerEdges terminals = [] := by
  obtain ⟨hp, hj⟩ := terminalGraph_spec hg terminals
  have hnone : ((closure g.links).subgraph terminals).kruskal = [] := by
    refine eq_nil_iff_forall_not_mem.mpr fun k hk => ?_
    have hjoined := kruskal_sound hp hk
    obtain ⟨h₁, h₂, -⟩ := (hj _ _).mp hjoined
    rw [h _ h₁ _ h₂] at hjoined
    exact hp.irrefl _ hjoined
  rw [steinerEdges, hnone, flatMap_nil]

theorem findsTrees_of_acyclic (hg : g.Proper) (hl : g.Linked) (hac : g.simple.IsAcyclic) :
    FindsTrees Graph.steinerTree g := by
  intro terminals hsome hnodes
  obtain ⟨a, ha⟩ := exists_mem_of_ne_nil terminals hsome
  obtain ⟨hp, hn, hj⟩ := edgeSubgraph_spec hg (g.steinerEdges terminals)
  refine ⟨_, steinerTree_eq hg hl (ne_nil_of_mem (hnodes a ha)) terminals, ?_⟩
  by_cases hone : ∀ u ∈ terminals, ∀ v ∈ terminals, u = v
  · refine .inr ⟨eq_nil_iff_forall_not_mem.mpr fun v hv => ?_, hone⟩
    obtain ⟨⟨e, he, -⟩, -⟩ := (hn v).mp hv
    rw [steinerEdges_single hg hone] at he
    cases he
  · push Not at hone
    obtain ⟨u, hu, w, hw, huw⟩ := hone
    refine .inl ⟨⟨?_, ?_, fun v hv => ?_, fun v => ?_⟩, hp, fun a b h => ((hj a b).mp h).1⟩
    · refine hac.anti fun a b hab => hg.adj_iff.mpr ?_
      exact ((hj a b).mp (hp.adj_iff.mp hab)).1
    · exact steinerEdges_connected hg hl hnodes
    · by_cases hvu : v = u
      · exact steinerEdges_spanning hg hl hnodes hv hw (hvu ▸ huw)
      · exact steinerEdges_spanning hg hl hnodes hv hu hvu
    · exact steinerEdges_leaves hg

end Chosen

end Graph

namespace Topology

variable {t : Topology} (ht : t.WellFormed)
include ht

lemma toGraph_simple : t.toGraph.simple = t.within t.qubits := by
  obtain ⟨hp, -, hj⟩ := toGraph_spec ht
  ext u v
  rw [hp.adj_iff, hj]
  constructor
  · intro h
    obtain ⟨hne, hu, hv⟩ := ends_of_hasCoupling ht h
    exact ⟨mem_range.mpr hu, mem_range.mpr hv, hne, h⟩
  · exact fun h => h.2.2.2

lemma toGraph_linked (hl : t.Linked t.qubits) : t.toGraph.Linked := by
  rw [Graph.Linked, toGraph_simple ht, (toGraph_spec ht).2.1]
  exact hl

omit ht

lemma within_acyclic (hac : t.graph.IsAcyclic) : (t.within t.qubits).IsAcyclic := by
  refine isAcyclic_iff_forall_adj_isBridge.mpr fun a b hab hreach => ?_
  have hlt : ∀ {q}, q ∈ t.qubits → q < t.size := mem_range.mp
  let a' : Fin t.size := ⟨a, hlt hab.1⟩
  let b' : Fin t.size := ⟨b, hlt hab.2.1⟩
  let f : Nat → Fin t.size := fun q => if h : q < t.size then ⟨q, h⟩ else a'
  have hf : ∀ {q} (hq : q < t.size), f q = ⟨q, hq⟩ := fun hq => dif_pos hq
  have hhom : ∀ {x y}, ((t.within t.qubits).deleteEdges {s(a, b)}).Adj x y →
      (t.graph.deleteEdges {s(a', b')}).Adj (f x) (f y) := by
    intro x y h
    rw [deleteEdges_adj] at h ⊢
    obtain ⟨⟨hx, hy, hne, hc⟩, hnot⟩ := h
    rw [hf (hlt hx), hf (hlt hy)]
    refine ⟨⟨fun e => hne (congrArg Fin.val e), hc⟩, fun e => hnot ?_⟩
    exact congrArg (Sym2.map Fin.val) (Set.mem_singleton_iff.mp e)
  have hab' : t.graph.Adj a' b' := ⟨fun e => hab.2.2.1 (congrArg Fin.val e), hab.2.2.2⟩
  refine isAcyclic_iff_forall_adj_isBridge.mp hac hab' ?_
  have hmap := hreach.map ⟨f, hhom⟩
  change (t.graph.deleteEdges {s(a', b')}).Reachable (f a) (f b) at hmap
  rwa [hf (hlt hab.1), hf (hlt hab.2.1)] at hmap

end Topology

end GadgetCircuits
