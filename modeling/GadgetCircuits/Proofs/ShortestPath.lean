import GadgetCircuits.Graph.Steiner
import GadgetCircuits.Proofs.Graph

/-!
The search for shortest paths. Every path that is settled visits distinct nodes over edges, and every node
that can be reached is settled, since each round pays for its new candidates with the arcs of the node that
it settles. That the paths are shortest is not used.
-/

open List

namespace GadgetCircuits.Graph

open Candidate

variable {g : Graph} {source u v : Nat} {done done' : List Nat}

structure IsPath (g : Graph) (u v : Nat) (p : List Nat) : Prop where
  chain : p.IsChain g.Joined
  nodup : p.Nodup
  head : p.head? = some u
  last : p.getLast? = some v

lemma IsPath.single (g : Graph) (u : Nat) : IsPath g u u [u] :=
  ⟨.singleton u, nodup_singleton u, rfl, rfl⟩

lemma IsPath.concat {p : List Nat} {w : Nat} (h : IsPath g u v p) (hj : g.Joined v w) (hw : w ∉ p) :
    IsPath g u w (p ++ [w]) where
  chain := by
    refine isChain_append.mpr ⟨h.chain, .singleton w, fun x hx y hy => ?_⟩
    rw [h.last] at hx
    cases hx
    cases hy
    exact hj
  nodup := concat_eq_append ▸ h.nodup.concat hw
  head := by rw [head?_append, h.head, Option.some_or]
  last := by rw [getLast?_append, getLast?_singleton, Option.some_or]

lemma popNearest_none {cs : List Candidate} (h : popNearest cs = none) : cs = [] := by
  cases cs with
  | nil => rfl
  | cons c rest =>
    rw [popNearest] at h
    split at h
    · cases h
    · split at h <;> cases h

lemma popNearest_perm {cs rest : List Candidate} {c : Candidate}
    (h : popNearest cs = some (c, rest)) : cs.Perm (c :: rest) := by
  induction cs generalizing c rest with
  | nil => cases h
  | cons d ds ih =>
    rw [popNearest] at h
    split at h
    · rename_i hnone
      cases h
      rw [popNearest_none hnone]
    · rename_i e others hsome
      split at h
      · cases h
        exact (ih hsome).cons _
      · cases h
        exact ((ih hsome).cons d).trans (.swap _ d others)

namespace Search

variable {s : Search} {c : Candidate} {arc : Nat × Nat}

def nodes (s : Search) : List Nat :=
  s.settled.map node

def Known (s : Search) (v : Nat) : Prop :=
  v ∈ s.nodes ∨ v ∈ s.fringe.map node

/-- Settled paths run through settled nodes, candidates do so up to their last node, and every node
that has been seen is known. -/
structure Valid (g : Graph) (source : Nat) (s : Search) : Prop where
  settled : ∀ c ∈ s.settled, IsPath g source c.node c.path ∧ ∀ v ∈ c.path, v ∈ s.nodes
  fringe : ∀ c ∈ s.fringe, IsPath g source c.node c.path ∧ ∀ v ∈ c.path, v ≠ c.node → v ∈ s.nodes
  seen : ∀ p ∈ s.seen, s.Known p.1

lemma relax_cases (s : Search) (c : Candidate) (arc : Nat × Nat) :
    (s.relax c arc = s ∧ (arc.1 ∈ s.nodes ∨ arc.1 ∈ s.seen.map Prod.fst)) ∨
    (arc.1 ∉ s.nodes ∧ s.relax c arc = { s with
      seen := (arc.1, c.dist + arc.2) :: s.seen.filter fun p => p.1 != arc.1
      fringe := ⟨c.dist + arc.2, s.count, arc.1, c.path ++ [arc.1]⟩ :: s.fringe
      count := s.count + 1 }) := by
  unfold relax
  split
  · rename_i h
    obtain ⟨d, hd, e⟩ := any_eq_true.mp h
    exact Or.inl ⟨rfl, Or.inl (mem_map.mpr ⟨d, hd, by simpa using e⟩)⟩
  · rename_i hnot
    dsimp only
    split
    · grind
    · refine Or.inr ⟨fun hmem => hnot ?_, rfl⟩
      obtain ⟨d, hd, e⟩ := mem_map.mp hmem
      exact any_eq_true.mpr ⟨d, hd, by simpa using e⟩

lemma relax_spec (h : s.Valid g source) (hc : c ∈ s.settled) (harc : g.Joined c.node arc.1) :
    (s.relax c arc).Valid g source ∧ (s.relax c arc).settled = s.settled ∧
      (∀ v, s.Known v → (s.relax c arc).Known v) ∧ (s.relax c arc).Known arc.1 ∧
      (s.relax c arc).fringe.length ≤ s.fringe.length + 1 := by
  rcases relax_cases s c arc with ⟨e, hknown⟩ | ⟨hnew, e⟩
  · rw [e]
    refine ⟨h, rfl, fun _ hv => hv, ?_, Nat.le_succ _⟩
    rcases hknown with hmem | hmem
    · exact Or.inl hmem
    · obtain ⟨p, hp, e⟩ := mem_map.mp hmem
      exact e ▸ h.seen p hp
  · obtain ⟨hpath, hsettled⟩ := h.settled c hc
    have hmono : ∀ v, s.Known v → (s.relax c arc).Known v := by
      rw [e]
      exact fun v => Or.imp_right (mem_cons_of_mem _)
    have harc' : (s.relax c arc).Known arc.1 := by
      rw [e]
      exact Or.inr mem_cons_self
    refine ⟨?_, by rw [e], hmono, harc', by rw [e]; exact Nat.le_refl _⟩
    rw [e] at hmono harc' ⊢
    refine ⟨h.settled, ?_, ?_⟩
    · refine forall_mem_cons.mpr ⟨⟨hpath.concat harc fun hmem => hnew (hsettled _ hmem), ?_⟩,
        h.fringe⟩
      intro v hv hne
      rcases mem_append.mp hv with hv | hv
      · exact hsettled v hv
      · exact absurd (mem_singleton.mp hv) hne
    · refine forall_mem_cons.mpr ⟨harc', fun p hp => hmono _ (h.seen p ?_)⟩
      exact mem_of_mem_filter hp

lemma relaxAll_spec (h : s.Valid g source) (hc : c ∈ s.settled) {arcs : List (Nat × Nat)}
    (harcs : ∀ a ∈ arcs, g.Joined c.node a.1) :
    (arcs.foldl (fun s a => s.relax c a) s).Valid g source ∧
      (arcs.foldl (fun s a => s.relax c a) s).settled = s.settled ∧
      (∀ v, s.Known v → (arcs.foldl (fun s a => s.relax c a) s).Known v) ∧
      (∀ a ∈ arcs, (arcs.foldl (fun s a => s.relax c a) s).Known a.1) ∧
      (arcs.foldl (fun s a => s.relax c a) s).fringe.length ≤ s.fringe.length + arcs.length := by
  induction arcs generalizing s with
  | nil => exact ⟨h, rfl, fun _ hv => hv, by simp, Nat.le_refl _⟩
  | cons a arcs ih =>
    obtain ⟨ha, harcs⟩ := forall_mem_cons.mp harcs
    obtain ⟨h₁, hsame₁, hmono₁, ha₁, hlen₁⟩ := relax_spec h hc ha
    grind

lemma settle_valid (h : s.Valid g source) {rest : List Candidate}
    (hpop : s.fringe.Perm (c :: rest)) :
    ({ s with settled := s.settled ++ [c], fringe := rest } : Search).Valid g source ∧
      ∀ v, s.Known v → ({ s with settled := s.settled ++ [c], fringe := rest } : Search).Known v := by
  generalize hs' : ({ s with settled := s.settled ++ [c], fringe := rest } : Search) = s'
  have hnodes : ∀ v, v ∈ s'.nodes ↔ v ∈ s.nodes ∨ v = c.node := by
    intro v
    simp [← hs', nodes]
  have hknown : ∀ v, s.Known v → s'.Known v := by
    rintro v (hv | hv)
    · exact Or.inl ((hnodes v).mpr (Or.inl hv))
    · rw [(hpop.map node).mem_iff] at hv
      rcases mem_cons.mp hv with hv | hv
      · exact Or.inl ((hnodes v).mpr (Or.inr hv))
      · exact Or.inr (by rw [← hs']; exact hv)
  refine ⟨⟨?_, ?_, ?_⟩, hknown⟩
  · intro d hd
    rw [← hs'] at hd
    rcases mem_append.mp hd with hd | hd
    · obtain ⟨hpath, hmem⟩ := h.settled d hd
      exact ⟨hpath, fun v hv => (hnodes v).mpr (Or.inl (hmem v hv))⟩
    · rw [mem_singleton.mp hd]
      obtain ⟨hpath, hmem⟩ := h.fringe c (hpop.mem_iff.mpr mem_cons_self)
      grind
  · intro d hd
    rw [← hs'] at hd
    obtain ⟨hpath, hmem⟩ := h.fringe d (hpop.mem_iff.mpr (mem_cons_of_mem c hd))
    exact ⟨hpath, fun v hv hne => (hnodes v).mpr (Or.inl (hmem v hv hne))⟩
  · intro p hp
    rw [← hs'] at hp
    exact hknown _ (h.seen p hp)

lemma Known.mem_nodes (h : s.Known v) (hs : s.fringe = []) : v ∈ s.nodes := by
  refine h.resolve_right ?_
  rw [hs]
  exact not_mem_nil

end Search

def arcsBeyond (adj : List (Nat × List (Nat × Nat))) (done : List Nat) : Nat :=
  natSum ((adj.filter fun r => !done.contains r.1).map fun r => r.2.length)

lemma arcsBeyond_cons (r : Nat × List (Nat × Nat)) (adj : List (Nat × List (Nat × Nat)))
    (done : List Nat) : arcsBeyond (r :: adj) done =
      (if r.1 ∈ done then 0 else r.2.length) + arcsBeyond adj done := by
  by_cases h : r.1 ∈ done
  · simp [arcsBeyond, h]
  · simp [arcsBeyond, h, natSum]

lemma arcsBeyond_mono (adj : List (Nat × List (Nat × Nat))) (h : ∀ v ∈ done, v ∈ done') :
    arcsBeyond adj done' ≤ arcsBeyond adj done := by
  induction adj with
  | nil => exact Nat.le_refl _
  | cons r adj ih =>
    rw [arcsBeyond_cons, arcsBeyond_cons]
    grind

lemma arcsBeyond_of_new (g : Graph) (hv : v ∉ done) (h : ∀ u, u ∈ done' ↔ u ∈ done ∨ u = v) :
    arcsBeyond g.adj done' + (g.row v).length ≤ arcsBeyond g.adj done := by
  obtain ⟨adj⟩ := g
  have hsub : ∀ u ∈ done, u ∈ done' := fun u hu => (h u).mpr (Or.inl hu)
  induction adj with
  | nil => exact Nat.le_refl _
  | cons r adj ih =>
    simp only [arcsBeyond_cons, row, find?_cons] at ih ⊢
    grind

namespace Search

variable {s : Search} {c : Candidate} {rest : List Candidate}

/-- Between rounds the source and all neighbours of settled nodes are known. -/
structure Ready (g : Graph) (source : Nat) (s : Search) : Prop extends Valid g source s where
  closed : ∀ u ∈ s.nodes, ∀ v, g.Joined u v → s.Known v
  started : s.Known source

def rounds (g : Graph) (s : Search) : Nat :=
  s.fringe.length + arcsBeyond g.adj s.nodes

lemma Ready.drop (h : s.Ready g source) (hpop : s.fringe.Perm (c :: rest)) (hc : c.node ∈ s.nodes) :
    ({ s with fringe := rest } : Search).Ready g source ∧
      ({ s with fringe := rest } : Search).rounds g < s.rounds g := by
  have hknown : ∀ v, s.Known v → ({ s with fringe := rest } : Search).Known v := by
    rintro v (hv | hv)
    · exact Or.inl hv
    · rw [(hpop.map node).mem_iff] at hv
      rcases mem_cons.mp hv with hv | hv
      · exact Or.inl (hv ▸ hc)
      · exact Or.inr hv
  refine ⟨⟨⟨h.settled, fun d hd => ?_, fun p hp => hknown _ (h.seen p hp)⟩,
    fun u hu v hj => hknown v (h.closed u hu v hj), hknown _ h.started⟩, ?_⟩
  · exact h.fringe d (hpop.mem_iff.mpr (mem_cons_of_mem c hd))
  · have hlen := hpop.length_eq
    rw [length_cons] at hlen
    change rest.length + arcsBeyond g.adj s.nodes < s.fringe.length + arcsBeyond g.adj s.nodes
    omega

lemma Ready.settle (h : s.Ready g source) (hpop : s.fringe.Perm (c :: rest))
    (hc : c.node ∉ s.nodes) :
    ((g.row c.node).foldl (fun (s : Search) a => s.relax c a)
      { s with settled := s.settled ++ [c], fringe := rest }).Ready g source ∧
    ((g.row c.node).foldl (fun (s : Search) a => s.relax c a)
      { s with settled := s.settled ++ [c], fringe := rest }).rounds g < s.rounds g := by
  have hnodes : ∀ u, u ∈ (s.settled ++ [c]).map node ↔ u ∈ s.nodes ∨ u = c.node := by
    intro u
    simp [nodes]
  obtain ⟨h₁, hmono₁⟩ := settle_valid h.toValid hpop
  have hrow : ∀ a ∈ g.row c.node, g.Joined c.node a.1 := fun a ha => mem_map_of_mem ha
  obtain ⟨h₂, hsame, hmono₂, harcs, hlen₂⟩ := relaxAll_spec h₁
    (mem_append_right s.settled (mem_singleton_self c)) hrow
  refine ⟨⟨h₂, ?_, hmono₂ _ (hmono₁ _ h.started)⟩, ?_⟩
  · intro u hu v hj
    rw [nodes, hsame, hnodes] at hu
    rcases hu with hu | rfl
    · exact hmono₂ v (hmono₁ v (h.closed u hu v hj))
    · obtain ⟨a, ha, rfl⟩ := mem_map.mp hj
      exact harcs a ha
  · have hpaid := arcsBeyond_of_new g hc hnodes
    have hlen := hpop.length_eq
    rw [length_cons] at hlen
    rw [rounds, rounds, nodes, hsame]
    dsimp only at hlen₂ ⊢
    omega

end Search

lemma searchLoop_spec (g : Graph) {fuel : Nat} {s : Search} (h : s.Ready g source)
    (hfuel : s.rounds g ≤ fuel) :
    (∀ c ∈ searchLoop g fuel s, IsPath g source c.node c.path) ∧
      source ∈ (searchLoop g fuel s).map node ∧
      ∀ u ∈ (searchLoop g fuel s).map node, ∀ v, g.Joined u v →
        v ∈ (searchLoop g fuel s).map node := by
  induction fuel generalizing s with
  | zero =>
    have hempty : s.fringe = [] := by
      rw [Search.rounds] at hfuel
      exact eq_nil_of_length_eq_zero (by omega)
    exact ⟨fun c hc => (h.settled c hc).1, h.started.mem_nodes hempty,
      fun u hu v hj => (h.closed u hu v hj).mem_nodes hempty⟩
  | succ fuel ih =>
    rw [searchLoop]
    cases hpop : popNearest s.fringe with
    | none =>
      have hempty := popNearest_none hpop
      exact ⟨fun c hc => (h.settled c hc).1, h.started.mem_nodes hempty,
        fun u hu v hj => (h.closed u hu v hj).mem_nodes hempty⟩
    | some found =>
      obtain ⟨c, rest⟩ := found
      have hperm := popNearest_perm hpop
      have hold : (s.settled.any fun d => d.node == c.node) ↔ c.node ∈ s.nodes := by
        simp [Search.nodes]
      dsimp only
      split
      · rename_i hc
        obtain ⟨h₁, hless⟩ := h.drop hperm (hold.mp hc)
        exact ih h₁ (Nat.le_of_lt_succ (Nat.lt_of_lt_of_le hless hfuel))
      · rename_i hc
        obtain ⟨h₁, hless⟩ := h.settle hperm fun hmem => hc (hold.mpr hmem)
        exact ih h₁ (Nat.le_of_lt_succ (Nat.lt_of_lt_of_le hless hfuel))

lemma shortestPaths_spec (hg : g.Proper) (source : Nat) :
    (∀ c ∈ g.shortestPaths source, IsPath g source c.node c.path) ∧
      ∀ v, g.simple.Reachable source v → v ∈ (g.shortestPaths source).map node := by
  have hready : Search.Ready g source
      { seen := [(source, 0)], fringe := [⟨0, 0, source, [source]⟩], count := 1 } := by
    refine ⟨⟨fun c hc => absurd hc not_mem_nil, ?_, ?_⟩,
      fun u hu => absurd hu not_mem_nil, Or.inr mem_cons_self⟩
    · intro c hc
      rw [mem_singleton.mp hc]
      exact ⟨.single g source, fun v hv hne => absurd (mem_singleton.mp hv) hne⟩
    · intro p hp
      rw [mem_singleton.mp hp]
      exact Or.inr mem_cons_self
  have hfuel : 1 + arcsBeyond g.adj [] ≤ g.arcCount + 1 := by
    simp [arcsBeyond, arcCount, Nat.add_comm]
  obtain ⟨hpaths, hsource, hclosed⟩ := searchLoop_spec g hready hfuel
  refine ⟨hpaths, fun v hv => ?_⟩
  rw [SimpleGraph.reachable_iff_reflTransGen] at hv
  induction hv with
  | refl => exact hsource
  | tail _ hadj ih => exact hclosed _ ih _ (hg.adj_iff.mp hadj)

end GadgetCircuits.Graph
