import GadgetCircuits.Proofs.Graph
import GadgetCircuits.Topology.Routes

/-!
Topologies as graphs, and their parts. A part of the qubits is linked if every two of them are joined
by couplings inside it. A linked part always has a qubit that is no cut vertex, and stays linked
without it.
-/

namespace GadgetCircuits

open List Coupling

namespace Graph

variable {g : Graph} {v a b : Nat}

lemma isCut_eq_false (hg : g.Proper) : g.isCut v = false ↔
      ∀ a b, g.Joined v a → g.Joined v b → (g.removeNode v).simple.Reachable a b := by
  obtain ⟨hp, hn, -⟩ := removeNode_spec hg v
  have hmem : ∀ a, g.Joined v a → a ∈ (g.removeNode v).nodes := by
    intro a ha
    refine (hn a).mpr ⟨hg.mem_nodes ha, ?_⟩
    rintro rfl
    exact hg.irrefl a ha
  unfold isCut
  cases hv : g.neighbours v with
  | nil =>
    simp only [true_iff]
    intro a b ha
    rw [Joined, hv] at ha
    cases ha
  | cons r rest =>
    have hr : g.Joined v r := by
      rw [Joined, hv]
      exact mem_cons_self
    simp only [Bool.not_eq_false', all_eq_true, contains_iff_mem, mem_reach hp (hmem r hr)]
    constructor
    · intro h
      have hall : ∀ a, g.Joined v a → (g.removeNode v).simple.Reachable r a := by
        intro a ha
        rw [Joined, hv] at ha
        rcases mem_cons.mp ha with rfl | ha
        · exact .refl _
        · exact h a ha
      exact fun a b ha hb => (hall a ha).symm.trans (hall b hb)
    · intro h a ha
      refine h r a hr ?_
      rw [Joined, hv]
      exact mem_cons_of_mem r ha

def Linked (g : Graph) : Prop :=
  ∀ u ∈ g.nodes, ∀ v ∈ g.nodes, g.simple.Reachable u v

lemma Linked.removeNode (hl : g.Linked) (hg : g.Proper) (hcut : g.isCut v = false) :
    (g.removeNode v).Linked := by
  obtain ⟨hp, hn, hj⟩ := removeNode_spec hg v
  have hstay : ∀ a b, g.simple.Adj a b → a ≠ v → b ≠ v → (g.removeNode v).simple.Adj a b := by
    intro a b h ha hb
    exact hp.adj_iff.mpr ((hj a b).mpr ⟨ha, hb, hg.adj_iff.mp h⟩)
  -- Where the walk meets the node, its neighbours before and after are joined without it.
  have hwalk : ∀ {a b : Nat}, g.simple.Walk a b → b ≠ v →
      (a ≠ v → (g.removeNode v).simple.Reachable a b) ∧
      (a = v → ∀ n, g.simple.Adj v n → (g.removeNode v).simple.Reachable n b) := by
    intro a b w
    induction w with
    | nil => exact fun hb => ⟨fun _ => .refl _, fun ha => absurd ha hb⟩
    | @cons a a' b hadj _ ih =>
      intro hb
      obtain ⟨ih₁, ih₂⟩ := ih hb
      constructor
      · intro ha
        by_cases ha' : a' = v
        · exact ih₂ ha' a (ha' ▸ hadj.symm)
        · exact (hstay a a' hadj ha ha').reachable.trans (ih₁ ha')
      · rintro rfl n hn
        exact ((isCut_eq_false hg).mp hcut n a' (hg.adj_iff.mp hn) (hg.adj_iff.mp hadj)).trans
          (ih₁ hadj.ne.symm)
  intro a ha b hb
  obtain ⟨ha, hav⟩ := (hn a).mp ha
  obtain ⟨hb, hbv⟩ := (hn b).mp hb
  obtain ⟨w⟩ := hl a ha b hb
  exact (hwalk w hbv).1 hav

lemma Linked.exists_not_cut (hl : g.Linked) (hg : g.Proper) (hne : g.nodes ≠ []) :
    ∃ v ∈ g.nodes, g.isCut v = false := by
  obtain ⟨r, hr⟩ := exists_mem_of_ne_nil g.nodes hne
  have hfin : Finite {v // v ∈ g.nodes} := inferInstance
  let G : SimpleGraph {v // v ∈ g.nodes} := g.simple.comap Subtype.val
  have hlift : ∀ {a b : Nat} (ha : a ∈ g.nodes) (hb : b ∈ g.nodes), g.simple.Walk a b →
      G.Reachable ⟨a, ha⟩ ⟨b, hb⟩ := by
    intro a b ha hb w
    induction w with
    | nil => exact .refl _
    | cons hadj _ ih =>
      have hmid := hg.mem_nodes (hg.adj_iff.mp hadj)
      refine SimpleGraph.Reachable.trans (SimpleGraph.Adj.reachable ?_) (ih hmid hb)
      exact hadj
  have hconn : G.Connected := by
    have hsome : Nonempty {v // v ∈ g.nodes} := ⟨⟨r, hr⟩⟩
    refine ⟨fun a b => ?_⟩
    obtain ⟨w⟩ := hl a a.2 b b.2
    exact hlift a.2 b.2 w
  obtain ⟨⟨v, hv⟩, hrest⟩ := hconn.exists_preconnected_induce_compl_singleton_of_finite
  obtain ⟨hp, -, hj⟩ := removeNode_spec hg v
  refine ⟨v, hv, (isCut_eq_false hg).mpr fun a b ha hb => ?_⟩
  have hav : a ≠ v := by
    rintro rfl
    exact hg.irrefl a ha
  have hbv : b ≠ v := by
    rintro rfl
    exact hg.irrefl b hb
  let f : G.induce {⟨v, hv⟩}ᶜ →g (g.removeNode v).simple := ⟨fun x => x.1.1, fun {x y} h => by
      have hx : x.1.1 ≠ v := fun e => x.2 (Subtype.ext e)
      have hy : y.1.1 ≠ v := fun e => y.2 (Subtype.ext e)
      exact hp.adj_iff.mpr ((hj _ _).mpr ⟨hx, hy, hg.adj_iff.mp h⟩)⟩
  exact (hrest ⟨⟨a, hg.mem_nodes ha⟩, fun e => hav (congrArg Subtype.val e)⟩
    ⟨⟨b, hg.mem_nodes hb⟩, fun e => hbv (congrArg Subtype.val e)⟩).map f

end Graph

namespace Topology

variable {t : Topology} {part : List Nat} {q : Nat} {n : Nat} {size couplings : Value} {v : Value}

/-- Couplings are between qubits, the smaller one first. -/
def WellFormed (t : Topology) : Prop :=
  ∀ k ∈ t.couplings, k.1 < k.2 ∧ k.2 < t.size

lemma mem_sortPairs {ps : List (Nat × Nat)} {p : Nat × Nat} : p ∈ sortPairs ps ↔ p ∈ ps := by
  rw [sortPairs, mem_eraseDups, mem_mergeSort]

lemma ofPairs_wellFormed {pairs : List (Nat × Nat)} (h : ∀ p ∈ pairs, p.1 ≠ p.2 ∧ p.1 < n ∧ p.2 < n) :
    (ofPairs n pairs).WellFormed := by
  intro k hk
  obtain ⟨p, hp, rfl⟩ := mem_map.mp (mem_sortPairs.mp hk)
  obtain ⟨hne, h₁, h₂⟩ := h p hp
  rw [ordered]
  split
  · rename_i hlt
    exact ⟨hlt, h₂⟩
  · exact ⟨by omega, h₁⟩

lemma isQubit_of_int? {m : Int} (hm : v.int? = some m) :
    isQubit n v = .ok true ↔ 0 ≤ m ∧ m < n := by
  have hrat : v.rat? = some (m : Rat) := by
    cases v with
    | int k =>
      cases hm
      rfl
    | bool b =>
      cases hm
      cases b <;> rfl
    | _ => cases hm
  rw [isQubit, hrat, Except.ok.injEq, Bool.and_eq_true, decide_eq_true_iff, decide_eq_true_iff]
  exact_mod_cast Iff.rfl

/-- Numbers of two different qubits, the smaller one first. -/
structure Checked (n : Nat) (k : Value × Value) : Prop where
  first : k.1.int? = some ((toNats k).1 : Int)
  second : k.2.int? = some ((toNats k).2 : Int)
  lt : (toNats k).1 < (toNats k).2
  inside : (toNats k).2 < n

lemma checked_of_ofValues {a b : Value} {k : Value × Value} (ha : Coupling.isQubit n a = .ok true)
    (hb : Coupling.isQubit n b = .ok true) (h : Coupling.ofValues a b = .ok k) : Checked n k := by
  unfold Coupling.ofValues at h
  split at h
  · cases h
  · cases h
  · rename_i i j hi hj
    split at h
    · cases h
    · rename_i hne
      cases h
      have hia := (isQubit_of_int? hi).mp ha
      have hjb := (isQubit_of_int? hj).mp hb
      rw [orderedValues, hi, hj]
      dsimp only
      split
      · constructor <;> simp only [toNats, hi, hj, Option.getD_some, Option.some.injEq] <;> omega
      · constructor <;> simp only [toNats, hi, hj, Option.getD_some, Option.some.injEq] <;> omega

lemma checked_of_check {k : Value × Value} (h : check n v = .ok k) : Checked n k := by
  unfold check at h
  split at h
  · obtain ⟨ra, ha, h⟩ := bind_eq_ok.mp h
    cases ra with
    | false => cases h
    | true =>
      obtain ⟨rb, hb, h⟩ := bind_eq_ok.mp h
      cases rb with
      | false => cases h
      | true => exact checked_of_ofValues ha hb h
  · cases h

lemma isQubit_ofNat {n q : Nat} (hq : q < n) : isQubit n (.ofNat q) = .ok true :=
  (isQubit_of_int? rfl).mpr (by omega)

lemma check_ofNat {n a b : Nat} (hv : v.collection? = some [.ofNat a, .ofNat b]) (ha : a < n)
    (hb : b < n) (hne : a ≠ b) :
    Coupling.check n v = .ok (Coupling.orderedValues (.ofNat a) (.ofNat b)) := by
  simp only [Coupling.check, hv, isQubit_ofNat ha, isQubit_ofNat hb, ok_bind, Bool.not_true,
    Bool.false_eq_true, if_false]
  simp [Coupling.ofValues, Value.ofNat, Value.int?, hne]

lemma toNats_orderedValues (a b : Nat) :
    toNats (orderedValues (.ofNat a) (.ofNat b)) = ordered a b := by
  simp only [orderedValues, ordered, Value.ofNat, Value.int?, Int.ofNat_lt]
  split
  · rfl
  · rfl

lemma ofNat_of_int? {n : Nat} (hv : v.int? = some (n : Int)) (hbool : isBool v = false) : v = .ofNat n := by
  cases v with
  | int i => exact congrArg Value.int (Option.some.inj hv)
  | bool b => cases hbool
  | _ => cases hv

lemma ofValues_cases {t : Topology} (h : ofValues size couplings = .ok t) :
    ∃ (n : Nat) (pairs : List (Value × Value)), 0 < n ∧ size = .ofNat n ∧
      (∀ k ∈ pairs, Checked n k) ∧ ofChecked n pairs = t := by
  unfold ofValues at h
  split at h
  · cases h
  · rename_i m hm
    split at h
    · cases h
    · split at h
      · cases h
      · obtain ⟨pairs, hpairs, h⟩ := bind_eq_ok.mp h
        split at h
        · cases h
        · rename_i hbool
          refine ⟨m.toNat, pairs, by omega, ?_, fun k hk => ?_, Except.ok.inj h⟩
          · exact ofNat_of_int? (hm.trans (congrArg some (by omega))) (by simpa using hbool)
          · obtain ⟨v, -, hv⟩ := of_mem_mapM hpairs k hk
            exact checked_of_check hv

lemma ofValues_wellFormed {t : Topology} (h : ofValues size couplings = .ok t) : t.WellFormed := by
  obtain ⟨n, pairs, -, -, hpairs, rfl⟩ := ofValues_cases h
  refine ofPairs_wellFormed fun p hp => ?_
  obtain ⟨k, hk, rfl⟩ := mem_map.mp hp
  obtain ⟨-, -, hlt, hn⟩ := hpairs k hk
  exact ⟨hlt.ne, hlt.trans hn, hn⟩

lemma hasCoupling_comm (t : Topology) (a b : Nat) : t.hasCoupling a b = t.hasCoupling b a := by
  rcases Nat.lt_trichotomy a b with h | rfl | h
  · simp [hasCoupling, ordered, h, Nat.lt_asymm h]
  · rfl
  · simp [hasCoupling, ordered, h, Nat.lt_asymm h]

lemma hasCoupling_iff (ht : t.WellFormed) (a b : Nat) :
    t.hasCoupling a b ↔ (a, b) ∈ t.couplings ∨ (b, a) ∈ t.couplings := by
  rw [hasCoupling, contains_iff_mem, ordered]
  split
  · rename_i h
    refine (or_iff_left fun hk => ?_).symm
    have := (ht _ hk).1
    simp only at this
    omega
  · rename_i h
    refine (or_iff_right fun hk => ?_).symm
    exact h (ht _ hk).1

lemma ends_of_hasCoupling (ht : t.WellFormed) {a b : Nat} (h : t.hasCoupling a b) :
    a ≠ b ∧ a < t.size ∧ b < t.size := by
  rcases (hasCoupling_iff ht a b).mp h with h | h
  · have := ht _ h
    simp only at this
    omega
  · have := ht _ h
    simp only at this
    omega

def graph (t : Topology) : SimpleGraph (Fin t.size) where
  Adj a b := a ≠ b ∧ t.hasCoupling a b = true
  symm := ⟨fun a b h => ⟨h.1.symm, by rw [hasCoupling_comm]; exact h.2⟩⟩
  loopless := ⟨fun _ h => h.1 rfl⟩

instance (t : Topology) : DecidableRel t.graph.Adj := fun a b =>
  inferInstanceAs (Decidable (a ≠ b ∧ t.hasCoupling a b = true))

def within (t : Topology) (part : List Nat) : SimpleGraph Nat where
  Adj a b := a ∈ part ∧ b ∈ part ∧ a ≠ b ∧ t.hasCoupling a b = true
  symm := ⟨fun a b h => ⟨h.2.1, h.1, h.2.2.1.symm, by rw [hasCoupling_comm]; exact h.2.2.2⟩⟩
  loopless := ⟨fun _ h => h.2.2.1 rfl⟩

/-- Every two qubits of the part are joined inside it. -/
def Linked (t : Topology) (part : List Nat) : Prop :=
  ∀ a ∈ part, ∀ b ∈ part, (t.within part).Reachable a b

lemma linked_qubits (hc : t.graph.Preconnected) : t.Linked t.qubits := by
  intro a ha b hb
  have hmem : ∀ {q}, q ∈ t.qubits ↔ q < t.size := mem_range
  let f : t.graph →g t.within t.qubits := ⟨Fin.val, fun {a b} h =>
      ⟨hmem.mpr a.isLt, hmem.mpr b.isLt, fun e => h.1 (Fin.ext e), h.2⟩⟩
  exact (hc ⟨a, hmem.mp ha⟩ ⟨b, hmem.mp hb⟩).map f

lemma toGraph_spec (ht : t.WellFormed) : t.toGraph.Proper ∧ t.toGraph.nodes = t.qubits ∧
      ∀ a b, t.toGraph.Joined a b ↔ t.hasCoupling a b := by
  have hes : ∀ e ∈ t.couplings, e.1 ≠ e.2 ∧ e.1 ∈ t.qubits ∧ e.2 ∈ t.qubits := by
    intro e he
    obtain ⟨h₁, h₂⟩ := ht e he
    exact ⟨by omega, mem_range.mpr (by omega), mem_range.mpr h₂⟩
  obtain ⟨hp, hn, hj⟩ := Graph.ofEdges_spec nodup_range hes
  exact ⟨hp, hn, fun a b => (hj a b).trans (hasCoupling_iff ht a b).symm⟩

lemma part_spec [SetOrder] (ht : t.WellFormed) (hne : part ≠ []) (hp : ∀ q ∈ part, q < t.size) :
    (t.part part).Proper ∧ (∀ q, q ∈ (t.part part).nodes ↔ q ∈ part) ∧
      ∀ a b, (t.part part).Joined a b ↔ a ∈ part ∧ b ∈ part ∧ t.hasCoupling a b := by
  obtain ⟨hproper, hnodes, hj⟩ := toGraph_spec ht
  have hpart : t.part part = t.toGraph.subgraph part := by
    rw [Topology.part, if_neg]
    simpa using hne
  obtain ⟨hs, hn, hj'⟩ := Graph.subgraph_spec hproper part
  rw [hpart]
  refine ⟨hs, fun q => ?_, fun a b => ?_⟩
  · rw [hn, hnodes]
    exact and_iff_left_of_imp fun hq => mem_range.mpr (hp q hq)
  · rw [hj', hj]

lemma removeNode_simple [SetOrder] (ht : t.WellFormed) (hne : part ≠ []) (hp : ∀ q ∈ part, q < t.size)
    (q : Nat) : ((t.part part).removeNode q).simple = t.within (part.filter (· != q)) := by
  obtain ⟨hproper, -, hj⟩ := part_spec ht hne hp
  obtain ⟨hrem, -, hjr⟩ := Graph.removeNode_spec hproper q
  ext a b
  rw [hrem.adj_iff, hjr, hj]
  simp only [within, mem_filter, bne_iff_ne]
  constructor
  · rintro ⟨ha, hb, hap, hbp, hc⟩
    refine ⟨⟨hap, ha⟩, ⟨hbp, hb⟩, ?_, hc⟩
    rintro rfl
    exact hproper.irrefl a ((hj a a).mpr ⟨hap, hap, hc⟩)
  · rintro ⟨⟨hap, ha⟩, ⟨hbp, hb⟩, -, hc⟩
    exact ⟨ha, hb, hap, hbp, hc⟩

variable (hl : t.Linked part)
include hl

lemma part_linked [SetOrder] (ht : t.WellFormed) (hne : part ≠ [])
    (hp : ∀ q ∈ part, q < t.size) : (t.part part).Linked := by
  obtain ⟨hproper, hn, hj⟩ := part_spec ht hne hp
  have hsimple : (t.part part).simple = t.within part := by
    ext a b
    rw [hproper.adj_iff, hj]
    constructor
    · rintro ⟨ha, hb, hc⟩
      refine ⟨ha, hb, ?_, hc⟩
      rintro rfl
      exact hproper.irrefl a ((hj a a).mpr ⟨ha, ha, hc⟩)
    · exact fun h => ⟨h.1, h.2.1, h.2.2.2⟩
  intro a ha b hb
  rw [hsimple]
  exact hl a ((hn a).mp ha) b ((hn b).mp hb)

lemma Linked.filter [SetOrder] (ht : t.WellFormed) (hp : ∀ q ∈ part, q < t.size)
    (hq : q ∈ part) (hcut : (t.part part).isCut q = false) :
    t.Linked (part.filter (· != q)) := by
  have hne := ne_nil_of_mem hq
  obtain ⟨hproper, hn, -⟩ := part_spec ht hne hp
  obtain ⟨-, hrem, -⟩ := Graph.removeNode_spec hproper q
  have hmem : ∀ a ∈ part.filter (· != q), a ∈ ((t.part part).removeNode q).nodes := by simp_all
  intro a ha b hb
  rw [← removeNode_simple ht hne hp q]
  exact (part_linked hl ht hne hp).removeNode hproper hcut a (hmem a ha) b (hmem b hb)

lemma Linked.exists_not_cut [SetOrder] (ht : t.WellFormed) (hne : part ≠ [])
    (hp : ∀ q ∈ part, q < t.size) : ∃ q ∈ part, (t.part part).isCut q = false := by
  obtain ⟨hproper, hn, -⟩ := part_spec ht hne hp
  obtain ⟨r, hr⟩ := exists_mem_of_ne_nil part hne
  obtain ⟨q, hq, hcut⟩ := (part_linked hl ht hne hp).exists_not_cut hproper
    (ne_nil_of_mem ((hn r).mpr hr))
  exact ⟨q, (hn q).mp hq, hcut⟩

lemma Linked.exists_neighbour {a b : Nat} (ha : a ∈ part) (hb : b ∈ part)
    (hne : a ≠ b) : ∃ n ∈ part, n ≠ a ∧ t.hasCoupling a n := by
  obtain ⟨w⟩ := hl a ha b hb
  cases w with
  | nil => exact absurd rfl hne
  | cons hadj _ => exact ⟨_, hadj.2.1, hadj.2.2.1.symm, hadj.2.2.2⟩

end Topology

end GadgetCircuits
