import GadgetCircuits.Proofs.Routes
import GadgetCircuits.Topology.Family

/-!
Distances in the standard families. On a line and on a cycle they are counted off directly: one step
changes the count by at most one, and away from the goal some step lowers it. A grid is the product of two
lines and a periodic grid that of two cycles, so there the distances add up.
-/

namespace GadgetCircuits

open List SimpleGraph

section Graphs

variable {V W : Type} {G : SimpleGraph V} {H : SimpleGraph W}

lemma edist_map_le (f : G →g H) (a b : V) : H.edist (f a) (f b) ≤ G.edist a b := by
  refine le_iInf fun w => (edist_le (w.map f)).trans_eq ?_
  rw [Walk.length_map]

lemma edist_iso (e : G ≃g H) (a b : V) : H.edist (e a) (e b) = G.edist a b := by
  apply le_antisymm
  · exact edist_map_le e.toHom a b
  · have hback := edist_map_le e.symm.toHom (e a) (e b)
    simpa using hback

/-- A count that is zero at the goal, changes by at most one with every step and is lowered by some step
elsewhere is the distance. -/
theorem edist_eq_of_descent {b : V} {f : V → Nat} (hgoal : f b = 0)
    (hstep : ∀ a a', G.Adj a a' → f a ≤ f a' + 1)
    (hdown : ∀ a, a ≠ b → ∃ a', G.Adj a a' ∧ f a = f a' + 1) (a : V) : G.edist a b = f a := by
  apply le_antisymm
  · induction hd : f a generalizing a with
    | zero =>
      have heq : a = b := by
        by_contra hne
        obtain ⟨a', -, hlower⟩ := hdown a hne
        omega
      simp [heq]
    | succ d ih =>
      have hne : a ≠ b := by
        rintro rfl
        omega
      obtain ⟨a', hadj, hlower⟩ := hdown a hne
      have hone : G.edist a a' = 1 := SimpleGraph.edist_eq_one_iff_adj.mpr hadj
      have hrest := ih a' (by omega)
      calc G.edist a b ≤ G.edist a a' + G.edist a' b := SimpleGraph.edist_triangle
        _ ≤ 1 + (d : ℕ∞) := by rw [hone]; gcongr
        _ = ((d + 1 : Nat) : ℕ∞) := by rw [Nat.cast_add, Nat.cast_one, add_comm]
  · refine le_iInf fun w => Nat.cast_le.mpr ?_
    induction w with
    | nil => exact hgoal.le
    | cons hadj w ih =>
      have hle := hstep _ _ hadj
      have hrest := ih hgoal hdown
      rw [Walk.length_cons]
      omega

end Graphs

namespace Topology

variable {t : Topology} {n r c : Nat} {A B P : List (Nat × Nat)}

/-- The distance of two numbers. -/
def straight (a b : Nat) : Nat :=
  ((a : Int) - b).natAbs

/-- The distance of two numbers on a circle of `n`. -/
def around (n a b : Nat) : Nat :=
  min (straight a b) (n - straight a b)

lemma ordered_eq_iff (a b x y : Nat) :
    Coupling.ordered a b = Coupling.ordered x y ↔ (a, b) = (x, y) ∨ (a, b) = (y, x) := by
  simp only [Coupling.ordered, Prod.mk.injEq]
  split <;> split <;> simp only [Prod.mk.injEq] <;> omega

def paired (n : Nat) (P : List (Nat × Nat)) : SimpleGraph (Fin n) :=
  .fromRel fun a b => ((a : Nat), (b : Nat)) ∈ P

def Proper (n : Nat) (P : List (Nat × Nat)) : Prop :=
  ∀ p ∈ P, p.1 ≠ p.2 ∧ p.1 < n ∧ p.2 < n

lemma Proper.adj_iff (hP : Proper n P) (a b : Fin n) : (paired n P).Adj a b ↔
    ((a : Nat), (b : Nat)) ∈ P ∨ ((b : Nat), (a : Nat)) ∈ P := by
  rw [paired, fromRel_adj]
  refine and_iff_right_of_imp ?_
  rintro h rfl
  exact (hP _ (h.elim id id)).1 rfl

lemma mem_ofPairs (a b : Nat) : (ofPairs n P).hasCoupling a b ↔ (a, b) ∈ P ∨ (b, a) ∈ P := by
  rw [hasCoupling, ofPairs, contains_iff_mem, mem_sortPairs, mem_map]
  simp only [ordered_eq_iff, Prod.exists]
  grind

lemma distanceOf_paired (hP : Proper t.size P) (ht : t.couplings = (ofPairs t.size P).couplings)
    (a b : Fin t.size) {d : Nat} (h : (paired t.size P).edist a b = d) :
    t.distanceOf (.ofNat a) (.ofNat b) = .ok (some d) := by
  have hwf : t.WellFormed := fun k hk => ofPairs_wellFormed hP k (ht ▸ hk)
  have hgraph : t.graph = paired t.size P := by
    ext a b
    rw [hP.adj_iff, ← mem_ofPairs (n := t.size), hasCoupling, ← ht]
    exact and_iff_right_of_imp fun hab heq => (ends_of_hasCoupling hwf hab).1 (congrArg Fin.val heq)
  rw [distanceOf_ofNat, Routes.far_eq_coe_iff.mp ((routes_far hwf a b).trans (hgraph ▸ h))]

lemma mem_linePairs {a b : Nat} : (a, b) ∈ linePairs n ↔ a + 1 = b ∧ b < n := by
  simp only [linePairs, mem_map, mem_range, Prod.mk.injEq]
  constructor
  · rintro ⟨i, hi, rfl, rfl⟩
    omega
  · rintro ⟨rfl, hlt⟩
    exact ⟨a, by omega, rfl, rfl⟩

lemma mem_cyclePairs {a b : Nat} :
    (a, b) ∈ cyclePairs n ↔ (a + 1 = b ∧ b < n) ∨ (a + 1 = n ∧ b = 0) := by
  simp only [cyclePairs, mem_map, mem_range, Prod.mk.injEq]
  constructor
  · rintro ⟨i, hi, rfl, rfl⟩
    rcases Nat.lt_or_eq_of_le (Nat.succ_le_of_lt hi) with hlt | heq
    · exact .inl ⟨(Nat.mod_eq_of_lt hlt).symm, by rwa [Nat.mod_eq_of_lt hlt]⟩
    · exact .inr ⟨heq, by rw [← heq, Nat.mod_self]⟩
  · rintro (⟨rfl, hlt⟩ | ⟨rfl, rfl⟩)
    · exact ⟨a, by omega, rfl, Nat.mod_eq_of_lt hlt⟩
    · exact ⟨a, by omega, rfl, Nat.mod_self _⟩

lemma linePairs_proper (n : Nat) : Proper n (linePairs n) := by
  rintro ⟨a, b⟩ hp
  have hpair := mem_linePairs.mp hp
  simp only
  omega

lemma cyclePairs_proper (hn : 2 ≤ n) : Proper n (cyclePairs n) := by
  rintro ⟨a, b⟩ hp
  have hpair := mem_cyclePairs.mp hp
  simp only
  omega

lemma edist_line (a b : Fin n) : (paired n (linePairs n)).edist a b = straight a b := by
  refine edist_eq_of_descent (f := fun a : Fin n => straight a b) (by simp [straight]) ?_ ?_ a
  · intro a a' hadj
    rw [(linePairs_proper n).adj_iff, mem_linePairs, mem_linePairs] at hadj
    simp only [straight]
    omega
  · intro a hne
    have hab : (a : Nat) ≠ b := fun heq => hne (Fin.ext heq)
    simp only [(linePairs_proper n).adj_iff, mem_linePairs, straight]
    rcases Nat.lt_or_gt_of_ne hab with hlt | hgt
    · exact ⟨⟨a + 1, by omega⟩, .inl ⟨rfl, by simp only; omega⟩, by simp only; omega⟩
    · exact ⟨⟨a - 1, by omega⟩, .inr ⟨by simp only; omega, a.isLt⟩, by simp only; omega⟩

lemma exists_cyclePair (a : Fin n) : ∃ up : Fin n, ((a : Nat), (up : Nat)) ∈ cyclePairs n := by
  simp only [mem_cyclePairs]
  by_cases hlast : (a : Nat) + 1 < n
  · exact ⟨⟨a + 1, hlast⟩, .inl ⟨rfl, hlast⟩⟩
  · exact ⟨⟨0, by omega⟩, .inr ⟨by omega, rfl⟩⟩

lemma exists_cyclePair_to (a : Fin n) : ∃ down : Fin n, ((down : Nat), (a : Nat)) ∈ cyclePairs n := by
  simp only [mem_cyclePairs]
  by_cases hfirst : (a : Nat) = 0
  · exact ⟨⟨n - 1, by omega⟩, .inr ⟨by simp only; omega, hfirst⟩⟩
  · exact ⟨⟨a - 1, by omega⟩, .inl ⟨by simp only; omega, a.isLt⟩⟩

lemma edist_cycle (hn : 2 ≤ n) (a b : Fin n) : (paired n (cyclePairs n)).edist a b = around n a b := by
  refine edist_eq_of_descent (f := fun a : Fin n => around n a b) (by simp [around, straight]) ?_ ?_ a
  · intro a a' hadj
    rw [(cyclePairs_proper hn).adj_iff, mem_cyclePairs, mem_cyclePairs] at hadj
    simp only [around, straight]
    omega
  · intro a hne
    have hab : (a : Nat) ≠ b := fun heq => hne (Fin.ext heq)
    simp only [(cyclePairs_proper hn).adj_iff]
    obtain ⟨up, hup⟩ := exists_cyclePair a
    obtain ⟨down, hdown⟩ := exists_cyclePair_to a
    -- One of the two ways round leads nearer.
    by_cases hnear : around n a b = around n up b + 1
    · exact ⟨up, .inl hup, hnear⟩
    · refine ⟨down, .inr hdown, ?_⟩
      rw [mem_cyclePairs] at hup hdown
      simp only [around, straight] at hnear ⊢
      have hb := b.isLt
      rcases hup with hup | hup <;> rcases hdown with hdown | hdown <;>
        rcases Nat.lt_or_gt_of_ne hab with hlt | hgt <;> omega

/-- The pairs of a product: a pair of rows within one column, or a pair of columns within one row. -/
def IsProduct (r c : Nat) (A B P : List (Nat × Nat)) : Prop :=
  ∀ p, p ∈ P ↔ ∃ i < r, ∃ i' < r, ∃ j < c, ∃ j' < c, p = (c * i + j, c * i' + j') ∧
    (((i, i') ∈ A ∧ j = j') ∨ (i = i' ∧ (j, j') ∈ B))

lemma gridPairs_isProduct (r c : Nat) : IsProduct r c (linePairs r) (linePairs c) (gridPairs r c) := by
  intro p
  simp only [gridPairs, mem_flatMap, mem_range, mem_append, mem_ite_nil_right,
    mem_singleton, mem_linePairs]
  constructor
  · rintro ⟨i, hi, j, hj, ⟨h, rfl⟩ | ⟨h, rfl⟩⟩
    · exact ⟨i, hi, i + 1, h, j, hj, j, hj, rfl, .inl ⟨⟨rfl, h⟩, rfl⟩⟩
    · exact ⟨i, hi, i, hi, j, hj, j + 1, h, rfl, .inr ⟨rfl, rfl, h⟩⟩
  · rintro ⟨i, hi, i', hi', j, hj, j', hj', rfl, ⟨⟨rfl, h⟩, rfl⟩ | ⟨rfl, rfl, h⟩⟩
    · exact ⟨i, hi, j, hj, .inl ⟨h, rfl⟩⟩
    · exact ⟨i, hi, j, hj, .inr ⟨h, rfl⟩⟩

lemma periodicGridPairs_isProduct (r c : Nat) :
    IsProduct r c (cyclePairs r) (cyclePairs c) (periodicGridPairs r c) := by
  intro p
  simp only [periodicGridPairs, cyclePairs, mem_flatMap, mem_range, mem_cons,
    not_mem_nil, or_false, mem_map, Prod.mk.injEq]
  constructor
  · rintro ⟨i, hi, j, hj, rfl | rfl⟩
    · exact ⟨i, hi, _, Nat.mod_lt _ (by omega), j, hj, j, hj, rfl, .inl ⟨⟨i, hi, rfl, rfl⟩, rfl⟩⟩
    · exact ⟨i, hi, i, hi, j, hj, _, Nat.mod_lt _ (by omega), rfl, .inr ⟨rfl, j, hj, rfl, rfl⟩⟩
  · grind

namespace IsProduct

variable (h : IsProduct r c A B P)

include h

lemma proper (hA : Proper r A) (hB : Proper c B) : Proper (r * c) P := by
  intro p hp
  obtain ⟨i, hi, i', hi', j, hj, j', hj', rfl, hpair⟩ := (h p).mp hp
  refine ⟨fun heq => ?_, Routes.place_lt hi hj, Routes.place_lt hi' hj'⟩
  obtain ⟨rfl, rfl⟩ := (Routes.place_eq_iff hj hj').mp heq
  rcases hpair with ⟨hpair, -⟩ | ⟨-, hpair⟩
  · exact (hA _ hpair).1 rfl
  · exact (hB _ hpair).1 rfl

lemma mem_iff {i i' : Fin r} {j j' : Fin c} :
    (c * (i : Nat) + j, c * (i' : Nat) + j') ∈ P ↔
      (((i : Nat), (i' : Nat)) ∈ A ∧ j = j') ∨ (i = i' ∧ ((j : Nat), (j' : Nat)) ∈ B) := by
  rw [h]
  constructor
  · rintro ⟨a, ha, a', ha', b, hb, b', hb', heq, hpair⟩
    obtain ⟨hfst, hsnd⟩ := Prod.mk.inj heq
    obtain ⟨rfl, rfl⟩ := (Routes.place_eq_iff j.isLt hb).mp hfst
    obtain ⟨rfl, rfl⟩ := (Routes.place_eq_iff j'.isLt hb').mp hsnd
    exact hpair.imp (And.imp_right Fin.ext) (And.imp_left Fin.ext)
  · intro hpair
    exact ⟨i, i.isLt, i', i'.isLt, j, j.isLt, j', j'.isLt, rfl,
      hpair.imp (And.imp_right (congrArg Fin.val)) (And.imp_left (congrArg Fin.val))⟩

lemma edist_eq (hA : Proper r A) (hB : Proper c B) (i i' : Fin r) (j j' : Fin c) :
    (paired (r * c) P).edist (finProdFinEquiv (i, j)) (finProdFinEquiv (i', j')) =
      (paired r A).edist i i' + (paired c B).edist j j' := by
  have hplace : ∀ x : Fin r × Fin c, (finProdFinEquiv x : Nat) = c * x.1 + x.2 :=
    fun x => Nat.add_comm _ _
  have hadj : ∀ x y, (paired (r * c) P).Adj (finProdFinEquiv x) (finProdFinEquiv y) ↔
      ((paired r A).boxProd (paired c B)).Adj x y := by
    intro x y
    rw [(h.proper hA hB).adj_iff, boxProd_adj, hA.adj_iff, hB.adj_iff, hplace, hplace,
      h.mem_iff, h.mem_iff, eq_comm (a := y.1), eq_comm (a := y.2)]
    tauto
  let e : (paired r A).boxProd (paired c B) ≃g paired (r * c) P := ⟨finProdFinEquiv, hadj _ _⟩
  rw [← edist_boxProd (i, j) (i', j')]
  exact edist_iso e (i, j) (i', j')

end IsProduct

lemma positive?_ofNat (hn : 1 ≤ n) : positive? (.ofNat n) = some n := by
  simp [positive?, Value.ofNat, Value.int?, Nat.ne_of_gt hn]

lemma named_eq (name : String) (hP : Proper n P) :
    named name n P = .ok { ofPairs n P with name := some name } := by
  rw [named, if_neg]
  simpa using fun a hp => (hP (a, a) hp).1 rfl

lemma family₁_distances (label : String) {pairs : Nat → List (Nat × Nat)} {f : Nat → Nat → Nat}
    (hn : 1 ≤ n) (hP : Proper n (pairs n))
    (hf : ∀ a b : Fin n, (paired n (pairs n)).edist a b = f a b) :
    ∃ t, family₁ label pairs (.ofNat n) = .ok t ∧ ∀ a < n, ∀ b < n,
      t.distanceOf (.ofNat a) (.ofNat b) = .ok (some (f a b)) := by
  refine ⟨_, by rw [family₁, positive?_ofNat hn]; dsimp only; rw [named_eq _ hP]; rfl, ?_⟩
  intro a ha b hb
  exact distanceOf_paired (P := pairs n) hP rfl ⟨a, ha⟩ ⟨b, hb⟩ (hf ⟨a, ha⟩ ⟨b, hb⟩)

lemma family₂_distances (label : String) {pairs : Nat → Nat → List (Nat × Nat)} {f g : Nat → Nat → Nat}
    (hr : 1 ≤ r) (hc : 1 ≤ c) (h : IsProduct r c A B (pairs r c)) (hA : Proper r A) (hB : Proper c B)
    (hf : ∀ i i' : Fin r, (paired r A).edist i i' = f i i')
    (hg : ∀ j j' : Fin c, (paired c B).edist j j' = g j j') :
    ∃ t, family₂ label pairs (.ofNat r) (.ofNat c) = .ok t ∧
      ∀ i < r, ∀ j < c, ∀ i' < r, ∀ j' < c,
        t.distanceOf (.ofNat (c * i + j)) (.ofNat (c * i' + j')) = .ok (some (f i i' + g j j')) := by
  have hP := h.proper hA hB
  refine ⟨_, by rw [family₂, positive?_ofNat hr, positive?_ofNat hc]; exact named_eq _ hP, ?_⟩
  intro i hi j hj i' hi' j' hj'
  have hedist := h.edist_eq hA hB ⟨i, hi⟩ ⟨i', hi'⟩ ⟨j, hj⟩ ⟨j', hj'⟩
  rw [hf, hg, ← Nat.cast_add] at hedist
  have hdist := distanceOf_paired (t := { ofPairs (r * c) (pairs r c) with
    name := some (label ++ "(" ++ ((Value.ofNat r).text).getD "" ++ "," ++ ((Value.ofNat c).text).getD "" ++ ")") })
    hP rfl _ _ hedist
  simpa [Nat.add_comm] using hdist

/-- Distances on grids and lines are sums of differences, and those on periodic grids and cycles go round
the shorter way. -/
theorem family_distances :
    (∀ r c, 1 ≤ r → 1 ≤ c → ∃ t, grid (.ofNat r) (.ofNat c) = .ok t ∧
      ∀ i < r, ∀ j < c, ∀ i' < r, ∀ j' < c, t.distanceOf (.ofNat (c * i + j)) (.ofNat (c * i' + j')) =
        .ok (some (straight i i' + straight j j'))) ∧
    (∀ r c, 2 ≤ r → 2 ≤ c → ∃ t, periodicGrid (.ofNat r) (.ofNat c) = .ok t ∧
      ∀ i < r, ∀ j < c, ∀ i' < r, ∀ j' < c, t.distanceOf (.ofNat (c * i + j)) (.ofNat (c * i' + j')) =
        .ok (some (around r i i' + around c j j'))) ∧
    (∀ n, 1 ≤ n → ∃ t, line (.ofNat n) = .ok t ∧ ∀ a < n, ∀ b < n,
      t.distanceOf (.ofNat a) (.ofNat b) = .ok (some (straight a b))) ∧
    ∀ n, 2 ≤ n → ∃ t, cycle (.ofNat n) = .ok t ∧ ∀ a < n, ∀ b < n,
      t.distanceOf (.ofNat a) (.ofNat b) = .ok (some (around n a b)) := by
  refine ⟨fun r c hr hc => ?_, fun r c hr hc => ?_, fun n hn => ?_, fun n hn => ?_⟩
  · exact family₂_distances "grid" hr hc (gridPairs_isProduct r c) (linePairs_proper r) (linePairs_proper c)
      edist_line edist_line
  · exact family₂_distances "periodic_grid" (by omega) (by omega) (periodicGridPairs_isProduct r c)
      (cyclePairs_proper hr) (cyclePairs_proper hc) (edist_cycle hr) (edist_cycle hc)
  · exact family₁_distances "line" hn (linePairs_proper n) edist_line
  · exact family₁_distances "cycle" (by omega) (cyclePairs_proper hn) (edist_cycle hn)

end Topology

end GadgetCircuits
