import GadgetCircuits.Proofs.Ladder
import GadgetCircuits.Proofs.LayerPool

/-!
Parity matrices. The gates of a circuit multiply to a matrix over the field of two elements that does to
bits what the gates do one after the other. Every gate is its own inverse, and its transpose is the gate
with control and target exchanged; so read backwards the circuit gives the transpose, and the layers in
reverse order the inverse.
-/

namespace GadgetCircuits

open List Parity CXLayer CX

open scoped Matrix

variable {n : Nat}

abbrev BitMatrix (n : Nat) := Matrix (Fin n) (Fin n) (ZMod 2)

def Bits.vector (x : Bits n) : Fin n → ZMod 2 :=
  fun i => if x i then 1 else 0

namespace CX

variable {g h : CX}

def On (n : Nat) (g : CX) : Prop :=
  g.1 ≠ g.2 ∧ g.1 < n ∧ g.2 < n

/-- The row of the target is the sum of the rows of both qubits. -/
def matrix (n : Nat) (g : CX) : BitMatrix n :=
  fun i j => if i = j ∨ ((i : Nat) = g.2 ∧ (j : Nat) = g.1) then 1 else 0

lemma On.exists_fin (hg : g.On n) : ∃ c t : Fin n, c ≠ t ∧ g = ((c : Nat), (t : Nat)) := by
  obtain ⟨hne, h₁, h₂⟩ := hg
  exact ⟨⟨g.1, h₁⟩, ⟨g.2, h₂⟩, fun e => hne (congrArg Fin.val e), rfl⟩

lemma matrix_eq_transvection {c t : Fin n} (h : c ≠ t) :
    matrix n ((c : Nat), (t : Nat)) = Matrix.transvection t c 1 := by
  ext i j
  simp only [matrix, Matrix.transvection, Matrix.add_apply, Matrix.one_apply, Matrix.single_apply,
    Fin.val_inj]
  grind

lemma matrix_mul_self (hg : g.On n) : matrix n g * matrix n g = 1 := by
  obtain ⟨c, t, hne, rfl⟩ := hg.exists_fin
  rw [matrix_eq_transvection hne, Matrix.transvection_mul_transvection_same _ _ hne.symm,
    CharTwo.add_self_eq_zero, Matrix.transvection_zero]

lemma matrix_transpose (g : CX) : (matrix n g)ᵀ = matrix n g.swap := by
  ext i j
  simp only [matrix, Matrix.transpose_apply, Prod.fst_swap, Prod.snd_swap, eq_comm, and_comm]

lemma matrix_commute (hg : g.On n) (hh : h.On n) (ha : Apart g h) :
    Commute (matrix n g) (matrix n h) := by
  obtain ⟨c, t, hct, rfl⟩ := hg.exists_fin
  obtain ⟨d, u, hdu, rfl⟩ := hh.exists_fin
  have hcu : c ≠ u := fun e => ha.2.1 (congrArg Fin.val e)
  have htd : t ≠ d := fun e => ha.2.2.1 (congrArg Fin.val e)
  rw [matrix_eq_transvection hct, matrix_eq_transvection hdu, Commute, SemiconjBy]
  simp only [Matrix.transvection, Matrix.add_mul, Matrix.mul_add, Matrix.one_mul, Matrix.mul_one,
    Matrix.single_mul_single_of_ne _ _ _ _ hcu, Matrix.single_mul_single_of_ne _ _ _ _ htd.symm]
  abel

lemma matrix_mulVec (hg : g.On n) (x : Bits n) :
    matrix n g *ᵥ x.vector = (Bits.addBit g.1 g.2 x).vector := by
  obtain ⟨c, t, hne, rfl⟩ := hg.exists_fin
  rw [matrix_eq_transvection hne, Matrix.transvection, Matrix.add_mulVec, Matrix.one_mulVec,
    Matrix.single_mulVec]
  ext i
  simp only [Pi.add_apply, Bits.vector, Bits.addBit_val, one_mul]
  by_cases hi : i = t
  · subst hi
    cases x i <;> cases x c <;> simp [CharTwo.add_self_eq_zero]
  · simp [hi]

end CX

def gateProduct (n : Nat) (gs : List CX) : BitMatrix n :=
  (gs.reverse.map (matrix n)).prod

section GateProduct

variable {gs hs : List CX}

lemma gateProduct_append (gs hs : List CX) :
    gateProduct n (gs ++ hs) = gateProduct n hs * gateProduct n gs := by
  rw [gateProduct, reverse_append, map_append, prod_append]
  rfl

lemma gateProduct_cons (g : CX) (gs : List CX) :
    gateProduct n (g :: gs) = gateProduct n gs * matrix n g := by
  simp [gateProduct]

variable (hg : ∀ g ∈ gs, g.On n)
include hg

lemma gateProduct_mulVec (x : Bits n) : gateProduct n gs *ᵥ x.vector = (x.afterCX gs).vector := by
  induction gs generalizing x with
  | nil => simp [gateProduct, Bits.afterCX]
  | cons g gs ih =>
    obtain ⟨hg, hgs⟩ := forall_mem_cons.mp hg
    rw [gateProduct_cons, ← Matrix.mulVec_mulVec, matrix_mulVec hg, ih hgs, Bits.afterCX_cons]

lemma gateProduct_reverse_mul : gateProduct n gs.reverse * gateProduct n gs = 1 := by
  induction gs with
  | nil => simp [gateProduct]
  | cons g gs ih =>
    obtain ⟨hg, hgs⟩ := forall_mem_cons.mp hg
    have hsingle : gateProduct n [g] = matrix n g := by simp [gateProduct]
    calc gateProduct n (g :: gs).reverse * gateProduct n (g :: gs)
        = matrix n g * (gateProduct n gs.reverse * gateProduct n gs) * matrix n g := by
          rw [reverse_cons, gateProduct_append, hsingle, gateProduct_cons]
          simp only [mul_assoc]
      _ = 1 := by rw [ih hgs, mul_one, matrix_mul_self hg]

omit hg

lemma gateProduct_swap (gs : List CX) :
    gateProduct n (gs.map Prod.swap) = (gateProduct n gs.reverse)ᵀ := by
  rw [gateProduct, gateProduct, Matrix.transpose_list_prod, reverse_reverse, map_map,
    ← map_reverse, ← map_reverse, map_map]
  exact congrArg List.prod (map_congr_left fun g _ => (matrix_transpose g).symm)

lemma gateProduct_perm (hp : gs.Perm hs) (hg : ∀ g ∈ gs, g.On n) (ha : gs.Pairwise Apart) :
    gateProduct n gs = gateProduct n hs := by
  have hperm : (gs.reverse.map (matrix n)).Perm (hs.reverse.map (matrix n)) :=
    ((gs.reverse_perm.trans hp).trans hs.reverse_perm.symm).map _
  refine hperm.prod_eq' (pairwise_map.mpr (pairwise_reverse.mpr ?_))
  refine List.Pairwise.imp_of_mem ?_ ha
  intro g h hmem hmem' hapart
  exact matrix_commute (hg h hmem') (hg g hmem) hapart.symm

end GateProduct

namespace Parity

def ofMatrix (A : BitMatrix n) : Parity :=
  List.ofFn fun i => List.ofFn fun j => (A i j).val

lemma ofMatrix_unique {r : Except Error Parity} {A B : BitMatrix n} (hA : r = .ok (ofMatrix A))
    (hB : r = .ok (ofMatrix B)) : A = B := by
  ext i j
  have hrow := congrFun (ofFn_injective (Except.ok.inj (hA.symm.trans hB))) i
  exact ZMod.val_injective 2 (congrFun (ofFn_injective hrow) j)

lemma identity_eq (n : Nat) : identity n = ofMatrix (1 : BitMatrix n) := by
  refine ext_getElem (by simp [identity, ofMatrix]) fun i hi _ => ?_
  refine ext_getElem (by simp [identity, ofMatrix]) fun j hj _ => ?_
  simp only [identity, ofMatrix, List.getElem_map, List.getElem_range, List.getElem_ofFn,
    Matrix.one_apply, Fin.mk.injEq]
  split <;> rfl

lemma addRow_ofMatrix (A : BitMatrix n) {g : CX} (hg : g.On n) :
    (ofMatrix A).addRow g.1 g.2 = .ok (ofMatrix (matrix n g * A)) := by
  obtain ⟨c, t, hne, rfl⟩ := hg.exists_fin
  have hrow : ∀ q : Fin n, (ofMatrix A)[(q : Nat)]? = some (ofFn fun j => (A q j).val) := by
    intro q
    simp [ofMatrix]
  have hsum : zipWith (fun a b => (a + b) % 2) (ofFn fun j => (A c j).val)
      (ofFn fun j => (A t j).val) =
      ofFn fun j => ((Matrix.transvection t c 1 * A : BitMatrix n) t j).val := by
    refine ext_getElem (by simp) fun j _ _ => ?_
    rw [List.getElem_zipWith, List.getElem_ofFn, List.getElem_ofFn, List.getElem_ofFn,
      Matrix.transvection_mul_apply_same, one_mul, ZMod.val_add, Nat.add_comm]
  rw [addRow, hrow c, hrow t, matrix_eq_transvection hne]
  simp only [hsum]
  refine congrArg Except.ok (ext_getElem (by simp [ofMatrix]) fun i _ hi => ?_)
  have hin : i < n := by simpa [ofMatrix] using hi
  rw [getElem_set]
  split
  · rename_i hit
    simp [ofMatrix, ← hit]
  · rename_i hit
    have hit' : (⟨i, hin⟩ : Fin n) ≠ t := fun e => hit (congrArg Fin.val e).symm
    simp only [ofMatrix, List.getElem_ofFn, Matrix.transvection_mul_apply_of_ne _ _ _ _ hit']

lemma foldlM_addRow (A : BitMatrix n) {gs : List CX} (hg : ∀ g ∈ gs, g.On n) :
    gs.foldlM (fun m g => m.addRow g.1 g.2) (ofMatrix A) = .ok (ofMatrix (gateProduct n gs * A)) := by
  induction gs generalizing A with
  | nil => simp [gateProduct, pure, Except.pure]
  | cons g gs ih =>
    obtain ⟨hg, hgs⟩ := forall_mem_cons.mp hg
    rw [foldlM_cons, addRow_ofMatrix A hg, ok_bind, ih _ hgs, gateProduct_cons, mul_assoc]

end Parity

lemma gateProduct_orders {ls : List CXLayer} {orders : List (List CX)}
    (hon : ∀ l ∈ ls, ∀ g ∈ l.gates, g.On n) (hapart : ∀ l ∈ ls, l.gates.Pairwise Apart)
    (ho : Forall₂ (fun l o => o.Perm l.gates) ls orders) :
    gateProduct n orders.flatten = gateProduct n (ls.flatMap gates) := by
  induction ho with
  | nil => rfl
  | cons hperm _ ih =>
    obtain ⟨hon, hons⟩ := forall_mem_cons.mp hon
    obtain ⟨hapart, haparts⟩ := forall_mem_cons.mp hapart
    rw [flatten_cons, flatMap_cons, gateProduct_append, gateProduct_append, ih hons haparts,
      gateProduct_perm hperm.symm hon hapart]

namespace CXCircuit

variable {c c' : CXCircuit CXLayer}

def gates (c : CXCircuit CXLayer) : List CX :=
  c.layers.flatMap CXLayer.gates

def product (n : Nat) (c : CXCircuit CXLayer) : BitMatrix n :=
  gateProduct n c.gates

/-- The same circuit, but for the order in which the gates of its layers are listed. -/
structure Reordered (c c' : CXCircuit CXLayer) : Prop where
  topology : c'.topology = c.topology
  layers : List.Forall₂ (fun l l' => l'.gates.Perm l.gates) c.layers c'.layers

/-- A circuit on `n` qubits whose gates are on two of them each and apart in every layer. -/
structure Proper (n : Nat) (c : CXCircuit CXLayer) : Prop where
  size : c.topology.size = n
  on : ∀ l ∈ c.layers, ∀ g ∈ l.gates, g.On n
  apart : ∀ l ∈ c.layers, l.gates.Pairwise Apart

lemma on_flatMap {ls : List CXLayer} (h : ∀ l ∈ ls, ∀ g ∈ l.gates, g.On n) :
    ∀ g ∈ ls.flatMap CXLayer.gates, g.On n := by
  intro g hg
  obtain ⟨l, hl, hg⟩ := mem_flatMap.mp hg
  exact h l hl g hg

variable (hc : c.Proper n)
include hc

lemma Proper.gates_on : ∀ g ∈ c.gates, g.On n := on_flatMap hc.on

lemma Proper.isUnit : IsUnit (c.product n) :=
  IsUnit.of_mul_eq_one_right _ (gateProduct_reverse_mul hc.gates_on)

lemma Proper.gateProduct_backwards :
    gateProduct n (c.layers.reverse.flatMap CXLayer.gates).reverse = c.product n := by
  have hwords : (c.layers.reverse.flatMap CXLayer.gates).reverse =
      (c.layers.map fun l => l.gates.reverse).flatten := by
    rw [reverse_flatMap, reverse_reverse, ← flatMap_def]
    rfl
  rw [hwords]
  refine gateProduct_orders hc.on hc.apart ?_
  simp

lemma Proper.rows : c.parityMatrix false = .ok (ofMatrix (c.product n)) := by
  change c.gates.foldlM (fun m g => m.addRow g.1 g.2) (identity c.topology.size) = _
  rw [hc.size, identity_eq, foldlM_addRow 1 hc.gates_on, mul_one]
  rfl

lemma Proper.columns : c.parityMatrix true = .ok (ofMatrix (c.product n)ᵀ) := by
  have hon : ∀ g ∈ (c.layers.reverse.flatMap CXLayer.gates).map Prod.swap, On n g := by
    intro g hg
    obtain ⟨h, hh, rfl⟩ := mem_map.mp hg
    obtain ⟨hne, h₁, h₂⟩ := on_flatMap (fun l hl => hc.on l (mem_reverse.mp hl)) h hh
    exact ⟨hne.symm, h₂, h₁⟩
  have hfold : c.parityMatrix true = ((c.layers.reverse.flatMap CXLayer.gates).map Prod.swap).foldlM
      (fun m g => m.addRow g.1 g.2) (identity c.topology.size) := by
    rw [foldlM_map]
    rfl
  rw [hfold, hc.size, identity_eq, foldlM_addRow 1 hon, mul_one, gateProduct_swap,
    hc.gateProduct_backwards]

lemma Proper.reordered (hn : c'.topology.size = n)
    (h : Forall₂ (fun l l' => l'.gates.Perm l.gates) c.layers c'.layers) :
    c'.Proper n ∧ c'.product n = c.product n := by
  have hlayer : ∀ l' ∈ c'.layers, ∃ l ∈ c.layers, l'.gates.Perm l.gates := of_mem_forall₂ h
  refine ⟨⟨hn, ?_, ?_⟩, ?_⟩
  · intro l' hl' g hg
    obtain ⟨l, hl, hperm⟩ := hlayer l' hl'
    exact hc.on l hl g (hperm.mem_iff.mp hg)
  · intro l' hl'
    obtain ⟨l, hl, hperm⟩ := hlayer l' hl'
    exact hperm.symm.pairwise (hc.apart l hl) Apart.symm
  · have ho : Forall₂ (fun l o => o.Perm l.gates) c.layers (c'.layers.map CXLayer.gates) :=
      forall₂_map_right_iff.mpr h
    rw [product, gates, flatMap_def]
    exact gateProduct_orders hc.on hc.apart ho

lemma Proper.same_layers (hn : c'.topology.size = n) (hl : c'.layers = c.layers) :
    c'.Proper n ∧ c'.product n = c.product n :=
  hc.reordered hn (hl ▸ forall₂_same.mpr fun _ _ => .refl _)

lemma Proper.reverse (hn : c'.topology.size = n)
    (hl : c'.layers = c.layers.reverse) : c'.Proper n ∧ c'.product n = (c.product n)⁻¹ := by
  have hproper : c'.Proper n := by
    refine ⟨hn, fun l h => hc.on l ?_, fun l h => hc.apart l ?_⟩
    · exact mem_reverse.mp (hl ▸ h)
    · exact mem_reverse.mp (hl ▸ h)
  refine ⟨hproper, ?_⟩
  have hinv : (c'.product n)⁻¹ = c.product n := by
    rw [product, Matrix.inv_eq_left_inv (gateProduct_reverse_mul hproper.gates_on), gates, hl,
      hc.gateProduct_backwards]
  rw [← hinv, Matrix.nonsing_inv_nonsing_inv _ ((Matrix.isUnit_iff_isUnit_det _).mp hproper.isUnit)]

lemma Proper.append {d : CXCircuit CXLayer} (hd : d.Proper n)
    (hn : c'.topology.size = n) (hl : c'.layers = c.layers ++ d.layers) :
    c'.Proper n ∧ c'.product n = d.product n * c.product n := by
  refine ⟨⟨hn, ?_, ?_⟩, ?_⟩
  · rw [hl]
    exact forall_mem_append.mpr ⟨hc.on, hd.on⟩
  · rw [hl]
    exact forall_mem_append.mpr ⟨hc.apart, hd.apart⟩
  · rw [product, gates, hl, flatMap_append, gateProduct_append]
    rfl

end CXCircuit

namespace LayerPool

variable {p : LayerPool} {c d : CXCircuit Nat}

lemma OnTopology.proper (hc : p.OnTopology c) (hn : c.topology.size = n) :
    (p.resolve c).Proper n where
  size := hn
  on l hl g hg := by
    obtain ⟨hvalid, hsame⟩ := hc.layer hl
    rw [On, ← hn, ← (Topology.same_iff.mp hsame).1]
    exact hvalid.ends g hg
  apart l hl := (hc.layer hl).1.apart

/-- The parity matrix of a circuit on its topology does not depend on the order of the gates in a layer,
does to bits what the gates do one after the other, and has an inverse. With parities as columns it is
transposed, and a circuit that is appended in place multiplies it from the left. -/
theorem parityMatrix_linear (hc : p.OnTopology c) :
    ∃ A : BitMatrix c.topology.size,
      (p.resolve c).parityMatrix false = .ok (Parity.ofMatrix A) ∧
      (p.resolve c).parityMatrix true = .ok (Parity.ofMatrix Aᵀ) ∧
      (∀ c', (p.resolve c).Reordered c' → ∀ asColumns,
        c'.parityMatrix asColumns = (p.resolve c).parityMatrix asColumns) ∧
      (∀ x : Bits c.topology.size, A *ᵥ x.vector = (x.afterCX (p.resolve c).gates).vector) ∧
      IsUnit A ∧
      ∀ d, p.OnTopology d → d.topology.same c.topology = true →
        ∃ (B : BitMatrix c.topology.size) (s : CXSite),
          (p.resolve d).parityMatrix false = .ok (Parity.ofMatrix B) ∧
          (CXOperand.copies d.layers).append.runFrom ⟨p, c⟩ = (.ok (), s) ∧
          (s.pool.resolve s.circuit).parityMatrix false = .ok (Parity.ofMatrix (B * A)) := by
  have hproper := hc.proper rfl
  refine ⟨(p.resolve c).product c.topology.size, hproper.rows, hproper.columns, ?_,
    gateProduct_mulVec hproper.gates_on, hproper.isUnit, ?_⟩
  · intro c' hreordered asColumns
    obtain ⟨hproper', hproduct⟩ := hproper.reordered
      (congrArg Topology.size hreordered.topology) hreordered.layers
    cases asColumns with
    | false => rw [hproper'.rows, hproper.rows, hproduct]
    | true => rw [hproper'.columns, hproper.columns, hproduct]
  · intro d hd hsame
    have hproper' := hd.proper (Topology.same_iff.mp hsame).1
    obtain ⟨s, hrun, -, htopology, hlayers⟩ := CXOperand.append_copies hc.holds hd.holds
    obtain ⟨hextended, hproduct⟩ := hproper.append hproper' (congrArg Topology.size htopology) hlayers
    exact ⟨_, s, hproper'.rows, hrun, hproduct ▸ hextended.rows⟩

def stairsLine : Topology where
  size := 3
  couplings := [(0, 1), (1, 2)]

def stairsPool : LayerPool where
  layers := #[(empty stairsLine).insert (0, 1), (empty stairsLine).insert (1, 2)]

def stairs (is : List Nat) : CXCircuit Nat where
  topology := stairsLine
  layers := is

lemma lower_stair : ofValue stairsLine (.list [.list [.int 0, .int 1]]) =
    .ok ((empty stairsLine).insert (0, 1)) := by
  cbv

lemma upper_stair : ofValue stairsLine (.list [.list [.int 1, .int 2]]) =
    .ok ((empty stairsLine).insert (1, 2)) := by
  cbv

lemma stairs_onTopology {is : List Nat} (h : ∀ i ∈ is, i < 2) : stairsPool.OnTopology (stairs is) := by
  intro i hi
  have hlt := h i hi
  obtain rfl | rfl : i = 0 ∨ i = 1 := by omega
  · exact ⟨_, rfl, Topology.same_refl _, .made lower_stair⟩
  · exact ⟨_, rfl, Topology.same_refl _, .made upper_stair⟩

theorem stairs_parityMatrix_linear :
    stairsPool.OnTopology (stairs [0, 1]) ∧
    ∃ A : BitMatrix 3,
      (stairsPool.resolve (stairs [0, 1])).parityMatrix false = .ok (Parity.ofMatrix A) ∧
      (stairsPool.resolve (stairs [0, 1])).parityMatrix true = .ok (Parity.ofMatrix Aᵀ) ∧
      (∀ c', (stairsPool.resolve (stairs [0, 1])).Reordered c' → ∀ asColumns,
        c'.parityMatrix asColumns =
          (stairsPool.resolve (stairs [0, 1])).parityMatrix asColumns) ∧
      (∀ x : Bits 3, A *ᵥ x.vector = (x.afterCX [(0, 1), (1, 2)]).vector) ∧
      IsUnit A ∧
      ∃ s, (CXOperand.copies [0, 1]).append.runFrom ⟨stairsPool, stairs [0, 1]⟩ = (.ok (), s) ∧
        (s.pool.resolve s.circuit).parityMatrix false = .ok (Parity.ofMatrix (A * A)) := by
  have hc : stairsPool.OnTopology (stairs [0, 1]) := stairs_onTopology (by decide)
  obtain ⟨A, hrows, hcolumns, horder, hvector, hunit, happend⟩ := parityMatrix_linear hc
  obtain ⟨B, s, hB, hrun, hproduct⟩ := happend _ hc (Topology.same_refl _)
  obtain rfl := ofMatrix_unique hB hrows
  exact ⟨hc, B, hrows, hcolumns, horder, hvector, hunit, s, hrun, hproduct⟩

end LayerPool

end GadgetCircuits
