import GadgetCircuits.Proofs.Tableau
import GadgetCircuits.Tableau.Compose

/-!
Composition and inversion of tableaux. A string is a product of generators, so its image is the
product of their images; the power of `i` in it is found qubit by qubit. In wide storage that power
is exact. In bytes it can slip, and then signs come out wrong.
-/

namespace GadgetCircuits

open List Generator SignedPauli Function

variable {n : Nat}

open PauliVector

def Generator.all (n : Nat) : List (Generator n) :=
  (List.finRange n).map .inl ++ (List.finRange n).map .inr

lemma Generator.map_index_all (n : Nat) : (all n).map index = range (2 * n) := by
  have hx : (finRange n).map (index ∘ Sum.inl) = range n := map_coe_finRange_eq_range
  have hz : (finRange n).map (index ∘ Sum.inr) = (range n).map (n + ·) := by
    rw [← map_coe_finRange_eq_range, map_map]
    rfl
  rw [all, map_append, map_map, map_map, hx, hz, two_mul, range_add]

lemma Generator.length_all (n : Nat) : (all n).length = 2 * n := by
  simp [all, two_mul]

lemma Generator.sum_all {M : Type} [AddCommMonoid M] (f : Generator n → M) :
    ((all n).map f).sum = ∑ k, f k := by
  rw [all, map_append, sum_append, map_map, map_map, Fintype.sum_sum_type,
    Fin.sum_univ_def, Fin.sum_univ_def]
  rfl

namespace PauliVector

/-- The power of `i` when strings are multiplied one after the other to a first one. -/
def turnsFrom (v : PauliVector n) : List (PauliVector n) → ZMod 4
  | [] => 0
  | w :: ws => turns v w + turnsFrom (v + w) ws

/-- The power of `i` when operators on one qubit are multiplied one after the other. -/
def lettersFrom (x z : ZMod 2) : List (ZMod 2 × ZMod 2) → ZMod 4
  | [] => 0
  | (x', z') :: ls => letterTurn x z x' z' + lettersFrom (x + x') (z + z') ls

lemma turnsFrom_eq (v : PauliVector n) (ws : List (PauliVector n)) :
    turnsFrom v ws = ∑ q, lettersFrom (v (.inl q)) (v (.inr q))
      (ws.map fun w => (w (.inl q), w (.inr q))) := by
  induction ws generalizing v with
  | nil => simp [turnsFrom, lettersFrom]
  | cons w ws ih =>
    rw [turnsFrom, ih, turns, ← Finset.sum_add_distrib]
    rfl

end PauliVector

lemma prod_weyl {ws : List (PauliVector n)} (h : ws.Pairwise fun v w => meets v w = 0) :
    (ws.map (weyl 0)).prod = weyl 0 ws.sum := by
  induction ws with
  | nil => exact weyl_zero.symm
  | cons w ws ih =>
    obtain ⟨hw, hws⟩ := pairwise_cons.mp h
    have hmeets : meets w ws.sum = 0 := by
      clear ih h hws
      induction ws with
      | nil => simp [meets]
      | cons v ws ih =>
        rw [sum_cons, meets_add_right, hw v mem_cons_self,
          ih fun v hv => hw v (mem_cons_of_mem _ hv), add_zero]
    rw [map_cons, prod_cons, ih hws, weyl_mul, hmeets, map_zero, sum_cons, add_zero, add_zero]

lemma weyl_eq_prod (v : PauliVector n) :
    weyl 0 v = ((Generator.all n).map fun k => weyl 0 (Pi.single k (v k))).prod := by
  have hordered : ((Generator.all n).map fun k => (Pi.single k (v k) : PauliVector n)).Pairwise
      fun v w => meets v w = 0 := by
    rw [pairwise_map, Generator.all, pairwise_append, pairwise_map, pairwise_map]
    refine ⟨pairwise_of_forall fun q r => ?_, pairwise_of_forall fun q r => ?_, fun k hk l hl => ?_⟩
    · exact meets_single_single (.inl rfl) _ _
    · exact meets_single_single (.inr rfl) _ _
    · obtain ⟨q, -, rfl⟩ := mem_map.mp hk
      exact meets_single_single (.inl rfl) _ _
  have hsum : ((Generator.all n).map fun k => (Pi.single k (v k) : PauliVector n)).sum = v := by
    rw [sum_all, Finset.univ_sum_single]
  have hprod := prod_weyl hordered
  rw [map_map, hsum] at hprod
  exact hprod.symm

namespace SignedPauli

lemma operator_mul_prod (p : SignedPauli n) (ps : List (SignedPauli n)) :
    p.operator * (ps.map operator).prod = iPow (turnsFrom p.vec (ps.map vec)) •
      (⟨p.vec + (ps.map vec).sum, p.sign + (ps.map sign).sum⟩ : SignedPauli n).operator := by
  induction ps generalizing p with
  | nil => simp [turnsFrom]
  | cons q ps ih =>
    rw [map_cons, prod_cons, ← mul_assoc, operator_mul, smul_mul_assoc, ih, smul_smul,
      ← AddChar.map_add_eq_mul]
    simp only [map_cons, sum_cons, turnsFrom, add_assoc]

lemma prod_operator (ps : List (SignedPauli n)) :
    (ps.map operator).prod = iPow (turnsFrom 0 (ps.map vec)) •
      (⟨(ps.map vec).sum, (ps.map sign).sum⟩ : SignedPauli n).operator := by
  have h := operator_mul_prod ⟨0, 0⟩ ps
  rwa [operator_one, one_mul, zero_add, zero_add] at h

def pick (p : SignedPauli n) (c : ZMod 2) : SignedPauli n :=
  ⟨c • p.vec, c * p.sign⟩

end SignedPauli

lemma actAll_eq (gs : List (TableauGate n)) (p : SignedPauli n) :
    (actAll gs p).vec = ∑ k, p.vec k • (actAll gs (generator k)).vec ∧
    ys p.vec + twice p.sign + turnsFrom 0 ((Generator.all n).map fun k =>
        p.vec k • (actAll gs (generator k)).vec) +
      twice (∑ k, p.vec k * (actAll gs (generator k)).sign) =
      twice (actAll gs p).sign := by
  set U := circuitUnitary gs
  have hU : U.conjTranspose * U = 1 := circuitUnitary_conjTranspose_mul gs
  set f : Generator n → SignedPauli n := fun k => actAll gs (generator k)
  have hgen : ∀ k, U * weyl 0 (Pi.single k (p.vec k)) * U.conjTranspose =
      ((f k).pick (p.vec k)).operator := by
    intro k
    rcases bit_cases (p.vec k) with h | h
    · rw [h, Pi.single_zero, weyl_zero, mul_one, mul_eq_one_comm.mp hU, pick, zero_smul,
        zero_mul, operator_one]
    · rw [h, pick, one_smul, one_mul, ← generator_operator]
      exact circuitUnitary_moves gs _
  have hprod : U * weyl 0 p.vec * U.conjTranspose =
      (((Generator.all n).map fun k => (f k).pick (p.vec k)).map operator).prod := by
    rw [weyl_eq_prod, Moves.operator_prod hU, map_map, map_map]
    exact congrArg List.prod (map_congr_left fun k _ => hgen k)
  have hmoves : U * p.operator * U.conjTranspose = (actAll gs p).operator := circuitUnitary_moves gs p
  rw [operator_eq, ← add_zero (ys p.vec + twice p.sign), ← smul_weyl, mul_smul_comm,
    smul_mul_assoc, hprod, prod_operator, smul_smul, ← AddChar.map_add_eq_mul,
    operator_eq, operator_eq, smul_weyl, map_map, map_map,
    sum_all, sum_all] at hmoves
  simp only [comp_def, pick] at hmoves
  obtain ⟨hsign, hvec⟩ := weyl_inj hmoves
  refine ⟨hvec.symm, ?_⟩
  rw [hvec] at hsign
  linear_combination hsign

namespace Tableau

def stepPower (w : Width) (x z x' z' : Int) : Int :=
  if (x = 1 || z = 1) && (x' = 1 || z' = 1) then
    match phaseCode w x z x' z' with
    | 0 => 1
    | 1 => -1
    | _ => 0
  else 0

lemma Running.multiply_power (w : Width) (s : Running) (x z : Int) :
    (s.multiply w x z).power = s.power + stepPower w s.x s.z x z := by
  simp only [Running.multiply, stepPower]
  grind

lemma stepPower_wide {x z x' z' : Int} (hx : x = 0 ∨ x = 1) (hz : z = 0 ∨ z = 1)
    (hx' : x' = 0 ∨ x' = 1) (hz' : z' = 0 ∨ z' = 1) :
    ((stepPower .wide x z x' z' : Int) : ZMod 4) = letterTurn x z x' z' := by
  rcases hx with rfl | rfl <;> rcases hz with rfl | rfl <;> rcases hx' with rfl | rfl <;>
    rcases hz' with rfl | rfl <;> decide

def running (t : Tableau) (w : Width) (choice : List Int) (q : Fin n) (ks : List (Generator n))
    (s : Running) : Running :=
  ks.foldl (fun s k =>
    if entry choice k.index = 0 then s
    else s.multiply w (entry (t.row k.index) q) (entry (t.row k.index) (n + q))) s

variable {t : Tableau}

lemma Regular.bitsAt (h : Regular n t) (k : Generator n) (q : Fin n) :
    t.bitsAt k.index q = .ok (entry (t.row k.index) q, entry (t.row k.index) (n + q)) := by
  have hx : (q : Nat) < (t.row k.index).length := (h.row_bits k).index_lt (.inl q)
  have hz : n + q < (t.row k.index).length := (h.row_bits k).index_lt (.inr q)
  have hrow : t.rows[k.index]? = some (t.row k.index) := by
    rw [row_eq (h.index_lt k), getElem?_eq_getElem (h.index_lt k)]
  simp only [Tableau.bitsAt, hrow, h.size, add_comm (q : Nat), getElem?_eq_getElem hx,
    getElem?_eq_getElem hz, entry_eq hx, entry_eq hz]
  rfl

lemma powerAt_eq (h : Regular n t) {choice : List Int} (hc : BitRow n choice) (q : Fin n) :
    t.powerAt choice q = .ok (running t t.rowWidth choice q (Generator.all n) {}).power := by
  rw [powerAt, h.size, ← map_index_all, foldlM_map, foldlM_ok]
  · rfl
  · intro s k _
    have hk : choice[k.index]? = some (entry choice k.index) := by
      rw [entry_eq (hc.index_lt k), getElem?_eq_getElem (hc.index_lt k)]
    simp only [hk]
    split
    · rfl
    · rw [h.bitsAt k q]
      rfl

lemma running_wide (h : Regular n t) {choice : List Int} (hc : BitRow n choice) (q : Fin n)
    (ks : List (Generator n)) {s : Running} (hx : s.x = 0 ∨ s.x = 1) (hz : s.z = 0 ∨ s.z = 1) :
    (((running t .wide choice q ks s).power : Int) : ZMod 4) =
      s.power + lettersFrom s.x s.z (ks.map fun k =>
        ((rowVector n choice k • (image n t k).vec) (.inl q),
          (rowVector n choice k • (image n t k).vec) (.inr q))) := by
  induction ks generalizing s with
  | nil => simp [running, lettersFrom]
  | cons k ks ih =>
    have hrow := h.row_bits k
    rw [map_cons, lettersFrom]
    -- A row that is not chosen counts as a string without letters.
    rcases hc.entry_bit k.index with hk | hk
    · have hchoice : rowVector n choice k = 0 := by rw [rowVector, hk, Int.cast_zero]
      have hstep : running t .wide choice q (k :: ks) s = running t .wide choice q ks s := by
        rw [running, foldl_cons, if_pos hk]
        rfl
      have hnone : ∀ x z : ZMod 2, letterTurn x z 0 0 = 0 := by decide
      simp_all
    · have hchoice : rowVector n choice k = 1 := by rw [rowVector, hk, Int.cast_one]
      have hstep : running t .wide choice q (k :: ks) s = running t .wide choice q ks
          (s.multiply .wide (entry (t.row k.index) q) (entry (t.row k.index) (n + q))) := by
        rw [running, foldl_cons, if_neg (by rw [hk]; exact one_ne_zero)]
        rfl
      have hbit : ∀ a b : Int, (a = 0 ∨ a = 1) → (b = 0 ∨ b = 1) →
          (bitXor a b = 0 ∨ bitXor a b = 1) ∧ ((bitXor a b : Int) : ZMod 2) = a + b := by
        intro a b ha hb
        rw [bitXor_bit ha hb, cast_emod_two, Int.cast_add]
        exact ⟨Int.emod_two_eq _, rfl⟩
      have hx' := hbit _ _ hx (hrow.entry_bit q)
      have hz' := hbit _ _ hz (hrow.entry_bit (n + q))
      rw [hstep, ih hx'.1 hz'.1, Running.multiply_power, Int.cast_add,
        stepPower_wide hx hz (hrow.entry_bit _) (hrow.entry_bit _), hchoice, one_smul, add_assoc]
      simp only [Running.multiply, hx'.2, hz'.2]
      rfl

/-- The power of the product of the rows that are chosen, with one more for each Y. -/
def powerSum (n : Nat) (t : Tableau) (w : Width) (choice : List Int) : Int :=
  ∑ q : Fin n, entry choice q * entry choice (n + q) +
    ∑ q : Fin n, (running t w choice q (Generator.all n) {}).power

lemma powerOf_eq {t u : Tableau} (ht : Regular n t) (hu : Regular n u) (k : Generator n) :
    t.powerOf u k.index = .ok (powerSum n t t.rowWidth (u.row k.index)) := by
  have hrow := hu.row_bits k
  have hk : u.rows[k.index]? = some (u.row k.index) := by
    rw [row_eq (hu.index_lt k), getElem?_eq_getElem (hu.index_lt k)]
  have hwrap : ∀ q : Fin n, u.rowWidth.wrap (entry (u.row k.index) q * entry (u.row k.index) (n + q)) =
      entry (u.row k.index) q * entry (u.row k.index) (n + q) := by
    intro q
    rcases hrow.entry_bit q with hx | hx <;> rcases hrow.entry_bit (n + q) with hz | hz <;>
      rw [hx, hz] <;> cases u.rowWidth <;> rfl
  have hys : stretch (fun a b => u.rowWidth.wrap (a * b)) ((u.row k.index).take t.n)
      ((u.row k.index).drop t.n) =
      .ok (ofFn fun q : Fin n => entry (u.row k.index) q * entry (u.row k.index) (n + q)) := by
    have hhalves := hrow.halves
    rw [halves, Prod.mk.injEq] at hhalves
    rw [ht.size, hhalves.1, hhalves.2, stretch_ofFn]
    simp only [hwrap]
  have hpowers : (range t.n).mapM (t.powerAt (u.row k.index)) = .ok (ofFn fun q : Fin n =>
        (running t t.rowWidth (u.row k.index) q (Generator.all n) {}).power) := by
    rw [ht.size, ← map_coe_finRange_eq_range, mapM_map, ofFn_eq_map]
    exact mapM_ok fun q _ => powerAt_eq ht hrow q
  simp only [powerOf, hk, hys, hpowers, ok_bind, intSum_ofFn]
  rfl

lemma powerSum_wide {t u : Tableau} (ht : Regular n t) (hu : Regular n u) (k : Generator n) :
    ((powerSum n t .wide (u.row k.index) : Int) : ZMod 4) =
      ys (image n u k).vec + turnsFrom 0 ((Generator.all n).map fun l =>
        (image n u k).vec l • (image n t l).vec) := by
  have hrow := hu.row_bits k
  have hy : ∀ a b : Int, (a = 0 ∨ a = 1) → (b = 0 ∨ b = 1) →
      ((a * b : Int) : ZMod 4) = once ((a : ZMod 2) * (b : ZMod 2)) := by
    rintro a b (rfl | rfl) (rfl | rfl) <;> rfl
  rw [powerSum, Int.cast_add, Int.cast_sum, Int.cast_sum, turnsFrom_eq]
  congr 1
  · exact Finset.sum_congr rfl fun q _ => hy _ _ (hrow.entry_bit _) (hrow.entry_bit _)
  · refine Finset.sum_congr rfl fun q _ => ?_
    rw [running_wide ht hrow q _ (.inl rfl) (.inl rfl), map_map]
    simp [comp_def, image]

end Tableau

lemma Generator.getElem?_all (k : Generator n) : (all n)[k.index]? = some k := by
  cases k with
  | inl q =>
    have hq : (q : Nat) < ((finRange n).map (Sum.inl : Fin n → Generator n)).length := by simp
    rw [all, index, getElem?_append_left hq]
    simp
  | inr q =>
    rw [all, index, getElem?_append_right (by simp)]
    simp

lemma Generator.eq_map_all {α : Type} {xs : List α} (d : α) (h : xs.length = 2 * n) :
    xs = (all n).map fun k => (xs[k.index]?).getD d := by
  have hmap : ((all n).map fun k => (xs[k.index]?).getD d) =
      (range (2 * n)).map fun i => (xs[i]?).getD d := by
    rw [← map_index_all, map_map]
    rfl
  rw [hmap]
  refine ext_getElem (by simpa using h) fun i hi _ => ?_
  simp [getElem?_eq_getElem hi]

namespace Tableau

variable {xs ys : List Int} {t u : Tableau} (x : Generator n → Int) (f : Int → Int → Int)

lemma entry_map_all (k : Generator n) : entry ((Generator.all n).map x) k.index = x k := by
  rw [entry, getElem?_map, getElem?_all]
  rfl

lemma Regular.rows_eq_map (h : Regular n t) : t.rows = (Generator.all n).map fun k => t.row k.index :=
  eq_map_all [] h.rows_length

lemma Regular.signs_eq_map (h : Regular n t) :
    t.signs = (Generator.all n).map fun k => entry t.signs k.index :=
  eq_map_all 0 h.signs_length

lemma zipWith_entry (hx : xs.length = 2 * n) (hy : ys.length = 2 * n) :
    zipWith f xs ys = (Generator.all n).map fun k => f (entry xs k.index) (entry ys k.index) := by
  have hmap : zipWith f ((Generator.all n).map fun k => entry xs k.index)
      ((Generator.all n).map fun k => entry ys k.index) =
      (Generator.all n).map fun k => f (entry xs k.index) (entry ys k.index) := by
    rw [zipWith_map, zipWith_self]
  have hx' : ((Generator.all n).map fun k => entry xs k.index) = xs :=
    (eq_map_all 0 hx).symm
  have hy' : ((Generator.all n).map fun k => entry ys k.index) = ys :=
    (eq_map_all 0 hy).symm
  rwa [hx', hy'] at hmap

lemma stretch_entry (hx : xs.length = 2 * n) (hy : ys.length = 2 * n) :
    stretch f xs ys = .ok ((Generator.all n).map fun k => f (entry xs k.index) (entry ys k.index)) := by
  rw [stretch_eq (hx.trans hy.symm), zipWith_entry f hx hy]

lemma parities_map_all :
    parities ((Generator.all n).map x) = (Generator.all n).map fun k => x k % 2 := by
  rw [parities, map_map]
  rfl

lemma dot_entry (hx : xs.length = 2 * n) (hy : ys.length = 2 * n) :
    dot xs ys = ∑ k : Generator n, entry xs k.index * entry ys k.index := by
  rw [dot, zipWith_entry _ hx hy, ← sum_all]
  rfl

def composedRow (n : Nat) (t u : Tableau) (k : Generator n) : List Int :=
  (Generator.all n).map fun j =>
    (∑ l : Generator n, entry (t.row k.index) l.index * entry (u.row l.index) j.index) % 2

def composedSign (n : Nat) (t u : Tableau) (k : Generator n) : Int :=
  ((∑ l : Generator n, entry (u.row k.index) l.index * entry t.signs l.index +
    entry u.signs k.index) % 2 + powerSum n t t.rowWidth (u.row k.index) % 4 / 2) % 2

lemma ofArrays_eq {w w' : Width} {rows : List (List Int)} {signs : List Int}
    (hrows : rows.length = 2 * n) (hall : ∀ r ∈ rows, r.length = 2 * n)
    (hsigns : signs.length = 2 * n) :
    ofArrays w w' rows signs = .ok { n, rows, signs, rowWidth := w, signWidth := w' } := by
  have hn : rows.length / 2 = n := by omega
  have hcond : (rows.length = 2 * n && rows.all (fun r => r.length = 2 * n) &&
      signs.length = 2 * n) := by
    simpa [hrows, hsigns] using hall
  simp only [ofArrays, hn, hcond, if_true]

lemma product_eq (ht : Regular n t) (hu : Regular n u) :
    product t.rows u.rows (2 * n) = (Generator.all n).map (composedRow n t u) := by
  have hcolumn : ∀ (j : Nat) (l : Generator n),
      entry (columnOf u.rows j) l.index = entry (u.row l.index) j := by
    intro j l
    rw [entry_eq (by simpa [columnOf] using hu.index_lt l), row_eq (hu.index_lt l)]
    exact getElem_map _
  rw [product, ht.rows_eq_map, map_map]
  refine map_congr_left fun k _ => ?_
  rw [comp_apply, ← map_index_all, map_map, composedRow]
  refine map_congr_left fun j _ => ?_
  rw [comp_apply, dot_entry (ht.row_bits k).length (by simpa [columnOf] using hu.rows_length)]
  simp only [hcolumn]

lemma phase_eq (ht : Regular n t) (hu : Regular n u) :
    stretch (· + ·) (u.rows.map fun r => dot r t.signs) u.signs =
      .ok ((Generator.all n).map fun k =>
        ∑ l : Generator n, entry (u.row k.index) l.index * entry t.signs l.index +
          entry u.signs k.index) := by
  have hdot : ∀ k : Generator n, entry (u.rows.map fun r => dot r t.signs) k.index =
      ∑ l : Generator n, entry (u.row k.index) l.index * entry t.signs l.index := by
    intro k
    rw [← dot_entry (hu.row_bits k).length ht.signs_length,
      entry_eq (by simpa using hu.index_lt k), row_eq (hu.index_lt k), getElem_map]
  rw [stretch_entry _ (by simpa using hu.rows_length) hu.signs_length]
  simp only [hdot]

def composed (n : Nat) (t u : Tableau) : Tableau where
  n
  rows := (Generator.all n).map (composedRow n t u)
  signs := (Generator.all n).map (composedSign n t u)
  rowWidth := t.rowWidth.join u.rowWidth
  signWidth := .wide

lemma apply_eq (ht : Regular n t) (hu : Regular n u) : t.apply u = .ok (composed n t u) := by
  have hpowers : (range (2 * t.n)).mapM (t.powerOf u) =
      .ok ((Generator.all n).map fun k => powerSum n t t.rowWidth (u.row k.index)) := by
    rw [ht.size, ← map_index_all, mapM_map]
    exact mapM_ok fun k _ => powerOf_eq ht hu k
  simp only [apply, ht.numCols, hu.rows_length, hu.numCols, ht.signs_length, ne_eq, not_true_eq_false,
    if_false, phase_eq ht hu, hpowers, ok_bind, product_eq ht hu, parities_map_all, map_map]
  have hlen : ∀ x : Generator n → Int, ((Generator.all n).map x).length = 2 * n := by
    intro x
    rw [length_map, length_all]
  rw [stretch_entry (· + ·) (hlen _) (hlen _), ok_bind, parities_map_all]
  simp only [entry_map_all]
  refine ofArrays_eq (by rw [length_map, length_all]) (fun r hr => ?_) (hlen _)
  obtain ⟨k, -, rfl⟩ := mem_map.mp hr
  exact hlen _

lemma row_map_all {r : Generator n → List Int} (h : t.rows = (Generator.all n).map r)
    (k : Generator n) : t.row k.index = r k := by
  rw [row, h, getElem?_map, getElem?_all]
  rfl

lemma composed_regular (n : Nat) (t u : Tableau) : Regular n (composed n t u) where
  size := rfl
  rows_length := by rw [composed, length_map, length_all]
  rows_bits r hr := by
    obtain ⟨k, -, rfl⟩ := mem_map.mp hr
    refine ⟨by rw [composedRow, length_map, length_all], fun x hx => ?_⟩
    obtain ⟨j, -, rfl⟩ := mem_map.mp hx
    exact Int.emod_two_eq _
  signs_length := by rw [composed, length_map, length_all]

lemma vec_composed (t u : Tableau) (k : Generator n) :
    (image n (composed n t u) k).vec = ∑ l, (image n t k).vec l • (image n u l).vec := by
  funext j
  have hrow : (composed n t u).row k.index = composedRow n t u k := row_map_all rfl k
  change ((entry ((composed n t u).row k.index) j.index : Int) : ZMod 2) = _
  rw [hrow, composedRow, entry_map_all, cast_emod_two, Int.cast_sum, Finset.sum_apply]
  exact Finset.sum_congr rfl fun l _ => Int.cast_mul _ _

lemma cast_composedSign (t u : Tableau) (k : Generator n) :
    ((composedSign n t u k : Int) : ZMod 2) =
      ∑ l, (image n u k).vec l * (image n t l).sign + (image n u k).sign +
        ((powerSum n t t.rowWidth (u.row k.index) % 4 / 2 : Int) : ZMod 2) := by
  rw [composedSign, cast_emod_two, Int.cast_add, cast_emod_two, Int.cast_add, Int.cast_sum]
  simp only [Int.cast_mul]
  rfl

lemma cast_half {c : Int} {a : ZMod 2} (h : (c : ZMod 4) = twice a) :
    ((c % 4 / 2 : Int) : ZMod 2) = a := by
  have hval : (((c : ZMod 4).val : Nat) : Int) = c % 4 := ZMod.val_intCast c
  rw [← hval, h]
  rcases bit_cases a with rfl | rfl <;> rfl

theorem sign_actAll {gs : List (TableauGate n)} (ht : Regular n t)
    (hgs : ∀ l, image n t l = actAll gs (generator l)) (hu : Regular n u) (k : Generator n) :
    (actAll gs (image n u k)).sign =
      ∑ l, (image n u k).vec l * (image n t l).sign + (image n u k).sign +
        ((powerSum n t .wide (u.row k.index) % 4 / 2 : Int) : ZMod 2) := by
  have hsign := (actAll_eq gs (image n u k)).2
  simp only [← hgs] at hsign
  have hpower := powerSum_wide ht hu k
  have hexact : ((powerSum n t .wide (u.row k.index) : Int) : ZMod 4) =
      twice ((actAll gs (image n u k)).sign - (image n u k).sign -
        ∑ l, (image n u k).vec l * (image n t l).sign) := by
    rw [hpower, map_sub, map_sub, ← hsign]
    ring
  rw [cast_half hexact]
  ring

/-- Whether the power of `i` found in the storage of the rows gives another sign than the exact
power. -/
def signSlip (t u : Tableau) (k : Nat) : Except Error Int := do
  let stored ← t.powerOf u k
  let precise ← { t with rowWidth := .wide }.powerOf u k
  return (stored % 4 / 2 + precise % 4 / 2) % 2

def slipAt (n : Nat) (t u : Tableau) (k : Generator n) : Int :=
  (powerSum n t t.rowWidth (u.row k.index) % 4 / 2 +
    powerSum n t .wide (u.row k.index) % 4 / 2) % 2

lemma signSlips_eq (ht : Regular n t) (hu : Regular n u) :
    (range (2 * n)).mapM (t.signSlip u) = .ok ((Generator.all n).map (slipAt n t u)) := by
  have hwide : Regular n { t with rowWidth := .wide } :=
    ⟨ht.size, ht.rows_length, ht.rows_bits, ht.signs_length⟩
  rw [← map_index_all, mapM_map]
  refine mapM_ok fun k _ => ?_
  change (t.powerOf u k.index >>= _) = _
  rw [powerOf_eq ht hu, ok_bind, powerOf_eq hwide hu]
  rfl

lemma slips_wide (ht : t.rowWidth = .wide) (u : Tableau) :
    (Generator.all n).map (slipAt n t u) = replicate (2 * n) 0 := by
  have hzero : ∀ k, slipAt n t u k = 0 := by
    intro k
    rw [slipAt, ht]
    omega
  rw [map_congr_left fun k _ => hzero k, map_const', length_all]

lemma cast_slipAt (t u : Tableau) (k : Generator n) : ((slipAt n t u k : Int) : ZMod 2) =
      ((powerSum n t t.rowWidth (u.row k.index) % 4 / 2 : Int) : ZMod 2) +
        ((powerSum n t .wide (u.row k.index) % 4 / 2 : Int) : ZMod 2) := by
  rw [slipAt, cast_emod_two, Int.cast_add]

def start (n : Nat) (w : Width) : Tableau :=
  { identity n with rowWidth := w }

lemma start_regular (n : Nat) (w : Width) : Regular n (start n w) :=
  ⟨rfl, (identity_regular n).rows_length, (identity_regular n).rows_bits,
    (identity_regular n).signs_length⟩

lemma appendedAll_rowWidth (gs : List (TableauGate n)) (t : Tableau) :
    (appendedAll gs t).rowWidth = t.rowWidth := by
  induction gs generalizing t with
  | nil => rfl
  | cons g gs ih => exact ih (g.appended t)

lemma image_start_appendedAll (w : Width) (gs : List (TableauGate n)) (k : Generator n) :
    image n (appendedAll gs (start n w)) k = actAll gs (generator k) := by
  rw [image_appendedAll gs (start_regular n w), ← image_identity]
  rfl

/-- Composition follows the first circuit by the second in the matrix. The signs are those of the
circuits in the other order, except where the power of `i` slips. -/
theorem apply_rows_and_signs (w : Width) (gs hs : List (TableauGate n)) :
    ∃ t u after before r slips,
      (gs.forM TableauGate.append).runFrom (start n w) = (.ok (), t) ∧
      (hs.forM TableauGate.append).runFrom (start n w) = (.ok (), u) ∧
      ((gs ++ hs).forM TableauGate.append).runFrom (start n w) = (.ok (), after) ∧
      ((hs ++ gs).forM TableauGate.append).runFrom (start n w) = (.ok (), before) ∧
      t.apply u = .ok r ∧ r.rows = after.rows ∧
      (List.range (2 * n)).mapM (t.signSlip u) = .ok slips ∧
      r.signs = parities (List.zipWith (· + ·) before.signs slips) ∧
      (w = .wide → slips = List.replicate (2 * n) 0) := by
  have hrun : ∀ gs : List (TableauGate n), (appendedAll gs (start n w)).Regular n ∧
      (gs.forM TableauGate.append).runFrom (start n w) = (.ok (), appendedAll gs (start n w)) :=
    fun gs => ⟨appendedAll_regular gs (start_regular n w), appendAll_run gs (start_regular n w)⟩
  have hact : ∀ gs hs : List (TableauGate n), ∀ k, image n (appendedAll (gs ++ hs) (start n w)) k =
      actAll hs (image n (appendedAll gs (start n w)) k) := by
    intro gs hs k
    rw [image_start_appendedAll, image_start_appendedAll, actAll, foldl_append]
    rfl
  obtain ⟨ht, htrun⟩ := hrun gs
  obtain ⟨hu, hurun⟩ := hrun hs
  obtain ⟨hafter, hafterRun⟩ := hrun (gs ++ hs)
  obtain ⟨hbefore, hbeforeRun⟩ := hrun (hs ++ gs)
  refine ⟨_, _, _, _, _, _, htrun, hurun, hafterRun, hbeforeRun, apply_eq ht hu, ?_,
    signSlips_eq ht hu, ?_, fun hw => slips_wide ((appendedAll_rowWidth gs _).trans hw) _⟩
  · refine (composed_regular n _ _).rows_eq hafter fun k => ?_
    rw [vec_composed, hact, (actAll_eq hs _).1]
    simp only [image_start_appendedAll]
  · rw [zipWith_entry _ hbefore.signs_length (by rw [length_map, length_all]),
      parities_map_all]
    refine map_congr_left fun k _ => bit_ext (Int.emod_two_eq _) (Int.emod_two_eq _) ?_
    have hexact : ((entry (appendedAll (hs ++ gs) (start n w)).signs k.index : Int) : ZMod 2) = _ :=
      (congrArg sign (hact hs gs k)).trans
        (sign_actAll ht (image_start_appendedAll w gs) hu k)
    rw [entry_map_all, cast_emod_two, Int.cast_add, cast_slipAt, hexact, cast_composedSign]
    have hcancel : ∀ a b c : ZMod 2, a + b = a + c + (b + c) := by decide
    exact hcancel _ _ _

/-- A half turn about Z and then H: the sign of the X image comes out at the Z image, but not if the gates are
appended one after the other. -/
theorem apply_half_turn_misplaces_sign : ∃ t u v r,
    (List.forM [.s 0, .s 0] (TableauGate.append (n := 1))).runFrom (identity 1) = (.ok (), t) ∧
    (List.forM [.h 0] (TableauGate.append (n := 1))).runFrom (identity 1) = (.ok (), u) ∧
    (List.forM [.s 0, .s 0, .h 0] (TableauGate.append (n := 1))).runFrom (identity 1) = (.ok (), v) ∧
    t.apply u = .ok r ∧ v.rows = r.rows ∧ v.signs = [1, 0] ∧ r.signs = [0, 1] :=
  ⟨_, _, _, _, rfl, rfl, rfl, rfl, by decide, by decide, by decide⟩

/-- In bytes, no gates followed by S have a sign too many. -/
example : ∃ t r,
    (List.forM [.s 0] (TableauGate.append (n := 1))).runFrom (identity 1) = (.ok (), t) ∧
    (identity 1).apply t = .ok r ∧ t.signs = [0, 0] ∧ r.signs = [1, 0] :=
  ⟨_, _, rfl, rfl, by decide, by decide⟩

def inverseRow (n : Nat) (t : Tableau) (k : Generator n) : List Int :=
  (Generator.all n).map fun l => entry (t.row (index l.swap)) (index k.swap)

lemma inverseRows_eq (h : Regular n t) : t.inverseRows = (Generator.all n).map (inverseRow n t) := by
  have hrange : ∀ {α : Type} (f : Nat → α), (range n).map f =
      (finRange n).map fun q : Fin n => f q := by
    intro α f
    rw [← map_coe_finRange_eq_range, map_map]
    rfl
  simp only [inverseRows, h.size, hrange, Generator.all, map_append, map_map, zero_add,
    comp_def, inverseRow]
  rfl

def candidate (n : Nat) (t : Tableau) : Tableau :=
  { t with n, rows := (Generator.all n).map (inverseRow n t) }

lemma candidate_regular (h : Regular n t) : Regular n (candidate n t) where
  size := rfl
  rows_length := by rw [candidate, length_map, length_all]
  rows_bits r hr := by
    obtain ⟨k, -, rfl⟩ := mem_map.mp hr
    refine ⟨by rw [inverseRow, length_map, length_all], fun x hx => ?_⟩
    obtain ⟨l, -, rfl⟩ := mem_map.mp hx
    exact (h.row_bits l.swap).entry_bit _
  signs_length := h.signs_length

def inverted (n : Nat) (t : Tableau) : Tableau :=
  { candidate n t with
    signs := (Generator.all n).map fun k =>
      (entry t.signs k.index + composedSign n t (candidate n t) k) % 2
    signWidth := .wide }

lemma inverse_eq (h : Regular n t) : t.inverse = .ok (inverted n t) := by
  have hcandidate : ofArrays t.rowWidth t.signWidth t.inverseRows t.signs = .ok (candidate n t) := by
    have hregular := candidate_regular h
    rw [inverseRows_eq h]
    exact ofArrays_eq hregular.rows_length (fun r hr => (hregular.rows_bits r hr).length)
      h.signs_length
  have hsize : (t.rows.length = 2 * t.n && t.numCols = 2 * t.n) := by
    simp [h.rows_length, h.numCols, h.size]
  have hsigns : stretch (· + ·) (candidate n t).signs (composed n t (candidate n t)).signs =
      .ok ((Generator.all n).map fun k =>
        entry t.signs k.index + composedSign n t (candidate n t) k) := by
    rw [stretch_entry _ (candidate_regular h).signs_length (composed_regular n _ _).signs_length]
    simp only [composed, entry_map_all]
    rfl
  simp only [inverse, hsize, hcandidate, ok_bind, apply_eq h (candidate_regular h), hsigns,
    parities_map_all]
  rfl

lemma inverted_regular (h : Regular n t) : Regular n (inverted n t) :=
  ⟨rfl, (candidate_regular h).rows_length, (candidate_regular h).rows_bits,
    by rw [inverted, length_map, length_all]⟩

lemma vec_inverted (t : Tableau) (k l : Generator n) :
    (image n (inverted n t) k).vec l = (image n t l.swap).vec k.swap := by
  have hrow : (inverted n t).row k.index = inverseRow n t k := row_map_all rfl k
  change ((entry ((inverted n t).row k.index) l.index : Int) : ZMod 2) = _
  rw [hrow, inverseRow, entry_map_all]
  rfl

lemma sign_inverted (t : Tableau) (k : Generator n) : (image n (inverted n t) k).sign =
      ∑ l, (image n (inverted n t) k).vec l * (image n t l).sign +
        ((powerSum n t t.rowWidth ((inverted n t).row k.index) % 4 / 2 : Int) : ZMod 2) := by
  have hsign : (image n (inverted n t) k).sign =
      ((entry t.signs k.index : Int) : ZMod 2) + composedSign n t (candidate n t) k := by
    rw [image, inverted, entry_map_all, cast_emod_two, Int.cast_add]
  have hcancel : ∀ a b c : ZMod 2, a + (b + a + c) = b + c := by decide
  rw [hsign, cast_composedSign]
  exact hcancel _ _ _

lemma sum_vec_inverted (h : matrix n t ∈ Matrix.symplecticGroup (Fin n) (ZMod 2)) (k : Generator n) :
    ∑ l, (image n (inverted n t) k).vec l • (image n t l).vec = Pi.single k 1 := by
  funext j
  have hcolumns := mem_symplecticGroup_iff.mp (SymplecticGroup.transpose_mem h) k.swap j
  rw [symp_single_right] at hcolumns
  calc (∑ l, (image n (inverted n t) k).vec l • (image n t l).vec) j
      = symp ((matrix n t).transpose k.swap) ((matrix n t).transpose j) := by
        simp only [Finset.sum_apply, Pi.smul_apply, smul_eq_mul, Fintype.sum_sum_type, vec_inverted,
          symp, meets, Sum.swap_inl, Sum.swap_inr, mul_comm ((matrix n t).transpose j (.inr _))]
        rfl
    _ = (Pi.single k.swap 1 : PauliVector n) j.swap := hcolumns
    _ = (Pi.single k 1 : PauliVector n) j := by
        grind

section

variable {gs : List (TableauGate n)}

lemma inverted_binarySigns (n : Nat) (t : Tableau) : (inverted n t).BinarySigns := by
  intro s hs
  obtain ⟨k, -, rfl⟩ := mem_map.mp hs
  exact Int.emod_two_eq _

lemma vec_actAll_inverted (ht : t.Regular n)
    (hgs : ∀ k, image n t k = actAll gs (generator k)) (k : Generator n) :
    (actAll gs (image n (inverted n t) k)).vec = Pi.single k 1 := by
  have hrepresents : t.Represents gs := ⟨ht, fun k => (hgs k).symm ▸ circuitUnitary_moves gs _⟩
  rw [(actAll_eq gs _).1]
  simp only [← hgs]
  exact sum_vec_inverted hrepresents.symplectic k

lemma rows_appended_inverted (ht : t.Regular n)
    (hgs : ∀ k, image n t k = actAll gs (generator k)) :
    (appendedAll gs (inverted n t)).rows = (identity n).rows := by
  have hu := inverted_regular ht
  refine (appendedAll_regular gs hu).rows_eq (identity_regular n) fun k => ?_
  rw [image_appendedAll gs hu, image_identity, vec_actAll_inverted ht hgs]
  rfl

lemma signs_appended_inverted (ht : t.Regular n)
    (hgs : ∀ k, image n t k = actAll gs (generator k)) :
    (appendedAll gs (inverted n t)).signs = (Generator.all n).map (slipAt n t (inverted n t)) := by
  have hu := inverted_regular ht
  have hbinary := (inverted_binarySigns n t).appendedAll gs
  rw [(appendedAll_regular gs hu).signs_eq_map]
  refine map_congr_left fun k _ => bit_ext (hbinary.entry_bit _) (Int.emod_two_eq _) ?_
  have hleft : ((entry (appendedAll gs (inverted n t)).signs k.index : Int) : ZMod 2) = _ :=
    (congrArg sign (image_appendedAll gs hu k)).trans (sign_actAll ht hgs hu k)
  have hcancel : ∀ a b c : ZMod 2, a + (a + b) + c = b + c := by decide
  rw [hleft, sign_inverted, cast_slipAt]
  exact hcancel _ _ _

end

/-- Appending the gates of a circuit to its inverse gives the identity matrix, and the signs that are
left are those that slip. -/
theorem inverse_append_signs (w : Width) (gs : List (TableauGate n)) :
    ∃ t u r,
      (gs.forM TableauGate.append).runFrom (start n w) = (.ok (), t) ∧ t.inverse = .ok u ∧
      (gs.forM TableauGate.append).runFrom u = (.ok (), r) ∧ r.rows = (identity n).rows ∧
      (List.range (2 * n)).mapM (t.signSlip u) = .ok r.signs ∧
      (w = .wide → r.signs = List.replicate (2 * n) 0) := by
  have ht := appendedAll_regular gs (start_regular n w)
  have hgs := image_start_appendedAll w gs
  have hu := inverted_regular ht
  refine ⟨_, _, _, appendAll_run gs (start_regular n w), inverse_eq ht, appendAll_run gs hu,
    rows_appended_inverted ht hgs, ?_, fun hw => ?_⟩
  · rw [signs_appended_inverted ht hgs, signSlips_eq ht hu]
  · rw [signs_appended_inverted ht hgs]
    exact slips_wide ((appendedAll_rowWidth gs _).trans hw) _

/-- In bytes, S and H after their inverse leave a sign. -/
theorem append_to_inverse_leaves_sign : ∃ t u r,
    (List.forM [.s 0, .h 0] (TableauGate.append (n := 1))).runFrom (identity 1) = (.ok (), t) ∧
    t.inverse = .ok u ∧
    (List.forM [.s 0, .h 0] (TableauGate.append (n := 1))).runFrom u = (.ok (), r) ∧
    r.signs = [0, 1] :=
  ⟨_, _, _, rfl, rfl, rfl, by decide⟩

end Tableau

end GadgetCircuits
