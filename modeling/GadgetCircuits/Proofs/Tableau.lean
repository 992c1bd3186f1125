import GadgetCircuits.Proofs.TableauGate
import GadgetCircuits.Proofs.Prelude
import GadgetCircuits.Tableau.Basic

/-!
Tableaux as the images of the generators. A row of bits is a vector over the generators; gates at the
end of a circuit act on every image, and gates at its front recombine the images. A tableau reached
by gates at either end holds the images under conjugation by the circuit.
-/

namespace GadgetCircuits

open List Generator Update Function SignedPauli PauliVector Matrix TableauGate

variable {n : Nat}

def Generator.index : Generator n → Nat
  | .inl q => q
  | .inr q => n + q

lemma Generator.index_lt (k : Generator n) : k.index < 2 * n := by
  cases k with
  | inl q => exact lt_of_lt_of_le q.isLt (Nat.le_mul_of_pos_left n two_pos)
  | inr q =>
    have := q.isLt
    simp only [index]
    omega

lemma Generator.index_inj {k l : Generator n} : k.index = l.index ↔ k = l := by
  constructor
  · intro h
    cases k with
    | inl q =>
      cases l with
      | inl r => exact congrArg Sum.inl (Fin.ext h)
      | inr r =>
        have := q.isLt
        simp only [index] at h
        omega
    | inr q =>
      cases l with
      | inl r =>
        have := r.isLt
        simp only [index] at h
        omega
      | inr r => exact congrArg Sum.inr (Fin.ext (Nat.add_left_cancel h))
  · exact congrArg index

lemma Generator.exists_index {i : Nat} (h : i < 2 * n) : ∃ k : Generator n, k.index = i := by
  by_cases hi : i < n
  · exact ⟨.inl ⟨i, hi⟩, rfl⟩
  · exact ⟨.inr ⟨i - n, by omega⟩, by simp only [index]; omega⟩

namespace Tableau

variable {r : List Int} {j : Nat}

structure BitRow (n : Nat) (r : List Int) : Prop where
  length : r.length = 2 * n
  bit : ∀ x ∈ r, x = 0 ∨ x = 1

def rowVector (n : Nat) (r : List Int) : PauliVector n :=
  fun k => ((entry r k.index : Int) : ZMod 2)

lemma entry_eq (h : j < r.length) : entry r j = r[j] := by
  rw [entry, getElem?_eq_getElem h, Option.getD_some]

lemma entry_map (f : Int → Int) (h : j < r.length) : entry (r.map f) j = f (entry r j) := by
  rw [entry_eq (by simpa using h), entry_eq h, getElem_map]

lemma entry_set {a : Nat} (h : a < r.length) (x : Int) (j : Nat) :
    entry (r.set a x) j = if j = a then x else entry r j := by
  rw [entry, entry, getElem?_set]
  by_cases hj : j = a
  · simp [hj, h]
  · simp [hj, Ne.symm hj]

lemma entry_zipWith {xs ys : List Int} (f : Int → Int → Int) (hlen : xs.length = ys.length)
    (h : j < xs.length) : entry (zipWith f xs ys) j = f (entry xs j) (entry ys j) := by
  rw [entry_eq (by simpa [← hlen] using h), entry_eq h, entry_eq (hlen ▸ h), getElem_zipWith]

lemma bit_ext {a b : Int} (ha : a = 0 ∨ a = 1) (hb : b = 0 ∨ b = 1)
    (h : (a : ZMod 2) = (b : ZMod 2)) : a = b := by
  have hmod := (ZMod.intCast_eq_intCast_iff' a b 2).mp h
  omega

lemma bitXor_bit {a b : Int} (ha : a = 0 ∨ a = 1) (hb : b = 0 ∨ b = 1) :
    bitXor a b = (a + b) % 2 := by
  rcases ha with rfl | rfl <;> rcases hb with rfl | rfl <;> rfl

lemma cast_emod_two (a : Int) : ((a % 2 : Int) : ZMod 2) = a := ZMod.intCast_mod a 2

section Rows

variable {r' : List Int} (h : BitRow n r)
include h

lemma BitRow.index_lt (k : Generator n) : k.index < r.length := by
  rw [h.length]
  exact k.index_lt

lemma BitRow.entry_bit (j : Nat) : entry r j = 0 ∨ entry r j = 1 := by
  rw [entry]
  cases hj : r[j]? with
  | none => exact .inl rfl
  | some x => exact h.bit x (mem_of_getElem? hj)

lemma BitRow.set {x : Int} (hx : x = 0 ∨ x = 1) (a : Nat) : BitRow n (r.set a x) where
  length := by rw [length_set, h.length]
  bit y hy := by
    rcases mem_or_eq_of_mem_set hy with hy | rfl
    · exact h.bit y hy
    · exact hx

lemma BitRow.eq_of_rowVector (h' : BitRow n r') (hv : rowVector n r = rowVector n r') : r = r' := by
  refine ext_getElem (by rw [h.length, h'.length]) fun j hj hj' => ?_
  obtain ⟨k, rfl⟩ := exists_index (h.length ▸ hj)
  rw [← entry_eq hj, ← entry_eq hj']
  exact bit_ext (h.entry_bit _) (h'.entry_bit _) (congrFun hv k)

lemma rowVector_set (k : Generator n) (x : Int) :
    rowVector n (r.set k.index x) = Function.update (rowVector n r) k (x : ZMod 2) := by
  funext l
  rw [rowVector, entry_set (h.index_lt k), update_apply]
  by_cases hl : l = k
  · rw [if_pos hl, if_pos (congrArg _ hl)]
  · rw [if_neg hl, if_neg fun e => hl (index_inj.mp e), rowVector]

lemma BitRow.swapEntries (a b : Nat) : BitRow n (swapEntries a b r) :=
  (h.set (h.entry_bit b) a).set (h.entry_bit a) b

lemma BitRow.xorEntry (a b : Nat) : BitRow n (xorEntry a b r) := by
  refine h.set ?_ a
  rw [bitXor_bit (h.entry_bit a) (h.entry_bit b)]
  exact Int.emod_two_eq _

lemma rowVector_swapEntries (k l : Generator n) :
    rowVector n (swapEntries k.index l.index r) =
      Function.update (Function.update (rowVector n r) k (rowVector n r l)) l (rowVector n r k) := by
  rw [swapEntries, rowVector_set (h.set (h.entry_bit _) _), rowVector_set h]
  rfl

lemma rowVector_xorEntry (k l : Generator n) :
    rowVector n (xorEntry k.index l.index r) =
      Function.update (rowVector n r) k (rowVector n r k + rowVector n r l) := by
  rw [xorEntry, rowVector_set h, bitXor_bit (h.entry_bit _) (h.entry_bit _), cast_emod_two,
    Int.cast_add]
  rfl

end Rows

/-- A tableau on `n` qubits whose rows are rows of bits. -/
structure Regular (n : Nat) (t : Tableau) : Prop where
  size : t.n = n
  rows_length : t.rows.length = 2 * n
  rows_bits : ∀ r ∈ t.rows, BitRow n r
  signs_length : t.signs.length = 2 * n

/-- The image of a generator. -/
def image (n : Nat) (t : Tableau) (k : Generator n) : SignedPauli n :=
  ⟨rowVector n (t.row k.index), ((entry t.signs k.index : Int) : ZMod 2)⟩

def signAt (n : Nat) (t : Tableau) (k : Generator n) : Int :=
  entry t.signs k.index

lemma row_eq {t : Tableau} {i : Nat} (h : i < t.rows.length) : t.row i = t.rows[i] := by
  rw [row, getElem?_eq_getElem h, Option.getD_some]

lemma identity_regular (n : Nat) : Regular n (identity n) where
  size := rfl
  rows_length := by simp [identity]
  rows_bits r hr := by
    obtain ⟨i, -, rfl⟩ := mem_map.mp hr
    refine ⟨by simp [unitRow], fun x hx => ?_⟩
    obtain ⟨j, -, rfl⟩ := mem_map.mp hx
    split
    · exact .inr rfl
    · exact .inl rfl
  signs_length := by simp [identity]

lemma image_identity (k : Generator n) : image n (identity n) k = generator k := by
  have hk : k.index < ((range (2 * n)).map (unitRow (2 * n))).length := by
    simpa using k.index_lt
  refine SignedPauli.ext (funext fun l => ?_) ?_
  · have hl : l.index < (unitRow (2 * n) k.index).length := by simpa [unitRow] using l.index_lt
    have hrow : (identity n).row k.index = unitRow (2 * n) k.index := by
      rw [row_eq hk]
      simp [identity]
    change ((entry ((identity n).row k.index) l.index : Int) : ZMod 2) =
      (Pi.single k 1 : PauliVector n) l
    rw [hrow, entry_eq hl]
    by_cases h : k = l
    · simp [unitRow, h]
    · simp [unitRow, index_inj, h, Ne.symm h]
  · have hl : k.index < (replicate (2 * n) (0 : Int)).length := by simpa using k.index_lt
    rw [image, identity, entry_eq hl, getElem_replicate]
    rfl

lemma position_int {size k : Nat} {i : Int} (hi : i = k) (h : k < size) :
    position size (.int i) = .ok k := by
  subst hi
  have hk : Slice.position? size (k : Int) = some k := by
    have hpos : ¬((k : Int) < 0) := by omega
    simp [Slice.position?, hpos, h]
  simp only [position, Value.int?, hk]

lemma moved_ofNat (t : Tableau) (q : Nat) : t.moved (.ofNat q) = .ok (.int (q + t.n)) := rfl

namespace Regular

variable {t u : Tableau} (h : Regular n t) (k : Generator n)
include h

lemma index_lt : k.index < t.rows.length := by
  rw [h.rows_length]
  exact k.index_lt

lemma index_lt_signs : k.index < t.signs.length := by
  rw [h.signs_length]
  exact k.index_lt

lemma row_bits : BitRow n (t.row k.index) := by
  rw [row_eq (h.index_lt k)]
  exact h.rows_bits _ (getElem_mem _)

lemma numCols : t.numCols = 2 * n := by
  rw [Tableau.numCols]
  cases hr : t.rows with
  | nil =>
    have := h.rows_length
    rw [hr] at this
    exact this
  | cons r rs => exact (h.rows_bits r (hr ▸ mem_cons_self)).length

lemma rows_eq (h' : Regular n u) (hv : ∀ k, (image n t k).vec = (image n u k).vec) : t.rows = u.rows := by
  refine ext_getElem (by rw [h.rows_length, h'.rows_length]) fun i hi hi' => ?_
  obtain ⟨k, rfl⟩ := exists_index (h.rows_length ▸ hi)
  rw [← row_eq hi, ← row_eq hi']
  exact (h.row_bits k).eq_of_rowVector (h'.row_bits k) (hv k)

lemma parities_eq (h' : Regular n u)
    (hs : ∀ k, (image n t k).sign = (image n u k).sign) : parities t.signs = parities u.signs := by
  refine ext_getElem (by simp [parities, h.signs_length, h'.signs_length]) fun i hi hi' => ?_
  simp only [parities, length_map] at hi hi'
  obtain ⟨k, rfl⟩ := exists_index (h.signs_length ▸ hi)
  simp only [parities, getElem_map, ← entry_eq hi, ← entry_eq hi']
  exact (ZMod.intCast_eq_intCast_iff' _ _ 2).mp (hs k)

lemma column {i : Int} (hi : i = k.index) : t.column (.int i) = .ok k.index := by
  rw [Tableau.column, h.numCols]
  exact position_int hi k.index_lt

lemma rowAt {i : Int} (hi : i = k.index) : t.rowAt (.int i) = .ok k.index := by
  rw [Tableau.rowAt, h.rows_length]
  exact position_int hi k.index_lt

lemma moved_index (q : Fin n) : ((q : Nat) : Int) + t.n = (index (.inr q : Generator n) : Int) := by
  rw [h.size, show index (.inr q : Generator n) = n + q from rfl, Int.natCast_add, add_comm]

lemma bits (q : Fin n) : t.bits (.ofNat q) = .ok ((q : Nat), n + q) := by
  have hx : t.column (.ofNat q) = .ok (q : Nat) := h.column (.inl q) rfl
  rw [Tableau.bits, moved_ofNat, ok_bind, hx, ok_bind, h.column (.inr q) (h.moved_index q)]
  rfl

end Regular

lemma addToSigns_eq {t : Tableau} {ds : List Int} (h : t.signs.length = ds.length) :
    t.addToSigns ds = .ok { t with signs := parities (zipWith (· + ·) t.signs ds) } := by
  match ds, h with
  | [], h => simp [addToSigns, h]
  | [d], h =>
    obtain ⟨s, hs⟩ := length_eq_one_iff.mp h
    simp [addToSigns, hs]
  | d :: e :: ds, h => simp [addToSigns, h]

end Tableau

open Tableau in
def TableauGate.onRow : TableauGate n → List Int → List Int
  | .h q, r => swapEntries q (n + q) r
  | .s q, r => xorEntry (n + q) q r
  | .cx c t _, r => xorEntry (n + c) (n + t) (xorEntry t c r)

open Tableau in
def TableauGate.signOf : TableauGate n → List Int → Int
  | .h q, r => entry r q * entry r (n + q)
  | .s q, r => entry r q * entry r (n + q)
  | .cx c t ne, r =>
    let r' := (cx c t ne).onRow r
    entry r' c * entry r' (n + t) * (entry r' t + entry r' (n + c) + 1)

namespace TableauGate

variable (g : TableauGate n) {r : List Int} {t : Tableau}

open Tableau

def append : TableauGate n → Update Tableau Unit
  | .h q => Tableau.hAt (.ofNat q)
  | .s q => Tableau.sAt (.ofNat q)
  | .cx c t _ => cxAt (.ofNat c) (.ofNat t)

def appended (g : TableauGate n) (t : Tableau) : Tableau :=
  { t with
    rows := t.rows.map g.onRow
    signs := parities (List.zipWith (· + ·) t.signs (t.rows.map g.signOf)) }

lemma append_run (h : t.Regular n) : g.append.runFrom t = (.ok (), g.appended t) := by
  have hsigns : t.signs.length = (t.rows.map g.signOf).length := by
    rw [length_map, h.signs_length, h.rows_length]
  cases g with
  | h q =>
    refine runFrom_replace ?_
    rw [h.bits, ok_bind]
    exact congrArg (· >>= _) (addToSigns_eq hsigns)
  | s q =>
    refine runFrom_replace ?_
    rw [h.bits, ok_bind]
    exact congrArg (· >>= _) (addToSigns_eq hsigns)
  | cx c d hne =>
    have hx : ∀ q : Fin n, t.columnOrNone (.ofNat q) = .ok (q : Nat) := fun q =>
      h.column (.inl q) rfl
    have hz : ∀ q : Fin n, t.column (.int ((q : Nat) + t.n)) = .ok (n + q) := fun q =>
      h.column (.inr q) (h.moved_index q)
    refine runFrom_replace ?_
    rw [hx, ok_bind, hx, ok_bind, moved_ofNat, ok_bind, hz, ok_bind, moved_ofNat, ok_bind, hz,
      ok_bind, appendCX]
    have hrows : (t.rows.map (cx c d hne).onRow).map
        (fun r => entry r c * entry r (n + d) * (entry r d + entry r (n + c) + 1)) =
        t.rows.map (cx c d hne).signOf := map_map
    exact (congrArg _ hrows).trans (addToSigns_eq hsigns)

lemma onRow_bits (h : BitRow n r) : BitRow n (g.onRow r) := by
  cases g with
  | h q => exact h.swapEntries _ _
  | s q => exact h.xorEntry _ _
  | cx c t hne => exact (h.xorEntry _ _).xorEntry _ _

lemma rowVector_onRow (h : BitRow n r) : rowVector n (g.onRow r) = g.onVector (rowVector n r) := by
  have hcancel : ∀ a b : ZMod 2, a + (a + b) = b ∧ b + (a + b) = a := by decide
  cases g with
  | h q =>
    refine (rowVector_swapEntries h (.inl q) (.inr q)).trans (funext fun k => ?_)
    simp only [onVector, Pi.add_apply, Pi.single_apply, update_apply]
    grind
  | s q =>
    refine (rowVector_xorEntry h (.inr q) (.inl q)).trans (funext fun k => ?_)
    simp only [onVector, Pi.add_apply, Pi.single_apply, update_apply]
    by_cases hz : k = .inr q <;> simp [hz]
  | cx c t hne =>
    refine (rowVector_xorEntry (h.xorEntry _ _) (.inr c) (.inr t)).trans ?_
    rw [show rowVector n (xorEntry t c r) = _ from rowVector_xorEntry h (.inl t) (.inl c)]
    funext k
    simp only [onVector, Pi.add_apply, Pi.single_apply, update_apply]
    grind

lemma cast_signOf (h : BitRow n r) :
    ((g.signOf r : Int) : ZMod 2) = g.turnsSign (rowVector n r) := by
  cases g with
  | h q => exact Int.cast_mul _ _
  | s q => exact Int.cast_mul _ _
  | cx c t hne =>
    -- The bits of the row after the gate are used, which makes no difference.
    have hafter : ∀ k, ((entry ((cx c t hne).onRow r) k.index : Int) : ZMod 2) =
        (cx c t hne).onVector (rowVector n r) k := congrFun (rowVector_onRow _ h)
    have hlocal : ∀ a b x z : ZMod 2, a * b * (x + a + (z + b) + 1) = a * b * (x + z + 1) := by decide
    have hxc := hafter (.inl c)
    have hxt := hafter (.inl t)
    have hzc := hafter (.inr c)
    have hzt := hafter (.inr t)
    simp only [index] at hxc hxt hzc hzt
    simp only [signOf, Int.cast_mul, Int.cast_add, Int.cast_one, hxc, hxt, hzc, hzt]
    simp [onVector, turnsSign, hne, hne.symm, hlocal]

lemma appended_regular (h : t.Regular n) : (g.appended t).Regular n where
  size := h.size
  rows_length := by rw [appended, length_map, h.rows_length]
  rows_bits r hr := by
    obtain ⟨r', hr', rfl⟩ := mem_map.mp hr
    exact g.onRow_bits (h.rows_bits r' hr')
  signs_length := by simp [appended, parities, h.signs_length, h.rows_length]

lemma image_appended (h : t.Regular n) (k : Generator n) :
    image n (g.appended t) k = g.act (image n t k) := by
  have hk := h.index_lt k
  have hrow : (g.appended t).row k.index = g.onRow (t.row k.index) := by
    rw [row_eq (by simpa [appended] using hk), row_eq hk]
    exact getElem_map _
  have hsign : entry (g.appended t).signs k.index =
      (entry t.signs k.index + g.signOf (t.row k.index)) % 2 := by
    have hmap : entry (t.rows.map g.signOf) k.index = g.signOf (t.row k.index) := by
      rw [entry_eq (by simpa using hk), getElem_map, row_eq hk]
    have hlen : t.signs.length = (t.rows.map g.signOf).length := by
      rw [length_map, h.signs_length, h.rows_length]
    have hzip := entry_zipWith (· + ·) hlen (h.index_lt_signs k)
    rw [appended, parities, entry_map _ (by simpa [← hlen] using h.index_lt_signs k), hzip, hmap]
  refine SignedPauli.ext ?_ ?_
  · rw [image, hrow]
    exact g.rowVector_onRow (h.row_bits k)
  · rw [image, hsign, cast_emod_two, Int.cast_add, g.cast_signOf (h.row_bits k)]
    rfl

end TableauGate

namespace Tableau

variable {r : List Int} {t : Tableau} (gs : List (TableauGate n))

def appendedAll (gs : List (TableauGate n)) (t : Tableau) : Tableau :=
  gs.foldl (fun t g => g.appended t) t

lemma appendAll_run (h : t.Regular n) :
    (gs.forM append).runFrom t = (.ok (), appendedAll gs t) := by
  induction gs generalizing t with
  | nil => rfl
  | cons g gs ih =>
    rw [show (g :: gs).forM append = g.append >>= fun _ => gs.forM append
      from rfl, runFrom_bind, g.append_run h]
    exact ih (g.appended_regular h)

lemma appendedAll_regular (h : t.Regular n) : (appendedAll gs t).Regular n := by
  induction gs generalizing t with
  | nil => exact h
  | cons g gs ih => exact ih (g.appended_regular h)

lemma image_appendedAll (h : t.Regular n) (k : Generator n) :
    image n (appendedAll gs t) k = actAll gs (image n t k) := by
  induction gs generalizing t with
  | nil => rfl
  | cons g gs ih => exact (ih (g.appended_regular h)).trans (by rw [g.image_appended h]; rfl)

def BinarySigns (t : Tableau) : Prop :=
  ∀ s ∈ t.signs, s = 0 ∨ s = 1

lemma BinarySigns.entry_bit (h : t.BinarySigns) (i : Nat) :
    entry t.signs i = 0 ∨ entry t.signs i = 1 := by
  rw [entry]
  cases hi : t.signs[i]? with
  | none => exact .inl rfl
  | some s => exact h s (mem_of_getElem? hi)

lemma appended_binarySigns (g : TableauGate n) (t : Tableau) : (g.appended t).BinarySigns := by
  intro s hs
  obtain ⟨a, -, rfl⟩ := mem_map.mp hs
  exact Int.emod_two_eq a

lemma BinarySigns.appendedAll (h : t.BinarySigns) : (appendedAll gs t).BinarySigns := by
  induction gs generalizing t with
  | nil => exact h
  | cons g gs ih => exact ih (appended_binarySigns g t)

lemma stretch_eq {f : Int → Int → Int} {xs ys : List Int} (h : xs.length = ys.length) :
    stretch f xs ys = .ok (zipWith f xs ys) := by
  match xs, ys, h with
  | [], [], _ => rfl
  | [x], [y], _ => rfl
  | x :: x' :: xs, y :: y' :: ys, h => simpa [stretch] using h

lemma stretch_ofFn (f : Int → Int → Int) (x y : Fin n → Int) :
    stretch f (ofFn x) (ofFn y) = .ok (ofFn fun q => f (x q) (y q)) := by
  rw [stretch_eq (by simp)]
  exact congrArg Except.ok (ext_getElem (by simp) fun i _ _ => by simp)

lemma intSum_ofFn (x : Fin n → Int) : intSum (ofFn x) = ∑ q, x q := (sum_ofFn (f := x) :)

lemma BitRow.halves (h : BitRow n r) :
    halves n r = (ofFn fun q : Fin n => entry r q, ofFn fun q : Fin n => entry r (n + q)) := by
  have hlen := h.length
  refine Prod.ext (ext_getElem ?_ fun i hi hi' => ?_) (ext_getElem ?_ fun i hi hi' => ?_)
  · simp [Tableau.halves]; omega
  · simp at hi'
    simp [Tableau.halves, entry_eq (show i < r.length by omega)]
  · simp [Tableau.halves]; omega
  · simp at hi'
    simp [Tableau.halves, entry_eq (show n + i < r.length by omega)]

lemma entry_halves (x z : Fin n → Int) (k : Generator n) :
    entry (ofFn x ++ ofFn z) k.index = Sum.elim x z k := by
  cases k with
  | inl q =>
    have hq : (q : Nat) < (ofFn x).length := by simp
    simp [index, entry, getElem?_append_left hq]
  | inr q => simp [index, entry]

def sumRow (n : Nat) (r s : List Int) : List Int :=
  (List.ofFn fun q : Fin n => (entry r q + entry s q) % 2) ++
    List.ofFn fun q : Fin n => (entry r (n + q) + entry s (n + q)) % 2

lemma sumRow_bits (n : Nat) (r s : List Int) : BitRow n (sumRow n r s) where
  length := by simp [sumRow, two_mul]
  bit x hx := by
    rcases mem_append.mp hx with hx | hx <;>
      obtain ⟨q, rfl⟩ := mem_ofFn.mp hx <;> exact Int.emod_two_eq _

lemma rowVector_sumRow (n : Nat) (r s : List Int) :
    rowVector n (sumRow n r s) = rowVector n r + rowVector n s := by
  funext k
  rw [rowVector, sumRow, entry_halves]
  cases k with
  | inl q => exact (cast_emod_two _).trans (Int.cast_add _ _)
  | inr q => exact (cast_emod_two _).trans (Int.cast_add _ _)

def antiAt (x z x' z' : Int) : Int :=
  (z * x' + x * z') % 2

def turnedAt (x z x' z' : Int) : Int :=
  (z * x' + (x + x') % 2 + (z + z') % 2) % 2 * antiAt x z x' z'

lemma multiply_eq {s : List Int} (hr : BitRow n r) (hs : BitRow n s) :
    multiply (halves n r) (halves n s) = .ok (sumRow n r s, decide (1 <
      (∑ q : Fin n, antiAt (entry r q) (entry r (n + q)) (entry s q) (entry s (n + q)) +
        2 * ∑ q : Fin n, turnedAt (entry r q) (entry r (n + q)) (entry s q) (entry s (n + q))) % 4)) := by
  rw [hr.halves, hs.halves]
  simp only [multiply, stretch_ofFn, parities, map_ofFn, ok_bind, intSum_ofFn]
  rfl

lemma cast_turnedAt {x z x' z' : Int} (hx : x = 0 ∨ x = 1) (hz : z = 0 ∨ z = 1)
    (hx' : x' = 0 ∨ x' = 1) (hz' : z' = 0 ∨ z' = 1) :
    ((antiAt x z x' z' + 2 * turnedAt x z x' z' : Int) : ZMod 4) = -letterTurn x z x' z' := by
  rcases hx with rfl | rfl <;> rcases hz with rfl | rfl <;> rcases hx' with rfl | rfl <;>
    rcases hz' with rfl | rfl <;> decide

lemma turned_eq (c : Int) :
    (if decide (1 < c % 4) then 1 else 0 : Int) = (half (c : ZMod 4)).val := by
  have hval : (((c : ZMod 4).val : Nat) : Int) = c % 4 := ZMod.val_intCast c
  rw [half]
  by_cases h : 1 < c % 4
  · rw [if_pos (decide_eq_true h), if_pos (by omega)]
    rfl
  · rw [if_neg (by simpa using h), if_neg (by omega)]
    rfl

lemma multiply_spec {s : List Int} (hr : BitRow n r) (hs : BitRow n s) :
    ∃ turned, multiply (halves n r) (halves n s) = .ok (sumRow n r s, turned) ∧
      (if turned then 1 else 0 : Int) =
        (half (-turns (rowVector n r) (rowVector n s))).val := by
  refine ⟨_, multiply_eq hr hs, ?_⟩
  rw [turned_eq, Finset.mul_sum, ← Finset.sum_add_distrib, Int.cast_sum, turns,
    ← Finset.sum_neg_distrib]
  congr 3
  refine Finset.sum_congr rfl fun q _ => ?_
  exact cast_turnedAt (hr.entry_bit _) (hr.entry_bit _) (hs.entry_bit _) (hs.entry_bit _)

/-- The sign of a product as a number: the signs of its factors, and the one that it takes. -/
def productSign (f : Generator n → SignedPauli n) (s : Generator n → Int) (k l : Generator n) : Int :=
  s k + s l + (half (-turns (f k).vec (f l).vec)).val

section Insert

variable (h : Regular n t) (k : Generator n)
include h

lemma insertRow_run {p : List Int} (hp : BitRow n p) (sign : Int) :
    (insertRow k.index p sign).runFrom t =
      (.ok (), { t with rows := t.rows.set k.index p, signs := t.signs.set k.index sign }) := by
  have hwrap : p.map t.rowWidth.wrap = p := by
    refine (map_congr_left fun x hx => ?_).trans (map_id p)
    rcases hp.bit x hx with rfl | rfl <;> cases t.rowWidth <;> rfl
  have hlen : p.length = t.numCols := by rw [hp.length, h.numCols]
  -- A single entry would be stretched over the row, but a row has an even number of entries.
  have hone : p.length ≠ 1 := by
    rw [hp.length]
    omega
  rcases p with _ | ⟨x, _ | ⟨y, p⟩⟩
  on_goal 2 => exact absurd rfl hone
  all_goals simp only [insertRow, runFrom_bind, runFrom_get, if_pos hlen, runFrom_pure,
    hwrap, runFrom_set, if_pos (h.index_lt_signs k), runFrom_modify]

lemma Regular.insert {p : List Int} (hp : BitRow n p) (sign : Int) :
    Regular n { t with rows := t.rows.set k.index p, signs := t.signs.set k.index sign } where
  size := h.size
  rows_length := by rw [length_set, h.rows_length]
  rows_bits r hr := by
    rcases mem_or_eq_of_mem_set hr with hr | rfl
    · exact h.rows_bits r hr
    · exact hp
  signs_length := by rw [length_set, h.signs_length]

lemma Regular.image_insert (p : List Int) (sign : Int) :
    image n { t with rows := t.rows.set k.index p, signs := t.signs.set k.index sign } =
      Function.update (image n t) k ⟨rowVector n p, (sign : ZMod 2)⟩ := by
  funext l
  rw [update_apply, image, entry_set (h.index_lt_signs k), row, getElem?_set]
  by_cases hl : l = k
  · simp [hl, h.index_lt k]
  · have hindex : l.index ≠ k.index := fun e => hl (index_inj.mp e)
    simp [hl, hindex, hindex.symm, image, row]

lemma Regular.signAt_insert (p : List Int) (sign : Int) :
    signAt n { t with rows := t.rows.set k.index p, signs := t.signs.set k.index sign } =
      Function.update (signAt n t) k sign := by
  funext l
  rw [update_apply, signAt, entry_set (h.index_lt_signs k)]
  simp only [index_inj]
  rfl

lemma xorRow_finishes (l : Generator n) :
    (xorRow k.index l.index).Finishes t fun _ t' => Regular n t' ∧
      image n t' = Function.update (image n t) k ((image n t k).mul (image n t l)) ∧
      signAt n t' =
        Function.update (signAt n t) k (productSign (image n t) (signAt n t) k l % 4) := by
  obtain ⟨turned, hrun, hturned⟩ := multiply_spec (h.row_bits k) (h.row_bits l)
  have hbound : (k.index < t.signs.length && l.index < t.signs.length) := by
    simp [h.index_lt_signs k, h.index_lt_signs l]
  refine ⟨(), _, ?_, h.insert k (sumRow_bits n (t.row k.index) (t.row l.index))
    ((entry t.signs k.index + entry t.signs l.index + if turned then 1 else 0) % 4), ?_, ?_⟩
  · have hrun' : multiply (halves t.n (t.row k.index)) (halves t.n (t.row l.index)) =
        .ok (sumRow n (t.row k.index) (t.row l.index), turned) := by
      rw [h.size]
      exact hrun
    simp only [xorRow, runFrom_bind, runFrom_get, hbound, Bool.not_true, hrun']
    exact insertRow_run h k (sumRow_bits n _ _) _
  · have hsign : ∀ a : Int, ((a % 4 : Int) : ZMod 2) = a := by
      intro a
      rw [← cast_emod_two, Int.emod_emod_of_dvd a (by decide : (2 : Int) ∣ 4), cast_emod_two]
    rw [h.image_insert, rowVector_sumRow, hsign, Int.cast_add, hturned, Int.cast_add, Int.cast_natCast,
      ZMod.natCast_zmod_val]
    rfl
  · rw [h.signAt_insert, hturned]
    rfl

lemma xorRows_finishes (l : Generator n) {i j : Int} (hi : i = k.index)
    (hj : j = l.index) :
    (xorRows (.int i) (.int j)).Finishes t fun _ t' => Regular n t' ∧
      image n t' = Function.update (image n t) k ((image n t k).mul (image n t l)) ∧
      signAt n t' =
        Function.update (signAt n t) k (productSign (image n t) (signAt n t) k l % 4) := by
  refine finishes_bind_get ?_
  refine finishes_bind_lift (h.rowAt k hi) ?_
  refine finishes_bind_lift (h.rowAt l hj) ?_
  exact xorRow_finishes h k l

end Insert

end Tableau

namespace TableauGate

open Tableau

variable (g : TableauGate n)

def prepend : TableauGate n → Update Tableau Unit
  | .h q => hBefore (.ofNat q)
  | .s q => sBefore (.ofNat q)
  | .cx c t _ => cxBefore (.ofNat c) (.ofNat t)

def precede : TableauGate n → (Generator n → SignedPauli n) → Generator n → SignedPauli n
  | .h q, f => Function.update (Function.update f (.inl q) (f (.inr q))) (.inr q) (f (.inl q))
  | .s q, f => Function.update f (.inl q) ((f (.inl q)).mul (f (.inr q)))
  | .cx c t _, f =>
    Function.update (Function.update f (.inl c) ((f (.inl c)).mul (f (.inl t)))) (.inr t)
      ((f (.inr t)).mul (f (.inr c)))

def recount : TableauGate n → (Generator n → SignedPauli n) → (Generator n → Int) → Generator n → Int
  | .h q, _, m => Function.update (Function.update m (.inl q) (m (.inr q))) (.inr q) (m (.inl q))
  | .s q, f, m => Function.update m (.inl q) (productSign f m (.inl q) (.inr q) % 4)
  | .cx c t _, f, m =>
    Function.update (Function.update m (.inl c) (productSign f m (.inl c) (.inl t) % 4)) (.inr t)
      (productSign f m (.inr t) (.inr c) % 4)

lemma prepend_finishes {t : Tableau} (h : t.Regular n) :
    g.prepend.Finishes t fun _ t' => t'.Regular n ∧ image n t' = g.precede (image n t) ∧
      signAt n t' = g.recount (image n t) (signAt n t) := by
  cases g with
  | h q =>
    refine finishes_bind_get ?_
    refine finishes_bind_lift (t.moved_ofNat q) ?_
    have hx : position t.signs.length (.ofNat q) = .ok (q : Nat) :=
      position_int rfl (h.index_lt_signs (.inl q))
    have hz : position t.signs.length (.int ((q : Nat) + t.n)) = .ok (n + q) :=
      position_int (h.moved_index q) (h.index_lt_signs (.inr q))
    have hx' : t.rowAt (.ofNat q) = .ok (q : Nat) := h.rowAt (.inl q) rfl
    have hz' : t.rowAt (.int ((q : Nat) + t.n)) = .ok (n + q) := h.rowAt (.inr q) (h.moved_index q)
    refine finishes_bind_of_run (runFrom_replace (t := t.swapSigns q (n + q)) ?_) ?_
    · rw [hx, ok_bind, hz]
      rfl
    have hinsert := h.insert (.inl q) (h.row_bits (.inr q)) (entry t.signs (n + q))
    refine finishes_of_run (runFrom_replace (t := (t.swapSigns q (n + q)).swapRows q (n + q)) ?_)
      ⟨hinsert.insert (.inr q) (h.row_bits (.inl q)) (entry t.signs q), ?_, ?_⟩
    · change (t.rowAt _ >>= _) = _
      rw [hx', ok_bind]
      change (t.rowAt _ >>= _) = _
      rw [hz']
      rfl
    · refine (hinsert.image_insert (.inr q) _ _).trans ?_
      rw [h.image_insert]
      rfl
    · refine (hinsert.signAt_insert (.inr q) _ _).trans ?_
      rw [h.signAt_insert]
      rfl
  | s q =>
    refine finishes_bind_get ?_
    refine finishes_bind_lift (t.moved_ofNat q) ?_
    exact xorRows_finishes h (.inl q) (.inr q) rfl (h.moved_index q)
  | cx c d hne =>
    have hwide : t.widenSigns.Regular n := ⟨h.size, h.rows_length, h.rows_bits, h.signs_length⟩
    refine finishes_bind_of_run (runFrom_modify _ t) ?_
    refine (xorRows_finishes hwide (.inl c) (.inl d) rfl rfl).bind fun _ u hu => ?_
    refine finishes_bind_get ?_
    refine finishes_bind_lift (u.moved_ofNat d) ?_
    refine finishes_bind_lift (u.moved_ofNat c) ?_
    refine (xorRows_finishes hu.1 (.inr d) (.inr c) (hu.1.moved_index d)
      (hu.1.moved_index c)).mono fun _ u' hu' => ⟨hu'.1, ?_, ?_⟩
    · rw [hu'.2.1, hu.2.1]
      rfl
    · rw [hu'.2.2, hu.2.1, hu.2.2]
      rfl

lemma precede_moves {U : Operator n} (hU : U.conjTranspose * U = 1)
    {f f' : Generator n → SignedPauli n} (h : ∀ k, Moves U (f k) (f' k)) (k : Generator n) :
    Moves U (g.precede f k) (g.precede f' k) := by
  have hupdate : ∀ {f f' : Generator n → SignedPauli n} {p p' : SignedPauli n} (l : Generator n),
      (∀ k, Moves U (f k) (f' k)) → Moves U p p' →
      ∀ k, Moves U (Function.update f l p k) (Function.update f' l p' k) := by grind
  cases g with
  | h q => exact hupdate _ (hupdate _ h (h _)) (h _) k
  | s q => exact hupdate _ h ((h _).mul hU (h _)) k
  | cx c t hne => exact hupdate _ (hupdate _ h ((h _).mul hU (h _))) ((h _).mul hU (h _)) k

lemma precede_generator (k : Generator n) : g.precede generator k = g.act (generator k) := by
  have hself : ∀ v w : PauliVector n, v + (v + w) = w ∧ v + (w + v) = w := by
    intro v w
    have hzero : v + v = 0 := funext fun _ => CharTwo.add_self_eq_zero _
    rw [add_comm w, ← add_assoc, hzero, zero_add]
    exact ⟨rfl, rfl⟩
  cases g with
  | h q =>
    by_cases hz : k = .inr q
    · simp [precede, act, onVector, turnsSign, generator, hz, add_assoc, hself]
    · by_cases hx : k = .inl q
      · simp [precede, act, onVector, turnsSign, generator, hx, add_assoc, hself]
      · simp [precede, act, onVector, turnsSign, generator, hx, hz, Ne.symm hx, Ne.symm hz]
  | s q =>
    rw [precede, generator_mul (by simp)]
    by_cases hx : k = .inl q
    · simp [act, onVector, turnsSign, generator, hx]
    · simp [act, onVector, turnsSign, generator, hx, Ne.symm hx]
  | cx c t hne =>
    rw [precede, generator_mul (by simp), generator_mul (by simp)]
    by_cases hz : k = .inr t
    · simp [act, onVector, turnsSign, generator, hz]
    · by_cases hx : k = .inl c
      · simp [act, onVector, turnsSign, generator, hx]
      · simp [act, onVector, turnsSign, generator, hx, hz, Ne.symm hx, Ne.symm hz]

end TableauGate

inductive Extension (n : Nat) where
  | front (g : TableauGate n)
  | back (g : TableauGate n)

namespace Extension

def update : Extension n → Update Tableau Unit
  | .front g => g.prepend
  | .back g => g.append

def put : Extension n → List (TableauGate n) → List (TableauGate n)
  | .front g, gs => g :: gs
  | .back g, gs => gs ++ [g]

/-- The circuit of gates put at its ends one after the other. -/
def circuit (ps : List (Extension n)) : List (TableauGate n) :=
  ps.foldl (fun gs p => p.put gs) []

end Extension

namespace Tableau

variable {gs : List (TableauGate n)} {t : Tableau}

/-- The images of the generators under conjugation by a circuit. -/
def Represents (t : Tableau) (gs : List (TableauGate n)) : Prop :=
  t.Regular n ∧ ∀ k, Moves (circuitUnitary gs) (generator k) (image n t k)

lemma identity_represents : (identity n).Represents ([] : List (TableauGate n)) := by
  refine ⟨identity_regular n, fun k => ?_⟩
  rw [image_identity]
  exact circuitUnitary_moves [] _

lemma Represents.put (h : t.Represents gs) (p : Extension n) :
    p.update.Finishes t fun _ t' => t'.Represents (p.put gs) := by
  obtain ⟨hreg, hmoves⟩ := h
  cases p with
  | front g =>
    refine (g.prepend_finishes hreg).mono fun _ t' ht' => ⟨ht'.1, fun k => ?_⟩
    rw [Extension.put, circuitUnitary_cons, ht'.2.1]
    refine (g.unitary_moves _).trans ?_
    rw [← g.precede_generator]
    exact g.precede_moves (circuitUnitary_conjTranspose_mul gs) hmoves k
  | back g =>
    refine finishes_of_run (g.append_run hreg) ⟨g.appended_regular hreg, fun k => ?_⟩
    rw [Extension.put, circuitUnitary_append, g.image_appended hreg]
    refine (hmoves k).trans ?_
    have hone : circuitUnitary [g] = g.unitary := by simp [circuitUnitary]
    rw [hone]
    exact g.unitary_moves _

lemma Represents.putAll (h : t.Represents gs) (ps : List (Extension n)) :
    (ps.forM Extension.update).Finishes t fun _ t' =>
      t'.Represents (ps.foldl (fun gs p => p.put gs) gs) := by
  induction ps generalizing t gs with
  | nil => exact ⟨(), t, rfl, h⟩
  | cons p ps ih => exact (h.put p).bind fun _ t' ht' => ih ht'

lemma Represents.prependAll (h : t.Represents gs) (hs : List (TableauGate n)) :
    (hs.forM prepend).Finishes t fun _ t' =>
      t'.Represents (hs.reverse ++ gs) := by
  induction hs generalizing t gs with
  | nil => exact ⟨(), t, rfl, h⟩
  | cons g hs ih =>
    refine (h.put (.front g)).bind fun _ t' ht' => ?_
    rw [reverse_cons, append_assoc]
    exact ih ht'

lemma identity_appendedAll_represents (gs : List (TableauGate n)) :
    (appendedAll gs (identity n)).Represents gs := by
  refine ⟨appendedAll_regular gs (identity_regular n), fun k => ?_⟩
  rw [image_appendedAll gs (identity_regular n), image_identity]
  exact circuitUnitary_moves gs _

def matrix (n : Nat) (t : Tableau) : Matrix (Generator n) (Generator n) (ZMod 2) :=
  of fun k => (image n t k).vec

lemma mem_symplecticGroup_iff {M : Matrix (Generator n) (Generator n) (ZMod 2)} :
    M ∈ symplecticGroup (Fin n) (ZMod 2) ↔
      ∀ k l, symp (M k) (M l) = symp (Pi.single k 1) (Pi.single l 1) := by
  have hform : ∀ k l, (M * J (Fin n) (ZMod 2) * M.transpose) k l =
      symp (M k) (M l) := by
    intro k l
    have hswap : ∀ j, (M * J (Fin n) (ZMod 2)) k j = M k j.swap := by
      intro j
      rw [mul_apply, Fintype.sum_sum_type]
      cases j <;> simp [J, one_apply, CharTwo.neg_eq]
    rw [mul_apply, Fintype.sum_sum_type, symp, meets,
      meets]
    simp only [hswap, Sum.swap_inl, Sum.swap_inr, transpose_apply, mul_comm (M l (.inr _))]
  have hJ : ∀ k l : Generator n, J (Fin n) (ZMod 2) k l =
      symp (Pi.single k 1) (Pi.single l 1) := by
    intro k l
    rw [symp_single_right]
    cases k <;> cases l <;> simp [J, Pi.single_apply, one_apply, eq_comm]
  rw [SymplecticGroup.mem_iff, ← ext_iff]
  simp only [hform, hJ]

lemma Represents.symplectic (h : t.Represents gs) :
    matrix n t ∈ symplecticGroup (Fin n) (ZMod 2) := by
  refine mem_symplecticGroup_iff.mpr fun k l => ?_
  have hsymp := (h.2 k).symp_eq (circuitUnitary_conjTranspose_mul gs) (h.2 l)
  exact hsymp

/-- A tableau holds the images of the generators under conjugation by the circuit that was put
together at both ends, so its matrix is symplectic. Putting gates at the end gives the same images
as putting them at the front in reverse order. -/
theorem extensions_track_conjugation (n : Nat) :
    (∀ es : List (Extension n), ∃ t,
      (es.forM Extension.update).runFrom (identity n) = (.ok (), t) ∧ t.Regular n ∧
      (∀ k, circuitUnitary (Extension.circuit es) * (SignedPauli.generator k).operator *
        (circuitUnitary (Extension.circuit es)).conjTranspose = (image n t k).operator) ∧
      matrix n t ∈ Matrix.symplecticGroup (Fin n) (ZMod 2)) ∧
    ∀ gs : List (TableauGate n), ∃ t u,
      (gs.forM TableauGate.append).runFrom (identity n) = (.ok (), t) ∧
      (gs.reverse.forM TableauGate.prepend).runFrom (identity n) = (.ok (), u) ∧
      t.rows = u.rows ∧ parities t.signs = parities u.signs := by
  refine ⟨fun es => ?_, fun gs => ?_⟩
  · obtain ⟨_, t, hrun, ht⟩ := identity_represents.putAll es
    exact ⟨t, hrun, ht.1, ht.2, ht.symplectic⟩
  · obtain ⟨_, u, hrun, hu⟩ := identity_represents.prependAll gs.reverse
    rw [reverse_reverse, append_nil] at hu
    have ht : (appendedAll gs (identity n)).Represents gs := identity_appendedAll_represents gs
    have himage : image n _ = image n u :=
      funext fun k => operator_inj ((ht.2 k).symm.trans (hu.2 k))
    refine ⟨_, u, appendAll_run gs (identity_regular n), hrun, ht.1.rows_eq hu.1 fun k => ?_,
      ht.1.parities_eq hu.1 fun k => ?_⟩ <;> rw [himage]

end Tableau

end GadgetCircuits
