import GadgetCircuits.Proofs.TableauSteps

/-!
The signs of a tableau as they are stored and printed. Gates at the end store parities; gates at the
front multiply rows and store the sum of two signs modulo four, which has the parity of the true sign
but need not be a bit. A sign is printed as positive if nothing is stored.
-/

namespace GadgetCircuits

variable {n : Nat}

namespace TableauGate

open Tableau

variable {f : Generator n → SignedPauli n} {m : Generator n → Int} (g : TableauGate n)

/-- The images that a gate at the front multiplies, the one that is replaced first. -/
def products : TableauGate n → List (Generator n × Generator n)
  | .h _ => []
  | .s q => [(.inl q, .inr q)]
  | .cx c t _ => [(.inl c, .inl t), (.inr t, .inr c)]

theorem recount_forall {p : Int → Prop} (hm : ∀ k, p (m k))
    (hp : ∀ q ∈ g.products, p (productSign f m q.1 q.2 % 4)) (k : Generator n) :
    p (g.recount f m k) := by
  have hupdate : ∀ {m : Generator n → Int} (l : Generator n) {x : Int}, (∀ k, p (m k)) → p x →
      ∀ k, p (Function.update m l x k) := by grind
  cases g with
  | h q => exact hupdate _ (hupdate _ hm (hm _)) (hm _) k
  | s q => exact hupdate _ hm (hp (.inl q, .inr q) (by simp [products])) k
  | cx c t hne =>
    have hx := hp (.inl c, .inl t) (by simp [products])
    have hz := hp (.inr t, .inr c) (by simp [products])
    exact hupdate _ (hupdate _ hm hx) hz k

lemma recount_product {q : Generator n × Generator n} (hq : q ∈ g.products) :
    g.recount f m q.1 = productSign f m q.1 q.2 % 4 := by
  cases g with
  | h r => simp [products] at hq
  | s r =>
    rw [List.mem_singleton.mp hq]
    simp [recount]
  | cx c t hne => rcases List.mem_pair.mp hq with rfl | rfl <;> simp [recount]

/-- A gate at the front keeps signs that are bits exactly if no product that it makes adds two. -/
theorem recount_bits_iff (hm : ∀ k, m k = 0 ∨ m k = 1) :
    (∀ k, g.recount f m k = 0 ∨ g.recount f m k = 1) ↔
      ∀ q ∈ g.products, productSign f m q.1 q.2 ≤ 1 := by
  have hbit : ∀ k l, (productSign f m k l % 4 = 0 ∨ productSign f m k l % 4 = 1) ↔
      productSign f m k l ≤ 1 := by
    intro k l
    have hk := hm k
    have hl := hm l
    have hturn := ZMod.val_lt (half (-PauliVector.turns (f k).vec (f l).vec))
    simp only [productSign]
    omega
  constructor
  · intro h q hq
    rw [← hbit, ← g.recount_product hq]
    exact h q.1
  · intro h
    exact g.recount_forall (p := fun x => x = 0 ∨ x = 1) hm fun q hq => (hbit _ _).mpr (h q hq)

end TableauGate

namespace Tableau

variable {t : Tableau} {gs : List (TableauGate n)}

lemma Regular.binarySigns_iff (h : Regular n t) :
    t.BinarySigns ↔ ∀ k : Generator n, signAt n t k = 0 ∨ signAt n t k = 1 := by
  constructor
  · intro hb k
    exact hb.entry_bit _
  · intro hb s hs
    obtain ⟨i, hi, rfl⟩ := List.mem_iff_getElem.mp hs
    obtain ⟨k, rfl⟩ := Generator.exists_index (h.signs_length ▸ hi)
    rw [← entry_eq hi]
    exact hb k

/-- A tableau of a circuit whose stored signs are numbers modulo four. -/
def Counts (t : Tableau) (gs : List (TableauGate n)) : Prop :=
  t.Represents gs ∧ ∀ k : Generator n, 0 ≤ signAt n t k ∧ signAt n t k < 4

lemma identity_counts : (identity n).Counts ([] : List (TableauGate n)) := by
  refine ⟨identity_represents, fun k => ?_⟩
  have hk : k.index < (List.replicate (2 * n) (0 : Int)).length := by simpa using k.index_lt
  rw [signAt, identity, entry_eq hk, List.getElem_replicate]
  decide

lemma Counts.put (h : t.Counts gs) (e : Extension n) :
    e.update.Finishes t fun _ t' => t'.Counts (e.put gs) := by
  obtain ⟨_, t', hrun, hrep⟩ := h.1.put e
  refine ⟨_, t', hrun, hrep, ?_⟩
  cases e with
  | front g =>
    obtain ⟨_, u, hrun', -, -, hsigns⟩ := g.prepend_finishes h.1.1
    cases hrun.symm.trans hrun'
    rw [hsigns]
    apply g.recount_forall (p := fun x => 0 ≤ x ∧ x < 4) h.2
    intro q _
    omega
  | back g =>
    cases hrun.symm.trans (g.append_run h.1.1)
    intro k
    have hbit := (appended_binarySigns g t).entry_bit k.index
    rw [signAt]
    omega

lemma Counts.putAll (h : t.Counts gs) (es : List (Extension n)) :
    (es.forM Extension.update).Finishes t fun _ t' =>
      t'.Counts (es.foldl (fun gs e => e.put gs) gs) := by
  induction es generalizing t gs with
  | nil => exact ⟨(), t, rfl, h⟩
  | cons e es ih => exact (h.put e).bind fun _ t' ht' => ih ht'

end Tableau

def SignedPauli.letter (p : SignedPauli n) (q : Fin n) : String :=
  if p.vec (.inl q) = 1 then if p.vec (.inr q) = 1 then "Y" else "X"
  else if p.vec (.inr q) = 1 then "Z" else "I"

namespace Tableau

variable {t : Tableau}

/-- The lines of a table: the letters of both images of a qubit, and a sign. -/
def lines (f : Generator n → SignedPauli n) (positive : Fin n → Bool) (sep signSep : String) :
    List String :=
  (List.finRange n).map fun i =>
    String.join ((List.finRange n).map fun j =>
      (f (.inl i)).letter j ++ "/" ++ (f (.inr i)).letter j ++ sep) ++
    signSep ++ (if positive i then "+" else "-") ++ " \n"

lemma position?_letterAt (p : SignedPauli n) (j : Fin n) :
    ∃ i, Slice.position? 4 (letterAt p.vec j) = some i ∧
      (["I", "X", "Z", "Y"][i]?).getD "" = p.letter j := by
  rw [letterAt, SignedPauli.letter]
  rcases bit_cases (p.vec (.inl j)) with hx | hx <;> rcases bit_cases (p.vec (.inr j)) with hz | hz <;>
    rw [hx, hz] <;> exact ⟨_, rfl, rfl⟩

lemma Regular.table_eq (h : Regular n t) (sep signSep : String) : t.table sep signSep =
      .ok (String.join (lines (image n t) (fun i => signAt n t (.inl i) = 0) sep signSep)) := by
  have hx : ∀ i j : Fin n, t.xOut (.ofNat i) (.ofNat j) = .ok (letterAt (image n t (.inl i)).vec j) :=
    xOutAt_eq h
  have hz : ∀ i j : Fin n, t.zOut (.ofNat i) (.ofNat j) = .ok (letterAt (image n t (.inr i)).vec j) :=
    zOutAt_eq h
  have hsign : ∀ i : Fin n, t.signs[(i : Nat)]? = some (signAt n t (.inl i)) := by
    intro i
    have hi := h.index_lt_signs (.inl i)
    rw [signAt, entry_eq hi]
    exact List.getElem?_eq_getElem hi
  choose number hnumber hname using fun p : SignedPauli n => position?_letterAt p
  have hrange : List.range n = (List.finRange n).map Fin.val := by simp
  unfold table
  rw [h.size, hrange]
  simp only [List.mapM_map, Function.comp_def, hx, hz, ok_bind, hnumber, hname, hsign, List.mapM_pure,
    pure_bind]
  simp only [lines, decide_eq_true_eq]
  rfl

/-- The signs of a tableau put together at both ends of a circuit are stored as numbers below four with
the parity of the true signs. They are bits after a gate at the end, and a gate at the front keeps bits
exactly if no product that it makes adds two of them. The table is right about all signs but a stored two. -/
theorem signs_have_image_parity (es : List (Extension n)) :
    ∃ t, (es.forM Extension.update).runFrom (identity n) = (.ok (), t) ∧ t.Regular n ∧
      (∀ k, circuitUnitary (Extension.circuit es) * (SignedPauli.generator k).operator *
        (circuitUnitary (Extension.circuit es)).conjTranspose = (image n t k).operator) ∧
      (∀ k, 0 ≤ signAt n t k ∧ signAt n t k < 4 ∧
        (signAt n t k % 2 = 0 ↔ (image n t k).sign = 0)) ∧
      (∀ g : TableauGate n, ∃ u, g.append.runFrom t = (.ok (), u) ∧ u.BinarySigns) ∧
      (∀ g : TableauGate n, t.BinarySigns → ∃ u, g.prepend.runFrom t = (.ok (), u) ∧
        (u.BinarySigns ↔ ∀ p ∈ g.products, productSign (image n t) (signAt n t) p.1 p.2 ≤ 1)) ∧
      (∀ sep signSep, t.table sep signSep =
        .ok (String.join (lines (image n t) (fun i => signAt n t (.inl i) = 0) sep signSep))) ∧
      (∀ k, signAt n t k = 0 ↔ (image n t k).sign = 0 ∧ signAt n t k ≠ 2) ∧
      (t.BinarySigns → ∀ sep signSep, t.table sep signSep =
        .ok (String.join (lines (image n t) (fun i => (image n t (.inl i)).sign = 0) sep signSep))) := by
  obtain ⟨_, t, hrun, ⟨hregular, hmoves⟩, hcount⟩ := identity_counts.putAll es
  have hparity : ∀ k, signAt n t k % 2 = 0 ↔ (image n t k).sign = 0 := by
    intro k
    have hcast : (image n t k).sign = (signAt n t k : ZMod 2) := rfl
    rw [hcast, ZMod.intCast_zmod_eq_zero_iff_dvd]
    omega
  refine ⟨t, hrun, hregular, hmoves, fun k => ⟨(hcount k).1, (hcount k).2, hparity k⟩, fun g => ?_,
    fun g hbinary => ?_, hregular.table_eq, fun k => ?_, fun hbinary sep signSep => ?_⟩
  · exact ⟨_, g.append_run hregular, appended_binarySigns g t⟩
  · obtain ⟨_, u, hrun', hu, -, hsigns⟩ := g.prepend_finishes hregular
    refine ⟨u, hrun', ?_⟩
    rw [hu.binarySigns_iff, hsigns]
    exact g.recount_bits_iff (hregular.binarySigns_iff.mp hbinary)
  · have hk := hcount k
    rw [← hparity]
    omega
  · rw [hregular.table_eq]
    congr 4
    funext i
    have hbit := hregular.binarySigns_iff.mp hbinary (.inl i)
    rw [decide_eq_decide, ← hparity]
    omega

def turnedPair : List (Extension 2) :=
  [.back (.s ⟨0, Nat.zero_lt_two⟩), .back (.s ⟨0, Nat.zero_lt_two⟩), .back (.s ⟨1, Nat.one_lt_two⟩),
    .back (.s ⟨1, Nat.one_lt_two⟩)]

def pairing : TableauGate 2 :=
  .cx ⟨0, Nat.zero_lt_two⟩ ⟨1, Nat.one_lt_two⟩ (Fin.ne_of_val_ne Nat.zero_ne_one)

theorem turnedPair_signs :
    ∃ t u, (turnedPair.forM Extension.update).runFrom (identity 2) = (.ok (), t) ∧ t.BinarySigns ∧
      pairing.prepend.runFrom t = (.ok (), u) ∧
      (u.BinarySigns ↔
        ∀ p ∈ pairing.products, productSign (image 2 t) (signAt 2 t) p.1 p.2 ≤ 1) ∧
      t.table " " "| " = .ok (String.join
        (lines (image 2 t) (fun i => (image 2 t (.inl i)).sign = 0) " " "| ")) := by
  obtain ⟨t, hrun, -, -, -, -, hfront, -, -, htable⟩ := signs_have_image_parity turnedPair
  have hbinary : t.BinarySigns := by
    have hsigns : t = { identity 2 with signs := [1, 1, 0, 0] } := congrArg Prod.snd hrun.symm
    rw [hsigns]
    unfold BinarySigns
    decide
  obtain ⟨u, hrun', hu⟩ := hfront pairing hbinary
  exact ⟨t, u, hrun, hbinary, hrun', hu, htable hbinary " " "| "⟩

def doubledSign : Tableau where
  n := 2
  rows := [[1, 1, 0, 0], [0, 1, 0, 0], [0, 0, 1, 0], [0, 0, 1, 1]]
  signs := [2, 1, 0, 0]
  signWidth := .wide

/-- Both X images have turned signs, so that their product is positive. Two is stored for it, and the
table shows it as negative. -/
theorem doubled_sign_shown_negative :
    ((turnedPair ++ [Extension.front pairing]).forM Extension.update).runFrom (identity 2) =
        (.ok (), doubledSign) ∧
      Moves (circuitUnitary (Extension.circuit (turnedPair ++ [Extension.front pairing])))
        (SignedPauli.generator (.inl ⟨0, Nat.zero_lt_two⟩))
        (image 2 doubledSign (.inl ⟨0, Nat.zero_lt_two⟩)) ∧
      (image 2 doubledSign (.inl ⟨0, Nat.zero_lt_two⟩)).sign = 0 ∧ ¬doubledSign.BinarySigns ∧
      doubledSign.table " " "| " = .ok "X/Z X/I | - \nI/Z X/Z | - \n" := by
  obtain ⟨_, t, hrun, ht⟩ := identity_represents.putAll (turnedPair ++ [Extension.front pairing])
  have hend : ((turnedPair ++ [Extension.front pairing]).forM Extension.update).runFrom (identity 2) =
      (.ok (), doubledSign) := rfl
  cases hend.symm.trans hrun
  refine ⟨hend, ht.2 _, rfl, ?_, rfl⟩
  unfold BinarySigns
  decide

end Tableau

end GadgetCircuits
