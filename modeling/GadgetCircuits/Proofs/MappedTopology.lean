import GadgetCircuits.Proofs.FamilyDistances
import GadgetCircuits.Proofs.CircuitSteps

/-!
Mappings of qubits, and topologies with renamed qubits. A mapping passes the check iff its images are the
qubits, in any order and with repetitions. Mapping forward by a permutation moves every coupling, mapping
backward undoes it, and mappings compose as permutations do; a renaming is an isomorphism.
-/

namespace GadgetCircuits

open List Value
open Equiv (Perm)

namespace Value

variable {v : Value} {vs : List Value} {n i j : Nat}

lemma same_ofNat (i j : Nat) : (ofNat i).same (ofNat j) = (i == j) := by
  rw [same_of_int? rfl rfl]
  exact Bool.eq_iff_iff.mpr (by simp)

/-- A value equals at most one number, also where it is no integer. -/
theorem same_ofNat_inj (hi : v.same (ofNat i)) (hj : v.same (ofNat j)) : i = j := by
  cases v with
  | float x =>
    cases hx : Binary.toRat? x with
    | none => simp [same, ofNat, hx] at hi
    | some q =>
      simp only [same, ofNat, int?, hx, beq_iff_eq] at hi hj
      exact_mod_cast hi.symm.trans hj
  | int m =>
    simp only [same, ofNat, int?, beq_iff_eq] at hi hj
    simpa using hi.symm.trans hj
  | bool b =>
    simp only [same, ofNat, int?, beq_iff_eq] at hi hj
    simpa using hi.symm.trans hj
  | _ => simp [same, ofNat, int?] at hi

lemma coversRange_eq_ok : coversRange n vs = .ok true ↔ (∀ v ∈ vs, v.isHashable) ∧
    (∀ v ∈ vs, ∃ i < n, v.same (ofNat i)) ∧ ∀ i < n, ∃ v ∈ vs, v.same (ofNat i) := by
  rw [coversRange]
  split
  · rename_i hhash
    rw [all_eq_true] at hhash
    simpa using fun _ _ => hhash
  · rename_i hhash
    rw [all_eq_true] at hhash
    simp [hhash]

end Value

namespace QubitMapping

variable {n : Nat} {σ : Perm (Fin n)} {m : Value} {vs : List Value} {orNone : Bool}

lemma check_eq_ok : check n m orNone = .ok vs ↔
    images n m orNone = .ok vs ∧ coversRange n vs = .ok true := by
  simp only [check, bind_eq_ok]
  constructor
  · rintro ⟨vs', himages, covered, hcovers, h⟩
    cases covered with
    | true => cases h; exact ⟨himages, hcovers⟩
    | false =>
      obtain ⟨_, -, h⟩ := bind_eq_ok.mp h
      cases h
  · rintro ⟨himages, hcovers⟩
    exact ⟨vs, himages, true, hcovers, rfl⟩

def values (σ : Perm (Fin n)) : List Value :=
  (finRange n).map fun i => .ofNat (σ i)

/-- A permutation as a list, or as a dictionary with its entries in any order. -/
inductive Presents (σ : Perm (Fin n)) : Value → Prop
  | list : Presents σ (.list (values σ))
  | dict {entries} (h : entries.Perm ((finRange n).map fun i => (.ofNat i.val, .ofNat (σ i)))) :
      Presents σ (.dict entries)

lemma values_getElem? (σ : Perm (Fin n)) (i : Fin n) :
    (values σ)[(i : Nat)]? = some (.ofNat (σ i)) := by
  simp [values]

lemma find?_key {pairs : List (Value × Value)} {f : Fin n → Fin n}
    (hall : ∀ p ∈ pairs, ∃ i : Fin n, p = (.ofNat i, .ofNat (f i))) (i : Fin n)
    (hi : (.ofNat i, .ofNat (f i)) ∈ pairs) :
    (pairs.find? fun p => p.1.same (.ofNat i)).map Prod.snd = some (.ofNat (f i)) := by
  have hsome : (pairs.find? fun p => p.1.same (.ofNat i)).isSome :=
    find?_isSome.mpr ⟨_, hi, by simp [same_ofNat]⟩
  obtain ⟨p, hp⟩ := Option.isSome_iff_exists.mp hsome
  obtain ⟨k, rfl⟩ := hall p (mem_of_find?_eq_some hp)
  have hk := find?_some hp
  rw [same_ofNat, beq_iff_eq] at hk
  rw [hp, Fin.ext hk]
  rfl

lemma values_covers (σ : Perm (Fin n)) : coversRange n (values σ) = .ok true := by
  refine coversRange_eq_ok.mpr ⟨?_, ?_, fun i hi => ?_⟩
  · simp [values, ofNat, isHashable]
  · intro v hv
    obtain ⟨i, -, rfl⟩ := mem_map.mp hv
    exact ⟨σ i, (σ i).isLt, by simp [same_ofNat]⟩
  · refine ⟨_, mem_map.mpr ⟨σ⁻¹ ⟨i, hi⟩, mem_finRange _, rfl⟩, ?_⟩
    simp [same_ofNat]

namespace Presents

variable (h : Presents σ m)

include h

lemma images_eq (orNone : Bool) : images n m orNone = .ok (values σ) := by
  cases h with
  | list =>
    have hlen : ¬ (values σ).length < n := by simp [values]
    simp only [images, sequence?, if_neg hlen]
  | @dict entries hperm =>
    rw [images, ← map_coe_finRange_eq_range, mapM_map]
    refine mapM_ok fun i _ => ?_
    have hentry : entry? entries i = some (.ofNat (σ i)) :=
      find?_key (f := σ) (fun e he => by simpa [eq_comm] using hperm.mem_iff.mp he) i
        (hperm.mem_iff.mpr (mem_map.mpr ⟨i, mem_finRange i, rfl⟩))
    simp only [Function.comp_apply, hentry]

lemma check_eq (orNone : Bool) : check n m orNone = .ok (values σ) :=
  check_eq_ok.mpr ⟨h.images_eq orNone, values_covers σ⟩

end Presents

end QubitMapping

open Coupling

namespace QubitMapping

variable {n : Nat} {σ τ : Perm (Fin n)} {m : Value}

/-- A permutation of the qubits that leaves all other numbers where they are. -/
def everywhere (σ : Perm (Fin n)) : Perm Nat :=
  σ.extendDomain Fin.equivSubtype

lemma everywhere_coe (σ : Perm (Fin n)) (i : Fin n) : everywhere σ i = σ i :=
  Perm.extendDomain_apply_image σ Fin.equivSubtype i

lemma everywhere_lt (σ : Perm (Fin n)) {q : Nat} (hq : q < n) : everywhere σ q < n := by
  rw [everywhere_coe σ ⟨q, hq⟩]
  exact (σ _).isLt

theorem Presents.inversePairs_eq (h : Presents σ m) : ∃ pairs,
    Topology.inversePairs n m = .ok pairs ∧
    (∀ p ∈ pairs, ∃ i : Fin n, p = (.ofNat i, .ofNat (σ⁻¹ i))) ∧
    ∀ i : Fin n, (.ofNat i, .ofNat (σ⁻¹ i)) ∈ pairs := by
  cases h with
  | list =>
    have hlen : ¬ (values σ).length < n := by simp [values]
    -- An item `σ j` is the index of the item `σ (σ j)`.
    have hitem : ∀ j : Fin n, Topology.itemAt (values σ) (.ofNat (σ j)) = .ok (.ofNat (σ (σ j))) := by
      intro j
      have hneg : ¬ ((σ j : Nat) : Int) < 0 := by omega
      simp [Topology.itemAt, ofNat, int?, values, hneg]
    refine ⟨(finRange n).map fun j => (.ofNat (σ (σ j)), .ofNat (σ j)), ?_, ?_, fun i => ?_⟩
    · simp only [Topology.inversePairs, sequence?, if_neg hlen]
      rw [values, mapM_map]
      refine mapM_ok fun j _ => ?_
      rw [Function.comp_apply, ← values, hitem]
      rfl
    · intro p hp
      obtain ⟨j, -, rfl⟩ := mem_map.mp hp
      exact ⟨σ (σ j), by simp⟩
    · exact mem_map.mpr ⟨σ⁻¹ (σ⁻¹ i), mem_finRange _, by simp⟩
  | @dict entries hperm =>
    refine ⟨_, by rw [Topology.inversePairs, Presents.images_eq (.dict hperm)]; rfl, ?_, fun i => ?_⟩
    · intro p hp
      obtain ⟨⟨v, k⟩, hmem, rfl⟩ := mem_map.mp hp
      have hk := mem_zipIdx_iff_getElem?.mp hmem
      obtain ⟨hlt, -⟩ := List.getElem?_eq_some_iff.mp hk
      have hkn : k < n := by simpa [values] using hlt
      cases (values_getElem? σ ⟨k, hkn⟩).symm.trans hk
      exact ⟨σ ⟨k, hkn⟩, by simp [ofNat]⟩
    · have hv : (values σ)[(σ⁻¹ i : Nat)]? = some (.ofNat i) := by
        simpa using values_getElem? σ (σ⁻¹ i)
      exact mem_map.mpr ⟨(_, _), mem_zipIdx_iff_getElem?.mpr hv, rfl⟩

end QubitMapping

lemma Routes.distance_eq_of_far {r r' : Routes} {i j i' j' : Nat} (h : r.far i j = r'.far i' j') :
    r.distance i j = r'.distance i' j' := by
  cases hd : r'.distance i' j' with
  | none => exact far_eq_top_iff.mp (h.trans (far_eq_top_iff.mpr hd))
  | some d => exact far_eq_coe_iff.mp (h.trans (far_eq_coe_iff.mpr hd))

namespace Topology

open QubitMapping

variable {t u : Topology} {s s' : Perm Nat} {n : Nat} {σ τ : Perm (Fin n)} {m : Value}

/-- Couplings are between qubits, ascending and without repetition. -/
structure Canonical (t : Topology) : Prop where
  wellFormed : t.WellFormed
  ascending : t.couplings.Pairwise fun a b => pairLe a b = true ∧ b ≠ a

lemma sortPairs_ascending (ps : List (Nat × Nat)) :
    (sortPairs ps).Pairwise fun a b => pairLe a b ∧ b ≠ a := by
  refine pairwise_eraseDups (pairwise_mergeSort ?_ ?_ ps)
  · simp only [pairLe, Bool.or_eq_true, Bool.and_eq_true, decide_eq_true_iff, beq_iff_eq]
    omega
  · simp only [pairLe, Bool.or_eq_true, Bool.and_eq_true, decide_eq_true_iff, beq_iff_eq]
    omega

lemma Canonical.same (ht : t.Canonical) (hu : u.Canonical) (hsize : t.size = u.size)
    (h : ∀ a b, t.hasCoupling a b = u.hasCoupling a b) : t.same u := by
  have hmem : ∀ {v : Topology}, v.Canonical → ∀ k, k ∈ v.couplings ↔ k.1 < k.2 ∧
      v.hasCoupling k.1 k.2 := by
    intro v hv k
    simp only [hasCoupling, contains_iff_mem, ordered]
    constructor
    · intro hk
      have hlt := (hv.wellFormed k hk).1
      simpa [hlt] using hk
    · rintro ⟨hlt, hk⟩
      simpa [hlt] using hk
  have hnodup : ∀ {v : Topology}, v.Canonical → v.couplings.Nodup :=
    fun hv => hv.ascending.imp fun hab => hab.2.symm
  have hperm : t.couplings.Perm u.couplings := by grind
  have heq : t.couplings = u.couplings := by
    refine hperm.eq_of_pairwise ?_ (ht.ascending.imp And.left) (hu.ascending.imp And.left)
    intro a b _ _ hab hba
    simp only [pairLe, Bool.or_eq_true, Bool.and_eq_true, decide_eq_true_iff, beq_iff_eq] at hab hba
    exact Prod.ext (by omega) (by omega)
  simp [Topology.same, hsize, heq]

def relabelled (t : Topology) (s : Perm Nat) : Topology :=
  ofChecked t.size
    (t.couplings.map fun c => orderedValues (.ofNat (s c.1)) (.ofNat (s c.2)))

lemma relabelled_couplings (t : Topology) (s : Perm Nat) :
    (t.relabelled s).couplings = (ofPairs t.size (t.couplings.map (Prod.map s s))).couplings := by
  have hordered : ∀ a b, ordered (ordered a b).1 (ordered a b).2 =
      ordered a b := by
    intro a b
    refine (ordered_eq_iff _ _ a b).mpr ?_
    simp only [ordered]
    split
    · exact .inl rfl
    · exact .inr rfl
  simp only [relabelled, ofChecked, ofPairs, map_map]
  refine congrArg sortPairs (map_congr_left fun c _ => ?_)
  rw [Function.comp_apply, Function.comp_apply, toNats_orderedValues, hordered]
  rfl

variable (ht : t.WellFormed)
include ht

lemma hasCoupling_relabelled (s : Perm Nat) (a b : Nat) :
    (t.relabelled s).hasCoupling (s a) (s b) = t.hasCoupling a b := by
  have hmem : ∀ x y, (s x, s y) ∈ t.couplings.map (Prod.map s s) ↔ (x, y) ∈ t.couplings :=
    fun x y => mem_map_of_injective (s.injective.prodMap s.injective) (a := (x, y))
  rw [Bool.eq_iff_iff, hasCoupling_iff ht, ← hmem, ← hmem, ← mem_ofPairs (n := t.size), hasCoupling,
    relabelled_couplings]
  rfl

lemma relabelled_canonical (hs : ∀ q < t.size, s q < t.size) : (t.relabelled s).Canonical := by
  have hP : Proper t.size (t.couplings.map (Prod.map s s)) := by
    intro p hp
    obtain ⟨c, hc, rfl⟩ := mem_map.mp hp
    obtain ⟨hlt, hn⟩ := ht c hc
    exact ⟨fun heq => hlt.ne (s.injective heq), hs c.1 (hlt.trans hn), hs c.2 hn⟩
  have hcanonical : (ofPairs _ _).Canonical := ⟨ofPairs_wellFormed hP, sortPairs_ascending _⟩
  refine ⟨fun k hk => hcanonical.wellFormed k (relabelled_couplings t s ▸ hk), ?_⟩
  rw [relabelled_couplings]
  exact hcanonical.ascending

lemma relabelled_same (hs : ∀ q < t.size, s q < t.size)
    (hs' : ∀ q < t.size, s' q < t.size) (hu : u.Canonical) (hsize : u.size = t.size)
    (h : ∀ a b, u.hasCoupling (s' (s a)) (s' (s b)) = t.hasCoupling a b) :
    ((t.relabelled s).relabelled s').same u := by
  have hfirst := relabelled_canonical ht hs
  refine (relabelled_canonical hfirst.wellFormed hs').same hu hsize.symm fun a b => ?_
  have ha : s' (s (s⁻¹ (s'⁻¹ a))) = a := by simp
  have hb : s' (s (s⁻¹ (s'⁻¹ b))) = b := by simp
  rw [← ha, ← hb, hasCoupling_relabelled hfirst.wellFormed, hasCoupling_relabelled ht, h]

lemma renamed_eq (hs : ∀ q < t.size, s q < t.size) {image : Nat → Value}
    (himage : ∀ q < t.size, image q = .ofNat (s q)) : t.renamed image = .ok (t.relabelled s) := by
  rw [renamed, mapM_ok (g := fun c => orderedValues (.ofNat (s c.1)) (.ofNat (s c.2)))]
  · rfl
  · intro c hc
    obtain ⟨hlt, hn⟩ := ht c hc
    have hne : s c.1 ≠ s c.2 := fun heq => hlt.ne (s.injective heq)
    rw [himage c.1 (hlt.trans hn), himage c.2 hn, same_ofNat, if_neg (by simpa using hne)]
    exact check_ofNat rfl (hs c.1 (hlt.trans hn)) (hs c.2 hn) hne

theorem distanceOf_relabelled (σ : Perm (Fin t.size)) (a b : Fin t.size) :
    (t.relabelled (everywhere σ)).distanceOf (.ofNat (σ a)) (.ofNat (σ b)) =
      t.distanceOf (.ofNat a) (.ofNat b) := by
  have hwf := (relabelled_canonical ht fun q => everywhere_lt σ).wellFormed
  have hadj : ∀ x y : Fin t.size, (t.relabelled (everywhere σ)).graph.Adj (σ x) (σ y) ↔
      t.graph.Adj x y := by
    intro x y
    have hcoupled := hasCoupling_relabelled ht (everywhere σ) x y
    rw [everywhere_coe, everywhere_coe] at hcoupled
    exact and_congr (not_congr σ.injective.eq_iff) (by rw [hcoupled])
  let e : t.graph ≃g (t.relabelled (everywhere σ)).graph := ⟨σ, hadj _ _⟩
  have hfar := (routes_far hwf (e a) (e b)).trans ((edist_iso e a b).trans (routes_far ht a b).symm)
  rw [distanceOf_ofNat t a b, ← Routes.distance_eq_of_far hfar]
  exact distanceOf_ofNat (t.relabelled (everywhere σ)) (e a) (e b)

omit ht

section

variable (hn : t.size = n) (hm : Presents σ m)

include ht hn hm

lemma mapForward_eq : t.mapForward m = .ok (t.relabelled (everywhere σ)) := by
  subst hn
  rw [mapForward, hm.check_eq, ok_bind]
  refine renamed_eq ht (fun q => everywhere_lt σ) fun q hq => ?_
  rw [values_getElem? σ ⟨q, hq⟩, everywhere_coe σ ⟨q, hq⟩]
  rfl

lemma mapBackward_eq : t.mapBackward m = .ok (t.relabelled (everywhere σ⁻¹)) := by
  subst hn
  obtain ⟨pairs, hpairs, hall, hmem⟩ := hm.inversePairs_eq
  have hcovers : coversRange t.size (pairs.map Prod.fst) = .ok true := by
    refine coversRange_eq_ok.mpr ⟨?_, ?_, fun i hi => ?_⟩
    · intro v hv
      obtain ⟨p, hp, rfl⟩ := mem_map.mp hv
      obtain ⟨i, rfl⟩ := hall p hp
      rfl
    · intro v hv
      obtain ⟨p, hp, rfl⟩ := mem_map.mp hv
      obtain ⟨i, rfl⟩ := hall p hp
      exact ⟨i, i.isLt, by simp [same_ofNat]⟩
    · exact ⟨_, mem_map_of_mem (hmem ⟨i, hi⟩), by simp [same_ofNat]⟩
  rw [mapBackward, hpairs, ok_bind]
  dsimp only
  rw [hcovers, ok_bind, if_pos rfl]
  refine renamed_eq ht (fun q => everywhere_lt σ⁻¹) fun q hq => ?_
  rw [find?_key (f := ⇑σ⁻¹) (by simpa using hall) ⟨q, hq⟩ (by simpa using hmem ⟨q, hq⟩),
    everywhere_coe σ⁻¹ ⟨q, hq⟩]
  rfl

end

lemma everywhere_mul_apply (σ τ : Perm (Fin n)) (q : Nat) :
    everywhere τ (everywhere σ q) = everywhere (τ * σ) q := by
  rw [← Perm.mul_apply, everywhere, everywhere, Perm.extendDomain_mul, everywhere]

/-- What mappings of the qubits by permutations do. -/
structure Relabels (t : Topology) (σ τ : Perm (Fin t.size)) : Prop where
  /-- Lists and dictionaries have the same results. -/
  forms : ∀ m m', Presents σ m → Presents σ m' →
    t.mapForward m = t.mapForward m' ∧ t.mapBackward m = t.mapBackward m'
  /-- Forward and backward undo each other. -/
  undone : ∀ m, Presents σ m → ∃ u u' w w',
    t.mapForward m = .ok u ∧ u.mapBackward m = .ok u' ∧ u'.same t = true ∧
    t.mapBackward m = .ok w ∧ w.mapForward m = .ok w' ∧ w'.same t = true
  /-- One mapping after another is their product. -/
  composed : ∀ m m' m'', Presents σ m → Presents τ m' → Presents (τ * σ) m'' → ∃ u w w',
    t.mapForward m = .ok u ∧ u.mapForward m' = .ok w ∧ t.mapForward m'' = .ok w' ∧ w.same w' = true
  /-- Distances move along with the qubits. -/
  distances : ∀ m, Presents σ m → ∃ u, t.mapForward m = .ok u ∧ ∀ a b : Fin t.size,
    u.distanceOf (.ofNat (σ a)) (.ofNat (σ b)) = t.distanceOf (.ofNat a) (.ofNat b)

theorem mapForward_relabels (ht : t.Canonical) (σ τ : Perm (Fin t.size)) : t.Relabels σ τ := by
  have hwf := ht.wellFormed
  have hlt : ∀ ρ : Perm (Fin t.size), ∀ q < t.size, everywhere ρ q < t.size :=
    fun ρ q => everywhere_lt ρ
  have hmoved : ∀ ρ : Perm (Fin t.size), (t.relabelled (everywhere ρ)).WellFormed :=
    fun ρ => (relabelled_canonical hwf (hlt ρ)).wellFormed
  have hback : ∀ ρ ρ' : Perm (Fin t.size), ρ' * ρ = 1 →
      ((t.relabelled (everywhere ρ)).relabelled (everywhere ρ')).same t = true := by
    intro ρ ρ' hone
    refine relabelled_same hwf (hlt ρ) (hlt ρ') ht rfl fun a b => ?_
    rw [everywhere_mul_apply, everywhere_mul_apply, hone, everywhere, Perm.extendDomain_one]
    rfl
  refine ⟨fun m m' hm hm' => ?_, fun m hm => ?_, fun m m' m'' hm hm' hm'' => ?_, fun m hm => ?_⟩
  · rw [mapForward_eq hwf rfl hm, mapForward_eq hwf rfl hm', mapBackward_eq hwf rfl hm,
      mapBackward_eq hwf rfl hm']
    exact ⟨rfl, rfl⟩
  · exact ⟨_, _, _, _, mapForward_eq hwf rfl hm, mapBackward_eq (n := t.size) (hmoved σ) rfl hm,
      hback σ σ⁻¹ (inv_mul_cancel σ), mapBackward_eq hwf rfl hm,
      mapForward_eq (n := t.size) (hmoved σ⁻¹) rfl hm,
      hback σ⁻¹ σ (mul_inv_cancel σ)⟩
  · refine ⟨_, _, _, mapForward_eq hwf rfl hm, mapForward_eq (n := t.size) (hmoved σ) rfl hm',
      mapForward_eq hwf rfl hm'', ?_⟩
    refine relabelled_same hwf (hlt σ) (hlt τ) (relabelled_canonical hwf (hlt _)) rfl fun a b => ?_
    rw [everywhere_mul_apply, everywhere_mul_apply, hasCoupling_relabelled hwf]
  · exact ⟨_, mapForward_eq hwf rfl hm, distanceOf_relabelled hwf σ⟩

/-- The ring and the pair, turned by one and then with two qubits exchanged. -/
theorem ringAndPair_relabels : ringAndPair.Canonical ∧
    ringAndPair.Relabels (finRotate 6) (Equiv.swap 0 3 : Perm (Fin 6)) := by
  have hcanonical : ringAndPair.Canonical :=
    ⟨by simp [WellFormed, ringAndPair], by decide⟩
  exact ⟨hcanonical, mapForward_relabels hcanonical _ _⟩

end Topology

end GadgetCircuits
