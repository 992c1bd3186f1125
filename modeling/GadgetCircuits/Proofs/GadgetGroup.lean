import GadgetCircuits.Proofs.FullTurns
import GadgetCircuits.Proofs.PhaseCircuit

/-!
Groups of gadgets of one basis as operators. All gadgets of a group commute, so a group is changed
gadget by gadget at whatever place the gadget stands; gadgets of the other basis commute with it or
turn signs, as the legs that they share tell.
-/

namespace GadgetCircuits

open List GadgetGroup AngleExpr
open scoped Real

variable {n : Nat} {as bs : List Int}

lemma turnAbout_full_turns {p : Operator n} (hp : p * p = 1) (a : ℝ) (k : ℤ) :
    UpToPhase (turnAbout (a + 2 * k * π) p) (turnAbout a p) := by
  have hfull : turnAbout (2 * k * π) p = (Real.cos (k * π) : ℂ) • (1 : Operator n) := by
    have hhalf : 2 * (k : ℝ) * π / 2 = k * π := by ring
    rw [turnAbout_eq hp, hhalf, Real.sin_int_mul_pi]
    simp
  have hnorm : ‖(Real.cos (k * π) : ℂ)‖ = 1 := by
    rw [Complex.norm_real, Real.cos_int_mul_pi]
    simp
  rw [turnAbout_add hp, hfull, mul_smul_comm, mul_one]
  exact UpToPhase.smul _ hnorm _

namespace AngleExpr

variable {e : AngleExpr} {p : Operator n}

lemma radians_add_turns {a : Angle} (h : e = .angle a) :
    ∃ k : ℤ, e.radians = a.reduced * π + 2 * k * π := by
  obtain ⟨k, hk⟩ := a.reduced_add_turns
  refine ⟨k, ?_⟩
  rw [h, radians, hk]
  push_cast
  ring

variable (he : e.isAngle)
include he

lemma turnAbout_isZero (hz : e.isZero) (hp : p * p = 1) : UpToPhase (turnAbout e.radians p) 1 := by
  cases e with
  | angle a =>
    obtain ⟨k, hk⟩ := radians_add_turns (e := .angle a) rfl
    have hred : a.reduced = 0 := by simpa [isZero, Angle.isZero] using hz
    rw [hk, hred]
    simpa [turnAbout_zero] using turnAbout_full_turns hp 0 k
  | _ => simp [isAngle] at he

lemma turnAbout_isPi (hz : e.isPi) (hp : p * p = 1) : UpToPhase (turnAbout e.radians p) p := by
  cases e with
  | angle a =>
    obtain ⟨k, hk⟩ := radians_add_turns (e := .angle a) rfl
    have hred : a.reduced = 1 := by simpa [isPi, Angle.isPi] using hz
    rw [hk, hred]
    refine (turnAbout_full_turns hp _ k).trans ?_
    rw [Rat.cast_one, one_mul, turnAbout_pi hp]
    exact UpToPhase.smul _ (by simp) p
  | _ => simp [isAngle] at he

lemma turnAbout_reduceAngle (hp : p * p = 1) :
    UpToPhase (turnAbout (PhaseCircuit.reduceAngle e).radians p) (turnAbout e.radians p) := by
  cases e with
  | angle a =>
    obtain ⟨k, hk⟩ := radians_add_turns (e := .angle a) rfl
    rw [hk]
    exact (turnAbout_full_turns hp _ k).symm
  | _ => simp [isAngle] at he

lemma radians_neg : e.neg.radians = -e.radians := by
  cases e with
  | angle a => simp [neg, radians, Angle.neg]
  | _ => simp [isAngle] at he

lemma isAngle_neg : e.neg.isAngle := by
  cases e with
  | angle a => rfl
  | _ => simp [isAngle] at he

lemma isAngle_reduceAngle : (PhaseCircuit.reduceAngle e).isAngle := by
  cases e with
  | angle a => rfl
  | _ => simp [isAngle] at he

lemma add_ok {f : AngleExpr} (hf : f.isAngle) :
    ∃ s, e.add f = .ok s ∧ s.isAngle ∧ s.radians = e.radians + f.radians := by
  cases e with
  | angle a =>
    cases f with
    | angle b =>
      refine ⟨.angle (a.add b), rfl, rfl, ?_⟩
      simp only [radians, Angle.add]
      push_cast
      ring
    | _ => simp [isAngle] at hf
  | _ => simp [isAngle] at he

lemma equal_zero : AngleOperand.equal (.expr e) (.plain (.int 0)) = e.isZero := by
  cases e with
  | angle a => simp [AngleOperand.equal, isZero, Value.same, Value.int?]
  | _ => simp [isAngle] at he

end AngleExpr

/-- Legs of a gadget on `n` qubits. -/
structure LegsOn (n : Nat) (legs : List Int) : Prop where
  nodup : legs.Nodup
  ne_nil : legs ≠ []
  range : ∀ q ∈ legs, 0 ≤ q ∧ q < n

lemma LegsOn.fits {g : Gadget} (h : LegsOn n g.legs) : g.Fits n := ⟨h.ne_nil, h.range⟩

lemma bit_ofLegs {legs : List Int} (hn : legs.Nodup) {q : Int} (h0 : 0 ≤ q) (hq : q < n) :
    (Bits.ofLegs legs : Bits n).bit q = decide (q ∈ legs) := by
  have hlt : q.toNat < n := by omega
  have hval : (((⟨q.toNat, hlt⟩ : Fin n) : Nat) : Int) = q := Int.toNat_of_nonneg h0
  have h := Bits.bit_val (Bits.ofLegs legs : Bits n) ⟨q.toNat, hlt⟩
  rw [hval] at h
  rw [h, Bits.ofLegs_of_nodup hn, hval]

lemma sign_ofLegs (ha : ∀ q ∈ as, 0 ≤ q ∧ q < n) (hb : bs.Nodup) :
    Bits.sign (Bits.ofLegs as : Bits n) (Bits.ofLegs bs) =
      if oddOverlap as bs then -1 else 1 := by
  have hpow : Bits.sign (Bits.ofLegs as : Bits n) (Bits.ofLegs bs) =
      (-1) ^ (as.filter bs.contains).length := by
    induction as with
    | nil => simp [Bits.sign_false]
    | cons q as ih =>
      obtain ⟨h0, hq⟩ := ha q mem_cons_self
      rw [Bits.ofLegs_cons, Bits.sign_add_left, Bits.sign_single, bit_ofLegs hb h0 hq,
        ih fun r hr => ha r (mem_cons_of_mem q hr)]
      by_cases hm : q ∈ bs
      · simp [hm, pow_succ]
      · simp [hm]
  rw [hpow, oddOverlap]
  rcases Nat.mod_two_eq_zero_or_one (as.filter bs.contains).length with hm | hm
  · rw [hm, (Nat.even_iff.mpr hm).neg_one_pow]
    rfl
  · rw [hm, (Nat.odd_iff.mpr hm).neg_one_pow]
    rfl

lemma stringOn_overlap (ha : LegsOn n as) (hb : LegsOn n bs) (b : Basis) :
    stringOn b (Bits.ofLegs as : Bits n) * stringOn b.other (Bits.ofLegs bs) =
      (if oddOverlap as bs then (-1 : ℂ) else 1) •
        (stringOn b.other (Bits.ofLegs bs) * stringOn b (Bits.ofLegs as)) := by
  rw [stringOn_other, sign_ofLegs ha.range hb.nodup]

lemma oddOverlap_congr {as bs cs ds : List Int} (ha : LegsOn n as) (hb : LegsOn n bs)
    (hc : LegsOn n cs) (hd : LegsOn n ds)
    (h : Bits.sign (Bits.ofLegs as : Bits n) (Bits.ofLegs bs) =
      Bits.sign (Bits.ofLegs cs : Bits n) (Bits.ofLegs ds)) :
    oddOverlap as bs = oddOverlap cs ds := by
  rw [sign_ofLegs ha.range hb.nodup, sign_ofLegs hc.range hd.nodup] at h
  grind

lemma oddOverlap_comm (ha : LegsOn n as) (hb : LegsOn n bs) : oddOverlap as bs = oddOverlap bs as :=
  oddOverlap_congr ha hb hb ha (Bits.sign_comm _ _)

namespace GadgetGroup

variable {a : AngleExpr} {g : GadgetGroup} {us : List (Operator n)} {legs : List Int}
variable {vs : List (Operator n)}

noncomputable def entryUnitary (n : Nat) (b : Basis) (e : List Int × AngleExpr) : Operator n :=
  turnAbout e.2.radians (stringOn b (Bits.ofLegs e.1))

noncomputable def unitary (n : Nat) (g : GadgetGroup) : Operator n :=
  inOrder (g.entries.map (entryUnitary n g.basis))

/-- Numeric angles on legs, each set of legs once. -/
structure Valid (n : Nat) (g : GadgetGroup) : Prop where
  keys : (g.entries.map Prod.fst).Nodup
  numeric : ∀ e ∈ g.entries, e.2.isAngle = true
  legs : ∀ e ∈ g.entries, LegsOn n e.1

lemma commute_inOrder {u : Operator n} (h : ∀ v ∈ us, Commute u v) : Commute u (inOrder us) := by
  induction us with
  | nil => exact Commute.one_right u
  | cons v us ih =>
    simp_all

lemma inOrder_insert {u : Operator n} (h : ∀ v ∈ vs, Commute u v) :
    inOrder (us ++ u :: vs) = u * inOrder (us ++ vs) := by
  rw [inOrder_append, inOrder_cons, inOrder_append, (commute_inOrder h).eq.symm, mul_assoc]

lemma commute_unitary (g : GadgetGroup) (a : ℝ) (m : Bits n) :
    Commute (turnAbout a (stringOn g.basis m)) (g.unitary n) := by
  refine commute_inOrder fun v hv => ?_
  obtain ⟨e, _, rfl⟩ := mem_map.mp hv
  exact turnAbout_commute (stringOn_mul_self _ _) (stringOn_mul_self _ _) (stringOn_commute _ _ _) _ _

lemma commute_stringOn_unitary (g : GadgetGroup) (m : Bits n) :
    Commute (stringOn g.basis m) (g.unitary n) := by
  have h := g.commute_unitary π m
  rw [turnAbout_pi (stringOn_mul_self _ _)] at h
  have hI : (-Complex.I) ≠ 0 := neg_ne_zero.mpr Complex.I_ne_zero
  simpa [smul_smul, inv_mul_cancel₀ hI] using h.smul_left (-Complex.I)⁻¹

lemma angle?_split (h : g.angle? legs = some a) :
    ∃ l r, g.entries = l ++ (legs, a) :: r ∧ ∀ e ∈ l, e.1 ≠ legs := by
  obtain ⟨e, he, rfl⟩ := Option.map_eq_some_iff.mp h
  obtain ⟨hk, l, r, hlr, hl⟩ := find?_eq_some_iff_append.mp he
  grind

lemma angle?_eq_none (h : g.angle? legs = none) : legs ∉ g.entries.map Prod.fst := by
  intro hm
  obtain ⟨e, he, hk⟩ := mem_map.mp hm
  have hnone := find?_eq_none.mp (Option.map_eq_none_iff.mp h) e he
  simp [hk] at hnone

lemma put_entries (hg : g.Valid n) (h : g.angle? legs = some a) (a' : AngleExpr) :
    ∃ l r, g.entries = l ++ (legs, a) :: r ∧ (g.put legs a').entries = l ++ (legs, a') :: r := by
  obtain ⟨l, r, hlr, hl⟩ := angle?_split h
  have hr : ∀ e ∈ r, e.1 ≠ legs := by
    have hk := hg.keys
    rw [hlr, map_append, map_cons] at hk
    have hcons := (nodup_append.mp hk).2.1
    intro e he hleg
    exact (nodup_cons.mp hcons).1 (mem_map.mpr ⟨e, he, hleg⟩)
  have hkeep : ∀ es : List (List Int × AngleExpr), (∀ e ∈ es, e.1 ≠ legs) →
      es.map (fun e => if e.1 == legs then (legs, a') else e) = es := by
    intro es hes
    refine (map_congr_left fun e he => ?_).trans (map_id es)
    simp [hes e he]
  refine ⟨l, r, hlr, ?_⟩
  simp only [put, h, Option.isSome_some, if_true, hlr, map_append, map_cons, hkeep l hl,
    hkeep r hr, beq_self_eq_true]

@[simp] lemma put_basis (g : GadgetGroup) (legs : List Int) (a : AngleExpr) :
    (g.put legs a).basis = g.basis := by
  unfold put
  split <;> rfl

lemma mem_put {e : List Int × AngleExpr} (he : e ∈ (g.put legs a).entries) :
    e ∈ g.entries ∨ e = (legs, a) := by
  unfold put at he
  grind

lemma put_keys (g : GadgetGroup) (legs : List Int) (a : AngleExpr) :
    (g.put legs a).entries.map Prod.fst =
      if (g.angle? legs).isSome then g.entries.map Prod.fst
      else g.entries.map Prod.fst ++ [legs] := by
  unfold put
  split
  · rw [map_map]
    refine map_congr_left fun e _ => ?_
    by_cases he : e.1 = legs <;> simp [he]
  · simp

lemma put_valid (hg : g.Valid n) (hlegs : LegsOn n legs) (ha : a.isAngle) :
    (g.put legs a).Valid n := by
  refine ⟨?_, ?_, ?_⟩
  · rw [put_keys]
    split
    · exact hg.keys
    · rename_i hnew
      refine nodup_append.mpr ⟨hg.keys, nodup_singleton legs, ?_⟩
      intro k hk k' hk' hkk
      rw [mem_singleton] at hk'
      exact angle?_eq_none (Option.not_isSome_iff_eq_none.mp hnew) (hk' ▸ hkk ▸ hk)
  · intro e he
    rcases mem_put he with he | rfl
    · exact hg.numeric e he
    · exact ha
  · intro e he
    rcases mem_put he with he | rfl
    · exact hg.legs e he
    · exact hlegs

lemma unitary_put (hg : g.Valid n) (h : g.angle? legs = some a) (a' : AngleExpr) :
    ∃ v, g.unitary n = turnAbout a.radians (stringOn g.basis (Bits.ofLegs legs)) * v ∧
      (g.put legs a').unitary n = turnAbout a'.radians (stringOn g.basis (Bits.ofLegs legs)) * v := by
  obtain ⟨l, r, hlr, hput⟩ := put_entries hg h a'
  have hout : ∀ e : List Int × AngleExpr, inOrder ((l ++ e :: r).map (entryUnitary n g.basis)) =
        entryUnitary n g.basis e * inOrder ((l ++ r).map (entryUnitary n g.basis)) := by
    intro e
    rw [map_append, map_cons, map_append]
    refine inOrder_insert fun v hv => ?_
    obtain ⟨f, _, rfl⟩ := mem_map.mp hv
    exact turnAbout_commute (stringOn_mul_self _ _) (stringOn_mul_self _ _) (stringOn_commute _ _ _) _ _
  refine ⟨inOrder ((l ++ r).map (entryUnitary n g.basis)), ?_, ?_⟩
  · rw [unitary, hlr, hout]
    rfl
  · rw [unitary, put_basis, hput, hout]
    rfl

lemma unitary_put_zero (hg : g.Valid n) (h : g.angle? legs = some a) :
    g.unitary n = turnAbout a.radians (stringOn g.basis (Bits.ofLegs legs)) *
      (g.put legs (.angle Angle.zero)).unitary n := by
  obtain ⟨v, hv, hput⟩ := unitary_put hg h (.angle Angle.zero)
  have hzero : radians (.angle Angle.zero) = 0 := by simp [radians, Angle.zero]
  rw [hput, hzero, turnAbout_zero, one_mul, hv]

lemma angle?_put (g : GadgetGroup) (legs : List Int) (a : AngleExpr) :
    (g.put legs a).angle? legs = some a := by
  unfold put
  split
  · rename_i hsome
    obtain ⟨old, hold⟩ := Option.isSome_iff_exists.mp hsome
    obtain ⟨l, r, hlr, hl⟩ := angle?_split hold
    have hkeep : ∀ e ∈ l.map (fun e => if e.1 == legs then (legs, a) else e), e.1 ≠ legs := by grind
    simp only [angle?, hlr, map_append, map_cons, beq_self_eq_true, if_true, find?_append]
    rw [find?_eq_none.mpr fun e he => by simp [hkeep e he]]
    simp
  · rename_i hnone
    have hfind : g.entries.find? (fun e => e.1 == legs) = none :=
      Option.map_eq_none_iff.mp (Option.not_isSome_iff_eq_none.mp hnone)
    simp [angle?, find?_append, hfind]

def fusedAngle (g : GadgetGroup) (legs : List Int) (a : AngleExpr) : Except Error AngleExpr :=
  match g.angle? legs with
  | none => .ok a
  | some old => old.add a

lemma fuse_of_fusedAngle {e : AngleExpr} (h : g.fusedAngle legs a = .ok e) :
    g.fuse legs a = .ok (g.put legs e) := by
  rw [fusedAngle] at h
  rw [fuse]
  cases hold : g.angle? legs with
  | none =>
    rw [hold] at h
    cases h
    rfl
  | some old =>
    rw [hold] at h
    simp only [h]
    rfl

lemma fuse_ok (hg : g.Valid n) (legs : List Int) (ha : a.isAngle) :
    ∃ s, s.isAngle ∧ g.fusedAngle legs a = .ok s ∧ (g.put legs s).unitary n =
        turnAbout a.radians (stringOn g.basis (Bits.ofLegs legs)) * g.unitary n := by
  unfold fusedAngle
  cases h : g.angle? legs with
  | none =>
    refine ⟨a, ha, rfl, ?_⟩
    have hput : (g.put legs a).entries = g.entries ++ [(legs, a)] := by simp [put, h]
    rw [unitary, put_basis, hput, map_append, inOrder_append, map_singleton, inOrder_cons,
      inOrder_nil, one_mul]
    rfl
  | some old =>
    obtain ⟨l, r, hlr, _⟩ := angle?_split h
    have hold : old.isAngle := hg.numeric (legs, old) (by simp [hlr])
    obtain ⟨s, hs, hangle, hsum⟩ := add_ok hold ha
    refine ⟨s, hangle, hs, ?_⟩
    obtain ⟨v, hv, hput⟩ := unitary_put hg h s
    have hp := stringOn_mul_self (n := n) g.basis (Bits.ofLegs legs)
    rw [hput, hv, hsum, add_comm, turnAbout_add hp, mul_assoc]

lemma commute_of_passes (hg : g.Valid n) (hlegs : LegsOn n legs) {b : Basis} (hb : g.basis = b.other)
    (h : g.passes legs) (a : ℝ) :
    Commute (turnAbout a (stringOn b (Bits.ofLegs legs))) (g.unitary n) := by
  refine commute_inOrder fun v hv => ?_
  obtain ⟨e, he, rfl⟩ := mem_map.mp hv
  have hpass := all_eq_true.mp h e he
  rw [Bool.or_eq_true] at hpass
  rcases hpass with hz | hodd
  · obtain ⟨z, _, hphase⟩ :=
      turnAbout_isZero (hg.numeric e he) hz (stringOn_mul_self g.basis (Bits.ofLegs e.1))
    rw [entryUnitary, hphase]
    exact (Commute.one_right _).smul_right z
  · have hcomm : Commute (stringOn b (Bits.ofLegs legs : Bits n)) (stringOn g.basis (Bits.ofLegs e.1)) := by
      have hstr := stringOn_overlap hlegs (hg.legs e he) b
      rw [Bool.not_eq_true'] at hodd
      rw [hodd, if_neg Bool.false_ne_true, one_smul] at hstr
      rw [hb]
      exact hstr
    exact turnAbout_commute (stringOn_mul_self _ _) (stringOn_mul_self _ _) hcomm _ _

lemma mul_inOrder {p : Operator n} (h : Forall₂ (fun u v => p * u = v * p) us vs) :
    p * inOrder us = inOrder vs * p := by
  induction h with
  | nil => simp
  | cons huv _ ih => rw [inOrder_cons, inOrder_cons, ← mul_assoc, ih, mul_assoc, huv, mul_assoc]

lemma mul_unitary_crossed (hg : g.Valid n) (hlegs : LegsOn n legs) {b : Basis}
    (hb : g.basis = b.other) :
    stringOn b (Bits.ofLegs legs) * g.unitary n =
      (g.crossed legs).unitary n * stringOn b (Bits.ofLegs legs) := by
  have hpull : ∀ e ∈ g.entries, stringOn b (Bits.ofLegs legs) * entryUnitary n g.basis e =
      entryUnitary n g.basis (if oddOverlap e.1 legs then (e.1, e.2.neg) else e) *
        stringOn b (Bits.ofLegs legs) := by
    intro e he
    have hstr := stringOn_overlap hlegs (hg.legs e he) b
    rw [oddOverlap_comm hlegs (hg.legs e he), ← hb] at hstr
    cases hodd : oddOverlap e.1 legs with
    | true =>
      rw [hodd, if_pos rfl, neg_one_smul] at hstr
      rw [if_pos rfl, entryUnitary, entryUnitary, radians_neg (hg.numeric e he)]
      exact mul_turnAbout_neg (stringOn_mul_self _ _) hstr _
    | false =>
      rw [hodd, if_neg Bool.false_ne_true, one_smul] at hstr
      rw [if_neg Bool.false_ne_true, entryUnitary, turnAbout_eq (stringOn_mul_self _ _), mul_sub,
        sub_mul]
      simp only [mul_smul_comm, smul_mul_assoc, mul_one, one_mul, hstr]
  have hbasis : (g.crossed legs).basis = g.basis := rfl
  rw [unitary, unitary, hbasis]
  refine mul_inOrder ?_
  rw [crossed, forall₂_map_left_iff, map_map, forall₂_map_right_iff,
    forall₂_same]
  exact hpull

lemma crossed_valid (hg : g.Valid n) (legs : List Int) : (g.crossed legs).Valid n := by
  have hkey : ∀ e : List Int × AngleExpr,
      (if oddOverlap e.1 legs then (e.1, e.2.neg) else e).1 = e.1 := by
    intro e
    split <;> rfl
  refine ⟨?_, ?_, ?_⟩
  · have hkeys : (g.crossed legs).entries.map Prod.fst = g.entries.map Prod.fst := by
      rw [crossed, map_map]
      exact map_congr_left fun e _ => hkey e
    rw [hkeys]
    exact hg.keys
  · intro e he
    obtain ⟨f, hf, rfl⟩ := mem_map.mp he
    split
    · exact isAngle_neg (hg.numeric f hf)
    · exact hg.numeric f hf
  · intro e he
    obtain ⟨f, hf, rfl⟩ := mem_map.mp he
    rw [hkey]
    exact hg.legs f hf

end GadgetGroup

end GadgetCircuits
