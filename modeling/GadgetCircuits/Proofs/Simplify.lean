import GadgetCircuits.Proofs.GadgetGroup

/-!
Simplification keeps the unitary of a circuit up to a global phase. The invariant is the product of
the groups in their order with the Pauli operators that were pulled to the front before them; every
move of a gadget keeps it.
-/

namespace GadgetCircuits

open List GadgetGroup AngleExpr Simplifier Bits Angle UpToPhase Gadget

variable {n : Nat}
variable {us : List (Operator n)} {j : Nat} {u : Operator n}

noncomputable def insertedAfter (us : List (Operator n)) (j : Nat) (r : Operator n) : Operator n :=
  inOrder (us.drop (j + 1)) * r * inOrder (us.take (j + 1))

lemma inOrder_take_succ (h : us[j]? = some u) :
    inOrder (us.take (j + 1)) = u * inOrder (us.take j) := by
  rw [take_add_one, h, inOrder_append]
  simp

lemma inOrder_drop (h : us[j]? = some u) : inOrder (us.drop j) = inOrder (us.drop (j + 1)) * u := by
  obtain ⟨hj, rfl⟩ := List.getElem?_eq_some_iff.mp h
  rw [drop_eq_getElem_cons hj, inOrder_cons]

lemma insertedAfter_eq_set (h : us[j]? = some u) (r : Operator n) :
    insertedAfter us j r = inOrder (us.set j (r * u)) := by
  have hj := (List.getElem?_eq_some_iff.mp h).1
  rw [insertedAfter, inOrder_take_succ h, set_eq_take_append_cons_drop, if_pos hj,
    inOrder_append, inOrder_cons]
  simp only [mul_assoc]

lemma insertedAfter_step {v r : Operator n} (hu : us[j + 1]? = some u) (hv : us[j + 2]? = some v)
    (hru : Commute r u) (hrv : Commute r v) : insertedAfter us (j + 2) r = insertedAfter us j r := by
  rw [insertedAfter, insertedAfter, inOrder_take_succ hv, inOrder_take_succ hu, inOrder_drop hu,
    inOrder_drop hv]
  calc inOrder (us.drop (j + 2 + 1)) * r * (v * (u * inOrder (us.take (j + 1))))
      = inOrder (us.drop (j + 2 + 1)) * (r * v) * u * inOrder (us.take (j + 1)) := by
        simp only [mul_assoc]
    _ = inOrder (us.drop (j + 2 + 1)) * v * (r * u) * inOrder (us.take (j + 1)) := by
        rw [hrv.eq]
        simp only [mul_assoc]
    _ = inOrder (us.drop (j + 1 + 1 + 1)) * v * u * r * inOrder (us.take (j + 1)) := by
        rw [hru.eq]
        simp only [mul_assoc]

lemma UpToPhase.insertedAfter {r r' : Operator n} (h : UpToPhase r r') (us : List (Operator n))
    (j : Nat) : UpToPhase (insertedAfter us j r) (insertedAfter us j r') :=
  ((refl _).mul h).mul (refl _)

namespace Simplifier

variable {a : AngleExpr} {g : GadgetGroup} {gs : List GadgetGroup} {legs : List Int} {i : Nat}
  {s : Simplifier} {α : Type}
variable {gs' : List GadgetGroup}

def basisAt (k : Nat) : Basis :=
  if k % 2 = 0 then .z else .x

lemma basisAt_succ (k : Nat) : basisAt (k + 1) = (basisAt k).other := by
  rcases Nat.mod_two_eq_zero_or_one k with h | h <;> simp [basisAt, Nat.add_mod, h, Basis.other]

lemma basisAt_add_two (k : Nat) : basisAt (k + 2) = basisAt k := by
  simp [basisAt]

def GroupsValid (n : Nat) (gs : List GadgetGroup) : Prop :=
  ∀ k g, gs[k]? = some g → g.basis = basisAt k ∧ g.Valid n

noncomputable def groupUnitaries (n : Nat) (gs : List GadgetGroup) : List (Operator n) :=
  gs.map (GadgetGroup.unitary n)

/-- The unitary that a simplifier stands for: what was pulled out, then the groups. -/
noncomputable def unitary (n : Nat) (s : Simplifier) : Operator n :=
  inOrder (groupUnitaries n s.groups) *
    (stringOn .x (ofLegs s.xPis) * stringOn .z (ofLegs s.zPis))

lemma group_eq (h : s.groups[i]? = some g) : s.group i = g := by
  simp [group, h]

lemma groupUnitaries_getElem? {k : Nat} (h : gs[k]? = some g) :
    (groupUnitaries n gs)[k]? = some (g.unitary n) := by
  simp [groupUnitaries, h]

lemma GroupsValid.set (hgs : GroupsValid n gs) (hb : g.basis = basisAt i) (hg : g.Valid n) :
    GroupsValid n (gs.set i g) := by
  intro k g' hk
  rw [getElem?_set] at hk
  split at hk
  · simp_all
  · exact hgs k g' hk

lemma legsOn_of_angle? (hg : g.Valid n) (h : g.angle? legs = some a) :
    LegsOn n legs ∧ a.isAngle := by
  obtain ⟨l, r, hlr, _⟩ := angle?_split h
  have hmem : (legs, a) ∈ g.entries := by simp [hlr]
  exact ⟨hg.legs _ hmem, hg.numeric _ hmem⟩

lemma GroupsValid.put (hgs : GroupsValid n gs) (hi : gs[i]? = some g) (hlegs : LegsOn n legs)
    (ha : a.isAngle) : GroupsValid n (gs.set i (g.put legs a)) := by
  obtain ⟨hb, hg⟩ := hgs i g hi
  exact hgs.set ((put_basis _ _ _).trans hb) (put_valid hg hlegs ha)

lemma inOrder_takeOut (hgs : GroupsValid n gs) (hi : gs[i]? = some g) (ha : g.angle? legs = some a) :
    inOrder (groupUnitaries n gs) =
      insertedAfter (groupUnitaries n (gs.set i (g.put legs (.angle zero)))) i
        (turnAbout a.radians (stringOn (basisAt i) (ofLegs legs))) := by
  obtain ⟨hb, hg⟩ := hgs i g hi
  obtain ⟨hlt, hget⟩ := List.getElem?_eq_some_iff.mp hi
  have hset : (gs.set i (g.put legs (.angle zero)))[i]? =
      some (g.put legs (.angle zero)) := by simp [hlt]
  rw [insertedAfter_eq_set (groupUnitaries_getElem? hset), ← hb,
    ← unitary_put_zero hg ha, groupUnitaries, groupUnitaries, ← map_set,
    set_set, ← hget, set_getElem_self]

lemma destination_le (s : Simplifier) (legs : List Int) (i : Nat) :
    s.destination legs i ≤ i ∧ basisAt (s.destination legs i) = basisAt i := by
  induction i using destination.induct s legs with
  | case1 => exact ⟨Nat.le_refl 0, rfl⟩
  | case2 => exact ⟨Nat.le_refl 1, rfl⟩
  | case3 j hpass ih =>
    rw [destination, if_pos hpass]
    exact ⟨by omega, ih.2.trans (basisAt_add_two j).symm⟩
  | case4 j hpass =>
    rw [destination, if_neg hpass]
    exact ⟨Nat.le_refl _, rfl⟩

/-- A gadget after its group can as well stand after the group that it moves to. The groups before
its own have to be those that the destination was computed from. -/
theorem insertedAfter_destination (hs : GroupsValid n s.groups) (hlegs : LegsOn n legs) (a : ℝ)
    (us : List (Operator n)) (i : Nat) (hlow : ∀ k < i, us[k]? = (groupUnitaries n s.groups)[k]?)
    (hi : us[i]? = some u) (hlen : us.length = s.groups.length)
    (hu : Commute (turnAbout a (stringOn (basisAt i) (ofLegs legs))) u) :
    insertedAfter us i (turnAbout a (stringOn (basisAt i) (ofLegs legs))) =
      insertedAfter us (s.destination legs i)
        (turnAbout a (stringOn (basisAt i) (ofLegs legs))) := by
  induction i using destination.induct s legs generalizing u with
  | case1 => rfl
  | case2 => rfl
  | case3 j hpass ih =>
    have hj2 := (List.getElem?_eq_some_iff.mp hi).1
    obtain ⟨g, hg⟩ : ∃ g, s.groups[j]? = some g := ⟨_, getElem?_eq_getElem (by omega)⟩
    obtain ⟨h, hh⟩ : ∃ h, s.groups[j + 1]? = some h := ⟨_, getElem?_eq_getElem (by omega)⟩
    have hgu : us[j]? = some (g.unitary n) := (hlow j (by omega)).trans (groupUnitaries_getElem? hg)
    have hhu : us[j + 1]? = some (h.unitary n) :=
      (hlow (j + 1) (by omega)).trans (groupUnitaries_getElem? hh)
    obtain ⟨hhb, hhv⟩ := hs (j + 1) h hh
    rw [destination, if_pos hpass]
    rw [group_eq hh] at hpass
    rw [basisAt_add_two] at hu ⊢
    rw [insertedAfter_step hhu hi
      (commute_of_passes hhv hlegs (hhb.trans (basisAt_succ j)) hpass a) hu]
    refine ih (fun k hk => hlow k (by omega)) hgu ?_
    rw [← (hs j g hg).1]
    exact g.commute_unitary a _
  | case4 j hpass => rw [destination, if_neg hpass]

lemma norm_sign (l m : Bits n) : ‖sign l m‖ = 1 := by
  rw [sign, norm_prod]
  refine Finset.prod_eq_one fun i _ => ?_
  split <;> simp

/-- The groups after half a turn at group `j` has been pulled to the front. -/
def pulledGroups (gs : List GadgetGroup) (legs : List Int) (j : Nat) : List GadgetGroup :=
  gs.zipIdx.map fun (g, k) => if k < j && (j - k) % 2 == 1 then g.crossed legs else g

lemma pulledGroups_getElem? (gs : List GadgetGroup) (legs : List Int) (j k : Nat) :
    (pulledGroups gs legs j)[k]? =
      (gs[k]?).map fun g => if k < j && (j - k) % 2 == 1 then g.crossed legs else g := by
  simp only [pulledGroups, getElem?_map, getElem?_zipIdx, Option.map_map, Nat.zero_add]
  rfl

lemma pulledGroups_valid (hgs : GroupsValid n gs) (legs : List Int) (j : Nat) :
    GroupsValid n (pulledGroups gs legs j) := by
  intro k g' hk
  rw [pulledGroups_getElem?] at hk
  obtain ⟨g, hg, rfl⟩ := Option.map_eq_some_iff.mp hk
  obtain ⟨hb, hv⟩ := hgs k g hg
  split
  · exact ⟨hb, crossed_valid hv legs⟩
  · exact ⟨hb, hv⟩

/-- Each group up to the one of the half turn lets it pass, with signs turned in every second. -/
theorem mul_pulled_group (hgs : GroupsValid n gs) (hlegs : LegsOn n legs) {k : Nat} (hkj : k ≤ j)
    (hg : gs[k]? = some g) :
    stringOn (basisAt j) (ofLegs legs) * g.unitary n =
      (if k < j && (j - k) % 2 == 1 then g.crossed legs else g).unitary n *
        stringOn (basisAt j) (ofLegs legs) := by
  obtain ⟨hb, hv⟩ := hgs k g hg
  have hparity : basisAt j = if (j - k) % 2 = 1 then (basisAt k).other else basisAt k := by
    have hsplit : j % 2 = (k % 2 + (j - k) % 2) % 2 := by omega
    rcases Nat.mod_two_eq_zero_or_one k with hk | hk <;>
      rcases Nat.mod_two_eq_zero_or_one (j - k) with hd | hd <;>
      simp [basisAt, hsplit, hk, hd, Basis.other]
  by_cases hodd : (j - k) % 2 = 1
  · have hlt : k < j := by omega
    have hcond : (k < j && (j - k) % 2 == 1) := by simp [hlt, hodd]
    rw [if_pos hcond]
    refine mul_unitary_crossed hv hlegs ?_
    rw [hb, hparity, if_pos hodd]
    cases basisAt k <;> rfl
  · have hcond : ¬(k < j && (j - k) % 2 == 1) := by simp [hodd]
    rw [if_neg hcond, hparity, if_neg hodd, ← hb]
    exact (g.commute_stringOn_unitary _).eq

lemma insertedAfter_pulled (hgs : GroupsValid n gs) (hlegs : LegsOn n legs) (j : Nat) :
    insertedAfter (groupUnitaries n gs) j (stringOn (basisAt j) (ofLegs legs)) =
      inOrder (groupUnitaries n (pulledGroups gs legs j)) *
        stringOn (basisAt j) (ofLegs legs) := by
  have hdrop : (groupUnitaries n gs).drop (j + 1) =
      (groupUnitaries n (pulledGroups gs legs j)).drop (j + 1) := by
    apply ext_getElem?
    intro k
    have hk : ¬(j + 1 + k < j && (j - (j + 1 + k)) % 2 == 1) := by
      have hlt : ¬j + 1 + k < j := by omega
      simp [hlt]
    simp only [groupUnitaries, getElem?_drop, getElem?_map, pulledGroups_getElem?,
      if_neg hk, Option.map_map]
    rfl
  have htake : stringOn (basisAt j) (ofLegs legs) *
      inOrder ((groupUnitaries n gs).take (j + 1)) =
      inOrder ((groupUnitaries n (pulledGroups gs legs j)).take (j + 1)) *
        stringOn (basisAt j) (ofLegs legs) := by
    refine mul_inOrder (forall₂_iff_get.mpr ⟨?_, ?_⟩)
    · simp [groupUnitaries, pulledGroups]
    · intro k hk hk'
      simp only [groupUnitaries, length_take, length_map] at hk
      have hget : gs[k]? = some gs[k] := getElem?_eq_getElem (by omega)
      have h := mul_pulled_group hgs hlegs (j := j) (k := k) (by omega) hget
      simpa [groupUnitaries, pulledGroups] using h
  rw [insertedAfter, mul_assoc, htake, hdrop, ← mul_assoc, ← inOrder_append, take_append_drop]

lemma pullPi_groups (s : Simplifier) (b : Basis) (legs : List Int) (j : Nat) :
    (s.pullPi b legs j).groups = pulledGroups s.groups legs j := by
  cases b <;> rfl

lemma pullPi_unitary (hs : GroupsValid n s.groups) (hlegs : LegsOn n legs) (j : Nat) :
    UpToPhase ((s.pullPi (basisAt j) legs j).unitary n)
      (insertedAfter (groupUnitaries n s.groups) j (stringOn (basisAt j) (ofLegs legs)) *
        (stringOn .x (ofLegs s.xPis) * stringOn .z (ofLegs s.zPis))) := by
  rw [insertedAfter_pulled hs hlegs, mul_assoc, unitary, pullPi_groups]
  refine (refl _).mul ?_
  cases hb : basisAt j with
  | z =>
    have hz : stringOn .z (ofLegs (s.zPis ++ legs) : Bits n) =
        stringOn .z (ofLegs legs) * stringOn .z (ofLegs s.zPis) := by
      rw [stringOn_mul, ofLegs_append, Bits.add_comm]
    refine symm ⟨sign (ofLegs legs : Bits n) (ofLegs s.xPis),
      norm_sign _ _, ?_⟩
    rw [← mul_assoc, stringOn_z_x, smul_mul_assoc, mul_assoc, ← hz]
    rfl
  | x =>
    refine of_eq ?_
    rw [← mul_assoc, stringOn_mul, Bits.add_comm, ← ofLegs_append]
    rfl

structure Keeps (n : Nat) (u : Operator n) (s : Simplifier) : Prop where
  valid : GroupsValid n s.groups
  phase : UpToPhase (s.unitary n) u

lemma pullPi_keeps (hs : s.Keeps n u) (hj : s.groups[j]? = some g) (ha : g.angle? legs = some a)
    (hpi : a.isPi) :
    ((s.setGroup j (g.put legs (.angle zero))).pullPi (basisAt j) legs j).Keeps n u := by
  obtain ⟨hlegs, hangle⟩ := legsOn_of_angle? (hs.valid j g hj).2 ha
  have hvalid : GroupsValid n (s.setGroup j (g.put legs (.angle zero))).groups :=
    hs.valid.put hj hlegs rfl
  refine ⟨by rw [pullPi_groups]; exact pulledGroups_valid hvalid legs j, ?_⟩
  refine (pullPi_unitary hvalid hlegs j).trans (UpToPhase.trans ?_ hs.phase)
  rw [unitary, inOrder_takeOut hs.valid hj ha]
  refine UpToPhase.mul (UpToPhase.insertedAfter ?_ _ _) (UpToPhase.refl _)
  exact (turnAbout_isPi hangle hpi (stringOn_mul_self _ _)).symm

def fusedInto (s : Simplifier) (i : Nat) (g : GadgetGroup) (j : Nat) (h : GadgetGroup)
    (legs : List Int) (e : AngleExpr) : Simplifier :=
  (s.setGroup i (g.put legs (.angle zero))).setGroup j (h.put legs e)

lemma setGroup_getElem?_of_lt {h : GadgetGroup} (hj : j < i) (hh : s.groups[j]? = some h)
    (g : GadgetGroup) : (s.setGroup i g).groups[j]? = some h :=
  (getElem?_set_ne (Nat.ne_of_gt hj)).trans hh

lemma fuse_keeps (hs : s.Keeps n u) {h : GadgetGroup} (hi : s.groups[i]? = some g) {e : AngleExpr}
    (ha : g.angle? legs = some a) (hlt : s.destination legs i < i)
    (hh : s.groups[s.destination legs i]? = some h) (he : h.fusedAngle legs a = .ok e) :
    (s.fusedInto i g (s.destination legs i) h legs e).Keeps n u := by
  obtain ⟨hb, hg⟩ := hs.valid i g hi
  obtain ⟨hlegs, hangle⟩ := legsOn_of_angle? hg ha
  obtain ⟨_, hbj⟩ := s.destination_le legs i
  have hil := (List.getElem?_eq_some_iff.mp hi).1
  let taken := s.setGroup i (g.put legs (.angle zero))
  have hvalid : GroupsValid n taken.groups := hs.valid.put hi hlegs rfl
  have hlength : taken.groups.length = s.groups.length := length_set
  have hh' : taken.groups[s.destination legs i]? = some h := setGroup_getElem?_of_lt hlt hh _
  obtain ⟨hhb, hhv⟩ := hvalid _ h hh'
  obtain ⟨e', he', hfuse, hunit⟩ := fuse_ok hhv legs hangle
  obtain rfl := Except.ok.inj (he.symm.trans hfuse)
  refine ⟨hvalid.put hh' hlegs he', ?_⟩
  refine (of_eq ?_).trans hs.phase
  have hgi : taken.groups[i]? = some (g.put legs (.angle zero)) := by
    simp [taken, setGroup, hil]
  have hcomm : Commute (turnAbout a.radians (stringOn (basisAt i) (ofLegs legs : Bits n)))
      ((g.put legs (.angle zero)).unitary n) := by
    rw [← hb, ← g.put_basis legs (.angle zero)]
    exact commute_unitary _ _ _
  have hlow : ∀ k < i, (groupUnitaries n taken.groups)[k]? = (groupUnitaries n s.groups)[k]? := by
    intro k hk
    have hne : i ≠ k := by omega
    simp [groupUnitaries, taken, setGroup, hne]
  have hmove := insertedAfter_destination hs.valid hlegs a.radians (groupUnitaries n taken.groups) i
    hlow (groupUnitaries_getElem? hgi) (by simp [groupUnitaries, hlength]) hcomm
  rw [unitary, unitary, inOrder_takeOut hs.valid hi ha]
  refine congrArg₂ (· * ·) ?_ rfl
  refine Eq.trans ?_ hmove.symm
  rw [insertedAfter_eq_set (groupUnitaries_getElem? hh'), ← hbj, ← hhb, ← hunit]
  simp [fusedInto, groupUnitaries, setGroup, taken]

/-- What moving the gadget of group `i` on some legs can do: it is not there or has no turn, or it
stays where it is, or it is fused into the group that it moves to; in both places a gadget of angle π is
pulled out. -/
inductive Moved (s : Simplifier) (i : Nat) (legs : List Int) : Simplifier → Prop
  | idle (h : ∀ a, (s.group i).angle? legs = some a → a.isZero = true) : Moved s i legs s
  | stopped {g : GadgetGroup} {a : AngleExpr} (hi : s.groups[i]? = some g)
      (ha : g.angle? legs = some a) (hj : s.destination legs i = i) (hpi : a.isPi = false) :
      Moved s i legs s
  | pulled {g : GadgetGroup} {a : AngleExpr} (hi : s.groups[i]? = some g)
      (ha : g.angle? legs = some a) (hj : s.destination legs i = i) (hpi : a.isPi = true) :
      Moved s i legs ((s.setGroup i (g.put legs (.angle zero))).pullPi (basisAt i) legs i)
  | fused {g h : GadgetGroup} {a e : AngleExpr} (hi : s.groups[i]? = some g)
      (ha : g.angle? legs = some a) (hj : s.destination legs i < i)
      (hh : s.groups[s.destination legs i]? = some h) (he : h.fusedAngle legs a = .ok e)
      (hpi : e.isPi = false) : Moved s i legs (s.fusedInto i g (s.destination legs i) h legs e)
  | fusedPulled {g h : GadgetGroup} {a e : AngleExpr} (hi : s.groups[i]? = some g)
      (ha : g.angle? legs = some a) (hj : s.destination legs i < i)
      (hh : s.groups[s.destination legs i]? = some h) (he : h.fusedAngle legs a = .ok e)
      (hpi : e.isPi = true) :
      Moved s i legs (((s.fusedInto i g (s.destination legs i) h legs e).setGroup
        (s.destination legs i) ((h.put legs e).put legs (.angle zero))).pullPi
          (basisAt (s.destination legs i)) legs (s.destination legs i))

lemma move_of_none (h : (s.group i).angle? legs = none) : s.move i legs = .ok s := by
  have hzero : AngleOperand.equal (.expr (.angle zero)) (.plain (.int 0)) := by
    rw [equal_zero rfl]
    simpa [AngleExpr.isZero, Angle.isZero, Angle.reduced, ratMod, Angle.zero] using
      Rat.floor_intCast 0
  simp only [move, h, Option.getD_none, hzero, if_true]
  rfl

lemma move_moved (hs : GroupsValid n s.groups) (i : Nat) (legs : List Int) :
    ∃ s', s.move i legs = .ok s' ∧ s.Moved i legs s' := by
  cases ha : (s.group i).angle? legs with
  | none => exact ⟨s, move_of_none ha, .idle (by simp [ha])⟩
  | some a =>
    obtain ⟨g, hi⟩ : ∃ g, s.groups[i]? = some g := by
      cases hi : s.groups[i]? with
      | none =>
        rw [group, hi] at ha
        cases ha
      | some g => exact ⟨g, rfl⟩
    obtain ⟨hb, hg⟩ := hs i g hi
    rw [group_eq hi] at ha
    obtain ⟨hlegs, hangle⟩ := legsOn_of_angle? hg ha
    simp only [move, group_eq hi, ha, Option.getD_some, equal_zero hangle]
    by_cases hz : a.isZero
    · refine ⟨s, by rw [if_pos hz]; rfl, .idle fun a' ha' => ?_⟩
      rw [group_eq hi, ha] at ha'
      cases ha'
      exact hz
    rw [if_neg hz]
    obtain ⟨hle, hbj⟩ := s.destination_le legs i
    by_cases hlt : s.destination legs i < i
    · have hil := (List.getElem?_eq_some_iff.mp hi).1
      obtain ⟨h, hh⟩ : ∃ h, s.groups[s.destination legs i]? = some h :=
        ⟨_, getElem?_eq_getElem (by omega)⟩
      have hh' : (s.setGroup i (g.put legs (.angle zero))).group (s.destination legs i) = h :=
        group_eq (setGroup_getElem?_of_lt hlt hh _)
      obtain ⟨e, -, he, -⟩ := fuse_ok (hs _ h hh).2 legs hangle
      simp only [if_pos hlt, hh', fuse_of_fusedAngle he, ok_bind, angle?_put, Option.getD_some]
      cases hpi : e.isPi with
      | true =>
        refine ⟨_, rfl, ?_⟩
        have hmoved := Moved.fusedPulled hi ha hlt hh he hpi
        rw [hbj, ← hb] at hmoved
        simpa [fusedInto, setGroup] using hmoved
      | false => exact ⟨_, rfl, .fused hi ha hlt hh he hpi⟩
    · have hj : s.destination legs i = i := by omega
      rw [if_neg hlt]
      cases hpi : a.isPi with
      | true =>
        refine ⟨_, rfl, ?_⟩
        rw [hb]
        exact .pulled hi ha hj hpi
      | false => exact ⟨_, rfl, .stopped hi ha hj hpi⟩

lemma Moved.keeps {s' : Simplifier} (hs : s.Keeps n u) (h : s.Moved i legs s') : s'.Keeps n u := by
  cases h with
  | idle | stopped => exact hs
  | pulled hi ha _ hpi => exact pullPi_keeps hs hi ha hpi
  | fused hi ha hj hh he => exact fuse_keeps hs hi ha hj hh he
  | fusedPulled hi ha hj hh he hpi =>
    have hkeep := fuse_keeps hs hi ha hj hh he
    refine pullPi_keeps hkeep ?_ (angle?_put _ _ _) hpi
    refine getElem?_set_self ?_
    rw [setGroup, length_set]
    exact (List.getElem?_eq_some_iff.mp hh).1

lemma foldlM_keeps {σ : Type} {f : σ → α → Except Error σ} {p : σ → Prop}
    (hstep : ∀ s x, p s → ∃ s', f s x = .ok s' ∧ p s') (xs : List α) {s : σ} (hs : p s) :
    ∃ s', xs.foldlM f s = .ok s' ∧ p s' := by
  induction xs generalizing s with
  | nil => exact ⟨s, rfl, hs⟩
  | cons x xs ih =>
    obtain ⟨s', hf, hs'⟩ := hstep s x hs
    obtain ⟨t, ht, hpt⟩ := ih hs'
    exact ⟨t, by rw [foldlM_cons, hf, ok_bind, ht], hpt⟩

lemma foldlM_done {σ : Type} {f : σ → α → Except Error σ} {p : List α → σ → Prop} (xs : List α)
    (hstep : ∀ done, ∀ x ∈ xs, ∀ s, p done s → ∃ s', f s x = .ok s' ∧ p (done ++ [x]) s')
    (done : List α) {s : σ} (hs : p done s) : ∃ s', xs.foldlM f s = .ok s' ∧ p (done ++ xs) s' := by
  induction xs generalizing done s with
  | nil => exact ⟨s, rfl, by simpa using hs⟩
  | cons x xs ih =>
    obtain ⟨s', hf, hs'⟩ := hstep done x mem_cons_self s hs
    obtain ⟨t, ht, hpt⟩ := ih (fun done y hy => hstep done y (mem_cons_of_mem x hy)) _ hs'
    exact ⟨t, by rw [foldlM_cons, hf, ok_bind, ht], by simpa using hpt⟩

/-- What collecting a gadget can do: it is fused into the last group if this has its basis, else it
starts a group. -/
inductive Collected (gs : List GadgetGroup) (g : Gadget) : List GadgetGroup → Prop
  | fused {init : List GadgetGroup} {last : GadgetGroup} {e : AngleExpr} (hgs : gs = init ++ [last])
      (hb : last.basis = g.basis) (he : last.fusedAngle g.legs g.angle = .ok e) :
      Collected gs g (init ++ [last.put g.legs e])
  | started {init : List GadgetGroup} {last : GadgetGroup} (hgs : gs = init ++ [last])
      (hb : last.basis ≠ g.basis) :
      Collected gs g (gs ++ [{ basis := g.basis, entries := [(g.legs, g.angle)] }])

lemma collect_collected (hgs : GroupsValid n gs) (hne : gs ≠ []) {g : Gadget}
    (ha : g.angle.isAngle) : ∃ gs', collect gs g = .ok gs' ∧ Collected gs g gs' := by
  obtain ⟨init, last, rfl⟩ : ∃ init last, gs = init ++ [last] :=
    ⟨gs.dropLast, gs.getLast hne, (dropLast_append_getLast hne).symm⟩
  simp only [collect, getLast?_concat, dropLast_concat, beq_iff_eq]
  by_cases hsame : last.basis = g.basis
  · have hlast : (init ++ [last])[init.length]? = some last := by simp
    obtain ⟨e, -, hfuse, -⟩ := fuse_ok (hgs _ last hlast).2 g.legs ha
    refine ⟨_, ?_, .fused rfl hsame hfuse⟩
    rw [if_pos hsame, fuse_of_fusedAngle hfuse]
    rfl
  · exact ⟨_, if_neg hsame, .started rfl hsame⟩

lemma Collected.ne_nil {g : Gadget} (h : Collected gs g gs') : gs' ≠ [] := by
  cases h <;> simp

lemma inOrder_groups_concat (gs : List GadgetGroup) (g : GadgetGroup) :
    inOrder (groupUnitaries n (gs ++ [g])) = g.unitary n * inOrder (groupUnitaries n gs) := by
  simp [groupUnitaries, inOrder_append]

lemma Collected.unitary (hgs : GroupsValid n gs) {g : Gadget} (hl : LegsOn n g.legs)
    (ha : g.angle.isAngle) (h : Collected gs g gs') :
    GroupsValid n gs' ∧ inOrder (groupUnitaries n gs') =
      g.unitary n radians * inOrder (groupUnitaries n gs) := by
  have hunit : g.unitary n radians =
      turnAbout g.angle.radians (stringOn g.basis (ofLegs g.legs)) := unitary_eq _ g
  cases h with
  | @fused init last e hinit hsame hfuse =>
    subst hinit
    have hlast : (init ++ [last])[init.length]? = some last := by simp
    obtain ⟨e', he, hfuse', hput⟩ := fuse_ok (hgs _ last hlast).2 g.legs ha
    obtain rfl := Except.ok.inj (hfuse.symm.trans hfuse')
    refine ⟨by simpa using hgs.put hlast hl he, ?_⟩
    rw [inOrder_groups_concat, inOrder_groups_concat, hput, hunit, hsame, mul_assoc]
  | @started init last hinit hsame =>
    have hlast : gs[init.length]? = some last := by simp [hinit]
    obtain ⟨hb, -⟩ := hgs _ last hlast
    refine ⟨fun k h hk => ?_, ?_⟩
    · rcases PhaseCircuit.getElem?_concat_eq_some.mp hk with hold | ⟨hend, rfl⟩
      · exact hgs k h hold
      · refine ⟨?_, ⟨by simp, by simpa using ha, by simpa using hl⟩⟩
        rw [hend, hinit, length_append, length_singleton, basisAt_succ, ← hb]
        cases hg : g.basis <;> cases hl : last.basis <;> simp_all [Basis.other]
    · rw [inOrder_groups_concat, hunit]
      refine congrArg₂ (· * ·) ?_ rfl
      simp [GadgetGroup.unitary, GadgetGroup.entryUnitary]

lemma collectAll_ok (gads : List Gadget) (hg : ∀ g ∈ gads, LegsOn n g.legs ∧ g.angle.isAngle)
    (hgs : GroupsValid n gs) (hne : gs ≠ []) :
    ∃ gs', gads.foldlM collect gs = .ok gs' ∧ GroupsValid n gs' ∧ inOrder (groupUnitaries n gs') =
        inOrder (gads.map (Gadget.unitary n radians)) * inOrder (groupUnitaries n gs) := by
  have hstep : ∀ done, ∀ g ∈ gads, ∀ gs₁, GroupsValid n gs₁ ∧ gs₁ ≠ [] ∧
      inOrder (groupUnitaries n gs₁) =
        inOrder (done.map (Gadget.unitary n radians)) * inOrder (groupUnitaries n gs) →
      ∃ gs₂, collect gs₁ g = .ok gs₂ ∧ GroupsValid n gs₂ ∧ gs₂ ≠ [] ∧
        inOrder (groupUnitaries n gs₂) =
          inOrder ((done ++ [g]).map (Gadget.unitary n radians)) *
            inOrder (groupUnitaries n gs) := by
    rintro done g hmem gs₁ ⟨hv, hne₁, hu⟩
    obtain ⟨hl, ha⟩ := hg g hmem
    obtain ⟨gs₂, hcollect, hcollected⟩ := collect_collected hv hne₁ ha
    obtain ⟨hv₂, hu₂⟩ := hcollected.unitary hv hl ha
    refine ⟨gs₂, hcollect, hv₂, hcollected.ne_nil, ?_⟩
    rw [hu₂, hu, map_append, inOrder_append, map_singleton, inOrder_cons, inOrder_nil,
      one_mul, mul_assoc]
  obtain ⟨gs', hfold, hv, -, hu⟩ := foldlM_done gads hstep [] ⟨hgs, hne, by simp⟩
  exact ⟨gs', hfold, hv, hu⟩

/-- Replacing items by equivalent ones, and leaving out those that are a global phase, changes a
sequence by a global phase. -/
theorem inOrder_filterMap {β : Type} {f : α → Option β} {u : β → Operator n} {v : α → Operator n}
    {xs : List α} (h : ∀ x ∈ xs, UpToPhase (((f x).map u).getD 1) (v x)) :
    UpToPhase (inOrder ((xs.filterMap f).map u)) (inOrder (xs.map v)) := by
  induction xs with
  | nil => exact refl _
  | cons x xs ih =>
    have hx := h x mem_cons_self
    have hxs := ih fun y hy => h y (mem_cons_of_mem x hy)
    rw [map_cons, inOrder_cons]
    cases hf : f x with
    | none =>
      rw [filterMap_cons_none hf, ← mul_one (inOrder _)]
      rw [hf] at hx
      exact hxs.mul hx
    | some y =>
      rw [filterMap_cons_some hf, map_cons, inOrder_cons]
      rw [hf] at hx
      exact hxs.mul hx

lemma remaining_unitary (hg : g.Valid n) :
    UpToPhase (inOrder ((remaining g).map (Gadget.unitary n radians))) (g.unitary n) := by
  refine inOrder_filterMap fun e he => ?_
  have hangle := hg.numeric e he
  have hp := stringOn_mul_self (n := n) g.basis (ofLegs e.1)
  have hreduce := turnAbout_reduceAngle hangle hp
  have hred := isAngle_reduceAngle hangle
  simp only [equal_zero hred]
  by_cases hz : (PhaseCircuit.reduceAngle e.2).isZero
  · rw [if_pos hz]
    exact (turnAbout_isZero hred hz hp).symm.trans hreduce
  · rw [if_neg hz, Option.map_some, Option.getD_some, unitary_eq]
    exact hreduce

lemma remaining_all_unitary (hgs : ∀ g ∈ gs, g.Valid n) :
    UpToPhase (inOrder ((gs.flatMap remaining).map (Gadget.unitary n radians)))
      (inOrder (groupUnitaries n gs)) := by
  induction gs with
  | nil => exact refl _
  | cons g gs ih =>
    rw [flatMap_cons, map_append, inOrder_append, groupUnitaries, map_cons, inOrder_cons]
    exact (ih fun h hh => hgs h (mem_cons_of_mem g hh)).mul
      (remaining_unitary (hgs g mem_cons_self))

lemma remaining_legs (hg : g.Valid n) : ∀ k ∈ remaining g, LegsOn n k.legs ∧ k.angle.isAngle := by
  intro k hk
  obtain ⟨e, he, hf⟩ := mem_filterMap.mp hk
  simp only at hf
  split at hf
  · cases hf
  · cases hf
    exact ⟨hg.legs e he, isAngle_reduceAngle (hg.numeric e he)⟩

def oddQubits (n : Nat) (pulled : List Int) : List Int :=
  ((List.range n).filter fun (q : Nat) => pulled.count (q : Int) % 2 == 1).map Int.ofNat

lemma oddQubits_nodup (pulled : List Int) : (oddQubits n pulled).Nodup :=
  (nodup_range.filter _).map fun _ _ h => Int.ofNat.inj h

lemma mem_oddQubits {pulled : List Int} {q : Nat} (hq : q < n) :
    (q : Int) ∈ oddQubits n pulled ↔ pulled.count (q : Int) % 2 = 1 := by
  rw [oddQubits, ← Int.ofNat_eq_natCast, mem_map_of_injective fun _ _ h => Int.ofNat.inj h]
  simp [hq]

lemma oddQubits_bits (pulled : List Int) :
    (ofLegs (oddQubits n pulled) : Bits n) = ofLegs pulled := by
  funext i
  rw [ofLegs_of_nodup (oddQubits_nodup pulled), ofLegs]
  by_cases hc : pulled.count (i : Int) % 2 = 1
  · rw [decide_eq_true ((mem_oddQubits i.isLt).mpr hc), hc]
    rfl
  · rw [decide_eq_false fun h => hc ((mem_oddQubits i.isLt).mp h)]
    simp [hc]

lemma piGates_eq (b : Basis) (pulled : List Int) :
    piGates b n pulled = (oddQubits n pulled).map fun q =>
      { basis := b, angle := .angle Angle.pi, legs := [q] } := by
  rw [piGates, oddQubits, map_map]
  rfl

lemma piGates_unitary (b : Basis) (pulled : List Int) :
    UpToPhase (inOrder ((piGates b n pulled).map (Gadget.unitary n radians)))
      (stringOn b (ofLegs pulled)) := by
  rw [← oddQubits_bits pulled, piGates_eq]
  induction oddQubits n pulled with
  | nil =>
    rw [ofLegs_nil, stringOn_false]
    exact refl _
  | cons q qs ih =>
    rw [ofLegs_cons, Bits.add_comm, ← stringOn_mul, map_cons, map_cons, inOrder_cons]
    refine ih.mul ?_
    rw [unitary_eq]
    have hpi : AngleExpr.isPi (.angle Angle.pi) := by
      simp only [AngleExpr.isPi, Angle.isPi, Angle.reduced, ratMod, Angle.pi]
      norm_num [Rat.floor]
    exact turnAbout_isPi rfl hpi (stringOn_mul_self _ _)

def outcome (n : Nat) (s : Simplifier) : List Gadget :=
  piGates .z n s.zPis ++ piGates .x n s.xPis ++ s.groups.flatMap remaining

end Simplifier

namespace PhaseCircuit

lemma cell_legsOn {k : Cell} (hk : k.Proper n) : LegsOn n k.gadget.legs where
  nodup := (GadgetTable.legsOf_nodup k.column).map fun _ _ h => Int.ofNat.inj h
  ne_nil := by
    simpa [Cell.gadget] using GadgetTable.legsOf_ne_nil hk.2
  range := by
    intro q hq
    obtain ⟨i, hi, rfl⟩ := mem_map.mp hq
    have hlt := (List.getElem?_eq_some_iff.mp (GadgetTable.mem_legsOf.mp hi)).1
    rw [hk.1] at hlt
    exact ⟨Int.natCast_nonneg i, Int.ofNat_lt.mpr hlt⟩

lemma cellOf_unitary {g : Gadget} (hl : LegsOn n g.legs) (ha : g.angle.isAngle) :
    UpToPhase ((cellOf n g).gadget.unitary n radians)
      (g.unitary n radians) := by
  rw [unitary_eq, unitary_eq, cellOf_bits hl.nodup]
  exact turnAbout_reduceAngle ha (stringOn_mul_self _ _)

lemma inOrder_live {gs : List Gadget} (hgs : ∀ g ∈ gs, g.angle.isAngle) :
    UpToPhase (inOrder ((gs.filter fun g => !g.angle.isZero).map
      (unitary n radians)))
      (inOrder (gs.map (unitary n radians))) := by
  rw [← filterMap_eq_filter]
  refine inOrder_filterMap fun g hg => ?_
  cases hz : g.angle.isZero with
  | false => simpa [Option.guard, hz] using refl _
  | true =>
    rw [unitary_eq]
    simpa [Option.guard, hz] using (turnAbout_isZero (hgs g hg) hz (stringOn_mul_self _ _)).symm

lemma groupsValid_start : Simplifier.GroupsValid n [{ basis := .z }] := by
  intro k g hk
  obtain ⟨hlt, rfl⟩ := List.getElem?_eq_some_iff.mp hk
  have hk0 : k = 0 := by simpa using hlt
  subst hk0
  exact ⟨rfl, by simp, by simp, by simp⟩

lemma piGates_legs {b : Basis} {pulled : List Int} {g : Gadget}
    (hg : g ∈ piGates b n pulled) : LegsOn n g.legs ∧ g.angle.isAngle := by
  obtain ⟨q, hq, rfl⟩ := mem_map.mp hg
  have hlt := mem_range.mp (mem_filter.mp hq).1
  exact ⟨⟨by simp, by simp, by simpa using hlt⟩, rfl⟩

theorem simplified_gadgets {gs : List Gadget} (hgs : ∀ g ∈ gs, LegsOn n g.legs ∧ g.angle.isAngle) :
    ∃ groups s, (gs.filter fun g => !g.angle.isZero).foldlM collect [{ basis := .z }] =
        .ok groups ∧ moveAll { groups } = .ok s ∧
      (∀ g ∈ s.outcome n, LegsOn n g.legs ∧ g.angle.isAngle) ∧
      UpToPhase (inOrder ((s.outcome n).map (Gadget.unitary n radians)))
        (inOrder (gs.map (Gadget.unitary n radians))) := by
  have hlive := inOrder_live (n := n) fun g hg => (hgs g hg).2
  obtain ⟨groups, hcollect, hvalid, hunit⟩ := collectAll_ok (gs.filter fun g => !g.angle.isZero)
    (fun g hg => hgs g (mem_filter.mp hg).1) groupsValid_start (by simp)
  have hinit : Simplifier.Keeps n (inOrder (gs.map (Gadget.unitary n radians)))
      { groups } := by
    refine ⟨hvalid, trans (of_eq ?_) hlive⟩
    rw [Simplifier.unitary, hunit]
    simp [groupUnitaries, GadgetGroup.unitary, stringOn_false]
  obtain ⟨s, hmove, hkeeps⟩ :=
    foldlM_keeps (fun _ i ht => foldlM_keeps (fun _ legs ht =>
      (move_moved ht.valid i legs).imp fun _ h => ⟨h.1, h.2.keeps ht⟩) _ ht) _ hinit
  have hgroup : ∀ g ∈ s.groups, g.Valid n := by
    intro g hg
    obtain ⟨k, hk⟩ := mem_iff_getElem?.mp hg
    exact (hkeeps.valid k g hk).2
  refine ⟨groups, s, hcollect, hmove, ?_, ?_⟩
  · intro g hg
    rcases mem_append.mp hg with hg | hg
    · rcases mem_append.mp hg with hg | hg
      · exact piGates_legs hg
      · exact piGates_legs hg
    · obtain ⟨h, hh, hg⟩ := mem_flatMap.mp hg
      exact remaining_legs (hgroup h hh) g hg
  · refine trans ?_ hkeeps.phase
    rw [outcome, map_append, map_append, inOrder_append, inOrder_append,
      Simplifier.unitary]
    exact (remaining_all_unitary hgroup).mul
      ((piGates_unitary .x s.xPis).mul (piGates_unitary .z s.zPis))

lemma gadgets_numeric {c : PhaseCircuit} (hc : c.WellFormed) (hnum : ∀ a ∈ c.angles, a.isAngle) :
    ∀ g ∈ c.cells.map Cell.gadget, LegsOn c.size g.legs ∧ g.angle.isAngle := by
  intro g hg
  obtain ⟨k, hk, rfl⟩ := mem_map.mp hg
  exact ⟨cell_legsOn (hc.cells_proper k hk), hnum _ (cells_angles hc ▸ mem_map_of_mem hk)⟩

lemma simplified_eq {c : PhaseCircuit} (hc : c.WellFormed) {groups : List GadgetGroup}
    {s : Simplifier} (hcollect : ((c.cells.map Cell.gadget).filter fun g => !g.angle.isZero).foldlM
      collect [{ basis := .z }] = .ok groups)
    (hmove : moveAll { groups } = .ok s) :
    c.simplified = ofGadgets c.size (s.outcome c.size) := by
  simp only [simplified, gadgets_eq hc, ok_bind, hcollect, hmove]
  rfl

/-- Simplifying a circuit with numeric angles gives a circuit of the same unitary, up to a global
phase. -/
theorem simplified_unitary {c : PhaseCircuit} (hc : c.WellFormed)
    (hnum : ∀ a ∈ c.angles, a.isAngle = true) :
    ∃ gs d ds, c.gadgets = .ok gs ∧ c.simplified = .ok d ∧ d.size = c.size ∧ d.gadgets = .ok ds ∧
      UpToPhase (inOrder (ds.map (Gadget.unitary c.size AngleExpr.radians)))
        (inOrder (gs.map (Gadget.unitary c.size AngleExpr.radians))) := by
  obtain ⟨groups, s, hcollect, hmove, hout, hphase⟩ := simplified_gadgets (gadgets_numeric hc hnum)
  obtain ⟨d, hd, hw, hsize, hcells⟩ := ofGadgets_ok (n := c.size)
    fun g hg => (hout g hg).1.fits
  refine ⟨_, d, _, gadgets_eq hc, (simplified_eq hc hcollect hmove).trans hd, hsize, gadgets_eq hw,
    trans ?_ hphase⟩
  have hstored := inOrder_filterMap (f := some ∘ Cell.gadget ∘ cellOf c.size)
    (u := unitary c.size radians) (v := unitary c.size radians)
    fun g hg => cellOf_unitary (hout g hg).1 (hout g hg).2
  simpa only [hcells, filterMap_eq_map, map_map, Function.comp_assoc] using hstored

def turnedPair : PhaseCircuit :=
  ((({ size := 2 } : PhaseCircuit).push { basis := .x, angle := .angle Angle.pi, legs := [0] }
    [true, false] (.angle Angle.pi)).push { basis := .z, angle := .angle ⟨1 / 2⟩, legs := [0, 1] }
    [true, true] (.angle ⟨1 / 2⟩)).push { basis := .x, angle := .angle Angle.pi, legs := [0] }
    [true, false] (.angle Angle.pi)

lemma turnedPair_wellFormed : turnedPair.WellFormed := by
  apply_rules [push_wellFormed, wellFormed_empty] <;> simp

theorem turnedPair_simplified :
    turnedPair.WellFormed ∧ (∀ a ∈ turnedPair.angles, a.isAngle = true) ∧
    ∃ gs d ds, turnedPair.gadgets = .ok gs ∧ turnedPair.simplified = .ok d ∧
      d.size = turnedPair.size ∧ d.gadgets = .ok ds ∧
      UpToPhase (inOrder (ds.map (Gadget.unitary turnedPair.size AngleExpr.radians)))
        (inOrder (gs.map (Gadget.unitary turnedPair.size AngleExpr.radians))) := by
  have hnum : ∀ a ∈ turnedPair.angles, a.isAngle = true := by
    intro a ha
    have hangles : turnedPair.angles = [.angle Angle.pi, .angle ⟨1 / 2⟩, .angle Angle.pi] := rfl
    rw [hangles] at ha
    simp only [mem_cons, not_mem_nil, or_false] at ha
    rcases ha with rfl | rfl | rfl <;> rfl
  exact ⟨turnedPair_wellFormed, hnum, simplified_unitary turnedPair_wellFormed hnum⟩

end PhaseCircuit

end GadgetCircuits
