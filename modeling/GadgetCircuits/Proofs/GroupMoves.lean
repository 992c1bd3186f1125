import GadgetCircuits.Proofs.NormalForm

/-!
What moving the gadgets of a group does where it is known how far they go. Half turns that stand in place
are pulled out and leave an angle of zero on their legs. Gadgets that go on to a group of zeros take these
places; on new legs they follow in their own order.
-/

namespace GadgetCircuits

open List Angle AngleExpr GadgetGroup

variable {n : Nat}

lemma AngleExpr.turn?_eq_true_iff {a : AngleExpr} (ha : a.isAngle) :
    a.turn? = some true ↔ a.isPi := by
  cases a with
  | angle a =>
    rw [turn?, isZero, isPi, Angle.isZero, Angle.isPi]
    by_cases hzero : a.reduced = 0 <;> simp [hzero]
  | _ => simp [isAngle] at ha

namespace GadgetGroup

variable {g : GadgetGroup} {legs : List Int}

def keys (g : GadgetGroup) : List (List Int) :=
  g.entries.map Prod.fst

lemma mem_keys : legs ∈ g.keys ↔ (g.angle? legs).isSome := by
  cases h : g.angle? legs with
  | none => exact ⟨fun hmem => absurd hmem (angle?_eq_none h), nofun⟩
  | some a => exact ⟨fun _ => rfl, fun _ => mem_map.mpr ⟨_, mem_of_angle? h, rfl⟩⟩

lemma keys_crossed (g : GadgetGroup) (legs : List Int) : (g.crossed legs).keys = g.keys := by
  rw [keys, crossed, map_map]
  refine map_congr_left fun e _ => ?_
  rw [Function.comp_apply]
  split <;> rfl

lemma keys_put (g : GadgetGroup) (legs : List Int) (a : AngleExpr) :
    (g.put legs a).keys = if legs ∈ g.keys then g.keys else g.keys ++ [legs] := by
  simp only [mem_keys]
  exact put_keys g legs a

end GadgetGroup

namespace Simplifier

variable {g : GadgetGroup} {m : Nat}

def standing (b : Basis) (legs : List Int) (a : AngleExpr) : Option Gadget :=
  if a.isZero then none else some { basis := b, angle := PhaseCircuit.reduceAngle a, legs }

lemma remaining_eq (hg : g.Valid n) :
    remaining g = g.keys.filterMap fun legs => (g.angle? legs).bind (standing g.basis legs) := by
  rw [remaining, GadgetGroup.keys, filterMap_map]
  refine filterMap_congr fun e he => ?_
  have ha := hg.numeric e he
  simp only [equal_zero (isAngle_reduceAngle ha), isZero_reduceAngle ha,
    Function.comp_apply, angle?_of_mem hg he, Option.bind_some, standing]

variable {s t : Simplifier} {i j k : Nat} {legs : List Int} {a : AngleExpr}

def keysAt (s : Simplifier) (k : Nat) : List (List Int) :=
  ((s.groups[k]?).map GadgetGroup.keys).getD []

def leftAt (s : Simplifier) (k : Nat) : List Gadget :=
  (s.keysAt k).filterMap fun legs => (s.angleAt k legs).bind (standing (basisAt k) legs)

def pis (s : Simplifier) : Basis → List Int
  | .z => s.zPis
  | .x => s.xPis

lemma keysAt_eq (hk : s.groups[k]? = some g) : s.keysAt k = g.keys := by
  rw [keysAt, hk, Option.map_some, Option.getD_some]

lemma mem_keysAt : legs ∈ s.keysAt k ↔ (s.angleAt k legs).isSome := by
  cases hk : s.groups[k]? with
  | none => simp [keysAt, angleAt, hk]
  | some g => rw [keysAt_eq hk, angleAt_eq hk, GadgetGroup.mem_keys]

lemma keysAt_nodup (hs : GroupsValid n s.groups) (k : Nat) : (s.keysAt k).Nodup := by
  cases hk : s.groups[k]? with
  | none => simp [keysAt, hk]
  | some g => exact keysAt_eq hk ▸ (hs k g hk).2.keys

lemma keysAt_of_length_le (hk : s.groups.length ≤ k) : s.keysAt k = [] := by
  rw [keysAt, getElem?_eq_none hk]
  rfl

lemma flatMap_remaining (hs : GroupsValid n s.groups) (hm : s.groups.length ≤ m) :
    s.groups.flatMap remaining = (range m).flatMap s.leftAt := by
  obtain ⟨d, rfl⟩ := Nat.exists_eq_add_of_le hm
  have hleft : ∀ k g, s.groups[k]? = some g → remaining g = s.leftAt k := by
    intro k g hk
    obtain ⟨hb, hg⟩ := hs k g hk
    rw [remaining_eq hg, leftAt, keysAt_eq hk, hb]
    exact filterMap_congr fun legs _ => by rw [angleAt_eq hk]
  have hempty : ∀ k, s.leftAt (s.groups.length + k) = [] := by
    intro k
    rw [leftAt, keysAt_of_length_le (Nat.le_add_right _ k), filterMap_nil]
  have hgroups : s.groups.map remaining = (range s.groups.length).map s.leftAt := by
    refine ext_getElem (by simp) fun k hk hk' => ?_
    rw [getElem_map, getElem_map, getElem_range]
    exact hleft k _ (getElem?_eq_getElem _)
  rw [range_add, flatMap_append, flatMap_map]
  simp only [hempty, flatMap_def, hgroups, map_const', flatten_replicate_nil, append_nil]

lemma keysAt_put (hi : s.groups[i]? = some g) (legs : List Int) (a : AngleExpr) (k : Nat) :
    (s.setGroup i (g.put legs a)).keysAt k =
      if k = i ∧ legs ∉ s.keysAt i then s.keysAt i ++ [legs] else s.keysAt k := by
  have hlt := (List.getElem?_eq_some_iff.mp hi).1
  by_cases hk : k = i
  · subst hk
    have hset : (s.setGroup k (g.put legs a)).groups[k]? = some (g.put legs a) :=
      getElem?_set_self hlt
    rw [keysAt_eq hset, keysAt_eq hi, keys_put]
    by_cases hmem : legs ∈ g.keys <;> simp [hmem]
  · rw [if_neg fun h => hk h.1, keysAt, setGroup, getElem?_set_ne (Ne.symm hk), keysAt]

lemma keysAt_pullPi (s : Simplifier) (b : Basis) (legs : List Int) (j k : Nat) :
    (s.pullPi b legs j).keysAt k = s.keysAt k := by
  rw [keysAt, pullPi_groups, pulledGroups_getElem?, keysAt]
  cases s.groups[k]? with
  | none => rfl
  | some g =>
    simp only [Option.map_some, Option.getD_some]
    split
    · exact g.keys_crossed legs
    · rfl

lemma pis_pullPi (s : Simplifier) (b : Basis) (legs : List Int) (j : Nat) (b' : Basis) :
    (s.pullPi b legs j).pis b' = s.pis b' ++ if b' = b then legs else [] := by
  cases b <;> cases b' <;> simp [pullPi, pis]

/-- A simplifier by the legs of its groups, the angles on them, and what was pulled out. -/
structure Shows (n : Nat) (s : Simplifier) (keys : Nat → List (List Int))
    (angle : Nat → List Int → Option AngleExpr) (pis : Basis → List Int) : Prop where
  valid : GroupsValid n s.groups
  keys : ∀ k, s.keysAt k = keys k
  angle : ∀ k legs, s.angleAt k legs = angle k legs
  pis : ∀ b, s.pis b = pis b

lemma passes_congr (hs : GroupsValid n s.groups) (ht : GroupsValid n t.groups)
    (h : ∀ legs', t.turnAt k legs' = s.turnAt k legs') :
    (t.group k).passes legs = (s.group k).passes legs := by
  rw [Bool.eq_iff_iff, passes_iff hs, passes_iff ht]
  simp only [h]

lemma destination_self (h : ∀ j, i = j + 2 → (s.group (j + 1)).passes legs = false) :
    s.destination legs i = i := by
  cases i with
  | zero => rfl
  | succ i =>
    cases i with
    | zero => rfl
    | succ j => rw [destination, if_neg (by simp [h j rfl])]

/-- Half a turn in place is pulled out, any other gadget is left there. Nothing changes where the half turn
crosses zeros only. -/
theorem move_inPlace (hs : GroupsValid n s.groups) (hdest : s.destination legs i = i)
    (ha : s.angleAt i legs = some a) (hcross : a.turn? = some true →
      ∀ k < i, ∀ legs' a', s.angleAt k legs' = some a' → a' = .angle zero) :
    ∃ s', s.move i legs = .ok s' ∧ (a.turn? ≠ some true → s' = s) ∧ (a.turn? = some true →
      s'.Shows n s.keysAt
        (fun k legs' => if k = i ∧ legs' = legs then some (.angle zero) else s.angleAt k legs')
        fun b => s.pis b ++ if b = basisAt i then legs else []) := by
  obtain ⟨g, hi, hga⟩ := Option.bind_eq_some_iff.mp ha
  obtain ⟨s', hmove, hmoved⟩ := move_moved hs i legs
  have hvalid := hmoved.valid hs
  refine ⟨s', hmove, ?_⟩
  cases hmoved with
  | idle h =>
    have hz := h a ((congrArg (fun g => g.angle? legs) (group_eq hi)).trans hga)
    simp [turn?, hz]
  | @stopped g' a' hi' ha' hj hpi =>
    obtain rfl := Option.some.inj (hi.symm.trans hi')
    obtain rfl := Option.some.inj (hga.symm.trans ha')
    simp [turn?, hpi]
  | @pulled g' a' hi' ha' hj hpi =>
    obtain rfl := Option.some.inj (hi.symm.trans hi')
    obtain rfl := Option.some.inj (hga.symm.trans ha')
    have hmem : legs ∈ s.keysAt i := mem_keysAt.mpr (by rw [ha]; rfl)
    have hturn := (turn?_eq_true_iff (legsOn_of_angle? (hs i g hi).2 hga).2).mpr hpi
    refine ⟨fun h => absurd hturn h, fun _ => ⟨hvalid, fun k => ?_, fun k legs' => ?_, fun b => ?_⟩⟩
    · rw [keysAt_pullPi, keysAt_put hi, if_neg fun h => h.2 hmem]
    · rw [angleAt_pullPi, angleAt_put hi]
      by_cases hki : k < i
      · rw [if_neg fun h => Nat.ne_of_lt hki h.1]
        cases hold : s.angleAt k legs' with
        | none => rfl
        | some a' =>
          rw [hcross hturn k hki legs' a' hold, Option.map_some]
          simp [AngleExpr.neg, Angle.neg, zero]
      · simp [hki]
    · rw [pis_pullPi]
      rfl
  | fused _ _ hj => omega
  | fusedPulled _ _ hj => omega

lemma fusedAngle_eq (ha : a.isAngle)
    (hzero : ∀ b, s.angleAt j legs = some b → b = .angle zero) {h : GadgetGroup} {e : AngleExpr}
    (hh : s.groups[j]? = some h) (he : h.fusedAngle legs a = .ok e) : e = a := by
  rw [fusedAngle, ← angleAt_eq hh] at he
  cases hold : s.angleAt j legs with
  | none =>
    rw [hold] at he
    exact (Except.ok.inj he).symm
  | some b =>
    rw [hold, hzero b hold] at he
    cases a with
    | angle a =>
      have hadd : zero.add a = a := by simp [zero, Angle.add]
      have he' : Except.ok (.angle (zero.add a)) = Except.ok (ε := Error) e := he
      rw [hadd] at he'
      exact (Except.ok.inj he').symm
    | _ => simp [isAngle] at ha

lemma move_onto (hs : GroupsValid n s.groups) (ha : s.angleAt i legs = some a)
    (hturn : a.turn? = some false) (hdest : s.destination legs i = j) (hlt : j < i)
    (hzero : ∀ b, s.angleAt j legs = some b → b = .angle zero) :
    ∃ s', s.move i legs = .ok s' ∧ s'.Shows n
      (fun k => if k = j ∧ legs ∉ s.keysAt j then s.keysAt j ++ [legs] else s.keysAt k)
      (fun k legs' => if k = j ∧ legs' = legs then some a
        else if k = i ∧ legs' = legs then some (.angle zero) else s.angleAt k legs') s.pis := by
  obtain ⟨g, hi, hga⟩ := Option.bind_eq_some_iff.mp ha
  obtain ⟨s', hmove, hmoved⟩ := move_moved hs i legs
  have hvalid := hmoved.valid hs
  have hangle := (legsOn_of_angle? (hs i g hi).2 hga).2
  refine ⟨s', hmove, ?_⟩
  subst hdest
  cases hmoved with
  | idle h =>
    have hz := h a ((congrArg (fun g => g.angle? legs) (group_eq hi)).trans hga)
    simp [turn?, hz] at hturn
  | stopped _ _ hj => omega
  | pulled _ _ hj => omega
  | @fused g' h a' e hi' ha' hj hh he hpi =>
    obtain rfl := Option.some.inj (hi.symm.trans hi')
    obtain rfl := Option.some.inj (hga.symm.trans ha')
    obtain rfl := fusedAngle_eq hangle hzero hh he
    have hmem : legs ∈ s.keysAt i := mem_keysAt.mpr (by rw [ha]; rfl)
    have hkeys : ∀ k, (s.setGroup i (g.put legs (.angle zero))).keysAt k = s.keysAt k :=
      fun k => (keysAt_put hi _ _ k).trans (if_neg fun h => h.2 hmem)
    refine ⟨hvalid, fun k => ?_, fun k legs' => angleAt_fusedInto hi hj hh legs e k legs', fun b => rfl⟩
    rw [fusedInto, keysAt_put (setGroup_getElem?_of_lt hj hh _), hkeys, hkeys]
  | @fusedPulled g' h a' e hi' ha' hj hh he hpi =>
    obtain rfl := Option.some.inj (hi.symm.trans hi')
    obtain rfl := Option.some.inj (hga.symm.trans ha')
    obtain rfl := fusedAngle_eq hangle hzero hh he
    rw [(turn?_eq_true_iff hangle).mpr hpi] at hturn
    cases hturn

lemma foldlM_nodup {σ α : Type} {f : σ → α → Except Error σ} {p : List α → σ → Prop} {xs : List α}
    (hxs : xs.Nodup)
    (hstep : ∀ done, ∀ x ∈ xs, x ∉ done → ∀ s, p done s → ∃ s', f s x = .ok s' ∧ p (done ++ [x]) s')
    {s : σ} (hs : p [] s) : ∃ s', xs.foldlM f s = .ok s' ∧ p xs s' := by
  have hfrom : ∀ rest done, xs = done ++ rest → ∀ s, p done s →
      ∃ s', rest.foldlM f s = .ok s' ∧ p xs s' := by
    intro rest
    induction rest with
    | nil =>
      intro done hsplit s hs
      exact ⟨s, rfl, by rwa [hsplit, append_nil]⟩
    | cons x rest ih =>
      intro done hsplit s hs
      have hnot : x ∉ done := by grind
      obtain ⟨s', hf, hs'⟩ := hstep done x (by simp [hsplit]) hnot s hs
      obtain ⟨t, ht, hpt⟩ := ih (done ++ [x]) (by simp [hsplit]) s' hs'
      exact ⟨t, by rw [foldlM_cons, hf, ok_bind, ht], hpt⟩
  exact hfrom xs [] rfl s hs

lemma moveGroup_eq (s : Simplifier) (i : Nat) :
    s.moveGroup i = (s.keysAt i).foldlM (fun s legs => s.move i legs) s := by
  rw [moveGroup, group, keysAt]
  cases s.groups[i]? <;> rfl

def halfKeys (s : Simplifier) (k : Nat) : List (List Int) :=
  (s.keysAt k).filter fun legs => s.turnAt k legs == some true

/-- The angles once the half turns of group `i` have been pulled out. -/
def pulledAngle (s : Simplifier) (i k : Nat) (legs : List Int) : Option AngleExpr :=
  if k = i ∧ s.turnAt i legs = some true then some (.angle zero) else s.angleAt k legs

lemma pulledAngle_of_ne (hk : k ≠ i) : s.pulledAngle i k legs = s.angleAt k legs :=
  if_neg fun h => hk h.1

/-- The half turns of group `i` on the legs `done` have been pulled out. -/
def PulledOn (n : Nat) (s : Simplifier) (i : Nat) (done : List (List Int)) (t : Simplifier) : Prop :=
  t.Shows n s.keysAt (fun k legs => if legs ∈ done then s.pulledAngle i k legs else s.angleAt k legs)
    fun b => s.pis b ++
      if b = basisAt i then (done.filter fun legs => s.turnAt i legs == some true).flatten else []

section InPlace

variable (hs : GroupsValid n s.groups)
  (hstop : ∀ j, i = j + 2 → ∀ legs ∈ s.keysAt i, (s.group (j + 1)).passes legs = false)
  (hcross : ∀ legs, s.turnAt i legs = some true →
    ∀ k < i, ∀ legs' a, s.angleAt k legs' = some a → a = .angle zero)

include hs hstop hcross

lemma PulledOn.step {done : List (List Int)} (hmem : legs ∈ s.keysAt i) (hnot : legs ∉ done)
    (ht : PulledOn n s i done t) :
    ∃ t', t.move i legs = .ok t' ∧ PulledOn n s i (done ++ [legs]) t' := by
  obtain ⟨a, ha⟩ := Option.isSome_iff_exists.mp (mem_keysAt.mp hmem)
  have hta : t.angleAt i legs = some a := by rw [ht.angle, if_neg hnot, ha]
  have hother : ∀ k ≠ i, ∀ legs', t.angleAt k legs' = s.angleAt k legs' := by
    intro k hk legs'
    rw [ht.angle, pulledAngle_of_ne hk, ite_self]
  have hdest : t.destination legs i = i := by
    refine destination_self fun j hj => ?_
    rw [passes_congr hs ht.valid fun legs' => ?_, hstop j hj legs hmem]
    rw [turnAt, turnAt, hother (j + 1) (by omega)]
  have hturn : s.turnAt i legs = a.turn? := by rw [turnAt, ha, Option.bind_some]
  obtain ⟨t', hmove, hkept, hpulled⟩ := move_inPlace ht.valid hdest hta fun hhalf k hk legs' a' ha' =>
    hcross legs (hturn.trans hhalf) k hk legs' a' ((hother k (Nat.ne_of_lt hk) legs').symm.trans ha')
  refine ⟨t', hmove, ?_⟩
  by_cases hhalf : a.turn? = some true
  · have h := hpulled hhalf
    refine ⟨h.valid, fun k => (h.keys k).trans (ht.keys k), fun k legs' => ?_, fun b => ?_⟩
    · rw [h.angle, ht.angle]
      by_cases hl : legs' = legs
      · subst hl
        simp [hnot, pulledAngle, hturn, hhalf]
      · simp [hl]
    · rw [h.pis, ht.pis]
      by_cases hb : b = basisAt i <;> simp [hb, hturn, hhalf]
  · obtain rfl := hkept hhalf
    refine ⟨ht.valid, ht.keys, fun k legs' => ?_, fun b => ?_⟩
    · rw [ht.angle]
      by_cases hl : legs' = legs
      · subst hl
        have hsame : s.pulledAngle i k legs' = s.angleAt k legs' :=
          if_neg fun h => hhalf (hturn.symm.trans h.2)
        simp [hsame]
      · simp [hl]
    · rw [ht.pis]
      simp [filter_append, hturn, hhalf]

/-- In a group whose gadgets stand in place the half turns are pulled out; where they cross nothing that
turns, no other angle changes. -/
theorem moveGroup_inPlace : ∃ s', s.moveGroup i = .ok s' ∧ s'.Shows n s.keysAt (s.pulledAngle i)
      fun b => s.pis b ++ if b = basisAt i then (s.halfKeys i).flatten else [] := by
  have hnone : PulledOn n s i [] s := ⟨hs, by simp, by simp, by simp⟩
  obtain ⟨s', hfold, hshows⟩ := foldlM_nodup (keysAt_nodup hs i)
    (fun done legs hmem hnot t ht => ht.step hs hstop hcross hmem hnot) hnone
  rw [moveGroup_eq]
  refine ⟨s', hfold, hshows.valid, hshows.keys, fun k legs => ?_, hshows.pis⟩
  rw [hshows.angle]
  split
  · rfl
  · rename_i hnot
    rw [pulledAngle, if_neg]
    rintro ⟨rfl, hturn⟩
    exact hnot (mem_keysAt.mpr (angleAt_isSome_of_turnAt (by rw [hturn]; rfl)))

end InPlace

/-- The legs of the groups once the gadgets of group `i + 2` have gone on to group `i`. -/
def joinedKeys (s : Simplifier) (i k : Nat) : List (List Int) :=
  if k = i then s.keysAt i ++ (s.keysAt (i + 2)).filter (· ∉ s.keysAt i) else s.keysAt k

def joinedAngle (s : Simplifier) (i k : Nat) (legs : List Int) : Option AngleExpr :=
  if k = i then (s.angleAt (i + 2) legs).or (s.angleAt i legs)
  else if k = i + 2 then (s.angleAt (i + 2) legs).map fun _ => .angle zero
  else s.angleAt k legs

lemma joinedAngle_of_none (h : s.angleAt (i + 2) legs = none) :
    s.joinedAngle i k legs = s.angleAt k legs := by
  unfold joinedAngle
  grind

/-- The gadgets of group `i + 2` on the legs `done` have gone on to group `i`. -/
def JoinedOn (n : Nat) (s : Simplifier) (i : Nat) (done : List (List Int)) (t : Simplifier) : Prop :=
  t.Shows n (fun k => if k = i then s.keysAt i ++ done.filter (· ∉ s.keysAt i) else s.keysAt k)
    (fun k legs => if legs ∈ done then s.joinedAngle i k legs else s.angleAt k legs) s.pis

section Onto

variable (hs : GroupsValid n s.groups) (hbetween : ∀ legs, s.turnAt (i + 1) legs = none)
  (hstop : ∀ j, i = j + 2 → ∀ legs ∈ s.keysAt (i + 2), (s.group (j + 1)).passes legs = false)
  (hzero : ∀ legs a, s.angleAt i legs = some a → a = .angle zero)
  (hturn : ∀ legs a, s.angleAt (i + 2) legs = some a → a.turn? = some false)

include hs hbetween hstop hzero hturn

lemma JoinedOn.step {done : List (List Int)} (hmem : legs ∈ s.keysAt (i + 2)) (hnot : legs ∉ done)
    (ht : JoinedOn n s i done t) :
    ∃ t', t.move (i + 2) legs = .ok t' ∧ JoinedOn n s i (done ++ [legs]) t' := by
  obtain ⟨a, ha⟩ := Option.isSome_iff_exists.mp (mem_keysAt.mp hmem)
  have hother : ∀ k, k ≠ i → k ≠ i + 2 → ∀ legs', t.turnAt k legs' = s.turnAt k legs' := by
    intro k hk hk' legs'
    rw [turnAt, ht.angle, joinedAngle, if_neg hk, if_neg hk', ite_self, turnAt]
  have hdest : t.destination legs (i + 2) = i := by
    have hpass : (t.group (i + 1)).passes legs := by
      rw [passes_iff ht.valid]
      intro legs' hlive
      rw [hother (i + 1) (by omega) (by omega), hbetween] at hlive
      cases hlive
    rw [destination, if_pos hpass]
    refine destination_self fun j hj => ?_
    rw [passes_congr hs ht.valid (hother (j + 1) (by omega) (by omega)), hstop j hj legs hmem]
  have hta : ∀ k, t.angleAt k legs = s.angleAt k legs := fun k => by rw [ht.angle, if_neg hnot]
  obtain ⟨t', hmove, h⟩ := move_onto ht.valid ((hta _).trans ha) (hturn legs a ha) hdest (by omega)
    fun b hb => hzero legs b ((hta i).symm.trans hb)
  refine ⟨t', hmove, h.valid, fun k => ?_, fun k legs' => ?_, fun b => (h.pis b).trans (ht.pis b)⟩
  · rw [h.keys, ht.keys, ht.keys, if_pos rfl]
    grind
  · rw [h.angle, ht.angle]
    by_cases hl : legs' = legs
    · subst hl
      simp only [hnot, if_false, mem_append, mem_singleton, or_true, if_true, and_true,
        joinedAngle, ha, Option.some_or, Option.map_some]
    · simp [hl]

/-- The gadgets of a group go on to the group of their basis before it, which has only zeros, if the group
between them has no gadgets and the one before stops them all. -/
theorem moveGroup_onto :
    ∃ s', s.moveGroup (i + 2) = .ok s' ∧ s'.Shows n (s.joinedKeys i) (s.joinedAngle i) s.pis := by
  have hnone : JoinedOn n s i [] s := ⟨hs, by simp, by simp, by simp⟩
  obtain ⟨s', hfold, hshows⟩ := foldlM_nodup (keysAt_nodup hs (i + 2))
    (fun done legs hmem hnot t ht => ht.step hs hbetween hstop hzero hturn hmem hnot) hnone
  rw [moveGroup_eq]
  refine ⟨s', hfold, hshows.valid, hshows.keys, fun k legs => ?_, hshows.pis⟩
  rw [hshows.angle]
  split
  · rfl
  · rename_i hnot
    rw [mem_keysAt, Bool.not_eq_true, Option.isSome_eq_false_iff, Option.isNone_iff_eq_none] at hnot
    exact (joinedAngle_of_none hnot).symm

end Onto

def firstOf : Basis → Nat
  | .z => 0
  | .x => 1

lemma passes_of_obstacle (hs : GroupsValid n s.groups) {legs' : List Int}
    (hlive : (s.turnAt k legs').isSome) (hodd : oddOverlap legs legs') :
    (s.group k).passes legs = false := by
  rw [← Bool.not_eq_true, passes_iff hs]
  intro h
  rw [h legs' hlive] at hodd
  cases hodd

/-- The half turns of the groups before `m` have been pulled out, where only the first two groups have any. -/
def ClearedTo (n : Nat) (s : Simplifier) (m : Nat) (t : Simplifier) : Prop :=
  t.Shows n s.keysAt
    (fun k legs => if k < m ∧ s.turnAt k legs = some true then some (.angle zero)
      else s.angleAt k legs)
    fun b => s.pis b ++ if firstOf b < m then (s.halfKeys (firstOf b)).flatten else []

lemma ClearedTo.turnAt_eq (ht : ClearedTo n s m t) (legs : List Int) :
    t.turnAt m legs = s.turnAt m legs := by
  rw [turnAt, ht.angle, if_neg fun h => Nat.lt_irrefl m h.1, turnAt]

section Cleared

variable (hcross : ∀ legs, s.turnAt 1 legs = some true → ∀ legs' ∈ s.keysAt 0, s.turnAt 0 legs' = some true)

include hcross

/-- Half turns are pulled out of the first two groups only, and out of the second past the first. -/
theorem ClearedTo.zeros_before (ht : ClearedTo n s m t)
    (hhalf : ∀ k, k + 2 < m + 1 → ∀ legs, s.turnAt (k + 2) legs ≠ some true)
    (hturn : t.turnAt m legs = some true) :
    ∀ k < m, ∀ legs' a, t.angleAt k legs' = some a → a = .angle zero := by
  intro k hk legs' a ha
  rw [ht.turnAt_eq] at hturn
  rcases m with _ | _ | j
  · omega
  · obtain rfl : k = 0 := by omega
    have hmem : legs' ∈ s.keysAt 0 := by
      rw [← ht.keys, mem_keysAt, ha]
      rfl
    rw [ht.angle, if_pos ⟨hk, hcross legs hturn legs' hmem⟩] at ha
    exact (Option.some.inj ha).symm
  · exact absurd hturn (hhalf j (by omega) legs)

lemma ClearedTo.step (ht : ClearedTo n s m t)
    (hstop : ∀ k, k + 2 < m + 1 → ∀ legs ∈ s.keysAt (k + 2),
      ∃ legs', s.turnAt (k + 1) legs' = some false ∧ oddOverlap legs legs')
    (hhalf : ∀ k, k + 2 < m + 1 → ∀ legs, s.turnAt (k + 2) legs ≠ some true) :
    ∃ t', t.moveGroup m = .ok t' ∧ ClearedTo n s (m + 1) t' := by
  have hstop' : ∀ j, m = j + 2 → ∀ legs ∈ t.keysAt m, (t.group (j + 1)).passes legs = false := by
    rintro j rfl legs hmem
    rw [ht.keys] at hmem
    obtain ⟨legs', hlive, hodd⟩ := hstop j (by omega) legs hmem
    have hlive' : (t.turnAt (j + 1) legs').isSome := by
      rw [turnAt, ht.angle, if_neg (by simp [hlive]), ← turnAt, hlive]
      rfl
    exact passes_of_obstacle ht.valid hlive' hodd
  obtain ⟨t', hmove, h⟩ := moveGroup_inPlace ht.valid hstop' fun legs => ht.zeros_before hcross hhalf
  refine ⟨t', hmove, h.valid, fun k => (h.keys k).trans (ht.keys k), fun k legs => ?_, fun b => ?_⟩
  · rw [h.angle, pulledAngle, ht.turnAt_eq, ht.angle]
    grind
  · have hkeys : t.halfKeys m = s.halfKeys m := by
      simp only [halfKeys, ht.keys, ht.turnAt_eq]
    rw [h.pis, ht.pis, hkeys, append_assoc]
    refine congrArg _ ?_
    rcases m with _ | _ | j
    · cases b <;> simp [firstOf, basisAt]
    · cases b <;> simp [firstOf, basisAt]
    · have hnone : s.halfKeys (j + 2) = [] := by
        simpa [halfKeys] using fun legs _ => hhalf j (by omega) legs
      grind

/-- Where from the third group on every gadget has an obstacle and no half turn is left, the first groups
lose their half turns and nothing else happens. -/
theorem moveGroups_inPlace (hs : GroupsValid n s.groups) (m : Nat)
    (hstop : ∀ k, k + 2 < m → ∀ legs ∈ s.keysAt (k + 2),
      ∃ legs', s.turnAt (k + 1) legs' = some false ∧ oddOverlap legs legs')
    (hhalf : ∀ k, k + 2 < m → ∀ legs, s.turnAt (k + 2) legs ≠ some true) :
    ∃ t, (List.range m).foldlM moveGroup s = .ok t ∧ ClearedTo n s m t := by
  induction m with
  | zero => exact ⟨s, rfl, hs, by simp, by simp, by simp⟩
  | succ m ih =>
    obtain ⟨t, hfold, ht⟩ := ih (fun k hk => hstop k (by omega)) fun k hk => hhalf k (by omega)
    obtain ⟨t', hmove, h⟩ := ht.step hcross hstop hhalf
    refine ⟨t', ?_, h⟩
    rw [range_succ, foldlM_append, hfold, ok_bind, foldlM_cons, hmove]
    rfl

omit hcross in
lemma angleAt_of_length_le (hk : s.groups.length ≤ k) : s.angleAt k legs = none := by
  rw [angleAt, getElem?_eq_none hk, Option.bind_none]

lemma moveAll_inPlace (hs : GroupsValid n s.groups) (hstop : ∀ k, ∀ legs ∈ s.keysAt (k + 2),
      ∃ legs', s.turnAt (k + 1) legs' = some false ∧ oddOverlap legs legs')
    (hhalf : ∀ k legs, s.turnAt (k + 2) legs ≠ some true) :
    ∃ t, s.moveAll = .ok t ∧ t.Shows n s.keysAt
      (fun k legs => if s.turnAt k legs = some true then some (.angle zero) else s.angleAt k legs)
      fun b => s.pis b ++ (s.halfKeys (firstOf b)).flatten := by
  obtain ⟨t, hmove, ht⟩ := moveGroups_inPlace hcross hs s.groups.length (fun k _ => hstop k)
    fun k _ => hhalf k
  refine ⟨t, hmove, ht.valid, ht.keys, fun k legs => ?_, fun b => ?_⟩
  · rw [ht.angle]
    by_cases hk : k < s.groups.length
    · simp [hk]
    · simp [turnAt, angleAt_of_length_le (Nat.le_of_not_lt hk)]
  · rw [ht.pis]
    by_cases hb : firstOf b < s.groups.length
    · rw [if_pos hb]
    · simp [halfKeys, keysAt_of_length_le (Nat.le_of_not_lt hb)]

end Cleared

def shiftedAngle (s : Simplifier) (m k : Nat) (legs : List Int) : Option AngleExpr :=
  if k < m then (s.angleAt (k + 2) legs).or ((s.angleAt k legs).map fun _ => .angle zero)
  else if k < m + 2 then (s.angleAt k legs).map fun _ => .angle zero
  else s.angleAt k legs

/-- The gadgets of the groups before `m + 2` have gone on, and the half turns in front have been pulled out. -/
def ShiftedTo (n : Nat) (s : Simplifier) (m : Nat) (t : Simplifier) : Prop :=
  t.Shows n
    (fun k => if k < m then s.keysAt k ++ (s.keysAt (k + 2)).filter (· ∉ s.keysAt k) else s.keysAt k)
    (s.shiftedAngle m) fun b => s.pis b ++ (s.keysAt (firstOf b)).flatten

variable (hs : GroupsValid n s.groups) (hfirst : ∀ k < 2, ∀ legs ∈ s.keysAt k, s.turnAt k legs = some true)
  (hturn : ∀ k legs a, s.angleAt (k + 2) legs = some a → a.turn? = some false)
  (hstop : ∀ k, ∀ legs ∈ s.keysAt (k + 4),
    ∃ legs' ∈ s.keysAt (k + 3), oddOverlap legs legs')

include hs hfirst in
lemma moveGroups_two : ∃ t, (List.range 2).foldlM moveGroup s = .ok t ∧ ShiftedTo n s 0 t := by
  obtain ⟨t, hfold, ht⟩ := moveGroups_inPlace
    (fun legs _ legs' hmem => hfirst 0 (by omega) legs' hmem) hs 2 (by omega) (by omega)
  have hkeys : ∀ k < 2, s.halfKeys k = s.keysAt k := by
    intro k hk
    rw [halfKeys, filter_eq_self]
    exact fun legs hmem => by simp [hfirst k hk legs hmem]
  refine ⟨t, hfold, ht.valid, fun k => ?_, fun k legs => ?_, fun b => ?_⟩
  · rw [ht.keys, if_neg (Nat.not_lt_zero k)]
  · rw [ht.angle, shiftedAngle, if_neg (Nat.not_lt_zero k)]
    by_cases hk : k < 2
    · cases ha : s.angleAt k legs with
      | none => simp [turnAt, ha]
      | some a =>
        have hmem : legs ∈ s.keysAt k := mem_keysAt.mpr (by rw [ha]; rfl)
        simp [hk, hfirst k hk legs hmem]
    · simp [hk]
  · have hb : firstOf b < 2 := by cases b <;> simp [firstOf]
    rw [ht.pis, if_pos hb, hkeys _ hb]

include hturn hstop

lemma ShiftedTo.step (ht : ShiftedTo n s m t) :
    ∃ t', t.moveGroup (m + 2) = .ok t' ∧ ShiftedTo n s (m + 1) t' := by
  have hbetween : ∀ legs, t.turnAt (m + 1) legs = none := by
    intro legs
    rw [turnAt, ht.angle, shiftedAngle, if_neg (by omega), if_pos (by omega)]
    cases s.angleAt (m + 1) legs with
    | none => rfl
    | some a => exact turn?_zero
  have hnext : ∀ legs, t.angleAt (m + 2) legs = s.angleAt (m + 2) legs := by
    intro legs
    rw [ht.angle, shiftedAngle, if_neg (by omega), if_neg (by omega)]
  have hstop' : ∀ j, m = j + 2 → ∀ legs ∈ t.keysAt (m + 2), (t.group (j + 1)).passes legs = false := by
    rintro j rfl legs hmem
    rw [ht.keys, if_neg (by omega)] at hmem
    obtain ⟨legs', hmem', hodd⟩ := hstop j legs hmem
    obtain ⟨a, ha⟩ := Option.isSome_iff_exists.mp (mem_keysAt.mp hmem')
    have hlive : (t.turnAt (j + 1) legs').isSome := by
      rw [turnAt, ht.angle, shiftedAngle, if_pos (by omega), ha, Option.some_or, Option.bind_some,
        hturn (j + 1) legs' a ha]
      rfl
    exact passes_of_obstacle ht.valid hlive hodd
  have hzero : ∀ legs a, t.angleAt m legs = some a → a = .angle zero := by
    intro legs a ha
    rw [ht.angle, shiftedAngle, if_neg (by omega), if_pos (by omega)] at ha
    obtain ⟨-, -, rfl⟩ := Option.map_eq_some_iff.mp ha
    rfl
  obtain ⟨t', hmove, h⟩ := moveGroup_onto ht.valid hbetween hstop' hzero
    fun legs a ha => hturn m legs a ((hnext legs).symm.trans ha)
  have hlt : ∀ k, k ≠ m → (k < m + 1 ↔ k < m) := by omega
  refine ⟨t', hmove, h.valid, fun k => ?_, fun k legs => ?_, fun b => (h.pis b).trans (ht.pis b)⟩
  · rw [h.keys, joinedKeys, ht.keys, ht.keys, ht.keys]
    by_cases hk : k = m
    · simp [hk]
    · simp [hk, hlt k hk]
  · rw [h.angle, joinedAngle, hnext, ht.angle, ht.angle]
    by_cases hk : k = m
    · simp [hk, shiftedAngle]
    · by_cases hk' : k = m + 2
      · simp [hk', shiftedAngle]
      · have hlt' : k < m + 1 + 2 ↔ k < m + 2 := by omega
        simp [hk, hk', shiftedAngle, hlt k hk, hlt']

include hs hfirst

/-- Where the first two groups are half turns and no others follow, every further group goes on to the one of
its basis before it, which has lost its gadgets by then. -/
theorem moveGroups_onto (m : Nat) :
    ∃ t, (List.range (m + 2)).foldlM moveGroup s = .ok t ∧ ShiftedTo n s m t := by
  induction m with
  | zero => exact moveGroups_two hs hfirst
  | succ m ih =>
    obtain ⟨t, hfold, ht⟩ := ih
    obtain ⟨t', hmove, h⟩ := ht.step hturn hstop
    refine ⟨t', ?_, h⟩
    rw [range_succ, foldlM_append, hfold, ok_bind, foldlM_cons, hmove]
    rfl

lemma moveAll_onto (hlength : 2 ≤ s.groups.length) : ∃ t, s.moveAll = .ok t ∧ t.Shows n
      (fun k => s.keysAt k ++ (s.keysAt (k + 2)).filter (· ∉ s.keysAt k))
      (fun k legs => (s.angleAt (k + 2) legs).or ((s.angleAt k legs).map fun _ => .angle zero))
      fun b => s.pis b ++ (s.keysAt (firstOf b)).flatten := by
  obtain ⟨m, hm⟩ := Nat.exists_eq_add_of_le' hlength
  obtain ⟨t, hmove, ht⟩ := moveGroups_onto hs hfirst hturn hstop m
  rw [← hm] at hmove
  refine ⟨t, hmove, ht.valid, fun k => ?_, fun k legs => ?_, ht.pis⟩
  · rw [ht.keys]
    by_cases hk : k < m
    · rw [if_pos hk]
    · rw [if_neg hk, keysAt_of_length_le (k := k + 2) (by omega), filter_nil, append_nil]
  · rw [ht.angle, shiftedAngle]
    by_cases hk : k < m
    · rw [if_pos hk]
    · rw [if_neg hk, angleAt_of_length_le (k := k + 2) (by omega), Option.none_or]
      by_cases hk' : k < m + 2
      · rw [if_pos hk']
      · rw [if_neg hk', angleAt_of_length_le (k := k) (by omega), Option.map_none]

end Simplifier

end GadgetCircuits
