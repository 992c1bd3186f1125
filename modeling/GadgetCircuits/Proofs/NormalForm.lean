import GadgetCircuits.Proofs.Simplify

/-!
The normal form that simplification reaches: gates of angle π in front, then runs of gadgets of alternating
basis in which every gadget stands against an obstacle in the run before, a gadget that it shares an odd
number of legs with. No obstacle is ever taken away: what moves past is stopped by the gadget itself.
-/

namespace GadgetCircuits

open List AngleExpr GadgetGroup Simplifier Angle PhaseCircuit

variable {n : Nat}

def AngleExpr.turn? (a : AngleExpr) : Option Bool :=
  if a.isZero then none else some a.isPi

lemma AngleExpr.turn?_zero : (AngleExpr.angle zero).turn? = none :=
  if_pos (isZero_iff.mpr ⟨0, by simp [zero]⟩)

lemma AngleExpr.isZero_reduceAngle {e : AngleExpr} (he : e.isAngle) :
    (reduceAngle e).isZero = e.isZero := by
  cases e with
  | angle a => simp [reduceAngle, isZero, Angle.isZero]
  | _ => simp [isAngle] at he

namespace GadgetGroup

variable {g : GadgetGroup}

lemma mem_of_angle? {legs : List Int} {a : AngleExpr} (h : g.angle? legs = some a) :
    (legs, a) ∈ g.entries := by
  obtain ⟨l, r, hlr, -⟩ := angle?_split h
  simp [hlr]

lemma angle?_of_mem (hg : g.Valid n) {e : List Int × AngleExpr} (he : e ∈ g.entries) :
    g.angle? e.1 = some e.2 := by
  cases h : g.angle? e.1 with
  | none => exact absurd (mem_map_of_mem he) (angle?_eq_none h)
  | some a =>
    have hsame := inj_on_of_nodup_map hg.keys (mem_of_angle? h) he rfl
    rw [← hsame]

lemma angle?_put_ne {legs legs' : List Int} (h : legs' ≠ legs) (a : AngleExpr) :
    (g.put legs a).angle? legs' = g.angle? legs' := by
  unfold put
  split
  · simp only [angle?, find?_map, Option.map_map]
    have hfind : ((fun e : List Int × AngleExpr => e.1 == legs') ∘
        fun e => if e.1 == legs then (legs, a) else e) = fun e => e.1 == legs' := by
      funext e
      by_cases he : e.1 = legs <;> simp [he]
    rw [hfind]
    cases hf : g.entries.find? fun e => e.1 == legs' with
    | none => rfl
    | some e =>
      have hkey : e.1 = legs' := by simpa using find?_some hf
      simp [hkey, h]
  · have hne : ¬legs = legs' := fun hl => h hl.symm
    simp [angle?, find?_append, hne]

lemma angle?_crossed (g : GadgetGroup) (legs legs' : List Int) : (g.crossed legs).angle? legs' =
      (g.angle? legs').map fun a => if oddOverlap legs' legs then a.neg else a := by
  have hfind : ((fun e : List Int × AngleExpr => e.1 == legs') ∘
      fun e => if oddOverlap e.1 legs then (e.1, e.2.neg) else e) = fun e => e.1 == legs' := by
    funext e
    simp only [Function.comp_apply]
    split <;> rfl
  rw [angle?, crossed, find?_map, hfind, angle?]
  cases hf : g.entries.find? fun e => e.1 == legs' with
  | none => rfl
  | some e =>
    grind

end GadgetGroup

namespace Simplifier

variable {g : GadgetGroup} {done : List (List Int)} {legs : List Int} {k i : Nat}
  {s s' : Simplifier}

def angleAt (s : Simplifier) (k : Nat) (legs : List Int) : Option AngleExpr :=
  (s.groups[k]?).bind fun g => g.angle? legs

/-- The gadget on some legs of a group: none if it does not turn, else whether it turns by π. -/
def turnAt (s : Simplifier) (k : Nat) (legs : List Int) : Option Bool :=
  (s.angleAt k legs).bind turn?

lemma angleAt_eq (h : s.groups[k]? = some g) (legs : List Int) :
    s.angleAt k legs = g.angle? legs := by
  rw [angleAt, h, Option.bind_some]

lemma angleAt_isSome_of_turnAt (h : (s.turnAt k legs).isSome) : (s.angleAt k legs).isSome := by
  rw [turnAt, Option.isSome_bind] at h
  exact Option.isSome_of_any h

lemma angleAt_put (hi : s.groups[i]? = some g) (legs : List Int) (a : AngleExpr) (k : Nat)
    (legs' : List Int) :
    (s.setGroup i (g.put legs a)).angleAt k legs' =
      if k = i ∧ legs' = legs then some a else s.angleAt k legs' := by
  have hlt := (List.getElem?_eq_some_iff.mp hi).1
  by_cases hk : k = i
  · subst hk
    have hset : (s.setGroup k (g.put legs a)).groups[k]? = some (g.put legs a) :=
      getElem?_set_self hlt
    rw [angleAt_eq hset, angleAt_eq hi]
    by_cases hl : legs' = legs
    · rw [if_pos ⟨rfl, hl⟩, hl, angle?_put]
    · rw [if_neg fun h => hl h.2, angle?_put_ne hl]
  · rw [if_neg fun h => hk h.1, angleAt, angleAt, setGroup, getElem?_set_ne (Ne.symm hk)]

lemma angleAt_pullPi (s : Simplifier) (b : Basis) (legs : List Int) (j k : Nat)
    (legs' : List Int) :
    (s.pullPi b legs j).angleAt k legs' = (s.angleAt k legs').map fun a =>
      if (k < j && (j - k) % 2 == 1) && oddOverlap legs' legs then a.neg else a := by
  rw [angleAt, pullPi_groups, pulledGroups_getElem?, angleAt]
  cases s.groups[k]? with
  | none => rfl
  | some g =>
    simp only [Option.map_some, Option.bind_some]
    cases k < j && (j - k) % 2 == 1 with
    | true =>
      rw [if_pos rfl, angle?_crossed]
      rfl
    | false => simp

lemma turnAt_pullPi (hs : GroupsValid n s.groups) (b : Basis) (legs : List Int) (j k : Nat)
    (legs' : List Int) : (s.pullPi b legs j).turnAt k legs' = s.turnAt k legs' := by
  rw [turnAt, angleAt_pullPi, turnAt]
  cases ha : s.angleAt k legs' with
  | none => rfl
  | some a =>
    obtain ⟨g, hg, hga⟩ := Option.bind_eq_some_iff.mp ha
    have hangle := (legsOn_of_angle? (hs k g hg).2 hga).2
    simp only [Option.map_some, Option.bind_some]
    split
    · rw [turn?, turn?, isZero_neg hangle, isPi_neg hangle]
    · rfl

lemma passes_iff (hs : GroupsValid n s.groups) (k : Nat) (legs : List Int) :
    (s.group k).passes legs ↔
      ∀ legs', (s.turnAt k legs').isSome → oddOverlap legs legs' = false := by
  cases hk : s.groups[k]? with
  | none =>
    have hpass : (s.group k).passes legs := by
      rw [group, hk]
      rfl
    simp [hpass, turnAt, angleAt, hk]
  | some g =>
    have hg := (hs k g hk).2
    rw [group_eq hk, passes, all_eq_true]
    constructor
    · intro h legs' hlive
      obtain ⟨a, ha⟩ := Option.isSome_iff_exists.mp (angleAt_isSome_of_turnAt hlive)
      have hmem := mem_of_angle? ((angleAt_eq hk legs').symm.trans ha)
      rw [turnAt, ha, Option.bind_some, turn?] at hlive
      grind
    · intro h e he
      cases hz : e.2.isZero with
      | true => rfl
      | false =>
        have hlive : (s.turnAt k e.1).isSome := by
          rw [turnAt, angleAt_eq hk, angle?_of_mem hg he]
          simp [turn?, hz]
        simp [h e.1 hlive]

lemma destination_stops (s : Simplifier) (legs : List Int) (i : Nat) :
    (s.destination legs i = i ∨ s.destination legs i + 2 ≤ i ∧
        (s.group (s.destination legs i + 1)).passes legs) ∧
      ∀ k, s.destination legs i = k + 2 → (s.group (k + 1)).passes legs = false := by
  induction i using destination.induct s legs with
  | case1 => exact ⟨.inl rfl, fun k hk => by cases hk⟩
  | case2 => exact ⟨.inl rfl, fun k hk => by cases hk⟩
  | case3 j hpass ih =>
    rw [destination, if_pos hpass]
    grind
  | case4 j hpass =>
    rw [destination, if_neg hpass]
    refine ⟨.inl rfl, fun k hk => ?_⟩
    cases hk
    simpa using hpass

/-- A gadget has been placed: nothing has changed but what stands on its legs in its group and in the
one that it moves to, it is gone from the first if this is another, and no half turn is left there. -/
structure Placed (s : Simplifier) (i : Nat) (legs : List Int) (s' : Simplifier) : Prop where
  there : (s.angleAt i legs).isSome
  count : s'.groups.length = s.groups.length
  keys : ∀ k legs', (s'.angleAt k legs').isSome → (s.angleAt k legs').isSome ∨ legs' = legs
  elsewhere : ∀ k legs', (legs' ≠ legs ∨ k ≠ i ∧ k ≠ s.destination legs i) →
    s'.turnAt k legs' = s.turnAt k legs'
  gone : s.destination legs i ≠ i → s'.turnAt i legs = none
  noHalf : s'.turnAt (s.destination legs i) legs ≠ some true

lemma Placed.of_angleAt {t : Simplifier} {e : AngleExpr} (hthere : (s.angleAt i legs).isSome)
    (hcount : t.groups.length = s.groups.length) (he : e.turn? ≠ some true)
    (h : ∀ k legs', t.angleAt k legs' =
      if k = s.destination legs i ∧ legs' = legs then some e
      else if k = i ∧ legs' = legs then some (.angle zero) else s.angleAt k legs') :
    s.Placed i legs t where
  there := hthere
  count := hcount
  keys := by
    grind
  elsewhere := by
    intro k legs' hne
    rw [turnAt, h, if_neg, if_neg, turnAt]
    · rintro ⟨rfl, rfl⟩
      simp at hne
    · rintro ⟨rfl, rfl⟩
      simp at hne
  gone := by
    intro hne
    rw [turnAt, h, if_neg fun hd => hne hd.1.symm, if_pos ⟨rfl, rfl⟩, Option.bind_some, turn?_zero]
  noHalf := by
    rw [turnAt, h, if_pos ⟨rfl, rfl⟩, Option.bind_some]
    exact he

lemma Placed.pullPi {t : Simplifier} (h : s.Placed i legs t) (ht : GroupsValid n t.groups) (b : Basis)
    (legs' : List Int) (j : Nat) : s.Placed i legs (t.pullPi b legs' j) where
  there := h.there
  count := by
    rw [pullPi_groups, pulledGroups, length_map, length_zipIdx, h.count]
  keys := by
    intro k legs'
    rw [angleAt_pullPi, Option.isSome_map]
    exact h.keys k legs'
  elsewhere := by
    intro k legs' hne
    rw [turnAt_pullPi ht, h.elsewhere k legs' hne]
  gone := by
    rw [turnAt_pullPi ht]
    exact h.gone
  noHalf := by
    rw [turnAt_pullPi ht]
    exact h.noHalf

lemma angleAt_fusedInto {j : Nat} {h : GadgetGroup} (hi : s.groups[i]? = some g) (hj : j < i)
    (hh : s.groups[j]? = some h) (legs : List Int) (e : AngleExpr) (k : Nat) (legs' : List Int) :
    (s.fusedInto i g j h legs e).angleAt k legs' =
      if k = j ∧ legs' = legs then some e
      else if k = i ∧ legs' = legs then some (.angle zero) else s.angleAt k legs' := by
  rw [fusedInto, angleAt_put (setGroup_getElem?_of_lt hj hh _), angleAt_put hi]

lemma Moved.placed (hs : GroupsValid n s.groups) (h : s.Moved i legs s') :
    (s' = s ∧ s.turnAt i legs = none) ∨ s.Placed i legs s' := by
  cases h with
  | idle h =>
    refine .inl ⟨rfl, ?_⟩
    cases ha : s.angleAt i legs with
    | none => rw [turnAt, ha, Option.bind_none]
    | some a =>
      obtain ⟨g, hg, hga⟩ := Option.bind_eq_some_iff.mp ha
      rw [group_eq hg] at h
      rw [turnAt, ha, Option.bind_some, turn?, if_pos (h a hga)]
  | @stopped g a hi ha hj hpi =>
    have hat := (angleAt_eq hi legs).trans ha
    refine .inr (.of_angleAt (e := a) (by rw [hat]; rfl) rfl ?_ fun k legs' => ?_)
    · rw [turn?, hpi]
      split <;> simp
    · rw [hj]
      split_ifs with hown
      · rw [hown.1, hown.2, hat]
      · rfl
  | @pulled g a hi ha hj hpi =>
    have hat := (angleAt_eq hi legs).trans ha
    obtain ⟨hlegs, -⟩ := legsOn_of_angle? (hs i g hi).2 ha
    refine .inr (Placed.pullPi (.of_angleAt (e := .angle zero) (by rw [hat]; rfl)
      length_set ?_ fun k legs' => ?_) (hs.put hi hlegs rfl) _ _ _)
    · simp [turn?_zero]
    · rw [hj, angleAt_put hi]
      split_ifs <;> rfl
  | @fused g h a e hi ha hj hh he hpi =>
    have hat := (angleAt_eq hi legs).trans ha
    refine .inr (.of_angleAt (e := e) (by rw [hat]; rfl) ?_ ?_ (angleAt_fusedInto hi hj hh legs e))
    · simp [fusedInto, setGroup]
    · rw [turn?, hpi]
      split <;> simp
  | @fusedPulled g h a e hi ha hj hh he hpi =>
    have hat := (angleAt_eq hi legs).trans ha
    obtain ⟨hlegs, hangle⟩ := legsOn_of_angle? (hs i g hi).2 ha
    obtain ⟨e', he', hfuse, -⟩ := fuse_ok (hs _ h hh).2 legs hangle
    obtain rfl := Except.ok.inj (he.symm.trans hfuse)
    have hh' := setGroup_getElem?_of_lt hj hh (g.put legs (.angle zero))
    have hgroup : (s.fusedInto i g (s.destination legs i) h legs e).groups[s.destination legs i]? =
        some (h.put legs e) := getElem?_set_self (List.getElem?_eq_some_iff.mp hh').1
    have hvalid : GroupsValid n (s.fusedInto i g (s.destination legs i) h legs e).groups :=
      (hs.put hi hlegs rfl).put hh' hlegs he'
    refine .inr (Placed.pullPi (.of_angleAt (e := .angle zero) (by rw [hat]; rfl)
      ?_ ?_ fun k legs' => ?_) (hvalid.put hgroup hlegs rfl) _ _ _)
    · simp [fusedInto, setGroup]
    · simp [turn?_zero]
    · rw [angleAt_put hgroup, angleAt_fusedInto hi hj hh]
      split_ifs <;> rfl

/-- The gadgets that have been moved: those of the groups before `i`, and in group `i` those on the legs
`done`. -/
def Handled (i : Nat) (done : List (List Int)) (k : Nat) (legs : List Int) : Prop :=
  k < i ∨ k = i ∧ legs ∈ done

lemma handled_append {legs' : List Int} :
    Handled i (done ++ [legs]) k legs' ↔ Handled i done k legs' ∨ k = i ∧ legs' = legs := by
  simp only [Handled, mem_append, mem_singleton]
  tauto

/-- The gadgets that have been moved are in their final form: no half turns, and from the third group
on every gadget has an obstacle in the group before. -/
structure Settled (n : Nat) (s : Simplifier) (i : Nat) (done : List (List Int)) : Prop where
  valid : GroupsValid n s.groups
  sorted : ∀ k legs, (s.angleAt k legs).isSome → legs.Pairwise (· < ·)
  noHalf : ∀ k legs, Handled i done k legs → s.turnAt k legs ≠ some true
  blocked : ∀ k legs, Handled i done (k + 2) legs → (s.turnAt (k + 2) legs).isSome →
    ∃ legs', (s.turnAt (k + 1) legs').isSome ∧ oddOverlap legs legs' = true

variable (hs : GroupsValid n s.groups)
include hs

lemma legsOn_of_turnAt (h : (s.turnAt k legs).isSome) : LegsOn n legs := by
  obtain ⟨a, ha⟩ := Option.isSome_iff_exists.mp (angleAt_isSome_of_turnAt h)
  obtain ⟨g, hg, hga⟩ := Option.bind_eq_some_iff.mp ha
  exact (legsOn_of_angle? (hs k g hg).2 hga).1

lemma Moved.valid (h : s.Moved i legs s') : GroupsValid n s'.groups :=
  (h.keeps ⟨hs, UpToPhase.refl (s.unitary n)⟩).valid

/-- A gadget that moves past the group between its destination and the next takes away no obstacle:
it shares an even number of legs with every gadget of that group. -/
theorem Placed.obstacle (h : s.Placed i legs s') (hk : k + 2 ≤ i)
    {above below : List Int} (habove : (s.turnAt (k + 2) above).isSome)
    (hbelow : (s.turnAt (k + 1) below).isSome) (hodd : oddOverlap above below) :
    (s'.turnAt (k + 1) below).isSome := by
  by_cases hmoved : below = legs ∧ k + 1 = s.destination legs i
  · obtain ⟨rfl, hdest⟩ := hmoved
    rcases (s.destination_stops below i).1 with hstay | ⟨-, hpass⟩
    · omega
    · rw [← hdest, passes_iff hs] at hpass
      have heven := hpass above habove
      rw [oddOverlap_comm (legsOn_of_turnAt hs hbelow) (legsOn_of_turnAt hs habove), hodd] at heven
      cases heven
  · rw [h.elsewhere]
    · exact hbelow
    · grind

lemma exists_obstacle (h : s.destination legs i = k + 2) :
    ∃ legs', (s.turnAt (k + 1) legs').isSome ∧ oddOverlap legs legs' := by
  have hpass := (s.destination_stops legs i).2 k h
  rw [← Bool.not_eq_true, passes_iff hs] at hpass
  simpa using hpass

omit hs

lemma Settled.idle (hs : s.Settled n i done) (h : s.turnAt i legs = none) :
    s.Settled n i (done ++ [legs]) where
  valid := hs.valid
  sorted := hs.sorted
  noHalf := by
    intro k legs' hk
    rcases handled_append.mp hk with hk | ⟨rfl, rfl⟩
    · exact hs.noHalf k legs' hk
    · simp [h]
  blocked := by
    intro k legs' hk hlive
    rcases handled_append.mp hk with hk | ⟨rfl, rfl⟩
    · exact hs.blocked k legs' hk hlive
    · simp [h] at hlive

lemma Settled.placed (hs : s.Settled n i done) (hvalid : GroupsValid n s'.groups)
    (h : s.Placed i legs s') : s'.Settled n i (done ++ [legs]) where
  valid := hvalid
  sorted := by
    intro k legs' hsome
    rcases h.keys k legs' hsome with hold | rfl
    · exact hs.sorted k legs' hold
    · exact hs.sorted i legs' h.there
  noHalf := by
    intro k legs' hk
    by_cases hdest : k = s.destination legs i ∧ legs' = legs
    · rw [hdest.1, hdest.2]
      exact h.noHalf
    by_cases hown : k = i ∧ legs' = legs
    · obtain ⟨rfl, rfl⟩ := hown
      rw [h.gone fun hd => hdest ⟨hd.symm, rfl⟩]
      simp
    · rw [h.elsewhere k legs' (by tauto)]
      exact hs.noHalf k legs' ((handled_append.mp hk).resolve_right hown)
  blocked := by
    intro k legs' hk hlive
    -- the gadget itself has an obstacle where it stops, and all others keep theirs
    by_cases hdest : k + 2 = s.destination legs i ∧ legs' = legs
    · obtain ⟨hd, rfl⟩ := hdest
      obtain ⟨below, hbelow, hodd⟩ := exists_obstacle hs.valid hd.symm
      have hle := (s.destination_le legs' i).1
      refine ⟨below, ?_, hodd⟩
      rw [h.elsewhere (k + 1) below (.inr ⟨by omega, by omega⟩)]
      exact hbelow
    by_cases hown : k + 2 = i ∧ legs' = legs
    · obtain ⟨rfl, rfl⟩ := hown
      rw [h.gone fun hd => hdest ⟨hd.symm, rfl⟩] at hlive
      cases hlive
    · rw [h.elsewhere (k + 2) legs' (by tauto)] at hlive
      have hhandled := (handled_append.mp hk).resolve_right hown
      obtain ⟨below, hbelow, hodd⟩ := hs.blocked k legs' hhandled hlive
      have hle : k + 2 ≤ i := hhandled.elim Nat.le_of_lt fun hi => Nat.le_of_eq hi.1
      exact ⟨below, h.obstacle hs.valid hle hlive hbelow hodd, hodd⟩

lemma Moved.settled (hs : s.Settled n i done) (h : s.Moved i legs s') :
    s'.Settled n i (done ++ [legs]) := by
  rcases h.placed hs.valid with ⟨rfl, hnone⟩ | hplaced
  · exact hs.idle hnone
  · exact hs.placed (h.valid hs.valid) hplaced

lemma Moved.keys (hs : GroupsValid n s.groups) (h : s.Moved i legs s') {legs' : List Int}
    (hsome : (s'.angleAt i legs').isSome) : (s.angleAt i legs').isSome := by
  rcases h.placed hs with ⟨rfl, -⟩ | hplaced
  · exact hsome
  · rcases hplaced.keys i legs' hsome with hold | rfl
    · exact hold
    · exact hplaced.there

lemma Moved.count (hs : GroupsValid n s.groups) (h : s.Moved i legs s') :
    s'.groups.length = s.groups.length := by
  rcases h.placed hs with ⟨rfl, -⟩ | hplaced
  · rfl
  · exact hplaced.count

lemma moveGroup_settled (hs : s.Settled n i []) :
    ∃ s', s.moveGroup i = .ok s' ∧ s'.groups.length = s.groups.length ∧ s'.Settled n (i + 1) [] := by
  have hstep : ∀ done, ∀ legs ∈ (s.group i).entries.map Prod.fst, ∀ t : Simplifier,
      t.Settled n i done ∧ (∀ legs, (t.angleAt i legs).isSome → (s.angleAt i legs).isSome) ∧
        t.groups.length = s.groups.length →
      ∃ t', t.move i legs = .ok t' ∧ t'.Settled n i (done ++ [legs]) ∧
        (∀ legs, (t'.angleAt i legs).isSome → (s.angleAt i legs).isSome) ∧
        t'.groups.length = s.groups.length := by
    rintro done legs - t ⟨ht, hkeys, hcount⟩
    obtain ⟨t', hmove, hmoved⟩ := move_moved ht.valid i legs
    exact ⟨t', hmove, hmoved.settled ht, fun legs' h => hkeys legs' (hmoved.keys ht.valid h),
      (hmoved.count ht.valid).trans hcount⟩
  obtain ⟨s', hfold, hset, hkeys, hcount⟩ :=
    foldlM_done ((s.group i).entries.map Prod.fst) hstep [] ⟨hs, fun _ h => h, rfl⟩
  have hall : ∀ legs, (s'.turnAt i legs).isSome → legs ∈ [] ++ (s.group i).entries.map Prod.fst := by
    intro legs hlive
    obtain ⟨a, ha⟩ := Option.isSome_iff_exists.mp (hkeys legs (angleAt_isSome_of_turnAt hlive))
    obtain ⟨g, hg, hga⟩ := Option.bind_eq_some_iff.mp ha
    rw [group_eq hg]
    exact mem_map.mpr ⟨_, mem_of_angle? hga, rfl⟩
  have hhandled : ∀ k legs, Handled (i + 1) [] k legs → (s'.turnAt k legs).isSome →
      Handled i ([] ++ (s.group i).entries.map Prod.fst) k legs := by
    rintro k legs (hk | ⟨-, hm⟩) hlive
    · rcases Nat.lt_succ_iff_lt_or_eq.mp hk with hk | rfl
      · exact .inl hk
      · exact .inr ⟨rfl, hall legs hlive⟩
    · cases hm
  refine ⟨s', hfold, hcount, hset.valid, hset.sorted, fun k legs hk htrue => ?_,
    fun k legs hk hlive => hset.blocked k legs (hhandled _ _ hk hlive) hlive⟩
  exact hset.noHalf k legs (hhandled k legs hk (by rw [htrue]; rfl)) htrue

lemma moveAll_settled (hs : s.Settled n 0 []) :
    ∃ s', s.moveAll = .ok s' ∧ s'.Settled n s'.groups.length [] := by
  have hfirst : ∀ m, ∃ s', (range m).foldlM moveGroup s = .ok s' ∧
      s'.groups.length = s.groups.length ∧ s'.Settled n m [] := by
    intro m
    induction m with
    | zero => exact ⟨s, rfl, rfl, hs⟩
    | succ m ih =>
      obtain ⟨t, ht, hcount, hset⟩ := ih
      obtain ⟨t', ht', hcount', hset'⟩ := moveGroup_settled hset
      refine ⟨t', ?_, hcount'.trans hcount, hset'⟩
      rw [range_succ, foldlM_append, ht, ok_bind, foldlM_cons, ht']
      rfl
  obtain ⟨s', hmove, hcount, hset⟩ := hfirst s.groups.length
  exact ⟨s', hmove, hcount ▸ hset⟩

lemma Collected.keys {P : List Int → Prop} {gs gs' : List GadgetGroup} {g : Gadget}
    (h : Collected gs g gs') (hgs : ∀ k ∈ gs, ∀ e ∈ k.entries, P e.1) (hg : P g.legs) :
    ∀ k ∈ gs', ∀ e ∈ k.entries, P e.1 := by
  intro k hk f hf
  cases h with
  | @fused init last e hinit =>
    subst hinit
    rcases mem_append.mp hk with hk | hk
    · exact hgs k (mem_append_left _ hk) f hf
    · rw [mem_singleton.mp hk] at hf
      rcases mem_put hf with hf | rfl
      · exact hgs last (by simp) f hf
      · exact hg
  | started =>
    grind

lemma collectAll_settled (gads : List Gadget) (hg : ∀ g ∈ gads, LegsOn n g.legs ∧ g.angle.isAngle)
    (hsorted : ∀ g ∈ gads, g.legs.Pairwise (· < ·)) {gs : List GadgetGroup}
    (hgs : gads.foldlM collect [{ basis := .z }] = .ok gs) :
    Settled n { groups := gs } 0 [] := by
  have hstep : ∀ _ : List Gadget, ∀ g ∈ gads, ∀ gs₁, GroupsValid n gs₁ ∧ gs₁ ≠ [] ∧
      (∀ k ∈ gs₁, ∀ e ∈ k.entries, e.1.Pairwise (· < ·)) →
      ∃ gs₂, collect gs₁ g = .ok gs₂ ∧ GroupsValid n gs₂ ∧ gs₂ ≠ [] ∧
        (∀ k ∈ gs₂, ∀ e ∈ k.entries, e.1.Pairwise (· < ·)) := by
    rintro - g hmem gs₁ ⟨hv, hne, hkeys⟩
    obtain ⟨hl, ha⟩ := hg g hmem
    obtain ⟨gs₂, hcollect, hcollected⟩ := collect_collected hv hne ha
    exact ⟨gs₂, hcollect, (hcollected.unitary hv hl ha).1, hcollected.ne_nil,
      hcollected.keys hkeys (hsorted g hmem)⟩
  obtain ⟨gs', hfold, hv, -, hkeys⟩ :=
    foldlM_done gads hstep [] ⟨groupsValid_start, by simp, by simp⟩
  obtain rfl := Except.ok.inj (hgs.symm.trans hfold)
  refine ⟨hv, fun k legs hsome => ?_, ?_, ?_⟩
  · obtain ⟨a, ha⟩ := Option.isSome_iff_exists.mp hsome
    obtain ⟨g, hg, hga⟩ := Option.bind_eq_some_iff.mp ha
    exact hkeys g (mem_of_getElem? hg) _ (mem_of_angle? hga)
  · simp [Handled]
  · simp [Handled]

variable {h : Gadget}
include hs

lemma mem_remaining_iff (hk : s.groups[k]? = some g) :
    h ∈ remaining g ↔ ∃ legs a, s.angleAt k legs = some a ∧ a.isZero = false ∧
      h = { basis := basisAt k, angle := reduceAngle a, legs } := by
  obtain ⟨hb, hg⟩ := hs k g hk
  simp only [remaining, mem_filterMap, angleAt_eq hk]
  constructor
  · rintro ⟨⟨legs, a⟩, he, hf⟩
    have ha := hg.numeric _ he
    rw [equal_zero (isAngle_reduceAngle ha), isZero_reduceAngle ha] at hf
    split at hf
    · cases hf
    · rename_i hz
      refine ⟨legs, a, angle?_of_mem hg he, by simpa using hz, ?_⟩
      rw [← hb]
      exact (Option.some.inj hf).symm
  · rintro ⟨legs, a, ha, hz, rfl⟩
    have he := mem_of_angle? ha
    refine ⟨_, he, ?_⟩
    have hangle := hg.numeric _ he
    rw [equal_zero (isAngle_reduceAngle hangle),
      isZero_reduceAngle hangle, hz, if_neg Bool.false_ne_true, hb]

lemma turnAt_of_remaining (hk : s.groups[k]? = some g) (hh : h ∈ remaining g) :
    (s.turnAt k h.legs).isSome := by
  obtain ⟨legs, a, ha, hz, rfl⟩ := (mem_remaining_iff hs hk).mp hh
  simp [turnAt, ha, turn?, hz]

lemma exists_remaining (h : (s.turnAt k legs).isSome) :
    ∃ g, s.groups[k]? = some g ∧ ∃ l ∈ remaining g, l.legs = legs := by
  obtain ⟨a, ha⟩ := Option.isSome_iff_exists.mp (angleAt_isSome_of_turnAt h)
  obtain ⟨g, hg, -⟩ := Option.bind_eq_some_iff.mp ha
  refine ⟨g, hg, _, (mem_remaining_iff hs hg).mpr ⟨legs, a, ha, ?_, rfl⟩, rfl⟩
  rw [turnAt, ha, Option.bind_some, turn?] at h
  cases hz : a.isZero with
  | true => simp [hz] at h
  | false => rfl

omit hs

lemma Settled.remaining_ne_nil (hs : s.Settled n s.groups.length []) {h : GadgetGroup}
    (hg : s.groups[k + 1]? = some g) (hh : s.groups[k + 2]? = some h) (hne : remaining h ≠ []) :
    remaining g ≠ [] := by
  obtain ⟨l, hl⟩ := exists_mem_of_ne_nil _ hne
  have hlt := (List.getElem?_eq_some_iff.mp hh).1
  obtain ⟨below, hbelow, -⟩ := hs.blocked k l.legs (.inl hlt) (turnAt_of_remaining hs.valid hh hl)
  obtain ⟨g', hg', m, hm, -⟩ := exists_remaining hs.valid hbelow
  obtain rfl := Option.some.inj (hg.symm.trans hg')
  exact ne_nil_of_mem hm

lemma remaining_basis (hh : h ∈ remaining g) : h.basis = g.basis := by
  obtain ⟨e, -, hf⟩ := mem_filterMap.mp hh
  simp only at hf
  split at hf
  · cases hf
  · cases hf
    rfl

end Simplifier

def runs (gs : List Gadget) : List (List Gadget) :=
  gs.splitBy fun g h => g.basis == h.basis

lemma flatten_takeWhile {α : Type} {bs : List (List α)}
    (h : ∀ k : Nat, bs[k]? = some [] → ∀ b, bs[k + 1]? = some b → b = []) :
    (bs.takeWhile fun b => !b.isEmpty).flatten = bs.flatten := by
  induction bs with
  | nil => rfl
  | cons b bs ih =>
    cases b with
    | nil =>
      have hall : ∀ (k : Nat) (b : List α), bs[k]? = some b → b = [] := by
        intro k
        induction k with
        | zero => exact fun b hb => h 0 rfl b hb
        | succ k ihk =>
          intro b hb
          have hk : k < bs.length := by
            have := (List.getElem?_eq_some_iff.mp hb).1
            omega
          have hprev : bs[k]? = some [] := by
            rw [getElem?_eq_getElem hk, ihk _ (getElem?_eq_getElem hk)]
          exact h (k + 1) hprev b hb
      refine (flatten_eq_nil_iff.mpr fun b hb => ?_).symm
      rcases mem_cons.mp hb with rfl | hb
      · rfl
      · obtain ⟨k, hk⟩ := mem_iff_getElem?.mp hb
        exact hall k b hk
    | cons x xs =>
      rw [takeWhile_cons_of_pos (by simp), flatten_cons, flatten_cons, ih fun k hk => h (k + 1) hk]

lemma takeWhile_getElem? {α : Type} {p : α → Bool} {xs : List α} {k : Nat} {x : α}
    (h : (xs.takeWhile p)[k]? = some x) : xs[k]? = some x ∧ p x := by
  obtain ⟨t, ht⟩ := takeWhile_prefix (l := xs) p
  refine ⟨?_, mem_takeWhile_imp (mem_of_getElem? h)⟩
  rw [← ht, getElem?_append_left (List.getElem?_eq_some_iff.mp h).1, h]

/-- Blocks of alternating basis are the runs of what they make up. -/
theorem runs_flatten {bs : List (List Gadget)} {b : Nat → Basis} (hb : ∀ k, b k ≠ b (k + 1))
    (hbasis : ∀ k block, bs[k]? = some block → ∀ g ∈ block, g.basis = b k)
    (hempty : ∀ k : Nat, bs[k]? = some [] → ∀ block, bs[k + 1]? = some block → block = []) :
    runs bs.flatten = bs.takeWhile fun block => !block.isEmpty := by
  rw [← flatten_takeWhile hempty, runs]
  refine splitBy_flatten ?_ ?_ (isChain_iff_getElem.mpr ?_)
  · intro hnil
    have := mem_takeWhile_imp hnil
    simp at this
  · intro block hblock
    obtain ⟨k, hk⟩ := mem_iff_getElem?.mp hblock
    have hk' := hbasis k block (takeWhile_getElem? hk).1
    refine List.Pairwise.isChain (pairwise_of_forall_mem_list fun g hg h hh => ?_)
    simp [hk' g hg, hk' h hh]
  · intro k hk
    obtain ⟨hleft, hl⟩ := takeWhile_getElem? (getElem?_eq_getElem (Nat.lt_of_succ_lt hk))
    obtain ⟨hright, hr⟩ := takeWhile_getElem? (getElem?_eq_getElem hk)
    have hl' : (bs.takeWhile fun block => !block.isEmpty)[k] ≠ [] := by simpa using hl
    have hr' : (bs.takeWhile fun block => !block.isEmpty)[k + 1] ≠ [] := by simpa using hr
    refine ⟨hl', hr', ?_⟩
    rw [hbasis k _ hleft _ (getLast_mem hl'), hbasis (k + 1) _ hright _ (head_mem hr')]
    simpa using hb k

namespace Simplifier

lemma basisAt_ne_succ (k : Nat) : basisAt k ≠ basisAt (k + 1) := by
  rw [basisAt_succ]
  cases basisAt k <;> simp [Basis.other]

lemma Settled.runs_eq {s : Simplifier} (hs : s.Settled n s.groups.length []) :
    ∃ first, ∀ (k : Nat) (run : List Gadget), (runs (s.groups.flatMap remaining))[k]? = some run →
      ∃ g, s.groups[first + k]? = some g ∧ run = remaining g := by
  -- the first group may be empty where the second is not
  obtain ⟨first, hflat, hfirst⟩ : ∃ first, s.groups.flatMap remaining =
        ((s.groups.drop first).map remaining).flatten ∧
      (first = 0 → ∀ g, s.groups[0]? = some g → remaining g ≠ []) := by
    by_cases hnil : ∃ g, s.groups[0]? = some g ∧ remaining g = []
    · obtain ⟨g, hg, hempty⟩ := hnil
      refine ⟨1, ?_, by simp⟩
      cases hgs : s.groups with
      | nil => simp [hgs] at hg
      | cons g' gs =>
        obtain rfl : g' = g := by simpa [hgs] using hg
        simp [hempty, flatMap_def]
    · exact ⟨0, by simp [flatMap_def], fun _ g hg hempty => hnil ⟨g, hg, hempty⟩⟩
  have hblock : ∀ k block, ((s.groups.drop first).map remaining)[k]? = some block →
      ∃ g, s.groups[first + k]? = some g ∧ block = remaining g := by simp_all
  refine ⟨first, fun k run hrun => ?_⟩
  rw [hflat, runs_flatten (b := fun k => basisAt (first + k)) (fun k => basisAt_ne_succ _)] at hrun
  · exact hblock k run (takeWhile_getElem? hrun).1
  · intro k block hk h hh
    obtain ⟨g, hg, rfl⟩ := hblock k block hk
    exact (remaining_basis hh).trans (hs.valid _ g hg).1
  · intro k hk block hnext
    obtain ⟨g, hg, hempty⟩ := hblock k [] hk
    obtain ⟨h, hh, rfl⟩ := hblock (k + 1) block hnext
    by_contra hne
    cases hpos : first + k with
    | zero =>
      have hzero : first = 0 := by omega
      exact hfirst hzero g (hpos ▸ hg) hempty.symm
    | succ m =>
      rw [hpos] at hg
      rw [← Nat.add_assoc, hpos] at hh
      exact hs.remaining_ne_nil hg hh hne hempty.symm

lemma oddOverlap_iff {as bs : List Int} (ha : as.Nodup) :
    oddOverlap as bs ↔ Odd (as.toFinset ∩ bs.toFinset).card := by
  have hset : as.toFinset ∩ bs.toFinset = (as.filter bs.contains).toFinset := by
    ext q
    simp
  rw [hset, toFinset_card_of_nodup (ha.filter _), Nat.odd_iff, oddOverlap, beq_iff_eq]

lemma remaining_distinct {s : Simplifier} (hs : s.Settled n s.groups.length []) {k : Nat}
    {g : GadgetGroup} (hk : s.groups[k]? = some g) :
    ((remaining g).map fun h => h.legs.toFinset).Nodup := by
  have hkeys : ((remaining g).map Gadget.legs).Nodup := by
    rw [remaining, List.Nodup, pairwise_map, pairwise_filterMap]
    refine (pairwise_map.mp (hs.valid k g hk).2.keys).imp ?_
    intro e f hef h hh h' hh'
    dsimp only at hh hh'
    split at hh
    · cases hh
    · split at hh'
      · cases hh'
      · cases hh
        cases hh'
        exact hef
  have hsorted : ∀ legs ∈ (remaining g).map Gadget.legs, legs.Pairwise (· < ·) := by
    intro legs hlegs
    obtain ⟨h, hh, rfl⟩ := mem_map.mp hlegs
    exact hs.sorted k h.legs (angleAt_isSome_of_turnAt (turnAt_of_remaining hs.valid hk hh))
  have hmap : (remaining g).map (fun h => h.legs.toFinset) =
      ((remaining g).map Gadget.legs).map List.toFinset := by rw [map_map]; rfl
  rw [hmap]
  refine hkeys.map_on fun as ha bs hb hab => ?_
  refine List.Pairwise.eq_of_mem_iff (hsorted as ha) (hsorted bs hb) fun q => ?_
  rw [← mem_toFinset, hab, mem_toFinset]

end Simplifier

/-- Gates of angle π on different qubits. -/
def HalfTurns (b : Basis) (gs : List Gadget) : Prop :=
  ∃ qs : List Int, qs.Nodup ∧ gs = qs.map fun q => { basis := b, angle := .angle Angle.pi, legs := [q] }

/-- Gadgets of which none has a whole number of half turns; in each run no two have the same legs, and
from the third run on each shares an odd number of legs with one of the run before. -/
structure Blocked (gs : List Gadget) : Prop where
  angles : ∀ g ∈ gs, ∃ a : Angle, g.angle = .angle a ∧ ∀ k : ℤ, a.halfTurns ≠ k
  distinct : ∀ run ∈ runs gs, (run.map fun g => g.legs.toFinset).Nodup
  obstacle : ∀ (k : Nat) (run next : List Gadget), (runs gs)[k + 1]? = some run →
    (runs gs)[k + 2]? = some next → ∀ g ∈ next, ∃ h ∈ run, Odd (g.legs.toFinset ∩ h.legs.toFinset).card

lemma Simplifier.Settled.blocked_remaining {s : Simplifier}
    (hs : s.Settled n s.groups.length []) : Blocked (s.groups.flatMap remaining) where
  angles := by
    intro h hh
    obtain ⟨g, hg, hh⟩ := mem_flatMap.mp hh
    obtain ⟨k, hk⟩ := mem_iff_getElem?.mp hg
    have hlt := (List.getElem?_eq_some_iff.mp hk).1
    obtain ⟨legs, a, ha, hz, rfl⟩ := (mem_remaining_iff hs.valid hk).mp hh
    have hangle := (legsOn_of_angle? (hs.valid k g hk).2 ((angleAt_eq hk legs).symm.trans ha)).2
    have hhalf := hs.noHalf k legs (.inl hlt)
    rw [turnAt, ha, Option.bind_some, turn?, hz, if_neg Bool.false_ne_true] at hhalf
    cases a with
    | angle a =>
      refine ⟨a.normalize, rfl, fun m hm => ?_⟩
      have hwhole := AngleExpr.isZeroOrPi_iff.mpr ⟨m, hm⟩
      simp only [AngleExpr.isZeroOrPi, AngleExpr.isZero, AngleExpr.isPi, Angle.isZero, Angle.isPi,
        Angle.reduced_normalize] at hwhole hz hhalf
      simp_all
    | _ => simp [isAngle] at hangle
  distinct := by
    intro run hrun
    obtain ⟨k, hk⟩ := mem_iff_getElem?.mp hrun
    obtain ⟨first, hruns⟩ := hs.runs_eq
    obtain ⟨g, hg, rfl⟩ := hruns k run hk
    exact remaining_distinct hs hg
  obstacle := by
    intro k run next hrun hnext h hh
    obtain ⟨first, hruns⟩ := hs.runs_eq
    obtain ⟨g, hg, rfl⟩ := hruns (k + 1) run hrun
    obtain ⟨g', hg', rfl⟩ := hruns (k + 2) next hnext
    have hlive := turnAt_of_remaining hs.valid hg' hh
    have hlt := (List.getElem?_eq_some_iff.mp hg').1
    obtain ⟨legs, hbelow, hodd⟩ := hs.blocked (first + k) h.legs (.inl hlt) hlive
    obtain ⟨g'', hg'', l, hl, rfl⟩ := exists_remaining hs.valid hbelow
    obtain rfl := Option.some.inj (hg.symm.trans hg'')
    exact ⟨l, hl, (oddOverlap_iff (legsOn_of_turnAt hs.valid hlive).nodup).mp hodd⟩

namespace PhaseCircuit

lemma halfTurns_piGates (n : Nat) (b : Basis) (pulled : List Int) :
    HalfTurns b (piGates b n pulled) := by
  exact ⟨oddQubits n pulled, oddQubits_nodup pulled, piGates_eq b pulled⟩

lemma gadget_legs_sorted (k : Cell) : k.gadget.legs.Pairwise (· < ·) :=
  pairwise_map.mpr ((GadgetTable.legsOf_sorted _).imp fun h => Int.ofNat_lt.mpr h)

lemma cellOf_gadget {g : Gadget} (hl : LegsOn n g.legs) (hsorted : g.legs.Pairwise (· < ·)) :
    (cellOf n g).gadget = { basis := g.basis, angle := reduceAngle g.angle, legs := g.legs } := by
  have hlegs : (GadgetTable.legsOf (cellOf n g).column).map Int.ofNat = g.legs := by
    refine List.Pairwise.eq_of_mem_iff (gadget_legs_sorted (cellOf n g)) hsorted fun q => ?_
    simp only [mem_map, GadgetTable.mem_legsOf, cellOf, getElem?_map]
    constructor
    · grind
    · intro hq
      obtain ⟨h0, hn⟩ := hl.range q hq
      have hlt : q.toNat < n := by omega
      grind
  rw [Cell.gadget, hlegs]
  rfl

lemma outcome_legs {s : Simplifier} {i : Nat} {done : List (List Int)} (hs : s.Settled n i done) :
    ∀ g ∈ s.outcome n, LegsOn n g.legs ∧ g.legs.Pairwise (· < ·) ∧
      g = { basis := g.basis, angle := reduceAngle g.angle, legs := g.legs } := by
  have hpi : ∀ b pulled, ∀ g ∈ piGates b n pulled, LegsOn n g.legs ∧
      g.legs.Pairwise (· < ·) ∧
      g = { basis := g.basis, angle := reduceAngle g.angle, legs := g.legs } := by
    intro b pulled g hg
    have hlegs := (piGates_legs hg).1
    rw [piGates_eq] at hg
    obtain ⟨q, -, rfl⟩ := mem_map.mp hg
    exact ⟨hlegs, pairwise_singleton _ _, by rw [reduceAngle, normalize_pi]⟩
  intro g hg
  rcases mem_append.mp hg with hg | hg
  · grind
  · obtain ⟨h, hh, hg⟩ := mem_flatMap.mp hg
    obtain ⟨k, hk⟩ := mem_iff_getElem?.mp hh
    have hlive := turnAt_of_remaining hs.valid hk hg
    refine ⟨legsOn_of_turnAt hs.valid hlive,
      hs.sorted k g.legs (angleAt_isSome_of_turnAt hlive), ?_⟩
    obtain ⟨legs, a, -, -, rfl⟩ := (mem_remaining_iff hs.valid hk).mp hg
    cases a <;> simp [reduceAngle]

theorem simplified_settled {c : PhaseCircuit} (hc : c.WellFormed)
    (hnum : ∀ a ∈ c.angles, a.isAngle) :
    ∃ groups s d, ((c.cells.map Cell.gadget).filter fun g => !g.angle.isZero).foldlM
        collect [{ basis := .z }] = .ok groups ∧
      Simplifier.Settled c.size { groups } 0 [] ∧ moveAll { groups } = .ok s ∧
      s.Settled c.size s.groups.length [] ∧ c.simplified = .ok d ∧
      ofGadgets c.size (s.outcome c.size) = .ok d ∧ d.WellFormed ∧ d.size = c.size ∧
      d.cells.map Cell.gadget = s.outcome c.size := by
  have hgs := gadgets_numeric hc hnum
  obtain ⟨groups, s, hcollect, hmove, -, -⟩ := simplified_gadgets hgs
  have hsorted : ∀ g ∈ (c.cells.map Cell.gadget).filter fun g => !g.angle.isZero,
      g.legs.Pairwise (· < ·) := by
    intro g hg
    obtain ⟨k, -, rfl⟩ := mem_map.mp (mem_filter.mp hg).1
    exact gadget_legs_sorted k
  have hstart := collectAll_settled _ (fun g hg => hgs g (mem_filter.mp hg).1) hsorted hcollect
  obtain ⟨s', hmove', hsettled⟩ := moveAll_settled hstart
  obtain rfl := Except.ok.inj (hmove.symm.trans hmove')
  have hout := outcome_legs hsettled
  obtain ⟨d, hd, hw, hsize, hcells⟩ := ofGadgets_ok (n := c.size) fun g hg => (hout g hg).1.fits
  refine ⟨groups, s, d, hcollect, hstart, hmove, hsettled, (simplified_eq hc hcollect hmove).trans hd,
    hd, hw, hsize, ?_⟩
  rw [hcells, map_map]
  refine (map_congr_left fun g hg => ?_).trans (map_id _)
  obtain ⟨hl, hs, hsame⟩ := hout g hg
  exact (cellOf_gadget hl hs).trans hsame.symm

/-- A simplified circuit is in normal form: Z gates of angle π on different qubits, X gates of angle π on
different qubits, then gadgets of other angles that are blocked. -/
theorem simplified_normalForm {c : PhaseCircuit} (hc : c.WellFormed)
    (hnum : ∀ a ∈ c.angles, a.isAngle = true) :
    ∃ d zs xs rest, c.simplified = .ok d ∧ d.size = c.size ∧ d.gadgets = .ok (zs ++ xs ++ rest) ∧
      HalfTurns .z zs ∧ HalfTurns .x xs ∧ Blocked rest := by
  obtain ⟨groups, s, d, -, -, -, hsettled, hd, -, hw, hsize, hcells⟩ := simplified_settled hc hnum
  refine ⟨d, _, _, _, hd, hsize, ?_, halfTurns_piGates c.size .z s.zPis,
    halfTurns_piGates c.size .x s.xPis, hsettled.blocked_remaining⟩
  rw [gadgets_eq hw, hcells]
  rfl

def blockedTower : PhaseCircuit :=
  (((({ size := 1 } : PhaseCircuit).push { basis := .z, angle := .angle ⟨1 / 4⟩, legs := [0] } [true]
    (.angle ⟨1 / 4⟩)).push { basis := .x, angle := .angle ⟨1 / 4⟩, legs := [0] } [true]
    (.angle ⟨1 / 4⟩)).push { basis := .z, angle := .angle ⟨1 / 4⟩, legs := [0] } [true]
    (.angle ⟨1 / 4⟩)).push { basis := .x, angle := .angle Angle.pi, legs := [0] } [true]
    (.angle Angle.pi)

theorem blockedTower_normalForm :
    blockedTower.WellFormed ∧ (∀ a ∈ blockedTower.angles, a.isAngle = true) ∧
    ∃ d zs xs rest, blockedTower.simplified = .ok d ∧ d.size = blockedTower.size ∧
      d.gadgets = .ok (zs ++ xs ++ rest) ∧ HalfTurns .z zs ∧ HalfTurns .x xs ∧ Blocked rest := by
  have hwell : blockedTower.WellFormed := by
    apply_rules [push_wellFormed, wellFormed_empty] <;> simp
  have hnum : ∀ a ∈ blockedTower.angles, a.isAngle = true := by
    intro a ha
    have hangles : blockedTower.angles =
        [.angle ⟨1 / 4⟩, .angle ⟨1 / 4⟩, .angle ⟨1 / 4⟩, .angle Angle.pi] := rfl
    rw [hangles] at ha
    simp only [mem_cons, not_mem_nil, or_false] at ha
    rcases ha with rfl | rfl | rfl | rfl <;> rfl
  exact ⟨hwell, hnum, simplified_normalForm hwell hnum⟩

end PhaseCircuit

end GadgetCircuits
