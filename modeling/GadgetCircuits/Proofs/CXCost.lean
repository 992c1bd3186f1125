import GadgetCircuits.Graph.Standard
import GadgetCircuits.Proofs.NormalForm

/-!
Simplification makes no circuit more expensive. Every set of legs has a weight, which counts where its angle
is not a multiple of π; no step of a simplification adds to the total. With the sizes of the trees that join
the legs as weights, the total is the CX count, as long as remembered legs are those of the columns.
-/

namespace GadgetCircuits

open List GadgetGroup Angle AngleExpr PhaseCircuit Function

variable {n : Nat}

def turnWeight (w : List Int → ℕ∞) (legs : List Int) (a : AngleExpr) : ℕ∞ :=
  if a.isZeroOrPi then 0 else w legs

def totalWeight (w : List Int → ℕ∞) (gs : List Gadget) : ℕ∞ :=
  (gs.map fun g => turnWeight w g.legs g.angle).sum

def GadgetGroup.weight (w : List Int → ℕ∞) (g : GadgetGroup) : ℕ∞ :=
  (g.entries.map fun e => turnWeight w e.1 e.2).sum

def groupsWeight (w : List Int → ℕ∞) (gs : List GadgetGroup) : ℕ∞ :=
  (gs.map (weight w)).sum

variable {w : List Int → ℕ∞} {legs : List Int} {a e : AngleExpr}

lemma turnWeight_le (w : List Int → ℕ∞) (legs : List Int) (a : AngleExpr) :
    turnWeight w legs a ≤ w legs := by
  unfold turnWeight
  split
  · exact zero_le
  · exact le_rfl

lemma turnWeight_zero : turnWeight w legs (.angle zero) = 0 :=
  if_pos (isZeroOrPi_iff.mpr ⟨0, by simp [zero]⟩)

lemma turnWeight_neg (ha : a.isAngle) : turnWeight w legs a.neg = turnWeight w legs a := by
  rw [turnWeight, turnWeight, AngleExpr.isZeroOrPi, AngleExpr.isZero_neg ha, AngleExpr.isPi_neg ha,
    AngleExpr.isZeroOrPi]

lemma turnWeight_reduceAngle (a : AngleExpr) :
    turnWeight w legs (PhaseCircuit.reduceAngle a) = turnWeight w legs a := by
  cases a <;> simp [turnWeight, PhaseCircuit.reduceAngle, AngleExpr.isZeroOrPi, AngleExpr.isZero,
    AngleExpr.isPi, Angle.isZero, Angle.isPi]

lemma turnWeight_add {b : AngleExpr} (h : b.add a = .ok e) :
    turnWeight w legs e ≤ turnWeight w legs a + turnWeight w legs b := by
  by_cases hb : b.isZeroOrPi
  · by_cases ha : a.isZeroOrPi
    · rw [turnWeight, if_pos (isZeroOrPi_add hb ha h)]
      exact zero_le
    · refine (turnWeight_le w legs e).trans (le_add_right ?_)
      rw [turnWeight, if_neg ha]
  · refine (turnWeight_le w legs e).trans (le_add_left ?_)
    rw [turnWeight, if_neg hb]

namespace GadgetGroup

variable {g : GadgetGroup}

lemma weight_put (hg : g.Valid n) (h : g.angle? legs = some a) (a' : AngleExpr) :
    ∃ rest, g.weight w = turnWeight w legs a + rest ∧
      (g.put legs a').weight w = turnWeight w legs a' + rest := by
  obtain ⟨l, r, hlr, hput⟩ := put_entries hg h a'
  refine ⟨((l ++ r).map fun e => turnWeight w e.1 e.2).sum, ?_, ?_⟩
  · simp only [weight, hlr, map_append, map_cons, sum_append, sum_cons]
    exact add_left_comm _ _ _
  · simp only [weight, hput, map_append, map_cons, sum_append, sum_cons]
    exact add_left_comm _ _ _

lemma weight_put_zero (hg : g.Valid n) (h : g.angle? legs = some a) :
    g.weight w = turnWeight w legs a + (g.put legs (.angle zero)).weight w := by
  obtain ⟨rest, hold, hnew⟩ := weight_put (w := w) hg h (.angle zero)
  rw [hold, hnew, turnWeight_zero, zero_add]

lemma weight_fuse_le (hg : g.Valid n) (he : g.fusedAngle legs a = .ok e) :
    (g.put legs e).weight w ≤ turnWeight w legs a + g.weight w := by
  unfold fusedAngle at he
  cases h : g.angle? legs with
  | none =>
    simp only [h] at he
    cases he
    have hput : (g.put legs a).entries = g.entries ++ [(legs, a)] := by simp [put, h]
    simp [weight, hput, add_comm]
  | some old =>
    simp only [h] at he
    obtain ⟨rest, hold, hnew⟩ := weight_put (w := w) hg h e
    rw [hold, hnew, ← add_assoc]
    gcongr
    exact turnWeight_add he

lemma weight_crossed (hg : g.Valid n) (legs : List Int) :
    (g.crossed legs).weight w = g.weight w := by
  rw [weight, crossed, map_map, weight]
  refine congrArg List.sum (map_congr_left fun e he => ?_)
  simp only [comp_apply]
  split
  · exact turnWeight_neg (hg.numeric e he)
  · rfl

end GadgetGroup

namespace Simplifier

variable {g : GadgetGroup} {gs : List GadgetGroup} {i j : Nat} {s : Simplifier}

lemma groupsWeight_append (gs hs : List GadgetGroup) :
    groupsWeight w (gs ++ hs) = groupsWeight w gs + groupsWeight w hs := by
  simp [groupsWeight]

lemma groupsWeight_set (hi : gs[i]? = some g) : ∃ rest, groupsWeight w gs = g.weight w + rest ∧
      ∀ g', groupsWeight w (gs.set i g') = g'.weight w + rest := by
  obtain ⟨hlt, rfl⟩ := List.getElem?_eq_some_iff.mp hi
  have hsplit : ∀ g', groupsWeight w (gs.set i g') =
      g'.weight w + (groupsWeight w (gs.take i) + groupsWeight w (gs.drop (i + 1))) := by
    intro g'
    rw [set_eq_take_append_cons_drop, if_pos hlt, groupsWeight_append]
    simp only [groupsWeight, map_cons, sum_cons]
    exact add_left_comm _ _ _
  refine ⟨_, ?_, hsplit⟩
  have hself := hsplit gs[i]
  rwa [set_getElem_self] at hself

lemma groupsWeight_pulledGroups (hgs : GroupsValid n gs) (legs : List Int) (j : Nat) :
    groupsWeight w (pulledGroups gs legs j) = groupsWeight w gs := by
  refine congrArg List.sum (ext_getElem? fun k => ?_)
  rw [getElem?_map, pulledGroups_getElem?, getElem?_map, Option.map_map]
  cases hk : gs[k]? with
  | none => rfl
  | some g =>
    simp only [Option.map_some, comp_apply]
    split
    · rw [weight_crossed (hgs k g hk).2]
    · rfl

lemma groupsWeight_takeOut (hgs : GroupsValid n gs) (hi : gs[i]? = some g)
    (ha : g.angle? legs = some a) :
    groupsWeight w gs = turnWeight w legs a +
      groupsWeight w (gs.set i (g.put legs (.angle zero))) := by
  obtain ⟨rest, hold, hset⟩ := groupsWeight_set (w := w) hi
  rw [hold, hset, weight_put_zero (hgs i g hi).2 ha, add_assoc]

lemma groupsWeight_fuse_le (hgs : GroupsValid n gs) {h : GadgetGroup} (hj : gs[j]? = some h)
    (he : h.fusedAngle legs a = .ok e) :
    groupsWeight w (gs.set j (h.put legs e)) ≤ turnWeight w legs a + groupsWeight w gs := by
  obtain ⟨rest, hold, hset⟩ := groupsWeight_set (w := w) hj
  rw [hold, hset, ← add_assoc]
  gcongr
  exact weight_fuse_le (hgs j h hj).2 he

variable (hs : GroupsValid n s.groups)
include hs

lemma groupsWeight_fusedInto_le {h : GadgetGroup}
    (hi : s.groups[i]? = some g) (ha : g.angle? legs = some a) (hj : j < i) (hh : s.groups[j]? = some h)
    (he : h.fusedAngle legs a = .ok e) :
    groupsWeight w (s.fusedInto i g j h legs e).groups ≤ groupsWeight w s.groups := by
  have hlegs := (legsOn_of_angle? (hs i g hi).2 ha).1
  rw [groupsWeight_takeOut hs hi ha]
  exact groupsWeight_fuse_le (hs.put hi hlegs rfl) (setGroup_getElem?_of_lt hj hh _) he

lemma groupsWeight_pullOut_le (hj : s.groups[j]? = some g)
    (ha : g.angle? legs = some a) (b : Basis) :
    groupsWeight w ((s.setGroup j (g.put legs (.angle zero))).pullPi b legs j).groups ≤
      groupsWeight w s.groups := by
  have hlegs := (legsOn_of_angle? (hs j g hj).2 ha).1
  have hvalid : GroupsValid n (s.setGroup j (g.put legs (.angle zero))).groups :=
    hs.put hj hlegs rfl
  rw [pullPi_groups, groupsWeight_pulledGroups hvalid, groupsWeight_takeOut hs hj ha]
  exact le_add_left le_rfl

lemma Moved.weight_le {s' : Simplifier} (h : s.Moved i legs s') :
    groupsWeight w s'.groups ≤ groupsWeight w s.groups := by
  cases h with
  | idle | stopped => exact le_rfl
  | pulled hi ha => exact groupsWeight_pullOut_le hs hi ha _
  | fused hi ha hj hh he => exact groupsWeight_fusedInto_le hs hi ha hj hh he
  | @fusedPulled g h a e hi ha hj hh he hpi =>
    have hfused := fuse_keeps ⟨hs, UpToPhase.refl (s.unitary n)⟩ hi ha hj hh he
    refine (groupsWeight_pullOut_le hfused.valid ?_ (angle?_put _ _ _) _).trans
      (groupsWeight_fusedInto_le hs hi ha hj hh he)
    refine getElem?_set_self ?_
    rw [setGroup, length_set]
    exact (List.getElem?_eq_some_iff.mp hh).1

lemma moveAll_weight_le {s' : Simplifier} (h : s.moveAll = .ok s') :
    groupsWeight w s'.groups ≤ groupsWeight w s.groups := by
  have hstep : ∀ (i : Nat) (t : Simplifier) (legs : List Int),
      GroupsValid n t.groups ∧ groupsWeight w t.groups ≤ groupsWeight w s.groups →
      ∃ t', t.move i legs = .ok t' ∧ GroupsValid n t'.groups ∧
        groupsWeight w t'.groups ≤ groupsWeight w s.groups := by
    rintro i t legs ⟨ht, hle⟩
    obtain ⟨t', hmove, hmoved⟩ := move_moved ht i legs
    exact ⟨t', hmove, hmoved.valid ht, (hmoved.weight_le ht).trans hle⟩
  obtain ⟨t, ht, -, hle⟩ := foldlM_keeps (fun _ i ht => foldlM_keeps (hstep i) _ ht)
    (range s.groups.length) ⟨hs, le_rfl⟩
  obtain rfl := Except.ok.inj (h.symm.trans ht)
  exact hle

omit hs

lemma Collected.weight_le {gs' : List GadgetGroup} (hgs : GroupsValid n gs) {g : Gadget}
    (h : Collected gs g gs') :
    groupsWeight w gs' ≤ turnWeight w g.legs g.angle + groupsWeight w gs := by
  cases h with
  | @fused init last e hinit hb he =>
    subst hinit
    have hlast : (init ++ [last])[init.length]? = some last := by simp
    simpa using groupsWeight_fuse_le hgs hlast he
  | started =>
    rw [groupsWeight_append, add_comm]
    simp [groupsWeight, weight]

lemma collectAll_weight_le {gads : List Gadget}
    (hg : ∀ g ∈ gads, LegsOn n g.legs ∧ g.angle.isAngle)
    (hgs : gads.foldlM collect [{ basis := .z }] = .ok gs) :
    groupsWeight w gs ≤ totalWeight w gads := by
  have hstep : ∀ done, ∀ g ∈ gads, ∀ gs₁, GroupsValid n gs₁ ∧ gs₁ ≠ [] ∧
      groupsWeight w gs₁ ≤ totalWeight w done →
      ∃ gs₂, collect gs₁ g = .ok gs₂ ∧ GroupsValid n gs₂ ∧ gs₂ ≠ [] ∧
        groupsWeight w gs₂ ≤ totalWeight w (done ++ [g]) := by
    rintro done g hmem gs₁ ⟨hv, hne, hle⟩
    obtain ⟨hl, ha⟩ := hg g hmem
    obtain ⟨gs₂, hcollect, hcollected⟩ := collect_collected hv hne ha
    refine ⟨gs₂, hcollect, (hcollected.unitary hv hl ha).1, hcollected.ne_nil, ?_⟩
    calc groupsWeight w gs₂
        ≤ turnWeight w g.legs g.angle + groupsWeight w gs₁ := hcollected.weight_le hv
      _ ≤ turnWeight w g.legs g.angle + totalWeight w done := by gcongr
      _ = totalWeight w (done ++ [g]) := by simp [totalWeight, add_comm]
  obtain ⟨gs', hfold, -, -, hle⟩ := foldlM_done gads hstep []
    ⟨groupsValid_start, by simp, by simp [groupsWeight, weight]⟩
  obtain rfl := Except.ok.inj (hgs.symm.trans hfold)
  exact hle

lemma totalWeight_piGates (b : Basis) (pulled : List Int) :
    totalWeight w (piGates b n pulled) = 0 := by
  refine sum_eq_zero fun x hx => ?_
  obtain ⟨g, hg, rfl⟩ := mem_map.mp hx
  rw [piGates_eq] at hg
  obtain ⟨q, -, rfl⟩ := mem_map.mp hg
  exact if_pos (isZeroOrPi_iff.mpr ⟨1, by simp [Angle.pi]⟩)

lemma totalWeight_remaining_le (g : GadgetGroup) : totalWeight w (remaining g) ≤ g.weight w := by
  rw [totalWeight, remaining, weight]
  induction g.entries with
  | nil => simp
  | cons e es ih =>
    rw [filterMap_cons, map_cons, sum_cons]
    dsimp only
    split
    · exact ih.trans (le_add_left le_rfl)
    · rename_i h hh
      split at hh
      · cases hh
      · cases hh
        rw [map_cons, sum_cons, turnWeight_reduceAngle]
        gcongr

lemma totalWeight_outcome_le (s : Simplifier) :
    totalWeight w (s.outcome n) ≤ groupsWeight w s.groups := by
  have hrest : totalWeight w (s.groups.flatMap remaining) ≤ groupsWeight w s.groups := by
    induction s.groups with
    | nil => simp [totalWeight, groupsWeight]
    | cons g gs ih =>
      simp only [totalWeight, groupsWeight, flatMap_cons, map_append, sum_append,
        map_cons, sum_cons] at ih ⊢
      gcongr
      exact totalWeight_remaining_le g
  have hz := totalWeight_piGates (n := n) (w := w) .z s.zPis
  have hx := totalWeight_piGates (n := n) (w := w) .x s.xPis
  simp only [totalWeight, outcome, map_append, sum_append] at hz hx hrest ⊢
  rw [hz, hx, add_zero, zero_add]
  exact hrest

end Simplifier

/-- The legs that are remembered are those of the columns. -/
structure GadgetTable.LegsKnown (t : GadgetTable) : Prop where
  length : t.knownLegs.length = t.columns.length
  legs : ∀ j, legsAt t j = (legsOf (t.column j)).map Int.ofNat

def PhaseCircuit.LegsKnown (c : PhaseCircuit) : Prop :=
  ∀ b, (c.table b).LegsKnown

namespace GadgetTable

variable {t : GadgetTable}

lemma LegsKnown.push (ht : t.LegsKnown) {column : List Bool} {legs : List Int}
    (hcolumn : (legsOf column).map Int.ofNat = legs) (position : Nat) :
    (t.push column position legs).LegsKnown where
  length := by simp [GadgetTable.push, ht.length]
  legs := by
    intro j
    rcases Nat.lt_trichotomy j t.columns.length with hj | hj | hj
    · have hold := ht.legs j
      have hj' : j < t.knownLegs.length := by rwa [ht.length]
      rw [legsAt, GadgetTable.column] at hold ⊢
      simpa only [GadgetTable.push, getElem?_append_left hj, getElem?_append_left hj'] using hold
    · have hj' : j = t.knownLegs.length := by rwa [ht.length]
      have hknown : (t.push column position legs).knownLegs[j]? = some (some legs) := by
        simp [GadgetTable.push, hj']
      have hcol : (t.push column position legs).column j = column := by
        simp [GadgetTable.push, GadgetTable.column, hj]
      rw [legsAt, hknown, hcol, hcolumn]
    · have hj' : (t.push column position legs).knownLegs[j]? = none := by
        simp only [GadgetTable.push, List.getElem?_eq_none_iff, length_append,
          length_singleton, ht.length]
        omega
      rw [legsAt, hj']

lemma crossed_of_false {source goal : Nat} {column : List Bool}
    (h : (column[source]?).getD false = false) : crossed source goal column = column := by
  apply ext_getElem?
  intro i
  rw [crossed_getElem?, h]
  split
  · simp
  · rfl

lemma LegsKnown.addRow (ht : t.LegsKnown) {source goal : Nat} (hne : source ≠ goal) :
    (t.addRow source goal).LegsKnown where
  length := by simp [GadgetTable.addRow, ht.length]
  legs := by
    intro j
    rw [legsAt, addRow_column]
    cases hcol : t.columns[j]? with
    | none =>
      have hnone : (t.addRow source goal).knownLegs[j]? = none := by
        simp [GadgetTable.addRow, getElem?_zipWith, hcol]
      rw [hnone]
    | some col =>
      have hlt : j < t.knownLegs.length := by
        rw [ht.length]
        exact (List.getElem?_eq_some_iff.mp hcol).1
      obtain ⟨known, hknown⟩ : ∃ known, t.knownLegs[j]? = some known := ⟨_, getElem?_eq_getElem hlt⟩
      have hnew : (t.addRow source goal).knownLegs[j]? =
          some (if ((crossed source goal col)[source]?).getD false then none else known) := by
        simp only [GadgetTable.addRow, getElem?_zipWith, getElem?_map, hcol, hknown,
          Option.map_some]
        rfl
      have hcolumn : t.column j = col := by rw [GadgetTable.column, hcol, Option.getD_some]
      rw [hnew, hcolumn]
      -- legs are forgotten where the column changes
      cases hbit : ((crossed source goal col)[source]?).getD false with
      | true => rfl
      | false =>
        have hold := ht.legs j
        rw [crossed_getElem?, if_neg hne] at hbit
        rw [legsAt, hknown, hcolumn] at hold
        rw [crossed_of_false hbit]
        exact hold

end GadgetTable

namespace PhaseCircuit

variable {gs : List Gadget} {c : PhaseCircuit}

lemma push_legsKnown (hc : c.LegsKnown) {g : Gadget} {column : List Bool}
    (hcolumn : (GadgetTable.legsOf column).map Int.ofNat = g.legs) (a : AngleExpr) :
    (c.push g column a).LegsKnown := by
  intro b
  rw [push_table]
  split
  · exact (hc b).push hcolumn _
  · exact hc b

lemma conjugate_legsKnown (hc : c.LegsKnown) {ctrl trgt : Nat} (hne : ctrl ≠ trgt) :
    (c.conjugate ctrl trgt).LegsKnown := by
  intro b
  cases b with
  | z => exact (hc .z).addRow hne.symm
  | x => exact (hc .x).addRow hne

lemma legsKnown_empty (n : Nat) : LegsKnown { size := n } := by
  intro b
  cases b <;> exact ⟨rfl, fun j => rfl⟩

lemma ofGadgets_induction {p : PhaseCircuit → Prop} (h : ofGadgets n gs = .ok c)
    (hempty : p { size := n })
    (hpush : ∀ g ∈ gs, ∀ d, p d → p (d.push g (cellOf n g).column (cellOf n g).angle)) : p c := by
  rw [ofGadgets] at h
  split at h
  · cases h
  · cases h
  · cases h
    exact foldlRecOn gs _ hempty fun d hd g hg => hpush g hg d hd

lemma ofGadgets_legsKnown (h : ofGadgets n gs = .ok c)
    (hgs : ∀ g ∈ gs, LegsOn n g.legs ∧ g.legs.Pairwise (· < ·)) : c.LegsKnown := by
  refine ofGadgets_induction h (legsKnown_empty n) fun g hg d hd => ?_
  obtain ⟨hlegs, hsorted⟩ := hgs g hg
  exact push_legsKnown hd (congrArg Gadget.legs (cellOf_gadget hlegs hsorted)) _

def countWeight : Except Error Nat → ℕ∞
  | .ok k => k
  | .error _ => ⊤

lemma countWeight_eq {x : Except Error Nat} {k : Nat} : countWeight x = k ↔ x = .ok k := by
  cases x with
  | error e => simp [countWeight]
  | ok m => simp [countWeight]

lemma countWeight_add (x y : Except Error Nat) :
    countWeight (do let a ← x; return a + (← y)) = countWeight x + countWeight y := by
  cases x with
  | error e => exact (top_add _).symm
  | ok a =>
    cases y with
    | error e => exact (add_top _).symm
    | ok b => exact Nat.cast_add a b

lemma countWeight_foldlM (f : Nat → Except Error Nat) (xs : List Nat) (m : Nat) :
    countWeight (xs.foldlM (fun n j => do return n + (← f j)) m) =
      m + (xs.map fun j => countWeight (f j)).sum := by
  induction xs generalizing m with
  | nil => exact (add_zero _).symm
  | cons x xs ih =>
    rw [foldlM_cons, map_cons, sum_cons]
    cases hx : f x with
    | error e =>
      rw [countWeight, top_add, add_top]
      rfl
    | ok a =>
      rw [countWeight, ← add_assoc, ← Nat.cast_add]
      exact ih (m + a)

def treeCount [GraphLibrary] (t : Topology) (legs : List Int) : Except Error Nat :=
  if legs.length ≤ 1 then .ok 0
  else (t.steinerTree (Gadget.terminals legs) []).map fun g => g.edges.length

def treeWeight [GraphLibrary] (t : Topology) (legs : List Int) : ℕ∞ :=
  countWeight (treeCount t legs)

lemma columnCount_weight [GraphLibrary] (c : PhaseCircuit) (t : Topology) (b : Basis) (j : Nat) :
    countWeight (c.columnCount t b j) =
      turnWeight (treeWeight t) (legsAt (c.table b) j) (c.columnAngle b j) := by
  rw [columnCount, turnWeight, treeWeight, treeCount, columnAngle]
  split_ifs <;> simp_all [countWeight]

lemma cells_eq_map_places (hc : c.WellFormed) :
    c.cells = c.places.map fun p => ⟨p.1, c.columnAngle p.1 p.2, (c.table p.1).column p.2⟩ := by
  apply ext_getElem?
  intro i
  rw [getElem?_map]
  cases hp : c.places[i]? with
  | none => simp [cells, getElem?_zipWith, hp]
  | some p =>
    have hi : i < c.numGadgets := by
      rw [numGadgets, ← hc.places_length]
      exact (List.getElem?_eq_some_iff.mp hp).1
    have ha : c.angles[i]? = some c.angles[i] := getElem?_eq_getElem hi
    rw [cells_getElem? c hp ha, Option.map_some, columnAngle, (hc.position p.1 p.2 i).mpr hp,
      Option.bind_some, ha, Option.getD_some]

lemma places_perm (hc : c.WellFormed) :
    c.places.Perm ((range c.z.columns.length).map (Prod.mk .z) ++
      (range c.x.columns.length).map (Prod.mk .x)) := by
  refine (perm_ext_iff_of_nodup hc.places_nodup ?_).mpr ?_
  · refine nodup_append.mpr ⟨?_, ?_, ?_⟩
    · exact nodup_range.map fun _ _ h => (Prod.mk.inj h).2
    · exact nodup_range.map fun _ _ h => (Prod.mk.inj h).2
    · simp
  · rintro ⟨b, j⟩
    have hmem : (b, j) ∈ c.places ↔ j < (c.table b).columns.length := by
      rw [hc.columns_length, mem_iff_getElem?]
      constructor
      · rintro ⟨i, hi⟩
        exact (List.getElem?_eq_some_iff.mp ((hc.position b j i).mpr hi)).1
      · intro hj
        exact ⟨_, (hc.position b j _).mp (getElem?_eq_getElem hj)⟩
    rw [hmem]
    cases b <;> simp [table]

lemma cxCount_weight [GraphLibrary] (hc : c.WellFormed) (hk : c.LegsKnown) (t : Topology) :
    countWeight (c.cxCount t) = totalWeight (treeWeight t) (c.cells.map Cell.gadget) := by
  have htable : ∀ b, countWeight (c.tableCount t b) =
      (((range (c.table b).columns.length).map (Prod.mk b)).map fun p =>
        turnWeight (treeWeight t) (legsAt (c.table p.1) p.2) (c.columnAngle p.1 p.2)).sum := by
    intro b
    rw [tableCount, countWeight_foldlM, map_map]
    simp [columnCount_weight, comp_def]
  rw [cxCount, countWeight_add, htable, htable, ← sum_append, ← map_append,
    totalWeight, cells_eq_map_places hc, map_map, map_map]
  refine ((places_perm hc).symm.map _).sum_eq.trans ?_
  refine congrArg List.sum (map_congr_left fun p _ => ?_)
  simp only [(hk p.1).legs, comp_apply, Cell.gadget]

lemma totalWeight_cellOf (hgs : ∀ g ∈ gs, LegsOn n g.legs ∧ g.legs.Pairwise (· < ·)) :
    totalWeight w ((gs.map (cellOf n)).map Cell.gadget) = totalWeight w gs := by
  rw [totalWeight, map_map, map_map, totalWeight]
  refine congrArg List.sum (map_congr_left fun g hg => ?_)
  simp only [comp_apply, cellOf_gadget (hgs g hg).1 (hgs g hg).2, turnWeight_reduceAngle]

/-- The count of a simplified circuit is at most that of the circuit made again of the same gadgets. This
is the count of the circuit itself, if it remembers the legs that its columns have. Whatever trees are
found, their sizes are only compared for the same legs. -/
theorem simplified_cxCount_le [GraphLibrary] {c : PhaseCircuit} (hc : c.WellFormed)
    (hnum : ∀ a ∈ c.angles, a.isAngle = true) (t : Topology) :
    ∃ d e, c.simplified = .ok d ∧ c.cloned = .ok e ∧
      (∀ k, e.cxCount t = .ok k → ∃ k' ≤ k, d.cxCount t = .ok k') ∧
      (c.LegsKnown → ∀ k, c.cxCount t = .ok k ↔ e.cxCount t = .ok k) := by
  have hgs := gadgets_numeric hc hnum
  have hlegs : ∀ g ∈ c.cells.map Cell.gadget, LegsOn c.size g.legs ∧ g.legs.Pairwise (· < ·) := by
    intro g hg
    refine ⟨(hgs g hg).1, ?_⟩
    obtain ⟨k, -, rfl⟩ := mem_map.mp hg
    exact gadget_legs_sorted k
  obtain ⟨groups, s, d, hcollect, hstart, hmove, hsettled, hd, hmade, hw, -, hcells⟩ :=
    simplified_settled hc hnum
  have hdk : d.LegsKnown := ofGadgets_legsKnown hmade fun g hg =>
    ⟨(outcome_legs hsettled g hg).1, (outcome_legs hsettled g hg).2.1⟩
  obtain ⟨e, he, hew, -, hecells⟩ := ofGadgets_ok (n := c.size)
    fun g hg => (hgs g hg).1.fits
  have hek := ofGadgets_legsKnown he hlegs
  have hclone : countWeight (e.cxCount t) =
      totalWeight (treeWeight t) (c.cells.map Cell.gadget) := by
    rw [cxCount_weight hew hek, hecells, totalWeight_cellOf hlegs]
  -- as weights, since the count of the simplified circuit is not known to succeed yet
  have hle : countWeight (d.cxCount t) ≤ countWeight (e.cxCount t) := by
    rw [cxCount_weight hw hdk, hcells, hclone]
    calc totalWeight (treeWeight t) (s.outcome c.size)
        ≤ groupsWeight (treeWeight t) s.groups := s.totalWeight_outcome_le
      _ ≤ groupsWeight (treeWeight t) groups := Simplifier.moveAll_weight_le hstart.valid hmove
      _ ≤ totalWeight (treeWeight t) ((c.cells.map Cell.gadget).filter fun g => !g.angle.isZero) :=
          Simplifier.collectAll_weight_le (fun g hg => hgs g (mem_filter.mp hg).1) hcollect
      _ ≤ totalWeight (treeWeight t) (c.cells.map Cell.gadget) :=
        (filter_sublist.map _).sum_le_sum fun _ _ => zero_le
  refine ⟨d, e, hd, ?_, fun k hk => ?_, fun hknown k => ?_⟩
  · rw [cloned, rebuilt, gadgets_eq hc, ok_bind]
    exact he
  · rw [countWeight_eq.mpr hk] at hle
    obtain ⟨k', hk'⟩ := ENat.ne_top_iff_exists.mp (ne_top_of_le_ne_top (ENat.natCast_ne_top k) hle)
    rw [← hk'] at hle
    exact ⟨k', Nat.cast_le.mp hle, countWeight_eq.mp hk'.symm⟩
  · rw [← countWeight_eq, ← countWeight_eq, hclone, cxCount_weight hc hknown]

def crossedLine : Topology where
  size := 3
  couplings := [(0, 1), (1, 2)]

def crossedPair : PhaseCircuit :=
  ((({ size := 3 } : PhaseCircuit).push { basis := .z, angle := .angle ⟨1 / 4⟩, legs := [0, 2] }
    [true, false, true] (.angle ⟨1 / 4⟩)).push { basis := .x, angle := .angle Angle.pi, legs := [0] }
    [true, false, false] (.angle Angle.pi)).conjugate 0 1

theorem crossedPair_cxCount :
    crossedPair.WellFormed ∧ (∀ a ∈ crossedPair.angles, a.isAngle = true) ∧ crossedPair.LegsKnown ∧
    ∃ d e, crossedPair.simplified = .ok d ∧ crossedPair.cloned = .ok e ∧
      (∀ k, e.cxCount crossedLine = .ok k → ∃ k' ≤ k, d.cxCount crossedLine = .ok k') ∧
      (crossedPair.LegsKnown →
        ∀ k, crossedPair.cxCount crossedLine = .ok k ↔ e.cxCount crossedLine = .ok k) := by
  have hwell : crossedPair.WellFormed := by
    refine conjugate_wellFormed (g := (0, 1)) ?_ ?_ <;> simp
  have hnum : ∀ a ∈ crossedPair.angles, a.isAngle = true := by
    intro a ha
    have hangles : crossedPair.angles = [.angle ⟨1 / 4⟩, .angle Angle.pi] := rfl
    rw [hangles] at ha
    simp only [mem_cons, not_mem_nil, or_false] at ha
    rcases ha with rfl | rfl <;> rfl
  have hknown : crossedPair.LegsKnown :=
    conjugate_legsKnown (push_legsKnown (push_legsKnown (legsKnown_empty 3) rfl _) rfl _) (by decide)
  exact ⟨hwell, hnum, hknown, simplified_cxCount_le hwell hnum crossedLine⟩

def wrappedLeg : Gadget where
  basis := .z
  angle := .angle ⟨1 / 4⟩
  legs := [-1, 0]

/-- Legs that count from the end are remembered so, and cost nothing until the circuit is simplified. -/
theorem wrappedLeg_cxCount :
    ∃ c d, ({ size := 2 } : PhaseCircuit).add wrappedLeg = .ok c ∧ c.WellFormed ∧
      (∀ a ∈ c.angles, a.isAngle = true) ∧ c.simplified = .ok d ∧
      c.cxCount { size := 2, couplings := [(0, 1)] } = .ok 0 ∧
      d.cxCount { size := 2, couplings := [(0, 1)] } = .ok 1 := by
  refine ⟨({ size := 2 } : PhaseCircuit).push wrappedLeg [true, true] wrappedLeg.angle,
    ({ size := 2 } : PhaseCircuit).push { wrappedLeg with legs := [0, 1] } [true, true]
      wrappedLeg.angle, rfl, ?_, ?_, ?_, by cbv, by cbv⟩
  · simp
  · intro a ha
    have hangles : (({ size := 2 } : PhaseCircuit).push wrappedLeg [true, true]
        wrappedLeg.angle).angles = [.angle ⟨1 / 4⟩] := rfl
    rw [hangles, mem_singleton] at ha
    rw [ha]
    rfl
  · cbv

end PhaseCircuit

end GadgetCircuits
