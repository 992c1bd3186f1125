import GadgetCircuits.Proofs.CircuitSteps
import GadgetCircuits.Proofs.GroupRuns

/-!
Simplifying a circuit a second time. The half turns in front of a simplified circuit are collected like all
other gadgets. In the first run of their basis they are pulled out again unless they meet a gadget on the
same legs; in groups of their own they make every run go on to the group two before it.
-/

namespace GadgetCircuits

open List AngleExpr PhaseCircuit GadgetGroup

variable {n : Nat}

lemma flatMap_range_two {α : Type} (f : Nat → List α) (m : Nat) :
    (range (m + 2)).flatMap f = f 0 ++ f 1 ++ (range m).flatMap fun k => f (k + 2) := by
  rw [range_succ_eq_map, range_succ_eq_map]
  simp [flatMap_map]

lemma flatMap_range_inj {α : Type} {f g : Nat → List α} (hlength : ∀ k, (f k).length = (g k).length)
    {m : Nat} (h : (range m).flatMap f = (range m).flatMap g) : ∀ k < m, f k = g k := by
  induction m with
  | zero => exact fun k hk => absurd hk (Nat.not_lt_zero k)
  | succ m ih =>
    rw [range_succ, flatMap_append, flatMap_append, flatMap_singleton, flatMap_singleton] at h
    obtain ⟨hinit, hlast⟩ := append_inj' h (hlength m)
    grind

lemma eq_of_map_eq {α β : Type} {f : α → β} {xs ys : List α} (h : xs.map f = ys.map f)
    (hinj : ∀ x ∈ xs, ∀ y ∈ ys, f x = f y → x = y) : xs = ys := by
  have hlength : xs.length = ys.length := by simpa using congrArg List.length h
  refine ext_getElem hlength fun i hi hi' => ?_
  refine hinj _ (getElem_mem hi) _ (getElem_mem hi') ?_
  have hget := congrArg (fun l : List β => l[i]?) h
  simpa [hi, hi'] using hget

/-- The gadgets on legs of an earlier run come first, in the order that they have there. -/
def Follows (run next : List Gadget) : Prop :=
  next.map Gadget.legs = (run.map Gadget.legs).filter (fun legs => (next.map Gadget.legs).contains legs) ++
    (next.map Gadget.legs).filter fun legs => !(run.map Gadget.legs).contains legs

lemma follows_iff {run next : List Gadget} : Follows run next ↔
    next.map Gadget.legs = (run.map Gadget.legs).filter (· ∈ next.map Gadget.legs) ++
      (next.map Gadget.legs).filter (· ∉ run.map Gadget.legs) := by
  simp only [Follows, contains_eq_mem, decide_not]

/-- When a second pass changes nothing: no two gadgets of a run have the same legs, and where the half turns
about X are a run of their own, each run keeps to the order of the run two before it. -/
structure Steady (zs xs rest : List Gadget) : Prop where
  distinct : ∀ run ∈ runs (zs ++ xs ++ rest), (run.map Gadget.legs).Nodup
  aligned : xs ∈ runs (zs ++ xs ++ rest) → ∀ (k : Nat) (run next : List Gadget),
    (runs (zs ++ xs ++ rest))[k]? = some run → (runs (zs ++ xs ++ rest))[k + 2]? = some next →
      Follows run next

lemma AngleExpr.turn?_reduceAngle {a : AngleExpr} (ha : a.isAngle) :
    (reduceAngle a).turn? = a.turn? := by
  cases a with
  | angle a => simp [reduceAngle, turn?, isZero, isPi, Angle.isZero, Angle.isPi]
  | _ => simp [isAngle] at ha

lemma AngleExpr.isZero_of_turn? {a : AngleExpr} {b : Bool} (h : a.turn? = some b) :
    a.isZero = false := by
  rw [turn?] at h
  cases hz : a.isZero with
  | false => rfl
  | true => simp [hz] at h

namespace Simplifier

variable {M : Nat}
variable {g : Gadget} {k : Nat} {s t : Simplifier}

lemma leftAt_legs (s : Simplifier) (k : Nat) :
    (s.leftAt k).map Gadget.legs = (s.keysAt k).filter fun legs => (s.turnAt k legs).isSome := by
  rw [leftAt, map_filterMap, ← filterMap_eq_filter]
  have hleft : ∀ (legs : List Int) (o : Option AngleExpr),
      (o.bind (standing (basisAt k) legs)).map Gadget.legs =
        Option.guard (fun _ => (o.bind turn?).isSome) legs := by
    intro legs o
    cases o with
    | none => rfl
    | some a =>
      simp only [Option.bind_some, standing, turn?]
      cases a.isZero <;> rfl
  exact filterMap_congr fun legs _ => hleft legs (s.angleAt k legs)

lemma mem_leftAt : g ∈ s.leftAt k ↔ ∃ legs a, s.angleAt k legs = some a ∧ a.isZero = false ∧
      g = { basis := basisAt k, angle := reduceAngle a, legs } := by
  rw [leftAt, mem_filterMap]
  constructor
  · rintro ⟨legs, -, h⟩
    obtain ⟨a, ha, hg⟩ := Option.bind_eq_some_iff.mp h
    rw [standing] at hg
    grind
  · rintro ⟨legs, a, ha, hz, rfl⟩
    refine ⟨legs, mem_keysAt.mpr (by rw [ha]; rfl), ?_⟩
    rw [ha, Option.bind_some, standing, hz, if_neg Bool.false_ne_true]

/-- What is left of the groups: stored gadgets that are no half turns, on different legs in each group, and
from the third group on with an obstacle in the group before. -/
structure Left (n : Nat) (B : Nat → List Gadget) : Prop where
  legsOn : ∀ k, ∀ g ∈ B k, LegsOn n g.legs ∧ g.angle.isAngle = true
  stored : ∀ k, ∀ g ∈ B k,
    g = { basis := basisAt k, angle := reduceAngle g.angle, legs := g.legs }
  turn : ∀ k, ∀ g ∈ B k, g.angle.turn? = some false
  distinct : ∀ k, ((B k).map Gadget.legs).Nodup
  obstacle : ∀ k, ∀ g ∈ B (k + 2), ∃ h ∈ B (k + 1), oddOverlap g.legs h.legs = true

lemma Settled.left (hs : s.Settled n s.groups.length []) : Left n s.leftAt where
  legsOn := by
    intro k g hg
    obtain ⟨legs, a, ha, -, rfl⟩ := mem_leftAt.mp hg
    obtain ⟨h, hh, hha⟩ := Option.bind_eq_some_iff.mp ha
    obtain ⟨hlegs, hangle⟩ := legsOn_of_angle? (hs.valid k h hh).2 hha
    exact ⟨hlegs, isAngle_reduceAngle hangle⟩
  stored := by
    intro k g hg
    obtain ⟨legs, a, -, -, rfl⟩ := mem_leftAt.mp hg
    cases a <;> simp [reduceAngle]
  turn := by
    intro k g hg
    obtain ⟨legs, a, ha, hz, rfl⟩ := mem_leftAt.mp hg
    obtain ⟨h, hh, hha⟩ := Option.bind_eq_some_iff.mp ha
    have hangle := (legsOn_of_angle? (hs.valid k h hh).2 hha).2
    have hhalf := hs.noHalf k legs (.inl (List.getElem?_eq_some_iff.mp hh).1)
    rw [turnAt, ha, Option.bind_some] at hhalf
    rw [turn?_reduceAngle hangle]
    rw [turn?, hz, if_neg Bool.false_ne_true] at hhalf ⊢
    simpa using hhalf
  distinct := by
    intro k
    rw [leftAt_legs]
    exact (keysAt_nodup hs.valid k).filter _
  obstacle := by
    intro k g hg
    obtain ⟨legs, a, ha, hz, rfl⟩ := mem_leftAt.mp hg
    obtain ⟨h, hh, -⟩ := Option.bind_eq_some_iff.mp ha
    have hlive : (s.turnAt (k + 2) legs).isSome := by
      simp [turnAt, ha, turn?, hz]
    obtain ⟨legs', hlive', hodd⟩ :=
      hs.blocked k legs (.inl (List.getElem?_eq_some_iff.mp hh).1) hlive
    have hmem : legs' ∈ (s.leftAt (k + 1)).map Gadget.legs := by
      rw [leftAt_legs, mem_filter]
      exact ⟨mem_keysAt.mpr (angleAt_isSome_of_turnAt hlive'), hlive'⟩
    obtain ⟨h, hh, rfl⟩ := mem_map.mp hmem
    exact ⟨h, hh, hodd⟩

variable {B : Nat → List Gadget} (p : Basis → List Int)

lemma Left.standing_self (hB : Left n B) (hg : g ∈ B k) :
    standing (basisAt k) g.legs g.angle = some g := by
  rw [standing, isZero_of_turn? (hB.turn k g hg), if_neg Bool.false_ne_true, ← hB.stored k g hg]

lemma Left.next (hB : Left n B) (h : B (k + 1) = []) : B (k + 2) = [] := by
  refine eq_nil_iff_forall_not_mem.mpr fun g hg => ?_
  obtain ⟨h', hh', -⟩ := hB.obstacle k g hg
  rw [h] at hh'
  cases hh'

lemma Left.nil_of_second (hB : Left n B) (h : B 1 = []) (k : Nat) : B (k + 1) = [] := by
  induction k with
  | zero => exact h
  | succ k ih => exact hB.next ih

lemma oddQubits_oddQubits (pulled : List Int) :
    oddQubits n (oddQubits n pulled) = oddQubits n pulled := by
  refine congrArg (List.map Int.ofNat) (filter_congr fun q hq => ?_)
  have hmem : (q : Int) ∈ oddQubits n pulled ↔ _ := mem_oddQubits (mem_range.mp hq)
  by_cases hodd : pulled.count (q : Int) % 2 = 1
  · rw [count_eq_one_of_mem (oddQubits_nodup pulled) (hmem.mpr hodd), hodd]
  · rw [count_eq_zero_of_not_mem fun h => hodd (hmem.mp h)]
    simp [hodd]

lemma piGates_flatten (b : Basis) (pulled : List Int) :
    ((piGates b n pulled).map Gadget.legs).flatten = oddQubits n pulled := by
  rw [piGates_eq, map_map, ← flatMap_def]
  exact flatMap_singleton' _

lemma mem_of_mem_oddQubits {pulled : List Int} {q : Int} (hq : q ∈ oddQubits n pulled) : q ∈ pulled := by
  obtain ⟨i, hi, rfl⟩ := mem_map.mp hq
  grind

def halves (n : Nat) (p : Basis → List Int) : Nat → List Gadget
  | 0 => piGates .z n (p .z)
  | 1 => piGates .x n (p .x)
  | _ + 2 => []

lemma halves_firstOf (n : Nat) (p : Basis → List Int) (b : Basis) :
    halves n p (firstOf b) = piGates b n (p b) := by
  cases b <;> rfl

lemma halves_pulled {p q : Basis → List Int}
    (h : ∀ b, q b = ((halves n p (firstOf b)).map Gadget.legs).flatten) : halves n q = halves n p := by
  have hpi : ∀ b, piGates b n (q b) = piGates b n (p b) := by
    intro b
    rw [h, halves_firstOf, piGates_flatten, piGates_eq, oddQubits_oddQubits, piGates_eq]
  funext k
  match k with
  | 0 => exact hpi .z
  | 1 => exact hpi .x
  | k + 2 => rfl

lemma mem_piGates {b : Basis} {pulled : List Int} (hg : g ∈ piGates b n pulled) :
    (LegsOn n g.legs ∧ g.angle.isAngle) ∧ g.angle.turn? = some true ∧ g.basis = b := by
  refine ⟨piGates_legs hg, ?_⟩
  obtain ⟨q, -, rfl⟩ := mem_map.mp hg
  exact ⟨(turn?_eq_true_iff rfl).mpr (Angle.isPi_iff.mpr ⟨0, by simp [Angle.pi]⟩), rfl⟩

lemma mem_halves {p : Basis → List Int} (hg : g ∈ halves n p k) :
    (LegsOn n g.legs ∧ g.angle.isAngle) ∧ g.angle.turn? = some true ∧ g.basis = basisAt k := by
  match k with
  | 0 => exact mem_piGates hg
  | 1 => exact mem_piGates hg
  | k + 2 => cases hg

lemma halves_distinct (k : Nat) : ((halves n p k).map Gadget.legs).Nodup := by
  have hpi : ∀ b pulled, ((piGates b n pulled).map Gadget.legs).Nodup := by
    intro b pulled
    rw [piGates_eq, map_map]
    exact (oddQubits_nodup pulled).map fun q r h => singleton_inj.mp h
  match k with
  | 0 => exact hpi _ _
  | 1 => exact hpi _ _
  | k + 2 => exact nodup_nil

/-- The runs where the half turns come into the first runs of their basis. -/
def fronted (n : Nat) (p : Basis → List Int) (B : Nat → List Gadget) (k : Nat) : List Gadget :=
  halves n p k ++ B k

/-- The runs where the half turns are runs of their own. -/
def preceded (n : Nat) (p : Basis → List Int) (B : Nat → List Gadget) : Nat → List Gadget
  | 0 => halves n p 0
  | 1 => halves n p 1
  | k + 2 => B k

variable {p} (hB : Left n B) (hM : ∀ k, M ≤ k → B k = []) (htwo : 2 ≤ M)
  (hcase : halves n p 1 = [] ∨ B 0 = []) (hx : halves n p 1 ≠ []) (hz : B 0 ≠ [])
variable {groups : List GadgetGroup}

include hB hM htwo in
lemma fronted_alternating : Alternating (fronted n p B) M where
  basis := by
    intro k g hg
    rcases mem_append.mp hg with hg | hg
    · exact (mem_halves hg).2.2
    · rw [hB.stored k g hg]
  next := by
    intro k hk
    exact hB.next (append_eq_nil_iff.mp hk).2
  finite := by
    intro k hk
    obtain ⟨j, rfl⟩ := Nat.exists_eq_add_of_le' (Nat.le_trans htwo hk)
    exact hM _ hk

include hB hM hx hz in
lemma preceded_alternating : Alternating (preceded n p B) (M + 2) where
  basis := by
    intro k g hg
    match k with
    | 0 => exact (mem_halves hg).2.2
    | 1 => exact (mem_halves hg).2.2
    | k + 2 => rw [hB.stored k g hg, basisAt_add_two]
  next := by
    intro k hk
    match k with
    | 0 => exact absurd hk hx
    | 1 => exact absurd hk hz
    | k + 2 => exact hB.next hk
  finite := by
    intro k hk
    match k with
    | 0 | 1 => omega
    | k + 2 => exact hM k (by omega)

include htwo hcase in
lemma flatMap_fronted : (List.range M).flatMap (fronted n p B) =
      halves n p 0 ++ halves n p 1 ++ (List.range M).flatMap B := by
  obtain ⟨m, rfl⟩ := Nat.exists_eq_add_of_le' htwo
  rw [flatMap_range_two, flatMap_range_two]
  have hnone : ∀ k, halves n p (k + 2) = [] := fun _ => rfl
  rcases hcase with h | h <;> simp [fronted, hnone, h]

lemma flatMap_preceded : (range (M + 2)).flatMap (preceded n p B) =
    halves n p 0 ++ halves n p 1 ++ (range M).flatMap B :=
  flatMap_range_two _ _

lemma outcome_eq (hs : GroupsValid n s.groups) (hM : s.groups.length ≤ M) :
    s.outcome n = halves n s.pis 0 ++ halves n s.pis 1 ++ (range M).flatMap s.leftAt := by
  rw [outcome, flatMap_remaining hs hM]
  rfl

lemma Settled.outcome_turns (hs : s.Settled n s.groups.length []) :
    ∀ g ∈ s.outcome n, g.angle.isAngle ∧ g.angle.isZero = false := by
  intro g hg
  rw [outcome_eq hs.valid le_rfl, mem_append, mem_append, mem_flatMap] at hg
  rcases hg with (hg | hg) | ⟨k, -, hg⟩
  · exact ⟨(mem_halves hg).1.2, isZero_of_turn? (mem_halves hg).2.1⟩
  · exact ⟨(mem_halves hg).1.2, isZero_of_turn? (mem_halves hg).2.1⟩
  · exact ⟨(hs.left.legsOn k g hg).2, isZero_of_turn? (hs.left.turn k g hg)⟩

structure InFront (n : Nat) (p : Basis → List Int) (B : Nat → List Gadget) (s : Simplifier) : Prop where
  keys : ∀ k, s.keysAt k = (halves n p k).map Gadget.legs ++
    ((B k).map Gadget.legs).filter (· ∉ (halves n p k).map Gadget.legs)
  angle : ∀ k, ∀ h ∈ B k, h.legs ∉ (halves n p k).map Gadget.legs → s.angleAt k h.legs = some h.angle

/-- The groups of the runs where half turns stand before other gadgets. -/
structure Fronts (n : Nat) (p : Basis → List Int) (B : Nat → List Gadget) (s : Simplifier) : Prop
    extends InFront n p B s where
  valid : GroupsValid n s.groups
  turn : ∀ k legs, s.turnAt k legs = if legs ∈ (B k).map Gadget.legs then some false
    else if legs ∈ (halves n p k).map Gadget.legs then some true else none
  pis : ∀ b, s.pis b = []

include hB hM htwo in
lemma collect_fronted :
    ∃ groups, ((List.range M).flatMap (fronted n p B)).foldlM collect [{ basis := .z }] = .ok groups ∧
      Fronts n p B { groups } := by
  have hgroups := fun k => fuseAll_halfTurns (basisAt k) (halves n p k) (B k)
    (fun h hh => (mem_halves hh).1) (halves_distinct p k) (hB.legsOn k) (hB.distinct k)
    (fun h hh => (mem_halves hh).2.1) (hB.turn k)
  choose G hG hvalid hkeys hangle hturn using hgroups
  obtain ⟨groups, hcollect, hshows, -⟩ := collected_shows (fronted_alternating hB hM htwo) hG hvalid
  refine ⟨groups, hcollect, ⟨fun k => ?_, fun k h hh hnot => ?_⟩, hshows.valid, fun k legs => ?_, hshows.pis⟩
  · rw [hshows.keys, hkeys]
  · rw [hshows.angle, hangle k h hh hnot]
  · rw [turnAt, hshows.angle, hturn]

/-- The same groups once the half turns that met no gadget have been pulled out. -/
structure Cleared (n : Nat) (p : Basis → List Int) (B : Nat → List Gadget) (t : Simplifier) : Prop
    extends InFront n p B t where
  gone : ∀ k legs, legs ∉ (B k).map Gadget.legs → t.turnAt k legs = none
  pis : ∀ b, t.pis b = (((halves n p (firstOf b)).map Gadget.legs).filter
    (· ∉ (B (firstOf b)).map Gadget.legs)).flatten

lemma Fronts.halfKeys (hs : Fronts n p B s) (k : Nat) :
    s.halfKeys k = ((halves n p k).map Gadget.legs).filter (· ∉ (B k).map Gadget.legs) := by
  have hnone : (((B k).map Gadget.legs).filter (· ∉ (halves n p k).map Gadget.legs)).filter
      (fun legs => s.turnAt k legs == some true) = [] := by
    refine filter_eq_nil_iff.mpr fun legs hmem => ?_
    rw [hs.turn, if_pos (mem_filter.mp hmem).1]
    simp
  rw [Simplifier.halfKeys, hs.keys, filter_append, hnone, append_nil]
  refine filter_congr fun legs hmem => ?_
  rw [hs.turn]
  grind

include hB hcase in
lemma Fronts.moveAll (hs : Fronts n p B s) : ∃ t, s.moveAll = .ok t ∧ Cleared n p B t := by
  have hstop : ∀ k, ∀ legs ∈ s.keysAt (k + 2), ∃ legs', s.turnAt (k + 1) legs' = some false ∧
      oddOverlap legs legs' := by
    intro k legs hmem
    rw [hs.keys] at hmem
    obtain ⟨g, hg, rfl⟩ := mem_map.mp (mem_filter.mp hmem).1
    obtain ⟨h, hh, hodd⟩ := hB.obstacle k g hg
    exact ⟨h.legs, by rw [hs.turn, if_pos (mem_map_of_mem hh)], hodd⟩
  have hhalf : ∀ k legs, s.turnAt (k + 2) legs ≠ some true := by
    intro k legs
    rw [hs.turn]
    by_cases hmem : legs ∈ (B (k + 2)).map Gadget.legs <;> simp [hmem, halves]
  -- there are half turns in the second group only if nothing follows them in the first
  have hcross : ∀ legs, s.turnAt 1 legs = some true →
      ∀ legs' ∈ s.keysAt 0, s.turnAt 0 legs' = some true := by
    intro legs htrue legs' hmem
    have hx : legs ∈ (halves n p 1).map Gadget.legs := by
      by_contra hnot
      rw [hs.turn, if_neg hnot] at htrue
      split at htrue <;> cases htrue
    have hz : B 0 = [] := by
      refine hcase.resolve_left fun hnil => ?_
      rw [hnil] at hx
      cases hx
    rw [hs.keys, hz, map_nil, filter_nil, append_nil] at hmem
    rw [hs.turn, hz, map_nil, if_neg not_mem_nil, if_pos hmem]
  obtain ⟨t, hmove, ht⟩ := moveAll_inPlace hcross hs.valid hstop hhalf
  refine ⟨t, hmove, ⟨fun k => ?_, fun k h hh hnot => ?_⟩, fun k legs hnot => ?_, fun b => ?_⟩
  · rw [ht.keys, hs.keys]
  · rw [ht.angle, hs.turn, if_pos (mem_map_of_mem hh), if_neg (by simp), hs.angle k h hh hnot]
  · rw [turnAt, ht.angle]
    by_cases hmem : legs ∈ (halves n p k).map Gadget.legs
    · rw [if_pos (by rw [hs.turn, if_neg hnot, if_pos hmem])]
      exact turn?_zero
    · have hnone : s.turnAt k legs = none := by rw [hs.turn, if_neg hnot, if_neg hmem]
      rw [hnone, if_neg (by simp), ← turnAt, hnone]
  · rw [ht.pis, hs.pis, nil_append, hs.halfKeys]

lemma standing_of_turnAt_none {legs : List Int} (h : s.turnAt k legs = none) (b : Basis) :
    (s.angleAt k legs).bind (standing b legs) = none := by
  rw [turnAt] at h
  cases ha : s.angleAt k legs with
  | none => rfl
  | some a =>
    rw [ha, Option.bind_some, turn?] at h
    rw [Option.bind_some, standing]
    split at h
    · rename_i hz
      rw [if_pos hz]
    · cases h

include hB in
lemma Cleared.leftAt_eq (ht : Cleared n p B t)
    (hk : ∀ legs ∈ (halves n p k).map Gadget.legs, legs ∉ (B k).map Gadget.legs) :
    t.leftAt k = B k := by
  have hgone : ((halves n p k).map Gadget.legs).filterMap
      (fun legs => (t.angleAt k legs).bind (standing (basisAt k) legs)) = [] :=
    filterMap_eq_nil_iff.mpr fun legs hmem =>
      standing_of_turnAt_none (ht.gone k legs (hk legs hmem)) _
  have hall : ((B k).map Gadget.legs).filter (· ∉ (halves n p k).map Gadget.legs) =
      (B k).map Gadget.legs :=
    filter_eq_self.mpr fun legs hmem => decide_eq_true fun hmem' => hk legs hmem' hmem
  rw [leftAt, ht.keys, hall, filterMap_append, hgone, nil_append, filterMap_map]
  refine (filterMap_congr fun h hh => ?_).trans filterMap_some
  have hnot : h.legs ∉ (halves n p k).map Gadget.legs := fun hmem =>
    hk h.legs hmem (mem_map_of_mem hh)
  rw [Function.comp_apply, ht.angle k h hh hnot, Option.bind_some, hB.standing_self hh]

lemma Cleared.disjoint (ht : Cleared n p B t) (hsame : ∀ b, oddQubits n (t.pis b) = oddQubits n (p b))
    (k : Nat) : ∀ legs ∈ (halves n p k).map Gadget.legs, legs ∉ (B k).map Gadget.legs := by
  have hmeet : ∀ b, ∀ legs ∈ (halves n p (firstOf b)).map Gadget.legs,
      legs ∉ (B (firstOf b)).map Gadget.legs := by
    intro b legs hmem hmem'
    rw [halves_firstOf, piGates_eq, map_map] at hmem
    obtain ⟨q, hq, rfl⟩ := mem_map.mp hmem
    rw [← hsame b] at hq
    have hpulled := mem_of_mem_oddQubits hq
    rw [ht.pis] at hpulled
    obtain ⟨legs, hlegs, hqlegs⟩ := mem_flatten.mp hpulled
    obtain ⟨hlegs, hnot⟩ := mem_filter.mp hlegs
    rw [halves_firstOf, piGates_eq, map_map] at hlegs
    obtain ⟨r, -, rfl⟩ := mem_map.mp hlegs
    obtain rfl : q = r := mem_singleton.mp hqlegs
    exact of_decide_eq_true hnot hmem'
  match k with
  | 0 => exact hmeet .z
  | 1 => exact hmeet .x
  | k + 2 => exact fun legs hmem => absurd hmem not_mem_nil

include hB in
lemma filter_halves (M : Nat) (b : Basis) :
    (halves n p 0 ++ halves n p 1 ++ (List.range M).flatMap B).filter
      (fun g => g.angle.turn? == some true && g.basis == b) = halves n p (firstOf b) := by
  have hhalves : ∀ k, (halves n p k).filter (fun g => g.angle.turn? == some true && g.basis == b) =
      if basisAt k = b then halves n p k else [] := by
    intro k
    split
    · rename_i hk
      refine filter_eq_self.mpr fun g hg => ?_
      simp [mem_halves hg, hk]
    · rename_i hk
      refine filter_eq_nil_iff.mpr fun g hg => ?_
      simp [mem_halves hg, hk]
  have hrest : ((List.range M).flatMap B).filter (fun g => g.angle.turn? == some true && g.basis == b) =
      [] := by
    refine filter_eq_nil_iff.mpr fun g hg => ?_
    obtain ⟨k, -, hk⟩ := mem_flatMap.mp hg
    simp [hB.turn k g hk]
  rw [filter_append, filter_append, hhalves, hhalves, hrest, append_nil]
  cases b <;> simp [basisAt, firstOf]

include hB in
lemma fronted_nodup_iff (k : Nat) : ((fronted n p B k).map Gadget.legs).Nodup ↔
    ∀ legs ∈ (halves n p k).map Gadget.legs, legs ∉ (B k).map Gadget.legs := by
  rw [fronted, map_append, nodup_append]
  constructor
  · rintro ⟨-, -, h⟩ legs hmem hmem'
    exact h legs hmem legs hmem' rfl
  · refine fun h => ⟨halves_distinct p k, hB.distinct k, ?_⟩
    rintro legs hmem legs' hmem' rfl
    exact h legs hmem hmem'

include hB hM htwo hcase in
/-- The second pass changes nothing if no half turn meets a gadget on the same legs. -/
theorem outcome_fronted
    (hcollect : ((List.range M).flatMap (fronted n p B)).foldlM collect [{ basis := .z }] = .ok groups)
    (hmove : moveAll { groups } = .ok t) (hset : t.Settled n t.groups.length [])
    (hlength : t.groups.length ≤ M) :
    t.outcome n = halves n p 0 ++ halves n p 1 ++ (List.range M).flatMap B ↔
      ∀ k, ((fronted n p B k).map Gadget.legs).Nodup := by
  obtain ⟨groups', hcollect', hfronts⟩ := collect_fronted (p := p) hB hM htwo
  obtain rfl := Except.ok.inj (hcollect.symm.trans hcollect')
  obtain ⟨t', hmove', ht⟩ := hfronts.moveAll hB hcase
  obtain rfl := Except.ok.inj (hmove.symm.trans hmove')
  rw [outcome_eq hset.valid hlength]
  simp only [fronted_nodup_iff hB]
  constructor
  · intro heq
    refine ht.disjoint fun b => ?_
    have h := congrArg (List.filter fun g => g.angle.turn? == some true && g.basis == b) heq
    rw [filter_halves hset.left, filter_halves hB, halves_firstOf, halves_firstOf] at h
    rw [← piGates_flatten b, ← piGates_flatten b, h]
  · intro hdisjoint
    have hpis : ∀ b, t.pis b = ((halves n p (firstOf b)).map Gadget.legs).flatten := by
      intro b
      rw [ht.pis, filter_eq_self.mpr fun legs hmem => decide_eq_true (hdisjoint _ legs hmem)]
    have hleft : t.leftAt = B := funext fun k => ht.leftAt_eq hB (hdisjoint k)
    rw [halves_pulled hpis, hleft]

lemma preceded_firstOf (n : Nat) (p : Basis → List Int) (B : Nat → List Gadget) (b : Basis) :
    preceded n p B (firstOf b) = halves n p (firstOf b) := by
  cases b <;> rfl

include hB in
lemma preceded_legsOn (k : Nat) : ∀ g ∈ preceded n p B k, LegsOn n g.legs ∧ g.angle.isAngle := by
  match k with
  | 0 => exact fun g hg => (mem_halves (p := p) (k := 0) hg).1
  | 1 => exact fun g hg => (mem_halves (p := p) (k := 1) hg).1
  | k + 2 => exact hB.legsOn k

include hB in
lemma preceded_distinct (k : Nat) : ((preceded n p B k).map Gadget.legs).Nodup := by
  match k with
  | 0 => exact halves_distinct p 0
  | 1 => exact halves_distinct p 1
  | k + 2 => exact hB.distinct k

lemma preceded_turn (hk : k < 2) : ∀ g ∈ preceded n p B k, g.angle.turn? = some true := by
  match k with
  | 0 => exact fun g hg => (mem_halves (p := p) (k := 0) hg).2.1
  | 1 => exact fun g hg => (mem_halves (p := p) (k := 1) hg).2.1
  | k + 2 => omega

/-- Every run has come to the place of the run two before it, behind the legs that were there. -/
structure Shifted (n : Nat) (p : Basis → List Int) (B : Nat → List Gadget) (t : Simplifier) : Prop where
  valid : GroupsValid n t.groups
  keys : ∀ k, t.keysAt k = (preceded n p B k).map Gadget.legs ++
    ((B k).map Gadget.legs).filter (· ∉ (preceded n p B k).map Gadget.legs)
  angle : ∀ k, ∀ h ∈ B k, t.angleAt k h.legs = some h.angle
  gone : ∀ k legs, legs ∉ (B k).map Gadget.legs → t.turnAt k legs = none
  pis : ∀ b, t.pis b = ((halves n p (firstOf b)).map Gadget.legs).flatten

include hB hM hx hz in
lemma moveAll_preceded :
    ∃ groups t, ((List.range (M + 2)).flatMap (preceded n p B)).foldlM collect [{ basis := .z }] =
      .ok groups ∧ moveAll { groups } = .ok t ∧ Shifted n p B t := by
  have hgroups := fun k => fuseAll_new (basisAt k) (preceded_legsOn (p := p) hB k)
    (preceded_distinct hB k)
  choose G hG hvalid hkeys hangle using hgroups
  obtain ⟨groups, hcollect, hshows, hlength⟩ :=
    collected_shows (preceded_alternating hB hM hx hz) hG hvalid
  have hkeysAt : ∀ k, keysAt { groups } k = (preceded n p B k).map Gadget.legs := fun k =>
    (hshows.keys k).trans (hkeys k)
  have hangleAt : ∀ k, ∀ h ∈ preceded n p B k, angleAt { groups } k h.legs = some h.angle :=
    fun k h hh => (hshows.angle k h.legs).trans (hangle k h hh)
  have hfirst : ∀ k < 2, ∀ legs ∈ keysAt { groups } k, turnAt { groups } k legs = some true := by
    intro k hk legs hmem
    rw [hkeysAt] at hmem
    obtain ⟨h, hh, rfl⟩ := mem_map.mp hmem
    rw [turnAt, hangleAt k h hh, Option.bind_some, preceded_turn hk h hh]
  have hturn : ∀ k legs a, angleAt { groups } (k + 2) legs = some a → a.turn? = some false := by
    intro k legs a ha
    have hmem : legs ∈ keysAt { groups } (k + 2) := mem_keysAt.mpr (by rw [ha]; rfl)
    rw [hkeysAt] at hmem
    obtain ⟨h, hh, rfl⟩ := mem_map.mp hmem
    rw [hangleAt (k + 2) h hh] at ha
    obtain rfl := Option.some.inj ha
    exact hB.turn k h hh
  have hstop : ∀ k, ∀ legs ∈ keysAt { groups } (k + 4),
      ∃ legs' ∈ keysAt { groups } (k + 3), oddOverlap legs legs' := by
    intro k legs hmem
    rw [hkeysAt] at hmem
    obtain ⟨g, hg, rfl⟩ := mem_map.mp hmem
    obtain ⟨h, hh, hodd⟩ := hB.obstacle k g hg
    refine ⟨h.legs, ?_, hodd⟩
    rw [hkeysAt]
    exact mem_map_of_mem hh
  obtain ⟨t, hmove, ht⟩ := moveAll_onto hshows.valid hfirst hturn hstop (hlength 1 hx)
  refine ⟨groups, t, hcollect, hmove, ht.valid, fun k => ?_, fun k h hh => ?_, fun k legs hnot => ?_,
    fun b => ?_⟩
  · rw [ht.keys, hkeysAt, hkeysAt]
    rfl
  · rw [ht.angle, hangleAt (k + 2) h hh, Option.some_or]
  · have hnone : angleAt { groups } (k + 2) legs = none := by
      have hmem : legs ∉ keysAt { groups } (k + 2) := by
        rw [hkeysAt]
        exact hnot
      rw [mem_keysAt] at hmem
      simpa using hmem
    rw [turnAt, ht.angle, hnone, Option.none_or]
    cases angleAt { groups } k legs with
    | none => rfl
    | some a => exact turn?_zero
  · rw [ht.pis, hshows.pis, nil_append, hkeysAt, preceded_firstOf]

namespace Shifted

variable {t : Simplifier} {k : Nat} (ht : Shifted n p B t)

include ht hB

lemma turnAt_isSome (legs : List Int) :
    (t.turnAt k legs).isSome = decide (legs ∈ (B k).map Gadget.legs) := by
  by_cases hmem : legs ∈ (B k).map Gadget.legs
  · obtain ⟨h, hh, rfl⟩ := mem_map.mp hmem
    rw [turnAt, ht.angle k h hh, Option.bind_some, hB.turn k h hh, decide_eq_true hmem]
    rfl
  · rw [ht.gone k legs hmem, decide_eq_false hmem]
    rfl

lemma leftAt_legs_eq : (t.leftAt k).map Gadget.legs =
    ((preceded n p B k).map Gadget.legs).filter (· ∈ (B k).map Gadget.legs) ++
      ((B k).map Gadget.legs).filter (· ∉ (preceded n p B k).map Gadget.legs) := by
  rw [leftAt_legs, ht.keys, filter_append]
  simp only [ht.turnAt_isSome hB]
  refine congrArg _ (filter_eq_self.mpr fun legs hmem => ?_)
  exact decide_eq_true (mem_filter.mp hmem).1

lemma mem_of_mem_leftAt {g : Gadget} (hg : g ∈ t.leftAt k) : g ∈ B k := by
  have hlegs : g.legs ∈ (t.leftAt k).map Gadget.legs := mem_map_of_mem hg
  rw [leftAt_legs, mem_filter, ht.turnAt_isSome hB, decide_eq_true_iff] at hlegs
  obtain ⟨h, hh, hhg⟩ := mem_map.mp hlegs.2
  obtain ⟨legs, a, ha, -, rfl⟩ := mem_leftAt.mp hg
  obtain rfl : h.legs = legs := hhg
  obtain rfl := Option.some.inj ((ht.angle k h hh).symm.trans ha)
  rwa [← hB.stored k h hh]

lemma leftAt_eq_iff : t.leftAt k = B k ↔ Follows (preceded n p B k) (B k) := by
  rw [follows_iff, ← ht.leftAt_legs_eq hB]
  constructor
  · intro h
    rw [h]
  · intro h
    refine (eq_of_map_eq h fun g hg g' hg' hlegs => ?_).symm
    exact inj_on_of_nodup_map (hB.distinct k) hg (ht.mem_of_mem_leftAt hB hg') hlegs

lemma leftAt_length (k : Nat) : (t.leftAt k).length = (B k).length := by
  have hperm : ((t.leftAt k).map Gadget.legs).Perm ((B k).map Gadget.legs) := by
    refine (perm_ext_iff_of_nodup ?_ (hB.distinct k)).mpr fun legs => ?_
    · rw [leftAt_legs]
      exact (keysAt_nodup ht.valid k).filter _
    · rw [ht.leftAt_legs_eq hB, mem_append, mem_filter, mem_filter]
      by_cases hold : legs ∈ (preceded n p B k).map Gadget.legs <;> simp [hold]
  simpa using hperm.length_eq

end Shifted

include hB hM hx hz in
/-- The second pass changes nothing if every run keeps to the order of the run two before it. -/
theorem outcome_preceded {t : Simplifier}
    (hcollect : ((List.range (M + 2)).flatMap (preceded n p B)).foldlM collect [{ basis := .z }] = .ok groups)
    (hmove : moveAll { groups } = .ok t) (hlength : t.groups.length ≤ M) :
    t.outcome n = halves n p 0 ++ halves n p 1 ++ (List.range M).flatMap B ↔
      ∀ k, Follows (preceded n p B k) (B k) := by
  obtain ⟨groups', t', hcollect', hmove', ht⟩ := moveAll_preceded (p := p) hB hM hx hz
  obtain rfl := Except.ok.inj (hcollect.symm.trans hcollect')
  obtain rfl := Except.ok.inj (hmove.symm.trans hmove')
  rw [outcome_eq ht.valid hlength, halves_pulled ht.pis, append_right_inj]
  simp only [← ht.leftAt_eq_iff hB]
  constructor
  · intro h k
    by_cases hk : k < M
    · exact flatMap_range_inj (ht.leftAt_length hB) h k hk
    · have hnil := ht.leftAt_length hB k
      rw [hM k (Nat.le_of_not_lt hk)] at hnil ⊢
      exact eq_nil_of_length_eq_zero hnil
  · intro h
    rw [funext h]

include hB hM

include htwo hcase in
lemma steady_fronted_iff : Steady (halves n p 0) (halves n p 1) ((List.range M).flatMap B) ↔
      ∀ k, ((fronted n p B k).map Gadget.legs).Nodup := by
  have hD := fronted_alternating (p := p) hB hM htwo
  constructor
  · intro h k
    by_cases hnil : fronted n p B k = []
    · rw [hnil]
      exact nodup_nil
    · refine h.distinct _ ?_
      rw [← flatMap_fronted htwo hcase]
      exact (mem_runs hD).mpr ⟨hnil, k, rfl⟩
  · intro h
    refine ⟨fun run hrun => ?_, fun hown => ?_⟩
    · rw [← flatMap_fronted htwo hcase] at hrun
      obtain ⟨-, k, rfl⟩ := (mem_runs hD).mp hrun
      exact h k
    · rw [← flatMap_fronted htwo hcase] at hown ⊢
      obtain ⟨hne, k, hk⟩ := (mem_runs hD).mp hown
      obtain ⟨g, hg⟩ := exists_mem_of_ne_nil _ hne
      -- the half turns about X are the whole second run, so that there is no third
      have hsecond : B 1 = [] := by
        have hgk := hg
        rw [← hk] at hgk
        match k with
        | 0 =>
          have hbasis := hD.basis 0 g hgk
          rw [(mem_halves hg).2.2] at hbasis
          cases hbasis
        | 1 => simpa [fronted] using hk
        | k + 2 =>
          have hturn := hB.turn (k + 2) g hgk
          rw [(mem_halves hg).2.1] at hturn
          cases hturn
      rw [runs_two_apart hD]
      intro j _ hj
      exact absurd (hB.nil_of_second hsecond (j + 1)) hj

include hx hz in
lemma steady_preceded_iff : Steady (halves n p 0) (halves n p 1) ((List.range M).flatMap B) ↔
      ∀ k, Follows (preceded n p B k) (B k) := by
  have hD := preceded_alternating hB hM hx hz
  have hown : halves n p 1 ∈ runs ((List.range (M + 2)).flatMap (preceded n p B)) :=
    (mem_runs hD).mpr ⟨hx, 1, rfl⟩
  constructor
  · intro h k
    have haligned := h.aligned
    rw [← flatMap_preceded] at haligned
    have hk := (runs_two_apart hD).mp (haligned hown) k
    by_cases hnil : preceded n p B k = []
    · rw [hnil]
      simp [Follows]
    · by_cases hnil' : B k = []
      · rw [hnil']
        simp [Follows]
      · exact hk hnil hnil'
  · intro h
    refine ⟨fun run hrun => ?_, fun _ => ?_⟩
    · rw [← flatMap_preceded] at hrun
      obtain ⟨-, k, rfl⟩ := (mem_runs hD).mp hrun
      exact preceded_distinct hB k
    · rw [← flatMap_preceded, runs_two_apart hD]
      exact fun k _ _ => h k

omit hB hM in
/-- What a second pass leaves is what the first has left if this is steady, and only then. -/
theorem outcome_eq_iff {s t : Simplifier} (hs : s.Settled n s.groups.length [])
    (ht : t.Settled n t.groups.length [])
    (hcollect : (s.outcome n).foldlM collect [{ basis := .z }] = .ok groups)
    (hmove : moveAll { groups } = .ok t) :
    t.outcome n = s.outcome n ↔
      Steady (piGates .z n s.zPis) (piGates .x n s.xPis) (s.groups.flatMap remaining) := by
  let M := max s.groups.length t.groups.length + 2
  have hsM : s.groups.length ≤ M := by omega
  have htM : t.groups.length ≤ M := by omega
  have hM : ∀ k, M ≤ k → s.leftAt k = [] := by
    intro k hk
    rw [leftAt, keysAt_of_length_le (by omega), filterMap_nil]
  rw [flatMap_remaining hs.valid hsM]
  rw [outcome_eq hs.valid hsM] at hcollect ⊢
  by_cases hcase : halves n s.pis 1 = [] ∨ s.leftAt 0 = []
  · rw [← flatMap_fronted (by omega) hcase] at hcollect
    rw [outcome_fronted hs.left hM (by omega) hcase hcollect hmove ht htM]
    exact (steady_fronted_iff hs.left hM (by omega) hcase).symm
  · rw [not_or] at hcase
    rw [← flatMap_preceded] at hcollect
    rw [outcome_preceded hs.left hM hcase.1 hcase.2 hcollect hmove htM]
    exact (steady_preceded_iff hs.left hM hcase.1 hcase.2).symm

end Simplifier

lemma Gadget.equal_iff {g h : Gadget} (hg : g.angle.isAngle) (hh : h.angle.isAngle)
    (hgs : g = { basis := g.basis, angle := reduceAngle g.angle, legs := g.legs })
    (hhs : h = { basis := h.basis, angle := reduceAngle h.angle, legs := h.legs }) :
    g.equal h ↔ g = h := by
  have hangle : g.angle.equal h.angle ↔
      reduceAngle g.angle = reduceAngle h.angle := by
    cases hga : g.angle with
    | angle a =>
      cases hha : h.angle with
      | angle b =>
        simp [AngleExpr.equal, Angle.same, PhaseCircuit.reduceAngle, Angle.normalize]
      | _ => simp [hha, AngleExpr.isAngle] at hh
    | _ => simp [hga, isAngle] at hg
  rw [equal, Bool.and_eq_true, Bool.and_eq_true, hangle, beq_iff_eq, beq_iff_eq]
  grind

namespace PhaseCircuit

lemma same_iff {c d : PhaseCircuit} (hc : c.WellFormed) (hd : d.WellFormed) (hsize : c.size = d.size)
    (hequal : ∀ g ∈ c.cells.map Cell.gadget, ∀ h ∈ d.cells.map Cell.gadget, g.equal h ↔ g = h) :
    c.same d = .ok true ↔ c.cells.map Cell.gadget = d.cells.map Cell.gadget := by
  by_cases hlength : c.cells.length = d.cells.length
  · rw [same_eq hc hd hsize hlength, Except.ok.injEq, all_eq_true]
    rw [← forall₂_eq_eq_eq, forall₂_map_left_iff, forall₂_map_right_iff, forall₂_iff_zip,
      and_iff_right hlength]
    have hpair : ∀ {k l}, (k, l) ∈ c.cells.zip d.cells →
        (k.gadget.equal l.gadget ↔ k.gadget = l.gadget) := fun hp =>
      hequal _ (mem_map_of_mem (of_mem_zip hp).1) _ (mem_map_of_mem (of_mem_zip hp).2)
    simp_all
  · constructor
    · intro h
      rw [same, if_pos] at h
      · cases h
      · rw [← cells_length hc, ← cells_length hd]
        simp [hlength]
    · intro h
      exact absurd (by simpa using congrArg List.length h) hlength

lemma angles_numeric {c : PhaseCircuit} (hc : c.WellFormed)
    (h : ∀ g ∈ c.cells.map Cell.gadget, g.angle.isAngle) : ∀ a ∈ c.angles, a.isAngle := by
  rw [← cells_angles hc]
  exact forall_mem_map.mpr (forall_mem_map.mp h)

/-- Simplifying twice gives what simplifying once gives if the simplified circuit is steady, and only then. -/
theorem simplified_twice_same_iff {c : PhaseCircuit} (hc : c.WellFormed)
    (hnum : ∀ a ∈ c.angles, a.isAngle = true) :
    ∃ d e zs xs rest, c.simplified = .ok d ∧ d.simplified = .ok e ∧
      d.gadgets = .ok (zs ++ xs ++ rest) ∧ HalfTurns .z zs ∧ HalfTurns .x xs ∧ Blocked rest ∧
      (e.same d = .ok true ↔ Steady zs xs rest) := by
  obtain ⟨-, s, d, -, -, -, hs, hd, -, hw, hsize, hcells⟩ := simplified_settled hc hnum
  have hturns := hs.outcome_turns
  obtain ⟨groups, t, e, hcollect, -, hmove, ht, he, -, hew, hesize, hecells⟩ :=
    simplified_settled hw (angles_numeric hw fun g hg => (hturns g (hcells ▸ hg)).1)
  rw [hsize] at ht hecells hesize
  have hlive : (d.cells.map Cell.gadget).filter (fun g => !g.angle.isZero) = s.outcome c.size := by
    rw [hcells]
    exact filter_eq_self.mpr fun g hg => by simp [(hturns g hg).2]
  rw [hlive] at hcollect
  refine ⟨d, e, _, _, _, hd, he, ?_, halfTurns_piGates c.size .z s.zPis,
    halfTurns_piGates c.size .x s.xPis, hs.blocked_remaining, ?_⟩
  · rw [gadgets_eq hw, hcells]
    rfl
  · rw [same_iff hew hw (hesize.trans hsize.symm), hecells, hcells,
      Simplifier.outcome_eq_iff hs ht hcollect hmove]
    intro g hg h hh
    rw [hecells] at hg
    rw [hcells] at hh
    exact Gadget.equal_iff (ht.outcome_turns g hg).1 (hturns h hh).1 (outcome_legs ht g hg).2.2
      (outcome_legs hs h hh).2.2

def halvedTower : PhaseCircuit :=
  ((({ size := 1 } : PhaseCircuit).push { basis := .x, angle := .angle Angle.pi, legs := [0] } [true]
    (.angle Angle.pi)).push { basis := .z, angle := .angle ⟨1 / 4⟩, legs := [0] } [true]
    (.angle ⟨1 / 4⟩)).push { basis := .x, angle := .angle ⟨1 / 4⟩, legs := [0] } [true]
    (.angle ⟨1 / 4⟩)

theorem halvedTower_twice :
    halvedTower.WellFormed ∧ (∀ a ∈ halvedTower.angles, a.isAngle = true) ∧
    ∃ d e zs xs rest, halvedTower.simplified = .ok d ∧ d.simplified = .ok e ∧
      d.gadgets = .ok (zs ++ xs ++ rest) ∧ HalfTurns .z zs ∧ HalfTurns .x xs ∧ Blocked rest ∧
      (e.same d = .ok true ↔ Steady zs xs rest) := by
  have hwell : halvedTower.WellFormed := by
    apply_rules [push_wellFormed, wellFormed_empty] <;> simp
  have hnum : ∀ a ∈ halvedTower.angles, a.isAngle = true := by
    have hangles : halvedTower.angles = [.angle Angle.pi, .angle ⟨1 / 4⟩, .angle ⟨1 / 4⟩] := rfl
    simp [hangles, isAngle]
  exact ⟨hwell, hnum, simplified_twice_same_iff hwell hnum⟩

def crowdedPair : PhaseCircuit :=
  (({ size := 2 } : PhaseCircuit).push { basis := .z, angle := .angle Angle.pi, legs := [0, 1] }
    [true, true] (.angle Angle.pi)).push { basis := .z, angle := .angle ⟨1 / 2⟩, legs := [0] }
    [true, false] (.angle ⟨1 / 2⟩)

/-- The half turn that is left on a qubit after the first pass is fused with the quarter turn in the second. -/
theorem crowdedPair_twice_differs :
    crowdedPair.WellFormed ∧ (∀ a ∈ crowdedPair.angles, a.isAngle = true) ∧
    ∃ d e, crowdedPair.simplified = .ok d ∧ d.simplified = .ok e ∧ e.same d = .ok false := by
  refine ⟨?_, ?_, ?_⟩
  · simp [crowdedPair]
  · have hangles : crowdedPair.angles = [.angle Angle.pi, .angle ⟨1 / 2⟩] := rfl
    simp [hangles, isAngle]
  · have hrun : (do
        let d ← crowdedPair.simplified
        let e ← d.simplified
        e.same d) = .ok false := by cbv
    obtain ⟨d, hd, hrun⟩ := bind_eq_ok.mp hrun
    obtain ⟨e, he, hsame⟩ := bind_eq_ok.mp hrun
    exact ⟨d, e, hd, he, hsame⟩

end PhaseCircuit

end GadgetCircuits
