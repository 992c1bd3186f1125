import GadgetCircuits.Proofs.BuiltCircuits
import GadgetCircuits.Proofs.Dagger
import GadgetCircuits.Proofs.MappedTopology
import GadgetCircuits.Proofs.ProgramUnitary

/-!
Phase circuits with renamed qubits, and programs that are read with a mapping. Every gadget keeps its basis
and angle while its legs move. Finding the qubits of a statement and expanding its gates commute with a
renaming, so reading with a mapping and mapping what was read give one circuit.
-/

namespace GadgetCircuits

open List PhaseCircuit Gadget PhaseGate
open Equiv (Perm)

lemma PhaseCircuit.reduceAngle_reduceAngle (e : AngleExpr) : reduceAngle (reduceAngle e) = reduceAngle e := by
  cases e with
  | angle a => exact congrArg AngleExpr.angle a.normalize_normalize
  | _ => rfl

variable {n : Nat} {f f' : Fin n → Fin n} {g g' g'' : Gadget}

/-- A gadget, and what a circuit keeps of the one on the images of its legs. -/
structure Carried (f : Fin n → Fin n) (g : Gadget) (k : Cell) : Prop where
  proper : k.Proper n
  basis : k.basis = g.basis
  angle : k.angle = reduceAngle g.angle
  legs : ∀ i : Fin n, (i : Int) ∈ k.gadget.legs ↔
    ∃ j : Fin n, (j : Int) ∈ g.legs ∧ f j = i

lemma exists_qubit {q : Int} (hg : g.Fits n) (hq : q ∈ g.legs) : ∃ i : Fin n, q = (i : Int) := by
  obtain ⟨h0, hn⟩ := hg.2 q hq
  exact ⟨⟨q.toNat, by omega⟩, (Int.toNat_of_nonneg h0).symm⟩

lemma carried_of_legs (hg : g.Fits n) (hbasis : g'.basis = g.basis) (hangle : g'.angle = g.angle)
    (hlegs : ∀ q, q ∈ g'.legs ↔ ∃ i : Fin n, (i : Int) ∈ g.legs ∧ q = ((f i : Nat) : Int)) :
    g'.Fits n ∧ Carried f g (cellOf n g') := by
  have hfits : g'.Fits n := by
    refine ⟨?_, fun q hq => ?_⟩
    · obtain ⟨q, hq⟩ := exists_mem_of_ne_nil _ hg.1
      obtain ⟨i, rfl⟩ := exists_qubit hg hq
      exact ne_nil_of_mem ((hlegs _).mpr ⟨i, hq, rfl⟩)
    · grind
  refine ⟨hfits, cellOf_proper hfits, hbasis, congrArg reduceAngle hangle, fun i => ?_⟩
  rw [mem_stored_legs, hlegs]
  simp only [Int.natCast_inj, ← Fin.ext_iff, eq_comm]

lemma ofValues_carried (hg : g.Fits n) (image : Int → Value)
    (himage : ∀ i : Fin n, (i : Int) ∈ g.legs → (image i).int? = some ((f i : Nat) : Int)) :
    ∃ g', ofValues (.str g.basis.name) (.expr g.angle) (.list (g.legs.map image)) = .ok g' ∧
      g'.Fits n ∧ Carried f g (cellOf n g') := by
  have hints : ∀ v ∈ g.legs.map image, v.int?.isSome := by
    intro v hv
    obtain ⟨q, hq, rfl⟩ := mem_map.mp hv
    obtain ⟨i, rfl⟩ := exists_qubit hg hq
    rw [himage i hq]
    rfl
  have hne : g.legs.map image ≠ [] := by simpa using hg.1
  refine ⟨_, make_eq_ok.mpr ⟨hints, hne, rfl⟩, carried_of_legs hg rfl rfl fun q => ?_⟩
  rw [mem_legs_ofItems hints]
  constructor
  · rintro ⟨v, hv, hq⟩
    obtain ⟨p, hp, rfl⟩ := mem_map.mp hv
    obtain ⟨i, rfl⟩ := exists_qubit hg hp
    exact ⟨i, hp, Option.some.inj (hq.symm.trans (himage i hp))⟩
  · rintro ⟨i, hi, rfl⟩
    exact ⟨_, mem_map_of_mem hi, himage i hi⟩

variable {k l : Cell}

lemma legs_ext (hk : k.Proper n) (hl : l.Proper n)
    (h : ∀ i : Fin n, (i : Int) ∈ k.gadget.legs ↔ (i : Int) ∈ l.gadget.legs) :
    k.gadget.legs = l.gadget.legs := by
  refine (gadget_legs_sorted k).eq_of_mem_iff (gadget_legs_sorted l)
    fun q => ⟨fun hq => ?_, fun hq => ?_⟩
  · obtain ⟨i, rfl⟩ := exists_qubit (cell_legsOn hk).fits hq
    exact (h i).mp hq
  · obtain ⟨i, rfl⟩ := exists_qubit (cell_legsOn hl).fits hq
    exact (h i).mpr hq

lemma legs_perm (hk : k.Proper n) (hf : f.Injective) (h : ∀ i : Fin n,
      (i : Int) ∈ k.gadget.legs ↔ ∃ j : Fin n, (j : Int) ∈ g.legs ∧ f j = i) :
    k.gadget.legs.Perm (((finRange n).filter fun i : Fin n => (i : Int) ∈ g.legs).map
      fun i => ((f i : Nat) : Int)) := by
  refine (perm_ext_iff_of_nodup (cell_legsOn hk).nodup ?_).mpr fun q => ?_
  · exact ((nodup_finRange n).filter _).map fun i j hij => hf (Fin.ext (Int.ofNat_inj.mp hij))
  · simp only [mem_map, mem_filter, mem_finRange, true_and, decide_eq_true_iff]
    constructor
    · intro hq
      obtain ⟨i, rfl⟩ := exists_qubit (cell_legsOn hk).fits hq
      obtain ⟨j, hj, rfl⟩ := (h i).mp hq
      exact ⟨j, hj, rfl⟩
    · rintro ⟨j, hj, rfl⟩
      exact (h (f j)).mpr ⟨j, hj, rfl⟩

lemma Carried.length_legs (h : Carried f k.gadget l) (hk : k.Proper n) (hf : f.Injective) :
    l.gadget.legs.length = k.gadget.legs.length := by
  have hmoved := (legs_perm h.proper hf h.legs).length_eq
  have hown := (legs_perm (g := k.gadget) hk Function.injective_id (by simp)).length_eq
  rw [length_map] at hmoved hown
  exact hmoved.trans hown.symm

lemma Carried.back {l' : Cell} (h : Carried f k.gadget l) (h' : Carried f' l.gadget l')
    (hback : ∀ i, f' (f i) = i) (hk : k.Proper n) (hangle : k.angle.Distinct) :
    l'.gadget.equal k.gadget := by
  have hlegs : l'.gadget.legs = k.gadget.legs := by
    refine legs_ext h'.proper hk fun i => (h'.legs i).trans ?_
    constructor
    · rintro ⟨_, hj, rfl⟩
      obtain ⟨j, hj, rfl⟩ := (h.legs _).mp hj
      rwa [hback]
    · exact fun hi => ⟨f i, (h.legs _).mpr ⟨i, hi, rfl⟩, hback i⟩
  have hbasis : l'.gadget.basis = k.gadget.basis := h'.basis.trans h.basis
  have hreduced : l'.gadget.angle = reduceAngle k.gadget.angle :=
    h'.angle.trans ((congrArg _ h.angle).trans (PhaseCircuit.reduceAngle_reduceAngle _))
  rw [equal, hlegs, hreduced, hbasis, beq_self_eq_true, beq_self_eq_true, Bool.and_true,
    Bool.true_and]
  exact reduceAngle_equal hangle

namespace QubitMapping

variable {m : Value} {vs : List Value} {σ : Perm (Fin n)}

/-- The mapping passes the check and sends qubits as the function does. -/
def Sends (m : Value) (f : Fin n → Fin n) : Prop :=
  ∃ vs, check n m false = .ok vs ∧
    ∀ i : Fin n, ∃ v, vs[(i : Nat)]? = some v ∧ v.same (.ofNat (f i)) = true

/-- A dictionary, or a sequence with one item for every qubit. -/
def Exact (n : Nat) (m : Value) : Prop :=
  ∀ items, m.sequence? = some items → items.length = n

lemma length_images (h : images n m false = .ok vs) :
    n ≤ vs.length ∧ (Exact n m → vs.length = n) := by
  rw [images.eq_def] at h
  split at h
  · have hlength := (mapM_eq_ok.mp h).length_eq
    rw [length_range] at hlength
    exact ⟨hlength.le, fun _ => hlength.symm⟩
  · split at h
    · rename_i hitems
      split at h
      · obtain ⟨_, -, h⟩ := bind_eq_ok.mp h
        cases h
      · cases h
        exact ⟨by omega, fun hm => hm _ hitems⟩
    · cases h

lemma exists_sends (h : check n m false = .ok vs) :
    ∃ f : Fin n → Fin n, Sends m f ∧ (Exact n m → f.Bijective) := by
  obtain ⟨himages, hcovers⟩ := check_eq_ok.mp h
  obtain ⟨-, hin, honto⟩ := Value.coversRange_eq_ok.mp hcovers
  obtain ⟨hlength, hexact⟩ := length_images himages
  have hsent : ∀ i : Fin n, ∃ j : Fin n, ∃ v, vs[(i : Nat)]? = some v ∧ v.same (.ofNat j) := by
    intro i
    have hi := getElem?_eq_getElem (i.isLt.trans_le hlength)
    obtain ⟨j, hj, hsame⟩ := hin _ (mem_of_getElem? hi)
    exact ⟨⟨j, hj⟩, _, hi, hsame⟩
  choose f hf using hsent
  refine ⟨f, ⟨vs, h, hf⟩, fun hm => Function.Surjective.bijective_of_finite fun j => ?_⟩
  obtain ⟨v, hv, hsame⟩ := honto j j.isLt
  obtain ⟨i, hi⟩ := mem_iff_getElem?.mp hv
  have hlt : i < n := hexact hm ▸ (List.getElem?_eq_some_iff.mp hi).1
  obtain ⟨v', hv', hsame'⟩ := hf ⟨i, hlt⟩
  obtain rfl := Option.some.inj (hi.symm.trans hv')
  exact ⟨⟨i, hlt⟩, Fin.ext (Value.same_ofNat_inj hsame' hsame)⟩

end QubitMapping

namespace PhaseCircuit

open QubitMapping

variable {c d : PhaseCircuit} {m : Value} {vs : List Value}

variable (hc : c.WellFormed)
include hc

lemma mapped_eq (hcheck : check c.size m false = .ok vs) :
    c.mapped m = (c.cells.mapM fun k => ofValues (.str k.gadget.basis.name) (.expr k.gadget.angle)
      (.list (k.gadget.legs.map fun q => vs[q.toNat]?.getD .null))) >>= ofGadgets c.size := by
  rw [mapped, hcheck, ok_bind, gadgets_eq hc, ok_bind, mapM_map]
  rfl

lemma mapped_ok (hn : c.size = n) (hcheck : check n m false = .ok vs)
    (hints : ∀ k ∈ c.cells, ∀ i : Fin n, (i : Int) ∈ k.gadget.legs →
      (vs[(i : Nat)]?.getD .null).int? = some ((f i : Nat) : Int)) :
    ∃ d, c.mapped m = .ok d ∧ d.WellFormed ∧ d.size = n ∧
      Forall₂ (fun k l => Carried f k.gadget l) c.cells d.cells := by
  subst hn
  obtain ⟨gs, hgs, hmoved⟩ := forall₂_exists (forall₂_same.mpr fun k hk =>
    ofValues_carried (cell_legsOn (hc.cells_proper k hk)).fits
      (fun q => vs[q.toNat]?.getD .null) (hints k hk))
  have hfits : ∀ g ∈ gs, g.Fits c.size := fun g hg => by
    obtain ⟨k, -, hfit, -⟩ := of_mem_forall₂ hmoved g hg
    exact hfit
  obtain ⟨d, hd, hwf, hsize, hcells⟩ := ofGadgets_ok hfits
  refine ⟨d, ?_, hwf, hsize, ?_⟩
  · rw [mapped_eq hc hcheck, mapM_eq_ok.mpr hgs, ok_bind, hd]
  · rw [hcells, forall₂_map_right_iff]
    exact hmoved.imp fun _ _ h => h.2

lemma mapped_carried {f : Fin c.size → Fin c.size} (hf : Sends m f)
    (h : c.mapped m = .ok d) : d.WellFormed ∧ d.size = c.size ∧
      Forall₂ (fun k l => Carried f k.gadget l) c.cells d.cells := by
  obtain ⟨vs, hcheck, hvs⟩ := hf
  have hints : ∀ k ∈ c.cells, ∀ i : Fin c.size, (i : Int) ∈ k.gadget.legs →
      (vs[(i : Nat)]?.getD .null).int? = some ((f i : Nat) : Int) := by
    intro k hk i hi
    rw [mapped_eq hc hcheck] at h
    obtain ⟨gs, hgs, -⟩ := bind_eq_ok.mp h
    obtain ⟨j, hj⟩ := mem_iff_getElem?.mp hk
    obtain ⟨g, -, hg⟩ := mapM_getElem? hgs hj
    obtain ⟨hall, -⟩ := Gadget.make_eq_ok.mp hg
    obtain ⟨z, hz⟩ := Option.isSome_iff_exists.mp (hall _ (mem_map_of_mem hi))
    obtain ⟨v, hv, hsame⟩ := hvs i
    rw [Int.toNat_natCast, hv, Option.getD_some] at hz
    have heq := (Value.same_of_int? hz rfl).symm.trans hsame
    rw [hv, Option.getD_some, hz, beq_iff_eq.mp heq]
  obtain ⟨d', hd', hwf, hsize, hcells⟩ := mapped_ok hc rfl hcheck hints
  obtain rfl := Except.ok.inj (hd'.symm.trans h)
  exact ⟨hwf, hsize, hcells⟩

lemma mapped_presents (hn : c.size = n) {σ : Perm (Fin n)} (hm : Presents σ m) :
    ∃ d, c.mapped m = .ok d ∧ d.WellFormed ∧ d.size = n ∧
      Forall₂ (fun k l => Carried σ k.gadget l) c.cells d.cells := by
  refine mapped_ok hc hn (hm.check_eq false) fun k _ i _ => ?_
  rw [values_getElem?]
  rfl

end PhaseCircuit

/-- Basis, angle and number of legs stay, and the legs move. -/
structure Moved (f : Fin n → Fin n) (g g' : Gadget) : Prop where
  basis : g'.basis = g.basis
  angle : g'.angle.equal g.angle = true
  count : g'.legs.length = g.legs.length
  legs : ∀ i : Fin n, (i : Int) ∈ g'.legs ↔ ∃ j : Fin n, (j : Int) ∈ g.legs ∧ f j = i

namespace PhaseCircuit

open QubitMapping

variable {c d : PhaseCircuit} {m : Value}

/-- A mapping that is accepted sends qubits to qubits, and if it names no more images than there are
qubits, different ones to different ones. Then gadgets only move, and the inverse leads back. -/
theorem mapped_permutes (hc : c.WellFormed) (hangles : ∀ e ∈ c.angles, e.Distinct)
    (h : c.mapped m = .ok d) : ∃ f : Fin c.size → Fin c.size,
      Sends m f ∧ (Exact c.size m → f.Bijective) ∧
      (f.Bijective → (∃ gs gs', c.gadgets = .ok gs ∧ d.gadgets = .ok gs' ∧ List.Forall₂ (Moved f) gs gs') ∧
        ∀ (σ : Perm (Fin c.size)) (back : Value), (∀ i, σ (f i) = i) → Presents σ back →
          ∃ e, d.mapped back = .ok e ∧ e.same c = .ok true) := by
  obtain ⟨vs, hcheck, -⟩ := bind_eq_ok.mp h
  obtain ⟨f, hf, hexact⟩ := exists_sends hcheck
  obtain ⟨hd, hsize, hcells⟩ := mapped_carried hc hf h
  have hmoved : List.Forall₂ (fun k l => Carried f k.gadget l ∧ k.Proper c.size ∧ k.angle.Distinct)
      c.cells d.cells := forall₂_imp_mem hcells fun k hk l hl =>
    ⟨hl, hc.cells_proper k hk, hangles _ (cells_angles hc ▸ mem_map_of_mem hk)⟩
  refine ⟨f, hf, hexact, fun hbij => ⟨⟨_, _, gadgets_eq hc, gadgets_eq hd, ?_⟩, ?_⟩⟩
  · rw [forall₂_map_left_iff, forall₂_map_right_iff]
    exact hmoved.imp fun k l ⟨hl, hk, hangle⟩ =>
      ⟨hl.basis, (congrArg (·.equal k.angle) hl.angle).trans (reduceAngle_equal hangle),
        hl.length_legs hk hbij.1, hl.legs⟩
  · intro σ back hback hσ
    obtain ⟨e, he, hewf, hesize, hecells⟩ := mapped_presents hd hsize hσ
    refine ⟨e, he, same_of_cells hewf hc hesize (forall₂_join hecells hmoved.flip ?_)⟩
    exact fun l _ l' k hl' ⟨hl, hk, hangle⟩ => hl.back hl' hback hk hangle

theorem overTurned_mapped_permutes : ∃ d, overTurned.WellFormed ∧
    (∀ e ∈ overTurned.angles, e.Distinct) ∧ overTurned.mapped (.list [.int 1, .int 0]) = .ok d ∧
    ∃ f : Fin overTurned.size → Fin overTurned.size,
      Sends (.list [.int 1, .int 0]) f ∧ (Exact overTurned.size (.list [.int 1, .int 0]) → f.Bijective) ∧
      (f.Bijective → (∃ gs gs', overTurned.gadgets = .ok gs ∧ d.gadgets = .ok gs' ∧
          List.Forall₂ (Moved f) gs gs') ∧
        ∀ (σ : Perm (Fin overTurned.size)) (back : Value), (∀ i, σ (f i) = i) → Presents σ back →
          ∃ e, d.mapped back = .ok e ∧ e.same overTurned = .ok true) := by
  have hover := overTurned_wellFormed
  have hangles : ∀ e ∈ overTurned.angles, e.Distinct := by
    simp [overTurned_angles, AngleExpr.Distinct]
  have hm : Presents (Equiv.swap 0 1 : Perm (Fin 2)) (.list [.int 1, .int 0]) := .list
  obtain ⟨d, hd, -⟩ := mapped_presents hover rfl hm
  exact ⟨d, hover, hangles, hd, mapped_permutes hover hangles hd⟩

/-- A list with an item too many sends both qubits to the first, and the gadget between them loses a
leg. -/
theorem mapped_loses_leg : ∃ c d gs gs',
    ofGadgets 2 [{ basis := .z, angle := .angle ⟨1 / 4⟩, legs := [0, 1] }] = .ok c ∧
    c.mapped (.list [.int 0, .int 0, .int 1]) = .ok d ∧ c.gadgets = .ok gs ∧ d.gadgets = .ok gs' ∧
    gs.map Gadget.legs = [[0, 1]] ∧ gs'.map Gadget.legs = [[0]] := by
  have h : (do
      let c ← ofGadgets 2 [{ basis := .z, angle := .angle ⟨1 / 4⟩, legs := [0, 1] }]
      let d ← c.mapped (.list [.int 0, .int 0, .int 1])
      let gs ← c.gadgets
      let gs' ← d.gadgets
      return (gs.map legs, gs'.map legs)) = .ok ([[0, 1]], [[0]]) := by
    cbv
  obtain ⟨c, hc, h⟩ := bind_eq_ok.mp h
  obtain ⟨d, hd, h⟩ := bind_eq_ok.mp h
  obtain ⟨gs, hgs, h⟩ := bind_eq_ok.mp h
  obtain ⟨gs', hgs', h⟩ := bind_eq_ok.mp h
  obtain ⟨hlegs, hlegs'⟩ := Prod.mk.inj (Except.ok.inj h)
  exact ⟨c, d, gs, gs', hc, hd, hgs, hgs', hlegs, hlegs'⟩

end PhaseCircuit

open QubitMapping

variable {F : Value → Value} {σ : Perm (Fin n)}

def via (image : Nat → Value) (v : Value) : Value :=
  image (v.int?.getD 0).toNat

namespace Qasm

namespace Wiring

variable (w : Wiring)

def rename (F : Value → Value) (w : Wiring) : Wiring :=
  List.map (fun e => (e.1, e.2.map F)) w

lemma register_rename (name : String) :
    (w.rename F).register name = (w.register name).map (List.map F) := by
  have hfind : List.find? (fun e => e.1 == name) (w.rename F) =
      (List.find? (fun e => e.1 == name) w).map fun e => (e.1, e.2.map F) := find?_map
  rw [register, hfind, register]
  cases List.find? (fun e => e.1 == name) w <;> rfl

lemma qubit_rename (name : String) (i : Nat) :
    (w.rename F).qubit name i = (w.qubit name i).map F := by
  rw [qubit, register_rename, qubit]
  cases w.register name with
  | error e => rfl
  | ok qs =>
    simp only [Except.map, ok_bind, getElem?_map]
    cases qs[i]? <;> rfl

lemma qubits_rename (t : Target) : (w.rename F).qubits t = (w.qubits t).map (List.map F) := by
  rw [qubits, qubits]
  split
  · rename_i p _
    rw [qubit_rename]
    cases w.qubit t.register.name p.val <;> rfl
  · exact register_rename w _

lemma pairs_rename (c t : Target) :
    (w.rename F).pairs c t = (w.pairs c t).map (List.map (Prod.map F F)) := by
  have hpair : ∀ i j, (do
      let a ← (w.rename F).qubit c.register.name i
      return (a, ← (w.rename F).qubit t.register.name j)) = Except.map (Prod.map F F) (do
      let a ← w.qubit c.register.name i
      return (a, ← w.qubit t.register.name j)) := by
    intro i j
    rw [qubit_rename, qubit_rename]
    cases w.qubit c.register.name i <;> cases w.qubit t.register.name j <;> rfl
  rw [pairs, pairs]
  simp only [hpair]
  split
  · exact mapM_exceptMap _ _ _
  · exact mapM_exceptMap _ _ _
  · exact mapM_exceptMap _ _ _
  · rename_i i j _ _
    cases w.qubit c.register.name i <;> cases w.qubit t.register.name j <;> rfl

lemma operands_rename (ts : List Target) :
    (w.rename F).operands ts = (w.operands ts).map (List.map (List.map F)) := by
  rw [operands, operands]
  simp only [qubit_rename, mapM_exceptMap]
  split
  · cases ts.mapM fun t => w.qubit t.register.name ((operand? t).getD 0) <;> rfl
  · split
    · rfl
    · rfl

end Wiring

lemma wiring_via (p : Program) (image : Nat → Value) :
    p.wiring image = (p.wiring .ofNat).rename (via image) := by
  have hfrom : ∀ rs first, wiringFrom image first rs =
      (wiringFrom .ofNat first rs).rename (via image) := by
    intro rs
    induction rs with
    | nil => exact fun _ => rfl
    | cons r rs ih =>
      intro first
      rw [wiringFrom, wiringFrom, ih, Wiring.rename, Wiring.rename, map_cons, map_map]
      rfl
  exact hfrom _ 0

end Qasm

def GateStep.rename (F : Value → Value) : GateStep → GateStep
  | .turn b q a => .turn b (F q) a
  | .link a qs => .link a (qs.map F)

def GateStep.isNumeric : GateStep → Bool
  | .turn _ _ (.ok (.expr (.angle _))) => true
  | .link (.ok (.expr (.angle _))) _ => true
  | _ => false

/-- A gadget with a number for its angle, and the one on the images of its legs. -/
structure Renamed (σ : Perm (Fin n)) (g g' : Gadget) : Prop where
  numeric : g.angle.isAngle = true
  fits : g'.Fits n
  carried : Carried σ g (PhaseCircuit.cellOf n g')

section Gates

variable {image : Nat → Value} (himage : ∀ i : Fin n, image i = .ofNat (σ i))
variable {k : String × Nat × Nat} {params : List Angle}

include himage

lemma rotationOnSet_renamed {b : Basis} {x : Angle} (items : List Value) {g : Gadget}
    (h : rotationOnSet b (.expr (.angle x)) (items.map (via .ofNat)) = .ok g) (hfits : g.Fits n) :
    ∃ g', rotationOnSet b (.expr (.angle x)) (items.map (via image)) = .ok g' ∧ Renamed σ g g' := by
  have hne : items ≠ [] := by
    rintro rfl
    obtain ⟨-, -, -, -, hne, -⟩ := rotationOnSet_eq_ok.mp h
    exact hne rfl
  have hints₀ : ∀ v ∈ items.map (via .ofNat), v.int?.isSome := by simp [via, Value.ofNat, Value.int?]
  obtain ⟨g₀, hg₀, hb, ha, -, hlegs⟩ := rotationOnSet_ok b (.angle x) (by simpa using hne) hints₀
  obtain rfl := Except.ok.inj (hg₀.symm.trans h)
  have hnamed : ∀ v ∈ items, ∃ i : Fin n, (i : Int) ∈ g₀.legs ∧
      (v.int?.getD 0).toNat = i ∧ via image v = .ofNat (σ i) := by
    intro v hv
    have hq := (hlegs _).mpr ⟨_, mem_map_of_mem hv, rfl⟩
    obtain ⟨i, hi⟩ := exists_qubit hfits hq
    have hindex := Int.ofNat_inj.mp hi
    exact ⟨i, hi ▸ hq, hindex, by rw [via, hindex, himage]⟩
  have hints : ∀ v ∈ items.map (via image), v.int?.isSome := by
    intro v hv
    obtain ⟨u, hu, rfl⟩ := mem_map.mp hv
    obtain ⟨i, -, -, hi⟩ := hnamed u hu
    rw [hi]
    rfl
  obtain ⟨g', hg', hb', ha', -, hlegs'⟩ := rotationOnSet_ok b (.angle x) (by simpa using hne) hints
  obtain ⟨hfits', hcarried⟩ := carried_of_legs (f := σ) hfits (hb'.trans hb.symm) (ha'.trans ha.symm)
    fun q => by
      rw [hlegs']
      constructor
      · rintro ⟨v, hv, hq⟩
        obtain ⟨u, hu, rfl⟩ := mem_map.mp hv
        obtain ⟨i, hi, -, hvia⟩ := hnamed u hu
        rw [hvia] at hq
        exact ⟨i, hi, (Option.some.inj hq).symm⟩
      · rintro ⟨i, hi, rfl⟩
        obtain ⟨v, hv, hvi⟩ := (hlegs _).mp hi
        obtain ⟨u, hu, rfl⟩ := mem_map.mp hv
        obtain ⟨j, -, hj, hvia⟩ := hnamed u hu
        have hij : j = i := Fin.ext (hj.symm.trans (Int.ofNat_inj.mp (Option.some.inj hvi)))
        exact ⟨_, mem_map_of_mem hu, by rw [hvia, hij]; rfl⟩
  exact ⟨g', hg', by rw [ha]; rfl, hfits', hcarried⟩

lemma rename_gadget {s : GateStep} {g : Gadget} (hs : s.isNumeric)
    (h : (s.rename (via .ofNat)).gadget = .ok g) (hfits : g.Fits n) :
    ∃ g', (s.rename (via image)).gadget = .ok g' ∧ Renamed σ g g' := by
  unfold GateStep.isNumeric at hs
  split at hs
  · exact rotationOnSet_renamed himage [_] h hfits
  · exact rotationOnSet_renamed himage _ h hfits
  · cases hs

omit himage in
lemma known_steps {name : String} {vs : List Value}
    (hknown : Qasm.knownGates.find? (fun g => g.1 == name) = some k) (hlen : vs.length = k.2.1)
    (hparams : params.length = k.2.2) : ∃ steps : List GateStep,
      steps? name (vs.map .plain ++ Qasm.angleOperands params) = some (.ok steps) ∧
      steps.all GateStep.isNumeric ∧ ∀ F : Value → Value,
        steps? name ((vs.map F).map .plain ++ Qasm.angleOperands params) =
          some (.ok (steps.map (GateStep.rename F))) := by
  have hname : k.1 = name := by simpa using find?_some hknown
  have hmem := mem_of_find?_eq_some hknown
  subst hname
  simp only [Qasm.knownGates, mem_cons, not_mem_nil, or_false] at hmem
  rcases hmem with rfl | rfl | rfl | rfl | rfl | rfl | rfl | rfl | rfl | rfl | rfl | rfl | rfl | rfl |
    rfl | rfl | rfl | rfl
  rotate_left 4
  · obtain ⟨v, rfl⟩ := length_eq_one_iff.mp hlen
    obtain rfl := length_eq_zero_iff.mp hparams
    exact ⟨_, steps?_h v, rfl, fun F => steps?_h (F v)⟩
  all_goals
    simp only [length_eq_zero_iff, length_eq_one_iff, length_eq_two, length_eq_three]
      at hlen hparams
    casesm* ∃ _, _
    subst_vars
    exact ⟨_, rfl, rfl, fun _ => rfl⟩

lemma gadgets_renamed {name : String} {vs : List Value}
    (hknown : Qasm.knownGates.find? (fun g => g.1 == name) = some k) (hlen : vs.length = k.2.1)
    (hparams : params.length = k.2.2) {gs : List Gadget}
    (h : PhaseGate.gadgets name ((vs.map (via .ofNat)).map .plain ++ Qasm.angleOperands params) = .ok gs)
    (hfits : ∀ g ∈ gs, g.Fits n) :
    ∃ gs', PhaseGate.gadgets name ((vs.map (via image)).map .plain ++ Qasm.angleOperands params) = .ok gs' ∧
      Forall₂ (Renamed σ) gs gs' := by
  obtain ⟨steps, -, hnumeric, hsteps⟩ := known_steps hknown hlen hparams
  rw [PhaseGate.gadgets, hsteps] at h ⊢
  dsimp only at h ⊢
  rw [ok_bind, mapM_map] at h ⊢
  exact mapM_transfer (fun s hs g hg hfit =>
    rename_gadget himage (all_eq_true.mp hnumeric s hs) hg hfit) h hfits

end Gates

namespace Qasm

variable {w : Wiring} {image : Nat → Value} (himage : ∀ i : Fin n, image i = .ofNat (σ i))

lemma operands_length {ts : List Target} {qss : List (List Value)} (h : w.operands ts = .ok qss) :
    ∀ qs ∈ qss, qs.length = ts.length := by
  intro qs hqs
  rw [Wiring.operands] at h
  split at h
  · obtain ⟨vs, hvs, h⟩ := bind_eq_ok.mp h
    cases h
    rw [mem_singleton.mp hqs]
    exact (mapM_eq_ok.mp hvs).length_eq.symm
  · split at h
    · obtain ⟨i, -, hi⟩ := of_mem_mapM h qs hqs
      exact (mapM_eq_ok.mp hi).length_eq.symm
    · cases h

include himage

/-- Gates that act on several operands, with the names of their qubits passed through a renaming. -/
theorem mapM_renamed {α : Type} {xs : List α} (args : α → List Value) {name : String} {params : List Angle}
    {k : String × Nat × Nat} (hknown : knownGates.find? (fun g => g.1 == name) = some k)
    (hlen : ∀ x ∈ xs, (args x).length = k.2.1) (hparams : params.length = k.2.2)
    {gss : List (List Gadget)} (h : (xs.mapM fun x => gadgets name
      (((args x).map (via .ofNat)).map .plain ++ angleOperands params)) = .ok gss)
    (hfits : ∀ g ∈ gss.flatten, g.Fits n) :
    ∃ gss', (xs.mapM fun x => gadgets name
      (((args x).map (via image)).map .plain ++ angleOperands params)) = .ok gss' ∧
      List.Forall₂ (Renamed σ) gss.flatten gss'.flatten := by
  obtain ⟨gss', hgss', hall⟩ := mapM_transfer (R := List.Forall₂ (Renamed σ)) (fun x hx gs hgs hfit =>
    gadgets_renamed himage hknown (hlen x hx) hparams hgs hfit) h
    fun gs hgs g hg => hfits g (mem_flatten.mpr ⟨gs, hgs, hg⟩)
  exact ⟨gss', hgss', rel_flatten hall⟩

lemma statementGadgets_renamed {s : Statement} {gs : List Gadget}
    (h : statementGadgets (w.rename (via .ofNat)) s = .ok gs) (hfits : ∀ g ∈ gs, g.Fits n) :
    ∃ gs', statementGadgets (w.rename (via image)) s = .ok gs' ∧ Forall₂ (Renamed σ) gs gs' := by
  cases s with
  | u theta phi lam q =>
    rw [statementGadgets, Wiring.qubits_rename] at h ⊢
    cases hqs : w.qubits q with
    | error e => simp [hqs, Except.map, bind, Except.bind] at h
    | ok qs =>
      simp only [hqs, Except.map, ok_bind, mapM_map] at h ⊢
      obtain ⟨gss, hgss, h⟩ := bind_eq_ok.mp h
      cases h
      have hknown : knownGates.find? (fun g => g.1 == "u3") = some ("u3", 1, 3) := rfl
      obtain ⟨gss', hgss', hall⟩ := mapM_renamed himage (fun v => [v]) hknown (fun _ _ => rfl)
        (show [theta, phi, lam].length = 3 from rfl) hgss hfits
      exact ⟨_, bind_eq_ok.mpr ⟨gss', hgss', rfl⟩, hall⟩
  | cx c t =>
    rw [statementGadgets, Wiring.pairs_rename] at h ⊢
    cases hps : w.pairs c t with
    | error e => simp [hps, Except.map, bind, Except.bind] at h
    | ok ps =>
      simp only [hps, Except.map, ok_bind, mapM_map] at h ⊢
      obtain ⟨gss, hgss, h⟩ := bind_eq_ok.mp h
      cases h
      have hknown : knownGates.find? (fun g => g.1 == "cx") = some ("cx", 2, 0) := rfl
      obtain ⟨gss', hgss', hall⟩ := mapM_renamed himage (fun p : Value × Value => [p.1, p.2]) hknown
        (fun _ _ => rfl) (show ([] : List Angle).length = 0 from rfl) hgss hfits
      exact ⟨_, bind_eq_ok.mpr ⟨gss', hgss', rfl⟩, hall⟩
  | gate name ts params =>
    simp only [statementGadgets, gateGadgets_eq_ok, Wiring.operands_rename] at h ⊢
    cases hqss : w.operands ts with
    | error e => simp [hqss, Except.map] at h
    | ok qss =>
      simp only [hqss, Except.map, Except.ok.injEq, exists_eq_left', mapM_map] at h ⊢
      rcases h with ⟨hnone, rfl⟩ | ⟨k, hknown, hts, hparams, gss, hgss, rfl⟩
      · exact ⟨[], .inl ⟨hnone, rfl⟩, .nil⟩
      · obtain ⟨gss', hgss', hall⟩ := mapM_renamed himage id hknown
          (fun qs hqs => (operands_length hqss qs hqs).trans hts) hparams hgss hfits
        exact ⟨_, .inr ⟨k, hknown, hts, hparams, gss', hgss', rfl⟩, hall⟩
  | version | comment | load | declare =>
    cases h
    exact ⟨[], rfl, .nil⟩
  | measure | reset | barrier | guarded => cases h

end Qasm

namespace PhaseCircuit

open Qasm

variable {p : Program} {m : Value} {allow : Bool} {c : PhaseCircuit}

lemma images_presents {σ : Perm (Fin n)} (hm : Presents σ m) :
    Qasm.images n m = .ok fun i => (values σ)[i]?.getD .null := by
  cases hm with
  | list =>
    simp only [Qasm.images, Presents.check_eq .list]
    rfl
  | dict hperm =>
    simp only [Qasm.images, Presents.check_eq (.dict hperm)]
    rfl

lemma equal_of_carried {g : Gadget} {k l : Cell} (hg : g.angle.isAngle) (hk : Carried σ g k)
    (hl : Carried σ (cellOf n g).gadget l) : k.gadget.equal l.gadget := by
  have hlegs : k.gadget.legs = l.gadget.legs := by
    refine legs_ext hk.proper hl.proper fun i => (hk.legs i).trans ?_
    simp only [hl.legs, mem_stored_legs]
  have hbasis : k.basis = l.basis := hk.basis.trans hl.basis.symm
  have hangle : k.angle = l.angle :=
    (hk.angle.trans (reduceAngle_reduceAngle g.angle).symm).trans hl.angle.symm
  have hsame : k.gadget = l.gadget := Gadget.mk.injEq .. ▸ ⟨hbasis, hangle, hlegs, rfl⟩
  rw [← hsame]
  exact Cell.equal_self (hk.angle ▸ AngleExpr.isAngle_reduceAngle hg)

/-- Reading a program with its qubits renamed is reading it and renaming the qubits of the circuit. -/
theorem ofProgram_mapped (σ : Perm (Fin p.numQubits)) (hm : Presents σ m)
    (h : ofProgram p .null allow = .ok c) :
    ∃ d d', ofProgram p m allow = .ok d ∧ c.mapped m = .ok d' ∧ d.same d' = .ok true := by
  obtain ⟨hallow, hpos, -⟩ := ofProgram_eq_ok.mp h
  obtain ⟨_, gss, himage, hgss, hfits, hwf, hsize, hcells⟩ := ofProgram_cells h
  cases himage
  rw [wiring_via p .ofNat] at hgss
  obtain ⟨image, hvalues, himage⟩ : ∃ image : Nat → Value, (fun i => (values σ)[i]?.getD .null) = image ∧
      ∀ i : Fin p.numQubits, image i = .ofNat (σ i) :=
    ⟨_, rfl, fun i => by rw [values_getElem?]; rfl⟩
  obtain ⟨gss', hgss', hall⟩ := mapM_transfer (R := List.Forall₂ (Renamed σ))
    (fun s _ gs hgs hfit => statementGadgets_renamed (w := p.wiring .ofNat) himage hgs hfit)
    hgss fun gs hgs g hg => hfits g (mem_flatten.mpr ⟨gs, hgs, hg⟩)
  rw [← wiring_via, ← hvalues] at hgss'
  have hrenamed := rel_flatten hall
  obtain ⟨d, hd, hdwf, hdsize, hdcells⟩ := ofGadgets_ok (n := p.numQubits) fun g' hg' => by
    obtain ⟨g, -, hg⟩ := of_mem_forall₂ hrenamed g' hg'
    exact hg.fits
  obtain ⟨d', hd', hdwf', hdsize', hdcells'⟩ := mapped_presents hwf hsize hm
  refine ⟨d, d', ofProgram_eq_ok.mpr ⟨hallow, hpos, _, gss', images_presents hm, hgss', hd⟩, hd',
    same_of_cells hdwf hdwf' (hdsize.trans hdsize'.symm) ?_⟩
  rw [hcells, forall₂_map_left_iff] at hdcells'
  rw [hdcells, forall₂_map_left_iff]
  exact forall₂_join hrenamed hdcells' fun g _ g' l hg' hl =>
    equal_of_carried hg'.numeric hg'.carried hl

theorem entangling_mapped : ∃ c d d', ofProgram entangling .null false = .ok c ∧
    ofProgram entangling (.list [.int 1, .int 2, .int 3, .int 0]) false = .ok d ∧
    c.mapped (.list [.int 1, .int 2, .int 3, .int 0]) = .ok d' ∧ d.same d' = .ok true := by
  have haccepted : (ofProgram entangling .null false).toOption.isSome = true := by cbv
  obtain ⟨c, hc⟩ := exists_ok haccepted
  have hm : Presents (finRotate 4) (.list [.int 1, .int 2, .int 3, .int 0]) := .list
  obtain ⟨d, d', hread, hmapped, hsame⟩ := ofProgram_mapped (p := entangling) (finRotate 4) hm hc
  exact ⟨c, d, d', hc, hread, hmapped, hsame⟩

end PhaseCircuit

end GadgetCircuits
