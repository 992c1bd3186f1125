import GadgetCircuits.Proofs.FlipCount
import GadgetCircuits.Proofs.Flips
import GadgetCircuits.Proofs.LayerPool

/-!
Flips that are asked for and flips that are drawn. A conjugated circuit draws a layer and one of its
flippable gates until the gate is in neither of the layers beside it. As long as no gate is in two layers
that follow each other, some pair of draws is accepted, and the flip keeps it so.
-/

namespace GadgetCircuits

open List Update CXLayer

namespace CXLayer

variable {t : Topology} {l l' : CXLayer} {g h : CX}

lemma Reached.counted (h : Reached t l) (ht : t.WellFormed) (hnodup : t.couplings.Nodup) :
    Counted t l := by
  refine h.of_flips (p := Counted t) (empty_counted t) fun m c d m' hm hf => ?_
  obtain ⟨a, b, -, -, hf⟩ := flipValue_cases hf
  exact hm.flip ht hnodup hf

lemma free_iff_apart : l.Free g.1 ∧ l.Free g.2 ↔ ∀ h ∈ l.gates, CX.Apart h g := by
  constructor
  · intro hfree h hh
    exact CX.apart_of_not_touches (hfree.1 h hh) (hfree.2 h hh)
  · intro hapart
    exact ⟨fun h hh ht => (hapart h hh).not_touches ht (Or.inl rfl),
      fun h hh ht => (hapart h hh).not_touches ht (Or.inr rfl)⟩

/-- The flippable gates are those whose flip is accepted. A layer that is asked for a gate says so of all of
them, and besides of gates whose qubits are free but not coupled. -/
theorem Reached.isFlippableValue_iff_flip (hl : Reached t l) (ht : t.WellFormed) {c d : Nat}
    (hc : c < t.size) (hd : d < t.size) (hne : c ≠ d) :
    ((c, d) ∈ l.flippable ↔ ∃ l', (flipCall (.ofNat c) (.ofNat d)).runFrom l = (.ok (), l')) ∧
    ∃ r, l.isFlippableValue (.ofNat c) (.ofNat d) = .ok r ∧
      (r = true ↔ (∃ l', (flipCall (.ofNat c) (.ofNat d)).runFrom l = (.ok (), l')) ∨
        (t.hasCoupling c d = false ∧ l.Free c ∧ l.Free d)) := by
  obtain ⟨hvalid, rfl⟩ := hl.valid
  have hq : ∀ q : Nat, qubit (.ofNat q) = .ok q := fun q => qubit_eq_ok.mpr rfl
  have haccepted : (c, d) ∈ l.flippable ↔
      ∃ l', (flipCall (.ofNat c) (.ofNat d)).runFrom l = (.ok (), l') := by
    simp only [flipCall_eq_ok, flipValue_eq (hq c) (hq d) hc]
    exact mem_flippable_iff_flip hvalid ht
  obtain ⟨r, hr, hiff⟩ := isFlippableValue_iff hvalid (hq c) (hq d) hc hd hne
  refine ⟨haccepted, r, hr, ?_⟩
  have hcoupled : (c, d) ∈ l.gates → l.topology.hasCoupling c d = true := fun hg =>
    (CX.coupling_mem_iff _ (c, d)).mp (hvalid.coupled _ hg)
  rw [hiff, ← haccepted, mem_flippable hvalid ht, ← free_iff_apart]
  cases hk : l.topology.hasCoupling c d with
  | true => simp
  | false =>
    have hnot : (c, d) ∉ l.gates := fun hg => by simp [hcoupled hg] at hk
    simp [hnot]

def lineOfThree : Topology where
  size := 3
  couplings := [(0, 1), (1, 2)]

lemma lineOfThree_wellFormed : lineOfThree.WellFormed := by
  simp [Topology.WellFormed, lineOfThree]

lemma lineOfThree_empty : Reached lineOfThree (empty lineOfThree) :=
  .made (show ofValue lineOfThree (.list []) = .ok _ from rfl)

lemma lineOfThree_insert : Reached lineOfThree ((empty lineOfThree).insert (0, 1)) :=
  lineOfThree_empty.flipped (c := .int 0) (d := .int 1) rfl

/-- On the line, after a flip of the first two qubits, the last two are blocked. -/
theorem lineOfThree_isFlippableValue_iff_flip : ∃ l,
    Reached lineOfThree l ∧ lineOfThree.WellFormed ∧ 1 < lineOfThree.size ∧ 2 < lineOfThree.size ∧
    l.gates = [(0, 1)] ∧
    ((1, 2) ∈ l.flippable ↔ ∃ l', (flipCall (.ofNat 1) (.ofNat 2)).runFrom l = (.ok (), l')) ∧
    ∃ r, l.isFlippableValue (.ofNat 1) (.ofNat 2) = .ok r ∧
      (r = true ↔ (∃ l', (flipCall (.ofNat 1) (.ofNat 2)).runFrom l = (.ok (), l')) ∨
        (lineOfThree.hasCoupling 1 2 = false ∧ l.Free 1 ∧ l.Free 2)) :=
  ⟨_, lineOfThree_insert, lineOfThree_wellFormed, by decide, by decide, rfl,
    lineOfThree_insert.isFlippableValue_iff_flip lineOfThree_wellFormed (by decide) (by decide)
      (by decide)⟩

/-- On a line of three qubits the gate between the ends counts as flippable, and its flip is refused. -/
theorem uncoupled_ends_flippable : ∃ t e,
    Topology.ofValues (.int 3) (.list [.list [.int 0, .int 1], .list [.int 1, .int 2]]) = .ok t ∧
    (empty t).isFlippableValue (.int 0) (.int 2) = .ok true ∧
    (flipCall (.int 0) (.int 2)).runFrom (empty t) = (.error e, empty t) ∧
    (0, 2) ∉ (empty t).flippable := by
  obtain ⟨t, hof, hsize, hout⟩ : ∃ t, Topology.ofValues (.int 3)
      (.list [.list [.int 0, .int 1], .list [.int 1, .int 2]]) = .ok t ∧ t.size = 3 ∧
      (0, 2) ∉ t.couplings := by
    have hout : (0, 2) ∉ (Topology.ofPairs 3 [(0, 1), (1, 2)]).couplings := by
      rw [Topology.ofPairs, Topology.mem_sortPairs]
      decide
    exact ⟨_, rfl, rfl, hout⟩
  have hvalid := empty_valid t
  have ht := Topology.ofValues_wellFormed hof
  have hnot : (0, 2) ∉ (empty t).flippable := fun hmem =>
    hout ((CX.coupling_mem_iff t (0, 2)).mpr ((mem_flippable hvalid ht).mp hmem).1)
  have hq : ∀ q : Nat, qubit (.int q) = .ok q := fun q => qubit_eq_ok.mpr rfl
  have h₀ : 0 < (empty t).topology.size := by simp [empty, hsize]
  have h₂ : 2 < (empty t).topology.size := by simp [empty, hsize]
  obtain ⟨r, hr, hiff⟩ := isFlippableValue_iff hvalid (hq 0) (hq 2) h₀ h₂ (by decide)
  obtain rfl : r = true := hiff.mpr (Or.inr fun g hg => absurd hg not_mem_nil)
  rcases flipCall_cases (empty t) (.int 0) (.int 2) with ⟨l', hf, -⟩ | ⟨e, -, hrun⟩
  · have hflip := (flipValue_eq (hq 0) (hq 2) h₀).symm.trans hf
    exact absurd ((mem_flippable_iff_flip hvalid ht).mpr ⟨l', hflip⟩) hnot
  · exact ⟨t, e, hof, hr, hrun, hnot⟩

end CXLayer

namespace ConjugatedCircuit

variable {t : Topology} {c c' : ConjugatedCircuit} {l l' m : CXLayer} {g : CX} {k : Nat}
variable {layers : List CXLayer}

/-- No gate is in two layers that follow each other. -/
def Irredundant (c : ConjugatedCircuit) : Prop :=
  ∀ i l m, c.cx.layers[i]? = some l → c.cx.layers[i + 1]? = some m → ∀ g ∈ l.gates, g ∉ m.gates

lemma hasGate_iff (hl : l.Valid) : l.hasGate g ↔ g ∈ l.gates := by
  rw [hasGate, beq_iff_eq, hl.gateOn_eq_some]
  exact and_iff_left rfl

lemma inLayer_iff (hv : ∀ l ∈ layers, l.Valid) :
    ((Slice.position? layers.length k).bind fun j => layers[j]?).any (fun l => l.hasGate g) ↔
      ∃ m, layers[k]? = some m ∧ g ∈ m.gates := by
  have hneg : ¬ (k : Int) < 0 := by omega
  by_cases hk : k < layers.length
  · simp [Slice.position?, hneg, hk, hasGate_iff (hv layers[k] (getElem_mem hk))]
  · simp [Slice.position?, hneg, hk]

lemma isRedundant_iff (hv : ∀ l ∈ layers, l.Valid) :
    isRedundant layers k g ↔ (∃ m, layers[k + 1]? = some m ∧ g ∈ m.gates) ∨
      ∃ j m, j + 1 = k ∧ layers[j]? = some m ∧ g ∈ m.gates := by
  simp only [isRedundant, Bool.or_eq_true, Bool.and_eq_true, decide_eq_true_eq]
  refine or_congr ?_ ?_
  · have hnext := inLayer_iff (k := k + 1) (g := g) hv
    grind
  · cases k with
    | zero => simp
    | succ j =>
      rw [Nat.cast_add, Nat.cast_one, Int.add_sub_cancel, inLayer_iff hv, and_iff_right (by omega)]
      simp

lemma mem_gates_of_flip {a b : Nat} {h : CX} (hl : l.Valid) (hf : l.flip a b = .ok l')
    (hh : h ∈ l'.gates) : h ∈ l.gates ∨ h = (a, b) := by
  rcases CXLayer.flip_cases hl hf with ⟨-, rfl⟩ | ⟨-, -, -, -, -, rfl⟩
  · exact Or.inl (mem_of_mem_filter hh)
  · simpa [CXLayer.insert] using hh

lemma Irredundant.flip (hc : c.Irredundant) (hv : ∀ l ∈ c.cx.layers, l.Valid)
    (hl : c.cx.layers[k]? = some l) (hf : l.flip g.1 g.2 = .ok l')
    (hr : isRedundant c.cx.layers k g = false) (hc' : c'.cx.layers = c.cx.layers.set k l') :
    c'.Irredundant := by
  have hout := mt (isRedundant_iff (k := k) (g := g) hv).mpr (by simp [hr])
  push Not at hout
  have hkeep : ∀ {i m}, c'.cx.layers[i]? = some m → c.cx.layers[i]? = some m ∨ (i = k ∧ m = l') := by grind
  have hgate : ∀ h ∈ l'.gates, h ∈ l.gates ∨ h = g := fun h hh =>
    mem_gates_of_flip (hv l (mem_of_getElem? hl)) hf hh
  intro i m₁ m₂ h₁ h₂ h hm₁ hm₂
  rcases hkeep h₁ with h₁ | ⟨rfl, rfl⟩ <;> rcases hkeep h₂ with h₂ | ⟨hi, rfl⟩
  · exact hc i _ _ h₁ h₂ h hm₁ hm₂
  · rcases hgate h hm₂ with hh | rfl
    · exact hc i _ _ h₁ (hi ▸ hl) h hm₁ hh
    · exact hout.2 i m₁ hi h₁ hm₁
  · rcases hgate h hm₁ with hh | rfl
    · exact hc i _ _ hl h₂ h hh hm₂
    · exact hout.1 m₂ h₂ hm₂
  · omega

/-- The draws are the number of a layer and the number of one of its flippable gates. -/
def Offers (c : ConjugatedCircuit) (d : Nat × Nat) : Prop :=
  ∃ l, c.cx.layers[d.1]? = some l ∧ (d.2 : Int) < l.numFlippable

/-- The draws select a gate that is in neither of the layers beside its own. -/
def Takes (c : ConjugatedCircuit) (d : Nat × Nat) (g : CX) : Prop :=
  ∃ l, c.cx.layers[d.1]? = some l ∧ l.drawn d.2 = .ok g ∧ isRedundant c.cx.layers d.1 g = false

def numbers (draws : List (Nat × Nat)) : List Int :=
  draws.flatMap fun d => [(d.1 : Int), (d.2 : Int)]

section

variable (ht : t.WellFormed) (hlayers : ∀ l ∈ c.cx.layers, CXLayer.Counted t l)

include ht hlayers in
lemma Offers.selects {d : Nat × Nat} (hd : c.Offers d) : ∃ l g l',
    c.cx.layers[d.1]? = some l ∧ l.drawn d.2 = .ok g ∧ l.flip g.1 g.2 = .ok l' := by
  obtain ⟨l, hl, hlt⟩ := hd
  obtain ⟨hvalid, rfl, hcount⟩ := hlayers l (mem_of_getElem? hl)
  have hlt : (d.2 : Int).toNat < l.flippable.length := by omega
  have hmem := getElem_mem hlt
  obtain ⟨l', hf⟩ := (mem_flippable_iff_flip hvalid ht).mp hmem
  exact ⟨l, _, l', hl, drawn_eq (by omega) hlt, hf⟩

include hlayers in
lemma exists_draw (hl : c.cx.layers[k]? = some l) (hg : g ∈ l.flippable) :
    ∃ v, c.Offers (k, v) ∧ l.drawn v = .ok g := by
  obtain ⟨v, hv, rfl⟩ := mem_iff_getElem.mp hg
  have hcount := (hlayers l (mem_of_getElem? hl)).count
  exact ⟨v, ⟨l, hl, by simp only; omega⟩, drawn_eq (by omega) (by simpa using hv)⟩

include ht hlayers in
lemma Irredundant.exists_takes (hc : c.Irredundant) (hcoupled : t.couplings ≠ [])
    (hne : c.cx.layers ≠ []) : ∃ d g, c.Offers d ∧ c.Takes d g := by
  -- It is enough to find a flippable gate that neither neighbour has.
  have hfound : ∀ (k : Nat) l g, c.cx.layers[k]? = some l → g ∈ l.flippable →
      (∀ m, c.cx.layers[k + 1]? = some m → g ∉ m.gates) →
      (∀ j m, j + 1 = k → c.cx.layers[j]? = some m → g ∉ m.gates) →
      ∃ d g, c.Offers d ∧ c.Takes d g := by
    intro k l g hl hg hnext hprevious
    obtain ⟨v, hoffers, hdrawn⟩ := exists_draw hlayers hl hg
    refine ⟨(k, v), g, hoffers, l, hl, hdrawn, ?_⟩
    rw [← Bool.not_eq_true, isRedundant_iff fun l hl => (hlayers l hl).valid]
    rintro (⟨m, hm, hgm⟩ | ⟨j, m, hj, hm, hgm⟩)
    · exact hnext m hm hgm
    · exact hprevious j m hj hm hgm
  by_cases hgates : ∃ l ∈ c.cx.layers, ∃ g, g ∈ l.gates
  · obtain ⟨l, hl, g, hg⟩ := hgates
    obtain ⟨hvalid, rfl, -⟩ := hlayers l hl
    obtain ⟨k, hk⟩ := mem_iff_getElem?.mp hl
    have hflippable := (mem_flippable hvalid ht).mpr
      ⟨(CX.coupling_mem_iff _ g).mp (hvalid.coupled g hg), Or.inl hg⟩
    refine hfound k l g hk hflippable (fun m hm => hc k l m hk hm g hg) ?_
    rintro j m rfl hm hgm
    exact hc j m l hm hk g hgm hg
  · push Not at hgates
    obtain ⟨l, hl⟩ := exists_mem_of_ne_nil _ hne
    obtain ⟨hvalid, rfl, -⟩ := hlayers l hl
    obtain ⟨k, hk⟩ := mem_iff_getElem?.mp hl
    obtain ⟨e, he⟩ := exists_mem_of_ne_nil _ hcoupled
    have hcoupling : l.topology.hasCoupling e.1 e.2 := by
      rw [← CX.coupling_mem_iff _ (e.1, e.2), CX.coupling, Coupling.ordered, if_pos (ht e he).1]
      exact he
    have hfree : ∀ q, l.Free q := fun q g hg => absurd hg (hgates l hl g)
    exact hfound k l e hk
      ((mem_flippable hvalid ht).mpr ⟨hcoupling, Or.inr ⟨hfree _, hfree _⟩⟩)
      (fun m hm => hgates m (mem_of_getElem? hm) e)
      fun _ m _ hm => hgates m (mem_of_getElem? hm) e

end

lemma conjugate_keeps_cx (c : ConjugatedCircuit) (g : CX) :
    ((conjugate g).runFrom c).2.cx = c.cx := by
  simp only [conjugate, runFrom_bind, runFrom_get, runFrom_lift]
  cases c.phase.conjugateValues (.ofNat g.1) (.ofNat g.2) <;> rfl

lemma forM_conjugate_keeps_cx (c : ConjugatedCircuit) (word : List CX) :
    ((word.forM conjugate).runFrom c).2.cx = c.cx := by
  induction word generalizing c with
  | nil => rfl
  | cons g word ih =>
    have hone := conjugate_keeps_cx c g
    rw [show (g :: word).forM conjugate = conjugate g >>= fun _ => word.forM conjugate from rfl,
      runFrom_bind]
    grind

lemma flipAt_layers (hvalid : l.Valid) (hl : c.cx.layers[k]? = some l)
    (hf : l.flip g.1 g.2 = .ok l') :
    ((flipAt k (.ofNat g.1) (.ofNat g.2)).runFrom c).2.cx.layers = c.cx.layers.set k l' := by
  have hq : ∀ q : Nat, qubit (.ofNat q) = .ok q := fun q => qubit_eq_ok.mpr rfl
  have hlt := (flip_within hvalid hf).1
  simp only [flipAt, runFrom_bind, runFrom_get, hl, runFrom_lift,
    runFrom_set, flipValue_eq (hq g.1) (hq g.2) hlt, hf, hq]
  rw [forM_conjugate_keeps_cx]

lemma position?_layer (hl : c.cx.layers[k]? = some l) :
    Slice.position? c.cx.layers.length k = some k := by
  have hlt := (List.getElem?_eq_some_iff.mp hl).1
  simp [Slice.position?, show ¬ (k : Int) < 0 by omega, hlt]

lemma randomFlip_cons {d : Nat × Nat} (hl : c.cx.layers[d.1]? = some l) (hg : l.drawn d.2 = .ok g)
    (rest : List (Nat × Nat)) :
    (randomFlip (numbers (d :: rest))).runFrom c =
      if isRedundant c.cx.layers d.1 g then (randomFlip (numbers rest)).runFrom c
      else (do flipAt d.1 (.ofNat g.1) (.ofNat g.2); return ((d.1 : Int), g, numbers rest) :
        Update ConjugatedCircuit _).runFrom c := by
  change (randomFlip ((d.1 : Int) :: (d.2 : Int) :: numbers rest)).runFrom c = _
  rw [randomFlip]
  simp only [runFrom_bind, runFrom_get, position?_layer hl, hl, Option.getD_some, runFrom_lift, hg]
  split <;> simp only [runFrom_bind]

lemma randomFlip_append (ht : t.WellFormed) (hlayers : ∀ l ∈ c.cx.layers, CXLayer.Counted t l)
    {before : List (Nat × Nat)} (hbefore : ∀ d ∈ before, c.Offers d ∧ ∀ g, ¬ c.Takes d g)
    (rest : List (Nat × Nat)) :
    (randomFlip (numbers (before ++ rest))).runFrom c = (randomFlip (numbers rest)).runFrom c := by
  induction before with
  | nil => rfl
  | cons d before ih =>
    obtain ⟨⟨hd, hnot⟩, hbefore⟩ := forall_mem_cons.mp hbefore
    obtain ⟨l, g, -, hl, hg, -⟩ := hd.selects ht hlayers
    have hr : isRedundant c.cx.layers d.1 g := by
      by_contra h
      exact hnot g ⟨l, hl, hg, by simpa using h⟩
    rw [cons_append, randomFlip_cons hl hg, if_pos hr, ih hbefore]

/-- The first draws that are taken are those whose gate is flipped. -/
theorem randomFlip_takes (hlayers : ∀ l ∈ c.cx.layers, CXLayer.Counted t l) {d : Nat × Nat}
    (hl : c.cx.layers[d.1]? = some l) (hg : l.drawn d.2 = .ok g)
    (hr : isRedundant c.cx.layers d.1 g = false) (hf : l.flip g.1 g.2 = .ok l')
    (after : List (Nat × Nat)) :
    ∃ r c', (randomFlip (numbers (d :: after))).runFrom c = (r, c') ∧
      c'.cx.layers = c.cx.layers.set d.1 l' ∧
      (t.size ≤ c.phase.size → r = .ok ((d.1 : Int), g, numbers after)) := by
  have hq : ∀ q : Nat, qubit (.ofNat q) = .ok q := fun q => qubit_eq_ok.mpr rfl
  have hset := flipAt_layers (hlayers l (mem_of_getElem? hl)).valid hl hf
  have hok : t.size ≤ c.phase.size →
      ((flipAt d.1 (.ofNat g.1) (.ofNat g.2)).runFrom c).1 = .ok () := by
    intro hsize
    have hv : ∀ k ∈ c.cx.layers, k.Valid ∧ k.topology.size ≤ c.phase.size := fun k hk =>
      ⟨(hlayers k hk).valid, by rwa [(hlayers k hk).topology]⟩
    rw [flipAt_accepted hv hl (hq g.1) (hq g.2) hf]
  rw [randomFlip_cons hl hg, hr, if_neg Bool.false_ne_true, runFrom_bind]
  cases hrun : (flipAt d.1 (.ofNat g.1) (.ofNat g.2)).runFrom c with
  | mk r c' =>
    rw [hrun] at hset hok
    cases r with
    | error e => exact ⟨_, _, rfl, hset, fun hsize => nomatch hok hsize⟩
    | ok _ => exact ⟨_, _, rfl, hset, fun _ => rfl⟩

/-- The circuit after random flips, each with draws in the ranges that it has at its time. -/
inductive Drifts (c : ConjugatedCircuit) : ConjugatedCircuit → Prop
  | refl : Drifts c c
  | step {c' c'' : ConjugatedCircuit} {draws : List (Nat × Nat)}
      {r : Except Error (Int × CX × List Int)} (h : Drifts c c') (hdraws : ∀ d ∈ draws, c'.Offers d)
      (hrun : (randomFlip (numbers draws)).runFrom c' = (r, c'')) : Drifts c c''

structure Drifting (t : Topology) (c : ConjugatedCircuit) : Prop where
  layers : ∀ l ∈ c.cx.layers, CXLayer.Counted t l
  nonempty : c.cx.layers ≠ []
  irredundant : c.Irredundant

lemma Drifting.flip (hc : Drifting t c) (ht : t.WellFormed) (hnodup : t.couplings.Nodup)
    (hl : c.cx.layers[k]? = some l) (hf : l.flip g.1 g.2 = .ok l')
    (hr : isRedundant c.cx.layers k g = false) (hc' : c'.cx.layers = c.cx.layers.set k l') :
    Drifting t c' where
  layers := by
    rw [hc']
    intro m hm
    rcases mem_or_eq_of_mem_set hm with hm | rfl
    · exact hc.layers m hm
    · exact (hc.layers l (mem_of_getElem? hl)).flip ht hnodup hf
  nonempty := by
    rw [hc', ne_eq, ← length_eq_zero_iff, length_set, length_eq_zero_iff]
    exact hc.nonempty
  irredundant := hc.irredundant.flip (fun m hm => (hc.layers m hm).valid) hl hf hr hc'

lemma Drifting.randomFlip (hc : Drifting t c) (ht : t.WellFormed) (hnodup : t.couplings.Nodup)
    {draws : List (Nat × Nat)} (hdraws : ∀ d ∈ draws, c.Offers d) :
    Drifting t ((randomFlip (numbers draws)).runFrom c).2 := by
  induction draws with
  | nil => exact hc
  | cons d draws ih =>
    obtain ⟨hd, hdraws⟩ := forall_mem_cons.mp hdraws
    obtain ⟨l, g, l', hl, hg, hf⟩ := hd.selects ht hc.layers
    cases hr : isRedundant c.cx.layers d.1 g with
    | true =>
      rw [randomFlip_cons hl hg, if_pos hr]
      exact ih hdraws
    | false =>
      obtain ⟨r, c', hrun, hset, -⟩ := randomFlip_takes hc.layers hl hg hr hf draws
      rw [hrun]
      exact hc.flip ht hnodup hl hf hr hset

lemma Drifts.drifting (h : c.Drifts c') (hc : Drifting t c) (ht : t.WellFormed)
    (hnodup : t.couplings.Nodup) : Drifting t c' := by
  induction h with
  | refl => exact hc
  | step _ hdraws hrun ih =>
    have hnext := ih.randomFlip ht hnodup hdraws
    rwa [hrun] at hnext

/-- Random flips never get stuck and never put a gate into two layers that follow each other. In every state
that they lead to some draws are taken; draws that are not taken are passed over, and the first that are
flip their gate. -/
theorem drifts_take_draws (ht : t.WellFormed) (hnodup : t.couplings.Nodup) (hcoupled : t.couplings ≠ [])
    (hne : c.cx.layers ≠ []) (hlayers : ∀ l ∈ c.cx.layers, CXLayer.Reached t l) (hc : c.Irredundant)
    (h : c.Drifts c') :
    c'.Irredundant ∧ (∃ d g, c'.Offers d ∧ c'.Takes d g) ∧
    ∀ before, (∀ d ∈ before, c'.Offers d ∧ ∀ g, ¬ c'.Takes d g) →
      (randomFlip (numbers before)).runFrom c' = (.error .outOfRange, c') ∧
      ∀ d g after, c'.Offers d → c'.Takes d g →
        ∃ l l' r c'', c'.cx.layers[d.1]? = some l ∧ l.flip g.1 g.2 = .ok l' ∧
          (randomFlip (numbers (before ++ d :: after))).runFrom c' = (r, c'') ∧
          c''.cx.layers = c'.cx.layers.set d.1 l' ∧ c''.Irredundant ∧
          (t.size ≤ c'.phase.size → r = .ok ((d.1 : Int), g, numbers after)) := by
  have hstart : Drifting t c := ⟨fun l hl => (hlayers l hl).counted ht hnodup, hne, hc⟩
  have hnow := h.drifting hstart ht hnodup
  refine ⟨hnow.irredundant, hnow.irredundant.exists_takes ht hnow.layers hcoupled hnow.nonempty, ?_⟩
  intro before hbefore
  refine ⟨?_, fun d g after hd htakes => ?_⟩
  · rw [← append_nil before, randomFlip_append ht hnow.layers hbefore]
    rfl
  · obtain ⟨l, hl, hg, hr⟩ := htakes
    obtain ⟨l₁, g₁, l', hl₁, hg₁, hf⟩ := hd.selects ht hnow.layers
    obtain rfl := Option.some.inj (hl.symm.trans hl₁)
    obtain rfl := Except.ok.inj (hg.symm.trans hg₁)
    obtain ⟨r, c'', hrun, hset, hok⟩ := randomFlip_takes hnow.layers hl hg hr hf after
    refine ⟨l, l', r, c'', hl, hf, ?_, hset, (hnow.flip ht hnodup hl hf hr hset).irredundant, hok⟩
    rw [randomFlip_append ht hnow.layers hbefore, hrun]

/-- The first draws select the gate of the layer below and are passed over, the second ones are taken. -/
theorem twoLayers_drifts_take_draws :
    twoLayers.Irredundant ∧ ∃ c', twoLayers.Drifts c' ∧
      c'.cx.layers.map CXLayer.gates = [[(0, 1)], [(1, 2)]] ∧ c'.Irredundant ∧
      ∃ d g, c'.Offers d ∧ c'.Takes d g := by
  have hlayers : ∀ l ∈ twoLayers.cx.layers, CXLayer.Reached lineOfThree l := by
    intro l hl
    rcases mem_cons.mp hl with rfl | hl
    · exact lineOfThree_insert
    · rw [mem_singleton.mp hl]
      exact lineOfThree_empty
  have hirredundant : twoLayers.Irredundant := by
    intro i l m hl hm
    rcases i with _ | i
    · cases hm
      exact fun _ _ => not_mem_nil
    · cases hm
  have hdrifts : twoLayers.Drifts
      ((randomFlip (numbers [(1, 0), (1, 2)])).runFrom twoLayers).2 := by
    refine .step .refl (fun d hd => ?_) rfl
    rcases mem_pair.mp hd with rfl | rfl <;> exact ⟨_, rfl, by decide⟩
  have h := drifts_take_draws lineOfThree_wellFormed (by decide) (by decide) (by decide) hlayers
    hirredundant hdrifts
  exact ⟨hirredundant, _, hdrifts, rfl, h.1, h.2.1⟩

end ConjugatedCircuit

end GadgetCircuits
