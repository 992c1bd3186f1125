import GadgetCircuits.Proofs.ParityMatrix

/-!
Circuits read again, circuits one after the other, and circuits through all that can be done to them. A
composition has the layers of its right part alone. New circuits are checked, but layers that are there
already are appended without a check, so a circuit is on its topology exactly if all was that was appended.
-/

namespace GadgetCircuits

open Parity LayerPool CXLayer CXOperand

open scoped Matrix

namespace LayerPool

variable {p p' : LayerPool} {a b c d : CXCircuit Nat}

lemma dag_eq_error : p.dag c = .error .layerTopology ↔
    ∃ i ∈ c.layers, (p.layer i).topology.same c.topology = false := by
  rw [dag, make]
  simp

lemma OnTopology.dag_eq (hc : p.OnTopology c) :
    p.dag c = .ok { topology := c.topology, layers := c.layers } := by
  refine make_eq_ok.mpr ⟨fun i hi => ?_, rfl⟩
  exact (hc.layer (List.mem_map_of_mem hi)).2

/-- A circuit is read again exactly if its layers are on its topology. It then has the same layers in the
same order and the same matrix, which is the inverse exactly if it is inverse to itself. The inverse is
always that of the layers in reverse order. -/
theorem dag_keeps_order (p : LayerPool) (c : CXCircuit Nat) :
    (p.dag c = .error .layerTopology ↔
      ∃ i ∈ c.layers, (p.layer i).topology.same c.topology = false) ∧
    (p.OnTopology c → ∃ (d : CXCircuit Nat) (A : BitMatrix c.topology.size),
      p.dag c = .ok d ∧ d.topology = c.topology ∧ d.layers = c.layers ∧
      (p.resolve c).parityMatrix false = .ok (Parity.ofMatrix A) ∧
      (p.resolve d).parityMatrix false = .ok (Parity.ofMatrix A) ∧
      ((p.resolve d).parityMatrix false = .ok (Parity.ofMatrix A⁻¹) ↔ A * A = 1) ∧
      (p.resolve { d with layers := c.layers.reverse }).parityMatrix false =
        .ok (ofMatrix A⁻¹)) := by
  refine ⟨dag_eq_error, fun hc => ?_⟩
  have hproper := hc.proper rfl
  have hread : (p.resolve { topology := c.topology, layers := c.layers }).layers =
      (p.resolve c).layers := rfl
  have hturned : (p.resolve { topology := c.topology, layers := c.layers.reverse }).layers =
      (p.resolve c).layers.reverse := List.map_reverse
  obtain ⟨hproper', hproduct⟩ := hproper.same_layers rfl hread
  obtain ⟨hreverse, hinverse⟩ := hproper.reverse rfl hturned
  have hrows := hproduct ▸ hproper'.rows
  refine ⟨_, (p.resolve c).product c.topology.size, hc.dag_eq, rfl, rfl, hproper.rows, hrows, ?_,
    hinverse ▸ hreverse.rows⟩
  rw [hrows]
  constructor
  · intro h
    have hself : (p.resolve c).product c.topology.size = ((p.resolve c).product c.topology.size)⁻¹ :=
      ofMatrix_unique rfl h
    nth_rewrite 2 [hself]
    exact Matrix.mul_nonsing_inv _ ((Matrix.isUnit_iff_isUnit_det _).mp hproper.isUnit)
  · intro h
    rw [Matrix.inv_eq_left_inv h]

theorem stairs_dag_keeps_order :
    stairsPool.OnTopology (stairs [0, 1]) ∧
    ∃ (d : CXCircuit Nat) (A : BitMatrix 3),
      stairsPool.dag (stairs [0, 1]) = .ok d ∧ d.topology = stairsLine ∧ d.layers = [0, 1] ∧
      (stairsPool.resolve (stairs [0, 1])).parityMatrix false = .ok (Parity.ofMatrix A) ∧
      (stairsPool.resolve d).parityMatrix false = .ok (Parity.ofMatrix A) ∧
      ((stairsPool.resolve d).parityMatrix false = .ok (Parity.ofMatrix A⁻¹) ↔ A * A = 1) ∧
      (stairsPool.resolve { d with layers := [1, 0] }).parityMatrix false =
        .ok (ofMatrix A⁻¹) := by
  have hc : stairsPool.OnTopology (stairs [0, 1]) := stairs_onTopology (by decide)
  exact ⟨hc, (dag_keeps_order stairsPool (stairs [0, 1])).2 hc⟩

def stairsMatrix : BitMatrix 3 :=
  !![1, 0, 0; 1, 1, 0; 1, 1, 1]

/-- The layers of the stairs do not commute: read again, the stairs are not turned round and do not undo
themselves. -/
theorem stairs_dag_not_inverse :
    ∃ d, stairsPool.dag (stairs [0, 1]) = .ok d ∧
      (stairsPool.resolve d).layers.map CXLayer.gates ≠
        ((stairsPool.resolve (stairs [0, 1])).layers.map CXLayer.gates).reverse ∧
      ¬ ∃ A B : BitMatrix 3,
        (stairsPool.resolve (stairs [0, 1])).parityMatrix false = .ok (Parity.ofMatrix A) ∧
        (stairsPool.resolve d).parityMatrix false = .ok (Parity.ofMatrix B) ∧ B * A = 1 := by
  refine ⟨stairs [0, 1], rfl, by decide, ?_⟩
  rintro ⟨A, B, hA, hB, hinverse⟩
  have hstairs : (stairsPool.resolve (stairs [0, 1])).parityMatrix false =
      .ok (ofMatrix stairsMatrix) := rfl
  obtain rfl := ofMatrix_unique hA hstairs
  obtain rfl := ofMatrix_unique hB hstairs
  exact absurd hinverse (by decide)

def compose (p : LayerPool) (a b : CXCircuit Nat) : Except Error (LayerPool × CXCircuit Nat) :=
  (copies b.layers).alone p a

/-- The composition is a circuit of new layers, equal to those of the right part. -/
structure Composed (p : LayerPool) (a b : CXCircuit Nat) (p' : LayerPool) (d : CXCircuit Nat) : Prop where
  eq_ok : p.compose a b = .ok (p', d)
  keeps : p.Extends p'
  holds : p'.Holds d.layers
  fresh : ∀ i ∈ d.layers, p.layers.size ≤ i
  resolve : p'.resolve d = { topology := a.topology, layers := (p.resolve b).layers }

lemma Composed.topology (h : p.Composed a b p' d) : d.topology = a.topology := by
  have htopology := congrArg CXCircuit.topology h.resolve
  exact htopology

lemma exists_composed (a : CXCircuit Nat) (hb : p.Holds b.layers) : ∃ p' d, p.Composed a b p' d := by
  obtain ⟨p', is, hrun, hadded⟩ := alone_copies (a := a) hb
  refine ⟨p', _, hrun, hadded.keeps, hadded.holds, hadded.fresh, ?_⟩
  change CXCircuit.mk a.topology (is.map p'.layer) _ = _
  rw [hadded.layers]

lemma compose_assoc (a : CXCircuit Nat) (hb : p.Holds b.layers) (hc : p.Holds c.layers) :
    ∃ p₁ d₁ p₂ d₂ p₃ d₃ p₄ d₄, p.compose a b = .ok (p₁, d₁) ∧ p₁.compose d₁ c = .ok (p₂, d₂) ∧
      p.compose b c = .ok (p₃, d₃) ∧ p₃.compose a d₃ = .ok (p₄, d₄) ∧
      p₂.resolve d₂ = p₄.resolve d₄ := by
  obtain ⟨p₁, d₁, h₁⟩ := exists_composed a hb
  obtain ⟨p₂, d₂, h₂⟩ := exists_composed d₁ (h₁.keeps.holds hc)
  obtain ⟨p₃, d₃, h₃⟩ := exists_composed b hc
  obtain ⟨p₄, d₄, h₄⟩ := exists_composed a h₃.holds
  refine ⟨p₁, d₁, p₂, d₂, p₃, d₃, p₄, d₄, h₁.eq_ok, h₂.eq_ok, h₃.eq_ok, h₄.eq_ok, ?_⟩
  rw [h₂.resolve, h₄.resolve, h₁.keeps.resolve hc, h₃.resolve, h₁.topology]

end LayerPool

namespace CXOperand

open LayerPool (stairsLine stairsPool stairs stairs_onTopology)

variable {p : LayerPool} {a : CXCircuit Nat} {r : Except Error Unit}

lemma alone_eq_append (x : CXOperand) {s : CXSite} (h : x.append.runFrom ⟨p, a⟩ = (r, s)) :
    x.alone p a = r.map fun _ =>
      (s.pool, { topology := a.topology, layers := s.circuit.layers.drop a.layers.length }) := by
  rw [append_run] at h
  obtain ⟨rfl, rfl⟩ := Prod.mk.inj h
  have hdrop : (a.extend (x.appended a.topology p).numbers).layers.drop a.layers.length =
      (x.appended a.topology p).numbers := List.drop_left
  rw [alone_eq, hdrop]
  cases (x.appended a.topology p).result <;> rfl

lemma append_resolve (x : CXOperand) {s : CXSite} (h : x.append.runFrom ⟨p, a⟩ = (r, s))
    {b : CXCircuit Nat} (hb : p.Holds b.layers) :
    s.pool.resolve b = p.resolve b := by
  rw [append_run] at h
  obtain ⟨-, rfl⟩ := Prod.mk.inj h
  exact (x.appended_extends a.topology p).resolve hb

/-- An operand as a new circuit fails as appending it in place does, and else has just the layers that are
appended there. So the composition of two circuits has the layers and the matrix of the right part: those of
both exactly if the left one is empty, or its matrix the identity. Composition is associative. -/
theorem alone_drops_left (p : LayerPool) (a : CXCircuit Nat) :
    (∀ (x : CXOperand) (r : Except Error Unit) (s : CXSite), x.append.runFrom ⟨p, a⟩ = (r, s) →
      (x.alone p a = r.map fun _ =>
        (s.pool, { topology := a.topology, layers := s.circuit.layers.drop a.layers.length })) ∧
      ∀ b, p.Holds b.layers → s.pool.resolve b = p.resolve b) ∧
    (∀ b, p.OnTopology a → p.OnTopology b → b.topology.same a.topology = true →
      ∃ (p' : LayerPool) (d : CXCircuit Nat) (A B : BitMatrix a.topology.size),
        p.compose a b = .ok (p', d) ∧ (∀ i ∈ d.layers, p.layers.size ≤ i) ∧
        p'.resolve d = { topology := a.topology, layers := (p.resolve b).layers } ∧
        (p.resolve a).parityMatrix false = .ok (ofMatrix A) ∧
        (p.resolve b).parityMatrix false = .ok (ofMatrix B) ∧
        (p'.resolve d).parityMatrix false = .ok (ofMatrix B) ∧
        ((p'.resolve d).layers = (p.resolve a).layers ++ (p.resolve b).layers ↔ a.layers = []) ∧
        ((p'.resolve d).parityMatrix false = .ok (ofMatrix (B * A)) ↔ A = 1)) ∧
    ∀ b c, p.Holds b.layers → p.Holds c.layers → ∃ p₁ d₁ p₂ d₂ p₃ d₃ p₄ d₄,
      p.compose a b = .ok (p₁, d₁) ∧ p₁.compose d₁ c = .ok (p₂, d₂) ∧
      p.compose b c = .ok (p₃, d₃) ∧ p₃.compose a d₃ = .ok (p₄, d₄) ∧
      p₂.resolve d₂ = p₄.resolve d₄ := by
  refine ⟨fun x r s h => ⟨x.alone_eq_append h, fun b => x.append_resolve h⟩, fun b ha hb hsame => ?_,
    fun b c => compose_assoc a⟩
  obtain ⟨p', d, hcomposed⟩ := exists_composed a hb.holds
  have hresolve := hcomposed.resolve
  have hproper := ha.proper rfl
  have hproper' := hb.proper (Topology.same_iff.mp hsame).1
  have hlayers : (p'.resolve d).layers = (p.resolve b).layers := by rw [hresolve]
  obtain ⟨hproperd, hproduct⟩ := hproper'.same_layers
    (congrArg Topology.size hcomposed.topology) hlayers
  refine ⟨p', d, _, _, hcomposed.eq_ok, hcomposed.fresh, hresolve, hproper.rows, hproper'.rows,
    hproduct ▸ hproperd.rows, ?_, ?_⟩
  · rw [hlayers, List.self_eq_append_left]
    exact List.map_eq_nil_iff
  · rw [hproperd.rows, hproduct]
    constructor
    · intro h
      have hmul := ofMatrix_unique h rfl
      exact hproper'.isUnit.mul_left_cancel (hmul.trans (mul_one _).symm)
    · intro h
      rw [h, mul_one]

theorem stairs_alone_drops_left :
    stairsPool.OnTopology (stairs [0]) ∧ stairsPool.OnTopology (stairs [1]) ∧
    ∃ (p' : LayerPool) (d : CXCircuit Nat) (A B : BitMatrix 3),
      stairsPool.compose (stairs [0]) (stairs [1]) = .ok (p', d) ∧
      (stairsPool.resolve (stairs [0])).parityMatrix false = .ok (Parity.ofMatrix A) ∧
      (stairsPool.resolve (stairs [1])).parityMatrix false = .ok (Parity.ofMatrix B) ∧
      (p'.resolve d).parityMatrix false = .ok (Parity.ofMatrix B) ∧
      ((p'.resolve d).parityMatrix false = .ok (Parity.ofMatrix (B * A)) ↔ A = 1) := by
  have hlower : stairsPool.OnTopology (stairs [0]) := stairs_onTopology (by decide)
  have hupper : stairsPool.OnTopology (stairs [1]) := stairs_onTopology (by decide)
  obtain ⟨p', d, A, B, hcompose, -, -, hA, hB, hd, -, hproduct⟩ :=
    (alone_drops_left stairsPool (stairs [0])).2.1 _ hlower hupper (Topology.same_refl _)
  exact ⟨hlower, hupper, p', d, A, B, hcompose, hA, hB, hd, hproduct⟩

theorem stairs_compose_loses_lower :
    ∃ p' d, stairsPool.compose (stairs [0]) (stairs [1]) = .ok (p', d) ∧
      (p'.resolve d).layers.map CXLayer.gates ≠
        ((stairsPool.resolve (stairs [0])).layers ++
          (stairsPool.resolve (stairs [1])).layers).map CXLayer.gates ∧
      ¬ ∃ A B : BitMatrix 3,
        (stairsPool.resolve (stairs [0])).parityMatrix false = .ok (Parity.ofMatrix A) ∧
        (stairsPool.resolve (stairs [1])).parityMatrix false = .ok (Parity.ofMatrix B) ∧
        (p'.resolve d).parityMatrix false = .ok (Parity.ofMatrix (B * A)) := by
  refine ⟨_, _, rfl, by decide, ?_⟩
  rintro ⟨A, B, hA, hB, hproduct⟩
  have hlower : (stairsPool.resolve (stairs [0])).parityMatrix false =
      .ok (ofMatrix (!![1, 0, 0; 1, 1, 0; 0, 0, 1] : BitMatrix 3)) := rfl
  have hupper : (stairsPool.resolve (stairs [1])).parityMatrix false =
      .ok (ofMatrix (!![1, 0, 0; 0, 1, 0; 0, 1, 1] : BitMatrix 3)) := rfl
  obtain rfl := ofMatrix_unique hA hlower
  obtain rfl := ofMatrix_unique hB hupper
  exact absurd (ofMatrix_unique hupper hproduct) (by decide)

end CXOperand

open List

namespace LayerPool

variable {p p' : LayerPool} {t : Topology} {c : CXCircuit Nat} {is : List Nat}

/-- Every layer is as it can be made on its topology. -/
def Sound (p : LayerPool) : Prop :=
  ∀ i < p.layers.size, Reached (p.layer i).topology (p.layer i)

/-- The later pool has the layers of the earlier one, on the same topologies. -/
structure Evolves (p p' : LayerPool) : Prop where
  size : p.layers.size ≤ p'.layers.size
  topology : ∀ i < p.layers.size, (p'.layer i).topology = (p.layer i).topology

lemma Extends.evolves (h : p.Extends p') : p.Evolves p' :=
  ⟨h.size, fun i hi => congrArg topology (h.layer i hi)⟩

lemma Evolves.holds (h : p.Evolves p') (his : p.Holds is) : p'.Holds is :=
  fun i hi => (his i hi).trans_le h.size

lemma Evolves.agree_iff (h : p.Evolves p') (his : p.Holds is) : p'.Agree t is ↔ p.Agree t is := by
  refine forall₂_congr fun i hi => ?_
  rw [h.topology i (his i hi)]

lemma empty_sound : Sound {} := fun i hi => absurd hi (Nat.not_lt_zero i)

lemma Sound.push (hp : p.Sound) {l : CXLayer} (hl : Reached l.topology l) :
    (p.push l).1.Sound := by
  intro i hi
  rw [push_size] at hi
  by_cases hlt : i < p.layers.size
  · rw [(p.push_extends l).layer i hlt]
    exact hp i hlt
  · obtain rfl : i = p.layers.size := by omega
    rw [push_layer_size]
    exact hl

lemma Sound.pushAll (hp : p.Sound) {ls : List CXLayer}
    (hls : ∀ l ∈ ls, Reached l.topology l) : (p.pushAll ls).1.Sound := by
  induction ls generalizing p with
  | nil => exact hp
  | cons l ls ih =>
    obtain ⟨hl, hls⟩ := forall_mem_cons.mp hls
    exact ih (hp.push hl) hls

lemma Sound.resolve (hp : p.Sound) (hc : p.Holds c.layers) :
    ∀ l ∈ (p.resolve c).layers, Reached l.topology l := by
  intro l hl
  obtain ⟨i, hi, rfl⟩ := mem_map.mp hl
  exact hp i (hc i hi)

lemma Sound.onTopology (hp : p.Sound) (hc : p.Holds c.layers) (ha : p.Agree c.topology c.layers) :
    p.OnTopology c := by
  intro i hi
  have hlayer : p.layers[i]? = some (p.layer i) := by
    rw [layer, Array.getElem?_eq_getElem (hc i hi), Option.getD_some]
  exact ⟨p.layer i, hlayer, ha i hi, hp i (hc i hi)⟩

lemma OnTopology.coupled (hc : p.OnTopology c) :
    ∀ g ∈ (p.resolve c).gates, g.coupling ∈ c.topology.couplings := by
  intro g hg
  obtain ⟨l, hl, hg⟩ := mem_flatMap.mp hg
  obtain ⟨hvalid, hsame⟩ := hc.layer hl
  rw [← (Topology.same_iff.mp hsame).2]
  exact hvalid.coupled g hg

lemma Sound.flip (hp : p.Sound) {layer ctrl trgt : Value} (h : p.flip c layer ctrl trgt = .ok p') :
    p.Evolves p' ∧ p'.Sound := by
  obtain ⟨k, -, hk⟩ := bind_eq_ok.mp h
  obtain ⟨l, hflip, hput⟩ := bind_eq_ok.mp hk
  generalize (c.layers[k]?).getD 0 = i at hflip hput
  obtain rfl := Except.ok.inj hput
  have hsize : (p.put i l).layers.size = p.layers.size := by simp [put]
  have hlayer : ∀ j < p.layers.size, (p.put i l).layer j = if i = j then l else p.layer j := by
    intro j hj
    by_cases hij : i = j
    · subst hij
      simp [put, LayerPool.layer, hj]
    · simp [put, LayerPool.layer, hij]
  have hl : i < p.layers.size → l.topology = (p.layer i).topology ∧ Reached l.topology l := by
    intro hi
    have hreached := (hp i hi).flipped hflip
    have htopology := hreached.valid.2
    exact ⟨htopology, htopology.symm ▸ hreached⟩
  refine ⟨⟨hsize.ge, fun j hj => ?_⟩, fun j hj => ?_⟩
  · grind
  · rw [hsize] at hj
    rw [hlayer j hj]
    split
    · rename_i hij
      subst hij
      exact (hl hj).2
    · exact hp j hj

end LayerPool

def LayerOperand.named : List LayerOperand → List Nat :=
  List.filterMap fun
    | .shared i | .copied i => some i
    | .gates _ => none

def CXOperand.named (x : CXOperand) : List Nat :=
  match x.layers with
  | .ok ys => LayerOperand.named ys
  | .error _ => []

/-- Layers have been appended, some of which were there before. They are on the topology exactly if those
are: the new ones are made on it. -/
structure LayerPool.Adds (t : Topology) (p : LayerPool) (is : List Nat) (p' : LayerPool) (js : List Nat) :
    Prop where
  keeps : p.Extends p'
  sound : p'.Sound
  holds : p'.Holds js
  agree_iff : p'.Agree t js ↔ p.Agree t is

section Adds

variable {p p' p'' : LayerPool} {t : Topology} {is js is' js' : List Nat}

lemma LayerPool.Adds.append (h : p.Adds t is p' js) (h' : p'.Adds t is' p'' js')
    (his' : p.Holds is') : p.Adds t (is ++ is') p'' (js ++ js') where
  keeps := h.keeps.trans h'.keeps
  sound := h'.sound
  holds := forall_mem_append.mpr ⟨h'.keeps.holds h.holds, h'.holds⟩
  agree_iff := by
    refine forall_mem_append.trans (Iff.trans ?_ forall_mem_append.symm)
    refine and_congr ?_ ?_
    · exact (h'.keeps.evolves.agree_iff h.holds).trans h.agree_iff
    · exact h'.agree_iff.trans (h.keeps.evolves.agree_iff his')

lemma LayerPool.Sound.adds (hp : p.Sound) {l : CXLayer} (hl : Reached l.topology l)
    (h : l.topology.same t ↔ p.Agree t is) : p.Adds t is (p.push l).1 [p.layers.size] where
  keeps := p.push_extends l
  sound := hp.push hl
  holds := by simp [Holds]
  agree_iff := by simpa [Agree] using h

lemma LayerOperand.place_adds (hp : p.Sound) {y : LayerOperand} (hy : p.Holds (named [y])) {i : Nat}
    (h : y.place t p = .ok (p', i)) : p.Adds t (named [y]) p' [i] := by
  cases y with
  | shared j =>
    cases h
    exact ⟨.refl p, hp, hy, Iff.rfl⟩
  | copied j =>
    cases h
    exact hp.adds (hp j (hy j mem_cons_self)) (by simp [Agree, named])
  | gates v =>
    rw [place] at h
    split_ifs at h
    obtain ⟨l, hl, hpush⟩ := map_eq_ok.mp h
    cases hpush
    have hreached : Reached t l := .made hl
    have htopology := hreached.valid.2
    exact hp.adds (htopology.symm ▸ hreached)
      (by simp [Agree, named, htopology, Topology.same_refl])

lemma LayerOperand.appendAll_adds (hp : p.Sound) {ys : List LayerOperand} (hys : p.Holds (named ys))
    (h : (appendAll t ys p).result = .ok ()) :
    p.Adds t (named ys) (appendAll t ys p).pool (appendAll t ys p).numbers := by
  induction ys generalizing p with
  | nil => exact ⟨.refl p, hp, hys, Iff.rfl⟩
  | cons y ys ih =>
    have hnamed : named (y :: ys) = named [y] ++ named ys := filterMap_append (l := [y])
    rw [hnamed] at hys ⊢
    obtain ⟨hy, hys⟩ := forall_mem_append.mp hys
    rw [appendAll] at h ⊢
    cases hplace : y.place t p with
    | error e =>
      rw [hplace] at h
      cases h
    | ok r =>
      rw [hplace] at h
      have hplaced := place_adds hp hy hplace
      exact hplaced.append (ih hplaced.sound (hplaced.keeps.holds hys) h) hys

lemma CXOperand.appended_adds (hp : p.Sound) {x : CXOperand} (hx : p.Holds x.named)
    (h : (x.appended t p).result = .ok ()) :
    p.Adds t x.named (x.appended t p).pool (x.appended t p).numbers := by
  rw [appended] at h ⊢
  rw [named] at hx ⊢
  cases hys : x.layers with
  | error e =>
    rw [hys] at h
    cases h
  | ok ys =>
    rw [hys] at h hx
    exact LayerOperand.appendAll_adds hp hx h

end Adds

/-- What other circuits do to the pool: layers are added, and gates are flipped. -/
inductive LayerPool.Changes (p : LayerPool) : LayerPool → Prop
  | added {l : CXLayer} (h : Reached l.topology l) : p.Changes (p.push l).1
  | flipped {p' : LayerPool} {c : CXCircuit Nat} {layer ctrl trgt : Value}
      (h : p.flip c layer ctrl trgt = .ok p') : p.Changes p'

/-- A circuit in its pool, with all the operands that have been appended to it since it was new. It starts
with no layers, and any number of accepted operations follow. -/
inductive CXHistory : LayerPool → CXCircuit Nat → List CXOperand → Prop
  | start (t : Topology) : CXHistory {} { topology := t } []
  | changed {p p' : LayerPool} {c : CXCircuit Nat} {xs : List CXOperand} (hc : CXHistory p c xs)
      (h : p.Changes p') : CXHistory p' c xs
  | made {p : LayerPool} {c d : CXCircuit Nat} {xs : List CXOperand} {t : Topology} {is : List Nat}
      (hc : CXHistory p c xs) (his : p.Holds is) (h : p.make t is = .ok d) : CXHistory p d []
  | appended {p : LayerPool} {c : CXCircuit Nat} {xs : List CXOperand} {x : CXOperand} {s : CXSite}
      (hc : CXHistory p c xs) (hx : p.Holds x.named) (h : x.append.runFrom ⟨p, c⟩ = (.ok (), s)) :
      CXHistory s.pool s.circuit (x :: xs)
  | composed {p p' : LayerPool} {c d : CXCircuit Nat} {xs : List CXOperand} {x : CXOperand}
      (hc : CXHistory p c xs) (hx : p.Holds x.named) (h : x.alone p c = .ok (p', d)) :
      CXHistory p' d [x]
  | readAgain {p : LayerPool} {c d : CXCircuit Nat} {xs : List CXOperand} (hc : CXHistory p c xs)
      (h : p.dag c = .ok d) : CXHistory p d []
  | cloned {p p' : LayerPool} {c d : CXCircuit Nat} {xs : List CXOperand} (hc : CXHistory p c xs)
      (h : p.clone c = .ok (p', d)) : CXHistory p' d []

namespace CXHistory

variable {p p' : LayerPool} {c d : CXCircuit Nat} {xs : List CXOperand} {x : CXOperand}

structure Kept (p : LayerPool) (c : CXCircuit Nat) (xs : List CXOperand) : Prop where
  sound : p.Sound
  holds : p.Holds c.layers
  named : ∀ x ∈ xs, p.Holds x.named
  agree_iff : p.Agree c.topology c.layers ↔ ∀ x ∈ xs, p.Agree c.topology x.named

lemma Kept.evolve (h : Kept p c xs) (he : p.Evolves p') (hp : p'.Sound) : Kept p' c xs where
  sound := hp
  holds := he.holds h.holds
  named x hx := he.holds (h.named x hx)
  agree_iff := by
    rw [he.agree_iff h.holds, h.agree_iff]
    exact forall₂_congr fun x hx => (he.agree_iff (h.named x hx)).symm

lemma Kept.checked (hp : p.Sound) (hc : p.Holds c.layers) (ha : p.Agree c.topology c.layers) :
    Kept p c [] :=
  ⟨hp, hc, by simp, by simp [ha]⟩

lemma Kept.empty (hp : p.Sound) (t : Topology) : Kept p { topology := t } [] :=
  .checked hp (by simp [Holds]) (by simp [Agree])

lemma Kept.made (hp : p.Sound) {t : Topology} {is : List Nat} (his : p.Holds is)
    (h : p.make t is = .ok d) : Kept p d [] := by
  obtain ⟨ha, rfl⟩ := make_eq_ok.mp h
  exact .checked hp his ha

lemma Kept.appended (h : Kept p c xs) (hx : p.Holds x.named) {is : List Nat}
    (ha : p.Adds c.topology x.named p' is) : Kept p' (c.extend is) (x :: xs) := by
  have hevolved := h.evolve ha.keeps.evolves ha.sound
  refine ⟨ha.sound, ?_, ?_, ?_⟩
  · exact forall_mem_append.mpr ⟨hevolved.holds, ha.holds⟩
  · exact forall_mem_cons.mpr ⟨ha.keeps.holds hx, hevolved.named⟩
  · refine forall_mem_append.trans (Iff.trans ?_ forall_mem_cons.symm)
    rw [and_comm]
    refine and_congr ?_ hevolved.agree_iff
    exact ha.agree_iff.trans (ha.keeps.evolves.agree_iff hx).symm

lemma kept (h : CXHistory p c xs) : Kept p c xs := by
  induction h with
  | start t => exact .empty empty_sound t
  | changed _ h ih =>
    cases h with
    | added hl => exact ih.evolve (push_extends _ _).evolves (ih.sound.push hl)
    | flipped hf => exact ih.evolve (ih.sound.flip hf).1 (ih.sound.flip hf).2
  | made _ his h ih => exact .made ih.sound his h
  | @appended p c xs x s _ hx h ih =>
    rw [append_run] at h
    obtain ⟨hresult, rfl⟩ := Prod.mk.inj h
    exact ih.appended hx (appended_adds ih.sound hx hresult)
  | @composed p p' c d xs x _ hx h ih =>
    rw [alone_eq] at h
    cases hresult : (x.appended c.topology p).result with
    | error e =>
      rw [hresult] at h
      cases h
    | ok _ =>
      rw [hresult] at h
      obtain ⟨rfl, rfl⟩ := Prod.mk.inj (Except.ok.inj h)
      have hempty := Kept.empty ih.sound c.topology
      exact hempty.appended hx (appended_adds ih.sound hx hresult)
  | readAgain _ h ih => exact .made ih.sound ih.holds h
  | @cloned p p' c d xs _ h ih =>
    obtain ⟨ha, rfl, rfl⟩ := clone_eq_ok.mp h
    have hadded := p.pushAll_added (p.resolve c).layers
    refine .checked (ih.sound.pushAll (ih.sound.resolve ih.holds)) hadded.holds ?_
    exact hadded.agree_iff.mpr (forall_mem_map.mpr ha)

/-- The layers of a circuit are on its topology exactly if all are that its operands name. The gates are
then on couplings of the topology, and the circuit has its parity matrices. -/
theorem on_topology_iff (h : CXHistory p c xs) :
    (p.Agree c.topology c.layers ↔ ∀ x ∈ xs, p.Agree c.topology x.named) ∧
    ((∀ x ∈ xs, p.Agree c.topology x.named) →
      (∀ g ∈ (p.resolve c).gates, g.coupling ∈ c.topology.couplings) ∧
      ∀ asColumns, ∃ A : BitMatrix c.topology.size,
        (p.resolve c).parityMatrix asColumns = .ok (Parity.ofMatrix A)) := by
  have hkept := h.kept
  refine ⟨hkept.agree_iff, fun hxs => ?_⟩
  have hon := hkept.sound.onTopology hkept.holds (hkept.agree_iff.mpr hxs)
  have hproper := hon.proper rfl
  refine ⟨hon.coupled, fun asColumns => ?_⟩
  cases asColumns with
  | false => exact ⟨_, hproper.rows⟩
  | true => exact ⟨_, hproper.columns⟩

open LayerPool (stairsLine upper_stair)

def upperPool : LayerPool where
  layers := #[(empty stairsLine).insert (1, 2)]

lemma borrowed (t : Topology) :
    CXHistory upperPool { topology := t, layers := [0] } [.layer 0] := by
  have hempty : CXHistory upperPool { topology := t } [] := (start t).changed (.added (.made upper_stair))
  have hnamed : upperPool.Holds (layer 0).named := by
    simp only [Holds]
    decide
  exact hempty.appended hnamed rfl

theorem line_on_topology_iff :
    CXHistory upperPool { topology := stairsLine, layers := [0] } [.layer 0] ∧
    upperPool.Agree stairsLine [0] ∧
    (∀ g ∈ (upperPool.resolve { topology := stairsLine, layers := [0] }).gates,
      g.coupling ∈ stairsLine.couplings) ∧
    ∀ asColumns, ∃ A : BitMatrix 3,
      (upperPool.resolve { topology := stairsLine, layers := [0] }).parityMatrix asColumns =
        .ok (Parity.ofMatrix A) := by
  have hagree : upperPool.Agree stairsLine [0] := by
    simp only [Agree]
    decide
  obtain ⟨hiff, hfits⟩ := on_topology_iff (borrowed stairsLine)
  exact ⟨borrowed stairsLine, hagree, hfits (hiff.mp hagree)⟩

/-- Two qubits do not have the coupling of the layer. It is accepted, and then the parities cannot be
computed. -/
theorem pair_borrows_foreign_layer :
    ∃ p c xs, CXHistory p c xs ∧ ¬ p.Agree c.topology c.layers ∧
      (∃ g ∈ (p.resolve c).gates, g.coupling ∉ c.topology.couplings) ∧
      ∀ asColumns, (p.resolve c).parityMatrix asColumns = .error .outOfRange := by
  refine ⟨_, _, _, borrowed { size := 2, couplings := [(0, 1)] }, ?_, by decide, ?_⟩
  · simp only [Agree]
    decide
  · intro asColumns
    cases asColumns <;> rfl

end CXHistory

end GadgetCircuits
