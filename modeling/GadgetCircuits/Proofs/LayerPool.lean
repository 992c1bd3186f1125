import GadgetCircuits.CX.Circuit
import GadgetCircuits.Proofs.CXLayer

/-!
Circuits in a pool of layers. Appending only adds to the pool, so all other circuits keep their layers.
What an operand appends depends on the pool and on the topology of the circuit, but not on the layers
that the circuit has.
-/

namespace GadgetCircuits

open List LayerOperand

namespace Topology

variable {t u : Topology}

lemma same_iff : t.same u ↔ t.size = u.size ∧ t.couplings = u.couplings := by
  simp [same]

lemma same_refl (t : Topology) : t.same t := same_iff.mpr ⟨rfl, rfl⟩

end Topology

namespace CXLayer

variable {t : Topology} {l l' : CXLayer}

/-- The layers on a topology: made of gates, and flipped any number of times. -/
inductive Reached (t : Topology) : CXLayer → Prop
  | made {gates : Value} {l : CXLayer} (h : ofValue t gates = .ok l) : Reached t l
  | flipped {c d : Value} {l l' : CXLayer} (hl : Reached t l) (h : l.flipValue c d = .ok l') :
      Reached t l'

/-- What holds of the empty layer and is kept by flips holds of every layer that can be made. -/
theorem Reached.of_flips {p : CXLayer → Prop} (h : Reached t l) (hempty : p (empty t))
    (hstep : ∀ m c d m', p m → m.flipValue c d = .ok m' → p m') : p l := by
  induction h with
  | @made gates l h =>
    rw [ofValue] at h
    cases hitems : gates.collection? with
    | none =>
      rw [hitems] at h
      cases h
    | some items =>
      rw [hitems] at h
      refine foldlM_invariant p (fun m gate m' hm hgate => ?_) hempty h
      grind
  | flipped _ h ih => exact hstep _ _ _ _ ih h

lemma Reached.valid (h : Reached t l) : l.Valid ∧ l.topology = t := by
  refine h.of_flips (p := fun m => m.Valid ∧ m.topology = t) ⟨empty_valid t, rfl⟩ ?_
  intro m c d m' hm hf
  obtain ⟨a, b, -, -, hf⟩ := flipValue_cases hf
  exact ⟨flip_valid hm.1 hf, (flip_topology hm.1 hf).trans hm.2⟩

end CXLayer

namespace LayerPool

variable {p p' p'' : LayerPool} {is js : List Nat} {c : CXCircuit Nat} {t : Topology}

/-- The later pool has the layers of the earlier one, under the same numbers. -/
structure Extends (p p' : LayerPool) : Prop where
  size : p.layers.size ≤ p'.layers.size
  layer : ∀ i < p.layers.size, p'.layer i = p.layer i

def Holds (p : LayerPool) (is : List Nat) : Prop :=
  ∀ i ∈ is, i < p.layers.size

/-- The layers of some numbers are on a topology. -/
def Agree (p : LayerPool) (t : Topology) (is : List Nat) : Prop :=
  ∀ i ∈ is, (p.layer i).topology.same t = true

lemma Extends.refl (p : LayerPool) : p.Extends p := ⟨le_rfl, fun _ _ => rfl⟩

variable (h : p.Extends p')
include h

lemma Extends.trans (h' : p'.Extends p'') : p.Extends p'' where
  size := h.size.trans h'.size
  layer i hi := (h'.layer i (hi.trans_le h.size)).trans (h.layer i hi)

lemma Extends.holds (his : p.Holds is) : p'.Holds is :=
  fun i hi => (his i hi).trans_le h.size

lemma Extends.map_layer (his : p.Holds is) : is.map p'.layer = is.map p.layer :=
  map_congr_left fun i hi => h.layer i (his i hi)

lemma Extends.resolve (hc : p.Holds c.layers) : p'.resolve c = p.resolve c := by
  rw [LayerPool.resolve, LayerPool.resolve, h.map_layer hc]

omit h

@[simp] lemma push_size (p : LayerPool) (l : CXLayer) :
    (p.push l).1.layers.size = p.layers.size + 1 :=
  Array.size_push l

@[simp] lemma push_layer_size (p : LayerPool) (l : CXLayer) :
    (p.push l).1.layer p.layers.size = l := by
  simp [push, layer]

lemma push_extends (p : LayerPool) (l : CXLayer) : p.Extends (p.push l).1 where
  size := by simp
  layer i hi := by
    simp only [push, layer]
    rw [Array.getElem?_push_lt hi, Array.getElem?_eq_getElem hi]

/-- New layers get new numbers, under which they are found. -/
structure Added (p : LayerPool) (ls : List CXLayer) (p' : LayerPool) (is : List Nat) : Prop where
  keeps : p.Extends p'
  holds : p'.Holds is
  layers : is.map p'.layer = ls
  fresh : ∀ i ∈ is, p.layers.size ≤ i

lemma Added.cons {l : CXLayer} {ls : List CXLayer} (h : (p.push l).1.Added ls p' is) :
    p.Added (l :: ls) p' (p.layers.size :: is) := by
  have hext := p.push_extends l
  have hlt : p.layers.size < (p.push l).1.layers.size := by simp
  refine ⟨hext.trans h.keeps, ?_, ?_, ?_⟩
  · exact forall_mem_cons.mpr ⟨hlt.trans_le h.keeps.size, h.holds⟩
  · rw [map_cons, h.keeps.layer _ hlt, push_layer_size, h.layers]
  · exact forall_mem_cons.mpr ⟨le_rfl, fun i hi => hext.size.trans (h.fresh i hi)⟩

lemma Added.nil (p : LayerPool) : p.Added [] p [] := ⟨.refl p, by simp [Holds], rfl, by simp⟩

lemma Added.agree_iff {ls : List CXLayer} (h : p.Added ls p' is) :
    p'.Agree t is ↔ ∀ l ∈ ls, l.topology.same t := by
  rw [← h.layers, forall_mem_map]
  rfl

lemma pushAll_added (p : LayerPool) (ls : List CXLayer) :
    p.Added ls (p.pushAll ls).1 (p.pushAll ls).2 := by
  induction ls generalizing p with
  | nil => exact .nil p
  | cons l ls ih => exact (ih (p.push l).1).cons

/-- The layers of the circuit are in the pool, and were made on the topology of the circuit. -/
def OnTopology (p : LayerPool) (c : CXCircuit Nat) : Prop :=
  ∀ i ∈ c.layers, ∃ l, p.layers[i]? = some l ∧ l.topology.same c.topology = true ∧
    CXLayer.Reached l.topology l

lemma OnTopology.holds (hc : p.OnTopology c) : p.Holds c.layers := by
  intro i hi
  obtain ⟨l, hl, -⟩ := hc i hi
  exact (Array.getElem?_eq_some_iff.mp hl).1

lemma OnTopology.layer (hc : p.OnTopology c) {l : CXLayer} (hl : l ∈ (p.resolve c).layers) :
    l.Valid ∧ l.topology.same c.topology := by
  obtain ⟨i, hi, rfl⟩ := mem_map.mp hl
  obtain ⟨l, hl, hsame, hreached⟩ := hc i hi
  rw [LayerPool.layer, hl, Option.getD_some]
  exact ⟨hreached.valid.1, hsame⟩

lemma make_eq_ok {d : CXCircuit Nat} :
    p.make t is = .ok d ↔ p.Agree t is ∧ d = { topology := t, layers := is } := by
  rw [make]
  split
  · rename_i h
    rw [all_eq_true] at h
    exact ⟨fun e => ⟨h, (Except.ok.inj e).symm⟩, fun e => congrArg Except.ok e.2.symm⟩
  · rename_i h
    rw [all_eq_true] at h
    exact ⟨fun e => (by cases e), fun e => absurd e.1 h⟩

lemma clone_eq_ok {d : CXCircuit Nat} : p.clone c = .ok (p', d) ↔
    p.Agree c.topology c.layers ∧ p' = (p.pushAll (p.resolve c).layers).1 ∧
      d = { topology := c.topology, layers := (p.pushAll (p.resolve c).layers).2 } := by
  have hagree : (p.pushAll (p.resolve c).layers).1.Agree c.topology (p.pushAll (p.resolve c).layers).2 ↔
      p.Agree c.topology c.layers := by
    rw [(p.pushAll_added (p.resolve c).layers).agree_iff, resolve, forall_mem_map]
    rfl
  change (make _ _ _).map _ = _ ↔ _
  rw [map_eq_ok, ← hagree]
  constructor
  · rintro ⟨e, he, hpe⟩
    obtain ⟨h, rfl⟩ := make_eq_ok.mp he
    obtain ⟨rfl, rfl⟩ := Prod.mk.inj hpe
    exact ⟨h, rfl, rfl⟩
  · rintro ⟨h, rfl, rfl⟩
    exact ⟨_, make_eq_ok.mpr ⟨h, rfl⟩, rfl⟩

end LayerPool

structure Appended where
  result : Except Error Unit
  pool : LayerPool
  numbers : List Nat

def Appended.onto (r : Appended) (c : CXCircuit Nat) : Except Error Unit × CXSite :=
  (r.result, ⟨r.pool, c.extend r.numbers⟩)

namespace LayerOperand

variable {t : Topology} {p p' : LayerPool}

def place (t : Topology) (p : LayerPool) : LayerOperand → Except Error (LayerPool × Nat)
  | .shared i => .ok (p, i)
  | .copied i => .ok (p.push (p.layer i))
  | .gates v =>
    if v.sequence?.isNone then .error (.notPairSequence v) else (CXLayer.ofValue t v).map p.push

lemma append_run (y : LayerOperand) (p : LayerPool) (c : CXCircuit Nat) :
    y.append.runFrom ⟨p, c⟩ = match y.place c.topology p with
      | .ok (p', i) => (.ok (), ⟨p', c.extend [i]⟩)
      | .error e => (.error e, ⟨p, c⟩) := by
  cases y with
  | shared i => rfl
  | copied i => rfl
  | gates v =>
    cases hv : v.sequence? with
    | none => simp [append, place, hv]
    | some items =>
      simp only [append, place, hv, Option.isNone_some, Bool.false_eq_true, if_false]
      cases hl : CXLayer.ofValue c.topology v with
      | error e => simp [Update.runFrom_bind, hl, Except.map]
      | ok l => simp [Update.runFrom_bind, hl, Except.map, CXSite.attachNew, LayerPool.push]

def appendAll (t : Topology) : List LayerOperand → LayerPool → Appended
  | [], p => ⟨.ok (), p, []⟩
  | y :: ys, p =>
    match y.place t p with
    | .error e => ⟨.error e, p, []⟩
    | .ok (p', i) =>
      let r := appendAll t ys p'
      { r with numbers := i :: r.numbers }

lemma forM_append_run (ys : List LayerOperand) (p : LayerPool) (c : CXCircuit Nat) :
    (ys.forM append).runFrom ⟨p, c⟩ = (appendAll c.topology ys p).onto c := by
  induction ys generalizing p c with
  | nil => simp [appendAll, Appended.onto, CXCircuit.extend]
  | cons y ys ih =>
    change (y.append >>= fun _ => ys.forM append).runFrom _ = _
    rw [Update.runFrom_bind, append_run, appendAll]
    cases y.place c.topology p with
    | error e => simp [Appended.onto, CXCircuit.extend]
    | ok r =>
      simp only [ih]
      simp [Appended.onto, CXCircuit.extend]

lemma place_extends {y : LayerOperand} {r : LayerPool × Nat} (h : y.place t p = .ok r) :
    p.Extends r.1 := by
  cases y with
  | shared j =>
    cases h
    exact .refl p
  | copied j =>
    cases h
    exact p.push_extends _
  | gates v =>
    rw [place] at h
    split_ifs at h
    obtain ⟨l, -, rfl⟩ := map_eq_ok.mp h
    exact p.push_extends l

lemma appendAll_extends (t : Topology) (ys : List LayerOperand) (p : LayerPool) :
    p.Extends (appendAll t ys p).pool := by
  induction ys generalizing p with
  | nil => exact .refl p
  | cons y ys ih =>
    rw [appendAll]
    cases hy : y.place t p with
    | error e => exact .refl p
    | ok r => exact (place_extends hy).trans (ih r.1)

lemma appendAll_copied (t : Topology) {js : List Nat} (hjs : p.Holds js) :
    (appendAll t (js.map .copied) p).result = .ok () ∧
    p.Added (js.map p.layer) (appendAll t (js.map .copied) p).pool
      (appendAll t (js.map .copied) p).numbers := by
  induction js generalizing p with
  | nil => exact ⟨rfl, .nil p⟩
  | cons j js ih =>
    have hjs := (forall_mem_cons.mp hjs).2
    have hext := p.push_extends (p.layer j)
    obtain ⟨hresult, hadded⟩ := ih (hext.holds hjs)
    rw [hext.map_layer hjs] at hadded
    exact ⟨hresult, hadded.cons⟩

end LayerOperand

namespace CXOperand

variable {t : Topology} {p p' : LayerPool} {a b : CXCircuit Nat}

def appended (t : Topology) (p : LayerPool) (x : CXOperand) : Appended :=
  match x.layers with
  | .ok ys => appendAll t ys p
  | .error e => ⟨.error e, p, []⟩

/-- The layers of the circuit stay as they are, and what is appended does not depend on them. -/
theorem append_run (x : CXOperand) (p : LayerPool) (c : CXCircuit Nat) :
    x.append.runFrom ⟨p, c⟩ = (x.appended c.topology p).onto c := by
  rw [append, appended, Update.runFrom_bind, Update.runFrom_check]
  cases x.layers with
  | error e => simp [Appended.onto, CXCircuit.extend]
  | ok ys => exact forM_append_run ys p c

lemma appended_extends (t : Topology) (p : LayerPool) (x : CXOperand) :
    p.Extends (x.appended t p).pool := by
  rw [appended]
  cases x.layers with
  | error e => exact .refl p
  | ok ys => exact appendAll_extends t ys p

lemma alone_eq (x : CXOperand) (p : LayerPool) (a : CXCircuit Nat) :
    x.alone p a = match (x.appended a.topology p).result with
      | .ok _ => .ok ((x.appended a.topology p).pool,
          { topology := a.topology, layers := (x.appended a.topology p).numbers })
      | .error e => .error e := by
  have hrun : x.append.runFrom ⟨p, a.andThen []⟩ = ((x.appended a.topology p).result,
      ⟨(x.appended a.topology p).pool,
        { topology := a.topology, layers := (x.appended a.topology p).numbers }⟩) :=
    append_run x p (a.andThen [])
  rw [alone, hrun]
  cases (x.appended a.topology p).result <;> rfl

lemma appended_copies (t : Topology) {js : List Nat} (hjs : p.Holds js) :
    ((copies js).appended t p).result = .ok () ∧
    p.Added (js.map p.layer) ((copies js).appended t p).pool ((copies js).appended t p).numbers :=
  appendAll_copied t hjs

lemma append_copies (ha : p.Holds a.layers) (hb : p.Holds b.layers) :
    ∃ s, (copies b.layers).append.runFrom ⟨p, a⟩ = (.ok (), s) ∧ p.Extends s.pool ∧
      s.circuit.topology = a.topology ∧
      (s.pool.resolve s.circuit).layers = (p.resolve a).layers ++ (p.resolve b).layers := by
  have happended := appended_copies a.topology hb
  rw [append_run]
  generalize (copies b.layers).appended a.topology p = r at happended
  obtain ⟨hresult, hadded⟩ := happended
  refine ⟨⟨r.pool, a.extend r.numbers⟩, ?_, hadded.keeps, rfl, ?_⟩
  · rw [← hresult]
    rfl
  · change (a.layers ++ r.numbers).map r.pool.layer = _
    rw [map_append, hadded.keeps.map_layer ha, hadded.layers]
    rfl

lemma alone_copies (hb : p.Holds b.layers) :
    ∃ p' is, (copies b.layers).alone p a = .ok (p', { topology := a.topology, layers := is }) ∧
      p.Added (p.resolve b).layers p' is := by
  obtain ⟨hresult, hadded⟩ := appended_copies a.topology hb
  refine ⟨_, _, ?_, hadded⟩
  rw [alone_eq, hresult]

end CXOperand

end GadgetCircuits
