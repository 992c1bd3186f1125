import GadgetCircuits.CX.Layer
import GadgetCircuits.Proofs.Prelude

/-!
Layers of CX gates and their bookkeeping. In a valid layer the gates are on couplings of the topology
and touch each qubit at most once, and the matching repeats what the gates say. Every accepted flip
keeps a layer valid, and the same flip once more takes it back.
-/

namespace GadgetCircuits

open List CX

namespace CX

def Touches (g : CX) (q : Nat) : Prop :=
  q = g.1 ∨ q = g.2

instance (g : CX) (q : Nat) : Decidable (g.Touches q) :=
  inferInstanceAs (Decidable (_ ∨ _))

def Apart (g h : CX) : Prop :=
  g.1 ≠ h.1 ∧ g.1 ≠ h.2 ∧ g.2 ≠ h.1 ∧ g.2 ≠ h.2

variable {g h : CX}

lemma Apart.symm (a : Apart g h) : Apart h g :=
  ⟨a.1.symm, a.2.2.1.symm, a.2.1.symm, a.2.2.2.symm⟩

instance : Std.Symm Apart :=
  ⟨fun _ _ => Apart.symm⟩

lemma not_apart_self (g : CX) : ¬ Apart g g := fun a => a.1 rfl

lemma Apart.not_touches (a : Apart g h) {q : Nat} (hg : g.Touches q) : ¬ h.Touches q := by
  obtain ⟨h₁, h₂, h₃, h₄⟩ := a
  rcases hg with rfl | rfl
  · rintro (e | e)
    · exact h₁ e
    · exact h₂ e
  · rintro (e | e)
    · exact h₃ e
    · exact h₄ e

lemma apart_of_not_touches (h₁ : ¬ g.Touches h.1) (h₂ : ¬ g.Touches h.2) : Apart g h := by
  simp only [Touches, not_or] at h₁ h₂
  exact ⟨Ne.symm h₁.1, Ne.symm h₂.1, Ne.symm h₁.2, Ne.symm h₂.2⟩

lemma touches_coupling {g : CX} {q : Nat} : g.Touches q ↔ q = g.coupling.1 ∨ q = g.coupling.2 := by
  unfold Touches coupling Coupling.ordered
  split
  · rfl
  · exact or_comm

lemma touches_of_coupling (e : g.coupling = h.coupling) {q : Nat} : g.Touches q ↔ h.Touches q := by
  rw [touches_coupling, e, ← touches_coupling]

end CX

namespace CXLayer

variable {l l' : CXLayer} {g h : CX}
variable {c t a : Nat}

/-- The gates are on couplings of the topology and pairwise apart, and the matching says the same as
the gates. -/
structure Valid (l : CXLayer) : Prop where
  ends : ∀ g ∈ l.gates, g.1 ≠ g.2 ∧ g.1 < l.topology.size ∧ g.2 < l.topology.size
  coupled : ∀ g ∈ l.gates, g.coupling ∈ l.topology.couplings
  apart : l.gates.Pairwise CX.Apart
  topology : l.matching.topology = l.topology
  couplings : l.matching.couplings = l.gates.map coupling
  qubits : l.matching.qubits = l.gates.flatMap fun g => [g.coupling.1, g.coupling.2]
  partners_length : l.matching.partners.length = l.topology.size
  incident : ∀ (q : Nat) (k : Nat × Nat),
    l.matching.incident q = some k ↔ ∃ g ∈ l.gates, g.coupling = k ∧ g.Touches q

variable (hl : l.Valid)
include hl

lemma Valid.gates_nodup : l.gates.Nodup := by
  refine hl.apart.imp ?_
  rintro g _ a rfl
  exact not_apart_self g a

lemma Valid.eq_of_touches (hg : g ∈ l.gates) (hh : h ∈ l.gates) {q : Nat}
    (tg : g.Touches q) (th : h.Touches q) : g = h := by
  by_contra hne
  exact (hl.apart.forall hg hh hne).not_touches tg th

lemma Valid.eq_of_coupling (hg : g ∈ l.gates) (hh : h ∈ l.gates)
    (e : g.coupling = h.coupling) : g = h :=
  hl.eq_of_touches hg hh (Or.inl rfl) ((touches_of_coupling e).mp (Or.inl rfl))

lemma Valid.mem_qubits (q : Nat) : q ∈ l.matching.qubits ↔ ∃ g ∈ l.gates, g.Touches q := by
  simp only [hl.qubits, mem_flatMap, mem_cons, not_mem_nil, or_false, touches_coupling]

lemma Valid.gateOn_eq_some {k : Nat × Nat} :
    l.gateOn k = some g ↔ g ∈ l.gates ∧ g.coupling = k := by
  constructor
  · intro e
    exact ⟨mem_of_find?_eq_some e, by simpa using find?_some e⟩
  · rintro ⟨hg, rfl⟩
    cases hfind : l.gateOn g.coupling with
    | none =>
      have := find?_eq_none.mp hfind g hg
      simp at this
    | some h =>
      have hh := mem_of_find?_eq_some hfind
      have he : h.coupling = g.coupling := by simpa using find?_some hfind
      rw [hl.eq_of_coupling hh hg he]

omit hl

lemma gateOn_eq_none {k : Nat × Nat} : l.gateOn k = none ↔ ∀ g ∈ l.gates, g.coupling ≠ k := by
  simp [gateOn, find?_eq_none]

lemma Valid.incident_eq_some (hl : l.Valid) {q : Nat} :
    l.incident q = some g ↔ g ∈ l.gates ∧ g.Touches q := by
  constructor
  · intro e
    obtain ⟨k, hk, hg⟩ := Option.bind_eq_some_iff.mp e
    obtain ⟨h, hh, rfl, ht⟩ := (hl.incident q k).mp hk
    obtain ⟨hmem, he⟩ := hl.gateOn_eq_some.mp hg
    exact ⟨hmem, (touches_of_coupling he).mpr ht⟩
  · rintro ⟨hg, ht⟩
    have hk := (hl.incident q g.coupling).mpr ⟨g, hg, rfl, ht⟩
    rw [CXLayer.incident, hk]
    exact hl.gateOn_eq_some.mpr ⟨hg, rfl⟩

lemma empty_valid (t : Topology) : (empty t).Valid where
  ends := by simp [empty]
  coupled := by simp [empty]
  apart := List.Pairwise.nil
  topology := rfl
  couplings := rfl
  qubits := rfl
  partners_length := by simp [empty, Matching.empty, Topology.qubits]
  incident := by
    intro q k
    have hnone : (empty t).matching.incident q = none := by
      simp only [empty, Matching.empty, Matching.incident, getElem?_map]
      cases t.qubits[q]? <;> rfl
    rw [hnone]
    simp [empty]

lemma apart_of_flippable (hl : l.Valid) (hon : l.gateOn g.coupling = none)
    (hflip : l.matching.isFlippable g.coupling) : ∀ h ∈ l.gates, CX.Apart h g := by
  have hmatch : g.coupling ∉ l.matching.couplings := by
    rw [hl.couplings, mem_map]
    rintro ⟨h, hh, e⟩
    exact gateOn_eq_none.mp hon h hh e
  have hq : ¬ g.coupling.1 ∈ l.matching.qubits ∧ ¬ g.coupling.2 ∈ l.matching.qubits := by
    simpa [Matching.isFlippable, hmatch] using hflip
  simp only [hl.mem_qubits, not_exists, not_and] at hq
  intro h hh
  have hfree : ∀ q, g.Touches q → ¬ h.Touches q := by
    intro q hgq
    rcases touches_coupling.mp hgq with e | e
    · rw [e]
      exact hq.1 h hh
    · rw [e]
      exact hq.2 h hh
  exact apart_of_not_touches (hfree g.1 (Or.inl rfl)) (hfree g.2 (Or.inr rfl))

/-- Every accepted flip takes out a gate that is there, or adds one that touches no other. -/
theorem flip_cases (hl : l.Valid) (hf : l.flip c t = .ok l') :
    ((c, t) ∈ l.gates ∧ l' = l.remove (c, t)) ∨
    (c ≠ t ∧ c < l.topology.size ∧ t < l.topology.size ∧
      coupling (c, t) ∈ l.topology.couplings ∧ (∀ g ∈ l.gates, CX.Apart g (c, t)) ∧
      l' = l.insert (c, t)) := by
  unfold flip at hf
  split at hf
  · cases hf
  rename_i hc
  split at hf
  · cases hf
  rename_i ht
  split at hf
  · cases hf
  rename_i hne
  simp only at hf
  split at hf
  · cases hf
  rename_i hk
  split at hf
  · cases hf
  rename_i hflip
  split at hf
  · rename_i g hg
    split at hf
    · rename_i e
      have e : g = (c, t) := by simpa using e
      subst e
      exact Or.inl ⟨(hl.gateOn_eq_some.mp hg).1, (Except.ok.inj hf).symm⟩
    · cases hf
  · rename_i hg
    have hflip : l.matching.isFlippable (coupling (c, t)) := by
      simpa [coupling] using hflip
    exact Or.inr ⟨hne, by simpa [Topology.hasQubit] using hc, by simpa [Topology.hasQubit] using ht,
      by simpa [coupling] using hk, apart_of_flippable hl hg hflip, (Except.ok.inj hf).symm⟩

lemma flip_eq (hne : g.1 ≠ g.2) (h₁ : g.1 < l.topology.size) (h₂ : g.2 < l.topology.size)
    (hk : g.coupling ∈ l.topology.couplings) (hm : l.matching.isFlippable g.coupling) :
    l.flip g.1 g.2 = match l.gateOn g.coupling with
      | some h => if h == g then .ok (l.remove g)
        else .error (.opposedGate (CX.text g) (CX.text h))
      | none => .ok (l.insert g) := by
  simp only [flip, Topology.hasQubit, h₁, h₂, hne, decide_true, Bool.not_true, Bool.false_eq_true,
    if_false]
  rw [coupling] at hk hm
  simp only [contains_iff_mem.mpr hk, hm, Bool.not_true, Bool.false_eq_true, if_false]
  rfl

lemma flip_of_mem (hl : l.Valid) (hg : g ∈ l.gates) : l.flip g.1 g.2 = .ok (l.remove g) := by
  obtain ⟨hne, h₁, h₂⟩ := hl.ends g hg
  have hmem : g.coupling ∈ l.matching.couplings := by
    rw [hl.couplings]
    exact mem_map_of_mem hg
  have hm : l.matching.isFlippable g.coupling := by
    simp [Matching.isFlippable, hmem]
  rw [flip_eq hne h₁ h₂ (hl.coupled g hg) hm, hl.gateOn_eq_some.mpr ⟨hg, rfl⟩]
  simp

lemma flip_of_apart (hl : l.Valid) (hne : g.1 ≠ g.2) (h₁ : g.1 < l.topology.size)
    (h₂ : g.2 < l.topology.size) (hk : g.coupling ∈ l.topology.couplings)
    (ha : ∀ k ∈ l.gates, CX.Apart k g) : l.flip g.1 g.2 = .ok (l.insert g) := by
  have hon : l.gateOn g.coupling = none := by
    refine gateOn_eq_none.mpr fun k hmem e => ?_
    exact (ha k hmem).not_touches (Or.inl rfl) ((touches_of_coupling e).mp (Or.inl rfl))
  have hq : ∀ q, g.Touches q → q ∉ l.matching.qubits := by
    intro q hq hmem
    obtain ⟨k, hk, ht⟩ := (hl.mem_qubits q).mp hmem
    exact (ha k hk).not_touches ht hq
  have hm : l.matching.isFlippable g.coupling := by
    have hq₁ := hq _ (touches_coupling.mpr (Or.inl rfl))
    have hq₂ := hq _ (touches_coupling.mpr (Or.inr rfl))
    simp [Matching.isFlippable, hq₁, hq₂]
  rw [flip_eq hne h₁ h₂ hk hm, hon]

lemma incident_remove (m : Matching) (g : CX) (q : Nat) :
    (m.remove g.coupling).incident q = if g.Touches q then none else m.incident q := by
  simp only [Matching.incident, Matching.remove, getElem?_set, length_set, touches_coupling]
  grind

lemma incident_insert {m : Matching} {g : CX} (h₁ : g.1 < m.partners.length)
    (h₂ : g.2 < m.partners.length) (q : Nat) :
    (m.insert g.coupling).incident q = if g.Touches q then some g.coupling else m.incident q := by
  have hin : ∀ r, g.Touches r → r < m.partners.length := by
    rintro r (rfl | rfl)
    · exact h₁
    · exact h₂
  simp only [Matching.incident, Matching.insert, getElem?_set, length_set,
    touches_coupling] at hin ⊢
  grind

lemma filter_qubits {gs : List CX} (hkeep : ∀ h ∈ gs, h ≠ g → ∀ q, h.Touches q → ¬ g.Touches q) :
    (gs.flatMap fun h => [h.coupling.1, h.coupling.2]).filter
        (fun q => q != g.coupling.1 && q != g.coupling.2) =
      (gs.filter (· != g)).flatMap fun h => [h.coupling.1, h.coupling.2] := by
  induction gs with
  | nil => rfl
  | cons h gs ih =>
    rw [flatMap_cons, filter_append, ih fun k hk => hkeep k (mem_cons_of_mem h hk)]
    by_cases e : h = g
    · simp [e]
    · have h₁ := hkeep h mem_cons_self e _ (touches_coupling.mpr (Or.inl rfl))
      have h₂ := hkeep h mem_cons_self e _ (touches_coupling.mpr (Or.inr rfl))
      rw [touches_coupling, not_or] at h₁ h₂
      simp [e, h₁.1, h₁.2, h₂.1, h₂.2]

include hl

lemma remove_valid (hg : g ∈ l.gates) : (l.remove g).Valid where
  ends h hh := hl.ends h (mem_of_mem_filter hh)
  coupled h hh := hl.coupled h (mem_of_mem_filter hh)
  apart := hl.apart.filter _
  topology := hl.topology
  couplings := by
    have hsame : ∀ h ∈ l.gates, (h.coupling != g.coupling) = (h != g) := by
      intro h hh
      by_cases e : h = g
      · simp [e]
      · have : h.coupling ≠ g.coupling := fun ec => e (hl.eq_of_coupling hh hg ec)
        rw [bne_iff_ne.mpr this, bne_iff_ne.mpr e]
    change l.matching.couplings.filter (· != g.coupling) = (l.gates.filter (· != g)).map coupling
    rw [hl.couplings, filter_map]
    exact congrArg _ (filter_congr hsame)
  qubits := by
    change (l.matching.qubits.filter fun q => q != g.coupling.1 && q != g.coupling.2) =
      (l.gates.filter (· != g)).flatMap fun g => [g.coupling.1, g.coupling.2]
    rw [hl.qubits]
    exact filter_qubits fun h hh hne q => (hl.apart.forall hh hg hne).not_touches
  partners_length := by simpa [remove, Matching.remove] using hl.partners_length
  incident := by
    intro q k
    change (l.matching.remove g.coupling).incident q = some k ↔
      ∃ h ∈ l.gates.filter (· != g), h.coupling = k ∧ h.Touches q
    rw [incident_remove]
    by_cases ht : g.Touches q
    · simp only [ht, if_true, reduceCtorEq, false_iff, not_exists, not_and, mem_filter]
      rintro h ⟨hh, hne⟩ - th
      rw [hl.eq_of_touches hh hg th ht] at hne
      simp at hne
    · rw [if_neg ht, hl.incident]
      grind

lemma insert_valid (hne : g.1 ≠ g.2) (h₁ : g.1 < l.topology.size)
    (h₂ : g.2 < l.topology.size) (hk : g.coupling ∈ l.topology.couplings)
    (ha : ∀ k ∈ l.gates, CX.Apart k g) : (l.insert g).Valid where
  ends := by
    intro h hh
    rcases mem_append.mp hh with hh | hh
    · exact hl.ends h hh
    · rw [mem_singleton.mp hh]
      exact ⟨hne, h₁, h₂⟩
  coupled := by
    intro h hh
    rcases mem_append.mp hh with hh | hh
    · exact hl.coupled h hh
    · rw [mem_singleton.mp hh]
      exact hk
  apart := by
    refine pairwise_append.mpr ⟨hl.apart, pairwise_singleton _ _, ?_⟩
    intro h hh k hk
    rw [mem_singleton.mp hk]
    exact ha h hh
  topology := hl.topology
  couplings := by simp [insert, Matching.insert, hl.couplings]
  qubits := by simp [insert, Matching.insert, hl.qubits]
  partners_length := by simpa [insert, Matching.insert] using hl.partners_length
  incident := by
    intro q k
    change (l.matching.insert g.coupling).incident q = some k ↔
      ∃ h ∈ l.gates ++ [g], h.coupling = k ∧ h.Touches q
    rw [incident_insert (h₁.trans_eq hl.partners_length.symm) (h₂.trans_eq hl.partners_length.symm)]
    simp only [mem_append, mem_singleton]
    by_cases ht : g.Touches q
    · rw [if_pos ht, Option.some.injEq]
      constructor
      · rintro rfl
        exact ⟨g, Or.inr rfl, rfl, ht⟩
      · rintro ⟨h, hh | rfl, ek, th⟩
        · exact absurd ht ((ha h hh).not_touches th)
        · exact ek
    · rw [if_neg ht, hl.incident]
      simp_all

lemma flip_valid (hf : l.flip c t = .ok l') : l'.Valid := by
  rcases flip_cases hl hf with ⟨hg, rfl⟩ | ⟨hne, h₁, h₂, hk, ha, rfl⟩
  · exact remove_valid hl hg
  · exact insert_valid hl hne h₁ h₂ hk ha

lemma flip_within (hf : l.flip c t = .ok l') : c < l.topology.size ∧ t < l.topology.size := by
  rcases flip_cases hl hf with ⟨hg, -⟩ | ⟨-, h₁, h₂, -⟩
  · exact (hl.ends _ hg).2
  · exact ⟨h₁, h₂⟩

lemma flip_topology (hf : l.flip c t = .ok l') : l'.topology = l.topology := by
  rcases flip_cases hl hf with ⟨-, rfl⟩ | ⟨-, -, -, -, -, rfl⟩ <;> rfl

omit hl

/-- The same layer, but for the order in which its gates are listed. -/
structure Agrees (l m : CXLayer) : Prop where
  topology : l.topology = m.topology
  gates : l.gates.Perm m.gates
  couplings : l.matching.couplings.Perm m.matching.couplings
  qubits : l.matching.qubits.Perm m.matching.qubits
  partners : l.matching.partners = m.matching.partners
  numFlippable : l.numFlippable = m.numFlippable

lemma Agrees.refl (l : CXLayer) : l.Agrees l := ⟨rfl, .refl _, .refl _, .refl _, rfl, rfl⟩

lemma agrees_of_gates {m : CXLayer} (hl : l.Valid) (hm : m.Valid) (ht : l.topology = m.topology)
    (hg : l.gates.Perm m.gates) (hn : l.numFlippable = m.numFlippable) : l.Agrees m where
  topology := ht
  gates := hg
  couplings := by
    rw [hl.couplings, hm.couplings]
    exact hg.map _
  qubits := by
    rw [hl.qubits, hm.qubits]
    exact hg.flatMap_right _
  partners := by
    have hi : ∀ q, l.matching.incident q = m.matching.incident q := by
      intro q
      refine Option.ext fun k => ?_
      rw [hl.incident, hm.incident]
      simp only [hg.mem_iff]
    have hlen : l.matching.partners.length = m.matching.partners.length := by
      rw [hl.partners_length, hm.partners_length, ht]
    refine ext_getElem hlen fun q h₁ h₂ => ?_
    have := hi q
    rwa [Matching.incident, Matching.incident, getElem?_eq_getElem h₁,
      getElem?_eq_getElem h₂] at this
  numFlippable := hn

lemma blockedBy_eq {m : CXLayer} (hl : l.Valid) (hm : m.Valid) (ht : l.topology = m.topology)
    (hg : ∀ h, h ≠ g → (h ∈ l.gates ↔ h ∈ m.gates)) : l.blockedBy g = m.blockedBy g := by
  have hi : ∀ r, ¬ g.Touches r → l.incident r = m.incident r := by
    intro r hr
    refine Option.ext fun h => ?_
    rw [hl.incident_eq_some, hm.incident_eq_some]
    refine and_congr_left fun th => hg h ?_
    rintro rfl
    exact hr th
  have hfree : ∀ q p, (∀ r, r ≠ q → r ≠ p → l.incident r = m.incident r) →
      l.freeBeside q p = m.freeBeside q p := by
    intro q p hqp
    rw [freeBeside, freeBeside, ht]
    refine congrArg List.length (filter_congr fun r hr => ?_)
    have hrq : r ≠ q := by
      have := (mem_filter.mp hr).2
      simp only [Bool.and_eq_true, bne_iff_ne] at this
      exact this.1
    by_cases hrp : r = p
    · simp [hrp]
    · rw [hqp r hrq hrp]
  rw [blockedBy, blockedBy, hfree g.1 g.2, hfree g.2 g.1]
  · exact fun r h₂ h₁ => hi r (by rintro (e | e) <;> contradiction)
  · exact fun r h₁ h₂ => hi r (by rintro (e | e) <;> contradiction)

theorem flip_flip (hl : l.Valid) (hf : l.flip c t = .ok l') :
    ∃ m, l'.flip c t = .ok m ∧ m.Agrees l := by
  have hl' := flip_valid hl hf
  rcases flip_cases hl hf with ⟨hg, rfl⟩ | ⟨hne, h₁, h₂, hk, ha, rfl⟩
  · obtain ⟨hne, h₁, h₂⟩ := hl.ends _ hg
    have hk := hl.coupled _ hg
    have ha : ∀ k ∈ (l.remove (c, t)).gates, CX.Apart k (c, t) := by
      intro k hmem
      obtain ⟨hmem, hkne⟩ := mem_filter.mp hmem
      exact hl.apart.forall hmem hg (by simpa using hkne)
    refine ⟨_, flip_of_apart (g := (c, t)) hl' hne h₁ h₂ hk ha, ?_⟩
    have hm := insert_valid (g := (c, t)) hl' hne h₁ h₂ hk ha
    have hgates : ((l.remove (c, t)).insert (c, t)).gates.Perm l.gates := by
      refine perm_append_singleton _ _ |>.trans ?_
      have := perm_cons_erase hg
      rwa [hl.gates_nodup.erase_eq_filter, perm_comm] at this
    refine agrees_of_gates hm hl rfl hgates ?_
    have hb := blockedBy_eq (g := (c, t)) hl' hm rfl fun h hh => by
      simp [insert, hh]
    change l.numFlippable + 1 + (l.remove (c, t)).blockedBy (c, t) - 1 -
      ((l.remove (c, t)).insert (c, t)).blockedBy (c, t) = l.numFlippable
    omega
  · have hg : (c, t) ∈ (l.insert (c, t)).gates := by simp [insert]
    refine ⟨_, flip_of_mem hl' hg, ?_⟩
    have hm := remove_valid hl' hg
    have hgates : ((l.insert (c, t)).remove (c, t)).gates = l.gates := by
      change (l.gates ++ [(c, t)]).filter (· != (c, t)) = l.gates
      have hkeep : l.gates.filter (· != (c, t)) = l.gates := by
        refine filter_eq_self.mpr fun k hmem => ?_
        have : k ≠ (c, t) := fun e => not_apart_self _ (e ▸ ha k hmem)
        simpa using this
      simp [hkeep]
    refine agrees_of_gates hm hl rfl (.of_eq hgates) ?_
    have hb := blockedBy_eq (g := (c, t)) hl' hm rfl fun h hh => by
      rw [hgates]
      simp [insert, hh]
    change l.numFlippable - 1 - (l.insert (c, t)).blockedBy (c, t) + 1 +
      ((l.insert (c, t)).remove (c, t)).blockedBy (c, t) = l.numFlippable
    omega

lemma qubit_eq_ok {v : Value} : qubit v = .ok a ↔ v.int? = some (a : Int) := by
  unfold qubit
  grind

lemma flipValue_cases {c t : Value} (hf : l.flipValue c t = .ok l') :
    ∃ a b, qubit c = .ok a ∧ qubit t = .ok b ∧ l.flip a b = .ok l' := by
  unfold flipValue at hf
  cases hc : c.int? with
  | none => simp [hc, throw, throwThe, MonadExceptOf.throw, bind, Except.bind] at hf
  | some m =>
    cases ht : t.int? with
    | none => simp [hc, ht, throw, throwThe, MonadExceptOf.throw, bind, Except.bind] at hf
    | some n =>
      cases ha : qubit c with
      | error e => simp [hc, ht, ha, bind, Except.bind] at hf
      | ok a =>
        cases hb : qubit t with
        | error e =>
          simp only [hc, ht, ha, hb, bind, Except.bind] at hf
          simp at hf
          split at hf <;> cases hf
        | ok b =>
          refine ⟨a, b, rfl, rfl, ?_⟩
          simp [hc, ht, ha, hb, bind, Except.bind] at hf
          split at hf
          · cases hf
          · exact hf

lemma flipValue_eq {c t : Value} {b : Nat} (hc : qubit c = .ok a) (ht : qubit t = .ok b)
    (ha : a < l.topology.size) : l.flipValue c t = l.flip a b := by
  simp [flipValue, qubit_eq_ok.mp hc, qubit_eq_ok.mp ht, hc, ht, Topology.hasQubit, ha, bind,
    Except.bind]

lemma Valid.incidentValue_eq (hl : l.Valid) {v : Value} (hv : qubit v = .ok a)
    (ha : a < l.topology.size) : l.matching.incidentValue v = .ok (l.matching.incident a) := by
  have hlt : (a : Int) < l.matching.partners.length := by
    rw [hl.partners_length]
    exact_mod_cast ha
  simp [Matching.incidentValue, qubit_eq_ok.mp hv, hlt, show ¬ (a : Int) < 0 by omega]

/-- A gate counts as flippable if it is there or touches no other. Nothing is asked of the topology. -/
theorem isFlippableValue_iff (hl : l.Valid) {c t : Value} {b : Nat} (hc : qubit c = .ok a)
    (ht : qubit t = .ok b) (ha : a < l.topology.size) (hb : b < l.topology.size) (hne : a ≠ b) :
    ∃ r, l.isFlippableValue c t = .ok r ∧
      (r ↔ (a, b) ∈ l.gates ∨ ∀ g ∈ l.gates, CX.Apart g (a, b)) := by
  have hgate : gateOf? c t = .ok (some (a, b)) := by
    simp [gateOf?, Coupling.ofValues, qubit_eq_ok.mp hc, qubit_eq_ok.mp ht, hne, bind, Except.bind,
      pure, Except.pure]
  cases hon : l.gateOn (coupling (a, b)) with
  | some h =>
    obtain ⟨hh, hk⟩ := hl.gateOn_eq_some.mp hon
    refine ⟨_, by simp only [isFlippableValue, hgate, ok_bind, Option.bind_some, hon]; rfl, ?_⟩
    rw [beq_iff_eq, Option.some.injEq]
    constructor
    · rintro rfl
      exact Or.inl hh
    · rintro (hmem | hapart)
      · exact hl.eq_of_coupling hmem hh hk.symm
      · exact absurd ((touches_of_coupling hk).mp (Or.inl rfl))
          ((hapart h hh).not_touches (Or.inl rfl))
  | none =>
    have hfree : ∀ q, l.matching.incident q = none ↔ ∀ g ∈ l.gates, ¬ g.Touches q := by
      intro q
      rw [Option.eq_none_iff_forall_ne_some]
      constructor
      · exact fun h g hg tg => h _ ((hl.incident q _).mpr ⟨g, hg, rfl, tg⟩)
      · intro h k hk
        obtain ⟨g, hg, -, tg⟩ := (hl.incident q k).mp hk
        exact h g hg tg
    refine ⟨(l.matching.incident a).isNone && (l.matching.incident b).isNone, ?_, ?_⟩
    · simp only [isFlippableValue, hgate, ok_bind, Option.bind_some, hon, hl.incidentValue_eq hc ha,
        hl.incidentValue_eq ht hb]
      cases l.matching.incident a <;> rfl
    · have hnot : (a, b) ∉ l.gates := fun hmem => gateOn_eq_none.mp hon _ hmem rfl
      rw [Bool.and_eq_true, Option.isNone_iff_eq_none, Option.isNone_iff_eq_none, hfree, hfree,
        or_iff_right hnot]
      constructor
      · exact fun h g hg => apart_of_not_touches (h.1 g hg) (h.2 g hg)
      · exact fun h => ⟨fun g hg tg => (h g hg).not_touches tg (Or.inl rfl),
          fun g hg tg => (h g hg).not_touches tg (Or.inr rfl)⟩

lemma isFlippableValue_of_flip (hl : l.Valid) {c t : Value} {b : Nat} (hc : qubit c = .ok a)
    (ht : qubit t = .ok b) (hf : l.flip a b = .ok l') : l.isFlippableValue c t = .ok true := by
  obtain ⟨ha, hb⟩ := flip_within hl hf
  have hcases := flip_cases hl hf
  have hne : a ≠ b := hcases.elim (fun h => (hl.ends _ h.1).1) fun h => h.1
  obtain ⟨r, hr, hiff⟩ := isFlippableValue_iff hl hc ht ha hb hne
  rw [hr, hiff.mpr (hcases.imp (fun h => h.1) fun h => h.2.2.2.2.1)]

end CXLayer

end GadgetCircuits
