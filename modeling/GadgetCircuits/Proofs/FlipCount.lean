import GadgetCircuits.Proofs.CXLayer
import GadgetCircuits.Proofs.Topology

/-!
The number of gates that can be flipped. A gate can be flipped if it is there or both its qubits are
free. A gate that is added blocks its opposite and, for every free neighbour of its qubits, both gates
towards it; so the number that a layer keeps is the number of its flippable gates, after all flips.
-/

namespace GadgetCircuits

open List CX

lemma Topology.ofValues_nodup {size couplings : Value} {t : Topology}
    (h : ofValues size couplings = .ok t) : t.couplings.Nodup := by
  obtain ⟨n, pairs, -, -, -, rfl⟩ := ofValues_cases h
  exact nodup_eraseDups _

lemma Topology.mem_adjacent {t : Topology} (ht : t.WellFormed) {q r : Nat} :
    r ∈ t.adjacent q ↔ t.hasCoupling q r := by
  unfold adjacent qubits
  rw [mem_filter, mem_range, Bool.and_eq_true, bne_iff_ne]
  constructor
  · exact fun h => h.2.2
  · intro h
    obtain ⟨hne, -, hr⟩ := ends_of_hasCoupling ht h
    exact ⟨hr, hne.symm, h⟩

lemma CX.coupling_mem_iff (t : Topology) (g : CX) :
    g.coupling ∈ t.couplings ↔ t.hasCoupling g.1 g.2 := by
  rw [Topology.hasCoupling, contains_iff_mem]
  rfl

namespace CXLayer

variable {l m : CXLayer} {g h : CX}
variable {q : Nat} {k : Nat × Nat}

def Free (l : CXLayer) (q : Nat) : Prop :=
  ∀ g ∈ l.gates, ¬ g.Touches q

lemma Valid.free_iff (hl : l.Valid) : l.Free q ↔ q ∉ l.matching.qubits := by
  rw [hl.mem_qubits]
  unfold Free
  push Not
  rfl

lemma Valid.incident_isNone (hl : l.Valid) : (l.incident q).isNone ↔ l.Free q := by
  rw [Option.isNone_iff_eq_none, Option.eq_none_iff_forall_ne_some]
  constructor
  · intro h g hg ht
    exact h g (hl.incident_eq_some.mpr ⟨hg, ht⟩)
  · intro h g hi
    obtain ⟨hg, ht⟩ := hl.incident_eq_some.mp hi
    exact h g hg ht

def choices (l : CXLayer) (k : Nat × Nat) : List CX :=
  match l.gateOn k with
  | some g => [g]
  | none => [(k.1, k.2), (k.2, k.1)]

lemma coupling_of_mem_choices (hl : l.Valid) (hk : k.1 < k.2) (hg : g ∈ l.choices k) :
    g.coupling = k := by
  unfold choices at hg
  split at hg
  · rename_i h hon
    rw [mem_singleton.mp hg]
    exact (hl.gateOn_eq_some.mp hon).2
  · rcases mem_pair.mp hg with rfl | rfl
    · exact if_pos hk
    · exact if_neg (by omega)

lemma choices_nodup (hk : k.1 < k.2) : (l.choices k).Nodup := by
  unfold choices
  grind

variable (hl : l.Valid)
include hl

lemma flippable_nodup (ht : l.topology.WellFormed)
    (hnodup : l.topology.couplings.Nodup) : l.flippable.Nodup := by
  change (l.matching.flippable.flatMap l.choices).Nodup
  unfold Matching.flippable
  rw [hl.topology]
  apply nodup_flatMap.mpr
  constructor
  · intro k hk
    exact choices_nodup (ht k (mem_of_mem_filter hk)).1
  · apply (hnodup.filter _).imp_of_mem
    intro k k' hk hk' hne g hg hg'
    apply hne
    rw [← coupling_of_mem_choices hl (ht k (mem_of_mem_filter hk)).1 hg,
      ← coupling_of_mem_choices hl (ht k' (mem_of_mem_filter hk')).1 hg']

lemma mem_choices (hk : k.1 < k.2) :
    g ∈ l.choices k ↔ g.coupling = k ∧ (g ∈ l.gates ∨ l.gateOn k = none) := by
  constructor
  · intro hg
    refine ⟨coupling_of_mem_choices hl hk hg, ?_⟩
    unfold choices at hg
    split at hg
    · rename_i h hon
      rw [mem_singleton.mp hg]
      exact Or.inl (hl.gateOn_eq_some.mp hon).1
    · rename_i hon
      exact Or.inr hon
  · rintro ⟨rfl, hg | hon⟩
    · rw [choices, hl.gateOn_eq_some.mpr ⟨hg, rfl⟩]
      exact mem_singleton_self g
    · rw [choices, hon, coupling, Coupling.ordered]
      grind

lemma isFlippable_iff : l.matching.isFlippable g.coupling ↔
      l.gateOn g.coupling ≠ none ∨ l.Free g.1 ∧ l.Free g.2 := by
  have hends : l.Free g.1 ∧ l.Free g.2 ↔
      g.coupling.1 ∉ l.matching.qubits ∧ g.coupling.2 ∉ l.matching.qubits := by
    rw [← hl.free_iff, ← hl.free_iff]
    unfold coupling Coupling.ordered
    split
    · rfl
    · exact and_comm
  have hon : g.coupling ∈ l.matching.couplings ↔ l.gateOn g.coupling ≠ none := by
    rw [ne_eq, gateOn_eq_none, hl.couplings, mem_map]
    push Not
    rfl
  rw [Matching.isFlippable, hends, ← hon]
  simp

lemma mem_flippable (ht : l.topology.WellFormed) :
    g ∈ l.flippable ↔ l.topology.hasCoupling g.1 g.2 ∧ (g ∈ l.gates ∨ l.Free g.1 ∧ l.Free g.2) := by
  have hnone : l.Free g.1 ∧ l.Free g.2 → l.gateOn g.coupling = none := by
    intro hfree
    apply gateOn_eq_none.mpr
    intro h hh e
    exact hfree.1 h hh ((touches_of_coupling e).mpr (Or.inl rfl))
  rw [← coupling_mem_iff]
  change g ∈ l.matching.flippable.flatMap l.choices ↔ _
  rw [mem_flatMap, Matching.flippable, hl.topology]
  constructor
  · rintro ⟨k, hk, hg⟩
    obtain ⟨hk, hflip⟩ := mem_filter.mp hk
    obtain ⟨rfl, hg⟩ := (mem_choices hl (ht k hk).1).mp hg
    refine ⟨hk, ?_⟩
    rcases hg with hg | hon
    · exact Or.inl hg
    · exact Or.inr (((isFlippable_iff hl).mp hflip).resolve_left (not_not_intro hon))
  · rintro ⟨hk, hg⟩
    refine ⟨g.coupling, mem_filter.mpr ⟨hk, (isFlippable_iff hl).mpr ?_⟩,
      (mem_choices hl (ht _ hk).1).mpr ⟨rfl, hg.imp_right hnone⟩⟩
    rcases hg with hg | hfree
    · left
      rw [hl.gateOn_eq_some.mpr ⟨hg, rfl⟩]
      exact Option.some_ne_none g
    · exact Or.inr hfree

theorem mem_flippable_iff_flip (ht : l.topology.WellFormed) :
    g ∈ l.flippable ↔ ∃ l', l.flip g.1 g.2 = .ok l' := by
  rw [mem_flippable hl ht]
  constructor
  · rintro ⟨hk, hg | ⟨h₁, h₂⟩⟩
    · exact ⟨_, flip_of_mem hl hg⟩
    · obtain ⟨hne, hlt₁, hlt₂⟩ := Topology.ends_of_hasCoupling ht hk
      exact ⟨_, flip_of_apart hl hne hlt₁ hlt₂ ((coupling_mem_iff _ g).mpr hk) fun k hmem =>
        apart_of_not_touches (h₁ k hmem) (h₂ k hmem)⟩
  · rintro ⟨l', hf⟩
    rcases flip_cases hl hf with ⟨hg, -⟩ | ⟨-, -, -, hk, ha, -⟩
    · exact ⟨(coupling_mem_iff _ g).mp (hl.coupled g hg), Or.inl hg⟩
    · refine ⟨(coupling_mem_iff _ g).mp hk, Or.inr ⟨fun k hmem hq => ?_, fun k hmem hq => ?_⟩⟩
      · exact (ha k hmem).not_touches hq (Or.inl rfl)
      · exact (ha k hmem).not_touches hq (Or.inr rfl)

omit hl

def beside (l : CXLayer) (q partner : Nat) : List Nat :=
  (l.topology.adjacent q).filter fun r => r != partner && (l.incident r).isNone

lemma mem_beside (hl : l.Valid) (ht : l.topology.WellFormed) {p r : Nat} :
    r ∈ l.beside q p ↔ l.topology.hasCoupling q r ∧ r ≠ p ∧ l.Free r := by
  rw [beside, mem_filter, Topology.mem_adjacent ht, Bool.and_eq_true, bne_iff_ne,
    hl.incident_isNone]

lemma beside_nodup (l : CXLayer) (q p : Nat) : (l.beside q p).Nodup :=
  (nodup_range.filter _).filter _

def gatesBetween (q : Nat) (rs : List Nat) : List CX :=
  rs.map (fun r => (q, r)) ++ rs.map fun r => (r, q)

lemma mem_gatesBetween {a b : Nat} {rs : List Nat} :
    (a, b) ∈ gatesBetween q rs ↔ a = q ∧ b ∈ rs ∨ b = q ∧ a ∈ rs := by
  simp only [gatesBetween, mem_append, mem_map, Prod.mk.injEq]
  grind

lemma gatesBetween_nodup {rs : List Nat} (hq : q ∉ rs) (hrs : rs.Nodup) :
    (gatesBetween q rs).Nodup := by
  apply nodup_append'.mpr
  refine ⟨hrs.map fun _ _ e => congrArg Prod.snd e, hrs.map fun _ _ e => congrArg Prod.fst e, ?_⟩
  intro g hg hg'
  grind

/-- The gates that a gate blocks: its opposite, and both gates towards every free neighbour. -/
def blocked (l : CXLayer) (g : CX) : List CX :=
  (g.2, g.1) :: (gatesBetween g.1 (l.beside g.1 g.2) ++ gatesBetween g.2 (l.beside g.2 g.1))

lemma length_blocked (l : CXLayer) (g : CX) : ((l.blocked g).length : Int) = 1 + l.blockedBy g := by
  have hfree : ∀ q p, l.freeBeside q p = (l.beside q p).length := fun _ _ => rfl
  simp only [blocked, blockedBy, hfree, gatesBetween, length_cons, length_append, length_map]
  omega

lemma blocked_nodup (hl : l.Valid) (ht : l.topology.WellFormed) (hne : g.1 ≠ g.2) :
    (l.blocked g).Nodup := by
  have hself : ∀ q p, q ∉ l.beside q p := by
    intro q p hq
    exact (Topology.ends_of_hasCoupling ht ((mem_beside hl ht).mp hq).1).1 rfl
  have hother : ∀ q p, p ∉ l.beside q p := by
    intro q p hp
    exact ((mem_beside hl ht).mp hp).2.1 rfl
  apply nodup_cons.mpr
  constructor
  · rw [mem_append, mem_gatesBetween, mem_gatesBetween]
    simp_all
  · apply nodup_append'.mpr
    refine ⟨gatesBetween_nodup (hself _ _) (beside_nodup l _ _),
      gatesBetween_nodup (hself _ _) (beside_nodup l _ _), ?_⟩
    rintro ⟨a, b⟩ h h'
    rcases mem_gatesBetween.mp h with ⟨rfl, hb⟩ | ⟨rfl, ha⟩
    · rcases mem_gatesBetween.mp h' with ⟨e, -⟩ | ⟨rfl, -⟩
      · exact hne e
      · exact hother _ _ hb
    · rcases mem_gatesBetween.mp h' with ⟨rfl, -⟩ | ⟨e, -⟩
      · exact hother _ _ ha
      · exact hne e

lemma not_flippable_of_blocked (hl : l.Valid) (ht : l.topology.WellFormed) (hg : g ∈ l.gates)
    (hh : h ∈ l.blocked g) : h ∉ l.flippable := by
  obtain ⟨a, b⟩ := h
  have hgfree : ∀ q, g.Touches q → ¬ l.Free q := fun q hq hfree => hfree g hg hq
  have hgate : l.Free a ∨ l.Free b → (a, b) ∉ l.gates := by
    rintro (hfree | hfree) hmem
    · exact hfree _ hmem (Or.inl rfl)
    · exact hfree _ hmem (Or.inr rfl)
  rw [mem_flippable hl ht]
  rintro ⟨-, hflip⟩
  rw [blocked, mem_cons, mem_append, mem_gatesBetween, mem_gatesBetween, mem_beside hl ht,
    mem_beside hl ht, mem_beside hl ht, mem_beside hl ht] at hh
  rcases hh with e | (⟨rfl, -, -, hb⟩ | ⟨rfl, -, -, ha⟩) | ⟨rfl, -, -, hb⟩ | ⟨rfl, -, -, ha⟩
  · obtain ⟨rfl, rfl⟩ := Prod.mk.inj e
    rcases hflip with hmem | ⟨hfree, -⟩
    · have heq := hl.eq_of_touches hg hmem (Or.inl rfl) (Or.inr rfl)
      exact (hl.ends g hg).1 (congrArg Prod.fst heq)
    · exact hgfree _ (Or.inr rfl) hfree
  · exact hflip.elim (hgate (Or.inr hb)) fun hfree => hgfree _ (Or.inl rfl) hfree.1
  · exact hflip.elim (hgate (Or.inl ha)) fun hfree => hgfree _ (Or.inl rfl) hfree.2
  · exact hflip.elim (hgate (Or.inr hb)) fun hfree => hgfree _ (Or.inr rfl) hfree.1
  · exact hflip.elim (hgate (Or.inl ha)) fun hfree => hgfree _ (Or.inr rfl) hfree.2

section

variable (hm : m.Valid) (htop : m.topology = l.topology)
  (ht : l.topology.WellFormed) (hgates : ∀ h, h ∈ m.gates ↔ h ∈ l.gates ∨ h = g)

include hgates in
lemma free_of_gates {q : Nat} : m.Free q ↔ l.Free q ∧ ¬ g.Touches q := by
  constructor
  · intro hq
    exact ⟨fun h hh => hq h ((hgates h).mpr (Or.inl hh)), hq g ((hgates g).mpr (Or.inr rfl))⟩
  · rintro ⟨hq, hg⟩ h hh
    rcases (hgates h).mp hh with hh | rfl
    · exact hq h hh
    · exact hg

include hl hm htop ht hgates in
lemma mem_flippable_of_gates (hk : l.topology.hasCoupling g.1 g.2) (h₁ : l.Free g.1)
    (h₂ : l.Free g.2) (h : CX) : h ∈ l.flippable ↔ h ∈ m.flippable ++ m.blocked g := by
  obtain ⟨a, b⟩ := h
  obtain ⟨c, t⟩ := g
  have htm : m.topology.WellFormed := htop ▸ ht
  have hcomm := l.topology.hasCoupling_comm
  have hne : ∀ {a b}, l.topology.hasCoupling a b → a ≠ b := fun h =>
    (Topology.ends_of_hasCoupling ht h).1
  simp only at hk h₁ h₂
  rw [mem_append, mem_flippable hl ht, mem_flippable hm htm, blocked, mem_cons,
    mem_append, mem_gatesBetween, mem_gatesBetween]
  simp only [mem_beside hm htm, htop, free_of_gates hgates, hgates, Touches, Prod.mk.injEq]
  grind

include hl hm htop ht hgates in
lemma length_flippable_of_gates (hnodup : l.topology.couplings.Nodup)
    (hk : l.topology.hasCoupling g.1 g.2) (h₁ : l.Free g.1) (h₂ : l.Free g.2) :
    (l.flippable.length : Int) = m.flippable.length + 1 + m.blockedBy g := by
  have htm : m.topology.WellFormed := htop ▸ ht
  have hne := (Topology.ends_of_hasCoupling ht hk).1
  have hmem := mem_flippable_of_gates hl hm htop ht hgates hk h₁ h₂
  have hapart : List.Disjoint m.flippable (m.blocked g) := by
    intro h hflip hblocked
    exact not_flippable_of_blocked hm htm ((hgates g).mpr (Or.inr rfl)) hblocked hflip
  have hperm : l.flippable.Perm (m.flippable ++ m.blocked g) := by
    apply (perm_ext_iff_of_nodup (flippable_nodup hl ht hnodup) ?_).mpr hmem
    exact nodup_append'.mpr
      ⟨flippable_nodup hm htm (htop ▸ hnodup), blocked_nodup hm htm hne, hapart⟩
  rw [hperm.length_eq, length_append, Int.natCast_add, length_blocked]
  omega

end

/-- The bookkeeping of a layer is right: the number that it keeps is the number of its flippable
gates. -/
structure Counted (t : Topology) (l : CXLayer) : Prop where
  valid : l.Valid
  topology : l.topology = t
  count : l.numFlippable = l.flippable.length

section

variable {t : Topology}

lemma empty_counted (t : Topology) : Counted t (empty t) where
  valid := empty_valid t
  topology := rfl
  count := by
    have hall : (empty t).matching.flippable = t.couplings := filter_eq_self.mpr fun _ _ => rfl
    have hlength : ((empty t).flippable.length : Int) = 2 * t.couplings.length := by
      change ((((empty t).matching.flippable.flatMap (empty t).choices).length : Nat) : Int) = _
      have htwo : ∀ k, ((empty t).choices k).length = 2 := fun _ => rfl
      rw [hall, length_flatMap]
      simp only [htwo, map_const', sum_replicate, smul_eq_mul]
      omega
    exact hlength.symm

lemma Counted.flip (ht : t.WellFormed) (hnodup : t.couplings.Nodup) (hl : Counted t l) {c d : Nat}
    (hf : l.flip c d = .ok m) : Counted t m := by
  obtain ⟨hvalid, rfl, hcount⟩ := hl
  have hvalid' := flip_valid hvalid hf
  refine ⟨hvalid', flip_topology hvalid hf, ?_⟩
  rcases flip_cases hvalid hf with ⟨hg, rfl⟩ | ⟨hne, h₁, h₂, hk, ha, rfl⟩
  · have hgates : ∀ h, h ∈ l.gates ↔ h ∈ (l.remove (c, d)).gates ∨ h = (c, d) := by
      intro h
      by_cases e : h = (c, d)
      · simp [e, hg]
      · simp [e, remove]
    have hfree : ∀ q, Touches (c, d) q → (l.remove (c, d)).Free q := by
      intro q hq h hh
      obtain ⟨hh, hne⟩ := mem_filter.mp hh
      exact (hvalid.apart.forall hg hh (by simpa using Ne.symm (bne_iff_ne.mp hne))).not_touches hq
    have hlength := length_flippable_of_gates hvalid' hvalid rfl ht hgates hnodup
      ((coupling_mem_iff _ _).mp (hvalid.coupled _ hg)) (hfree c (Or.inl rfl))
      (hfree d (Or.inr rfl))
    have hblocked : (l.remove (c, d)).blockedBy (c, d) = l.blockedBy (c, d) :=
      blockedBy_eq hvalid' hvalid rfl fun h hh => by simp [hgates h, hh]
    change l.numFlippable + 1 + (l.remove (c, d)).blockedBy (c, d) = _
    omega
  · have hgates : ∀ h, h ∈ (l.insert (c, d)).gates ↔ h ∈ l.gates ∨ h = (c, d) := by
      intro h
      simp [insert]
    have hfree : ∀ q, Touches (c, d) q → l.Free q := fun q hq h hh =>
      (ha h hh).symm.not_touches hq
    have hlength := length_flippable_of_gates hvalid hvalid' rfl ht hgates hnodup
      ((coupling_mem_iff _ _).mp hk) (hfree c (Or.inl rfl)) (hfree d (Or.inr rfl))
    change l.numFlippable - 1 - (l.insert (c, d)).blockedBy (c, d) = _
    omega

def flipCall (c t : Value) : Update CXLayer Unit :=
  Update.replace fun l => l.flipValue c t

def afterFlips (t : Topology) (calls : List (Value × Value)) : CXLayer :=
  calls.foldl (fun l k => ((flipCall k.1 k.2).runFrom l).2) (empty t)

lemma flipCall_cases (l : CXLayer) (c t : Value) :
    (∃ l', l.flipValue c t = .ok l' ∧ (flipCall c t).runFrom l = (.ok (), l')) ∨
      ∃ e, l.flipValue c t = .error e ∧ (flipCall c t).runFrom l = (.error e, l) := by
  cases hf : l.flipValue c t with
  | ok l' => exact Or.inl ⟨l', rfl, Update.runFrom_replace hf⟩
  | error e => exact Or.inr ⟨e, rfl, Update.runFrom_replace_error hf⟩

lemma Counted.flipCall (ht : t.WellFormed) (hnodup : t.couplings.Nodup) (hl : Counted t l)
    (c d : Value) : Counted t ((flipCall c d).runFrom l).2 := by
  rcases flipCall_cases l c d with ⟨l', hf, hrun⟩ | ⟨e, -, hrun⟩
  · obtain ⟨a, b, -, -, hf⟩ := flipValue_cases hf
    rw [hrun]
    exact hl.flip ht hnodup hf
  · rw [hrun]
    exact hl

lemma afterFlips_counted (ht : t.WellFormed) (hnodup : t.couplings.Nodup)
    (calls : List (Value × Value)) : Counted t (afterFlips t calls) := by
  have hrun : ∀ l, Counted t l →
      Counted t (calls.foldl (fun l k => ((CXLayer.flipCall k.1 k.2).runFrom l).2) l) := by
    induction calls with
    | nil => exact fun _ hl => hl
    | cons k calls ih => exact fun l hl => ih _ (hl.flipCall ht hnodup k.1 k.2)
  exact hrun _ (empty_counted t)

structure Bookkeeping (t : Topology) (l : CXLayer) : Prop where
  apart : l.gates.Pairwise Apart
  coupled : ∀ g ∈ l.gates, g.coupling ∈ t.couplings
  incident : ∀ q < t.size, ∃ found, l.incidentValue (.ofNat q) = .ok found ∧
    ∀ g, found = some g ↔ g ∈ l.gates ∧ g.Touches q
  distinct : l.flippable.Nodup
  count : l.numFlippable = l.flippable.length
  accepted : ∀ c d, c < t.size → d < t.size → c ≠ d → ((c, d) ∈ l.flippable ↔
    ∃ l', (CXLayer.flipCall (.ofNat c) (.ofNat d)).runFrom l = (.ok (), l'))
  refused : ∀ c d e l', (CXLayer.flipCall c d).runFrom l = (.error e, l') → l' = l
  restored : ∀ c d l', (CXLayer.flipCall c d).runFrom l = (.ok (), l') →
    ∃ m, (CXLayer.flipCall c d).runFrom l' = (.ok (), m) ∧ m.Agrees l
  drawn : ∀ v : Int, 0 ≤ v → v < l.numFlippable → ∃ g ∈ l.flippable, l.drawn v = .ok g
  drawn_injective : ∀ v w : Int, 0 ≤ v → v < l.numFlippable → 0 ≤ w → w < l.numFlippable →
    l.drawn v = l.drawn w → v = w

lemma Valid.incidentValue_of_lt (hl : l.Valid) {q : Nat} (hq : q < l.topology.size) :
    l.incidentValue (.ofNat q) = .ok (l.incident q) := by
  rw [incidentValue, Slice.position_ofNat (hq.trans_eq hl.partners_length.symm)]
  rfl

lemma flipCall_eq_ok {c d : Value} :
    (flipCall c d).runFrom l = (.ok (), m) ↔ l.flipValue c d = .ok m := by
  rcases flipCall_cases l c d with ⟨l', hf, hrun⟩ | ⟨e, hf, hrun⟩
  · rw [hf, hrun]
    simp
  · rw [hf, hrun]
    simp

lemma drawn_eq {v : Int} (h₀ : 0 ≤ v) (h : v.toNat < l.flippable.length) :
    l.drawn v = .ok l.flippable[v.toNat] := by
  rw [drawn, if_neg (by omega), getElem?_eq_getElem h]

/-- After every run of flips, accepted or refused, the bookkeeping of a layer is right. -/
theorem afterFlips_bookkeeping (ht : t.WellFormed) (hnodup : t.couplings.Nodup)
    (calls : List (Value × Value)) : Bookkeeping t (afterFlips t calls) := by
  obtain ⟨hl, htop, hcount⟩ := afterFlips_counted ht hnodup calls
  generalize afterFlips t calls = l at hl htop hcount
  subst htop
  have hdistinct := flippable_nodup hl ht hnodup
  have hlt : ∀ {v : Int}, 0 ≤ v → v < l.numFlippable → v.toNat < l.flippable.length := by
    intro v h₀ h
    omega
  refine ⟨hl.apart, hl.coupled, ?_, hdistinct, hcount, ?_, ?_, ?_, ?_, ?_⟩
  · intro q hq
    exact ⟨_, hl.incidentValue_of_lt hq, fun g => hl.incident_eq_some⟩
  · intro c d hc hd _
    have hflip : l.flipValue (.ofNat c) (.ofNat d) = l.flip c d :=
      flipValue_eq (qubit_eq_ok.mpr rfl) (qubit_eq_ok.mpr rfl) hc
    simp only [flipCall_eq_ok, hflip]
    exact mem_flippable_iff_flip hl ht
  · intro c d e l' hrun
    rcases flipCall_cases l c d with ⟨m, -, hok⟩ | ⟨e', -, herror⟩
    · rw [hok] at hrun
      cases hrun
    · rw [herror] at hrun
      cases hrun
      rfl
  · intro c d l' hrun
    obtain ⟨a, b, ha, hb, hf⟩ := flipValue_cases (flipCall_eq_ok.mp hrun)
    obtain ⟨m, hm, hagrees⟩ := flip_flip hl hf
    have hlt : a < l'.topology.size := by
      have hl' := flip_valid hl hf
      rcases flip_cases hl' hm with ⟨hg, -⟩ | ⟨-, h, -⟩
      · exact (hl'.ends _ hg).2.1
      · exact h
    refine ⟨m, flipCall_eq_ok.mpr ?_, hagrees⟩
    rw [flipValue_eq ha hb hlt]
    exact hm
  · intro v h₀ h
    exact ⟨_, getElem_mem (hlt h₀ h), drawn_eq h₀ (hlt h₀ h)⟩
  · intro v w hv₀ hv hw₀ hw heq
    rw [drawn_eq hv₀ (hlt hv₀ hv), drawn_eq hw₀ (hlt hw₀ hw)] at heq
    have hsame := hdistinct.getElem_inj_iff.mp (Except.ok.inj heq)
    omega

/-- A triangle with a tail: a gate is added, its opposite and a value that is no qubit are refused, a
second gate is added and the first taken out. -/
theorem afterFlips_bookkeeping_kite : ∃ t,
    Topology.ofValues (.int 4) (.list [.list [.int 0, .int 1], .list [.int 2, .int 0],
      .list [.int 1, .int 2], .list [.int 2, .int 3]]) = .ok t ∧
    t.WellFormed ∧ t.couplings.Nodup ∧ Bookkeeping t (afterFlips t
      [(.int 0, .int 1), (.int 1, .int 0), (.str "2", .int 3), (.int 3, .int 2), (.int 0, .int 1)]) := by
  obtain ⟨t, h⟩ : ∃ t, Topology.ofValues (.int 4) (.list [.list [.int 0, .int 1],
      .list [.int 2, .int 0], .list [.int 1, .int 2], .list [.int 2, .int 3]]) = .ok t := ⟨_, rfl⟩
  have ht := Topology.ofValues_wellFormed h
  have hnodup := Topology.ofValues_nodup h
  exact ⟨t, h, ht, hnodup, afterFlips_bookkeeping ht hnodup _⟩

end

end CXLayer

end GadgetCircuits
