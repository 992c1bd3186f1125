import GadgetCircuits.Proofs.CXLayer
import GadgetCircuits.Proofs.Topology

/-!
Matchings under flips. The list of couplings, the list of matched qubits and the table of partners say
the same after every run of flips, accepted or refused. A flip does not ask whether its coupling
belongs to the topology, so a matching stays inside its topology only if the flips do.
-/

open List

namespace GadgetCircuits.Matching

open CX

variable {t : Topology} {m m' : Matching} {c : Nat × Nat} {v : Value}

/-- The couplings are pairwise apart, and the other tables repeat what they say. -/
structure Valid (m : Matching) : Prop where
  ends : ∀ c ∈ m.couplings, c.1 < c.2 ∧ c.2 < m.topology.size
  apart : m.couplings.Pairwise Apart
  qubits : m.qubits = m.couplings.flatMap fun c => [c.1, c.2]
  partners_length : m.partners.length = m.topology.size
  incident : ∀ (q : Nat) (c : Nat × Nat), m.incident q = some c ↔ c ∈ m.couplings ∧ Touches c q

lemma empty_valid (t : Topology) : (empty t).Valid where
  ends := by simp [empty]
  apart := List.Pairwise.nil
  qubits := rfl
  partners_length := by simp [empty, Topology.qubits]
  incident := by
    intro q c
    have hnone : (empty t).incident q = none := by
      simp only [empty, Matching.incident, getElem?_map]
      cases t.qubits[q]? <;> rfl
    rw [hnone]
    simp [empty]

lemma Valid.mem_qubits (hm : m.Valid) (q : Nat) :
    q ∈ m.qubits ↔ ∃ c ∈ m.couplings, Touches c q := by
  simp [hm.qubits, Touches]

lemma Valid.eq_of_touches (hm : m.Valid) {d : Nat × Nat} (hc : c ∈ m.couplings)
    (hd : d ∈ m.couplings) {q : Nat} (tc : Touches c q) (td : Touches d q) : c = d := by
  by_contra hne
  exact (hm.apart.forall hc hd hne).not_touches tc td

lemma Valid.qubits_nodup (hm : m.Valid) : m.qubits.Nodup := by
  rw [hm.qubits, nodup_flatMap]
  refine ⟨fun c hc => by simpa using (hm.ends c hc).1.ne, hm.apart.imp fun a => ?_⟩
  obtain ⟨h₁, h₂, h₃, h₄⟩ := a.symm
  simp [Function.onFun, h₁, h₂, h₃, h₄]

lemma isFlippable_iff : m.isFlippable c ↔ c ∈ m.couplings ∨ (c.1 ∉ m.qubits ∧ c.2 ∉ m.qubits) := by
  simp [isFlippable]

/-- Every accepted flip takes out a coupling that is there, or adds one whose qubits are free. -/
theorem flip_cases : m.flip c = .ok m' ↔ (c ∈ m.couplings ∧ m' = m.remove c) ∨
    (c ∉ m.couplings ∧ c.1 ∉ m.qubits ∧ c.2 ∉ m.qubits ∧ m' = m.insert c) := by
  have hflip := isFlippable_iff (m := m) (c := c)
  by_cases hc : c ∈ m.couplings
  · simp [flip, hflip.mpr (Or.inl hc), hc, eq_comm]
  · by_cases hfree : c.1 ∉ m.qubits ∧ c.2 ∉ m.qubits
    · simp [flip, hflip.mpr (Or.inr hfree), hc, hfree.1, hfree.2, eq_comm]
    · have hblocked : m.isFlippable c = false := by simp_all
      simp only [flip, hblocked, Bool.not_false, if_true, hc, false_and, false_or, not_false_eq_true,
        true_and, reduceCtorEq, false_iff]
      exact fun h => hfree ⟨h.1, h.2.1⟩

lemma flip_ok_iff : (∃ m', m.flip c = .ok m') ↔ m.isFlippable c := by
  simp only [flip_cases, isFlippable_iff]
  by_cases hc : c ∈ m.couplings <;> simp [hc]

lemma coupling_eq_self (hc : c.1 < c.2) : coupling c = c := by
  rw [coupling, Coupling.ordered, if_pos hc]

lemma remove_valid (hm : m.Valid) (hc : c ∈ m.couplings) : (m.remove c).Valid where
  ends d hd := hm.ends d (mem_of_mem_filter hd)
  apart := hm.apart.filter _
  qubits := by
    have hsame : ∀ ds : List (Nat × Nat), (∀ d ∈ ds, d ∈ m.couplings) →
        ds.flatMap (fun d => [d.1, d.2]) = ds.flatMap fun d => [(coupling d).1, (coupling d).2] := by
      intro ds hds
      refine flatMap_congr fun d hd => ?_
      rw [coupling_eq_self (hm.ends d (hds d hd)).1]
    have hkeep : ∀ d ∈ m.couplings, d ≠ c → ∀ q, Touches d q → ¬ Touches c q :=
      fun d hd hne q => (hm.apart.forall hd hc hne).not_touches
    have hfilter := CXLayer.filter_qubits hkeep
    rw [coupling_eq_self (hm.ends c hc).1, ← hsame _ fun _ => id,
      ← hsame _ fun _ => mem_of_mem_filter] at hfilter
    rw [← hm.qubits] at hfilter
    exact hfilter
  partners_length := by simpa [remove] using hm.partners_length
  incident := by
    intro q d
    have hout := CXLayer.incident_remove m c q
    rw [coupling_eq_self (hm.ends c hc).1] at hout
    rw [hout]
    by_cases ht : Touches c q
    · simp only [ht, if_true, reduceCtorEq, false_iff, not_and, remove, mem_filter]
      rintro ⟨hd, hne⟩ td
      rw [hm.eq_of_touches hd hc td ht] at hne
      simp at hne
    · rw [if_neg ht, hm.incident]
      refine and_congr_left fun td => ?_
      have hne : d ≠ c := fun e => ht (e ▸ td)
      simp [remove, hne]

lemma insert_valid (hm : m.Valid) (hc : c.1 < c.2 ∧ c.2 < m.topology.size) (h₁ : c.1 ∉ m.qubits)
    (h₂ : c.2 ∉ m.qubits) : (m.insert c).Valid := by
  have hfree : ∀ d ∈ m.couplings, Apart d c := by
    intro d hd
    apply apart_of_not_touches
    · exact fun td => h₁ ((hm.mem_qubits _).mpr ⟨d, hd, td⟩)
    · exact fun td => h₂ ((hm.mem_qubits _).mpr ⟨d, hd, td⟩)
  refine ⟨?_, ?_, ?_, ?_, ?_⟩
  · intro d hd
    rcases mem_append.mp hd with hd | hd
    · exact hm.ends d hd
    · rw [mem_singleton.mp hd]
      exact hc
  · refine pairwise_append.mpr ⟨hm.apart, pairwise_singleton _ _, ?_⟩
    intro d hd k hk
    rw [mem_singleton.mp hk]
    exact hfree d hd
  · simp [insert, hm.qubits]
  · simpa [insert] using hm.partners_length
  · intro q d
    have hin := CXLayer.incident_insert (m := m) (g := c) (by rw [hm.partners_length]; omega)
      (by rw [hm.partners_length]; omega) q
    rw [coupling_eq_self hc.1] at hin
    rw [hin]
    simp only [insert, mem_append, mem_singleton]
    by_cases ht : Touches c q
    · rw [if_pos ht, Option.some.injEq]
      constructor
      · rintro rfl
        exact ⟨Or.inr rfl, ht⟩
      · rintro ⟨hd | rfl, td⟩
        · exact absurd ht ((hfree d hd).not_touches td)
        · rfl
    · rw [if_neg ht, hm.incident]
      grind

def flipCall (v : Value) : Update Matching Unit :=
  Update.replace fun m => m.flipValue v

def afterFlips (t : Topology) (calls : List Value) : Matching :=
  calls.foldl (fun m v => ((flipCall v).runFrom m).2) (empty t)

lemma couplingOf_ends (h : m.couplingOf v = .ok c) : c.1 < c.2 ∧ c.2 < m.topology.size := by
  cases hk : Coupling.check m.topology.size v with
  | error e =>
    rw [couplingOf, hk] at h
    cases h
  | ok k =>
    rw [couplingOf, hk] at h
    cases h
    exact ⟨(Topology.checked_of_check hk).lt, (Topology.checked_of_check hk).inside⟩

lemma couplingOf_pair {a b : Nat} (ha : a < m.topology.size) (hb : b < m.topology.size)
    (hne : a ≠ b) : m.couplingOf (.list [.ofNat a, .ofNat b]) = .ok (Coupling.ordered a b) := by
  rw [couplingOf, Topology.check_ofNat rfl ha hb hne, Except.map, Topology.toNats_orderedValues]

lemma flipCall_eq_ok : (flipCall v).runFrom m = (.ok (), m') ↔
    ∃ c, m.couplingOf v = .ok c ∧ m.flip c = .ok m' := by
  rw [← bind_eq_ok]
  cases hf : m.flipValue v with
  | error e =>
    rw [flipCall, Update.runFrom_replace_error hf]
    rw [flipValue] at hf
    simp [hf]
  | ok m₁ =>
    rw [flipCall, Update.runFrom_replace hf]
    rw [flipValue] at hf
    simp [hf]

lemma flipCall_refused {e : Error} (h : (flipCall v).runFrom m = (.error e, m')) : m' = m := by
  cases hf : m.flipValue v with
  | error e' =>
    rw [flipCall, Update.runFrom_replace_error hf] at h
    exact (Prod.mk.inj h).2.symm
  | ok m₁ =>
    rw [flipCall, Update.runFrom_replace hf] at h
    cases (Prod.mk.inj h).1

/-- What every run of flips keeps: the tables agree, and couplings come from flips. -/
structure Reached (t : Topology) (calls : List Value) (m : Matching) : Prop where
  valid : m.Valid
  topology : m.topology = t
  asked : ∀ c ∈ m.couplings, ∃ v ∈ calls, m.couplingOf v = .ok c

lemma Reached.flipCall {calls : List Value} (hm : Reached t calls m) (v : Value) :
    Reached t (calls ++ [v]) ((flipCall v).runFrom m).2 := by
  have hasked : ∀ c ∈ m.couplings, ∃ w ∈ calls ++ [v], m.couplingOf w = .ok c := by
    intro c hc
    obtain ⟨w, hw, hof⟩ := hm.asked c hc
    exact ⟨w, mem_append_left _ hw, hof⟩
  cases hrun : (Matching.flipCall v).runFrom m with
  | mk r m' =>
    cases r with
    | error e =>
      rw [flipCall_refused hrun]
      exact ⟨hm.valid, hm.topology, hasked⟩
    | ok u =>
      obtain ⟨c, hof, hflip⟩ := flipCall_eq_ok.mp hrun
      rcases flip_cases.mp hflip with ⟨hc, rfl⟩ | ⟨-, h₁, h₂, rfl⟩
      · exact ⟨remove_valid hm.valid hc, hm.topology, fun d hd => hasked d (mem_of_mem_filter hd)⟩
      · refine ⟨insert_valid hm.valid (couplingOf_ends hof) h₁ h₂, hm.topology, fun d hd => ?_⟩
        rcases mem_append.mp hd with hd | hd
        · exact hasked d hd
        · rw [mem_singleton.mp hd]
          exact ⟨v, mem_append_right _ (mem_singleton.mpr rfl), hof⟩

lemma afterFlips_reached (t : Topology) (calls : List Value) :
    Reached t calls (afterFlips t calls) := by
  induction calls using reverseRecOn with
  | nil => exact ⟨empty_valid t, rfl, fun c hc => absurd hc not_mem_nil⟩
  | append_singleton calls v ih =>
    rw [afterFlips, foldl_concat]
    exact ih.flipCall v

/-- What a matching says about itself after flips. Couplings come from the flips, of which those
outside the topology are accepted like the others and never listed as flippable. -/
structure Bookkeeping (t : Topology) (calls : List Value) (m : Matching) : Prop where
  apart : m.couplings.Pairwise Apart
  qubits : m.qubits.Nodup ∧ ∀ q, q ∈ m.qubits ↔ ∃ c ∈ m.couplings, Touches c q
  incident : ∀ q < t.size, ∃ found, m.incidentValue (.ofNat q) = .ok found ∧
    ∀ c, found = some c ↔ c ∈ m.couplings ∧ Touches c q
  pairs : ∀ a < t.size, ∀ b < t.size, a ≠ b →
    m.couplingOf (.list [.ofNat a, .ofNat b]) = .ok (Coupling.ordered a b)
  accepted : ∀ v c, m.couplingOf v = .ok c → ((∃ m', (flipCall v).runFrom m = (.ok (), m')) ↔
    c ∈ m.couplings ∨ (c.1 ∉ m.qubits ∧ c.2 ∉ m.qubits))
  toggled : ∀ v c m', m.couplingOf v = .ok c → (flipCall v).runFrom m = (.ok (), m') →
    ∀ d, d ∈ m'.couplings ↔ if d = c then d ∉ m.couplings else d ∈ m.couplings
  refused : ∀ v e m', (flipCall v).runFrom m = (.error e, m') → m' = m
  listed : ∀ v c, m.couplingOf v = .ok c → (c ∈ m.flippable ↔
    c ∈ t.couplings ∧ ∃ m', (flipCall v).runFrom m = (.ok (), m'))
  asked : ∀ c ∈ m.couplings, ∃ v ∈ calls, m.couplingOf v = .ok c
  inside : (∀ v ∈ calls, ∀ c, m.couplingOf v = .ok c → c ∈ t.couplings) →
    ∀ c ∈ m.couplings, c ∈ t.couplings

/-- After every run of flips, accepted or refused, the tables of a matching agree; it is one of its
topology if all flips were. -/
theorem afterFlips_agree (t : Topology) (calls : List Value) :
    Bookkeeping t calls (afterFlips t calls) := by
  obtain ⟨hm, htop, hasked⟩ := afterFlips_reached t calls
  generalize afterFlips t calls = m at hm htop hasked
  subst htop
  have hcall : ∀ v c, m.couplingOf v = .ok c →
      ((∃ m', (flipCall v).runFrom m = (.ok (), m')) ↔ m.isFlippable c = true) := by
    intro v c hv
    rw [← flip_ok_iff]
    simp [flipCall_eq_ok, hv]
  refine ⟨hm.apart, ⟨hm.qubits_nodup, hm.mem_qubits⟩, ?_, ?_, ?_, ?_, ?_, ?_, hasked, ?_⟩
  · intro q hq
    refine ⟨m.incident q, ?_, hm.incident q⟩
    have hlt : (q : Int) < m.partners.length := by
      rw [hm.partners_length]
      exact_mod_cast hq
    simp [incidentValue, Value.ofNat, Value.int?, hlt, show ¬ (q : Int) < 0 by omega]
  · intro a ha b hb hne
    exact couplingOf_pair ha hb hne
  · intro v c hv
    rw [hcall v c hv, isFlippable_iff]
  · intro v c m' hv hrun d
    obtain ⟨c', hv', hflip⟩ := flipCall_eq_ok.mp hrun
    obtain rfl : c = c' := Except.ok.inj (hv.symm.trans hv')
    rcases flip_cases.mp hflip with ⟨hc, rfl⟩ | ⟨hc, -, -, rfl⟩
    · by_cases hd : d = c <;> simp [remove, hd, hc]
    · by_cases hd : d = c <;> simp [insert, hd, hc]
  · exact fun v e m' hrun => flipCall_refused hrun
  · intro v c hv
    rw [flippable, mem_filter, hcall v c hv]
  · intro hcalls c hc
    obtain ⟨v, hv, hof⟩ := hasked c hc
    exact hcalls v hv c hof

/-- On a line of three qubits a flip joins the ends, which are not coupled. -/
theorem flip_joins_uncoupled_ends : ∃ t m,
    Topology.ofValues (.int 3) (.list [.list [.int 0, .int 1], .list [.int 1, .int 2]]) = .ok t ∧
    (flipCall (.list [.int 0, .int 2])).runFrom (empty t) = (.ok (), m) ∧
    m.couplings = [(0, 2)] ∧ (0, 2) ∉ t.couplings ∧ (0, 2) ∉ (empty t).flippable := by
  have hout : (0, 2) ∉ (Topology.ofPairs 3 [(0, 1), (1, 2)]).couplings := by
    rw [Topology.ofPairs, Topology.mem_sortPairs]
    decide
  refine ⟨_, _, rfl, rfl, rfl, hout, fun hmem => hout ?_⟩
  exact mem_of_mem_filter hmem

end GadgetCircuits.Matching
