import GadgetCircuits.Proofs.GroupMoves

/-!
Collecting runs of gadgets of alternating basis. Each run makes up the group at its place, with its gadgets
in their order; a half turn is lost where a gadget on the same legs follows it in the run.
-/

namespace GadgetCircuits

open List GadgetGroup AngleExpr

variable {n : Nat}

lemma AngleExpr.turn?_eq_false_iff {a : Angle} :
    (angle a).turn? = some false ↔ ∀ k : ℤ, a.halfTurns ≠ k := by
  have hwhole : (angle a).turn? = some false ↔ (angle a).isZeroOrPi = false := by
    rw [turn?, isZeroOrPi]
    cases (angle a).isZero <;> simp
  rw [hwhole, ← Bool.not_eq_true, isZeroOrPi_iff, not_exists]

lemma AngleExpr.turn?_add {e f s : AngleExpr} (he : e.isAngle) (hf : f.isAngle)
    (hhalf : e.turn? = some true) (hturn : f.turn? = some false) (hs : e.add f = .ok s) :
    s.turn? = some false := by
  cases e with
  | angle a =>
    cases f with
    | angle b =>
      obtain ⟨k, hk⟩ := Angle.isPi_iff.mp ((turn?_eq_true_iff rfl).mp hhalf)
      obtain rfl : .angle (a.add b) = s := Except.ok.inj hs
      rw [turn?_eq_false_iff] at hturn ⊢
      intro m hm
      refine hturn (m - (1 + 2 * k)) ?_
      rw [Angle.add, hk] at hm
      push_cast
      linarith
    | _ => simp [isAngle] at hf
  | _ => simp [isAngle] at he

namespace GadgetGroup

def fuseAll (g : GadgetGroup) (gs : List Gadget) : Except Error GadgetGroup :=
  gs.foldlM (fun g h => g.fuse h.legs h.angle) g

lemma fuseAll_cons (g : GadgetGroup) (h : Gadget) (gs : List Gadget) :
    g.fuseAll (h :: gs) = (do (← g.fuse h.legs h.angle).fuseAll gs) :=
  foldlM_cons

/-- The group `g'` is `g` with gadgets on different legs fused into it. -/
structure FusedWith (n : Nat) (g : GadgetGroup) (gs : List Gadget) (g' : GadgetGroup) : Prop where
  valid : g'.Valid n
  basis : g'.basis = g.basis
  keys : g'.keys = g.keys ++ (gs.map Gadget.legs).filter (· ∉ g.keys)
  fused : ∀ h ∈ gs, ∃ a, g.fusedAngle h.legs h.angle = .ok a ∧ g'.angle? h.legs = some a
  other : ∀ legs, legs ∉ gs.map Gadget.legs → g'.angle? legs = g.angle? legs

lemma fuseAll_ok {g : GadgetGroup} (hg : g.Valid n) {gs : List Gadget}
    (hgs : ∀ h ∈ gs, LegsOn n h.legs ∧ h.angle.isAngle) (hdistinct : (gs.map Gadget.legs).Nodup) :
    ∃ g', g.fuseAll gs = .ok g' ∧ g.FusedWith n gs g' := by
  induction gs generalizing g with
  | nil => exact ⟨g, rfl, hg, rfl, by simp, by simp, fun _ _ => rfl⟩
  | cons h gs ih =>
    obtain ⟨⟨hlegs, hangle⟩, hgs⟩ := forall_mem_cons.mp hgs
    obtain ⟨hnot, hdistinct⟩ := nodup_cons.mp hdistinct
    obtain ⟨a, ha, hfuse, -⟩ := fuse_ok hg h.legs hangle
    obtain ⟨g', hfold, hg'⟩ := ih (put_valid hg hlegs ha) hgs hdistinct
    have hne : ∀ k ∈ gs, k.legs ≠ h.legs := fun k hk hkh => hnot (hkh ▸ mem_map_of_mem hk)
    refine ⟨g', ?_, hg'.valid, hg'.basis.trans (put_basis g h.legs a), ?_, ?_, ?_⟩
    · rw [fuseAll_cons, fuse_of_fusedAngle hfuse, ok_bind, hfold]
    · have hfilter : ∀ ks : List (List Int), (gs.map Gadget.legs).filter (· ∉ ks ++ [h.legs]) =
          (gs.map Gadget.legs).filter (· ∉ ks) := by
        intro ks
        refine filter_congr fun legs hmem => ?_
        have hlne : legs ≠ h.legs := fun hl => hnot (hl ▸ hmem)
        simp [hlne]
      rw [hg'.keys, keys_put, map_cons]
      by_cases hmem : h.legs ∈ g.keys
      · rw [if_pos hmem, filter_cons_of_neg (by simpa using hmem)]
      · simp_all
    · rw [forall_mem_cons]
      refine ⟨⟨a, hfuse, ?_⟩, fun k hk => ?_⟩
      · rw [hg'.other _ hnot, angle?_put]
      · obtain ⟨b, hb, hkb⟩ := hg'.fused k hk
        refine ⟨b, ?_, hkb⟩
        rwa [fusedAngle, angle?_put_ne (hne k hk)] at hb
    · intro legs hmem
      rw [map_cons, mem_cons, not_or] at hmem
      rw [hg'.other legs hmem.2, angle?_put_ne hmem.1]

lemma fuseAll_append (g : GadgetGroup) (gs hs : List Gadget) :
    g.fuseAll (gs ++ hs) = (do (← g.fuseAll gs).fuseAll hs) :=
  foldlM_append

lemma fuseAll_new (b : Basis) {gs : List Gadget}
    (hgs : ∀ h ∈ gs, LegsOn n h.legs ∧ h.angle.isAngle) (hdistinct : (gs.map Gadget.legs).Nodup) :
    ∃ g, fuseAll { basis := b } gs = .ok g ∧ (g.basis = b ∧ g.Valid n) ∧ g.keys = gs.map Gadget.legs ∧
      ∀ h ∈ gs, g.angle? h.legs = some h.angle := by
  have hempty : Valid n { basis := b } := ⟨by simp, by simp, by simp⟩
  obtain ⟨g, hfold, hg⟩ := fuseAll_ok hempty hgs hdistinct
  refine ⟨g, hfold, ⟨hg.basis, hg.valid⟩, ?_, fun h hh => ?_⟩
  · rw [hg.keys]
    simp [keys]
  · obtain ⟨a, ha, hgh⟩ := hg.fused h hh
    obtain rfl : h.angle = a := Except.ok.inj ha
    exact hgh

lemma fuseAll_halfTurns (b : Basis) (ps gs : List Gadget)
    (hps : ∀ h ∈ ps, LegsOn n h.legs ∧ h.angle.isAngle) (hpsd : (ps.map Gadget.legs).Nodup)
    (hgs : ∀ h ∈ gs, LegsOn n h.legs ∧ h.angle.isAngle) (hgsd : (gs.map Gadget.legs).Nodup)
    (hhalf : ∀ h ∈ ps, h.angle.turn? = some true) (hturn : ∀ h ∈ gs, h.angle.turn? = some false) :
    ∃ g, fuseAll { basis := b } (ps ++ gs) = .ok g ∧ (g.basis = b ∧ g.Valid n) ∧
      g.keys = ps.map Gadget.legs ++ (gs.map Gadget.legs).filter (· ∉ ps.map Gadget.legs) ∧
      (∀ h ∈ gs, h.legs ∉ ps.map Gadget.legs → g.angle? h.legs = some h.angle) ∧
      ∀ legs, (g.angle? legs).bind turn? = if legs ∈ gs.map Gadget.legs then some false
        else if legs ∈ ps.map Gadget.legs then some true else none := by
  obtain ⟨g₁, hfold₁, ⟨hb₁, hv₁⟩, hkeys₁, hangle₁⟩ := fuseAll_new b hps hpsd
  obtain ⟨g, hfold, hg⟩ := fuseAll_ok hv₁ hgs hgsd
  have hnone : ∀ legs, legs ∉ ps.map Gadget.legs → g₁.angle? legs = none := by
    intro legs hnot
    rw [← hkeys₁, mem_keys] at hnot
    simpa using hnot
  refine ⟨g, ?_, ⟨hg.basis.trans hb₁, hg.valid⟩, ?_, ?_, ?_⟩
  · rw [fuseAll_append, hfold₁, ok_bind, hfold]
  · rw [hg.keys, hkeys₁]
  · intro h hh hnot
    obtain ⟨a, ha, hgh⟩ := hg.fused h hh
    rw [fusedAngle, hnone _ hnot] at ha
    obtain rfl : h.angle = a := Except.ok.inj ha
    exact hgh
  · intro legs
    by_cases hmem : legs ∈ gs.map Gadget.legs
    · rw [if_pos hmem]
      obtain ⟨h, hh, rfl⟩ := mem_map.mp hmem
      obtain ⟨a, ha, hgh⟩ := hg.fused h hh
      rw [hgh, Option.bind_some]
      rw [fusedAngle] at ha
      cases hold : g₁.angle? h.legs with
      | none =>
        grind
      | some old =>
        rw [hold] at ha
        have hkey : h.legs ∈ ps.map Gadget.legs := by
          rw [← hkeys₁, mem_keys, hold]
          rfl
        obtain ⟨k, hk, hlegs⟩ := mem_map.mp hkey
        have hsame := hangle₁ k hk
        rw [hlegs, hold] at hsame
        obtain rfl := Option.some.inj hsame
        exact turn?_add (hps k hk).2 (hgs h hh).2 (hhalf k hk) (hturn h hh) ha
    · rw [if_neg hmem, hg.other legs hmem]
      grind

lemma fuse_basis {g g' : GadgetGroup} {legs : List Int} {a : AngleExpr} (h : g.fuse legs a = .ok g') :
    g'.basis = g.basis := by
  rw [fuse] at h
  cases hold : g.angle? legs with
  | none =>
    rw [hold] at h
    cases h
    exact put_basis _ _ _
  | some old =>
    rw [hold] at h
    obtain ⟨e, -, he⟩ := bind_eq_ok.mp h
    cases he
    exact put_basis _ _ _

end GadgetGroup

namespace Simplifier

variable (init : List GadgetGroup)

lemma collect_last (last : GadgetGroup) {gs : List Gadget} (hgs : ∀ g ∈ gs, g.basis = last.basis) :
    gs.foldlM collect (init ++ [last]) = (last.fuseAll gs).map fun g => init ++ [g] := by
  induction gs generalizing last with
  | nil => rfl
  | cons g gs ih =>
    obtain ⟨hg, hgs⟩ := forall_mem_cons.mp hgs
    have hbasis : (last.basis == g.basis) := by simp [hg]
    rw [foldlM_cons, fuseAll_cons]
    simp only [collect, getLast?_concat, dropLast_concat, hbasis, if_true]
    cases hfuse : last.fuse g.legs g.angle with
    | error e => rfl
    | ok last' =>
      have hlast : ∀ h ∈ gs, h.basis = last'.basis := fun h hh =>
        (hgs h hh).trans (fuse_basis hfuse).symm
      exact ih last' hlast

lemma collect_next {last : GadgetGroup} {b : Basis} (hb : last.basis ≠ b) {gs : List Gadget}
    (hne : gs ≠ []) (hgs : ∀ g ∈ gs, g.basis = b) :
    gs.foldlM collect (init ++ [last]) =
      (fuseAll { basis := b } gs).map fun g => init ++ [last] ++ [g] := by
  obtain ⟨g, gs, rfl⟩ := exists_cons_of_ne_nil hne
  obtain ⟨rfl, hgs⟩ := forall_mem_cons.mp hgs
  have hbasis : (last.basis == g.basis) = false := by simpa using hb
  have hfirst : ({ basis := g.basis } : GadgetGroup).fuse g.legs g.angle =
      .ok { basis := g.basis, entries := [(g.legs, g.angle)] } := rfl
  rw [foldlM_cons, fuseAll_cons, hfirst]
  simp only [collect, getLast?_concat, hbasis, Bool.false_eq_true, if_false]
  exact collect_last (init ++ [last]) _ hgs

/-- Runs of gadgets, one for every group; only the first may be empty before others. -/
structure Alternating (D : Nat → List Gadget) (M : Nat) : Prop where
  basis : ∀ k, ∀ g ∈ D k, g.basis = basisAt k
  next : ∀ k, D (k + 1) = [] → D (k + 2) = []
  finite : ∀ k, M ≤ k → D k = []

variable {D : Nat → List Gadget} {M : Nat} {G : Nat → GadgetGroup}

theorem collect_runs (hD : Alternating D M)
    (hG : ∀ k, fuseAll { basis := basisAt k } (D k) = .ok (G k))
    (hbasis : ∀ k, (G k).basis = basisAt k) (K : Nat) :
    ∃ m, 1 ≤ m ∧ m ≤ K + 1 ∧ (∀ k, m ≤ k → k ≤ K → D k = []) ∧
      ((List.range (K + 1)).flatMap D).foldlM collect [{ basis := .z }] = .ok ((List.range m).map G) := by
  induction K with
  | zero =>
    refine ⟨1, le_rfl, le_rfl, by omega, ?_⟩
    have hlast := collect_last [] { basis := basisAt 0 } (hD.basis 0)
    rw [hG] at hlast
    rw [range_one, flatMap_singleton]
    exact hlast
  | succ K ih =>
    obtain ⟨m, hpos, hle, hempty, hfold⟩ := ih
    rw [range_succ, flatMap_append, foldlM_append, hfold, ok_bind, flatMap_singleton]
    by_cases hnil : D (K + 1) = []
    · refine ⟨m, hpos, by omega, fun k hk hkK => ?_, by rw [hnil]; rfl⟩
      grind
    · have hm : m = K + 1 := by
        by_contra hne
        cases K with
        | zero => omega
        | succ j => exact hnil (hD.next j (hempty (j + 1) (by omega) le_rfl))
      subst hm
      have hne : (G K).basis ≠ basisAt (K + 1) := by
        rw [hbasis]
        exact basisAt_ne_succ K
      refine ⟨K + 2, by omega, by omega, by omega, ?_⟩
      rw [range_succ, map_append, map_singleton,
        collect_next ((List.range K).map G) hne hnil (hD.basis (K + 1)), hG, range_succ,
        range_succ, map_append, map_append]
      rfl

lemma collected_shows (hD : Alternating D M)
    (hG : ∀ k, fuseAll { basis := basisAt k } (D k) = .ok (G k))
    (hvalid : ∀ k, (G k).basis = basisAt k ∧ (G k).Valid n) :
    ∃ groups, ((range M).flatMap D).foldlM collect [{ basis := .z }] = .ok groups ∧
      Shows n { groups } (fun k => (G k).keys) (fun k legs => (G k).angle? legs) (fun _ => []) ∧
      ∀ k, D k ≠ [] → k < groups.length := by
  obtain ⟨m, -, -, hempty, hfold⟩ := collect_runs hD hG (fun k => (hvalid k).1) M
  have hnil : ∀ k, m ≤ k → D k = [] := by
    intro k hk
    by_cases hkM : k ≤ M
    · exact hempty k hk hkM
    · exact hD.finite k (by omega)
  have hnone : ∀ k, m ≤ k → G k = { basis := basisAt k } := by
    intro k hk
    have h := hG k
    rw [hnil k hk] at h
    exact (Except.ok.inj h).symm
  have hget : ∀ k, ((range m).map G)[k]? = if k < m then some (G k) else none := by
    intro k
    by_cases hk : k < m <;> simp [hk]
  rw [range_succ, flatMap_append, flatMap_singleton, hD.finite M le_rfl, append_nil] at hfold
  refine ⟨_, hfold, ⟨fun k g hk => ?_, fun k => ?_, fun k legs => ?_, fun b => by cases b <;> rfl⟩,
    fun k hk => ?_⟩
  · rw [hget] at hk
    split at hk
    · cases hk
      exact hvalid k
    · cases hk
  · rw [keysAt, hget]
    split
    · rfl
    · rename_i hk
      rw [hnone k (Nat.le_of_not_lt hk)]
      rfl
  · rw [angleAt, hget]
    split
    · rfl
    · rename_i hk
      rw [hnone k (Nat.le_of_not_lt hk)]
      rfl
  · rw [length_map, length_range]
    exact Nat.lt_of_not_le fun hle => hk (hnil k hle)

lemma getElem?_takeWhile {α : Type} {bs : List (List α)}
    (h : ∀ k : Nat, bs[k]? = some [] → ∀ b, bs[k + 1]? = some b → b = []) {k : Nat} {b : List α} :
    (bs.takeWhile fun b => !b.isEmpty)[k]? = some b ↔ bs[k]? = some b ∧ b ≠ [] := by
  refine ⟨fun hk => ⟨(takeWhile_getElem? hk).1, by simpa using (takeWhile_getElem? hk).2⟩, ?_⟩
  rintro ⟨hk, hne⟩
  induction bs generalizing k with
  | nil => simp at hk
  | cons b' bs ih =>
    cases b' with
    | nil =>
      have hflat := (flatten_takeWhile h).symm
      rw [takeWhile_cons_of_neg (by simp), flatten_nil, flatten_eq_nil_iff] at hflat
      exact absurd (hflat b (mem_of_getElem? hk)) hne
    | cons x xs =>
      rw [takeWhile_cons_of_pos (by simp)]
      cases k with
      | zero => exact hk
      | succ k => exact ih (fun k => h (k + 1)) hk

lemma runs_getElem? (hD : Alternating D M) :
    ∃ first, (∀ k, D k ≠ [] → first ≤ k) ∧ ∀ (k : Nat) (run : List Gadget),
      (runs ((range M).flatMap D))[k]? = some run ↔ D (first + k) = run ∧ run ≠ [] := by
  obtain ⟨first, hfirst, hflat, hzero⟩ : ∃ first, (∀ k, D k ≠ [] → first ≤ k) ∧
      (range M).flatMap D = (((range M).map D).drop first).flatten ∧
      (first = 0 → D 0 ≠ []) := by
    by_cases hnil : D 0 = []
    · refine ⟨1, fun k hk => Nat.pos_of_ne_zero fun h => hk (h ▸ hnil), ?_, by omega⟩
      cases M with
      | zero => rfl
      | succ M => simp [range_succ_eq_map, hnil, flatMap_def]
    · exact ⟨0, fun k _ => Nat.zero_le k, by simp [flatMap_def], fun _ => hnil⟩
  have hget : ∀ k run, (((range M).map D).drop first)[k]? = some run ↔
      first + k < M ∧ D (first + k) = run := by grind
  have hempty : ∀ k : Nat, (((range M).map D).drop first)[k]? = some [] →
      ∀ b, (((range M).map D).drop first)[k + 1]? = some b → b = [] := by
    intro k hk b hb
    obtain ⟨-, hk⟩ := (hget k []).mp hk
    obtain ⟨-, rfl⟩ := (hget (k + 1) b).mp hb
    cases hpos : first + k with
    | zero =>
      rw [hpos] at hk
      exact absurd hk (hzero (by omega))
    | succ j =>
      rw [hpos] at hk
      rw [← Nat.add_assoc, hpos]
      exact hD.next j hk
  refine ⟨first, hfirst, fun k run => ?_⟩
  rw [hflat, runs_flatten (b := fun k => basisAt (first + k)) (fun k => basisAt_ne_succ _) ?_ hempty,
    getElem?_takeWhile hempty, hget]
  · constructor
    · rintro ⟨⟨-, hk⟩, hne⟩
      exact ⟨hk, hne⟩
    · rintro ⟨rfl, hne⟩
      exact ⟨⟨Nat.lt_of_not_le fun hle => hne (hD.finite _ hle), rfl⟩, hne⟩
  · intro k block hk g hg
    obtain ⟨-, rfl⟩ := (hget k block).mp hk
    exact hD.basis _ g hg

lemma mem_runs (hD : Alternating D M) {run : List Gadget} :
    run ∈ runs ((range M).flatMap D) ↔ run ≠ [] ∧ ∃ k, D k = run := by
  obtain ⟨first, hfirst, hget⟩ := runs_getElem? hD
  rw [mem_iff_getElem?]
  simp only [hget]
  constructor
  · rintro ⟨k, hk, hne⟩
    exact ⟨hne, first + k, hk⟩
  · rintro ⟨hne, k, rfl⟩
    exact ⟨k - first, by rw [Nat.add_sub_cancel' (hfirst k hne)], hne⟩

lemma runs_two_apart (hD : Alternating D M) {R : List Gadget → List Gadget → Prop} :
    (∀ (k : Nat) (run next : List Gadget), (runs ((range M).flatMap D))[k]? = some run →
      (runs ((range M).flatMap D))[k + 2]? = some next → R run next) ↔
      ∀ k, D k ≠ [] → D (k + 2) ≠ [] → R (D k) (D (k + 2)) := by
  obtain ⟨first, hfirst, hget⟩ := runs_getElem? hD
  simp only [hget]
  constructor
  · intro h k hne hne'
    have hle := hfirst k hne
    refine h (k - first) _ _ ⟨by rw [Nat.add_sub_cancel' hle], hne⟩ ⟨?_, hne'⟩
    rw [← Nat.add_assoc, Nat.add_sub_cancel' hle]
  · rintro h k run next ⟨rfl, hne⟩ ⟨rfl, hne'⟩
    exact h (first + k) hne hne'

end Simplifier

end GadgetCircuits
