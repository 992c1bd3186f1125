import GadgetCircuits.Conjugated.Basic
import GadgetCircuits.Proofs.CXLayer
import GadgetCircuits.Proofs.PhaseCircuit

/-!
Flips in a conjugated circuit. A gate flipped in a layer is made good by a word of gates, gathered
from the layers before it. Gates of those layers that the word does not touch can be moved past it
and cancel, so the phase block conjugated by all layers stays the same through every sequence of
flips.
-/

namespace GadgetCircuits

open List Update GadgetTable CXLayer CX

namespace GadgetTable

lemma crossed_comm {a b c d : Nat} (h₁ : b ≠ d) (h₂ : a ≠ d) (h₃ : b ≠ c) (column : List Bool) :
    crossed a b (crossed c d column) = crossed c d (crossed a b column) := by
  apply ext_getElem?
  intro i
  simp only [crossed_getElem?]
  grind

def bare (t : GadgetTable) : GadgetTable :=
  { t with knownLegs := [] }

lemma addRow_bare (t : GadgetTable) (source goal : Nat) :
    (t.addRow source goal).bare = t.bare.addRow source goal := by
  simp [bare, addRow]

lemma addRow_addRow {source goal : Nat} (h : source ≠ goal) (t : GadgetTable) :
    (t.bare.addRow source goal).addRow source goal = t.bare := by
  have hid : crossed source goal ∘ crossed source goal = id := funext (crossed_crossed h)
  rw [← addRow_bare, ← addRow_bare]
  simp only [bare, addRow_columns, addRow_positions, map_map, hid, map_id]

lemma addRow_comm {a b c d : Nat} (h₁ : b ≠ d) (h₂ : a ≠ d) (h₃ : b ≠ c) (t : GadgetTable) :
    (t.bare.addRow a b).addRow c d = (t.bare.addRow c d).addRow a b := by
  have hswap : crossed c d ∘ crossed a b = crossed a b ∘ crossed c d :=
    funext fun column => (crossed_comm h₁ h₂ h₃ column).symm
  rw [← addRow_bare, ← addRow_bare, ← addRow_bare, ← addRow_bare]
  simp only [bare, addRow_columns, addRow_positions, map_map, hswap]

end GadgetTable

namespace PhaseCircuit

variable {g h : CX} (c : PhaseCircuit)

/-- All that a circuit says about its gadgets, without the legs that are remembered. -/
def bare (c : PhaseCircuit) : PhaseCircuit :=
  { c with z := c.z.bare, x := c.x.bare }

lemma gadgets_bare : c.bare.gadgets = c.gadgets := by
  have hcol : ∀ b j, (c.bare.table b).column j = (c.table b).column j := by
    intro b j
    cases b <;> rfl
  have hat : c.bare.gadgetAt = c.gadgetAt := by
    funext i
    simp only [gadgetAt, hcol]
    rfl
  simp only [gadgets, gadgetsAt, hat]
  rfl

lemma conjugate_bare (a b : Nat) : (c.conjugate a b).bare = c.bare.conjugate a b := by
  simp [bare, conjugate, addRow_bare]

lemma conjugateAll_bare (gs : List CX) (c : PhaseCircuit) :
    (conjugateAll gs c).bare = conjugateAll gs c.bare := by
  induction gs generalizing c with
  | nil => rfl
  | cons g gs ih =>
    change (conjugateAll gs (c.conjugate g.1 g.2)).bare = conjugateAll gs (c.bare.conjugate g.1 g.2)
    rw [ih, conjugate_bare]

lemma conjugateAll_append (gs hs : List CX) (c : PhaseCircuit) :
    conjugateAll (gs ++ hs) c = conjugateAll hs (conjugateAll gs c) :=
  foldl_append

lemma conjugate_conjugate (hg : g.1 ≠ g.2) :
    (c.bare.conjugate g.1 g.2).conjugate g.1 g.2 = c.bare := by
  have hz := addRow_addRow hg.symm c.z
  have hx := addRow_addRow hg c.x
  simp only [conjugate, bare, hz, hx]

lemma conjugate_comm (ha : Apart g h) :
    (c.bare.conjugate g.1 g.2).conjugate h.1 h.2 = (c.bare.conjugate h.1 h.2).conjugate g.1 g.2 := by
  obtain ⟨h₁, h₂, h₃, h₄⟩ := ha
  have hz := addRow_comm h₁ h₃ h₂ c.z
  have hx := addRow_comm h₄ h₂ h₃ c.x
  simp only [conjugate, bare, hz, hx]

lemma conjugateAll_cons (g : CX) (gs : List CX) (c : PhaseCircuit) :
    conjugateAll (g :: gs) c = conjugateAll gs (c.conjugate g.1 g.2) := rfl

def SameAction (gs hs : List CX) : Prop :=
  ∀ c : PhaseCircuit, conjugateAll gs c.bare = conjugateAll hs c.bare

namespace SameAction

variable {gs hs ks gs' hs' : List CX}

lemma refl (gs : List CX) : SameAction gs gs := fun _ => rfl

lemma symm (h : SameAction gs hs) : SameAction hs gs := fun c => (h c).symm

lemma trans (h₁ : SameAction gs hs) (h₂ : SameAction hs ks) : SameAction gs ks :=
  fun c => (h₁ c).trans (h₂ c)

instance : Trans SameAction SameAction SameAction :=
  ⟨trans⟩

lemma append (h₁ : SameAction gs hs) (h₂ : SameAction gs' hs') :
    SameAction (gs ++ gs') (hs ++ hs') := by
  intro c
  rw [conjugateAll_append, conjugateAll_append, h₁ c, ← conjugateAll_bare, h₂]

lemma gadgets (h : SameAction gs hs) (c : PhaseCircuit) :
    (conjugateAll gs c).gadgets = (conjugateAll hs c).gadgets := by
  rw [← gadgets_bare, conjugateAll_bare, h c, ← conjugateAll_bare, gadgets_bare]

lemma of_perm (hp : gs.Perm hs) (ha : gs.Pairwise Apart) : SameAction gs hs := by
  intro c
  induction hp generalizing c with
  | nil => rfl
  | cons g _ ih =>
    rw [conjugateAll_cons, conjugateAll_cons, ← conjugate_bare]
    exact ih (pairwise_cons.mp ha).2 _
  | swap g h gs =>
    have hgh : Apart h g := (pairwise_cons.mp ha).1 g mem_cons_self
    simp only [conjugateAll_cons, conjugate_comm c hgh]
  | trans h₁ _ ih₁ ih₂ => rw [ih₁ ha, ih₂ (ha.perm h₁ Apart.symm)]

lemma append_reverse (hg : ∀ g ∈ gs, g.1 ≠ g.2) : SameAction (gs ++ gs.reverse) [] := by
  intro c
  induction gs generalizing c with
  | nil => rfl
  | cons g gs ih =>
    have hrest := ih (fun h hh => hg h (mem_cons_of_mem g hh)) (c.conjugate g.1 g.2)
    calc conjugateAll (g :: gs ++ (g :: gs).reverse) c.bare
        = conjugateAll [g] (conjugateAll (gs ++ gs.reverse) (c.conjugate g.1 g.2).bare) := by
          rw [← conjugateAll_append, conjugate_bare, ← conjugateAll_cons]
          simp
      _ = conjugateAll [g] (c.bare.conjugate g.1 g.2) := by rw [hrest, conjugate_bare]; rfl
      _ = c.bare := conjugate_conjugate c (hg g mem_cons_self)

lemma append_self (hg : ∀ g ∈ gs, g.1 ≠ g.2) (ha : gs.Pairwise Apart) :
    SameAction (gs ++ gs) [] :=
  ((refl gs).append (of_perm (reverse_perm gs).symm ha)).trans (append_reverse hg)

lemma cons_swap {g : CX} (ha : ∀ h ∈ hs, Apart g h) : SameAction (g :: hs) (hs ++ [g]) := by
  induction hs with
  | nil => exact refl _
  | cons h hs ih =>
    have hswap : SameAction [g, h] [h, g] := fun c => conjugate_comm c (ha h mem_cons_self)
    calc SameAction (g :: h :: hs) ([h, g] ++ hs) := hswap.append (refl hs)
      SameAction ([h] ++ (g :: hs)) ([h] ++ (hs ++ [g])) :=
        (refl [h]).append (ih fun k hk => ha k (mem_cons_of_mem h hk))

lemma swap (ha : ∀ g ∈ gs, ∀ h ∈ hs, Apart g h) : SameAction (gs ++ hs) (hs ++ gs) := by
  induction gs with
  | nil =>
    rw [append_nil]
    exact refl hs
  | cons g gs ih =>
    have hrest := ih fun k hk => ha k (mem_cons_of_mem g hk)
    calc SameAction ([g] ++ (gs ++ hs)) ([g] ++ (hs ++ gs)) := (refl [g]).append hrest
      SameAction (g :: hs ++ gs) (hs ++ [g] ++ gs) :=
        (cons_swap (ha g mem_cons_self)).append (refl gs)
      _ = hs ++ g :: gs := by simp

end SameAction

end PhaseCircuit

namespace ConjugatedCircuit

open PhaseCircuit

variable {c : ConjugatedCircuit} {l l' : CXLayer} {g : CX}
variable {word : List CX} {qubits : List Nat} {i : Nat}

lemma mem_touching (hl : l.Valid) :
    g ∈ touching l qubits ↔ g ∈ l.gates ∧ ∃ q ∈ qubits, g.Touches q := by
  simp only [touching, mem_eraseDups, mem_filterMap, hl.incident_eq_some]
  grind

lemma gates_perm_touching (hl : l.Valid) (qubits : List Nat) :
    ∃ rest, l.gates.Perm (touching l qubits ++ rest) ∧ ∀ g ∈ rest, ∀ q ∈ qubits, ¬ g.Touches q := by
  refine ⟨l.gates.filter fun g => !(touching l qubits).contains g, ?_, ?_⟩
  · refine (filter_append_perm (fun g => (touching l qubits).contains g) l.gates).symm.trans ?_
    refine List.Perm.append_right _ ?_
    refine (perm_ext_iff_of_nodup (hl.gates_nodup.filter _) (nodup_eraseDups _)).mpr ?_
    intro g
    rw [mem_filter, contains_iff_mem]
    exact ⟨fun hg => hg.2, fun hg => ⟨((mem_touching hl).mp hg).1, hg⟩⟩
  · intro g hg q hq ht
    obtain ⟨hmem, hnot⟩ := mem_filter.mp hg
    have : g ∉ touching l qubits := by simpa using hnot
    exact this ((mem_touching hl).mpr ⟨hmem, q, hq, ht⟩)

lemma sameAction_layer (hl : l.Valid) (hw : ∀ g ∈ word, g.1 ∈ qubits ∧ g.2 ∈ qubits) :
    SameAction ((touching l qubits).reverse ++ word ++ touching l qubits ++ l.gates)
      (l.gates ++ word) := by
  obtain ⟨rest, hperm, hrest⟩ := gates_perm_touching hl qubits
  generalize hgates : touching l qubits = gates at hperm
  have hapart : (gates ++ rest).Pairwise Apart := hl.apart.perm hperm Apart.symm
  have hends : ∀ g ∈ gates, g.1 ≠ g.2 := fun g hg =>
    (hl.ends g (hperm.mem_iff.mpr (mem_append_left rest hg))).1
  have hpast : ∀ g ∈ word, ∀ h ∈ rest, Apart g h := by
    intro g hg h hh
    obtain ⟨h₁, h₂⟩ := hw g hg
    exact (apart_of_not_touches (hrest h hh _ h₁) (hrest h hh _ h₂)).symm
  have hback : (gates.reverse ++ rest).Perm l.gates :=
    ((reverse_perm gates).append_right rest).trans hperm.symm
  have hcancel : SameAction (gates ++ l.gates) rest := by
    have h₁ := (SameAction.refl gates).append (.of_perm hperm hl.apart)
    have h₂ := (SameAction.append_self hends (pairwise_append.mp hapart).1).append (.refl rest)
    rw [append_assoc] at h₂
    exact h₁.trans h₂
  have h₁ := (SameAction.refl (gates.reverse ++ word)).append hcancel
  have h₂ := (SameAction.refl gates.reverse).append (.swap hpast)
  have h₃ := (SameAction.of_perm hback (hl.apart.perm hback.symm Apart.symm)).append (.refl word)
  simp only [append_assoc] at h₁ h₂ h₃ ⊢
  exact h₁.trans (h₂.trans h₃)

lemma sameAction_conjugators {ls : List CXLayer} (hls : ∀ l ∈ ls, l.Valid)
    (hw : ∀ g ∈ word, g.1 ∈ qubits ∧ g.2 ∈ qubits) :
    SameAction (conjugators ls qubits word ++ ls.reverse.flatMap CXLayer.gates)
      (ls.reverse.flatMap CXLayer.gates ++ word) := by
  induction ls generalizing qubits word with
  | nil =>
    rw [conjugators, reverse_nil, flatMap_nil, append_nil]
    exact .refl word
  | cons l ls ih =>
    rw [conjugators]
    generalize hgates : touching l qubits = gates
    have hword : ∀ g ∈ gates.reverse ++ word ++ gates, g.1 ∈ (qubits ++ qubitsOf gates).eraseDups ∧
          g.2 ∈ (qubits ++ qubitsOf gates).eraseDups := by
      intro g hg
      simp only [mem_eraseDups, mem_append, qubitsOf, mem_flatMap, mem_cons, not_mem_nil, or_false]
      simp only [mem_append, mem_reverse] at hg
      rcases hg with (hg | hg) | hg
      · exact ⟨Or.inr ⟨g, hg, Or.inl rfl⟩, Or.inr ⟨g, hg, Or.inr rfl⟩⟩
      · exact ⟨Or.inl (hw g hg).1, Or.inl (hw g hg).2⟩
      · exact ⟨Or.inr ⟨g, hg, Or.inl rfl⟩, Or.inr ⟨g, hg, Or.inr rfl⟩⟩
    have hnear := ih (fun k hk => hls k (mem_cons_of_mem l hk)) hword
    have hlayer := sameAction_layer (hls l mem_cons_self) hw
    rw [hgates] at hlayer
    simp only [reverse_cons, flatMap_append, flatMap_cons, flatMap_nil, append_nil]
    generalize ls.reverse.flatMap CXLayer.gates = before at hnear
    have h₁ := hnear.append (.refl l.gates)
    have h₂ := (SameAction.refl before).append hlayer
    simp only [append_assoc] at h₁ h₂ ⊢
    exact h₁.trans h₂

lemma mem_conjugators {ls : List CXLayer} (hls : ∀ l ∈ ls, l.Valid)
    (hg : g ∈ conjugators ls qubits word) : g ∈ word ∨ ∃ l ∈ ls, g ∈ l.gates := by
  induction ls generalizing qubits word with
  | nil => exact Or.inl hg
  | cons l ls ih =>
    have hl := hls l mem_cons_self
    rcases ih (fun k hk => hls k (mem_cons_of_mem l hk)) hg with hg | ⟨k, hk, hg⟩
    · simp only [mem_append, mem_reverse] at hg
      rcases hg with (hg | hg) | hg
      · exact Or.inr ⟨l, mem_cons_self, ((mem_touching hl).mp hg).1⟩
      · exact Or.inl hg
      · exact Or.inr ⟨l, mem_cons_self, ((mem_touching hl).mp hg).1⟩
    · exact Or.inr ⟨k, mem_cons_of_mem l hk, hg⟩

lemma conjugators_reverse (ls : List CXLayer) (qubits : List Nat) (hw : word.reverse = word) :
    (conjugators ls qubits word).reverse = conjugators ls qubits word := by
  induction ls generalizing qubits word with
  | nil => exact hw
  | cons l ls ih =>
    rw [conjugators]
    refine ih _ ?_
    simp [hw]

/-- A flip in a layer and the conjugation by the gate take each other back. -/
theorem sameAction_flip (hl : l.Valid) (hf : l.flip g.1 g.2 = .ok l') :
    SameAction (g :: l'.gates) l.gates := by
  rcases flip_cases hl hf with ⟨hg, rfl⟩ | ⟨hne, -, -, -, ha, rfl⟩
  · have hp : l.gates.Perm (g :: l.gates.filter (· != g)) := by
      have := perm_cons_erase hg
      rwa [hl.gates_nodup.erase_eq_filter] at this
    exact (SameAction.of_perm hp hl.apart).symm
  · have hpast : SameAction (l.gates ++ [g]) (g :: l.gates) :=
      (SameAction.cons_swap fun k hk => (ha k hk).symm).symm
    have htwice : SameAction ([g] ++ [g]) [] :=
      SameAction.append_self (by simpa using hne) (pairwise_singleton _ _)
    exact ((SameAction.refl [g]).append hpast).trans (htwice.append (.refl l.gates))

/-- Both blocks are on the qubits of the topology, and their tables and matchings are right. -/
structure Valid (c : ConjugatedCircuit) : Prop where
  wellFormed : c.phase.WellFormed
  size : c.phase.size = c.topology.size
  layer : ∀ l ∈ c.cx.layers, l.Valid ∧ l.topology.size = c.topology.size

def flipped (c : ConjugatedCircuit) (layer : Nat) (l : CXLayer) (g : CX) : ConjugatedCircuit :=
  { c with
    cx := { c.cx with layers := c.cx.layers.set layer l }
    phase := conjugateAll (flipWord c.cx.layers layer g) c.phase }

lemma conjugateAll_size (gs : List CX) (d : PhaseCircuit) : (conjugateAll gs d).size = d.size := by
  induction gs generalizing d with
  | nil => rfl
  | cons g gs ih => exact ih (d.conjugate g.1 g.2)

lemma conjugateValues_ok {d : PhaseCircuit} (h₁ : g.1 < d.size) (h₂ : g.2 < d.size) :
    d.conjugateValues (.ofNat g.1) (.ofNat g.2) = .ok (d.conjugate g.1 g.2) := by
  simp [PhaseCircuit.conjugateValues, Coupling.isQubit, Value.rat?, Value.int?, Value.ofNat, h₁, h₂,
    bind, Except.bind, pure, Except.pure]

lemma forM_conjugate (c : ConjugatedCircuit)
    (hw : ∀ g ∈ word, g.1 < c.phase.size ∧ g.2 < c.phase.size) :
    (word.forM conjugate).runFrom c = (.ok (), { c with phase := conjugateAll word c.phase }) := by
  induction word generalizing c with
  | nil => rfl
  | cons g word ih =>
    obtain ⟨h₁, h₂⟩ := hw g mem_cons_self
    have hstep : (conjugate g).runFrom c =
        (.ok (), { c with phase := c.phase.conjugate g.1 g.2 }) := by
      simp only [conjugate, runFrom_bind, runFrom_get, runFrom_lift,
        conjugateValues_ok h₁ h₂, runFrom_set]
    rw [show (g :: word).forM conjugate = conjugate g >>= fun _ => word.forM conjugate from rfl,
      runFrom_bind, hstep]
    exact ih _ fun k hk => hw k (mem_cons_of_mem g hk)

/-- The values name a layer and a gate, and the layer accepts the flip of the gate. -/
structure Accepts (c : ConjugatedCircuit) (layer ctrl trgt : Value) (i : Nat) (g : CX)
    (l l' : CXLayer) : Prop where
  index : c.layerAt layer = .ok i
  layer : c.cx.layers[i]? = some l
  control : qubit ctrl = .ok g.1
  target : qubit trgt = .ok g.2
  flip : l.flip g.1 g.2 = .ok l'

variable {layers : List CXLayer} {layer ctrl trgt : Value}

lemma flipWord_within {n : Nat}
    (hv : ∀ k ∈ layers, k.Valid ∧ k.topology.size ≤ n) (hl : layers[i]? = some l)
    (hf : l.flip g.1 g.2 = .ok l') :
    ∀ h ∈ flipWord layers i g, h.1 ≠ h.2 ∧ h.1 < n ∧ h.2 < n := by
  have hgate : ∀ k ∈ layers, ∀ h ∈ k.gates, h.1 ≠ h.2 ∧ h.1 < n ∧ h.2 < n := by
    intro k hk h hh
    obtain ⟨hvalid, hn⟩ := hv k hk
    obtain ⟨hne, h₁, h₂⟩ := hvalid.ends h hh
    exact ⟨hne, h₁.trans_le hn, h₂.trans_le hn⟩
  have hmem := mem_of_getElem? hl
  have hbefore : ∀ k ∈ (layers.take i).reverse, k ∈ layers := fun k hk =>
    mem_of_mem_take (mem_reverse.mp hk)
  intro h hh
  rcases mem_conjugators (fun k hk => (hv k (hbefore k hk)).1) hh with hh | ⟨k, hk, hh⟩
  · rw [mem_singleton.mp hh]
    obtain ⟨hvalid, hn⟩ := hv l hmem
    rcases flip_cases hvalid hf with ⟨hg, -⟩ | ⟨hne, h₁, h₂, -, -, -⟩
    · exact hgate l hmem _ hg
    · exact ⟨hne, h₁.trans_le hn, h₂.trans_le hn⟩
  · exact hgate k (hbefore k hk) h hh

lemma flipWord_ends (hc : c.Valid) (hl : c.cx.layers[i]? = some l) (hf : l.flip g.1 g.2 = .ok l') :
    ∀ h ∈ flipWord c.cx.layers i g, h.1 ≠ h.2 ∧ h.1 < c.phase.size ∧ h.2 < c.phase.size :=
  flipWord_within (fun k hk => ⟨(hc.layer k hk).1, by rw [hc.size, (hc.layer k hk).2]⟩) hl hf

/-- What a flip that the layer accepts does, if all gates are on qubits of the phase block. -/
theorem flipAt_accepted (hv : ∀ k ∈ c.cx.layers, k.Valid ∧ k.topology.size ≤ c.phase.size)
    (hl : c.cx.layers[i]? = some l) {ctrl trgt : Value} (ha : qubit ctrl = .ok g.1)
    (hb : qubit trgt = .ok g.2) (hf : l.flip g.1 g.2 = .ok l') :
    (flipAt i ctrl trgt).runFrom c = (.ok (), c.flipped i l' g) := by
  have hlt := (flip_within (hv l (mem_of_getElem? hl)).1 hf).1
  simp only [flipAt, runFrom_bind, runFrom_get, hl, runFrom_lift,
    runFrom_set, flipValue_eq ha hb hlt, hf, ha, hb]
  exact forM_conjugate _ fun h hh => (flipWord_within hv hl hf h hh).2

lemma flip_accepted (hc : c.Valid) (h : c.Accepts layer ctrl trgt i g l l') :
    (flip layer ctrl trgt).runFrom c = (.ok (), c.flipped i l' g) := by
  obtain ⟨hi, hl, ha, hb, hf⟩ := h
  have hflippable : c.isFlippable layer ctrl trgt = .ok true := by
    rw [isFlippable, hi, ok_bind, hl]
    exact isFlippableValue_of_flip (hc.layer l (mem_of_getElem? hl)).1 ha hb hf
  have hat : (flipAt i ctrl trgt).runFrom c = (.ok (), c.flipped i l' g) :=
    flipAt_accepted (fun k hk => ⟨(hc.layer k hk).1, by rw [hc.size, (hc.layer k hk).2]⟩) hl ha hb hf
  simp only [flip, runFrom_get, runFrom_bind, runFrom_lift, hflippable, hi, if_true, hat]

/-- A call that no layer accepts is rejected and changes nothing. -/
theorem flip_cases (c : ConjugatedCircuit) (layer ctrl trgt : Value) :
    (∃ e, (flip layer ctrl trgt).runFrom c = (.error e, c)) ∨
    ∃ i g l l', c.Accepts layer ctrl trgt i g l l' := by
  cases hb : c.isFlippable layer ctrl trgt with
  | error e =>
    left
    refine ⟨e, ?_⟩
    simp only [flip, runFrom_get, runFrom_bind, runFrom_lift, hb]
  | ok flippable =>
    cases flippable with
    | false =>
      left
      refine ⟨.conjugation (.notFlippable ctrl trgt layer), ?_⟩
      simp only [flip, runFrom_get, runFrom_bind, runFrom_lift, hb]
      rfl
    | true =>
      cases hi : c.layerAt layer with
      | error e => simp [isFlippable, hi, bind, Except.bind] at hb
      | ok i =>
        have hrun : (flip layer ctrl trgt).runFrom c = (flipAt i ctrl trgt).runFrom c := by
          simp only [flip, runFrom_get, runFrom_bind, runFrom_lift, hb, hi, if_true]
        cases hl : c.cx.layers[i]? with
        | none =>
          left
          refine ⟨.outOfRange, hrun.trans ?_⟩
          simp only [flipAt, runFrom_bind, runFrom_get, hl, runFrom_throw]
        | some l =>
          cases hf : l.flipValue ctrl trgt with
          | error e =>
            left
            refine ⟨e, hrun.trans ?_⟩
            simp only [flipAt, runFrom_bind, runFrom_get, hl, runFrom_lift, hf]
          | ok l' =>
            right
            obtain ⟨a, b, ha, hb', hf⟩ := flipValue_cases hf
            exact ⟨i, (a, b), l, l', hi, hl, ha, hb', hf⟩

lemma sameAction_flipped (hv : ∀ l ∈ layers, l.Valid)
    (hl : layers[i]? = some l) (hf : l.flip g.1 g.2 = .ok l') :
    SameAction (flipWord layers i g ++ (layers.set i l').flatMap CXLayer.gates)
      (layers.flatMap CXLayer.gates) := by
  obtain ⟨hi, hli⟩ := List.getElem?_eq_some_iff.mp hl
  have hall : layers.flatMap CXLayer.gates = (layers.take i).flatMap CXLayer.gates ++
      (l.gates ++ (layers.drop (i + 1)).flatMap CXLayer.gates) := by
    have hsplit : layers = layers.take i ++ l :: layers.drop (i + 1) := by
      rw [← hli, getElem_cons_drop, take_append_drop]
    conv_lhs => rw [hsplit, flatMap_append, flatMap_cons]
  have hset : (layers.set i l').flatMap CXLayer.gates = (layers.take i).flatMap CXLayer.gates ++
      (l'.gates ++ (layers.drop (i + 1)).flatMap CXLayer.gates) := by
    rw [set_eq_take_append_cons_drop, if_pos hi, flatMap_append, flatMap_cons]
  have hcone : SameAction (flipWord layers i g ++ (layers.take i).flatMap CXLayer.gates)
      ((layers.take i).flatMap CXLayer.gates ++ [g]) := by
    have hbefore : ∀ k ∈ (layers.take i).reverse, k.Valid := fun k hk =>
      hv k (mem_of_mem_take (mem_reverse.mp hk))
    have hon : ∀ h ∈ [g], h.1 ∈ [g.1, g.2] ∧ h.2 ∈ [g.1, g.2] := by simp
    have := sameAction_conjugators hbefore hon
    rwa [reverse_reverse] at this
  have hlayer := sameAction_flip (hv l (mem_of_getElem? hl)) hf
  rw [hset, hall]
  generalize (layers.take i).flatMap CXLayer.gates = before at hcone
  generalize (layers.drop (i + 1)).flatMap CXLayer.gates = after
  have h₁ := hcone.append (.refl (l'.gates ++ after))
  have h₂ := (SameAction.refl before).append (hlayer.append (.refl after))
  simp only [append_assoc, cons_append, nil_append] at h₁ h₂ ⊢
  exact h₁.trans h₂

lemma conjugateAll_wellFormed {gs : List CX} (hg : ∀ g ∈ gs, g.1 ≠ g.2) {d : PhaseCircuit}
    (hd : d.WellFormed) : (conjugateAll gs d).WellFormed := by
  induction gs generalizing d with
  | nil => exact hd
  | cons g gs ih =>
    exact ih (fun k hk => hg k (mem_cons_of_mem g hk))
      (conjugate_wellFormed hd (hg g mem_cons_self))

lemma flipped_valid (hc : c.Valid) (hl : c.cx.layers[i]? = some l) (hf : l.flip g.1 g.2 = .ok l') :
    (c.flipped i l' g).Valid where
  wellFormed := conjugateAll_wellFormed (fun h hh => (flipWord_ends hc hl hf h hh).1) hc.wellFormed
  size := (conjugateAll_size _ _).trans hc.size
  layer := by
    intro k hk
    rcases mem_or_eq_of_mem_set hk with hk | rfl
    · exact hc.layer k hk
    · obtain ⟨hv, hs⟩ := hc.layer l (mem_of_getElem? hl)
      refine ⟨flip_valid hv hf, ?_⟩
      rw [flip_topology hv hf]
      exact hs

/-- The circuit stands for the gadgets: they are what the phase block is after conjugation by the
layers, first to last, with the gates of each layer in any order. -/
def Represents (c : ConjugatedCircuit) (gs : List Gadget) : Prop :=
  ∀ orders : List (List CX), List.Forall₂ List.Perm orders (c.cx.layers.map CXLayer.gates) →
    (conjugateAll orders.flatten c.phase).gadgets = .ok gs

def afterFlips (c : ConjugatedCircuit) (calls : List (Value × Value × Value)) :
    ConjugatedCircuit :=
  calls.foldl (fun c call => ((flip call.1 call.2.1 call.2.2).runFrom c).2) c

lemma sameAction_orders (hv : ∀ l ∈ layers, l.Valid)
    {orders : List (List CX)} (ho : Forall₂ List.Perm orders (layers.map CXLayer.gates)) :
    SameAction orders.flatten (layers.flatMap CXLayer.gates) := by
  induction layers generalizing orders with
  | nil =>
    cases ho
    exact .refl []
  | cons l layers ih =>
    cases ho with
    | cons hp hrest =>
      have hl := hv l mem_cons_self
      exact (SameAction.of_perm hp (hl.apart.perm hp.symm Apart.symm)).append
        (ih (fun k hk => hv k (mem_cons_of_mem l hk)) hrest)

lemma afterFlips_keeps (hc : c.Valid) (calls : List (Value × Value × Value)) :
    (c.afterFlips calls).Valid ∧ conjugateAll ((c.afterFlips calls).cx.layers.flatMap CXLayer.gates)
          (c.afterFlips calls).phase.bare =
        conjugateAll (c.cx.layers.flatMap CXLayer.gates) c.phase.bare := by
  induction calls generalizing c with
  | nil => exact ⟨hc, rfl⟩
  | cons call calls ih =>
    obtain ⟨layer, ctrl, trgt⟩ := call
    have hcons : c.afterFlips ((layer, ctrl, trgt) :: calls) =
        ((flip layer ctrl trgt).runFrom c).2.afterFlips calls := rfl
    rw [hcons]
    rcases flip_cases c layer ctrl trgt with ⟨e, hrun⟩ | ⟨i, g, l, l', h⟩
    · rw [hrun]
      exact ih hc
    · rw [flip_accepted hc h]
      obtain ⟨-, hl, -, -, hf⟩ := h
      obtain ⟨hvalid, hkeep⟩ := ih (flipped_valid hc hl hf)
      refine ⟨hvalid, hkeep.trans ?_⟩
      have hsame := sameAction_flipped (fun k hk => (hc.layer k hk).1) hl hf c.phase
      rwa [conjugateAll_append, ← conjugateAll_bare] at hsame

theorem flip_flip (hc : c.Valid) (h : c.Accepts layer ctrl trgt i g l l') :
    ∃ d, (flip layer ctrl trgt).runFrom (c.flipped i l' g) = (.ok (), d) ∧
      d.phase.bare = c.phase.bare ∧ List.Forall₂ CXLayer.Agrees d.cx.layers c.cx.layers := by
  obtain ⟨hi, hl, ha, hb, hf⟩ := h
  obtain ⟨m, hm, hagrees⟩ := CXLayer.flip_flip (hc.layer l (mem_of_getElem? hl)).1 hf
  obtain ⟨hlt, hli⟩ := List.getElem?_eq_some_iff.mp hl
  have hi' : (c.flipped i l' g).layerAt layer = .ok i := by
    rw [← hi]
    simp only [layerAt, flipped, length_set]
  have hl' : (c.flipped i l' g).cx.layers[i]? = some l' := by
    simp [flipped, hlt]
  refine ⟨_, flip_accepted (flipped_valid hc hl hf) ⟨hi', hl', ha, hb, hm⟩, ?_, ?_⟩
  · -- The word has not changed, since the layers before are the same, and reads the same backwards.
    have hword : flipWord (c.flipped i l' g).cx.layers i g = flipWord c.cx.layers i g := by
      simp only [flipWord, flipped, take_set_of_le (Nat.le_refl i)]
    have hback : (flipWord c.cx.layers i g).reverse = flipWord c.cx.layers i g :=
      conjugators_reverse _ _ rfl
    have hcancel := SameAction.append_reverse (fun h hh => (flipWord_ends hc hl hf h hh).1) c.phase
    rw [hback, conjugateAll_append] at hcancel
    change (conjugateAll (flipWord (c.flipped i l' g).cx.layers i g)
      (conjugateAll (flipWord c.cx.layers i g) c.phase)).bare = c.phase.bare
    rw [hword, conjugateAll_bare, conjugateAll_bare]
    exact hcancel
  · change List.Forall₂ CXLayer.Agrees ((c.cx.layers.set i l').set i m) c.cx.layers
    rw [set_set]
    refine forall₂_iff_get.mpr ⟨by simp, fun j h₁ h₂ => ?_⟩
    by_cases hj : i = j
    · subst hj
      simpa [hli] using hagrees
    · simpa [hj] using CXLayer.Agrees.refl _

/-- Whatever the calls, the circuit stands for the same gadgets. In every state on the way a call is
rejected and changes nothing, or it is accepted, and once more restores both blocks. -/
theorem afterFlips_represents (hc : c.Valid) (calls : List (Value × Value × Value)) :
    (∃ gs, c.Represents gs ∧ (c.afterFlips calls).Represents gs) ∧
    ∀ layer ctrl trgt : Value,
      ((∀ i g l l', ¬ (c.afterFlips calls).Accepts layer ctrl trgt i g l l') ∧
        ∃ e, (flip layer ctrl trgt).runFrom (c.afterFlips calls) =
          (.error e, c.afterFlips calls)) ∨
      ∃ i g l l' d d', (c.afterFlips calls).Accepts layer ctrl trgt i g l l' ∧
        (flip layer ctrl trgt).runFrom (c.afterFlips calls) = (.ok (), d) ∧
        d.cx.layers = (c.afterFlips calls).cx.layers.set i l' ∧
        (flip layer ctrl trgt).runFrom d = (.ok (), d') ∧
        d'.phase.bare = (c.afterFlips calls).phase.bare ∧
        List.Forall₂ CXLayer.Agrees d'.cx.layers (c.afterFlips calls).cx.layers := by
  obtain ⟨hvalid, hkeep⟩ := afterFlips_keeps hc calls
  constructor
  · have hends : ∀ g ∈ c.cx.layers.flatMap CXLayer.gates, g.1 ≠ g.2 := by
      intro g hg
      obtain ⟨l, hl, hg⟩ := mem_flatMap.mp hg
      exact ((hc.layer l hl).1.ends g hg).1
    obtain ⟨gs, hgs⟩ : ∃ gs, (conjugateAll (c.cx.layers.flatMap CXLayer.gates) c.phase).gadgets =
        .ok gs := ⟨_, gadgets_eq (conjugateAll_wellFormed hends hc.wellFormed)⟩
    refine ⟨gs, fun orders ho => ?_, fun orders ho => ?_⟩
    · rw [(sameAction_orders (fun l hl => (hc.layer l hl).1) ho).gadgets]
      exact hgs
    · rw [(sameAction_orders (fun l hl => (hvalid.layer l hl).1) ho).gadgets, ← gadgets_bare,
        conjugateAll_bare, hkeep, ← conjugateAll_bare, gadgets_bare]
      exact hgs
  · intro layer ctrl trgt
    by_cases h : ∃ i g l l', (c.afterFlips calls).Accepts layer ctrl trgt i g l l'
    · obtain ⟨i, g, l, l', h⟩ := h
      obtain ⟨d', hrun, hphase, hlayers⟩ := flip_flip hvalid h
      exact Or.inr ⟨i, g, l, l', _, d', h, flip_accepted hvalid h, rfl, hrun, hphase, hlayers⟩
    · refine Or.inl ⟨fun i g l l' ha => h ⟨i, g, l, l', ha⟩, ?_⟩
      exact (flip_cases _ layer ctrl trgt).resolve_right h

def twoLayers : ConjugatedCircuit where
  topology := { size := 3, couplings := [(0, 1), (1, 2)] }
  phase := ({ size := 3 } : PhaseCircuit).push
    { basis := .z, angle := .angle Angle.pi, legs := [0, 2] } [true, false, true] (.angle Angle.pi)
  cx :=
    { topology := { size := 3, couplings := [(0, 1), (1, 2)] }
      layers := [(CXLayer.empty { size := 3, couplings := [(0, 1), (1, 2)] }).insert (0, 1),
        CXLayer.empty { size := 3, couplings := [(0, 1), (1, 2)] }] }

lemma twoLayers_valid : twoLayers.Valid where
  wellFormed := push_wellFormed (wellFormed_empty 3) _ _ rfl (by simp)
  size := rfl
  layer := by
    intro l hl
    have hempty := empty_valid { size := 3, couplings := [(0, 1), (1, 2)] }
    rcases mem_cons.mp hl with rfl | hl
    · exact ⟨insert_valid hempty (by decide) (by decide) (by decide) (by decide)
        (fun k hk => absurd hk not_mem_nil), rfl⟩
    · rw [mem_singleton.mp hl]
      exact ⟨hempty, rfl⟩

/-- The first call flips a gate behind the gate of the first layer, the second is rejected. -/
def twoCalls : List (Value × Value × Value) :=
  [(.int 1, .int 1, .int 2), (.int 0, .int 1, .int 2)]

theorem twoLayers_represents :
    twoLayers.Valid ∧ (∃ gs, twoLayers.Represents gs ∧ (twoLayers.afterFlips twoCalls).Represents gs) ∧
    ∀ layer ctrl trgt : Value,
      ((∀ i g l l', ¬ (twoLayers.afterFlips twoCalls).Accepts layer ctrl trgt i g l l') ∧
        ∃ e, (flip layer ctrl trgt).runFrom (twoLayers.afterFlips twoCalls) =
          (.error e, twoLayers.afterFlips twoCalls)) ∨
      ∃ i g l l' d d', (twoLayers.afterFlips twoCalls).Accepts layer ctrl trgt i g l l' ∧
        (flip layer ctrl trgt).runFrom (twoLayers.afterFlips twoCalls) = (.ok (), d) ∧
        d.cx.layers = (twoLayers.afterFlips twoCalls).cx.layers.set i l' ∧
        (flip layer ctrl trgt).runFrom d = (.ok (), d') ∧
        d'.phase.bare = (twoLayers.afterFlips twoCalls).phase.bare ∧
        List.Forall₂ CXLayer.Agrees d'.cx.layers (twoLayers.afterFlips twoCalls).cx.layers :=
  ⟨twoLayers_valid, afterFlips_represents twoLayers_valid twoCalls⟩

end ConjugatedCircuit

end GadgetCircuits
