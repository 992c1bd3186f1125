import Mathlib.Combinatorics.SimpleGraph.Star
import Mathlib.GroupTheory.OrderOfElement
import GadgetCircuits.Proofs.ParitySynthesis
import GadgetCircuits.Proofs.TableauClearing

/-!
Synthesis of tableaux, and inverse tableaux. Once all qubits are cleared, the images are the generators up
to signs, which H, S, S, H and S, S turn. On a star this shows that every tableau with a symplectic matrix
is that of a circuit; repeated often enough a circuit does nothing, so circuits can be undone.
-/

namespace GadgetCircuits

open List PhaseCircuit TableauGate Function Update

namespace TableauGate

variable {n : Nat} (q : Fin n)

@[simp] lemma h_onVector_h_onVector (v : PauliVector n) :
    (h q).onVector ((h q).onVector v) = v := by
  funext k
  obtain ⟨b, r, rfl⟩ := k.exists_on
  by_cases hr : r = q
  · subst hr
    rw [h_onVector_on, h_onVector_on, Basis.other_other]
  · have hoff : r ∉ (h q).qubits := by simpa [qubits] using hr
    rw [onVector_off _ _ hoff, onVector_off _ _ hoff]

lemma s_act_s_act (p : SignedPauli n) :
    (s q).act ((s q).act p) = ⟨p.vec, p.sign + p.vec (.inl q)⟩ := by
  have hsign : ∀ a x z : ZMod 2, a + x * z + x * (z + x) = a + x := by decide
  refine SignedPauli.ext ?_ ?_
  · have htwice : ∀ x : ZMod 2, x + x = 0 := by decide
    change (s q).onVector ((s q).onVector p.vec) = p.vec
    rw [onVector, s_onVector_inl, onVector, add_assoc, ← Pi.single_add, htwice, Pi.single_zero,
      add_zero]
  · simp only [act, turnsSign, s_onVector_inl, s_onVector_inr, hsign]

lemma h_act_s_act_s_act_h_act (p : SignedPauli n) :
    (h q).act ((s q).act ((s q).act ((h q).act p))) = ⟨p.vec, p.sign + p.vec (.inr q)⟩ := by
  have hsign : ∀ a x z : ZMod 2, a + x * z + z + z * x = a + z := by decide
  rw [s_act_s_act]
  simp only [act, turnsSign, h_onVector_h_onVector, h_onVector_inl, h_onVector_inr, hsign]

end TableauGate

namespace TableauSynthesis

open Tableau

variable {t : Topology} {swaps : Bool} {u : Tableau} {s : TableauSynthesis}

def images {n : Nat} (s : TableauSynthesis) (q : Fin n) (b : Basis) : SignedPauli n :=
  image n s.remaining (.on b q)

structure Apart (t : Topology) (swaps : Bool) (u : Tableau) (s : TableauSynthesis) : Prop where
  tracks : Tracks t swaps u s
  trivial : ∀ q r : Fin t.size, r ≠ q → ∀ b, TrivialAt (s.images q b).vec r

lemma Apart.step_finishes (h : Apart t swaps u s) (ht : t.WellFormed) {g : TableauGate t.size}
    {q : Fin t.size} (hg : g.qubits = [q]) :
    (step g).Finishes s fun _ s' => Apart t swaps u s' ∧
      s'.images = update s.images q fun b => g.act (s.images q b) := by
  have hallows := allows_of_qubits hg s
  have himages : ∀ r b, (after g s).images r b = g.act (s.images r b) := fun r b =>
    g.image_appended h.tracks.lawful.regular (.on b r)
  have hother : ∀ r b, r ≠ q → g.act (s.images r b) = s.images r b := by
    intro r b hr
    refine g.act_of_trivialAt fun v hv => ?_
    rw [hg, mem_singleton] at hv
    exact h.trivial r v (hv ▸ Ne.symm hr) b
  refine finishes_of_run (h.tracks.step_run hallows)
    ⟨⟨h.tracks.after ht hallows, fun p r hrp b => ?_⟩, funext fun r => funext fun b => ?_⟩
  · rw [himages]
    by_cases hr : r ∈ g.qubits
    · rw [hg, mem_singleton] at hr
      rw [hother p b (hr ▸ Ne.symm hrp)]
      exact h.trivial p r hrp b
    · exact fun b' => (g.onVector_off _ hr b').trans (h.trivial p r hrp b b')
  · rw [himages]
    by_cases hr : r = q
    · subst hr
      rw [update_self]
    · rw [update_of_ne hr, hother r b hr]

lemma Apart.layer_finishes {f : Nat → Step Unit}
    (change : Fin t.size → (Basis → SignedPauli t.size) → Basis → SignedPauli t.size)
    (hf : ∀ (q : Fin t.size) (s : TableauSynthesis), Apart t swaps u s →
      (f q).Finishes s fun _ s' => Apart t swaps u s' ∧
        s'.images = update s.images q (change q (s.images q)))
    {qs : List Nat} (hqs : qs.Nodup) (hlt : ∀ q ∈ qs, q < t.size) (h : Apart t swaps u s) :
    (qs.forM f).Finishes s fun _ s' => Apart t swaps u s' ∧ ∀ r : Fin t.size,
      s'.images r = if (r : Nat) ∈ qs then change r (s.images r) else s.images r := by
  induction qs generalizing s with
  | nil => exact finishes_of_run rfl ⟨h, fun r => (if_neg not_mem_nil).symm⟩
  | cons q qs ih =>
    obtain ⟨hq, hqs⟩ := nodup_cons.mp hqs
    refine (hf ⟨q, hlt q mem_cons_self⟩ s h).bind ?_
    rintro - s₁ ⟨h₁, himages₁⟩
    refine (ih hqs (fun r hr => hlt r (mem_cons_of_mem q hr)) h₁).mono ?_
    rintro - s₂ ⟨h₂, himages₂⟩
    refine ⟨h₂, fun r => ?_⟩
    rw [himages₂, himages₁]
    grind

lemma Apart.h_finishes (h : Apart t swaps u s) (ht : t.WellFormed) (q : Fin t.size) :
    (TableauSynthesis.h q).Finishes s fun _ s' => Apart t swaps u s' ∧
      s'.images = update s.images q fun b => (TableauGate.h q).act (s.images q b) :=
  h.step_finishes ht (g := .h q) rfl

lemma Apart.s_s_finishes (h : Apart t swaps u s) (ht : t.WellFormed) (q : Fin t.size) :
    Finishes (do TableauSynthesis.s q; TableauSynthesis.s q) s fun _ s' =>
      Apart t swaps u s' ∧ s'.images = update s.images q fun b =>
        (TableauGate.s q).act ((TableauGate.s q).act (s.images q b)) := by
  refine (h.step_finishes ht (g := .s q) rfl).bind ?_
  rintro - s₁ ⟨h₁, himages₁⟩
  refine (h₁.step_finishes ht (g := .s q) rfl).mono ?_
  simp_all

lemma Tracks.sign_ne_zero_iff (h : Tracks t swaps u s) (k : Generator t.size) :
    entry s.remaining.signs k.index ≠ 0 ↔ (image t.size s.remaining k).sign = 1 := by
  rw [image]
  rcases h.lawful.binary.entry_bit k.index with e | e <;> rw [e] <;> simp

lemma Apart.clearXSigns_finishes (h : Apart t swaps u s) (ht : t.WellFormed)
    (hx : ∀ q : Fin t.size, (s.images q .x).vec = Pi.single (.on .x q) 1)
    (hz : ∀ q : Fin t.size, s.images q .z = .generator (.on .z q)) :
    Finishes ((range t.size).forM fun q => do
      if ((← get).remaining.signs[q]?).getD 0 ≠ 0 then
        TableauSynthesis.s q
        TableauSynthesis.s q) s
      fun _ s' => Tracks t swaps u s' ∧ ∀ k, image t.size s'.remaining k = .generator k := by
  refine (h.layer_finishes (fun q im b => if (im .x).sign = 1 then
    (TableauGate.s q).act ((TableauGate.s q).act (im b)) else im b) (fun q s₁ h₁ => ?_)
    nodup_range fun q hq => mem_range.mp hq).mono ?_
  · have hsign : s₁.remaining.signs[(q : Nat)]?.getD 0 ≠ 0 ↔ (s₁.images q .x).sign = 1 :=
      h₁.tracks.sign_ne_zero_iff (.on .x q)
    refine finishes_bind_get ?_
    by_cases hset : (s₁.images q .x).sign = 1
    · rw [if_pos (hsign.mpr hset)]
      refine (h₁.s_s_finishes ht q).mono ?_
      simp_all
    · rw [if_neg fun hne => hset (hsign.mp hne)]
      refine finishes_of_run rfl ⟨h₁, ?_⟩
      simp only [if_neg hset, update_eq_self]
  · rintro - s' ⟨h', himages⟩
    refine ⟨h'.tracks, fun k => ?_⟩
    obtain ⟨b, q, rfl⟩ := k.exists_on
    refine (congrFun (himages q) b).trans ?_
    rw [if_pos (mem_range.mpr q.isLt), s_act_s_act]
    cases b with
    | z =>
      rw [hz]
      simp [SignedPauli.generator]
    | x =>
      rcases bit_cases (s.images q .x).sign with hs | hs
      · rw [if_neg (by rw [hs]; exact zero_ne_one)]
        exact SignedPauli.ext (hx q) hs
      · rw [if_pos hs, hs, hx, Generator.on_x, Pi.single_eq_same]
        rfl

lemma Tracks.clearSigns_finishes (h : Tracks t swaps u s) (ht : t.WellFormed)
    (hunits : ∀ (q : Fin t.size) (b : Basis), s.row (.on b q) = Pi.single (.on b q) 1) :
    clearSigns.Finishes s fun _ s' => Tracks t swaps u s' ∧
      ∀ k, image t.size s'.remaining k = .generator k := by
  have hapart : Apart t swaps u s := by
    refine ⟨h, fun q r hr b b' => ?_⟩
    refine (congrFun (hunits q b) (.on b' r)).trans (Pi.single_eq_of_ne (fun e => hr ?_) _)
    exact (Generator.on_inj.mp e).2
  refine finishes_bind_get (finishes_bind_get ?_)
  rw [h.lawful.regular.size]
  extract_lets flipped cols
  have hcols : ∀ q : Fin t.size, (q : Nat) ∈ cols ↔ (s.images q .z).sign = 1 := by
    intro q
    have hentry : flipped[(q : Nat)]?.getD 0 = entry s.remaining.signs (Generator.on .z q).index := by
      simp [flipped, entry, Generator.index]
    rw [mem_filter, mem_range, hentry, decide_eq_true_iff, and_iff_right q.isLt]
    exact h.sign_ne_zero_iff (.on .z q)
  have hnodup : cols.Nodup := nodup_range.filter _
  have hlt : ∀ q ∈ cols, q < t.size := fun q hq => mem_range.mp (mem_filter.mp hq).1
  refine (hapart.layer_finishes (fun q im b => (TableauGate.h q).act (im b))
    (fun q _ h' => h'.h_finishes ht q) hnodup hlt).bind ?_
  rintro - s₁ ⟨h₁, himages₁⟩
  refine (h₁.layer_finishes (fun q im b => (TableauGate.s q).act ((TableauGate.s q).act (im b)))
    (fun q _ h' => h'.s_s_finishes ht q) hnodup hlt).bind ?_
  rintro - s₂ ⟨h₂, himages₂⟩
  refine (h₂.layer_finishes (fun q im b => (TableauGate.h q).act (im b))
    (fun q _ h' => h'.h_finishes ht q) hnodup hlt).bind ?_
  rintro - s₃ ⟨h₃, himages₃⟩
  -- Together the three layers turn the signs of the Z images at these qubits and nothing else.
  have hturned : ∀ (q : Fin t.size) (b : Basis), s₃.images q b = ⟨Pi.single (.on b q) 1,
      (s.images q b).sign + if (q : Nat) ∈ cols ∧ b = .z then 1 else 0⟩ := by
    intro q b
    have hvec : (s.images q b).vec = Pi.single (.on b q) 1 := hunits q b
    rw [himages₃, himages₂, himages₁]
    by_cases hq : (q : Nat) ∈ cols
    · rw [if_pos hq, if_pos hq, if_pos hq, h_act_s_act_s_act_h_act, hvec]
      cases b <;> simp [hq]
    · rw [if_neg hq, if_neg hq, if_neg hq, if_neg fun hand => hq hand.1, add_zero]
      exact SignedPauli.ext hvec rfl
  refine h₃.clearXSigns_finishes ht (fun q => by rw [hturned]) fun q => ?_
  rw [hturned]
  refine SignedPauli.ext rfl ?_
  rcases bit_cases (s.images q .z).sign with hs | hs <;> simp only [hcols, hs] <;> rfl

/-- The gates of a circuit take the tableau `u` to the identity. Its qubits have different places, and
the places of the qubits of a CX gate are coupled; without swaps every qubit is at its own place. -/
structure Reduces (t : Topology) (swaps : Bool) (u : Tableau) (c : Circuit) (places : List Nat) :
    Prop where
  identity : ∃ r, (c.gates.forM Gate.append).runFrom u = (.ok (), r) ∧
    r.rows = (Tableau.identity t.size).rows ∧ r.signs = List.replicate (2 * t.size) 0
  bijective : places.Perm (List.range t.size)
  unmoved : swaps = false → places = List.range t.size
  coupled : ∀ g ∈ c.gates, g.kind = .cx → ∃ a b x y, g.qubits = [.ofNat a, .ofNat b] ∧
    places[a]? = some x ∧ places[b]? = some y ∧ t.hasCoupling x y = true

lemma appendAll_toGate {n : Nat} (gs : List (TableauGate n)) :
    (gs.map toGate).forM Gate.append = gs.forM append := by
  induction gs with
  | nil => rfl
  | cons g gs ih =>
    rw [map_cons, List.forM, List.forM, g.toGate_append, ih]

lemma Tracks.reduces (h : Tracks t swaps u s) (hu : u.Regular t.size)
    (himage : ∀ k, image t.size s.remaining k = .generator k) :
    Reduces t swaps u s.circuit s.placement.permutation := by
  obtain ⟨gs, hremaining, hcircuit, hcouplings⟩ := h.gates
  rw [hcircuit]
  refine ⟨⟨s.remaining, ?_, ?_, ?_⟩, h.fits.bijective, h.unmoved, ?_⟩
  · rw [appendAll_toGate, appendAll_run gs hu, hremaining]
  · refine h.lawful.regular.rows_eq (identity_regular t.size) fun k => ?_
    rw [himage, image_identity]
  · refine eq_replicate_iff.mpr ⟨h.lawful.regular.signs_length, fun a ha => ?_⟩
    obtain ⟨i, hi, rfl⟩ := getElem_of_mem ha
    obtain ⟨k, rfl⟩ := Generator.exists_index (h.lawful.regular.signs_length ▸ hi)
    rw [← entry_eq hi]
    by_contra hne
    have hsign := (h.sign_ne_zero_iff k).mp hne
    rw [himage] at hsign
    exact zero_ne_one hsign
  · intro g hg hkind
    obtain ⟨g, hmem, rfl⟩ := mem_map.mp hg
    have hplace : ∀ q : Fin t.size,
        s.placement.permutation[(q : Nat)]? = some (s.placement.place q) := by
      intro q
      have hq : (q : Nat) < s.placement.permutation.length := by
        rw [h.fits.length]
        exact q.isLt
      rw [Placement.place, getElem?_eq_getElem hq, Option.getD_some]
    cases g with
    | h q => cases hkind
    | s q => cases hkind
    | cx c d hne => exact ⟨c, d, _, _, rfl, hplace c, hplace d, (hcouplings c d hne hmem).1⟩

/-- Clearing the qubits and then the signs takes a tableau whose images commute as the generators do
to the generators. -/
theorem steps_clear [GraphLibrary] (ht : t.WellFormed) (hl : t.Linked t.qubits)
    (htrees : t.FindsTrees GraphLibrary.steinerTree swaps) (hu : u.Lawful t.size) :
    Finishes (do clearAll swaps t.toGraph.nodes.length; clearSigns)
      { remaining := u
        circuit := { size := .ofNat t.size }
        placement :=
          { graph := t.toGraph.edges.foldl (fun (acc : Graph) e => acc.addEdge e.1 e.2 0) t.toGraph
            permutation := List.range t.size }
        free := List.range t.size }
      fun _ s' => Tracks t swaps u s' ∧ ∀ k, image t.size s'.remaining k = .generator k := by
  obtain ⟨hproper, hnodes, -⟩ := Topology.toGraph_spec ht
  have hrenamed := Topology.start_renamed ht
  have hmem : ∀ q < t.size, q ∈ (t.toGraph.edges.foldl
      (fun (acc : Graph) e => acc.addEdge e.1 e.2 0) t.toGraph).nodes := by
    intro q hq
    rw [hrenamed.nodes, hnodes]
    exact mem_range.mpr hq
  refine (Cleared.clearAll_finishes ht htrees hl
    ⟨⟨⟨[], rfl, rfl, fun _ _ _ h => absurd h not_mem_nil⟩, hu, Placement.start_fits ht,
      fun _ => rfl⟩, fun q hq => absurd (hmem q q.isLt) hq⟩
    (hrenamed.length_nodes hproper).le).bind ?_
  rintro - s₁ ⟨h₁, hempty⟩
  refine h₁.tracks.clearSigns_finishes ht fun q b => h₁.units q ?_ b
  rw [hempty]
  exact not_mem_nil

end TableauSynthesis

namespace Tableau

open TableauSynthesis

/-- On a tree Steiner trees are always found. Wherever they are found on a connected topology, by whatever
means, synthesis of the tableau of a circuit always returns, and what it returns reduces the inverse. -/
theorem synthesize_reduces_inverse [GraphLibrary] {topology : Topology} (ht : topology.WellFormed)
    (hconn : topology.graph.Preconnected) (swaps : Bool) :
    (topology.graph.IsTree → topology.FindsTrees Graph.steinerTree swaps) ∧
    (topology.FindsTrees GraphLibrary.steinerTree swaps →
      ∀ gs : List (TableauGate topology.size), ∃ t u c places,
        (gs.forM TableauGate.append).runFrom (identity topology.size) = (.ok (), t) ∧
        t.inverse = .ok u ∧ t.synthesize topology swaps = .ok (c, places) ∧
        Reduces topology swaps u c places) := by
  have hl := Topology.linked_qubits hconn
  refine ⟨fun htree => Topology.findsTrees_of_acyclic ht hl htree.isAcyclic,
    fun htrees gs => ?_⟩
  have hregular := appendedAll_regular gs (identity_regular topology.size)
  have himage : ∀ k, image topology.size (appendedAll gs (identity topology.size)) k =
      actAll gs (SignedPauli.generator k) := by
    intro k
    rw [image_appendedAll gs (identity_regular topology.size), image_identity]
  have hlawful := inverted_lawful hregular himage
  obtain ⟨⟨⟩, s, hrun, htracks, hcleared⟩ := steps_clear ht hl htrees hlawful
  refine ⟨_, _, _, _, appendAll_run gs (identity_regular topology.size), inverse_eq hregular, ?_,
    htracks.reduces hlawful.regular hcleared⟩
  rw [synthesize, inverse_eq hregular, hregular.size]
  simp only [ok_bind]
  rw [hrun]
  rfl

/-- On a star, gates between its leaves are synthesized with swaps. -/
theorem synthesize_reduces_inverse_star :
    PhaseCircuit.starOfFour.WellFormed ∧ PhaseCircuit.starOfFour.graph.IsTree ∧ ∃ t u c places,
      (List.forM [.h 1, .cx 1 2 (by decide), .s 2, .cx 2 3 (by decide)]
        (TableauGate.append (n := 4))).runFrom (identity 4) = (.ok (), t) ∧
      t.inverse = .ok u ∧ t.synthesize starOfFour true = .ok (c, places) ∧
      Reduces starOfFour true u c places := by
  have ht : starOfFour.WellFormed := by
    simp [Topology.WellFormed, starOfFour]
  have htree := starOfFour_isTree
  have hreduces := synthesize_reduces_inverse ht htree.connected.preconnected true
  exact ⟨ht, htree, hreduces.2 (hreduces.1 htree) _⟩

end Tableau

open SignedPauli PauliVector

variable {n : Nat} (gs : List (TableauGate n))

lemma actAll_append (gs hs : List (TableauGate n)) (p : SignedPauli n) :
    actAll (gs ++ hs) p = actAll hs (actAll gs p) := by
  rw [actAll, foldl_append]
  rfl

lemma actAll_injective : Injective (actAll gs) := by
  intro p p' h
  have hU := circuitUnitary_conjTranspose_mul gs
  have hback : ∀ q : SignedPauli n, (circuitUnitary gs).conjTranspose * (actAll gs q).operator *
      circuitUnitary gs = q.operator := by
    intro q
    rw [← circuitUnitary_moves gs q, mul_assoc, mul_assoc, hU, mul_one, ← mul_assoc, hU, one_mul]
  apply operator_inj
  rw [← hback p, ← hback p', h]

instance : Finite (SignedPauli n) :=
  Finite.of_injective (fun p => (p.vec, p.sign)) fun _ _ h =>
    SignedPauli.ext (congrArg Prod.fst h) (congrArg Prod.snd h)

lemma actAll_repeat (m : Nat) : actAll (replicate m gs).flatten = (actAll gs)^[m] := by
  induction m with
  | zero => rfl
  | succ m ih =>
    funext p
    rw [replicate_succ, flatten_cons, actAll_append, ih, iterate_succ_apply]

/-- Each of two circuits undoes the other. -/
def Undo (gs hs : List (TableauGate n)) : Prop :=
  (∀ p, actAll hs (actAll gs p) = p) ∧ ∀ p, actAll gs (actAll hs p) = p

lemma exists_undo : ∃ hs, Undo gs hs := by
  let σ : Equiv.Perm (SignedPauli n) :=
    Equiv.ofBijective (actAll gs) (Finite.injective_iff_bijective.mp (actAll_injective gs))
  obtain ⟨m, hm⟩ := Nat.exists_eq_succ_of_ne_zero (orderOf_pos σ).ne'
  have hround : ∀ p, (actAll gs)^[m + 1] p = p := by
    intro p
    have hone := pow_orderOf_eq_one σ
    rw [hm] at hone
    have happly := congrArg (fun τ : Equiv.Perm (SignedPauli n) => τ p) hone
    rwa [Equiv.Perm.coe_pow] at happly
  refine ⟨(replicate m gs).flatten, fun p => ?_, fun p => ?_⟩
  · rw [actAll_repeat, ← iterate_succ_apply]
    exact hround p
  · rw [actAll_repeat]
    exact (iterate_succ_apply' (actAll gs) m p).symm.trans (hround p)

lemma moves_of_generators {U : Operator n} (hU : U.conjTranspose * U = 1)
    {gs : List (TableauGate n)}
    (h : ∀ k, Moves U (generator k) (actAll gs (generator k)))
    (p : SignedPauli n) : Moves U p (actAll gs p) := by
  set V := circuitUnitary gs
  have hV : V.conjTranspose * V = 1 := circuitUnitary_conjTranspose_mul gs
  have hgen : ∀ (k : Generator n) (c : ZMod 2), U * weyl 0 (Pi.single k c) * U.conjTranspose =
      V * weyl 0 (Pi.single k c) * V.conjTranspose := by
    intro k c
    rcases bit_cases c with rfl | rfl
    · rw [Pi.single_zero, weyl_zero, mul_one, mul_one, mul_eq_one_comm.mp hU, mul_eq_one_comm.mp hV]
    · have hleft : U * (generator k).operator * U.conjTranspose = _ := h k
      have hright : V * (generator k).operator * V.conjTranspose = _ :=
        circuitUnitary_moves gs _
      rw [← generator_operator, hleft, hright]
  have hprod : U * weyl 0 p.vec * U.conjTranspose = V * weyl 0 p.vec * V.conjTranspose := by
    rw [weyl_eq_prod, Moves.operator_prod hU, Moves.operator_prod hV, map_map, map_map]
    exact congrArg List.prod (map_congr_left fun k _ => hgen k _)
  refine Eq.trans ?_ (circuitUnitary_moves gs p)
  rw [operator_eq, ← add_zero (ys p.vec + twice p.sign), ← smul_weyl, mul_smul_comm,
    smul_mul_assoc, hprod, mul_smul_comm, smul_mul_assoc]

lemma Moves.unsigned {U : Operator n} {p p' : SignedPauli n} (h : Moves U p p') :
    U * (⟨p.vec, 0⟩ : SignedPauli n).operator * U.conjTranspose =
      (-1 : ℂ) ^ p.sign.val • p'.operator := by
  have hsquare : ((-1 : ℂ) ^ p.sign.val) * (-1) ^ p.sign.val = 1 := by
    rw [← mul_pow, neg_mul_neg, one_mul, one_pow]
  rw [← h, p.operator_eq_smul, mul_smul_comm, smul_mul_assoc, smul_smul, hsquare, one_smul]

def Topology.star (n : Nat) : Topology where
  size := n
  couplings := ((List.range n).filter (0 < ·)).map fun q => (0, q)

namespace Topology

variable (n)

lemma star_wellFormed : (star n).WellFormed := by
  intro k hk
  obtain ⟨q, hq, rfl⟩ := mem_map.mp hk
  obtain ⟨hlt, hpos⟩ := mem_filter.mp hq
  exact ⟨of_decide_eq_true hpos, mem_range.mp hlt⟩

lemma star_graph : (star (n + 1)).graph = SimpleGraph.starGraph (0 : Fin (n + 1)) := by
  have hmem : ∀ a b : Nat, (a, b) ∈ (star (n + 1)).couplings ↔ a = 0 ∧ 0 < b ∧ b < n + 1 := by
    intro a b
    simp only [star, mem_map, mem_filter, mem_range, decide_eq_true_eq, Prod.mk.injEq]
    constructor
    · rintro ⟨q, ⟨hlt, hpos⟩, rfl, rfl⟩
      exact ⟨rfl, hpos, hlt⟩
    · rintro ⟨rfl, hpos, hlt⟩
      exact ⟨b, ⟨hlt, hpos⟩, rfl, rfl⟩
  have hadj : ∀ a b : Fin (n + 1), (a ≠ b ∧ (star (n + 1)).hasCoupling a b) ↔
      a ≠ b ∧ (a = 0 ∨ b = 0) := by
    intro a b
    rw [hasCoupling_iff (star_wellFormed _), hmem, hmem]
    have ha := a.isLt
    have hb := b.isLt
    simp only [ne_eq, Fin.ext_iff, Fin.val_zero]
    omega
  exact SimpleGraph.ext (funext fun a => funext fun b =>
    propext ((hadj a b).trans SimpleGraph.starGraph_adj.symm))

lemma star_linked : (star n).Linked (star n).qubits := by
  apply linked_qubits
  cases n with
  | zero => exact fun a => a.elim0
  | succ n =>
    rw [star_graph]
    exact (SimpleGraph.connected_starGraph _).preconnected

lemma star_findsTrees [SetOrder] : (star n).FindsTrees Graph.steinerTree false := by
  apply findsTrees_of_acyclic (star_wellFormed n) (star_linked n)
  cases n with
  | zero => exact fun a => a.elim0
  | succ n =>
    rw [star_graph]
    exact SimpleGraph.isAcyclic_starGraph _

end Topology

namespace Tableau

variable {gs} {hs : List (TableauGate n)} {t u : Tableau}

def ImagesOf (t : Tableau) (gs : List (TableauGate n)) : Prop :=
  ∀ k, image n t k = actAll gs (generator k)

lemma exists_circuit_of_topology [GraphLibrary] {topology : Topology} (ht : topology.WellFormed)
    (hl : topology.Linked topology.qubits) (htrees : topology.FindsTrees GraphLibrary.steinerTree false)
    (h : t.Lawful topology.size) : ∃ gs : List (TableauGate topology.size), t.ImagesOf gs := by
  obtain ⟨-, s, -, htracks, himage⟩ := TableauSynthesis.steps_clear ht hl htrees h
  obtain ⟨gs, hremaining, -⟩ := htracks.gates
  obtain ⟨hs, hundo⟩ := exists_undo gs
  refine ⟨hs, fun k => ?_⟩
  have hclear : actAll gs (image topology.size t k) = generator k := by
    rw [← image_appendedAll gs h.regular, ← hremaining]
    exact himage k
  rw [← hclear, hundo.1]

lemma Lawful.exists_circuit (h : t.Lawful n) : ∃ gs : List (TableauGate n), t.ImagesOf gs :=
  exists_circuit_of_topology (Topology.star_wellFormed n) (Topology.star_linked n)
    (Topology.star_findsTrees n) h

variable (ht : t.Regular n)
include ht

lemma actAll_inverted (hwide : t.rowWidth = .wide) (hgs : t.ImagesOf gs)
    (k : Generator n) : actAll gs (image n (inverted n t) k) = generator k := by
  apply SignedPauli.ext
  · exact vec_actAll_inverted ht hgs k
  · have hcancel : ∀ a b : ZMod 2, a + (a + b) + b = 0 := by decide
    rw [sign_actAll ht hgs (inverted_regular ht), sign_inverted, hwide]
    exact hcancel _ _

lemma inverted_imagesOf (hwide : t.rowWidth = .wide) (hgs : t.ImagesOf gs)
    (hundo : Undo gs hs) : (inverted n t).ImagesOf hs := by
  intro k
  apply actAll_injective gs
  rw [actAll_inverted ht hwide hgs, hundo.2]

lemma composed_undo (hu : u.Regular n) (hwide : t.rowWidth = .wide)
    (hgs : t.ImagesOf gs) (hhs : u.ImagesOf hs) (hundo : Undo gs hs) :
    (composed n t u).rows = (identity n).rows ∧
      (composed n t u).signs = replicate (2 * n) 0 := by
  constructor
  · apply (composed_regular n t u).rows_eq (identity_regular n)
    intro k
    rw [vec_composed, image_identity, ← hundo.1 (generator k), ← hgs k,
      (actAll_eq hs _).1]
    simp only [← hhs _]
  · have hzero : ∀ k, composedSign n t u k = 0 := by
      intro k
      have hcast : ((composedSign n t u k : Int) : ZMod 2) = ((0 : Int) : ZMod 2) := by
        rw [cast_composedSign, hwide, ← sign_actAll ht hgs hu k, hhs k, hundo.2, Int.cast_zero]
        rfl
      exact bit_ext (Int.emod_two_eq _) (.inl rfl) hcast
    rw [composed, map_congr_left fun k _ => hzero k, map_const', Generator.length_all]

lemma BinarySigns.signs_eq (hu : u.Regular n) (hbt : t.BinarySigns)
    (hbu : u.BinarySigns) (h : ∀ k, (image n t k).sign = (image n u k).sign) :
    t.signs = u.signs := by
  rw [ht.signs_eq_map, hu.signs_eq_map]
  exact map_congr_left fun k _ => bit_ext (hbt.entry_bit _) (hbu.entry_bit _) (h k)

omit ht

/-- In wide storage every tableau with a symplectic matrix is that of a Clifford unitary, and its
inverse is the tableau of the inverse unitary: both compositions are the identity, and inverting twice
gives the tableau back. -/
theorem inverse_two_sided {w : Width} {rows : List (List Int)} {signs : List Int}
    (hrows : rows.length = 2 * n) (hbits : ∀ r ∈ rows, BitRow n r)
    (hsigns : signs.length = 2 * n) (hbinary : ∀ s ∈ signs, s = 0 ∨ s = 1)
    (hsymplectic : (Matrix.of fun k : Generator n => rowVector n (rows[k.index]?.getD [])) ∈
      Matrix.symplecticGroup (Fin n) (ZMod 2)) :
    ∃ t u v tu ut, ofArrays .wide w rows signs = .ok t ∧ t.inverse = .ok u ∧
      (∃ U : Operator n, U.conjTranspose * U = 1 ∧
        ∀ k, U * (SignedPauli.generator k).operator * U.conjTranspose = (image n t k).operator) ∧
      (∀ U : Operator n, U.conjTranspose * U = 1 →
        (∀ k, U * (SignedPauli.generator k).operator * U.conjTranspose = (image n t k).operator) →
        ∀ k, U * (⟨(image n u k).vec, 0⟩ : SignedPauli n).operator * U.conjTranspose =
          (-1 : ℂ) ^ (image n u k).sign.val • (SignedPauli.generator k).operator) ∧
      t.apply u = .ok tu ∧ tu.rows = (identity n).rows ∧ tu.signs = List.replicate (2 * n) 0 ∧
      u.apply t = .ok ut ∧ ut.rows = (identity n).rows ∧ ut.signs = List.replicate (2 * n) 0 ∧
      u.inverse = .ok v ∧ v.rows = rows ∧ v.signs = signs := by
  set t : Tableau := { n, rows, signs, rowWidth := .wide, signWidth := w }
  have hlawful : t.Lawful n := by
    refine ⟨⟨rfl, hrows, hbits, hsigns⟩, hbinary, ?_⟩
    exact mem_symplecticGroup_iff.mp hsymplectic
  have hregular := hlawful.regular
  obtain ⟨gs, hgs⟩ := hlawful.exists_circuit
  obtain ⟨hs, hundo⟩ := exists_undo gs
  have hu := inverted_regular hregular
  have hhs : (inverted n t).ImagesOf hs := inverted_imagesOf hregular rfl hgs hundo
  have hv := inverted_regular hu
  -- The second inverse has the images of the circuit that undoes the second circuit.
  have himages : ∀ k, image n (inverted n (inverted n t)) k = image n t k := by
    intro k
    rw [hgs k]
    exact inverted_imagesOf hu rfl hhs ⟨hundo.2, hundo.1⟩ k
  have htu := composed_undo hregular hu rfl hgs hhs hundo
  have hut := composed_undo hu hregular rfl hhs hgs ⟨hundo.2, hundo.1⟩
  refine ⟨t, _, _, _, _, ofArrays_eq hrows (fun r hr => (hbits r hr).length) hsigns,
    inverse_eq hregular, ⟨circuitUnitary gs, circuitUnitary_conjTranspose_mul gs, fun k => ?_⟩,
    fun U hU hmoves k => ?_, apply_eq hregular hu, htu.1, htu.2, apply_eq hu hregular, hut.1, hut.2,
    inverse_eq hu, ?_, ?_⟩
  · rw [hgs k]
    exact circuitUnitary_moves gs _
  · apply Moves.unsigned
    rw [← actAll_inverted hregular rfl hgs k]
    apply moves_of_generators hU
    intro l
    rw [← hgs l]
    exact hmoves l
  · exact hv.rows_eq hregular fun k => by rw [himages]
  · exact BinarySigns.signs_eq hv hregular (inverted_binarySigns n _) hbinary fun k => by
      rw [himages]

def entangledRows : List (List Int) :=
  [[0, 1, 1, 0], [1, 1, 1, 1], [0, 1, 0, 1], [1, 1, 0, 1]]

theorem entangledRows_inverse_two_sided :
    (Matrix.of fun k : Generator 2 => rowVector 2 (entangledRows[k.index]?.getD [])) ∈
      Matrix.symplecticGroup (Fin 2) (ZMod 2) ∧
    ∃ t u v tu ut, ofArrays .wide .wide entangledRows [1, 1, 1, 0] = .ok t ∧ t.inverse = .ok u ∧
      t.apply u = .ok tu ∧ tu.rows = (identity 2).rows ∧ tu.signs = [0, 0, 0, 0] ∧
      u.apply t = .ok ut ∧ ut.rows = (identity 2).rows ∧ ut.signs = [0, 0, 0, 0] ∧
      u.inverse = .ok v ∧ v.rows = entangledRows ∧ v.signs = [1, 1, 1, 0] := by
  have hsymplectic : (Matrix.of fun k : Generator 2 =>
      rowVector 2 (entangledRows[k.index]?.getD [])) ∈ Matrix.symplecticGroup (Fin 2) (ZMod 2) :=
    mem_symplecticGroup_iff.mpr (by decide)
  have hbits : ∀ r ∈ entangledRows, BitRow 2 r := by
    intro r hr
    have hall : ∀ r ∈ entangledRows, r.length = 2 * 2 ∧ ∀ x ∈ r, x = 0 ∨ x = 1 := by decide
    exact ⟨(hall r hr).1, (hall r hr).2⟩
  obtain ⟨t, u, v, tu, ut, ht, hu, -, -, h⟩ :=
    @inverse_two_sided 2 .wide entangledRows [1, 1, 1, 0] rfl hbits rfl (by decide) hsymplectic
  exact ⟨hsymplectic, t, u, v, tu, ut, ht, hu, h⟩

end Tableau

end GadgetCircuits
