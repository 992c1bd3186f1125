import GadgetCircuits.Graph.Standard
import GadgetCircuits.Pauli.Annealing
import GadgetCircuits.Proofs.LinearCombination
import GadgetCircuits.Proofs.PauliPropagation

/-!
Annealing of Pauli polynomials. Whatever is drawn and however it is decided, the gates of the region,
then the polynomial, then the gates undone are the polynomial that a run began with, as long as no
gadget is listed an even number of times: through such a gadget every gate moves back again.
-/

namespace GadgetCircuits

open List Update CliffordGate PauliPool AngleExpr
open scoped Real

variable {n : Nat}

/-- The unitary of a gadget, where `value` gives the angles in radians. -/
noncomputable def PauliGadget.unitary (n : Nat) (value : AngleExpr → ℝ) (g : PauliGadget) : Operator n :=
  turnAbout (match g.angle with | .expr e => value e | .plain _ => 0) (stringOperator n g.paulis)

noncomputable def PauliPool.unitary (n : Nat) (value : AngleExpr → ℝ) (pool : PauliPool) (p : Nat) :
    Operator n :=
  inOrder ((pool.shared p).members.map fun i => (pool.gadget i).unitary n value)

/-- Signs multiply the value of an expression as they multiply the expression. -/
def AngleExpr.ReadsSigns (value : AngleExpr → ℝ) (e : AngleExpr) : Prop :=
  ∀ signs : List Int, (∀ s ∈ signs, s = 1 ∨ s = -1) →
    value (e.scaleAll signs) = (signs.prod : Int) * value e

lemma AngleExpr.Flat.readsSigns {e : AngleExpr} (he : e.Flat) (hconst : e.dropped = 0) (env : Nat → ℝ) :
    ReadsSigns (fun e => valueAt env e * π) e := by
  intro signs hsigns
  induction signs generalizing e with
  | nil => simp [scaleAll]
  | cons s signs ih =>
    obtain ⟨hscaled, hlost⟩ := scaleBy_flat he s
    have hrest := ih hscaled hlost fun s' hs' => hsigns s' (mem_cons_of_mem s hs')
    refine hrest.trans ?_
    beta_reduce
    rw [scaleBy_value he, hconst, prod_cons]
    push_cast
    ring

lemma turnAbout_smul (a : ℝ) (s : Int) (p : Operator n) :
    turnAbout a ((s : ℂ) • p) = turnAbout (s * a) p := by
  rw [turnAbout, turnAbout, smul_smul]
  congr 2
  push_cast
  ring

lemma turnAbout_conjTranspose_conj {G : Operator n} (hG : G.conjTranspose * G = 1) (a : ℝ)
    (p : Operator n) : turnAbout a (G.conjTranspose * p * G) = G.conjTranspose * turnAbout a p * G := by
  have hunit : IsUnit G := IsUnit.of_mul_eq_one _ (mul_eq_one_comm.mp hG)
  rw [turnAbout, turnAbout, ← Matrix.inv_eq_left_inv hG, ← Matrix.exp_conj' G _ hunit, mul_smul_comm,
    smul_mul_assoc]

lemma PauliGadget.Fits.through_unitary {g : PauliGadget} (hg : g.Fits n) {value : AngleExpr → ℝ}
    (hvalue : ∀ e, g.angle = .expr e → AngleExpr.ReadsSigns value e)
    {gs : List (CliffordGate (Fin n))} (hgs : ∀ g ∈ gs, g.Proper) :
    (g.through gs).unitary n value = (gs.map CliffordGate.unitary).prod.conjTranspose *
      g.unitary n value * (gs.map CliffordGate.unitary).prod := by
  obtain ⟨hlength, e, he⟩ := hg
  have hG := prod_unitary_conjTranspose_mul hgs
  have hsigns := hvalue e he _ (throughAll_signs gs g.paulis)
  rw [unitary, through_angle he]
  simp only [unitary, he]
  rw [hsigns, ← turnAbout_conjTranspose_conj hG, conj_throughAll hgs hlength,
    turnAbout_smul]
  rfl

namespace CliffordGate

/-- Gates, an operator and the gates undone. -/
noncomputable def around (gates : List (CliffordGate (Fin n))) (U : Operator n) : Operator n :=
  inOrder (gates.map unitary ++ U :: gates.reverse.map fun g => g.unitary.conjTranspose)

def Involutions (gates : List (CliffordGate (Fin n))) : Prop :=
  ∀ g ∈ gates, g.Proper ∧ g.unitary * g.unitary = 1

variable {gates : List (CliffordGate (Fin n))}

lemma around_eq (gates : List (CliffordGate (Fin n))) (U : Operator n) : around gates U =
      (inOrder (gates.map unitary)).conjTranspose * U * inOrder (gates.map unitary) := by
  have hundo : inOrder (gates.reverse.map fun g => g.unitary.conjTranspose) =
      (inOrder (gates.map unitary)).conjTranspose := by
    rw [inOrder, inOrder, Matrix.conjTranspose_list_prod, map_reverse, map_reverse, map_map]
    rfl
  rw [around, inOrder_append, inOrder_cons, hundo]

variable (h : Involutions gates)
include h

lemma Involutions.prod_mul_inOrder :
    (gates.map unitary).prod * inOrder (gates.map unitary) = 1 := by
  induction gates with
  | nil => simp
  | cons g gates ih =>
    have hg := (h g mem_cons_self).2
    have hrest := ih fun g' hg' => h g' (mem_cons_of_mem g hg')
    rw [map_cons, prod_cons, inOrder_cons, mul_assoc, ← mul_assoc _ _ g.unitary, hrest, one_mul, hg]

lemma Involutions.inOrder_eq :
    inOrder (gates.map unitary) = (gates.map unitary).prod.conjTranspose := by
  have hG := prod_unitary_conjTranspose_mul fun g hg => (h g hg).1
  exact (left_inv_eq_right_inv hG h.prod_mul_inOrder).symm

lemma Involutions.prod_pow (m : Nat) :
    (gates.map fun g => g.unitary ^ m).prod = if Odd m then (gates.map unitary).prod else 1 := by
  have hpow : ∀ g ∈ gates, g.unitary ^ m = if Odd m then g.unitary else 1 := by
    intro g hg
    have hsq : g.unitary ^ 2 = 1 := by rw [pow_two, (h g hg).2]
    split
    · rename_i hodd
      obtain ⟨k, rfl⟩ := hodd
      rw [pow_succ, pow_mul, hsq, one_pow, one_mul]
    · rename_i hodd
      obtain ⟨k, rfl⟩ := even_iff_two_dvd.mp (Nat.not_odd_iff_even.mp hodd)
      rw [pow_mul, hsq, one_pow]
  rw [map_congr_left hpow]
  split
  · rfl
  · simp

lemma Involutions.around_inOrder (us : List (Operator n)) :
    around gates (inOrder us) = inOrder (us.map (around gates)) := by
  have hG := prod_unitary_conjTranspose_mul fun g hg => (h g hg).1
  induction us with
  | nil =>
    rw [inOrder_nil, map_nil, inOrder_nil, around_eq, h.inOrder_eq, mul_one,
      Matrix.conjTranspose_conjTranspose]
    exact mul_eq_one_comm.mp hG
  | cons u us ih =>
    rw [inOrder_cons, map_cons, inOrder_cons, ← ih]
    simp only [around_eq, h.inOrder_eq, Matrix.conjTranspose_conjTranspose]
    generalize (gates.map unitary).prod = G at hG
    calc G * (inOrder us * u) * G.conjTranspose
        = G * inOrder us * (G.conjTranspose * G) * u * G.conjTranspose := by
          rw [hG, mul_one]
          simp only [mul_assoc]
      _ = G * inOrder us * G.conjTranspose * (G * u * G.conjTranspose) := by
          simp only [mul_assoc]

lemma Involutions.around_through {g : PauliGadget} (hg : g.Fits n)
    {value : AngleExpr → ℝ} (hvalue : ∀ e, g.angle = .expr e → AngleExpr.ReadsSigns value e)
    (m : Nat) :
    around gates ((g.through (gates.flatMap fun h => replicate m h)).unitary n value) =
      if Odd m then g.unitary n value else around gates (g.unitary n value) := by
  have hproper : ∀ k ∈ gates.flatMap fun h => replicate m h, k.Proper := by
    intro k hk
    obtain ⟨k', hk', hmem⟩ := mem_flatMap.mp hk
    rw [eq_of_mem_replicate hmem]
    exact (h k' hk').1
  rw [hg.through_unitary hvalue hproper, prod_repeated, h.prod_pow]
  have hG := prod_unitary_conjTranspose_mul fun g hg => (h g hg).1
  have hG' := mul_eq_one_comm.mp hG
  split
  · rw [around_eq, h.inOrder_eq, Matrix.conjTranspose_conjTranspose]
    generalize (gates.map unitary).prod = G at hG'
    calc G * (G.conjTranspose * g.unitary n value * G) * G.conjTranspose
        = G * G.conjTranspose * g.unitary n value * (G * G.conjTranspose) := by
          simp only [mul_assoc]
      _ = g.unitary n value := by rw [hG', one_mul, mul_one]
  · rw [Matrix.conjTranspose_one, one_mul, mul_one]

end CliffordGate

lemma Draws.mem_of_choose {α : Type} {xs : List α} {d d' : Draws} {x : α}
    (h : (Draws.choose xs).runFrom d = (.ok x, d')) : x ∈ xs := by
  rw [choose] at h
  split at h
  · cases (Prod.mk.inj h).1
  · obtain ⟨k, d₁, -, h⟩ := of_runFrom_bind h
    split at h
    · rename_i y hy
      cases (Prod.mk.inj h).1
      exact mem_of_getElem? hy
    · cases (Prod.mk.inj h).1

lemma CliffordGate.of_pick {size : Value} (hsize : size.same (.ofNat n)) {d d' : Draws}
    {g : CliffordGate Nat} (h : (pick entangling size).runFrom d = (.ok g, d')) :
    ∃ (kind : PairClifford) (c t : Fin n), c ≠ t ∧ g = .two kind c t := by
  obtain ⟨kind, d₁, hkind, h⟩ := of_runFrom_bind h
  have hentangling : ∃ k, kind = .inl (.two k) := by
    have hmem := Draws.mem_of_choose hkind
    simp only [entangling, mem_cons, not_mem_nil, or_false] at hmem
    rcases hmem with rfl | rfl | rfl <;> exact ⟨_, rfl⟩
  obtain ⟨k, rfl⟩ := hentangling
  rw [randomOf, random] at h
  obtain ⟨qubits, d₂, hbelow, h⟩ := of_runFrom_bind h
  rw [runFrom_lift] at hbelow
  have hqubits : qubits = range n := by
    have hok := (Prod.mk.inj hbelow).1
    rw [below] at hok
    split at hok
    · rename_i m hm
      rw [← Except.ok.inj hok, Value.int?_of_same hsize hm]
      rfl
    · cases hok
  subst hqubits
  obtain ⟨t, d₃, ht, h⟩ := of_runFrom_bind h
  obtain ⟨c, d₄, hc, h⟩ := of_runFrom_bind h
  have htn := mem_range.mp (Draws.mem_of_choose ht)
  obtain ⟨hcn, hne⟩ := mem_filter.mp (Draws.mem_of_choose hc)
  refine ⟨k, ⟨c, mem_range.mp hcn⟩, ⟨t, htn⟩, fun e => ?_, ?_⟩
  · simp [Fin.mk.inj e] at hne
  · exact (Except.ok.inj (Prod.mk.inj h).1).symm

namespace PauliAnnealing

/-- A gate that was drawn, and whether it was accepted. -/
structure Decision (n : Nat) where
  kind : PairClifford
  control : Fin n
  target : Fin n
  ne : control ≠ target
  accepted : Bool

namespace Decision

def gate (d : Decision n) : CliffordGate (Fin n) :=
  .two d.kind d.control d.target

def gathered (ds : List (Decision n)) : List (CliffordGate (Fin n)) :=
  (ds.filter accepted).map gate

variable (ds : List (Decision n))

lemma gathered_involutions : CliffordGate.Involutions (gathered ds) := by
  intro g hg
  obtain ⟨d, -, rfl⟩ := mem_map.mp hg
  exact ⟨d.ne, d.kind.unitary_mul_self d.ne⟩

lemma gathered_append (d : Decision n) :
    gathered (ds ++ [d]) = gathered ds ++ if d.accepted then [d.gate] else [] := by
  cases hd : d.accepted <;> simp [gathered, hd]

end Decision

open Decision

variable {pool : PauliPool} {draws : Draws} {p : Nat} {ds : List (Decision n)} {s s' : State}

def settle (p : Nat) (d : Decision n) : Update State Unit :=
  if d.accepted then accept p d.gate.item else pure ()

variable {d : Decision n}

lemma settle_accepted (hd : d.accepted) : settle p d = accept p d.gate.item := by
  rw [settle, if_pos hd]

lemma settle_rejected (hd : d.accepted = false) : settle p d = pure () := by
  simp [settle, hd]

lemma add_gate {region : CliffordRegion} (hsize : region.size.same (.ofNat n)) (d : Decision n) :
    region.add d.gate.item = .ok { region with gates := region.gates ++ [d.gate.item] } := by
  have hle := Value.le_of_same hsize d.control.isLt
  simp only [CliffordRegion.add, item, gate, CliffordItem.qubits, CliffordGate.map,
    CliffordGate.qubits, hle]
  rfl

lemma accept_run (hp : s.pool.Holds n p) (hsize : s.region.size = (s.pool.shared p).size)
    (d : Decision n) : ∃ pool', pool' = ((propagate p d.gate.item).runFrom s.pool).2 ∧
      pool'.polynomials = s.pool.polynomials.push (s.pool.shared p) ∧
      PauliPool.Passed s.pool pool' (fun i =>
        replicate ((s.pool.shared p).members.count i) d.gate) ∧
      (accept p d.gate.item).runFrom s = (.ok (), { s with
        pool := pool', region := { s.region with gates := s.region.gates ++ [d.gate.item] } }) := by
  obtain ⟨q, pool', hrun, -, hpush, hpassed⟩ := propagate_pushes hp d.gate
  have hregion : s.region.size.same (.ofNat n) := hsize ▸ hp.size
  have hadd := add_gate hregion d
  refine ⟨pool', by rw [hrun], hpush, hpassed, ?_⟩
  simp only [accept, onPool, runFrom_bind, runFrom_get, hadd, runFrom_lift,
    runFrom_set, runFrom_within, hrun]
  rfl

structure Gathered (pool : PauliPool) (p : Nat) (ds : List (Decision n)) (s : State) : Prop where
  size : s.region.size = (pool.shared p).size
  gates : s.region.gates = (gathered ds).map item
  shared : s.pool.shared p = pool.shared p
  passed : PauliPool.Passed pool s.pool fun i =>
    (gathered ds).flatMap fun g => List.replicate ((pool.shared p).members.count i) g

lemma Gathered.holds (h : Gathered pool p ds s) (hp : pool.Holds n p) : s.pool.Holds n p := by
  refine ⟨h.shared ▸ hp.size, fun i hi => ?_⟩
  rw [h.shared] at hi
  rw [h.passed.size, h.passed.gadget]
  exact ⟨(hp.members i hi).1, (hp.members i hi).2.through _⟩

lemma Gathered.congr (h : Gathered pool p ds s) (hpool : s'.pool = s.pool)
    (hregion : s'.region = s.region) : Gathered pool p ds s' :=
  ⟨hregion ▸ h.size, hregion ▸ h.gates, hpool ▸ h.shared, hpool ▸ h.passed⟩

lemma Gathered.settled (h : Gathered pool p ds s) (hp : pool.Holds n p) (d : Decision n) :
    ∃ s', (settle p d).runFrom s = (.ok (), s') ∧ Gathered pool p (ds ++ [d]) s' := by
  cases hd : d.accepted with
  | false =>
    refine ⟨s, by simp [settle_rejected hd], ?_⟩
    have hsame : gathered (ds ++ [d]) = gathered ds := by simp [gathered_append, hd]
    exact ⟨h.size, hsame ▸ h.gates, h.shared, hsame ▸ h.passed⟩
  | true =>
    have hholds := h.holds hp
    obtain ⟨pool', -, hpush, hpassed, haccept⟩ :=
      accept_run hholds (h.size.trans (by rw [h.shared])) d
    have hmore : gathered (ds ++ [d]) = gathered ds ++ [d.gate] := by simp [gathered_append, hd]
    rw [← settle_accepted hd] at haccept
    refine ⟨_, haccept, h.size, ?_, ?_, ?_⟩
    · simp [hmore, h.gates]
    · rw [← h.shared]
      simp [PauliPool.shared, hpush, Array.getElem?_push, hholds.lt.ne]
    · rw [h.shared] at hpassed
      simpa [hmore] using h.passed.trans hpassed

/-- The region and the polynomials are those after some decisions; what was drawn for them and which
counts are kept does not matter. -/
def Reached (pool : PauliPool) (draws : Draws) (p : Nat) (ds : List (Decision n)) (s : State) : Prop :=
  ∃ s₀, (ds.forM (settle p)).runFrom (.start pool draws p) = (.ok (), s₀) ∧
    s.pool = s₀.pool ∧ s.region = s₀.region

lemma forM_settle_append {s₀ s₁ s₂ : State}
    (h : (ds.forM (settle p)).runFrom s₀ = (.ok (), s₁)) (hd : (settle p d).runFrom s₁ = (.ok (), s₂)) :
    ((ds ++ [d]).forM (settle p)).runFrom s₀ = (.ok (), s₂) := by
  change (forM (ds ++ [d]) (settle p)).runFrom s₀ = _
  rw [forM_append]
  refine (runFrom_bind_ok h).trans ?_
  simp only [forM_cons, forM_nil, runFrom_bind, hd]
  rfl

lemma settleAll_gathered (hp : pool.Holds n p) (draws : Draws) (ds : List (Decision n)) :
    ∃ s, (ds.forM (settle p)).runFrom (.start pool draws p) = (.ok (), s) ∧ Gathered pool p ds s := by
  induction ds using reverseRecOn with
  | nil => exact ⟨_, rfl, rfl, rfl, rfl, PauliPool.Passed.refl pool⟩
  | append_singleton ds d ih =>
    obtain ⟨s, hrun, hs⟩ := ih
    obtain ⟨s', hrun', hs'⟩ := hs.settled hp d
    exact ⟨s', forM_settle_append hrun hrun', hs'⟩

lemma Reached.gathered (h : Reached pool draws p ds s) (hp : pool.Holds n p) :
    Gathered pool p ds s := by
  obtain ⟨s₀, hrun, hpool, hregion⟩ := h
  obtain ⟨s₁, hrun', hs₁⟩ := settleAll_gathered hp draws ds
  obtain rfl : s₀ = s₁ := (Prod.mk.inj (hrun.symm.trans hrun')).2
  exact hs₁.congr hpool hregion

/-- Deciding once more gives the same region and polynomials in whatever state these are reached. -/
theorem Reached.settled (h : Reached pool draws p ds s) (hp : pool.Holds n p)
    (hrun : (settle p d).runFrom s = (.ok (), s')) : Reached pool draws p (ds ++ [d]) s' := by
  have hs := h.gathered hp
  obtain ⟨s₀, hrun₀, hpool, hregion⟩ := h
  have hs₀ : Gathered pool p ds s₀ := hs.congr hpool.symm hregion.symm
  obtain ⟨s₁, hrun₁, -⟩ := hs₀.settled hp d
  refine ⟨s₁, forM_settle_append hrun₀ hrun₁, ?_⟩
  cases hd : d.accepted with
  | false =>
    simp only [settle_rejected hd, runFrom_pure, Prod.mk.injEq, true_and] at hrun hrun₁
    rw [← hrun, ← hrun₁]
    exact ⟨hpool, hregion⟩
  | true =>
    have hsize := hs.size.trans (congrArg SharedPolynomial.size hs.shared.symm)
    have hsize₀ := hs₀.size.trans (congrArg SharedPolynomial.size hs₀.shared.symm)
    obtain ⟨-, rfl, -, -, haccept⟩ := accept_run (hs.holds hp) hsize d
    obtain ⟨-, rfl, -, -, haccept₀⟩ := accept_run (hs₀.holds hp) hsize₀ d
    rw [settle_accepted hd] at hrun hrun₁
    grind

/-- A decision is the one of an iteration: its gate is drawn, and its effect decides. -/
structure Decided [GraphLibrary] (topology : Topology) (p : Nat) (t : Temperature) (u : Float)
    (s : State) (d : Decision n) : Prop where
  drawn : ((pick entangling (s.pool.shared p).size).runFrom s.draws).1 =
    .ok (d.gate.map Fin.val)
  effect : ∃ change, (((s.pool.view p).effect topology d.gate.item).runFrom s.cache).1 = .ok change ∧
    accepts (2 + change) t u = .ok d.accepted

lemma drawing_run {α : Type} (x : Update Draws α) (s : State) : ∃ draws',
    (drawing x).runFrom s = ((x.runFrom s.draws).1, { s with draws := draws' }) :=
  ⟨_, runFrom_within _ _ x s⟩

lemma counting_run {α : Type} (x : Update CountCache α) (s : State) : ∃ cache',
    (counting x).runFrom s = ((x.runFrom s.cache).1, { s with cache := cache' }) :=
  ⟨_, runFrom_within _ _ x s⟩

variable {r : Except Error Unit}

variable {topology : Topology}

lemma step_cases [GraphLibrary] {t : Temperature} {u : Float}
    (hsize : (s.pool.shared p).size.same (.ofNat n))
    (h : (step topology p t u).runFrom s = (r, s')) :
    (∃ e, r = .error e ∧ s'.pool = s.pool ∧ s'.region = s.region) ∨
    ∃ (d : Decision n) (s₁ : State), Decided topology p t u s d ∧ s₁.pool = s.pool ∧
      s₁.region = s.region ∧ (settle p d).runFrom s₁ = (r, s') := by
  rw [step, runFrom_bind_ok (runFrom_get s)] at h
  obtain ⟨draws', hdraw⟩ := drawing_run
    (pick entangling (s.pool.shared p).size) s
  rcases runFrom_bind_cases h with ⟨e, rfl, hfail⟩ | ⟨g, s₁, hgate, h⟩
  · simp_all
  obtain ⟨hpick, rfl⟩ := Prod.mk.inj (hdraw.symm.trans hgate)
  obtain ⟨kind, c, t', hne, rfl⟩ := of_pick hsize (Prod.ext hpick rfl)
  have hitem : (CliffordItem.gate ((CliffordGate.two kind (c : Nat) (t' : Nat)).map .ofNat)) =
      item (.two kind c t') := rfl
  rw [hitem] at h
  obtain ⟨cache', hcount⟩ := counting_run
    ((s.pool.view p).effect topology (item (.two kind c t')))
    { s with draws := draws' }
  rcases runFrom_bind_cases h with ⟨e, rfl, hfail⟩ | ⟨change, s₂, hchange, h⟩
  · simp_all
  obtain ⟨heffect, rfl⟩ := Prod.mk.inj (hcount.symm.trans hchange)
  rcases runFrom_bind_cases h with ⟨e, rfl, hfail⟩ | ⟨b, s₃, haccepts, h⟩
  · rw [runFrom_lift] at hfail
    obtain ⟨-, rfl⟩ := Prod.mk.inj hfail
    exact Or.inl ⟨e, rfl, rfl, rfl⟩
  rw [runFrom_lift] at haccepts
  obtain ⟨hb, rfl⟩ := Prod.mk.inj haccepts
  refine Or.inr ⟨⟨kind, c, t', hne, b⟩, _, ⟨hpick, change, heffect, hb⟩, ?_, ?_, h⟩
  · rfl
  · rfl

lemma Reached.iteration [GraphLibrary] {t : Temperature} {u : Float}
    (h : Reached pool draws p ds s) (hp : pool.Holds n p)
    (hrun : (step topology p t u).runFrom s = (r, s')) :
    (∃ e, r = .error e ∧ s'.pool = s.pool ∧ s'.region = s.region) ∨
    (r = .ok () ∧ ∃ d : Decision n, Decided topology p t u s d ∧ Reached pool draws p (ds ++ [d]) s' ∧
      (d.accepted = false → s'.pool = s.pool ∧ s'.region = s.region)) := by
  rcases step_cases ((h.gathered hp).holds hp).size hrun with hfail | ⟨d, s₁, hd, hpool, hregion, hs'⟩
  · exact Or.inl hfail
  have hs₁ : Reached pool draws p ds s₁ := by
    obtain ⟨s₀, hrun₀, hpool₀, hregion₀⟩ := h
    exact ⟨s₀, hrun₀, hpool.trans hpool₀, hregion.trans hregion₀⟩
  obtain ⟨s₂, hs₂, -⟩ := (hs₁.gathered hp).settled hp d
  obtain ⟨rfl, rfl⟩ := Prod.mk.inj (hs₂.symm.trans hs')
  refine Or.inr ⟨rfl, d, hd, hs₁.settled hp hs', fun hrejected => ?_⟩
  rw [settle_rejected hrejected] at hs'
  obtain ⟨-, rfl⟩ := Prod.mk.inj hs'
  exact ⟨hpool, hregion⟩

lemma mapM_length {α β : Type} {f : α → Update Draws β} {xs : List α} {d d' : Draws} {ys : List β}
    (h : (xs.mapM f).runFrom d = (.ok ys, d')) : ys.length = xs.length := by
  induction xs generalizing d d' ys with
  | nil =>
    obtain ⟨hys, -⟩ := Prod.mk.inj h
    rw [← Except.ok.inj hys]
    rfl
  | cons x xs ih =>
    rw [mapM_cons] at h
    obtain ⟨y, d₁, -, h⟩ := of_runFrom_bind h
    obtain ⟨ys', d₂, hys', h⟩ := of_runFrom_bind h
    rw [← Except.ok.inj (Prod.mk.inj h).1, length_cons, length_cons, ih hys']

lemma chances_cases {count : Value} {r : Except Error (List Float)}
    (h : (chances count).runFrom s = (r, s')) : s'.pool = s.pool ∧ s'.region = s.region ∧
      ∀ us, r = .ok us → count.int? = some (us.length : Int) := by
  rw [chances] at h
  split at h
  · obtain ⟨rfl, rfl⟩ := Prod.mk.inj h
    exact ⟨rfl, rfl, fun us hus => by cases hus⟩
  rename_i k hk
  split at h
  · obtain ⟨rfl, rfl⟩ := Prod.mk.inj h
    exact ⟨rfl, rfl, fun us hus => by cases hus⟩
  rename_i hpos
  obtain ⟨draws', hdraw⟩ := drawing_run ((replicate k.toNat ()).mapM fun _ => Draws.unit) s
  obtain ⟨hr, rfl⟩ := Prod.mk.inj (hdraw.symm.trans h)
  refine ⟨rfl, rfl, ?_⟩
  rintro us rfl
  have hlength := mapM_length (Prod.ext hr rfl)
  rw [hk, hlength, length_replicate]
  congr 1
  omega

lemma Reached.iterations [GraphLibrary] {f : Float × Nat → Update State Unit}
    {us : List (Float × Nat)} (h : Reached pool draws p ds s)
    (hp : pool.Holds n p) (hrun : (us.forM f).runFrom s = (r, s'))
    (temperature : Nat → Except Error Temperature)
    (hf : ∀ ui, f ui = do step topology p (← temperature ui.2) ui.1) :
    ∃ more : List (Decision n), Reached pool draws p (ds ++ more) s' ∧
      (r = .ok () → more.length = us.length) := by
  induction us generalizing ds s with
  | nil =>
    simp_all
  | cons ui us ih =>
    -- A failure of the temperature or of the iteration ends the run in a state that is reached.
    have hstopped : s'.pool = s.pool → s'.region = s.region → ∀ e, r = .error e →
        ∃ more : List (Decision n), Reached pool draws p (ds ++ more) s' ∧
          (r = .ok () → more.length = (ui :: us).length) := by
      rintro hpool hregion e rfl
      obtain ⟨s₀, hrun₀, hpool₀, hregion₀⟩ := h
      refine ⟨[], ?_, fun hok => by cases hok⟩
      rw [append_nil]
      exact ⟨s₀, hrun₀, hpool.trans hpool₀, hregion.trans hregion₀⟩
    rcases runFrom_bind_cases hrun with ⟨e, rfl, hfirst⟩ | ⟨_, s₁, hfirst, hrest⟩
    · rw [hf] at hfirst
      rcases runFrom_bind_cases hfirst with ⟨e', he', htemp⟩ | ⟨t, s₂, htemp, hstep⟩
      · simp_all
      · rw [runFrom_lift] at htemp
        obtain ⟨-, rfl⟩ := Prod.mk.inj htemp
        rcases h.iteration hp hstep with ⟨e', he', hpool, hregion⟩ | ⟨hok, -⟩
        · exact hstopped hpool hregion e rfl
        · cases hok
    · rw [hf] at hfirst
      obtain ⟨t, s₂, htemp, hstep⟩ := of_runFrom_bind hfirst
      rw [runFrom_lift] at htemp
      obtain ⟨-, rfl⟩ := Prod.mk.inj htemp
      rcases h.iteration hp hstep with ⟨e', he', -⟩ | ⟨-, d, -, hd, -⟩
      · cases he'
      · grind

lemma run_reached [GraphLibrary] {schedule : Schedule} {count : Value} (hp : pool.Holds n p)
    (hrun : (run topology p schedule count).runFrom (.start pool draws p) = (r, s')) :
    ∃ ds : List (Decision n), Reached pool draws p ds s' ∧
      (r = .ok () → count.int? = some (ds.length : Int)) := by
  have hstart : ∀ s : State, s.pool = pool → s.region = (State.start pool draws p).region →
      Reached pool draws p ([] : List (Decision n)) s := fun s hpool hregion =>
    ⟨_, rfl, hpool, hregion⟩
  rcases runFrom_bind_cases hrun with ⟨e, rfl, hchances⟩ | ⟨us, s₁, hchances, hrest⟩
  · obtain ⟨hpool, hregion, -⟩ := chances_cases hchances
    exact ⟨[], hstart s' hpool hregion, fun hok => by cases hok⟩
  · obtain ⟨hpool, hregion, hcount⟩ := chances_cases hchances
    obtain ⟨ds, hds, hlength⟩ := (hstart s₁ hpool hregion).iterations hp hrest
      (fun i => schedule.temperature (.ofNat i) count) fun _ => rfl
    refine ⟨ds, by simpa using hds, fun hok => ?_⟩
    rw [hcount us rfl, hlength hok, length_zipIdx]

/-- Decisions turn a polynomial so that, between the gates gathered and the gates undone, each gadget
is as it was, except those that are listed an even number of times: they are not turned at all. -/
theorem Gathered.around_unitary (h : Gathered pool p ds s) (hp : pool.Holds n p)
    {value : AngleExpr → ℝ} (hvalue : ∀ i ∈ (pool.shared p).members, ∀ e,
      (pool.gadget i).angle = .expr e → AngleExpr.ReadsSigns value e) :
    around (gathered ds) (s.pool.unitary n value p) =
      inOrder ((pool.shared p).members.map fun i =>
        if Odd ((pool.shared p).members.count i) then (pool.gadget i).unitary n value
        else around (gathered ds) ((pool.gadget i).unitary n value)) := by
  have hgates := gathered_involutions ds
  rw [PauliPool.unitary, hgates.around_inOrder, h.shared, map_map]
  congr 1
  refine map_congr_left fun i hi => ?_
  rw [Function.comp_apply, h.passed.gadget]
  exact hgates.around_through (hp.members i hi).2 (hvalue i hi) _

/-- Annealing keeps the circuit. Every sequence of decisions can be carried out; with the accepted gates
before it and undone behind it the polynomial is then the one at first, if each gadget is listed an odd
number of times. An iteration fails, rejects or accepts, and a run is one decision for each iteration. -/
theorem annealing_keeps_circuit [GraphLibrary] (hp : pool.Holds n p) {value : AngleExpr → ℝ}
    (hvalue : ∀ i ∈ (pool.shared p).members, ∀ e, (pool.gadget i).angle = .expr e →
      AngleExpr.ReadsSigns value e) (draws : Draws) :
    (∀ ds : List (Decision n), ∃ s, Reached pool draws p ds s) ∧
    (∀ (ds : List (Decision n)) (s : State), Reached pool draws p ds s →
      s.region.gates = (gathered ds).map CliffordGate.item ∧ s.pool.shared p = pool.shared p ∧
      CliffordGate.around (gathered ds) (s.pool.unitary n value p) =
        inOrder ((pool.shared p).members.map fun i =>
          if Odd ((pool.shared p).members.count i) then (pool.gadget i).unitary n value
          else CliffordGate.around (gathered ds) ((pool.gadget i).unitary n value)) ∧
      ((∀ i ∈ (pool.shared p).members, Odd ((pool.shared p).members.count i)) →
        CliffordGate.around (gathered ds) (s.pool.unitary n value p) = pool.unitary n value p)) ∧
    (∀ (ds : List (Decision n)) (s : State), Reached pool draws p ds s →
      ∀ topology t u r s', (step topology p t u).runFrom s = (r, s') →
        (∃ e, r = .error e ∧ s'.pool = s.pool ∧ s'.region = s.region) ∨
        (r = .ok () ∧ ∃ d : Decision n, Decided topology p t u s d ∧
          Reached pool draws p (ds ++ [d]) s' ∧
          (d.accepted = false → s'.pool = s.pool ∧ s'.region = s.region))) ∧
    ∀ topology schedule count r s',
      (run topology p schedule count).runFrom (.start pool draws p) = (r, s') →
        ∃ ds : List (Decision n), Reached pool draws p ds s' ∧
          (r = .ok () → count.int? = some (ds.length : Int)) := by
  refine ⟨fun ds => ?_, fun ds s hs => ?_, fun ds s hs topology t u r s' hrun => ?_, ?_⟩
  · obtain ⟨s, hrun, -⟩ := settleAll_gathered hp draws ds
    exact ⟨s, s, hrun, rfl, rfl⟩
  · have hgathered := hs.gathered hp
    have haround := hgathered.around_unitary hp hvalue
    refine ⟨hgathered.gates, hgathered.shared, haround, fun hodd => haround.trans ?_⟩
    rw [PauliPool.unitary]
    congr 1
    exact map_congr_left fun i hi => if_pos (hodd i hi)
  · exact hs.iteration hp hrun
  · exact fun topology schedule count r s' hrun => run_reached hp hrun

def symbolicPool : PauliPool where
  gadgets := #[⟨.expr (.angle ⟨1 / 4⟩), [.x, .z]⟩, ⟨.expr (.var ⟨3, "t", "t"⟩), [.y, .i]⟩]
  polynomials := #[⟨.ofNat 2, [0, 1]⟩]

def first : Fin 2 := ⟨0, Nat.zero_lt_two⟩

def second : Fin 2 := ⟨1, Nat.one_lt_two⟩

lemma first_ne_second : first ≠ second := by decide

lemma second_ne_first : second ≠ first := by decide

def threeDecisions : List (Decision 2) :=
  [⟨.cx, first, second, first_ne_second, true⟩, ⟨.cz, first, second, first_ne_second, false⟩,
    ⟨.cy, second, first, second_ne_first, true⟩]

theorem symbolicPool_keeps_circuit :
    symbolicPool.Holds 2 0 ∧
    (∀ i ∈ (symbolicPool.shared 0).members, ∀ e, (symbolicPool.gadget i).angle = .expr e →
      AngleExpr.ReadsSigns (fun e => e.valueAt Nat.cast * Real.pi) e) ∧
    ∃ s, Reached symbolicPool (.ofSeed 1) 0 threeDecisions s ∧
      s.region.gates = [CliffordGate.item (.two .cx first second),
        CliffordGate.item (.two .cy second first)] ∧
      CliffordGate.around (gathered threeDecisions)
        (s.pool.unitary 2 (fun e => e.valueAt Nat.cast * Real.pi) 0) =
      symbolicPool.unitary 2 (fun e => e.valueAt Nat.cast * Real.pi) 0 := by
  have hmembers : ∀ i ∈ (symbolicPool.shared 0).members, i = 0 ∨ i = 1 := by
    intro i hi
    simpa [symbolicPool, shared] using hi
  have hholds : symbolicPool.Holds 2 0 := by
    refine ⟨by cbv, fun i hi => ?_⟩
    rcases hmembers i hi with rfl | rfl
    · exact ⟨by decide, rfl, _, rfl⟩
    · exact ⟨by decide, rfl, _, rfl⟩
  have hvalue : ∀ i ∈ (symbolicPool.shared 0).members, ∀ e, (symbolicPool.gadget i).angle = .expr e →
      AngleExpr.ReadsSigns (fun e => e.valueAt Nat.cast * π) e := by
    intro i hi e he
    have hplain : e.Flat ∧ e.dropped = 0 := by
      rcases hmembers i hi with rfl | rfl
      · cases he
        exact ⟨trivial, rfl⟩
      · cases he
        exact ⟨trivial, rfl⟩
    exact hplain.1.readsSigns hplain.2 _
  obtain ⟨hreach, hkept, -⟩ := annealing_keeps_circuit hholds hvalue (.ofSeed 1)
  obtain ⟨s, hs⟩ := hreach threeDecisions
  obtain ⟨hgates, -, -, hsame⟩ := hkept threeDecisions s hs
  refine ⟨hholds, hvalue, s, hs, hgates, hsame fun i hi => ?_⟩
  rcases hmembers i hi with rfl | rfl <;> decide

def sharedPool : PauliPool where
  gadgets := #[⟨.expr (.angle ⟨1 / 4⟩), [.x, .x]⟩]
  polynomials := #[⟨.ofNat 2, [0, 0]⟩]

lemma sharedPool_members : ∀ i ∈ (sharedPool.shared 0).members, i = 0 := by
  intro i hi
  simpa [sharedPool, shared] using hi

lemma sharedPool_holds : sharedPool.Holds 2 0 := by
  refine ⟨by cbv, fun i hi => ?_⟩
  rw [sharedPool_members i hi]
  exact ⟨by decide, rfl, _, rfl⟩

def entangle : Decision 2 := ⟨.cx, first, second, first_ne_second, true⟩

lemma pauli_pair_mul_self : pauli 2 .x 0 * pauli 2 .x 1 * (pauli 2 .x 0 * pauli 2 .x 1) = 1 := by
  have hstring : pauli 2 .x 0 * pauli 2 .x 1 = pauliString 2 .x [0, 1] := by simp [pauliString]
  rw [hstring, pauliString_eq, stringOn_mul_self]

lemma not_upToPhase_turns : ¬ UpToPhase (turnAbout (π / 4 + π / 4) (pauli 2 .x 0))
    (turnAbout (π / 4 + π / 4) (pauli 2 .x 0 * pauli 2 .x 1)) := by
  rintro ⟨z, hz, h⟩
  rw [turnAbout_eq (pauli_mul_self _ _), turnAbout_eq pauli_pair_mul_self] at h
  have hentry := congrFun (congrFun h fun _ => true) fun _ => false
  have hfirst : Bits.flip (0 : Int) (fun _ => false : Bits 2) ≠ fun _ => true := fun e => by
    simpa [Bits.flip] using congrFun e 1
  have hboth : Bits.flip (0 : Int) (Bits.flip (1 : Int) (fun _ => false : Bits 2)) = fun _ => true := by
    decide
  have hdiff : (fun _ => true : Bits 2) ≠ fun _ => false := by decide
  have hzero : z = 0 := by
    simpa [pauli, monomial_mul, monomial, hfirst.symm, hboth, hdiff] using hentry
  rw [hzero, norm_zero] at hz
  exact zero_ne_one hz

/-- The gate moves through both members, which are the same gadget, and is undone. -/
theorem shared_gadget_breaks_circuit : ∃ s, Reached sharedPool (.ofSeed 1) 0 [entangle] s ∧
    (s.pool.view 0).gadgets.map PauliGadget.paulis = [[.x, .x], [.x, .x]] ∧
    ¬ UpToPhase (CliffordGate.around (gathered [entangle]) (s.pool.unitary 2 AngleExpr.radians 0))
      (sharedPool.unitary 2 AngleExpr.radians 0) := by
  have hholds := sharedPool_holds
  have hvalue : ∀ i ∈ (sharedPool.shared 0).members, ∀ e, (sharedPool.gadget i).angle = .expr e →
      AngleExpr.ReadsSigns radians e := by
    intro i hi e he signs _
    rw [sharedPool_members i hi] at he
    cases he
    rw [scaleAll_angle]
    simp only [radians, Angle.scale, Rat.cast_mul, Rat.cast_intCast]
    ring
  have hturn : ∀ g : PauliGadget, g.angle = .expr (.angle ⟨1 / 4⟩) → g.unitary 2 radians =
      turnAbout (π / 4) (stringOperator 2 g.paulis) := by
    intro g hg
    rw [PauliGadget.unitary, hg]
    congr 1
    simp only [radians]
    push_cast
    ring
  have hletter : stringOperator 2 [.x, .i] = pauli 2 .x 0 ∧
      stringOperator 2 [.x, .x] = pauli 2 .x 0 * pauli 2 .x 1 := by
    constructor <;>
      simp [stringOperator, SignedPauli.operator, finRange_succ, letterOn, PauliVector.ofPaulis,
        pauliAt, Pauli.bit]
  have hbefore := hturn (sharedPool.gadget 0) rfl
  have hproper : ∀ g ∈ [entangle.gate], g.Proper := by
    simp [CliffordGate.Proper, gate, entangle, first_ne_second]
  have hthrough := (hholds.members 0 (by decide)).2.through_unitary (hvalue 0 (by decide)) hproper
  have hafter : around (gathered [entangle])
      ((sharedPool.gadget 0).unitary 2 radians) = turnAbout (π / 4) (pauli 2 .x 0) := by
    have hmoved := hturn ((sharedPool.gadget 0).through [entangle.gate]) (by cbv)
    have hletters : ((sharedPool.gadget 0).through [entangle.gate]).paulis = [.x, .i] := rfl
    rw [hthrough, hletters] at hmoved
    rw [around_eq, ← hletter.1]
    simpa [gathered, entangle, inOrder] using hmoved
  obtain ⟨s, hrun, hs⟩ := settleAll_gathered hholds (.ofSeed 1) [entangle]
  have haround := hs.around_unitary hholds hvalue
  refine ⟨s, ⟨s, hrun, rfl, rfl⟩, ?_, ?_⟩
  · have hmoved : (s.pool.gadget 0).paulis = [.x, .x] := by
      rw [hs.passed.gadget]
      rfl
    rw [view, hs.shared]
    simp [hmoved, sharedPool, shared]
  · have hmem : (sharedPool.shared 0).members = [0, 0] := rfl
    rw [haround, PauliPool.unitary, hmem]
    simp only [map_cons, map_nil, inOrder_cons, inOrder_nil, one_mul]
    rw [if_neg (by decide), hafter, hbefore, ← turnAbout_add (pauli_mul_self _ _)]
    refine fun h => not_upToPhase_turns ?_
    rwa [turnAbout_add pauli_pair_mul_self, ← hletter.2]

end PauliAnnealing

end GadgetCircuits
