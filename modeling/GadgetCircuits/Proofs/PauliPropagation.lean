import GadgetCircuits.Pauli.Pool
import GadgetCircuits.Proofs.CliffordGate

/-!
Gates moved through Pauli polynomials. Moving a gate through a gadget conjugates its string and
multiplies its angle by the sign. A polynomial that has the same gadget several times moves each gate
through it as many times; otherwise gates one after the other conjugate by their product.
-/

namespace GadgetCircuits

open List CliffordGate Update PauliPolynomial Value PauliGadget

variable {n : Nat}

namespace CliffordGate

variable (gs : List (CliffordGate (Fin n)))

def throughAll : List (CliffordGate (Fin n)) → List Pauli → List Int × List Pauli
  | [], ps => ([], ps)
  | g :: gs, ps => ((g.onPaulis ps).1 :: (throughAll gs (g.onPaulis ps).2).1,
      (throughAll gs (g.onPaulis ps).2).2)

lemma throughAll_signs (ps : List Pauli) : ∀ s ∈ (throughAll gs ps).1, s = 1 ∨ s = -1 := by
  induction gs generalizing ps with
  | nil => exact fun s hs => absurd hs not_mem_nil
  | cons g gs ih =>
    intro s hs
    rcases mem_cons.mp hs with rfl | hs
    · exact g.onPaulis_sign ps
    · exact ih _ s hs

lemma throughAll_length (ps : List Pauli) : (throughAll gs ps).2.length = ps.length := by
  induction gs generalizing ps with
  | nil => rfl
  | cons g gs ih => exact (ih _).trans (g.onPaulis_length ps)

lemma throughAll_append (gs hs : List (CliffordGate (Fin n))) (ps : List Pauli) :
    throughAll (gs ++ hs) ps = ((throughAll gs ps).1 ++ (throughAll hs (throughAll gs ps).2).1,
        (throughAll hs (throughAll gs ps).2).2) := by
  induction gs generalizing ps with
  | nil => rfl
  | cons g gs ih =>
    rw [cons_append, throughAll, ih]
    rfl

lemma prod_unitary_conjTranspose_mul {gs : List (CliffordGate (Fin n))}
    (hgs : ∀ g ∈ gs, g.Proper) :
    (gs.map unitary).prod.conjTranspose * (gs.map unitary).prod = 1 := by
  induction gs with
  | nil => simp
  | cons g gs ih =>
    have hg := unitary_conjTranspose_mul (hgs g mem_cons_self)
    have hrest := ih fun g' hg' => hgs g' (mem_cons_of_mem g hg')
    rw [map_cons, prod_cons, Matrix.conjTranspose_mul, mul_assoc, ← mul_assoc _ g.unitary,
      hg, one_mul, hrest]

lemma conj_throughAll {gs : List (CliffordGate (Fin n))} (hgs : ∀ g ∈ gs, g.Proper)
    {ps : List Pauli} (hps : ps.length = n) :
    (gs.map unitary).prod.conjTranspose * stringOperator n ps * (gs.map unitary).prod =
      (((throughAll gs ps).1.prod : Int) : ℂ) • stringOperator n (throughAll gs ps).2 := by
  induction gs generalizing ps with
  | nil => simp [throughAll]
  | cons g gs ih =>
    have hg := conj_string (hgs g mem_cons_self) hps
    have hrest := ih (fun g' hg' => hgs g' (mem_cons_of_mem g hg'))
      ((g.onPaulis_length ps).trans hps)
    calc ((g :: gs).map unitary).prod.conjTranspose * stringOperator n ps *
          ((g :: gs).map unitary).prod
        = (gs.map unitary).prod.conjTranspose *
            (g.unitary.conjTranspose * stringOperator n ps * g.unitary) * (gs.map unitary).prod := by
          rw [map_cons, prod_cons, Matrix.conjTranspose_mul]
          simp only [mul_assoc]
      _ = ((g.onPaulis ps).1 : ℂ) • ((gs.map unitary).prod.conjTranspose *
            stringOperator n (g.onPaulis ps).2 * (gs.map unitary).prod) := by
          rw [hg, mul_smul_comm, smul_mul_assoc]
      _ = _ := by
          rw [hrest, smul_smul, throughAll, prod_cons, Int.cast_mul]

end CliffordGate

def CliffordGate.item (g : CliffordGate (Fin n)) : CliffordItem :=
  .gate (g.map fun q : Fin n => .ofNat q)

namespace Value

variable {v : Value}

lemma rat?_of_same (h : v.same (.ofNat n)) : v.isNumber ∧ v.rat? = some (n : Rat) := by
  cases v with
  | int m =>
    have hm : m = n := by simpa [same, ofNat, int?] using h
    exact ⟨rfl, by simp [rat?, hm]⟩
  | bool b =>
    have hb : (if b then 1 else 0) = (n : Int) := by simpa [same, ofNat, int?] using h
    refine ⟨rfl, ?_⟩
    rw [rat?, ← Int.cast_natCast, ← hb]
    cases b <;> rfl
  | float x =>
    refine ⟨rfl, ?_⟩
    cases hx : Binary.toRat? x with
    | none => simp [same, ofNat, int?, hx] at h
    | some q =>
      have hq : q = n := by simpa [same, ofNat, int?, hx] using h
      rw [rat?, hx, hq]
  | _ => simp [same, ofNat, int?] at h

lemma int?_of_same (h : v.same (.ofNat n)) {m : Int} (hm : v.int? = some m) : m = n := by
  have hrat := (rat?_of_same h).2
  cases v with
  | int k =>
    cases hm
    rw [rat?] at hrat
    exact_mod_cast Option.some.inj hrat
  | bool b =>
    cases hm
    rw [rat?] at hrat
    cases b <;> exact_mod_cast Option.some.inj hrat
  | _ => cases hm

lemma le_of_same (h : v.same (.ofNat n)) {q : Nat} (hq : q < n) :
    le v (.ofNat q) = .ok false := by
  obtain ⟨hnumber, hrat⟩ := rat?_of_same h
  have hlt : ¬ (n : Rat) < q := by exact_mod_cast Nat.lt_asymm hq
  have hne : ¬ (n : Rat) = q := by exact_mod_cast hq.ne'
  have hself : (ofNat q).isNumber ∧ (ofNat q).rat? = some (q : Rat) :=
    ⟨rfl, by simp [ofNat, rat?]⟩
  have horder : order v (.ofNat q) = .ok (some .gt) := by
    simp [order, hnumber, hrat, hself, hlt, hne]
  rw [le, horder]
  rfl

end Value

lemma Value.le_ofNat {a b : Nat} (h : b < a) : le (.ofNat a) (.ofNat b) = .ok false :=
  le_of_same (by simp [same, ofNat, int?]) h

lemma CliffordGate.within_item (g : CliffordGate (Fin n)) :
    (g.map fun q : Fin n => ofNat q).within n = .ok (g.map Fin.val) := by
  cases g with
  | one g q =>
    simp only [map, within, Slice.position_ofNat q.isLt, ok_bind]
    rfl
  | two g c t =>
    simp only [map, within, le_ofNat c.isLt, le_ofNat t.isLt,
      Slice.position_ofNat c.isLt, Slice.position_ofNat t.isLt, ok_bind]
    rfl

/-- An angle multiplied by numbers one after the other. -/
def AngleExpr.scaleAll (e : AngleExpr) (signs : List Int) : AngleExpr :=
  signs.foldl (fun e (s : Int) => e.scaleBy s) e

lemma AngleExpr.scaleAll_angle (a : Angle) (signs : List Int) :
    (AngleExpr.angle a).scaleAll signs = .angle (a.scale (signs.prod : Int)) := by
  induction signs generalizing a with
  | nil => simp [scaleAll, Angle.scale]
  | cons s signs ih =>
    refine (ih (a.scale s)).trans ?_
    simp only [Angle.scale, prod_cons, Int.cast_mul, mul_assoc]

namespace PauliGadget

structure Fits (n : Nat) (p : PauliGadget) : Prop where
  length : p.paulis.length = n
  angle : ∃ e, p.angle = .expr e

def through (gs : List (CliffordGate (Fin n))) (p : PauliGadget) : PauliGadget where
  angle := match p.angle with
    | .expr e => .expr (e.scaleAll (throughAll gs p.paulis).1)
    | .plain v => .plain v
  paulis := (throughAll gs p.paulis).2

variable {p : PauliGadget}

lemma Fits.propagate_run (hp : p.Fits n) (g : CliffordGate (Fin n)) :
    (propagate g.item).runFrom p = (.ok (), p.through [g]) := by
  obtain ⟨hlength, e, he⟩ := hp
  obtain ⟨angle, ps⟩ := p
  subst he
  simp only [propagate, runFrom_bind, runFrom_get, runFrom_lift,
    item, CliffordItem.ruled]
  rw [show size ⟨AngleOperand.expr e, ps⟩ = n from hlength, g.within_item]
  rfl

lemma through_nil (p : PauliGadget) : p.through ([] : List (CliffordGate (Fin n))) = p := by
  obtain ⟨angle, ps⟩ := p
  cases angle <;> rfl

lemma through_append (gs hs : List (CliffordGate (Fin n))) (p : PauliGadget) :
    p.through (gs ++ hs) = (p.through gs).through hs := by
  obtain ⟨angle, ps⟩ := p
  cases angle with
  | expr e => simp [through, throughAll_append, AngleExpr.scaleAll]
  | plain v => simp [through, throughAll_append]

lemma through_angle {e : AngleExpr} (he : p.angle = .expr e) (gs : List (CliffordGate (Fin n))) :
    (p.through gs).angle = .expr (e.scaleAll (throughAll gs p.paulis).1) := by
  rw [through, he]

lemma Fits.through (hp : p.Fits n) (gs : List (CliffordGate (Fin n))) : (p.through gs).Fits n := by
  obtain ⟨hlength, e, he⟩ := hp
  exact ⟨(throughAll_length gs p.paulis).trans hlength, _, through_angle he gs⟩

end PauliGadget

namespace PauliPool

variable {pool pool' : PauliPool}

/-- The gadgets after gates have moved through them, for each gadget its own. -/
structure Passed (pool pool' : PauliPool) (trail : Nat → List (CliffordGate (Fin n))) : Prop where
  size : pool'.gadgets.size = pool.gadgets.size
  gadget : ∀ i, pool'.gadget i = (pool.gadget i).through (trail i)

lemma Passed.refl (pool : PauliPool) : Passed (n := n) pool pool fun _ => [] :=
  ⟨rfl, fun _ => (through_nil _).symm⟩

lemma Passed.trans {pool'' : PauliPool} {trail trail' : Nat → List (CliffordGate (Fin n))}
    (h : Passed pool pool' trail) (h' : Passed pool' pool'' trail') :
    Passed pool pool'' fun i => trail i ++ trail' i := by
  refine ⟨h'.size.trans h.size, fun i => ?_⟩
  rw [h'.gadget, h.gadget, through_append]

lemma propagateMember_finishes {i : Nat} (hi : i < pool.gadgets.size)
    (hfits : (pool.gadget i).Fits n) (g : CliffordGate (Fin n)) :
    (propagateMember g.item i).Finishes pool fun _ pool' =>
      pool'.polynomials = pool.polynomials ∧ Passed pool pool' fun j => if j = i then [g] else [] := by
  have hrun := hfits.propagate_run g
  refine finishes_bind_get ?_
  rw [hrun]
  refine finishes_bind_of_run (runFrom_set _ _) (finishes_of_run rfl ⟨rfl, ?_⟩)
  refine ⟨Array.size_setIfInBounds, fun j => ?_⟩
  rw [gadget, Array.getElem?_setIfInBounds]
  by_cases hj : j = i
  · simp [hj, hi]
  · simp [hj, Ne.symm hj, through_nil, gadget]

lemma checkLength_eq {size : Value} {p : PauliGadget} (hsize : size.same (.ofNat n))
    (hp : p.Fits n) : checkLength size p = .ok () := by
  rw [checkLength, PauliGadget.size, hp.length, if_pos hsize]

lemma members_finishes {size : Value} (hsize : size.same (.ofNat n))
    (g : CliffordGate (Fin n)) {members : List Nat} (hpool : ∀ i ∈ members,
      i < pool.gadgets.size ∧ (pool.gadget i).Fits n) :
    Update.Finishes (members.forM fun i => do
      propagateMember g.item i
      Update.check (checkLength size ((← get).gadget i))) pool
      fun _ pool' => pool'.polynomials = pool.polynomials ∧
        Passed pool pool' fun i => replicate (members.count i) g := by
  induction members generalizing pool with
  | nil => exact finishes_of_run rfl ⟨rfl, Passed.refl pool⟩
  | cons i members ih =>
    obtain ⟨hi, hfits⟩ := hpool i mem_cons_self
    have hstep : Update.Finishes (do
        propagateMember g.item i
        Update.check (checkLength size ((← get).gadget i))) pool
        fun _ pool' => pool'.polynomials = pool.polynomials ∧
          Passed pool pool' fun j => if j = i then [g] else [] := by
      refine (propagateMember_finishes hi hfits g).bind fun _ pool' h => ?_
      refine finishes_bind_get (finishes_of_run (a := ()) ?_ h)
      have hcheck : checkLength size (pool'.gadget i) = .ok () := by
        apply checkLength_eq hsize
        rw [h.2.gadget]
        exact hfits.through _
      rw [hcheck]
      rfl
    refine hstep.bind fun _ pool₁ h₁ => ?_
    refine (ih fun j hj => ?_).mono fun _ pool₂ h₂ => ⟨h₂.1.trans h₁.1, ?_⟩
    · obtain ⟨hj, hfits⟩ := hpool j (mem_cons_of_mem i hj)
      rw [h₁.2.size, h₁.2.gadget]
      exact ⟨hj, hfits.through _⟩
    · have htrail : ∀ j, replicate ((i :: members).count j) g =
          (if j = i then [g] else []) ++ replicate (members.count j) g := by
        intro j
        by_cases hj : j = i
        · rw [hj, count_cons_self, if_pos rfl]
          rfl
        · rw [count_cons_of_ne (Ne.symm hj), if_neg hj]
          rfl
      simp only [htrail]
      exact h₁.2.trans h₂.2

/-- A polynomial on `n` qubits, whose gadgets have expressions as angles. -/
structure Holds (n : Nat) (pool : PauliPool) (p : Nat) : Prop where
  size : (pool.shared p).size.same (.ofNat n) = true
  members : ∀ i ∈ (pool.shared p).members, i < pool.gadgets.size ∧ (pool.gadget i).Fits n

lemma Holds.lt {p : Nat} (hp : pool.Holds n p) : p < pool.polynomials.size := by
  by_contra hge
  have hsize := hp.size
  rw [shared, Array.getElem?_eq_none (not_lt.mp hge)] at hsize
  simp [Value.same, Value.ofNat, Value.int?] at hsize

lemma propagate_pushes {p : Nat} (hp : pool.Holds n p) (g : CliffordGate (Fin n)) :
    (propagate p g.item).Finishes pool fun q pool' => q = pool.polynomials.size ∧
      pool'.polynomials = pool.polynomials.push (pool.shared p) ∧
      Passed pool pool' fun i => replicate ((pool.shared p).members.count i) g := by
  refine finishes_bind_get ?_
  refine (members_finishes hp.size g hp.members).bind fun _ pool' h => ?_
  refine finishes_of_run rfl ⟨?_, ?_, ⟨h.2.size, h.2.gadget⟩⟩
  · rw [h.1]
  · exact congrArg (Array.push · _) h.1

lemma propagate_finishes {p : Nat} (hp : pool.Holds n p) (g : CliffordGate (Fin n)) :
    (propagate p g.item).Finishes pool fun q pool' => pool'.shared q = pool.shared p ∧
      Passed pool pool' fun i => replicate ((pool.shared p).members.count i) g := by
  refine (propagate_pushes hp g).mono fun q pool' h => ⟨?_, h.2.2⟩
  simp [shared, h.1, h.2.1]

def propagateAll (gates : List (CliffordGate (Fin n))) (p : Nat) : Update PauliPool Nat :=
  gates.foldlM (fun p g => propagate p g.item) p

lemma propagateAll_finishes {p : Nat} (hp : pool.Holds n p) (gates : List (CliffordGate (Fin n))) :
    (propagateAll gates p).Finishes pool fun q pool' => pool'.shared q = pool.shared p ∧
      Passed pool pool' fun i =>
        gates.flatMap fun g => replicate ((pool.shared p).members.count i) g := by
  induction gates generalizing pool p with
  | nil => exact finishes_of_run rfl ⟨rfl, Passed.refl pool⟩
  | cons g gates ih =>
    rw [propagateAll, foldlM_cons]
    refine (propagate_finishes hp g).bind fun q pool₁ h₁ => ?_
    have hq : pool₁.Holds n q := by
      refine ⟨h₁.1 ▸ hp.size, fun i hi => ?_⟩
      rw [h₁.1] at hi
      rw [h₁.2.size, h₁.2.gadget]
      exact ⟨(hp.members i hi).1, (hp.members i hi).2.through _⟩
    refine (ih hq).mono fun q' pool₂ h₂ => ⟨h₂.1.trans h₁.1, ?_⟩
    have htrail := h₁.2.trans h₂.2
    rw [h₁.1] at htrail
    exact htrail

lemma prod_repeated (gates : List (CliffordGate (Fin n))) (m : Nat) :
    ((gates.flatMap fun g => replicate m g).map CliffordGate.unitary).prod =
      (gates.map fun g => g.unitary ^ m).prod := by
  induction gates with
  | nil => rfl
  | cons g gates ih =>
    simp_all

lemma commute_conj {G A B : Operator n} (hG : G.conjTranspose * G = 1) :
    Commute (G.conjTranspose * A * G) (G.conjTranspose * B * G) ↔ Commute A B := by
  have hG' : G * G.conjTranspose = 1 := mul_eq_one_comm.mp hG
  have hprod : ∀ A B : Operator n, G.conjTranspose * A * G * (G.conjTranspose * B * G) =
      G.conjTranspose * (A * B) * G := by
    intro A B
    calc G.conjTranspose * A * G * (G.conjTranspose * B * G)
        = G.conjTranspose * A * (G * G.conjTranspose) * (B * G) := by simp only [mul_assoc]
      _ = _ := by
        rw [hG', mul_one]
        simp only [mul_assoc]
  unfold Commute SemiconjBy
  rw [hprod, hprod]
  constructor
  · intro h
    have hback : ∀ C : Operator n, G * (G.conjTranspose * C * G) * G.conjTranspose = C := by grind
    rw [← hback (A * B), h, hback]
  · intro h
    rw [h]

lemma prod_signs {signs : List Int} (h : ∀ s ∈ signs, s = 1 ∨ s = -1) :
    signs.prod = 1 ∨ signs.prod = -1 := by
  induction signs with
  | nil => exact Or.inl rfl
  | cons s signs ih =>
    rw [prod_cons]
    rcases h s mem_cons_self with rfl | rfl
    · rcases ih fun s hs => h s (mem_cons_of_mem _ hs) with e | e <;> simp [e]
    · rcases ih fun s hs => h s (mem_cons_of_mem _ hs) with e | e <;> simp [e]

lemma commute_signs_smul {s t : Int} (hs : s = 1 ∨ s = -1) (ht : t = 1 ∨ t = -1)
    {A B : Operator n} : Commute ((s : ℂ) • A) ((t : ℂ) • B) ↔ Commute A B := by
  rcases hs with rfl | rfl <;> rcases ht with rfl | rfl <;> simp

/-- Gates that are moved through a polynomial conjugate the string of each gadget by their product, the
first gate on the left, and multiply its angle by the signs, as many times as it is listed. Gadgets that are
listed equally often commute afterwards if they did before. -/
theorem propagateAll_conjugates {p : Nat} (hp : pool.Holds n p)
    {gates : List (CliffordGate (Fin n))} (hgates : ∀ g ∈ gates, g.Proper) :
    ∃ q pool', (propagateAll gates p).runFrom pool = (.ok q, pool') ∧
      pool'.shared q = pool.shared p ∧
      (∀ i ∈ (pool.shared p).members, ∃ (G : Operator n) (signs : List Int),
        G = (gates.map fun g => g.unitary ^ (pool.shared p).members.count i).prod ∧
        (∀ s ∈ signs, s = 1 ∨ s = -1) ∧
        G.conjTranspose * stringOperator n (pool.gadget i).paulis * G =
          ((signs.prod : Int) : ℂ) • stringOperator n (pool'.gadget i).paulis ∧
        (∀ e, (pool.gadget i).angle = .expr e →
          (pool'.gadget i).angle = .expr (e.scaleAll signs)) ∧
        ∀ a, (pool.gadget i).angle = .expr (.angle a) →
          (pool'.gadget i).angle = .expr (.angle (a.scale (signs.prod : Int)))) ∧
      ∀ i ∈ (pool.shared p).members, ∀ j ∈ (pool.shared p).members,
        (pool.shared p).members.count i = (pool.shared p).members.count j →
        (Commute (stringOperator n (pool'.gadget i).paulis) (stringOperator n (pool'.gadget j).paulis) ↔
          Commute (stringOperator n (pool.gadget i).paulis)
            (stringOperator n (pool.gadget j).paulis)) := by
  obtain ⟨q, pool', hrun, hshared, hpassed⟩ := propagateAll_finishes hp gates
  have hproper : ∀ m, ∀ g ∈ gates.flatMap fun g => List.replicate m g, g.Proper := by
    intro m g hg
    obtain ⟨g', hg', hmem⟩ := mem_flatMap.mp hg
    rw [eq_of_mem_replicate hmem]
    exact hgates g' hg'
  have hconj : ∀ i ∈ (pool.shared p).members, ∃ (G : Operator n) (signs : List Int),
      G = (gates.map fun g => g.unitary ^ (pool.shared p).members.count i).prod ∧
      G.conjTranspose * G = 1 ∧ (∀ s ∈ signs, s = 1 ∨ s = -1) ∧
      G.conjTranspose * stringOperator n (pool.gadget i).paulis * G =
        ((signs.prod : Int) : ℂ) • stringOperator n (pool'.gadget i).paulis ∧
      ∀ e, (pool.gadget i).angle = .expr e → (pool'.gadget i).angle = .expr (e.scaleAll signs) := by
    intro i hi
    have hrepeated := hproper ((pool.shared p).members.count i)
    refine ⟨_, (throughAll (gates.flatMap fun g =>
      List.replicate ((pool.shared p).members.count i) g) (pool.gadget i).paulis).1, rfl, ?_,
      throughAll_signs _ _, ?_, ?_⟩
    · rw [← prod_repeated]
      exact prod_unitary_conjTranspose_mul hrepeated
    · rw [← prod_repeated, hpassed.gadget]
      exact conj_throughAll hrepeated (hp.members i hi).2.length
    · intro e he
      rw [hpassed.gadget]
      exact through_angle he _
  refine ⟨q, pool', hrun, hshared, fun i hi => ?_, fun i hi j hj hcount => ?_⟩
  · obtain ⟨G, signs, hG, -, hsigns, hstring, hangle⟩ := hconj i hi
    refine ⟨G, signs, hG, hsigns, hstring, hangle, fun a ha => ?_⟩
    rw [hangle _ ha, AngleExpr.scaleAll_angle]
  · obtain ⟨G, signs, hG, hunitary, hsigns, hstring, -⟩ := hconj i hi
    obtain ⟨G', signs', hG', -, hsigns', hstring', -⟩ := hconj j hj
    have hsame : G' = G := by rw [hG, hG', hcount]
    rw [hsame] at hstring'
    rw [← commute_signs_smul (prod_signs hsigns) (prod_signs hsigns'), ← hstring, ← hstring']
    exact commute_conj hunitary

def twoGadgets : PauliPool where
  gadgets := #[⟨.expr (.angle ⟨1 / 4⟩), [.x, .z]⟩, ⟨.expr (.var ⟨0, "t", "t"⟩), [.y, .i]⟩]
  polynomials := #[⟨.ofNat 2, [0, 1, 0]⟩]

def sixGates : List (CliffordGate (Fin 2)) :=
  [.one .h 0, .two .cx 0 1, .one .s 1, .two .cy 1 0, .one .v 0, .two .cz 0 1]

theorem twoGadgets_propagateAll :
    twoGadgets.Holds 2 0 ∧ (∀ g ∈ sixGates, g.Proper) ∧
    ∃ q pool', (propagateAll sixGates 0).runFrom twoGadgets = (.ok q, pool') ∧
      pool'.shared q = twoGadgets.shared 0 ∧ ∃ (G : Operator 2) (signs : List Int),
        G = (sixGates.map fun g => g.unitary ^ 1).prod ∧
        G.conjTranspose * stringOperator 2 [.y, .i] * G =
          ((signs.prod : Int) : ℂ) • stringOperator 2 (pool'.gadget 1).paulis := by
  have hholds : twoGadgets.Holds 2 0 := by
    refine ⟨by cbv, fun i hi => ?_⟩
    have hmem : i = 0 ∨ i = 1 ∨ i = 0 := by simpa [twoGadgets, shared] using hi
    rcases hmem with rfl | rfl | rfl
    · exact ⟨by decide, rfl, _, rfl⟩
    · exact ⟨by decide, rfl, _, rfl⟩
    · exact ⟨by decide, rfl, _, rfl⟩
  have hproper : ∀ g ∈ sixGates, g.Proper := by
    simp [sixGates, CliffordGate.Proper]
  obtain ⟨q, pool', hrun, hshared, hmembers, -⟩ := propagateAll_conjugates hholds hproper
  obtain ⟨G, signs, hG, -, hstring, -⟩ := hmembers 1 (by decide)
  exact ⟨hholds, hproper, q, pool', hrun, hshared, G, signs, hG, hstring⟩

/-- A gadget X is appended twice to a second polynomial, through which H is then moved. -/
def hadamardThroughShared : Update PauliPool Nat := do
  let a ← add ⟨.ofNat 1, []⟩
  let b ← add ⟨.ofNat 1, []⟩
  append b ⟨.expr (.angle ⟨1 / 4⟩), [.x]⟩
  compose a b
  compose a b
  propagate a (item (n := 1) (.one .h 0))

/-- Both members are one gadget, which passes the gate twice and is X again. -/
theorem shared_gadget_moved_twice :
    (hadamardThroughShared.runFrom {}).1 = .ok 2 ∧
    ((hadamardThroughShared.runFrom {}).2.view 2).gadgets.map PauliGadget.paulis = [[.x], [.x]] ∧
    (hadamard (0 : Fin 1)).conjTranspose * stringOperator 1 [.x] * hadamard 0 =
      stringOperator 1 [.z] := by
  refine ⟨by cbv, by cbv, ?_⟩
  have hlength : [Pauli.x].length = 1 := rfl
  have hconj := conj_string (g := .one .h (0 : Fin 1)) trivial hlength
  have himage : onPaulis (.one .h (0 : Fin 1)) [.x] = (1, [.z]) := rfl
  simpa [CliffordGate.unitary, LocalClifford.unitary, himage] using hconj

/-- Multiplication by a sign drops the constant of a combination. -/
example : AngleExpr.scaleBy (.sum [(.var ⟨0, "x", "x"⟩, 1)] ⟨1 / 4⟩) 1 =
    .sum [(.var ⟨0, "x", "x"⟩, 1)] Angle.zero := by
  cbv

end PauliPool

end GadgetCircuits
