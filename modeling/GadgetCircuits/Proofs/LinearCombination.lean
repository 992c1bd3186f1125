import Mathlib
import GadgetCircuits.Angle.Operand

/-!
Values of angle expressions, and linear combinations of them. Coefficients of one variable are added up, and
angles go into the constant part. Of a combination among the operands only the terms are taken over: its
constant part is lost, also where an expression is negated, multiplied or divided.
-/

open List GadgetCircuits.Angle

namespace GadgetCircuits.AngleExpr

mutual

noncomputable def valueAt (env : Nat → ℝ) : AngleExpr → ℝ
  | .angle a => a.halfTurns
  | .var v => env v.id
  | .sum ts k => termsAt env ts + k.halfTurns
  | .mod e m => valueAt env e - valueAt env m * ⌊valueAt env e / valueAt env m⌋

noncomputable def termsAt (env : Nat → ℝ) : List (AngleExpr × Rat) → ℝ
  | [] => 0
  | (e, c) :: ts => c * valueAt env e + termsAt env ts

end

variable {x : Nat → ℝ} {ts us : List (AngleExpr × Rat)} {e : AngleExpr} {c : Rat}

lemma termsAt_eq (ts : List (AngleExpr × Rat)) :
    termsAt x ts = (ts.map fun t => t.2 * valueAt x t.1).sum := by
  induction ts with
  | nil => simp [termsAt]
  | cons t ts ih => simp [termsAt, ih]

lemma termsAt_perm (h : ts.Perm us) : termsAt x ts = termsAt x us := by
  rw [termsAt_eq, termsAt_eq]
  exact (h.map _).sum_eq

/-- What is made of angles and variables by linear combinations. -/
inductive Linear : AngleExpr → Prop
  | angle (a : Angle) : Linear (.angle a)
  | var (v : AngleVar) : Linear (.var v)
  | combine {ts : List (AngleExpr × Rat)} (h : ∀ t ∈ ts, Linear t.1) : Linear (combine ts)

/-- The constant part of a combination, which another combination does not take over. -/
def dropped : AngleExpr → Rat
  | .sum _ k => k.halfTurns
  | _ => 0

def OverVariables (ts : List (AngleExpr × Rat)) : Prop :=
  ∀ t ∈ ts, ∃ v, t.1 = .var v

def Flat : AngleExpr → Prop
  | .sum ts _ => OverVariables ts
  | .mod _ _ => False
  | _ => True

noncomputable def Pending.valueAt (x : Nat → ℝ) (p : Pending) : ℝ :=
  termsAt x p.terms + p.const.halfTurns

lemma termsAt_addTerm (h : OverVariables ts) (v : AngleVar) :
    OverVariables (addTerm ts (.var v) c) ∧
      termsAt x (addTerm ts (.var v) c) = termsAt x ts + c * x v.id := by
  induction ts with
  | nil => simp [addTerm, OverVariables, termsAt, valueAt]
  | cons t ts ih =>
    obtain ⟨⟨w, hw⟩, hts⟩ := forall_mem_cons.mp h
    rw [addTerm]
    split
    · rename_i hsame
      have hid : w.id = v.id := by simpa [hw, same] using hsame
      refine ⟨forall_mem_cons.mpr ⟨⟨w, hw⟩, hts⟩, ?_⟩
      simp only [termsAt, hw, valueAt, hid, Rat.cast_add]
      ring
    · obtain ⟨hover, hvalue⟩ := ih hts
      exact ⟨forall_mem_cons.mpr ⟨⟨w, hw⟩, hover⟩, by rw [termsAt, termsAt, hvalue, add_assoc]⟩

lemma termsAt_foldl (hts : OverVariables ts) (hus : OverVariables us) :
    OverVariables (us.foldl (fun acc t => addTerm acc t.1 (c * t.2)) ts) ∧
      termsAt x (us.foldl (fun acc t => addTerm acc t.1 (c * t.2)) ts) =
        termsAt x ts + c * termsAt x us := by
  induction us generalizing ts with
  | nil => simpa [termsAt] using hts
  | cons u us ih =>
    obtain ⟨⟨v, hv⟩, hus⟩ := forall_mem_cons.mp hus
    obtain ⟨hover, hvalue⟩ := termsAt_addTerm (x := x) (c := c * u.2) hts v
    rw [← hv] at hover hvalue
    rw [foldl_cons]
    refine ⟨(ih hover hus).1, (ih hover hus).2.trans ?_⟩
    rw [hvalue, termsAt, hv, valueAt, Rat.cast_mul]
    ring

lemma Pending.add_value {p : Pending} (hp : OverVariables p.terms) (he : e.Flat) :
    OverVariables (p.add e c).terms ∧
      (p.add e c).valueAt x = p.valueAt x + c * (e.valueAt x - e.dropped) := by
  cases e with
  | angle a =>
    refine ⟨hp, ?_⟩
    simp only [Pending.add, Pending.valueAt, Angle.add, Angle.scale, AngleExpr.valueAt, dropped]
    push_cast
    ring
  | var v =>
    rw [Pending.add]
    · split
      · rename_i hc
        exact ⟨hp, by simp [hc]⟩
      · obtain ⟨hover, hvalue⟩ := termsAt_addTerm (x := x) (c := c) hp v
        refine ⟨hover, ?_⟩
        simp only [Pending.valueAt, hvalue, AngleExpr.valueAt, dropped]
        push_cast
        ring
    · exact fun _ => AngleExpr.noConfusion
    · exact fun _ _ => AngleExpr.noConfusion
  | sum us k =>
    obtain ⟨hover, hvalue⟩ := termsAt_foldl (x := x) (c := c) hp he
    refine ⟨hover, ?_⟩
    simp only [Pending.add, Pending.valueAt, hvalue, AngleExpr.valueAt, dropped]
    ring
  | mod e m => exact he.elim

lemma termsAt_liveTerms (h : OverVariables ts) : termsAt x (liveTerms ts) = termsAt x ts := by
  induction ts with
  | nil => rfl
  | cons t ts ih =>
    obtain ⟨⟨v, hv⟩, hts⟩ := forall_mem_cons.mp h
    have htail : termsAt x (liveTerms ts) = termsAt x ts := ih hts
    rw [liveTerms, filter_cons]
    split
    · rw [termsAt, ← liveTerms, htail, termsAt]
    · rename_i hdead
      have hzero : t.2 = 0 := by simpa [hv, isZero] using hdead
      rw [← liveTerms, htail, termsAt, hzero, Rat.cast_zero, zero_mul, zero_add]

lemma Pending.finish_value {p : Pending} (hp : OverVariables p.terms) :
    p.finish.Flat ∧ p.finish.valueAt x = p.valueAt x := by
  have hperm := mergeSort_perm p.terms fun s t => decide (t.2 ≤ s.2)
  have hsorted : OverVariables (p.terms.mergeSort fun s t => decide (t.2 ≤ s.2)) :=
    fun t ht => hp t (hperm.subset ht)
  have hvalue := (termsAt_liveTerms (x := x) hsorted).trans (termsAt_perm hperm)
  rw [Pending.finish, Pending.valueAt, ← hvalue]
  split
  · rename_i hnil
    rw [List.isEmpty_iff.mp hnil]
    exact ⟨trivial, by simp [AngleExpr.valueAt, termsAt]⟩
  · exact ⟨fun t ht => hsorted t (mem_of_mem_filter ht), rfl⟩

lemma combine_value (h : ∀ t ∈ ts, t.1.Flat) : (combine ts).Flat ∧ valueAt x (combine ts) =
      (ts.map fun t => t.2 * (valueAt x t.1 - t.1.dropped)).sum := by
  have hfold : ∀ p : Pending, OverVariables p.terms →
      OverVariables (ts.foldl (fun (p : Pending) t => p.add t.1 t.2) p).terms ∧
        (ts.foldl (fun (p : Pending) t => p.add t.1 t.2) p).valueAt x =
          p.valueAt x + (ts.map fun t => t.2 * (valueAt x t.1 - t.1.dropped)).sum := by
    induction ts with
    | nil => exact fun p hp => ⟨hp, by simp⟩
    | cons t ts ih =>
      intro p hp
      obtain ⟨ht, hts⟩ := forall_mem_cons.mp h
      obtain ⟨hover, hvalue⟩ := Pending.add_value (x := x) (c := t.2) hp ht
      grind
  obtain ⟨hover, hvalue⟩ := hfold {} fun _ ht => absurd ht not_mem_nil
  obtain ⟨hflat, hfinish⟩ := Pending.finish_value (x := x) hover
  refine ⟨hflat, hfinish.trans (hvalue.trans ?_)⟩
  simp [Pending.valueAt, termsAt, Angle.zero]

lemma Linear.flat (h : e.Linear) : e.Flat := by
  induction h with
  | angle | var => trivial
  | combine _ ih => exact (combine_value (x := fun _ => 0) ih).1

lemma scaleBy_value (h : e.Flat) (c : Rat) :
    valueAt x (e.scaleBy c) = c * (valueAt x e - e.dropped) := by
  have hsingle : ∀ t ∈ [(e, c)], t.1.Flat := by simpa using h
  have hcombine : valueAt x (combine [(e, c)]) = c * (valueAt x e - e.dropped) := by
    simpa using (combine_value (x := x) hsingle).2
  cases e with
  | angle a => simp [scaleBy, valueAt, Angle.scale, dropped, mul_comm]
  | _ => exact hcombine

lemma Pending.finish_dropped {p : Pending} (h : p.const = Angle.zero) : p.finish.dropped = 0 := by
  rw [Pending.finish]
  split
  · rfl
  · rw [dropped, h, Angle.zero]

/-- What has been multiplied once has no constant part left to lose. -/
lemma scaleBy_flat (h : e.Flat) (c : Rat) : (e.scaleBy c).Flat ∧ (e.scaleBy c).dropped = 0 := by
  have hsingle : ∀ t ∈ [(e, c)], t.1.Flat := by simpa using h
  have hflat := (combine_value (x := fun _ => 0) hsingle).1
  cases e with
  | angle a => exact ⟨trivial, rfl⟩
  | var v =>
    refine ⟨hflat, Pending.finish_dropped ?_⟩
    by_cases hc : c = 0 <;> simp [Pending.add, hc]
  | sum us k => exact ⟨hflat, Pending.finish_dropped rfl⟩
  | mod f m => exact h.elim

lemma foldlM_exprs {f : Pending × List (Value × Rat) → AngleOperand × Rat →
      Except Error (Pending × List (Value × Rat))}
    (hf : ∀ p e c, f (p, []) (.expr e, c) = .ok (p.add e c, [])) (es : List AngleExpr) (cs : List Rat)
    (p : Pending) : ((es.map .expr).zip cs).foldlM f (p, []) =
      .ok ((es.zip cs).foldl (fun (p : Pending) t => p.add t.1 t.2) p, []) := by
  induction es generalizing cs p with
  | nil => rfl
  | cons e es ih =>
    cases cs with
    | nil => rfl
    | cons c cs =>
      rw [map_cons, zip_cons_cons, foldlM_cons, hf]
      exact ih cs _

lemma combineExact_exprs {es : List AngleExpr} {cs : List Rat} (hlen : cs.length = es.length) :
    AngleOperand.combineExact (es.map .expr) cs = .ok (.expr (combine (es.zip cs))) := by
  rw [AngleOperand.combineExact, if_neg (by simpa using hlen), foldlM_exprs fun _ _ _ => rfl]
  rfl

/-- The value of a combination is the combination of the values less the constant parts of its
operands, and so are those of products and quotients. -/
theorem combineExact_value {es : List AngleExpr} {cs : List Rat} (hes : ∀ e ∈ es, e.Linear)
    (hlen : cs.length = es.length) (x : Nat → ℝ) :
    (∃ e, AngleOperand.combineExact (es.map .expr) cs = .ok (.expr e) ∧ e.Linear ∧
      valueAt x e = ((es.zip cs).map fun t => t.2 * (valueAt x t.1 - t.1.dropped)).sum ∧
      ((∃ m : ℤ, valueAt x e = ((es.zip cs).map fun t => t.2 * valueAt x t.1).sum + 2 * m) ↔
        ∃ m : ℤ, ((es.zip cs).map fun t => t.2 * t.1.dropped).sum = 2 * m)) ∧
    ∀ e ∈ es, valueAt x e.neg = -(valueAt x e - e.dropped) ∧ ∀ n : ℤ,
      valueAt x (e.scaleBy n) = n * (valueAt x e - e.dropped) ∧
      (n ≠ 0 → ∃ q, e.divInt n = .ok q ∧ valueAt x q = (valueAt x e - e.dropped) / n) := by
  have hlinear : ∀ t ∈ es.zip cs, t.1.Linear := fun t ht => hes _ (of_mem_zip ht).1
  have hvalue := (combine_value (x := x) fun t ht => (hlinear t ht).flat).2
  refine ⟨⟨_, combineExact_exprs hlen, .combine hlinear, hvalue, ?_⟩, fun e he => ⟨?_, fun n => ⟨?_, ?_⟩⟩⟩
  · have hsplit : ((es.zip cs).map fun t => t.2 * (valueAt x t.1 - t.1.dropped)).sum =
        ((es.zip cs).map fun t => t.2 * valueAt x t.1).sum -
          (((es.zip cs).map fun t => t.2 * t.1.dropped).sum : ℚ) := by
      induction es.zip cs with
      | nil => simp
      | cons t ts ih =>
        simp only [map_cons, sum_cons, ih]
        push_cast
        ring
    rw [hvalue, hsplit]
    constructor
    · rintro ⟨m, hm⟩
      refine ⟨-m, ?_⟩
      have hcast : ((((es.zip cs).map fun t => t.2 * t.1.dropped).sum : ℚ) : ℝ) = 2 * (-m : ℤ) := by
        rw [Int.cast_neg]
        linarith
      exact_mod_cast hcast
    · rintro ⟨m, hm⟩
      refine ⟨-m, ?_⟩
      rw [hm]
      push_cast
      ring
  · have hneg := scaleBy_value (x := x) (hes e he).flat (-1)
    cases e with
    | angle a => simp [neg, valueAt, Angle.neg, dropped]
    | _ => simpa [neg] using hneg
  · simpa using scaleBy_value (x := x) (hes e he).flat n
  · intro hn
    refine ⟨_, if_neg hn, (scaleBy_value (hes e he).flat _).trans ?_⟩
    push_cast
    ring

def shifted : AngleExpr :=
  .sum [(.var ⟨0, "a", "a"⟩, 1)] ⟨1 / 2⟩

lemma shifted_linear : shifted.Linear := by
  have hshifted : shifted = combine [(.var ⟨0, "a", "a"⟩, 1), (.angle ⟨1 / 2⟩, 1)] := by
    simp [shifted, combine, Pending.add, addTerm, Pending.finish, liveTerms, isZero, Angle.add, Angle.scale,
      Angle.zero]
  rw [hshifted]
  exact .combine (by simp [Linear.var, Linear.angle])

theorem combineExact_shifted_value : shifted.Linear ∧ ∃ e,
    AngleOperand.combineExact [.expr shifted, .expr (.angle ⟨1⟩)] [1 / 3, 2] = .ok (.expr e) ∧
      e.valueAt (fun _ => 3) = 3 := by
  have hlinear : ∀ e ∈ [shifted, .angle ⟨1⟩], e.Linear := by simp [shifted_linear, Linear.angle]
  have hlen : ([1 / 3, 2] : List Rat).length = [shifted, .angle ⟨1⟩].length := rfl
  obtain ⟨⟨e, he, -, hvalue, -⟩, -⟩ := combineExact_value hlinear hlen fun _ => 3
  refine ⟨shifted_linear, e, he, hvalue.trans ?_⟩
  norm_num [shifted, valueAt, termsAt, dropped]

theorem doubled_loses_constant : ∃ e, AngleOperand.combineExact [.expr shifted] [2] = .ok (.expr e) ∧
    ¬ ∃ m : ℤ, e.valueAt (fun _ => 0) = 2 * shifted.valueAt (fun _ => 0) + 2 * m := by
  have hlen : ([2] : List Rat).length = [shifted].length := rfl
  refine ⟨_, combineExact_exprs hlen, ?_⟩
  have hflat : ∀ t ∈ [(shifted, (2 : Rat))], t.1.Flat := by simpa using shifted_linear.flat
  have hvalue := (combine_value (x := fun _ => 0) hflat).2
  rintro ⟨m, hm⟩
  rw [zip_cons_cons, zip_nil_left, hvalue] at hm
  norm_num [shifted, valueAt, termsAt, dropped] at hm
  have hodd : (1 + 2 * m : ℤ) = 0 := by exact_mod_cast hm.symm
  omega

end GadgetCircuits.AngleExpr
