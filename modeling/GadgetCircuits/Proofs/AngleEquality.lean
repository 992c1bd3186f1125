import GadgetCircuits.Phase.Gadget
import GadgetCircuits.Proofs.FullTurns
import GadgetCircuits.Proofs.Prelude

/-!
Equality and hashes of angle expressions. Two expressions are one key if they agree up to full turns
and labels, and combinations are equal up to the order of their terms, which their hashes depend on.
Terms are kept by descending coefficient, so without ties there is only one order.
-/

namespace GadgetCircuits

open List

namespace AngleExpr

mutual

/-- The expression with reduced angles and without labels, which is what makes it one key. -/
def canonical : AngleExpr → AngleExpr
  | .angle a => .angle a.normalize
  | .var v => .var ⟨v.id, "", ""⟩
  | .sum ts k => .sum (canonicalTerms ts) k.normalize
  | .mod e m => .mod e.canonical m.canonical

def canonicalTerms : List (AngleExpr × Rat) → List (AngleExpr × Rat)
  | [] => []
  | (e, c) :: ts => (e.canonical, c) :: canonicalTerms ts

end

mutual

lemma same_iff : ∀ e f : AngleExpr, e.same f ↔ e.canonical = f.canonical
  | .angle a, f => by cases f <;> simp [same, canonical, Angle.same, Angle.normalize]
  | .var v, f => by cases f <;> simp [same, canonical]
  | .sum ts k, .sum us l => by
    simp [same, canonical, sameTerms_iff ts us, Angle.same, Angle.normalize]
  | .mod e m, .mod f n => by simp [same, canonical, same_iff e f, same_iff m n]
  | .sum _ _, .angle _ => by simp [same, canonical]
  | .sum _ _, .var _ => by simp [same, canonical]
  | .sum _ _, .mod _ _ => by simp [same, canonical]
  | .mod _ _, .angle _ => by simp [same, canonical]
  | .mod _ _, .var _ => by simp [same, canonical]
  | .mod _ _, .sum _ _ => by simp [same, canonical]

lemma sameTerms_iff : ∀ ts us : List (AngleExpr × Rat),
    sameTerms ts us ↔ canonicalTerms ts = canonicalTerms us
  | [], us => by cases us <;> simp [sameTerms, canonicalTerms]
  | _ :: _, [] => by simp [sameTerms, canonicalTerms]
  | (e, c) :: ts, (f, d) :: us => by
    simp [sameTerms, canonicalTerms, same_iff e f, sameTerms_iff ts us]

end

variable {ts us : List (AngleExpr × Rat)} {k l : Angle}

lemma canonicalTerms_eq (ts : List (AngleExpr × Rat)) :
    canonicalTerms ts = ts.map fun t => (t.1.canonical, t.2) := by
  induction ts with
  | nil => rfl
  | cons t ts ih => rw [canonicalTerms, ih, map_cons]

def DistinctTerms (ts : List (AngleExpr × Rat)) : Prop :=
  ts.Pairwise fun s t => s.1.same t.1 = false

def Distinct : AngleExpr → Prop
  | .angle _ => True
  | .var _ => True
  | .sum ts _ => DistinctTerms ts
  | .mod e m => e.Distinct ∧ m.Distinct

lemma distinctTerms_iff : DistinctTerms ts ↔ (ts.map fun t => t.1.canonical).Nodup := by
  rw [DistinctTerms, nodup_iff_pairwise_ne, pairwise_map]
  simp only [← Bool.not_eq_true, same_iff, ne_eq]

lemma coeff?_cons (u : AngleExpr × Rat) (us : List (AngleExpr × Rat)) (e : AngleExpr) :
    coeff? (u :: us) e = if u.1.same e then some u.2 else coeff? us e := by
  cases h : u.1.same e <;> simp [coeff?, h]

lemma coeff?_eq_some_iff (h : DistinctTerms us) {e : AngleExpr} {c : Rat} :
    coeff? us e = some c ↔ (e.canonical, c) ∈ canonicalTerms us := by
  induction us with
  | nil => simp [coeff?, canonicalTerms]
  | cons u us ih =>
    obtain ⟨hu, hus⟩ := pairwise_cons.mp h
    rw [canonicalTerms, mem_cons, Prod.mk.injEq, coeff?_cons, eq_comm (a := e.canonical), ← same_iff]
    by_cases hsame : u.1.same e
    · have hnot : (e.canonical, c) ∉ canonicalTerms us := by
        rw [canonicalTerms_eq, mem_map]
        rintro ⟨v, hv, heq⟩
        refine Bool.eq_false_iff.mp (hu v hv) ((same_iff _ _).mpr ?_)
        exact ((same_iff _ _).mp hsame).trans (congrArg Prod.fst heq).symm
      simp [hsame, hnot, eq_comm]
    · simp [hsame, ih hus]

/-- Equality of combinations is that of the terms up to their order. -/
lemma equal_sum_iff (hts : DistinctTerms ts) (hus : DistinctTerms us) :
    (AngleExpr.sum ts k).equal (.sum us l) ↔
      canonicalTerms ts ~ canonicalTerms us ∧ k.same l := by
  have hnodup : (canonicalTerms ts).Nodup := by
    refine Nodup.of_map Prod.fst ?_
    rw [canonicalTerms_eq, map_map]
    exact distinctTerms_iff.mp hts
  have hlength : ∀ ts, (canonicalTerms ts).length = ts.length := fun ts => by simp [canonicalTerms_eq]
  have hsubset : (ts.all fun t => coeff? us t.1 == some t.2) ↔ canonicalTerms ts ⊆ canonicalTerms us := by
    simp only [all_eq_true, beq_iff_eq, coeff?_eq_some_iff hus]
    rw [canonicalTerms_eq ts]
    exact forall_mem_map.symm
  rw [equal, Bool.and_eq_true, Bool.and_eq_true, hsubset, beq_iff_eq, ← hlength ts, ← hlength us]
  refine and_congr_left fun _ => ⟨fun h => ?_, fun h => ⟨h.length_eq, h.subset⟩⟩
  exact (subperm_of_subset hnodup h.2).perm_of_length_le h.1.ge

lemma equal_self : ∀ {e : AngleExpr}, e.Distinct → e.equal e
  | .angle a, _ => by simp [equal, Angle.same]
  | .var v, _ => by simp [equal]
  | .sum ts k, h => (equal_sum_iff h h).mpr ⟨.refl _, by simp [Angle.same]⟩
  | .mod e m, h => by simp [equal, equal_self h.1, equal_self h.2]

lemma mem_addTerm {e : AngleExpr} {c : Rat} :
    ∀ t ∈ addTerm ts e c, t.1 = e ∨ ∃ s ∈ ts, s.1 = t.1 := by
  induction ts with
  | nil => simp [addTerm]
  | cons s ts ih =>
    intro t ht
    rw [addTerm] at ht
    grind

lemma DistinctTerms.addTerm (h : DistinctTerms ts) (e : AngleExpr) (c : Rat) :
    DistinctTerms (addTerm ts e c) := by
  induction ts with
  | nil => exact pairwise_singleton _ _
  | cons s ts ih =>
    obtain ⟨hs, hts⟩ := pairwise_cons.mp h
    rw [AngleExpr.addTerm]
    split
    · exact pairwise_cons.mpr ⟨hs, hts⟩
    · rename_i hnot
      refine pairwise_cons.mpr ⟨fun t ht => ?_, ih hts⟩
      rcases mem_addTerm t ht with he | ⟨u, hu, he⟩
      · rw [he]
        exact Bool.eq_false_iff.mpr hnot
      · rw [← he]
        exact hs u hu

lemma DistinctTerms.pendingAdd {p : Pending} (h : DistinctTerms p.terms) (e : AngleExpr) (c : Rat) :
    DistinctTerms (p.add e c).terms := by
  have hplain :
      DistinctTerms (if c = 0 then p else { p with terms := AngleExpr.addTerm p.terms e c }).terms := by
    split
    · exact h
    · exact h.addTerm e c
  cases e with
  | angle a => exact h
  | var v => exact hplain
  | sum ts k =>
    exact foldlRecOn (motive := DistinctTerms) ts _ h fun acc hacc t _ => hacc.addTerm t.1 (c * t.2)
  | mod e m => exact hplain

lemma combine_distinct (terms : List (AngleExpr × Rat)) : (combine terms).Distinct := by
  have hterms : DistinctTerms (terms.foldl (fun (p : Pending) t => p.add t.1 t.2) {}).terms :=
    foldlRecOn (motive := fun p : Pending => DistinctTerms p.terms) terms _ .nil
      fun p hp t _ => hp.pendingAdd t.1 t.2
  rw [combine, Pending.finish]
  split
  · trivial
  · refine List.Pairwise.filter _ ?_
    refine (mergeSort_perm _ _).symm.pairwise hterms fun {s t} hst => ?_
    rw [← Bool.not_eq_true, same_iff] at hst ⊢
    exact fun h => hst h.symm

lemma Distinct.equal_comm : ∀ {e f : AngleExpr}, e.Distinct → f.Distinct → e.equal f = f.equal e
  | .angle a, f, _, _ => by cases f <;> simp [equal, Angle.same, Bool.beq_comm]
  | .var v, f, _, _ => by cases f <;> simp [equal, Bool.beq_comm]
  | .sum ts k, .sum us l, he, hf => by
    rw [Bool.eq_iff_iff, equal_sum_iff he hf, equal_sum_iff hf he, perm_comm, Angle.same, Angle.same,
      Bool.beq_comm]
  | .mod e m, .mod f n, he, hf => by
    rw [equal, equal, he.1.equal_comm hf.1, he.2.equal_comm hf.2]
  | .sum _ _, .angle _, _, _ => rfl
  | .sum _ _, .var _, _, _ => rfl
  | .sum _ _, .mod _ _, _, _ => rfl
  | .mod _ _, .angle _, _, _ => rfl
  | .mod _ _, .var _, _, _ => rfl
  | .mod _ _, .sum _ _, _, _ => rfl

/-- Terms in the order in which combinations keep them. -/
def Descending : AngleExpr → Prop
  | .sum ts _ => ts.Pairwise fun s t => t.2 ≤ s.2
  | .mod e m => e.Descending ∧ m.Descending
  | _ => True

def Untied : AngleExpr → Prop
  | .sum ts _ => (ts.map Prod.snd).Nodup
  | .mod e m => e.Untied ∧ m.Untied
  | _ => True

/-- What can be built from angles and variables by combinations and remainders. -/
inductive Built : AngleExpr → Prop
  | angle (a : Angle) : Built (.angle a)
  | var (v : AngleVar) : Built (.var v)
  | combine {ts : List (AngleExpr × Rat)} : (∀ t ∈ ts, Built t.1) → Built (combine ts)
  | rem {e m r : AngleExpr} : Built e → Built m → e.rem m = .ok r → Built r

lemma combine_descending (ts : List (AngleExpr × Rat)) : (combine ts).Descending := by
  rw [combine, Pending.finish]
  split
  · trivial
  · refine Pairwise.filter _ (Pairwise.imp of_decide_eq_true (pairwise_mergeSort ?_ ?_ _))
    · simp only [decide_eq_true_eq]
      exact fun s t u hst htu => htu.trans hst
    · simp only [Bool.or_eq_true, decide_eq_true_eq]
      exact fun s t => le_total t.2 s.2

lemma rem_cases {e m r : AngleExpr} (h : e.rem m = .ok r) : (∃ a, r = .angle a) ∨ r = .mod e m := by
  unfold rem at h
  split at h
  · split at h
    · cases h
    · exact .inl ⟨_, (Except.ok.inj h).symm⟩
  · exact .inr (Except.ok.inj h).symm

lemma Built.distinct_descending {e : AngleExpr} (h : e.Built) : e.Distinct ∧ e.Descending := by
  induction h with
  | angle | var => exact ⟨trivial, trivial⟩
  | combine _ _ => exact ⟨combine_distinct _, combine_descending _⟩
  | rem _ _ hr ihe ihm =>
    rcases rem_cases hr with ⟨a, rfl⟩ | rfl
    · exact ⟨trivial, trivial⟩
    · exact ⟨⟨ihe.1, ihm.1⟩, ihe.2, ihm.2⟩

lemma canonical_eq_of_equal : ∀ {e f : AngleExpr}, e.Distinct ∧ e.Descending →
    f.Distinct ∧ f.Descending → e.Untied → e.equal f → e.canonical = f.canonical
  | .angle a, f, _, _, _, h => by
    cases f <;> simp_all [equal, canonical, Angle.same, Angle.normalize]
  | .var v, f, _, _, _, h => by cases f <;> simp_all [equal, canonical]
  | .sum ts k, .sum us l, he, hf, hu, h => by
    obtain ⟨hperm, hconst⟩ := (equal_sum_iff he.1 hf.1).mp h
    have hnodup : ((canonicalTerms ts).map Prod.snd).Nodup := by
      rw [canonicalTerms_eq, map_map]
      exact hu
    have horder : ∀ {vs : List (AngleExpr × Rat)}, (vs.Pairwise fun s t => t.2 ≤ s.2) →
        (canonicalTerms vs).Pairwise fun s t => t.2 ≤ s.2 := by
      intro vs hvs
      rwa [canonicalTerms_eq, pairwise_map]
    have hterms : canonicalTerms ts = canonicalTerms us :=
      hperm.eq_of_pairwise (fun s t hs ht hst hts => inj_on_of_nodup_map hnodup hs
        (hperm.symm.subset ht) (le_antisymm hts hst)) (horder he.2) (horder hf.2)
    rw [canonical, canonical, hterms, Angle.normalize, Angle.normalize, beq_iff_eq.mp hconst]
  | .mod e m, .mod f n, he, hf, hu, h => by
    rw [equal, Bool.and_eq_true] at h
    rw [canonical, canonical, canonical_eq_of_equal ⟨he.1.1, he.2.1⟩ ⟨hf.1.1, hf.2.1⟩ hu.1 h.1,
      canonical_eq_of_equal ⟨he.1.2, he.2.2⟩ ⟨hf.1.2, hf.2.2⟩ hu.2 h.2]
  | .sum _ _, .angle _, _, _, _, h => by simp [equal] at h
  | .sum _ _, .var _, _, _, _, h => by simp [equal] at h
  | .sum _ _, .mod _ _, _, _, _, h => by simp [equal] at h
  | .mod _ _, .angle _, _, _, _, h => by simp [equal] at h
  | .mod _ _, .var _, _, _, _, h => by simp [equal] at h
  | .mod _ _, .sum _ _, _, _, _, h => by simp [equal] at h

end AngleExpr

/-- The hashes of texts, variables and tuples, of which those of expressions and gadgets are made. -/
structure Hashing (α : Type) where
  text : String → α
  var : Nat → α
  sum : List (α × Rat) → α → α
  mod : α → α → α
  gadget : String → α → List Int → α

namespace Hashing

variable {α : Type} (h : Hashing α)

mutual

def expr : AngleExpr → α
  | .angle a => h.text a.code
  | .var v => h.var v.id
  | .sum ts k => h.sum (terms ts) (h.text k.code)
  | .mod e m => h.mod (expr e) (expr m)

def terms : List (AngleExpr × Rat) → List (α × Rat)
  | [] => []
  | (e, c) :: ts => (expr e, c) :: terms ts

end

def ofGadget (g : Gadget) : α :=
  h.gadget g.basis.name (h.expr g.angle) g.legs

lemma text_normalize (a : Angle) : h.text a.normalize.code = h.text a.code := by
  rw [Angle.code, Angle.spell, Angle.reduced_normalize]
  rfl

mutual

lemma expr_canonical : ∀ e, h.expr e.canonical = h.expr e
  | .angle a => h.text_normalize a
  | .var v => rfl
  | .sum ts k => by
    rw [AngleExpr.canonical, expr, expr, terms_canonical ts, h.text_normalize]
  | .mod e m => by rw [AngleExpr.canonical, expr, expr, expr_canonical e, expr_canonical m]

lemma terms_canonical : ∀ ts, h.terms (AngleExpr.canonicalTerms ts) = h.terms ts
  | [] => rfl
  | (e, c) :: ts => by
    rw [AngleExpr.canonicalTerms, terms, terms, expr_canonical e, terms_canonical ts]

end

lemma expr_of_same {e f : AngleExpr} (hsame : e.same f) : h.expr e = h.expr f := by
  rw [← h.expr_canonical, (AngleExpr.same_iff _ _).mp hsame, h.expr_canonical]

end Hashing

open AngleExpr

/-- Equality is symmetric. Equal expressions without ties among their coefficients agree as keys, and
so do equal gadgets with such angles; what agrees as a key has one hash, whatever the hashes are. -/
theorem equal_hash (g g' : Gadget) (he : g.angle.Built) (hf : g'.angle.Built) :
    g.angle.equal g'.angle = g'.angle.equal g.angle ∧ g.equal g' = g'.equal g ∧
    (g.angle.Untied → (g.angle.equal g'.angle → g.angle.same g'.angle) ∧ (g.equal g' → g.same g')) ∧
    ∀ {α : Type} (h : Hashing α), (g.angle.same g'.angle → h.expr g.angle = h.expr g'.angle) ∧
      (g.same g' → h.ofGadget g = h.ofGadget g') := by
  have hcomm := he.distinct_descending.1.equal_comm hf.distinct_descending.1
  have hsame : g.angle.Untied → g.angle.equal g'.angle → g.angle.same g'.angle := fun hu h =>
    (same_iff _ _).mpr (canonical_eq_of_equal he.distinct_descending hf.distinct_descending hu h)
  refine ⟨hcomm, ?_, fun hu => ⟨hsame hu, fun h => ?_⟩, fun h => ⟨h.expr_of_same, fun hs => ?_⟩⟩
  · rw [Gadget.equal, Gadget.equal, hcomm, Bool.beq_comm, Bool.beq_comm (a := g.legs)]
  · rw [Gadget.equal, Bool.and_eq_true, Bool.and_eq_true] at h
    rw [Gadget.same, h.1.1, hsame hu h.1.2, h.2]
    rfl
  · simp only [Gadget.same, Bool.and_eq_true, beq_iff_eq] at hs
    rw [Hashing.ofGadget, Hashing.ofGadget, hs.1.1, hs.2, h.expr_of_same hs.1.2]

def weighted (ts : List (Nat × Rat)) : Gadget where
  basis := .z
  angle := combine (ts.map fun t => (.var ⟨t.1, "", ""⟩, t.2))
  legs := [0]

lemma weighted_built (ts : List (Nat × Rat)) : (weighted ts).angle.Built := by
  refine .combine fun t ht => ?_
  obtain ⟨s, -, rfl⟩ := mem_map.mp ht
  exact .var _

theorem weighted_hash : (weighted [(0, 1), (1, 2)]).angle.Built ∧
    (weighted [(1, 2), (0, 1)]).angle.Built ∧ (weighted [(0, 1), (1, 2)]).angle.Untied ∧
    (weighted [(0, 1), (1, 2)]).equal (weighted [(1, 2), (0, 1)]) ∧
    (weighted [(0, 1), (1, 2)]).same (weighted [(1, 2), (0, 1)]) ∧
    ∀ {α : Type} (h : Hashing α),
      h.ofGadget (weighted [(0, 1), (1, 2)]) = h.ofGadget (weighted [(1, 2), (0, 1)]) := by
  have hangle : (weighted [(0, 1), (1, 2)]).angle =
      .sum [(.var ⟨1, "", ""⟩, 2), (.var ⟨0, "", ""⟩, 1)] .zero := by cbv
  have huntied : (weighted [(0, 1), (1, 2)]).angle.Untied := by
    rw [hangle]
    simp [Untied]
  have hequal : (weighted [(0, 1), (1, 2)]).equal (weighted [(1, 2), (0, 1)]) := by cbv
  have hbuilt := weighted_built [(0, 1), (1, 2)]
  have hbuilt' := weighted_built [(1, 2), (0, 1)]
  obtain ⟨-, -, hkey, hhash⟩ := equal_hash _ _ hbuilt hbuilt'
  have hsame := (hkey huntied).2 hequal
  exact ⟨hbuilt, hbuilt', huntied, hequal, hsame, fun h => (hhash h).2 hsame⟩

def Hashing.listing : Hashing (List Nat) where
  text s := s.toList.map Char.toNat
  var i := [i]
  sum ts k := (ts.map Prod.fst).flatten ++ k
  mod e m := e ++ m
  gadget b e legs := b.toList.map Char.toNat ++ e ++ legs.map Int.toNat

/-- The sum of two variables equals the sum in the other order, with another hash. -/
theorem swapped_sum_hash : ∃ e f : AngleExpr, e.Built ∧ f.Built ∧ e.equal f ∧ e.same f = false ∧
    Hashing.listing.expr e ≠ Hashing.listing.expr f := by
  refine ⟨_, _, weighted_built [(0, 1), (1, 1)], weighted_built [(1, 1), (0, 1)], ?_, ?_, ?_⟩
  · cbv
  · cbv
  · have h : (Hashing.listing.expr (weighted [(0, 1), (1, 1)]).angle ==
        Hashing.listing.expr (weighted [(1, 1), (0, 1)]).angle) = false := by cbv
    exact beq_eq_false_iff_ne.mp h

end GadgetCircuits
