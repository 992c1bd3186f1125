import Mathlib
import GadgetCircuits.Angle.Expr

/-!
Angles up to full turns: what the reduced multiple of π says about the multiple as it was computed.
-/

namespace GadgetCircuits

namespace Angle

lemma reduced_nonneg (a : Angle) : 0 ≤ a.reduced := by
  have hfloor := Rat.floor_le (a.halfTurns / 2)
  rw [reduced, ratMod]
  linarith

lemma reduced_lt_two (a : Angle) : a.reduced < 2 := by
  have hfloor := Rat.lt_floor (x := a.halfTurns / 2)
  rw [reduced, ratMod]
  linarith

lemma reduced_add_turns (a : Angle) : ∃ k : ℤ, a.halfTurns = a.reduced + 2 * (k : ℚ) := by
  refine ⟨(a.halfTurns / 2).floor, ?_⟩
  simp only [reduced, ratMod]
  ring

lemma reduced_eq_iff {a : Angle} {r : ℚ} (h0 : 0 ≤ r) (h2 : r < 2) :
    a.reduced = r ↔ ∃ k : ℤ, a.halfTurns = r + 2 * (k : ℚ) := by
  constructor
  · rintro rfl
    exact a.reduced_add_turns
  · rintro ⟨k, hk⟩
    have hfloor : (a.halfTurns / 2).floor = k :=
      (Int.floor_eq_iff (a := a.halfTurns / 2)).mpr ⟨by linarith, by linarith⟩
    rw [reduced, ratMod, hfloor, hk]
    ring

@[simp]
lemma reduced_normalize (a : Angle) : a.normalize.reduced = a.reduced :=
  (reduced_eq_iff a.reduced_nonneg a.reduced_lt_two).mpr ⟨0, by simp [normalize]⟩

@[simp]
lemma normalize_normalize (a : Angle) : a.normalize.normalize = a.normalize := by
  rw [normalize, reduced_normalize, normalize]

lemma normalize_pi : pi.normalize = pi := by
  have hone : pi.reduced = 1 := (reduced_eq_iff zero_le_one one_lt_two).mpr ⟨0, by simp [pi]⟩
  rw [normalize, hone, pi]

lemma isZero_iff {a : Angle} : a.isZero ↔ ∃ k : ℤ, a.halfTurns = 2 * (k : ℚ) := by
  rw [isZero, beq_iff_eq, reduced_eq_iff le_rfl two_pos]
  simp only [zero_add]

lemma isPi_iff {a : Angle} : a.isPi ↔ ∃ k : ℤ, a.halfTurns = 1 + 2 * (k : ℚ) := by
  rw [isPi, beq_iff_eq, reduced_eq_iff zero_le_one one_lt_two]

end Angle

namespace AngleExpr

lemma isZeroOrPi_iff {a : Angle} :
    (AngleExpr.angle a).isZeroOrPi ↔ ∃ k : ℤ, a.halfTurns = (k : ℚ) := by
  rw [isZeroOrPi, Bool.or_eq_true, isZero, isPi, Angle.isZero_iff, Angle.isPi_iff]
  constructor
  · rintro (⟨k, hk⟩ | ⟨k, hk⟩)
    · exact ⟨2 * k, by rw [hk]; push_cast; ring⟩
    · exact ⟨1 + 2 * k, by rw [hk]; push_cast; ring⟩
  · rintro ⟨k, hk⟩
    rcases Int.even_or_odd' k with ⟨m, rfl | rfl⟩
    · exact .inl ⟨m, by rw [hk]; push_cast; ring⟩
    · exact .inr ⟨m, by rw [hk]; push_cast; ring⟩

variable {e f : AngleExpr}

lemma isZero_neg (he : e.isAngle) : e.neg.isZero = e.isZero := by
  cases e with
  | angle a =>
    rw [neg, isZero, isZero, Bool.eq_iff_iff, Angle.isZero_iff, Angle.isZero_iff, Angle.neg]
    constructor
    · rintro ⟨k, hk⟩
      exact ⟨-k, by push_cast; linarith⟩
    · rintro ⟨k, hk⟩
      exact ⟨-k, by push_cast; linarith⟩
  | _ => simp [isAngle] at he

lemma isPi_neg (he : e.isAngle) : e.neg.isPi = e.isPi := by
  cases e with
  | angle a =>
    rw [neg, isPi, isPi, Bool.eq_iff_iff, Angle.isPi_iff, Angle.isPi_iff, Angle.neg]
    constructor
    · rintro ⟨k, hk⟩
      exact ⟨-k - 1, by push_cast; linarith⟩
    · rintro ⟨k, hk⟩
      exact ⟨-k - 1, by push_cast; linarith⟩
  | _ => simp [isAngle] at he

lemma isZeroOrPi_add {s : AngleExpr} (he : e.isZeroOrPi) (hf : f.isZeroOrPi)
    (hs : e.add f = .ok s) : s.isZeroOrPi := by
  cases e with
  | angle a =>
    cases f with
    | angle b =>
      cases hs
      obtain ⟨k, hk⟩ := isZeroOrPi_iff.mp he
      obtain ⟨m, hm⟩ := isZeroOrPi_iff.mp hf
      exact isZeroOrPi_iff.mpr ⟨k + m, by rw [Angle.add, hk, hm]; push_cast; ring⟩
    | _ => cases hs
  | _ => cases hs

end AngleExpr

end GadgetCircuits
