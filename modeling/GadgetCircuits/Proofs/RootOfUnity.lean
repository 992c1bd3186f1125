import GadgetCircuits.Proofs.FullTurns

/-!
Angles as roots of unity. In lowest terms the angle is `k / n` of a turn, so a multiple of it is a
number of full turns exactly if `n` divides the factor.
-/

namespace GadgetCircuits.Angle

variable (a : Angle)

lemma order_pos : 0 < a.order := by
  have hden := a.reduced.den_pos
  unfold order
  split <;> omega

/-- Even numerators are halved and odd denominators doubled, so nothing is left to cancel. -/
lemma rootOfUnity_coprime : IsCoprime a.rootOfUnity.1 (a.order : ℤ) := by
  have hred : IsCoprime a.reduced.num (a.reduced.den : ℤ) :=
    Int.isCoprime_iff_gcd_eq_one.mpr a.reduced.reduced
  unfold rootOfUnity order
  split
  case isTrue heven =>
    obtain ⟨j, hj⟩ := Int.dvd_of_emod_eq_zero heven
    rw [hj, Int.mul_ediv_cancel_left j two_ne_zero]
    rw [hj] at hred
    exact hred.of_mul_left_right
  case isFalse hodd =>
    have htwo : IsCoprime a.reduced.num 2 :=
      Int.isCoprime_two_right.mpr (Int.not_even_iff_odd.mp fun h => hodd (Int.even_iff.mp h))
    rw [Nat.cast_mul]
    exact htwo.mul_right hred

lemma reduced_eq_rootOfUnity : a.reduced = 2 * (a.rootOfUnity.1 : ℚ) / (a.order : ℚ) := by
  have hdiv := Rat.num_div_den a.reduced
  unfold rootOfUnity order
  split
  case isTrue heven =>
    obtain ⟨j, hj⟩ := Int.dvd_of_emod_eq_zero heven
    rw [hj, Int.mul_ediv_cancel_left j two_ne_zero]
    rw [hj, Int.cast_mul, Int.cast_ofNat] at hdiv
    exact hdiv.symm
  case isFalse hodd =>
    rw [Nat.cast_mul, Nat.cast_ofNat, mul_div_mul_left _ _ two_ne_zero, hdiv]

/-- A multiple of the angle is a number of full turns exactly if the order divides the factor. -/
lemma scale_same_zero_iff (m : ℕ) : (a.scale m).same zero ↔ a.order ∣ m := by
  have horder : (a.order : ℚ) ≠ 0 := Nat.cast_ne_zero.mpr a.order_pos.ne'
  have hzero : zero.reduced = 0 := (reduced_eq_iff le_rfl two_pos).mpr ⟨0, by simp [zero]⟩
  obtain ⟨t, ht⟩ := a.reduced_add_turns
  rw [a.reduced_eq_rootOfUnity] at ht
  have hturns : (∃ j : ℤ, (a.scale m).halfTurns = 2 * (j : ℚ)) ↔ (a.order : ℤ) ∣ a.rootOfUnity.1 * m := by
    constructor
    · rintro ⟨j, hj⟩
      refine ⟨j - t * m, ?_⟩
      rw [scale, ht] at hj
      field_simp at hj
      have hcast : (a.rootOfUnity.1 : ℚ) * m = a.order * (j - t * m) := by linarith
      exact_mod_cast hcast
    · rintro ⟨j, hj⟩
      refine ⟨j + t * m, ?_⟩
      have hcast : (a.rootOfUnity.1 : ℚ) * m = a.order * j := by exact_mod_cast hj
      rw [scale, ht]
      push_cast
      field_simp
      linarith
  have hsame : (a.scale m).same zero ↔ (a.scale m).isZero := by
    rw [same, isZero, hzero]
  rw [hsame, isZero_iff, hturns, ← Int.natCast_dvd_natCast]
  exact ⟨a.rootOfUnity_coprime.symm.dvd_of_dvd_mul_left, fun h => h.mul_left _⟩

/-- The angle is `k / n` of a turn in lowest terms, and `n` is its order: the least number of times
that the angle adds up to full turns. -/
theorem rootOfUnity_lowest_terms :
    0 ≤ a.rootOfUnity.1 ∧ a.rootOfUnity.1 < a.rootOfUnity.2 ∧
      Int.gcd a.rootOfUnity.1 a.rootOfUnity.2 = 1 ∧
      a.same ⟨2 * (a.rootOfUnity.1 : ℚ) / (a.rootOfUnity.2 : ℚ)⟩ ∧ a.rootOfUnity.2 = a.order ∧
      IsLeast {m : ℕ | 0 < m ∧ (a.scale m).same zero} a.order := by
  have hpos : (0 : ℚ) < a.order := Nat.cast_pos.mpr a.order_pos
  have hreduced := a.reduced_eq_rootOfUnity
  have hlow := a.reduced_nonneg
  have hhigh := a.reduced_lt_two
  rw [hreduced] at hlow hhigh
  rw [le_div_iff₀ hpos, zero_mul] at hlow
  rw [div_lt_iff₀ hpos] at hhigh
  refine ⟨?_, ?_, Int.isCoprime_iff_gcd_eq_one.mp a.rootOfUnity_coprime, ?_, rfl, ?_⟩
  · exact_mod_cast (by linarith : (0 : ℚ) ≤ a.rootOfUnity.1)
  · exact_mod_cast (by linarith : (a.rootOfUnity.1 : ℚ) < a.order)
  · rw [same, beq_iff_eq, eq_comm, reduced_eq_iff a.reduced_nonneg a.reduced_lt_two]
    exact ⟨0, by rw [hreduced]; simp [rootOfUnity]⟩
  · refine ⟨⟨a.order_pos, (a.scale_same_zero_iff _).mpr dvd_rfl⟩, fun m hm => ?_⟩
    exact Nat.le_of_dvd hm.1 ((a.scale_same_zero_iff m).mp hm.2)

end GadgetCircuits.Angle
