import GadgetCircuits.Annealing.Schedule
import GadgetCircuits.Proofs.Prelude

/-!
Temperatures of the linear and the reciprocal schedule in exact arithmetic. The reciprocal schedule
is the linear one between the inverse temperatures, so both run one way from the first temperature
to the last. A run of a single iteration has no distance to divide by.
-/

namespace GadgetCircuits.Schedule

variable {t₀ t₁ : ℚ} {n it : ℕ} {temp : ℕ → ℚ}

/-- The temperatures of a run of `n` iterations go one way from the first to the last. -/
structure Sweeps (t₀ t₁ : ℚ) (n : ℕ) (temp : ℕ → ℚ) : Prop where
  first : temp 0 = t₀
  last : temp (n - 1) = t₁
  rising : t₀ ≤ t₁ → MonotoneOn temp (Set.Iio n)
  falling : t₁ ≤ t₀ → AntitoneOn temp (Set.Iio n)

lemma Sweeps.pos (h : Sweeps t₀ t₁ n temp) (h₀ : 0 < t₀) (h₁ : 0 < t₁) (hit : it < n) :
    0 < temp it := by
  rcases le_total t₀ t₁ with hle | hle
  · exact (h₀.trans_eq h.first.symm).trans_le
      (h.rising hle (Set.mem_Iio.mpr (by omega)) (Set.mem_Iio.mpr hit) (Nat.zero_le it))
  · exact (h₁.trans_eq h.last.symm).trans_le
      (h.falling hle (Set.mem_Iio.mpr hit) (Set.mem_Iio.mpr (by omega)) (by omega))

lemma Sweeps.inv (h : Sweeps t₀⁻¹ t₁⁻¹ n temp) (h₀ : 0 < t₀) (h₁ : 0 < t₁) :
    Sweeps t₀ t₁ n fun i => (temp i)⁻¹ where
  first := by rw [h.first, inv_inv]
  last := by rw [h.last, inv_inv]
  rising hle i hi j hj hij :=
    inv_anti₀ (h.pos (inv_pos.mpr h₀) (inv_pos.mpr h₁) hj) (h.falling (inv_anti₀ h₀ hle) hi hj hij)
  falling hle i hi j hj hij :=
    inv_anti₀ (h.pos (inv_pos.mpr h₀) (inv_pos.mpr h₁) hi) (h.rising (inv_anti₀ h₁ hle) hi hj hij)

def line (t₀ t₁ : ℚ) (n it : ℕ) : ℚ :=
  t₀ + (t₁ - t₀) * it / (n - 1)

lemma line_sweeps (hn : 1 < n) : Sweeps t₀ t₁ n (line t₀ t₁ n) := by
  have hlength : (0 : ℚ) < n - 1 := sub_pos.mpr (Nat.one_lt_cast.mpr hn)
  refine ⟨by simp [line], ?_, fun h i _ j _ hij => ?_, fun h i _ j _ hij => ?_⟩
  · rw [line, Nat.cast_sub hn.le, Nat.cast_one, mul_div_cancel_right₀ _ hlength.ne']
    ring
  · have hrise : 0 ≤ t₁ - t₀ := sub_nonneg.mpr h
    unfold line
    gcongr
  · have hcast : (i : ℚ) ≤ j := Nat.cast_le.mpr hij
    have hrise := mul_le_mul_of_nonpos_left hcast (sub_nonpos.mpr h)
    unfold line
    gcongr

lemma linear_exact (hn : 1 < n) : linear .exact t₀ t₁ it n = .ok (line t₀ t₁ n it) := by
  have hlength : (n : ℚ) - 1 ≠ 0 := (sub_pos.mpr (Nat.one_lt_cast.mpr hn)).ne'
  simp only [linear, Arithmetic.exact, ok_bind, Int.cast_one, if_neg hlength, line]

lemma reciprocal_exact (h₀ : 0 < t₀) (h₁ : 0 < t₁) (hn : 1 < n) (hit : it < n) :
    reciprocal .exact t₀ t₁ it n = .ok (line t₀⁻¹ t₁⁻¹ n it)⁻¹ := by
  have hlength : (n : ℚ) - 1 ≠ 0 := (sub_pos.mpr (Nat.one_lt_cast.mpr hn)).ne'
  have hnum : t₀ * t₁ * (n - 1) ≠ 0 := mul_ne_zero (mul_pos h₀ h₁).ne' hlength
  have hline := (line_sweeps hn).pos (inv_pos.mpr h₀) (inv_pos.mpr h₁) hit
  have hdenom : t₁ * n - t₀ + (t₀ - t₁) * (it + 1) = t₀ * t₁ * (n - 1) * line t₀⁻¹ t₁⁻¹ n it := by
    unfold line
    field_simp
    ring
  simp only [reciprocal, Arithmetic.exact, ok_bind, Int.cast_one, hdenom,
    if_neg (mul_ne_zero hnum hline.ne'), div_mul_cancel_left₀ hnum]

lemma linear_single (t₀ t₁ : ℚ) :
    linear .exact t₀ t₁ (0 : ℕ) (1 : ℕ) = .error .divisionByZero := by
  simp only [linear, Arithmetic.exact, ok_bind, Nat.cast_one, Int.cast_one, sub_self, if_true]
  rfl

lemma reciprocal_single (t₀ t₁ : ℚ) :
    reciprocal .exact t₀ t₁ (0 : ℕ) (1 : ℕ) = .error .divisionByZero := by
  have hdenom : t₁ * (1 : ℕ) - t₀ + (t₀ - t₁) * ((0 : ℕ) + 1) = 0 := by
    push_cast
    ring
  simp only [reciprocal, Arithmetic.exact, ok_bind, Int.cast_one, hdenom, if_true]

/-- Runs of more than one iteration sweep from the first temperature to the last. A run of a single
iteration divides by zero. -/
theorem schedules_sweep (h₀ : 0 < t₀) (h₁ : 0 < t₁) (hn : 0 < n)
    {schedule : ℚ → ℚ → ℚ → ℚ → Except Error ℚ}
    (hs : schedule = linear .exact ∨ schedule = reciprocal .exact) :
    (n = 1 ∧ schedule t₀ t₁ (0 : ℕ) n = .error .divisionByZero) ∨
      (1 < n ∧ ∃ temp : ℕ → ℚ, Sweeps t₀ t₁ n temp ∧
        ∀ it < n, schedule t₀ t₁ it n = .ok (temp it)) := by
  rcases Nat.eq_or_lt_of_le hn with rfl | hn
  · refine .inl ⟨rfl, ?_⟩
    rcases hs with rfl | rfl
    · exact linear_single t₀ t₁
    · exact reciprocal_single t₀ t₁
  · refine .inr ⟨hn, ?_⟩
    rcases hs with rfl | rfl
    · exact ⟨_, line_sweeps hn, fun it _ => linear_exact hn⟩
    · exact ⟨_, (line_sweeps hn).inv h₀ h₁, fun it hit => reciprocal_exact h₀ h₁ hn hit⟩

theorem reciprocal_sweeps_cooling : (0 : ℚ) < 2 ∧ (0 : ℚ) < 1 / 2 ∧ ∃ temp, Sweeps 2 (1 / 2) 4 temp ∧
    ∀ it : ℕ, it < 4 → reciprocal .exact 2 (1 / 2) it (4 : ℕ) = .ok (temp it) :=
  ⟨two_pos, one_half_pos, ((schedules_sweep two_pos one_half_pos four_pos (.inr rfl)).resolve_left
    fun h => absurd h.1 (by decide)).2⟩

/-- A single iteration has no temperature in either schedule. -/
theorem single_iteration_undefined :
    linear .exact 1 (1 / 10) (0 : ℕ) (1 : ℕ) = .error .divisionByZero ∧
      reciprocal .exact 1 (1 / 10) (0 : ℕ) (1 : ℕ) = .error .divisionByZero :=
  ⟨linear_single _ _, reciprocal_single _ _⟩

end GadgetCircuits.Schedule
