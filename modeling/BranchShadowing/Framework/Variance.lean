import Mathlib.Analysis.SpecialFunctions.Sqrt

/-!
# Mean and variance

Of a list of real numbers: their mean, and the mean squared deviation from it. The sum
of squared deviations from any number is zero only if all are that number
(`sqDev_eq_zero_iff`); of numbers that are 0 or 1 the variance is less than 1
(`variance_lt_one`).
-/

namespace BS

noncomputable section

def mean (xs : List ℝ) : ℝ := xs.sum / xs.length

/-- The sum of the squared deviations from `m`. -/
def sqDev (m : ℝ) (xs : List ℝ) : ℝ := (xs.map fun x => (x - m) ^ 2).sum

def variance (xs : List ℝ) : ℝ := sqDev (mean xs) xs / xs.length

variable {m : ℝ} {xs : List ℝ}

theorem sqDev_nonneg (m : ℝ) (xs : List ℝ) : 0 ≤ sqDev m xs :=
  List.sum_nonneg fun y hy => by
    obtain ⟨x, -, rfl⟩ := List.mem_map.mp hy
    exact sq_nonneg _

theorem sqDev_eq_zero_iff : sqDev m xs = 0 ↔ ∀ x ∈ xs, x = m := by
  refine ⟨fun h x hx => ?_, fun h => ?_⟩
  · have hz := List.all_zero_of_le_zero_le_of_sum_eq_zero (fun y hy => ?_) h
      (List.mem_map_of_mem (f := fun x => (x - m) ^ 2) hx)
    · exact sub_eq_zero.mp (pow_eq_zero_iff two_ne_zero |>.mp hz)
    · obtain ⟨x, -, rfl⟩ := List.mem_map.mp hy
      exact sq_nonneg _
  · have hmap : (xs.map fun x => (x - m) ^ 2) = xs.map fun _ => 0 :=
      List.map_congr_left fun x hx => by rw [h x hx, sub_self, zero_pow two_ne_zero]
    rw [sqDev, hmap]
    simp

/-- The deviations of some elements, and of the others. -/
theorem sqDev_filter {α : Type*} (f : α → ℝ) (p : α → Prop) [DecidablePred p] (l : List α) :
    sqDev m (l.map f) =
      sqDev m ((l.filter p).map f) + sqDev m ((l.filter fun a => ¬ p a).map f) := by
  have h := List.sum_map_ite p (fun a => (f a - m) ^ 2) (fun a => (f a - m) ^ 2) l
  simp only [ite_self] at h
  simpa [sqDev, Function.comp_def] using h

theorem mean_nonneg (h : ∀ x ∈ xs, 0 ≤ x) : 0 ≤ mean xs :=
  div_nonneg (List.sum_nonneg h) (Nat.cast_nonneg _)

theorem variance_nonneg (xs : List ℝ) : 0 ≤ variance xs :=
  div_nonneg (sqDev_nonneg _ _) (Nat.cast_nonneg _)

theorem variance_eq_zero_iff (hne : xs ≠ []) : variance xs = 0 ↔ ∀ x ∈ xs, ∀ y ∈ xs, x = y := by
  have hlen : (xs.length : ℝ) ≠ 0 := by simpa using hne
  rw [variance, div_eq_zero_iff, or_iff_left hlen, sqDev_eq_zero_iff]
  refine ⟨fun h x hx y hy => (h x hx).trans (h y hy).symm, fun h x hx => ?_⟩
  have hsum : xs.sum = xs.length * x := by
    rw [List.sum_eq_card_nsmul xs x fun y hy => h y hy x hx, nsmul_eq_mul]
  rw [mean, hsum, mul_div_cancel_left₀ _ hlen]

/-- Numbers that are 0 or 1 deviate from their mean by less than 1. -/
theorem variance_lt_one (h : ∀ x ∈ xs, x = 0 ∨ x = 1) : variance xs < 1 := by
  rcases eq_or_ne xs [] with rfl | hne
  · simp [variance, sqDev]
  have hpos : (0 : ℝ) < xs.length := by
    exact_mod_cast List.length_pos_iff.mpr hne
  have hexp : ∀ l : List ℝ, (∀ x ∈ l, x = 0 ∨ x = 1) → ∀ m : ℝ,
      sqDev m l = l.sum * (1 - 2 * m) + l.length * m ^ 2 := by
    intro l hl m
    induction l with
    | nil => simp [sqDev]
    | cons x l ih =>
      have ih := ih fun y hy => hl y (List.mem_cons_of_mem _ hy)
      have hx : x ^ 2 = x := by rcases hl x (List.mem_cons_self ..) with rfl | rfl <;> norm_num
      simp only [sqDev, List.map_cons, List.sum_cons, List.length_cons, Nat.cast_add,
        Nat.cast_one] at ih ⊢
      rw [ih]
      linear_combination hx
  have hmean : xs.sum = xs.length * mean xs := by
    rw [mean, mul_div_cancel₀ _ hpos.ne']
  rw [variance, hexp xs h, div_lt_one hpos, hmean]
  nlinarith [sq_nonneg (mean xs - 1 / 2)]

end

end BS
