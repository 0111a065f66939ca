import Mathlib.Data.Int.Init

/-!
# Weighted means

The two inequalities of a mean of two numbers with whole weights, before and after it is rounded.

* `le_mean`, `mean_le`: a mean lies between what it is a mean of.
-/

namespace Rounding

variable {m x y u v : Int}

theorem le_mean (hu : 0 ≤ u) (hv : 0 ≤ v) (hx : m ≤ x) (hy : m ≤ y) : m * (u + v) ≤ u * x + v * y := by
  have h₁ : u * m ≤ u * x := Int.mul_le_mul_of_nonneg_left hx hu
  have h₂ : v * m ≤ v * y := Int.mul_le_mul_of_nonneg_left hy hv
  rw [Int.mul_add, Int.mul_comm m u, Int.mul_comm m v]
  omega

theorem mean_le (hu : 0 ≤ u) (hv : 0 ≤ v) (hx : x ≤ m) (hy : y ≤ m) : u * x + v * y ≤ m * (u + v) := by
  have h₁ : u * x ≤ u * m := Int.mul_le_mul_of_nonneg_left hx hu
  have h₂ : v * y ≤ v * m := Int.mul_le_mul_of_nonneg_left hy hv
  rw [Int.mul_add, Int.mul_comm m u, Int.mul_comm m v]
  omega

/-! ## Division -/

variable {a b : Int}

theorem le_tdiv (hb : 0 < b) (ha : 0 ≤ a) (h : m * b ≤ a) : m ≤ a.tdiv b := by
  rw [Int.tdiv_eq_ediv_of_nonneg ha]
  exact Int.le_ediv_of_mul_le hb h

theorem tdiv_le (hb : 0 < b) (ha : 0 ≤ a) (h : a ≤ m * b) : a.tdiv b ≤ m := by
  rw [Int.tdiv_eq_ediv_of_nonneg ha]
  exact Int.ediv_le_of_le_mul hb h

/-- The quotient rounded up, from the quotient and the remainder that are rounded towards zero. -/
def ceil (a b : Int) : Int := if 0 < a.tmod b then a.tdiv b + 1 else a.tdiv b

theorem le_ceil_mul (hb : 0 < b) (ha : 0 ≤ a) : a ≤ ceil a b * b ∧ ceil a b * b < a + b := by
  have hdiv := Int.mul_tdiv_add_tmod a b
  have hlt := Int.tmod_lt_of_pos a hb
  have hnonneg := Int.tmod_nonneg b ha
  unfold ceil
  rw [Int.mul_comm] at hdiv
  split
  · rw [Int.add_mul, Int.one_mul]
    omega
  · omega

theorem le_ceil (hb : 0 < b) (ha : 0 ≤ a) (h : m * b ≤ a) : m ≤ ceil a b := by
  have hle := le_tdiv hb ha h
  unfold ceil
  split <;> omega

end Rounding
