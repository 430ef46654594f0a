import Mathlib.Algebra.BigOperators.Group.List.Basic
import Mathlib.Algebra.CharZero.Defs
import Mathlib.Algebra.Field.Basic
import Mathlib.Data.Nat.Cast.Basic

namespace Mean

variable {K : Type*} [Field K]

def mean (xs : List K) : K := xs.sum / xs.length

theorem mean_nil : mean ([] : List K) = 0 := by
  rw [mean, List.sum_nil, zero_div]

theorem mean_mul_length [CharZero K] (xs : List K) : mean xs * xs.length = xs.sum := by
  rcases List.eq_nil_or_concat xs with rfl | ⟨init, last, rfl⟩
  · rw [mean_nil, zero_mul, List.sum_nil]
  · have hne : ((init.concat last).length : K) ≠ 0 := by
      rw [List.length_concat]
      exact Nat.cast_ne_zero.mpr (Nat.succ_ne_zero _)
    exact div_mul_cancel₀ _ hne

-- The mean kept up to date from the last mean and the number of values it stands for.
theorem mean_append_singleton [CharZero K] (xs : List K) (x : K) :
    mean (xs ++ [x]) = (mean xs * xs.length + x) / ((xs.length + 1 : ℕ) : K) := by
  rw [mean_mul_length, mean, List.sum_append, List.sum_singleton, List.length_append,
    List.length_singleton]

theorem mean_perm {xs ys : List K} (h : xs.Perm ys) : mean xs = mean ys := by
  rw [mean, mean, h.sum_eq, h.length_eq]

end Mean
