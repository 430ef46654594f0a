import Mathlib.Algebra.BigOperators.Group.Finset.Piecewise
import Mathlib.Data.Fintype.Card
import Mathlib.Logic.Function.Basic

namespace Counting

variable {ι α : Type*} [Fintype ι]

def count (p : α → Bool) (f : ι → α) : ℕ := (Finset.univ.filter (fun i => p (f i) = true)).card

variable {p : α → Bool} {f g : ι → α} {i : ι} {a : α}

theorem count_eq_sum : count p f = ∑ i, (p (f i)).toNat := by
  rw [count, Finset.card_filter]
  exact Finset.sum_congr rfl (fun i _ => by cases p (f i) <;> rfl)

theorem sum_update [DecidableEq ι] {M : Type*} [AddCommMonoid M] (w : α → M) (f : ι → α) (i : ι)
    (a : α) : ∑ j, w (Function.update f i a j) + w (f i) = ∑ j, w (f j) + w a := by
  have hrest : ∑ j ∈ Finset.univ.erase i, w (Function.update f i a j) =
      ∑ j ∈ Finset.univ.erase i, w (f j) := by
    refine Finset.sum_congr rfl (fun j hj => ?_)
    rw [Function.update_of_ne (Finset.ne_of_mem_erase hj)]
  rw [← Finset.add_sum_erase _ _ (Finset.mem_univ i), hrest,
    ← Finset.add_sum_erase _ (fun j => w (f j)) (Finset.mem_univ i), Function.update_self,
    add_comm (w a), add_comm (w (f i)), add_right_comm]

theorem count_update [DecidableEq ι] :
    count p (Function.update f i a) + (p (f i)).toNat = count p f + (p a).toNat := by
  rw [count_eq_sum, count_eq_sum]
  exact sum_update (fun a => (p a).toNat) f i a

theorem count_pos (h : p (f i) = true) : 0 < count p f :=
  Finset.card_pos.mpr ⟨i, by simpa using h⟩

theorem count_eq_zero : count p f = 0 ↔ ∀ i, p (f i) = false := by
  simp [count, Finset.filter_eq_empty_iff]

theorem count_le_card : count p f ≤ Fintype.card ι := Finset.card_le_univ _

theorem count_mono (h : ∀ i, p (f i) = true → p (g i) = true) : count p f ≤ count p g :=
  Finset.card_le_card (Finset.monotone_filter_right _ (fun i _ => h i))

end Counting
