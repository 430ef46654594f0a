import DeiChain.Library.Transition
import Mathlib.Algebra.GroupWithZero.Nat

namespace Transition

variable {S L : Type*} {step : S → L → Option S} {I : S → Prop} {potential : S → ℕ} {charge : L → ℕ}
  {counts : L → Bool}

-- A step that counts lives on the potential, or on what its label brings in.
def Paid (step : S → L → Option S) (I : S → Prop) (potential : S → ℕ) (charge : L → ℕ)
    (counts : L → Bool) : Prop :=
  ∀ s l t, I s → step s l = some t →
    I t ∧ potential t + (counts l).toNat ≤ potential s + charge l

namespace Paid

theorem countP_le (h : Paid step I potential charge counts) {s t : S} {ls : List L} (hs : I s)
    (hrun : run step s ls = some t) :
    potential t + ls.countP counts ≤ potential s + (ls.map charge).sum := by
  induction ls generalizing s with
  | nil =>
    obtain rfl := Option.some.inj hrun
    exact Nat.le_refl _
  | cons l ls ih =>
    obtain ⟨u, hu, ht⟩ := Option.bind_eq_some_iff.mp hrun
    obtain ⟨hIu, hpaid⟩ := h s l u hs hu
    have hrest := ih hIu ht
    rw [List.countP_cons, List.map_cons, List.sum_cons]
    cases hl : counts l
    · rw [hl, Bool.toNat_false] at hpaid
      rw [if_neg Bool.false_ne_true]
      omega
    · rw [hl, Bool.toNat_true] at hpaid
      rw [if_pos rfl]
      omega

-- Labels that count and bring nothing in die out, in whatever order they are taken.
theorem exists_rest {allow : S → L → Prop} (h : Paid step I potential charge counts)
    (hallow : ∀ s l, allow s l → counts l = true ∧ charge l = 0) {s : S} (hs : I s) :
    ∃ t, Reachable step allow s t ∧ ∀ l, allow t l → step t l = none := by
  induction hm : potential s using Nat.strongRecOn generalizing s with
  | _ n ih =>
    by_cases hstuck : ∀ l, allow s l → step s l = none
    · exact ⟨s, .refl s, hstuck⟩
    · push Not at hstuck
      obtain ⟨l, hl, hne⟩ := hstuck
      obtain ⟨u, hu⟩ := Option.ne_none_iff_exists'.mp hne
      obtain ⟨hIu, hpaid⟩ := h s l u hs hu
      obtain ⟨hcounts, hfree⟩ := hallow s l hl
      rw [hcounts, hfree, Bool.toNat_true] at hpaid
      obtain ⟨t, ht, hend⟩ := ih (potential u) (by omega) hIu rfl
      exact ⟨t, ((Reachable.refl s).tail hl hu).trans ht, hend⟩

end Paid

end Transition
