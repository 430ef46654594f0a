import Mathlib.Data.Nat.Digits.Defs
import Mathlib.Tactic.Ring

namespace Numeral

variable {b : ℕ}

-- The first digit counts most.
def bigEndian (b : ℕ) (ds : List ℕ) : ℕ := Nat.ofDigits b ds.reverse

@[simp] theorem bigEndian_nil : bigEndian b [] = 0 := rfl

theorem bigEndian_append (xs ys : List ℕ) :
    bigEndian b (xs ++ ys) = bigEndian b xs * b ^ ys.length + bigEndian b ys := by
  rw [bigEndian, List.reverse_append, Nat.ofDigits_append, List.length_reverse]
  simp only [bigEndian]
  ring

theorem bigEndian_cons (d : ℕ) (ds : List ℕ) :
    bigEndian b (d :: ds) = d * b ^ ds.length + bigEndian b ds := by
  have hone : bigEndian b [d] = d := Nat.ofDigits_singleton
  rw [← List.singleton_append, bigEndian_append, hone]

theorem bigEndian_lt (hb : 1 < b) {ds : List ℕ} (hds : ∀ d ∈ ds, d < b) :
    bigEndian b ds < b ^ ds.length := by
  have h := Nat.ofDigits_lt_base_pow_length hb (l := ds.reverse)
    (fun d hd => hds d (List.mem_reverse.mp hd))
  rwa [List.length_reverse] at h

theorem bigEndian_eq_zero_iff (hb : 0 < b) {ds : List ℕ} :
    bigEndian b ds = 0 ↔ ∀ d ∈ ds, d = 0 := by
  induction ds with
  | nil => simp
  | cons d ds ih =>
    have hpow : b ^ ds.length ≠ 0 := (Nat.pow_pos hb).ne'
    rw [bigEndian_cons, Nat.add_eq_zero_iff, Nat.mul_eq_zero, or_iff_left hpow, ih,
      List.forall_mem_cons]

-- The leading digits are zero exactly when the numeral is below the place they begin at.
theorem leading_zeros_iff (hb : 1 < b) {ds : List ℕ} (hds : ∀ d ∈ ds, d < b) (z : ℕ) :
    (∀ d ∈ ds.take z, d = 0) ↔ bigEndian b ds < b ^ (ds.length - z) := by
  have hpos : 0 < b := by omega
  have hlow : bigEndian b (ds.drop z) < b ^ (ds.length - z) := by
    rw [← List.length_drop]
    exact bigEndian_lt hb (fun d hd => hds d (List.mem_of_mem_drop hd))
  have hsplit : bigEndian b ds =
      bigEndian b (ds.take z) * b ^ (ds.length - z) + bigEndian b (ds.drop z) := by
    rw [← List.length_drop, ← bigEndian_append, List.take_append_drop]
  rw [← bigEndian_eq_zero_iff hpos, hsplit]
  constructor
  · intro hzero
    rw [hzero, Nat.zero_mul, Nat.zero_add]
    exact hlow
  · intro hlt
    by_contra hne
    have hle := Nat.le_mul_of_pos_left (b ^ (ds.length - z)) (Nat.pos_of_ne_zero hne)
    omega

-- A digit of the base b ^ 2 is two digits of the base b.
theorem bigEndian_sq (ds : List ℕ) :
    bigEndian b (ds.flatMap (fun d => [d / b, d % b])) = bigEndian (b ^ 2) ds := by
  induction ds with
  | nil => rfl
  | cons d ds ih =>
    have hlen : (ds.flatMap (fun d => [d / b, d % b])).length = 2 * ds.length := by
      simp [List.length_flatMap, List.map_const', Nat.mul_comm]
    have hpair : bigEndian b [d / b, d % b] = d := by
      rw [bigEndian_cons, List.length_singleton, pow_one, bigEndian, List.reverse_singleton,
        Nat.ofDigits_singleton, Nat.mul_comm]
      exact Nat.div_add_mod d b
    rw [List.flatMap_cons, bigEndian_append, hpair, hlen, ih, bigEndian_cons, pow_mul]

end Numeral
