import DeiChain.Miner

namespace DeiChain

open ByteLayout

theorem toNat_of_mem_toDigits {n : ℕ} {c : Char} (h : c ∈ Nat.toDigits 10 n) :
    48 ≤ c.toNat ∧ c.toNat ≤ 57 := by
  have hdigit := Nat.isDigit_of_mem_toDigits (by decide) (by decide) h
  simp only [Char.isDigit, Bool.and_eq_true, decide_eq_true_eq] at hdigit
  exact ⟨UInt32.le_iff_toNat_le.mp hdigit.1, UInt32.le_iff_toNat_le.mp hdigit.2⟩

theorem decimal_natCast (n : ℕ) :
    decimal n = (Nat.toDigits 10 n).map (fun c => UInt8.ofNat c.toNat) := by
  rw [decimal, if_neg (by omega), List.nil_append, Int.natAbs_natCast]

theorem mem_decimal {n : ℕ} {x : UInt8} (h : x ∈ decimal n) : 48 ≤ x.toNat := by
  rw [decimal_natCast] at h
  obtain ⟨c, hc, rfl⟩ := List.mem_map.mp h
  have hbounds := toNat_of_mem_toDigits hc
  rw [UInt8.toNat_ofNat_of_lt' (by rw [UInt8.size]; omega)]
  exact hbounds.1

theorem length_decimal_le {n : ℕ} (h : n < 2 ^ 31) : (decimal n).length ≤ 10 := by
  rw [decimal_natCast, List.length_map, Nat.length_toDigits_le_iff (by decide) (by decide)]
  omega

theorem decimal_injective : Function.Injective (fun n : ℕ => decimal n) := by
  have hchars : ∀ n : ℕ, (decimal n).map (fun x => Char.ofNat x.toNat) = Nat.toDigits 10 n := by
    intro n
    rw [decimal_natCast, List.map_map]
    refine (List.map_congr_left (fun c hc => ?_)).trans (List.map_id _)
    have hbounds := toNat_of_mem_toDigits hc
    rw [Function.comp_apply, UInt8.toNat_ofNat_of_lt' (by rw [UInt8.size]; omega),
      Char.ofNat_toNat]
    rfl
  intro a b hab
  have hdigits : Nat.toDigits 10 a = Nat.toDigits 10 b := by
    rw [← hchars a, ← hchars b]
    exact congrArg (List.map (fun x => Char.ofNat x.toNat)) hab
  rw [← Nat.ofDigitChars_ten_toDigits (n := a), hdigits, Nat.ofDigitChars_ten_toDigits]

def blockText (minerId blockId : ℕ) : List UInt8 :=
  bytesOf "BLOCK-" ++ decimal minerId ++ bytesOf "-" ++ decimal blockId

theorem length_blockText_le {minerId blockId : ℕ} (hminer : minerId < 2 ^ 31)
    (hblock : blockId < 2 ^ 31) : (blockText minerId blockId).length ≤ 63 := by
  have hm := length_decimal_le hminer
  have hb := length_decimal_le hblock
  have hhead : (bytesOf "BLOCK-").length = 6 := by decide
  have hdash : (bytesOf "-").length = 1 := by decide
  simp only [blockText, List.length_append]
  omega

theorem ne_zero_of_mem_numbered {tag : List UInt8} {a b : ℕ} {x : UInt8} (htag : 0 ∉ tag)
    (h : x ∈ tag ++ decimal a ++ bytesOf "-" ++ decimal b) : x ≠ 0 := by
  rintro rfl
  simp only [List.mem_append] at h
  rcases h with ((h | h) | h) | h
  · exact htag h
  · exact absurd (mem_decimal h) (by decide)
  · exact absurd h (by decide)
  · exact absurd (mem_decimal h) (by decide)

theorem blockText_ne_zero {minerId blockId : ℕ} {x : UInt8} (h : x ∈ blockText minerId blockId) :
    x ≠ 0 := ne_zero_of_mem_numbered (by decide) h

theorem decimal_append_inj {a b : ℕ} {xs ys : List UInt8}
    (h : decimal a ++ 45 :: xs = decimal b ++ 45 :: ys) : a = b ∧ xs = ys := by
  have hwhile : ∀ (n : ℕ) (rest : List UInt8),
      (decimal n ++ 45 :: rest).takeWhile (· != 45) = decimal n := by
    intro n rest
    have hall : ∀ x ∈ decimal n, (x != 45) = true := by
      intro x hx
      refine bne_iff_ne.mpr ?_
      rintro rfl
      exact absurd (mem_decimal hx) (by decide)
    rw [List.takeWhile_append_of_pos hall, List.takeWhile_cons_of_neg (by decide),
      List.append_nil]
  have hfirst : decimal a = decimal b := by
    rw [← hwhile a xs, ← hwhile b ys]
    exact congrArg (List.takeWhile (· != 45)) h
  rw [hfirst] at h
  exact ⟨decimal_injective hfirst, List.cons_injective (List.append_cancel_left h)⟩

theorem blockText_inj {minerId minerId' blockId blockId' : ℕ}
    (h : blockText minerId blockId = blockText minerId' blockId') :
    minerId = minerId' ∧ blockId = blockId' := by
  have hdash : bytesOf "-" = [45] := by decide
  simp only [blockText, hdash, List.append_assoc] at h
  obtain ⟨hminer, hblock⟩ := decimal_append_inj (List.append_cancel_left h)
  exact ⟨hminer, decimal_injective hblock⟩

theorem cString_snprintf {n : ℕ} {s : List UInt8} (hlen : s.length ≤ n)
    (hs : ∀ x ∈ s, x ≠ 0) : cString (terminate (snprintf n s)).toList = s := by
  have hshape : (terminate (snprintf n s)).toList =
      s ++ (List.replicate (n - s.length) 0 ++ [0]) := by
    change ((s.take n ++ List.replicate (n + 1) 0).take (n + 1)).take n ++ [0] = _
    rw [List.take_of_length_le hlen, List.take_take, Nat.min_eq_left (Nat.le_succ n),
      List.take_append, List.take_of_length_le hlen, List.take_replicate,
      Nat.min_eq_left (by omega), List.append_assoc]
  have hzeros : (List.replicate (n - s.length) 0 ++ [(0 : UInt8)]).takeWhile (· != 0) = [] := by
    cases n - s.length <;> rfl
  rw [hshape, cString, List.takeWhile_append_of_pos (fun x hx => bne_iff_ne.mpr (hs x hx)), hzeros,
    List.append_nil]

end DeiChain
