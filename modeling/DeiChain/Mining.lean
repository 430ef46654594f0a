import DeiChain.Pow

namespace DeiChain

open ByteLayout

variable {sha : Sha} {best : ℤ}

def TransactionBlock.withNonce (b : TransactionBlock) (n : ℕ) : TransactionBlock :=
  { b with nonce := UInt32.ofNat n }

theorem nonce_withNonce {b : TransactionBlock} {n : ℕ} (h : n ≤ powMaxOps) :
    (b.withNonce n).nonce.toNat = n :=
  UInt32.toNat_ofNat_of_lt' (lt_of_le_of_lt h (by decide))

theorem withNonce_succ (b : TransactionBlock) (n : ℕ) :
    { b.withNonce n with nonce := (b.withNonce n).nonce + 1 } = b.withNonce (n + 1) := by
  rw [TransactionBlock.withNonce, TransactionBlock.withNonce, UInt32.ofNat_add]
  rfl

def meetsDifficulty (sha : Sha) (best : ℤ) (b : TransactionBlock) (n : ℕ) : Prop :=
  checkDifficulty (computeSha256 sha (b.withNonce n)) best = true

inductive Searched (sha : Sha) (best : ℤ) (b : TransactionBlock) (start : ℕ) :
    TransactionBlock × PoWResult → Prop
  | found {n : ℕ} (hstart : start ≤ n) (hbound : n < powMaxOps)
      (hmeets : meetsDifficulty sha best b n)
      (hleast : ∀ m, start ≤ m → m < n → ¬ meetsDifficulty sha best b m) :
      Searched sha best b start
        (b.withNonce n, ⟨cString (computeSha256 sha (b.withNonce n)).toList, n + 1, false⟩)
  | exhausted (hnone : ∀ m, start ≤ m → m < powMaxOps → ¬ meetsDifficulty sha best b m) :
      Searched sha best b start (b.withNonce powMaxOps, ⟨[], powMaxOps, true⟩)

theorem Searched.skip {b : TransactionBlock} {start : ℕ} {r : TransactionBlock × PoWResult}
    (hmissed : ¬ meetsDifficulty sha best b start) (h : Searched sha best b (start + 1) r) :
    Searched sha best b start r := by
  have hfrom : ∀ {m}, start ≤ m → m = start ∨ start + 1 ≤ m := fun hm => by omega
  cases h with
  | found hstart hbound hmeets hleast =>
    refine .found (by omega) hbound hmeets (fun m hm hlt => ?_)
    rcases hfrom hm with rfl | hm
    · exact hmissed
    · exact hleast m hm hlt
  | exhausted hnone =>
    refine .exhausted (fun m hm hlt => ?_)
    rcases hfrom hm with rfl | hm
    · exact hmissed
    · exact hnone m hm hlt

-- The nonce and the operation counter run together, so the fuel left is what lies between the
-- nonce and the bound.
theorem powLoop_searched (b : TransactionBlock) {fuel start : ℕ}
    (hfuel : fuel + start = powMaxOps) (hpos : 0 < fuel) :
    Searched sha best b start (powLoop sha best fuel (b.withNonce start) start) := by
  induction fuel generalizing start with
  | zero => cases hpos
  | succ fuel ih =>
    have hnonce : (b.withNonce start).nonce.toNat = start := nonce_withNonce (by omega)
    simp only [powLoop, hnonce]
    rw [if_pos (by omega)]
    split
    · rename_i hmeets
      exact .found le_rfl (by omega) hmeets (fun m hm hlt => absurd hm (by omega))
    · rename_i hmissed
      refine .skip hmissed ?_
      split
      · rename_i hend
        have hlast : start + 1 = powMaxOps := by omega
        rw [withNonce_succ, hlast]
        exact .exhausted (fun m hm hlt => absurd hm (by omega))
      · rename_i hmore
        rw [withNonce_succ]
        exact ih (by omega) (by omega)

theorem proofOfWork_searched (sha : Sha) (b : TransactionBlock) :
    Searched sha (maxReward b.transactions) b 0 (proofOfWork sha b) :=
  @powLoop_searched _ _ b _ 0 rfl (by decide)

theorem verifyNonce_withNonce (sha : Sha) (b : TransactionBlock) (n : ℕ) :
    verifyNonce sha (b.withNonce n) = true ↔
      meetsDifficulty sha (maxReward b.transactions) b n := Iff.rfl

theorem mining_least_nonce (sha : Sha) (b : TransactionBlock) :
    ((proofOfWork sha b).2.error = false ↔
        ∃ n < powMaxOps, verifyNonce sha (b.withNonce n) = true) ∧
      ((proofOfWork sha b).2.error = false →
        (proofOfWork sha b).1.nonce.toNat < powMaxOps ∧
          verifyNonce sha (proofOfWork sha b).1 = true ∧
          (∀ n < (proofOfWork sha b).1.nonce.toNat, verifyNonce sha (b.withNonce n) = false) ∧
          (proofOfWork sha b).2.operations = (proofOfWork sha b).1.nonce.toNat + 1 ∧
          (proofOfWork sha b).2.hash =
            cString (computeSha256 sha (proofOfWork sha b).1).toList) ∧
      ((proofOfWork sha b).2.error = true →
        (proofOfWork sha b).2.operations = powMaxOps ∧ (proofOfWork sha b).2.hash = []) ∧
      (proofOfWork sha b).1 = { b with nonce := (proofOfWork sha b).1.nonce } := by
  have hsearched := proofOfWork_searched sha b
  generalize proofOfWork sha b = r at hsearched
  cases hsearched with
  | @found n _ hbound hmeets hleast =>
    have haccepts := (verifyNonce_withNonce sha b n).mpr hmeets
    refine ⟨iff_of_true rfl ⟨n, hbound, haccepts⟩, fun _ => ?_, fun h => (by cases h), rfl⟩
    rw [nonce_withNonce hbound.le]
    refine ⟨hbound, haccepts, fun m hm => Bool.eq_false_iff.mpr (fun hm' => ?_), rfl, rfl⟩
    exact hleast m (Nat.zero_le m) hm ((verifyNonce_withNonce sha b m).mp hm')
  | exhausted hnone =>
    refine ⟨iff_of_false Bool.noConfusion ?_, fun h => (by cases h), fun _ => ⟨rfl, rfl⟩, rfl⟩
    rintro ⟨n, hbound, haccepts⟩
    exact hnone n (Nat.zero_le n) hbound ((verifyNonce_withNonce sha b n).mp haccepts)

end DeiChain
