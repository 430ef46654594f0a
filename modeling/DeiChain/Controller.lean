import DeiChain.Data

namespace DeiChain

-- The numbers fscanf stored, in order; the fields it did not reach keep the zero they start with.
def readConfig (stored : List Int32) : Option Config :=
  let numMiners := (stored.getD 0 0).toInt
  let txPoolSize := (stored.getD 1 0).toInt
  let transactionsPerBlock := (stored.getD 2 0).toInt
  let blockchainBlocks := (stored.getD 3 0).toInt
  if h : numMiners ≤ 0 ∨ txPoolSize ≤ 0 ∨ transactionsPerBlock ≤ 0 ∨ blockchainBlocks ≤ 0 then none
  else some
    { numMiners := numMiners.toNat
      txPoolSize := txPoolSize.toNat
      transactionsPerBlock := transactionsPerBlock.toNat
      blockchainBlocks := blockchainBlocks.toNat
      positive := by omega
      int32 := by
        have hmax : ∀ i, (stored.getD i 0).toInt < 2 ^ 31 := fun i => Int32.toInt_lt _
        have := hmax 0
        have := hmax 1
        have := hmax 2
        have := hmax 3
        omega }

theorem exists_readConfig (cfg : Config) : ∃ stored, readConfig stored = some cfg := by
  obtain ⟨hminers, hpool, htxs, hblocks⟩ := cfg.int32
  have hpos := cfg.positive
  refine ⟨[Int32.ofNat cfg.numMiners, Int32.ofNat cfg.txPoolSize,
    Int32.ofNat cfg.transactionsPerBlock, Int32.ofNat cfg.blockchainBlocks], ?_⟩
  simp only [readConfig, List.getD_cons_zero, List.getD_cons_succ, toInt_ofNat_of_lt hminers,
    toInt_ofNat_of_lt hpool, toInt_ofNat_of_lt htxs, toInt_ofNat_of_lt hblocks, Int.toNat_natCast]
  rw [dif_neg (by omega)]

end DeiChain
