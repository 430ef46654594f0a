import DeiChain.Controller
import DeiChain.Refinement

namespace DeiChain

variable {cfg : Config}

-- add_block_to_ledger and dump_ledger write the same product: the two ints are multiplied as
-- ints, and the result becomes a size_t for the last factor.
def blockTxOffset (cfg : Config) (i : ℕ) : UInt64 :=
  UInt64.ofInt (Int32.ofNat i * Int32.ofNat cfg.transactionsPerBlock).toInt *
    UInt64.ofNat sizeofTransaction

def targetTxLocation (att : Attachment cfg) (i : ℕ) : UInt64 :=
  let entriesBase := UInt64.ofNat att.base + UInt64.ofNat sizeofBlockchainLedger
  let transactionsBase := entriesBase +
    UInt64.ofNat cfg.blockchainBlocks * UInt64.ofNat sizeofBlockchainEntry
  transactionsBase + blockTxOffset cfg i

def areaSize (cfg : Config) : ℕ := cfg.transactionsPerBlock * sizeofTransaction

structure AreaSound (att : Attachment cfg) (i : ℕ) : Prop where
  behind : att.base + sizeofBlockchainLedger + cfg.blockchainBlocks * sizeofBlockchainEntry ≤
    (targetTxLocation att i).toNat
  inside : (targetTxLocation att i).toNat + areaSize cfg ≤ att.base + ledgerSize cfg
  disjoint : ∀ j < cfg.blockchainBlocks, j ≠ i →
    (targetTxLocation att i).toNat + areaSize cfg ≤ (targetTxLocation att j).toNat ∨
      (targetTxLocation att j).toNat + areaSize cfg ≤ (targetTxLocation att i).toNat

theorem ofInt_natCast (n : ℕ) : UInt64.ofInt n = UInt64.ofNat n := by
  apply UInt64.toNat_inj.mp
  rw [UInt64.ofInt, UInt64.toNat_ofNat', UInt64.toNat_ofNat']
  omega

theorem targetTxLocation_eq (att : Attachment cfg) {i : ℕ} (hi : i < 2 ^ 31) :
    targetTxLocation att i = att.address (transactionsOffset cfg i) := by
  have hproduct : (Int32.ofNat i * Int32.ofNat cfg.transactionsPerBlock).toInt =
      Int.bmod (i * cfg.transactionsPerBlock) (2 ^ 32) := by
    rw [Int32.toInt_mul, toInt_ofNat_of_lt hi, toInt_ofNat_of_lt cfg.int32.2.2.1]
  have haddress : att.address (transactionsOffset cfg i) =
      UInt64.ofInt (att.base + transactionsOffset cfg i) := rfl
  rw [haddress, targetTxLocation, blockTxOffset, hproduct]
  simp only [← ofInt_natCast, ← UInt64.ofInt_mul, ← UInt64.ofInt_add]
  refine congrArg UInt64.ofInt ?_
  rw [transactionsOffset, transactionsBase, entryOffset]
  ring

theorem toNat_targetTxLocation (att : Attachment cfg) {i : ℕ} (hi : Addressable cfg i) :
    ((targetTxLocation att i).toNat : ℤ) = att.base + transactionsOffset cfg i := by
  have hge := transactionsOffset_ge hi
  have hfit := transactionsOffset_fits hi
  have hpos := cfg.transactionsPerBlock_pos
  have hbase : (att.base : ℤ) + ledgerSize cfg ≤ 2 ^ 64 := by exact_mod_cast att.fits
  have hlt := hi.lt
  rw [targetTxLocation_eq att (by have := cfg.int32; omega), toNat_address,
    Int.emod_eq_of_lt (by omega) (by omega)]

theorem areaSound_of_addressable (att : Attachment cfg)
    (hall : ∀ i < cfg.blockchainBlocks, Addressable cfg i) {i : ℕ}
    (hi : i < cfg.blockchainBlocks) : AreaSound att i := by
  have hloc := toNat_targetTxLocation att (hall i hi)
  have hge := transactionsOffset_ge (hall i hi)
  have hfit := transactionsOffset_fits (hall i hi)
  refine ⟨?_, ?_, fun j hj hne => ?_⟩
  · rw [sizeofBlockchainLedger, sizeofBlockchainEntry]
    omega
  · rw [areaSize, sizeofTransaction]
    omega
  · have hother := toNat_targetTxLocation att (hall j hj)
    rw [areaSize, sizeofTransaction]
    rcases Nat.lt_or_gt_of_ne hne with hlt | hlt
    · have hstep := transactionsOffset_step hlt (hall j hj) (hall i hi)
      omega
    · have hstep := transactionsOffset_step hlt (hall i hi) (hall j hj)
      omega

-- A wrapped product is negative, and the area lies in front of the transactions, or it points
-- into the area of an earlier index.
theorem not_areaSound_of_overflow (att : Attachment cfg) (hsize : ledgerSize cfg < 2 ^ 63) {i : ℕ}
    (hi : i < cfg.blockchainBlocks) (hbig : 2 ^ 31 ≤ i * cfg.transactionsPerBlock) :
    ¬ AreaSound att i := by
  intro hsound
  have htxs := cfg.transactionsPerBlock_pos
  have hblocks := cfg.int32.2.2.2
  have hproduct : i * cfg.transactionsPerBlock + cfg.transactionsPerBlock ≤
      cfg.blockchainBlocks * cfg.transactionsPerBlock := by
    rw [← Nat.succ_mul]
    exact Nat.mul_le_mul_right _ hi
  have hfull := ledgerSize_eq cfg
  have hfits := att.fits
  have hloc := toNat_address att (transactionsOffset cfg i)
  rw [← targetTxLocation_eq att (by omega), transactionsOffset, transactionsBase_eq,
    sizeofTransaction] at hloc
  have hbehind := hsound.behind
  have hinside := hsound.inside
  rw [areaSize, sizeofTransaction] at hinside
  rw [sizeofBlockchainLedger, sizeofBlockchainEntry] at hbehind
  have hlow := Int.le_bmod (x := (i : ℤ) * cfg.transactionsPerBlock) (m := 2 ^ 32) (by decide)
  have hhigh := Int.bmod_lt (x := (i : ℤ) * cfg.transactionsPerBlock) (m := 2 ^ 32) (by decide)
  generalize Int.bmod ((i : ℤ) * cfg.transactionsPerBlock) (2 ^ 32) = wrapped at hloc hlow hhigh
  rcases lt_or_ge wrapped 0 with hneg | hnn
  · omega
  · obtain ⟨w, rfl⟩ := Int.eq_ofNat_of_zero_le hnn
    have hj : w / cfg.transactionsPerBlock < i := by
      refine (Nat.div_lt_iff_lt_mul htxs).mpr ?_
      omega
    have hjlow := Nat.div_mul_le_self w cfg.transactionsPerBlock
    have hjhigh := Nat.lt_div_mul_add htxs (a := w)
    have haddr : Addressable cfg (w / cfg.transactionsPerBlock) := ⟨hj.trans hi, by omega⟩
    have hother := toNat_targetTxLocation att haddr
    rw [transactionsOffset_eq haddr, transactionsBase_eq] at hother
    have hsep := hsound.disjoint _ (hj.trans hi) hj.ne
    rw [areaSize, sizeofTransaction] at hsep
    omega

theorem ledger_offsets_iff (att : Attachment cfg) (hsize : ledgerSize cfg < 2 ^ 63) :
    (∀ i < cfg.blockchainBlocks, AreaSound att i) ↔
      (cfg.blockchainBlocks - 1) * cfg.transactionsPerBlock < 2 ^ 31 := by
  have hpos := cfg.positive.2.2.2
  constructor
  · intro hall
    by_contra hbig
    have hlast : cfg.blockchainBlocks - 1 < cfg.blockchainBlocks := by omega
    exact not_areaSound_of_overflow att hsize hlast (not_lt.mp hbig) (hall _ hlast)
  · intro hfits i hi
    refine areaSound_of_addressable att (fun j hj => ⟨hj, lt_of_le_of_lt ?_ hfits⟩) hi
    exact Nat.mul_le_mul_right _ (by omega)

namespace Sample

def defaultConfig : Config := ⟨5, 50, 10, 50000, by decide, by decide⟩

def defaultAttachment : Attachment defaultConfig := ⟨2 ^ 40, by decide⟩

def hugeConfig : Config := ⟨1, 1, 2 ^ 30, 3, by decide, by decide⟩

def hugeAttachment : Attachment hugeConfig := ⟨2 ^ 40, by decide⟩

end Sample

theorem ledger_offsets_default : AreaSound Sample.defaultAttachment 49999 :=
  (ledger_offsets_iff Sample.defaultAttachment (by decide)).mpr (by decide) 49999 (by decide)

theorem ledger_offset_wraps :
    ledgerSize Sample.hugeConfig < 2 ^ 63 ∧
      ∃ i < Sample.hugeConfig.blockchainBlocks, ¬ AreaSound Sample.hugeAttachment i := by
  refine ⟨by decide, 2, by decide, fun hsound => ?_⟩
  exact absurd hsound.behind (by decide +kernel)

end DeiChain
