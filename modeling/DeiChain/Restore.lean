import DeiChain.Chain
import DeiChain.Selection

namespace DeiChain

open ByteMemory

variable {n : ℕ} {cfg : Config}

-- The branch of validator_main for a block that validate_block has accepted.
def storeBlock (att : Attachment cfg) (r : ReceivedBlock cfg) (m : Memory)
    (pool : TransactionPool n) : Memory × TransactionPool n :=
  let (code, m) := addBlockToLedger att r m
  (m, if code = 0 then removeTransactionsFromPool r pool else restoreRefused r pool)

structure WellNamed (slots : Slots n) : Prop where
  unique : ∀ i j, (slots i).transaction.id = (slots j).transaction.id →
    (slots i).transaction.id ≠ [] → i = j
  named : ∀ i, (slots i).empty = false → (slots i).transaction.id ≠ []

-- The reservation as its caller sees it: which slots were flagged, and the records copied.
structure Chosen (slots after : Slots n) (txs : List Transaction) (chosen : List (Fin n)) :
    Prop where
  full : ∀ i ∈ chosen, (slots i).empty = false
  txs_eq : txs = chosen.map (fun i => (slots i).transaction)
  after_apply : ∀ i, after i = if i ∈ chosen then (slots i).setEmpty true else slots i

theorem chosen_of_select {count : ℕ} {slots after : Slots n} {txs : List Transaction}
    (h : selectTransactions count slots = (after, some txs)) :
    Chosen slots after txs ((freshSlots slots).take count) := by
  rw [selectTransactions_eq, selectionOf] at h
  split at h
  · obtain ⟨hafter, htxs⟩ := Prod.mk.inj h
    exact ⟨fun i hi => (mem_freshSlots.mp (List.mem_of_mem_take hi)).1,
      (Option.some.inj htxs).symm, fun i => by rw [← hafter]⟩
  · cases (Prod.mk.inj h).2

namespace Chosen

variable {slots after : Slots n} {txs : List Transaction} {chosen : List (Fin n)}

theorem transaction_eq (h : Chosen slots after txs chosen) (i : Fin n) :
    (after i).transaction = (slots i).transaction := by
  rw [h.after_apply]
  split <;> rfl

theorem carries_iff (h : Chosen slots after txs chosen) (hnames : WellNamed slots) (i : Fin n) :
    (∃ t ∈ txs, (slots i).transaction.id = t.id) ↔ i ∈ chosen := by
  rw [h.txs_eq]
  constructor
  · rintro ⟨t, ht, hid⟩
    obtain ⟨j, hj, rfl⟩ := List.mem_map.mp ht
    have hnamed := hnames.named j (h.full j hj)
    exact hnames.unique j i hid.symm hnamed ▸ hj
  · intro hi
    exact ⟨_, List.mem_map_of_mem hi, rfl⟩

theorem first_iff (h : Chosen slots after txs chosen) (hnames : WellNamed slots) (i : Fin n) :
    (∃ t ∈ txs, firstCarrier after t.id = some i) ↔ i ∈ chosen := by
  rw [← h.carries_iff hnames]
  refine exists_congr (fun t => and_congr_right (fun ht => ?_))
  rw [h.txs_eq] at ht
  obtain ⟨j, hj, rfl⟩ := List.mem_map.mp ht
  rw [firstCarrier_congr h.transaction_eq]
  exact firstCarrier_of_unique hnames.unique (hnames.named j (h.full j hj))

-- Whatever a loop marks as free again, it undoes the reservation if these are the chosen slots.
theorem restored (h : Chosen slots after txs chosen) {marked : Fin n → Prop}
    [DecidablePred marked] (hmarked : ∀ i, marked i ↔ i ∈ chosen) :
    (fun i => if marked i then (after i).setEmpty false else after i) = slots := by
  funext i
  simp only [hmarked, h.after_apply]
  split
  · rename_i hi
    rw [TransactionPoolEntry.setEmpty_setEmpty, ← h.full i hi]
    rfl
  · rfl

theorem found_of_mem (h : Chosen slots after txs chosen) (hnames : WellNamed slots)
    {t : Transaction} (ht : t ∈ txs) : found after t = true := by
  rw [h.txs_eq] at ht
  obtain ⟨i, hi, rfl⟩ := List.mem_map.mp ht
  exact found_iff.mpr ⟨hnames.named i (h.full i hi), i, by rw [h.transaction_eq]⟩

theorem restoreLoop_eq (h : Chosen slots after txs chosen) (hnames : WellNamed slots) :
    restoreLoop txs after = slots := by
  refine h.restored (fun i => ?_)
  rw [h.transaction_eq]
  exact h.carries_iff hnames i

theorem poolSection_eq (h : Chosen slots after txs chosen) (hnames : WellNamed slots)
    {extra : Transaction} (hmissing : found after extra = false) :
    poolSection (txs ++ [extra]) after = (false, slots) := by
  have htake : (txs ++ [extra]).takeWhile (found after) = txs := by
    rw [List.takeWhile_append_of_pos (fun t ht => h.found_of_mem hnames ht),
      List.takeWhile_cons_of_neg (by simp [hmissing]), List.append_nil]
  have hbad : ∃ t ∈ txs ++ [extra], found after t = false := ⟨extra, by simp, hmissing⟩
  refine Prod.ext ?_ ?_
  · rw [poolSection_fst]
    simp [hmissing]
  · rw [← h.restored (h.first_iff hnames)]
    funext i
    rw [poolSection_apply, htake]
    exact if_congr (and_iff_right hbad) rfl rfl

theorem restoreRefused_eq (h : Chosen slots after txs chosen) (hnames : WellNamed slots)
    {r : ReceivedBlock cfg} (hr : r.block.transactions = txs) {pool : TransactionPool n}
    (hpool : pool.slots = after) : (restoreRefused r pool).slots = slots := by
  rw [← h.restored (h.first_iff hnames)]
  funext i
  rw [restoreRefused_apply, hr, hpool]

end Chosen

theorem reserve_then_restore {count : ℕ} {slots after : Slots n} {txs : List Transaction}
    (hnames : WellNamed slots) (hselect : selectTransactions count slots = (after, some txs)) :
    restoreLoop txs after = slots ∧
    (∀ (sha : Sha) (att : Attachment cfg) (m : Memory) (b : TransactionBlock) (extra : Transaction),
      b.transactions = txs ++ [extra] → found after extra = false →
      verifyNonce sha b = true → checkLink sha att m b = true →
      validateBlock sha att m true b after = (false, slots)) ∧
    ∀ (att : Attachment cfg) (m : Memory) (r : ReceivedBlock cfg) (pool : TransactionPool n),
      r.block.transactions = txs → pool.slots = after → numBlocks m ≥ cfg.blockchainBlocks →
      (storeBlock att r m pool).1 = m ∧ (storeBlock att r m pool).2.slots = slots := by
  have hchosen := chosen_of_select hselect
  refine ⟨hchosen.restoreLoop_eq hnames, ?_, ?_⟩
  · intro sha att m b extra hb hmissing hpow hlink
    have hundo := hchosen.poolSection_eq hnames hmissing
    simp [validateBlock, hpow, hlink, hb, hundo]
  · intro att m r pool hr hpool hfull
    have hadd : addBlockToLedger att r m = (-1, m) := by rw [addBlockToLedger, if_pos hfull]
    have hstore : storeBlock att r m pool = (m, restoreRefused r pool) := by
      rw [storeBlock, hadd]
      rfl
    rw [hstore]
    exact ⟨rfl, hchosen.restoreRefused_eq hnames hr hpool⟩

namespace Sample

def twoIds : Slots 2 := fun i => ⟨transaction (65 + UInt8.ofNat i), false, 3⟩

end Sample

theorem reserve_then_restore_one :
    ∃ after, selectTransactions 1 Sample.twoIds = (after, some [Sample.transaction 65]) ∧
      after ≠ Sample.twoIds ∧ restoreLoop [Sample.transaction 65] after = Sample.twoIds := by
  have hnames : WellNamed Sample.twoIds := ⟨by decide, by decide⟩
  have hselect : selectTransactions 1 Sample.twoIds =
      ((selectTransactions 1 Sample.twoIds).1, some [Sample.transaction 65]) := by
    refine Prod.ext rfl ?_
    decide
  exact ⟨_, hselect, by decide,
    (@reserve_then_restore _ (Sample.config 0) _ _ _ _ hnames hselect).1⟩

end DeiChain
