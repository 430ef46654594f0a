import DeiChain.Occupancy
import DeiChain.Segment
import DeiChain.TransactionIds

namespace DeiChain

variable {cfg : Config} {r r' : ReceivedBlock cfg} {pool : TransactionPool cfg.txPoolSize}

-- The available slots that stay available: their ids do not occur in the block.
def remaining (r : ReceivedBlock cfg) (pool : TransactionPool cfg.txPoolSize) : ℕ :=
  (Finset.univ.filter (fun i => (pool.slots i).empty = false ∧
    (pool.slots i).transaction.id ∉ r.block.ids)).card

structure RemovalExact (r : ReceivedBlock cfg) (pool after : TransactionPool cfg.txPoolSize) :
    Prop where
  removed : ∀ i, (pool.slots i).transaction.id ∈ r.block.ids →
    after.slots i = ⟨(pool.slots i).transaction, true, 0⟩
  kept : ∀ i, (pool.slots i).transaction.id ∉ r.block.ids → after.slots i = pool.slots i
  occupancy : after.occupancy = ⌊((available after.slots : ℚ) * 100) / cfg.txPoolSize⌋
  again : removeTransactionsFromPool r after = after
  reordered : ∀ r' : ReceivedBlock cfg, r'.block.transactions.Perm r.block.transactions →
    removeTransactionsFromPool r' pool = after

structure Removable (r : ReceivedBlock cfg) (pool : TransactionPool cfg.txPoolSize) : Prop where
  full : Full r
  named : ∀ t ∈ r.block.transactions, t.id ≠ []
  unique : ∀ i j, (pool.slots i).transaction.id = (pool.slots j).transaction.id →
    (pool.slots i).transaction.id ≠ [] → i = j

theorem Full.heapTail (h : Full r) : r.heapTail = [] := by
  have hheap := r.heap_length
  rw [h.length] at hheap
  exact List.length_eq_zero_iff.mp (by omega)

namespace Removable

theorem apply (h : Removable r pool) (i : Fin cfg.txPoolSize) :
    (removeTransactionsFromPool r pool).slots i =
      if (pool.slots i).transaction.id ∈ r.block.ids then consume (pool.slots i)
      else pool.slots i := by
  have hcarried : (∃ t ∈ r.block.transactions ++ r.heapTail,
      firstCarrier pool.slots t.id = some i) ↔ (pool.slots i).transaction.id ∈ r.block.ids := by
    rw [h.full.heapTail, List.append_nil, TransactionBlock.ids, List.mem_map]
    refine exists_congr (fun t => and_congr_right (fun ht => ?_))
    rw [firstCarrier_of_unique h.unique (h.named t ht), eq_comm]
  rw [removeTransactionsFromPool_apply]
  exact if_congr hcarried rfl rfl

theorem after_remove (h : Removable r pool) :
    Removable r (removeTransactionsFromPool r pool) := by
  refine ⟨h.full, h.named, ?_⟩
  simp only [removeTransactionsFromPool_transaction]
  exact h.unique

theorem reordered (h : Removable r pool)
    (hperm : r'.block.transactions.Perm r.block.transactions) : Removable r' pool where
  full := by
    have hlen := hperm.length_eq
    have hpos := r'.count_pos
    rw [h.full.length, r'.block.transactions_length] at hlen
    rw [Full]
    omega
  named t ht := h.named t (hperm.mem_iff.mp ht)
  unique := h.unique

theorem available_eq (h : Removable r pool) :
    available (removeTransactionsFromPool r pool).slots = remaining r pool := by
  rw [available, remaining]
  congr 1
  ext i
  rw [mem_availableSlots, h.apply, Finset.mem_filter_univ]
  split
  · rename_i hmem
    exact iff_of_false Bool.noConfusion (fun hi => hi.2 hmem)
  · rename_i hmem
    exact (and_iff_left hmem).symm

end Removable

theorem removeTransactionsFromPool_congr {pool' : TransactionPool cfg.txPoolSize}
    (hslots : (removeTransactionsFromPool r' pool').slots =
      (removeTransactionsFromPool r pool).slots)
    (hsem : pool'.workNotificationSem = pool.workNotificationSem) :
    removeTransactionsFromPool r' pool' = removeTransactionsFromPool r pool := by
  simp only [removeTransactionsFromPool, recount_slots] at hslots ⊢
  rw [hslots, TransactionPool.recount, TransactionPool.setSlots, hsem]
  rfl

theorem Removable.remove_again (h : Removable r pool) :
    removeTransactionsFromPool r (removeTransactionsFromPool r pool) =
      removeTransactionsFromPool r pool := by
  refine removeTransactionsFromPool_congr ?_ (removeTransactionsFromPool_sem _ _)
  funext i
  rw [h.after_remove.apply, removeTransactionsFromPool_transaction, h.apply]
  split <;> rfl

theorem Removable.remove_reordered (h : Removable r pool)
    (hperm : r'.block.transactions.Perm r.block.transactions) :
    removeTransactionsFromPool r' pool = removeTransactionsFromPool r pool := by
  refine removeTransactionsFromPool_congr ?_ rfl
  funext i
  have hmem : (pool.slots i).transaction.id ∈ r'.block.ids ↔
      (pool.slots i).transaction.id ∈ r.block.ids := (hperm.map Transaction.id).mem_iff
  rw [(h.reordered hperm).apply, h.apply]
  exact if_congr hmem rfl rfl

theorem Removable.occupancy_iff (h : Removable r pool) :
    (removeTransactionsFromPool r pool).occupancy =
        ⌊((available (removeTransactionsFromPool r pool).slots : ℚ) * 100) / cfg.txPoolSize⌋ ↔
      remaining r pool ≤ 21474836 := by
  have hproduct : 100 * remaining r pool < 2 ^ 31 ↔ remaining r pool ≤ 21474836 := by omega
  rw [removeTransactionsFromPool_occupancy, h.available_eq, ← percentage_eq_floor,
    occupancyOf_eq_iff cfg.positive.2.1 cfg.int32.2.1, hproduct]

theorem removal_exact_iff (h : Removable r pool) :
    RemovalExact r pool (removeTransactionsFromPool r pool) ↔ remaining r pool ≤ 21474836 := by
  rw [← h.occupancy_iff]
  constructor
  · exact RemovalExact.occupancy
  · intro hocc
    refine ⟨fun i hi => ?_, fun i hi => ?_, hocc, h.remove_again,
      fun r' hperm => h.remove_reordered hperm⟩
    · rw [h.apply, if_pos hi]
      rfl
    · rw [h.apply, if_neg hi]

namespace Sample

def removedPool (spare : Fin 2) : TransactionPool (config spare).txPoolSize :=
  ⟨100, 0, fun i => ⟨transaction (1 + UInt8.ofNat i), false, 3⟩⟩

end Sample

theorem removal_exact_one :
    RemovalExact (Sample.received 1) (Sample.removedPool 1)
        (removeTransactionsFromPool (@Sample.received 1 1) (Sample.removedPool 1)) ∧
      ((Sample.removedPool 1).slots 0).transaction.id ∈ (Sample.block 1).ids := by
  have hremovable : Removable (Sample.received 1) (Sample.removedPool 1) :=
    ⟨(by decide : (1 : Int32).toInt = 1), by decide, by decide⟩
  exact ⟨(removal_exact_iff hremovable).mpr (by decide), by decide⟩

namespace Sample

def crowdedConfig : Config := ⟨1, 21474838, 1, 1, by decide, by decide⟩

instance : NeZero crowdedConfig.txPoolSize := ⟨Nat.succ_ne_zero 21474837⟩

def crowdedPool : TransactionPool crowdedConfig.txPoolSize :=
  ⟨100, 0, fun i => ⟨generated 321 i, false, 0⟩⟩

def crowdedReceived : ReceivedBlock crowdedConfig :=
  (admitFrame crowdedConfig 1
    { block 1 with transactions := [generated 321 0], transactions_length := rfl } 0 []).get
    (by decide)

theorem crowdedPool_inj {i j : Fin crowdedConfig.txPoolSize}
    (h : (crowdedPool.slots i).transaction.id = (crowdedPool.slots j).transaction.id) : i = j := by
  have hdigits : digitCount 321 = 3 := by decide
  have hcounter : ∀ l : Fin crowdedConfig.txPoolSize, digitCount l ≤ 11 - digitCount 321 := by
    intro l
    have hl : (l : ℕ) < 21474838 := l.isLt
    rw [hdigits]
    exact digitCount_le (by decide) (by omega)
  have hlead := ((generatedBy_id_eq_iff (by decide) (by decide) ⟨_, _, _, _, _, rfl⟩
    ⟨_, _, _, _, _, rfl⟩).mp h).2
  rw [leadingDigits_of_le (hcounter i), leadingDigits_of_le (hcounter j)] at hlead
  exact Fin.ext hlead

theorem crowded_removable : Removable crowdedReceived crowdedPool := by
  refine ⟨(by decide : (1 : Int32).toInt = 1), fun t ht => ?_, fun i j h _ => crowdedPool_inj h⟩
  obtain rfl := List.mem_singleton.mp ht
  decide

theorem remaining_crowded : remaining crowdedReceived crowdedPool = 21474837 := by
  have hslots : Finset.univ.filter (fun i => (crowdedPool.slots i).empty = false ∧
      (crowdedPool.slots i).transaction.id ∉ crowdedReceived.block.ids) = {0}ᶜ := by
    ext i
    rw [Finset.mem_filter_univ, Finset.mem_compl, Finset.mem_singleton]
    refine (and_iff_right rfl).trans (not_congr ⟨fun h => ?_, ?_⟩)
    · exact crowdedPool_inj (List.mem_singleton.mp h)
    · rintro rfl
      exact List.mem_singleton.mpr rfl
  rw [remaining, hslots, Finset.card_compl, Finset.card_singleton, Fintype.card_fin]
  rfl

end Sample

-- One transaction is removed from a full pool: the percentage falls from 100 to -99.
theorem removal_miscounts :
    ∃ (r : ReceivedBlock Sample.crowdedConfig)
      (pool : TransactionPool Sample.crowdedConfig.txPoolSize),
      Removable r pool ∧ (removeTransactionsFromPool r pool).occupancy = -99 ∧
        ¬ RemovalExact r pool (removeTransactionsFromPool r pool) := by
  have hremovable := Sample.crowded_removable
  refine ⟨_, _, hremovable, ?_, fun hexact => ?_⟩
  · rw [removeTransactionsFromPool_occupancy, hremovable.available_eq, Sample.remaining_crowded]
    decide
  · have hfew := hremovable.occupancy_iff.mp hexact.occupancy
    rw [Sample.remaining_crowded] at hfew
    exact absurd hfew (by decide)

end DeiChain
