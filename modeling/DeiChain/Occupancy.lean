import DeiChain.ExactlyOnce
import DeiChain.Flags
import Mathlib.Data.Rat.Floor

namespace DeiChain

open ByteLayout Transition

variable {cfg : Config} {k : ℕ} {env : Environment cfg}

def percentage (count size : ℕ) : ℤ := (100 * count / size : ℕ)

theorem percentage_eq_ediv (count size : ℕ) :
    percentage count size = ((count : ℤ) * 100) / size := by
  rw [percentage, Int.natCast_ediv, Nat.cast_mul, Int.mul_comm]
  rfl

theorem bmod_product {count : ℕ} (h : 100 * count < 2 ^ 31) :
    Int.bmod ((count : ℤ) * 100) (2 ^ 32) = (count : ℤ) * 100 :=
  Int.bmod_eq_of_le (by omega) (by omega)

theorem bmod_product_le {count size : ℕ} (hsize : size < 2 ^ 31) (h : ¬ 100 * count < 2 ^ 31) :
    Int.bmod ((count : ℤ) * 100) (2 ^ 32) ≤ (count : ℤ) * 100 + (-1) * size := by
  have hmod := Int.bmod_def ((count : ℤ) * 100) (2 ^ 32)
  split at hmod <;> omega

-- The int product count * 100 is exact below 2^31; once it wraps, the quotient is off as well.
theorem occupancyOf_eq_iff {count size : ℕ} (hpos : 0 < size) (hsize : size < 2 ^ 31) :
    occupancyOf count size = percentage count size ↔ 100 * count < 2 ^ 31 := by
  have hunfold : occupancyOf count size = percentage count size ↔
      (Int.bmod ((count : ℤ) * 100) (2 ^ 32)).tdiv size = (count : ℤ) * 100 / size :=
    Iff.of_eq (congrArg (occupancyOf count size = ·) (percentage_eq_ediv count size))
  refine hunfold.trans ⟨fun heq => ?_, fun hlt => ?_⟩
  · by_contra hbig
    have hnn : 0 ≤ (count : ℤ) * 100 + (-1) * size := by omega
    have hle := Int.tdiv_le_tdiv (c := (size : ℤ)) (by omega) (bmod_product_le hsize hbig)
    rw [Int.tdiv_eq_ediv_of_nonneg hnn, Int.add_mul_ediv_right _ _ (by omega), heq] at hle
    omega
  · rw [bmod_product hlt]
    exact Int.tdiv_eq_ediv_of_nonneg (by omega)

def Truthful (s : State cfg k) : Prop :=
  s.pool.occupancy = percentage (available s.pool.slots) cfg.txPoolSize

def availableAfter (s : State cfg k) (l : Label cfg k) : ℕ :=
  ((availableSlots s.pool.slots \ (taken s l).toFinset) ∪
    (inserted s l ++ restored s l).toFinset).card

-- A step that counts the entries does so without overflow, and one that does not count leaves
-- the percentage as it was.
def Refreshed (s : State cfg k) (l : Label cfg k) : Prop :=
  if refreshes s l then 100 * availableAfter s l < 2 ^ 31
  else percentage (availableAfter s l) cfg.txPoolSize =
    percentage (available s.pool.slots) cfg.txPoolSize

instance (s : State cfg k) (l : Label cfg k) : Decidable (Refreshed s l) :=
  inferInstanceAs (Decidable (if refreshes s l then 100 * availableAfter s l < 2 ^ 31
    else percentage (availableAfter s l) cfg.txPoolSize =
      percentage (available s.pool.slots) cfg.txPoolSize))

instance (s : State cfg k) : Decidable (Truthful s) := inferInstanceAs (Decidable (_ = _))

theorem FlagStep.available {s t : State cfg k} {l : Label cfg k} (h : FlagStep s l t) :
    available t.pool.slots = availableAfter s l := by
  refine congrArg Finset.card ?_
  ext i
  simp only [mem_availableSlots, h.flags, Finset.mem_union, Finset.mem_sdiff, List.mem_toFinset,
    List.mem_append]
  split
  · simp_all
  · split <;> simp_all

theorem truthful_step {s t : State cfg k} {l : Label cfg k} (h : Truthful s)
    (hstep : step env s l = some t) : Truthful t ↔ Refreshed s l := by
  have hflag := flagStep_of_step hstep
  rw [Truthful, hflag.occupancy, Refreshed, hflag.available]
  split
  · exact occupancyOf_eq_iff cfg.positive.2.1 cfg.int32.2.1
  · rw [h, eq_comm]

theorem occupancy_truthful {s : State cfg k}
    (h : Reachable (step env) Refreshed (initState cfg k) s) :
    Truthful s ∧ ∀ l t, step env s l = some t → (Truthful t ↔ Refreshed s l) := by
  have htrue : Truthful s := by
    refine h.invariant ?_ (fun a l b ha hallow hstep => (truthful_step ha hstep).mpr hallow)
    have hnone : available (initState cfg k).pool.slots = 0 := by
      simp [available, availableSlots, initState, initPool]
    rw [Truthful, hnone, percentage, Nat.mul_zero, Nat.zero_div]
    rfl
  exact ⟨htrue, fun l t hstep => truthful_step htrue hstep⟩

namespace Sample

def broadConfig : Config := ⟨1, 201, 1, 1, by decide, by decide⟩

def broadEnvironment : Environment broadConfig :=
  ⟨fun _ => List.Vector.replicate 32 0, ⟨0, by decide⟩⟩

end Sample

-- One of 201 slots is no percent yet, so the selection, which does not count, changes nothing.
theorem occupancy_truthful_after_select :
    ∃ s : State Sample.broadConfig 1, s.used = [[1]] ∧ available s.pool.slots = 0 ∧
      Truthful s := by
  let m : Fin Sample.broadConfig.numMiners := ⟨0, Nat.one_pos⟩
  let labels : List (Label Sample.broadConfig 1) := [.shared (.add (Sample.transaction 1)),
    .shared .post, .miner m .wait, .miner m .snapshot, .miner m .select]
  have hrun : (runAllowed (step Sample.broadEnvironment) Refreshed (initState _ 1) labels).any
      (fun s => decide (s.used = [[1]] ∧ available s.pool.slots = 0)) = true := by
    decide +kernel
  obtain ⟨s, hs, hend⟩ := (Option.any_eq_true ..).mp hrun
  obtain ⟨hused, hnone⟩ := of_decide_eq_true hend
  exact ⟨s, hused, hnone, (occupancy_truthful (reachable_of_runAllowed hs)).1⟩

theorem occupancy_stale_after_select :
    ∃ s : State (Sample.config 1) 1,
      Reachable (step (Sample.environment 1)) always (initState _ 1) s ∧
        available s.pool.slots = 0 ∧ s.pool.occupancy = 50 ∧ ¬ Truthful s := by
  have hrun : (run (step (Sample.environment 1)) (initState (Sample.config 1) 1)
      (Sample.add 1 ++ Sample.reserve 0)).any (fun s => decide (available s.pool.slots = 0 ∧
        s.pool.occupancy = 50 ∧ ¬ Truthful s)) = true := by
    decide +kernel
  obtain ⟨s, hs, hend⟩ := (Option.any_eq_true ..).mp hrun
  exact ⟨s, reachable_of_run hs, of_decide_eq_true hend⟩

structure OccupancyExact (count size : ℕ) (occupancy : ℤ) : Prop where
  floor : occupancy = ⌊((count : ℚ) * 100) / size⌋
  nonneg : 0 ≤ occupancy
  le : occupancy ≤ 100

theorem percentage_eq_floor (count size : ℕ) :
    percentage count size = ⌊((count : ℚ) * 100) / size⌋ := by
  rw [percentage_eq_ediv, ← Rat.floor_intCast_div_natCast]
  push_cast
  rfl

theorem percentage_le {count size : ℕ} (hcount : count ≤ size) : percentage count size ≤ 100 := by
  have hle : 100 * count / size ≤ 100 :=
    Nat.div_le_of_le_mul (by rw [Nat.mul_comm size]; exact Nat.mul_le_mul_left _ hcount)
  rw [percentage]
  exact_mod_cast hle

theorem occupancyExact_iff {count : ℕ} (hcount : count ≤ cfg.txPoolSize) :
    OccupancyExact count cfg.txPoolSize (occupancyOf count cfg.txPoolSize) ↔
      count ≤ 21474836 := by
  have hproduct : 100 * count < 2 ^ 31 ↔ count ≤ 21474836 := by omega
  rw [← hproduct, ← occupancyOf_eq_iff cfg.positive.2.1 cfg.int32.2.1]
  constructor
  · exact fun h => h.floor.trans (percentage_eq_floor _ _).symm
  · intro h
    rw [h]
    exact ⟨percentage_eq_floor _ _, Int.natCast_nonneg _, percentage_le hcount⟩

theorem removeTransactionsFromPool_occupancy (r : ReceivedBlock cfg)
    (pool : TransactionPool cfg.txPoolSize) : (removeTransactionsFromPool r pool).occupancy =
      occupancyOf (available (removeTransactionsFromPool r pool).slots) cfg.txPoolSize := by
  rw [removeTransactionsFromPool, recount_slots, recount_occupancy]

theorem restoreRefused_occupancy (r : ReceivedBlock cfg)
    (pool : TransactionPool cfg.txPoolSize) : (restoreRefused r pool).occupancy =
      occupancyOf (available (restoreRefused r pool).slots) cfg.txPoolSize := by
  rw [restoreRefused, recount_slots, recount_occupancy]

theorem occupancy_exact_iff {count : ℕ} (hcount : count ≤ cfg.txPoolSize) :
    (OccupancyExact count cfg.txPoolSize (occupancyOf count cfg.txPoolSize) ↔
      count ≤ 21474836) ∧
    ∀ pool : TransactionPool cfg.txPoolSize,
      (∀ tx, (addTransactionToPool tx pool).1 = 0 →
        available (addTransactionToPool tx pool).2.slots = count →
        (addTransactionToPool tx pool).2.occupancy = occupancyOf count cfg.txPoolSize) ∧
      ∀ r : ReceivedBlock cfg,
        (available (removeTransactionsFromPool r pool).slots = count →
          (removeTransactionsFromPool r pool).occupancy = occupancyOf count cfg.txPoolSize) ∧
        (available (restoreRefused r pool).slots = count →
          (restoreRefused r pool).occupancy = occupancyOf count cfg.txPoolSize) := by
  refine ⟨occupancyExact_iff hcount, fun pool => ⟨fun tx hcode hafter => ?_, fun r => ⟨?_, ?_⟩⟩⟩
  · rcases addSection_cases tx pool with ⟨code, hne, hadd⟩ | ⟨position, -, hadd⟩
    · rw [addTransactionToPool, hadd] at hcode
      exact absurd hcode hne
    · rw [← hafter, addTransactionToPool, hadd]
      simp only [if_true, insertAt, recount_slots]
      exact recount_occupancy _ _
  · rintro rfl
    exact removeTransactionsFromPool_occupancy r pool
  · rintro rfl
    exact restoreRefused_occupancy r pool

theorem occupancy_exact_half :
    OccupancyExact 1 (Sample.config 0).txPoolSize (occupancyOf 1 (Sample.config 0).txPoolSize) :=
  (@occupancy_exact_iff (Sample.config 0) 1 (by decide)).1.mpr (by decide)

namespace Sample

def vastConfig : Config := ⟨1, 21474837, 1, 1, by decide, by decide⟩

def vastReceived : ReceivedBlock vastConfig :=
  (admitFrame vastConfig 1 (block 1) 0 []).get (by decide)

def vastPool : TransactionPool vastConfig.txPoolSize := ⟨100, 0, fun _ => ⟨.zero, false, 0⟩⟩

end Sample

-- Nothing is removed and every entry is available: the percentage falls from 100 to -99.
theorem occupancy_wraps :
    ∃ (r : ReceivedBlock Sample.vastConfig) (pool : TransactionPool Sample.vastConfig.txPoolSize),
      available (removeTransactionsFromPool r pool).slots = Sample.vastConfig.txPoolSize ∧
      (removeTransactionsFromPool r pool).occupancy = -99 := by
  have hslots : (removeTransactionsFromPool Sample.vastReceived Sample.vastPool).slots =
      Sample.vastPool.slots := by
    funext i
    rw [removeTransactionsFromPool_apply, if_neg]
    rintro ⟨t, ht, hfirst⟩
    obtain rfl := List.mem_singleton.mp ht
    have hid : Transaction.zero.id = (Sample.transaction 1).id := (firstCarrier_eq_some.mp hfirst).1
    exact absurd hid (by decide)
  have hall : available Sample.vastPool.slots = Sample.vastConfig.txPoolSize := by
    simp [available, availableSlots, Sample.vastPool]
  refine ⟨Sample.vastReceived, Sample.vastPool, by rw [hslots, hall], ?_⟩
  rw [removeTransactionsFromPool_occupancy, hslots, hall]
  decide

end DeiChain
