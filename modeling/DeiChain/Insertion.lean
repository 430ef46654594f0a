import DeiChain.TxGen

namespace DeiChain

variable {n : ℕ}

inductive SemaphoreCall
  | waitMutex
  | postMutex
  | postWorkNotification
deriving DecidableEq

def TransactionPool.notify (pool : TransactionPool n) : TransactionPool n :=
  { pool with workNotificationSem := pool.workNotificationSem + 1 }

@[simp] theorem notify_slots (pool : TransactionPool n) : pool.notify.slots = pool.slots := rfl

@[simp] theorem notify_occupancy (pool : TransactionPool n) :
    pool.notify.occupancy = pool.occupancy := rfl

@[simp] theorem notify_sem (pool : TransactionPool n) :
    pool.notify.workNotificationSem = pool.workNotificationSem + 1 := rfl

-- The whole call: its result, the pool it leaves and its semaphore calls in order.
def addTransactionToPoolCall (tx : Transaction) (pool : TransactionPool n) :
    ℤ × TransactionPool n × List SemaphoreCall :=
  match Fin.find? (fun i => (pool.slots i).empty) with
  | some position =>
    let duplicated := Fin.find? (fun i => i != position && !(pool.slots i).empty &&
      (pool.slots i).transaction.id == tx.id)
    if duplicated.isSome then (-2, pool, [.waitMutex, .postMutex])
    else (0, (insertAt position tx pool).notify, [.waitMutex, .postMutex, .postWorkNotification])
  | none => (-1, pool, [.waitMutex, .postMutex])

inductive Insertion (tx : Transaction) (pool : TransactionPool n) :
    ℤ × TransactionPool n × List SemaphoreCall → Prop
  | stored (position : Fin n) (h : Accepts tx pool.slots position) :
      Insertion tx pool (0, (insertAt position tx pool).notify,
        [.waitMutex, .postMutex, .postWorkNotification])
  | duplicated (position i : Fin n) (hempty : (pool.slots position).empty = true)
      (hfull : (pool.slots i).empty = false) (hid : (pool.slots i).transaction.id = tx.id) :
      Insertion tx pool (-2, pool, [.waitMutex, .postMutex])
  | full (h : ∀ i, (pool.slots i).empty = false) :
      Insertion tx pool (-1, pool, [.waitMutex, .postMutex])

theorem insertion_of_call (tx : Transaction) (pool : TransactionPool n) :
    Insertion tx pool (addTransactionToPoolCall tx pool) := by
  unfold addTransactionToPoolCall
  cases hfind : Fin.find? (fun i => (pool.slots i).empty) with
  | none => exact .full (fun i => by simpa using Fin.find?_eq_none_iff.mp hfind i)
  | some position =>
    obtain ⟨hempty, hfirst⟩ := Fin.find?_eq_some_iff.mp hfind
    dsimp only
    split
    · rename_i hdup
      obtain ⟨i, hi⟩ := Fin.isSome_find?_iff.mp hdup
      simp only [Bool.and_eq_true, Bool.not_eq_true', beq_iff_eq] at hi
      exact .duplicated position i hempty hi.1.2 hi.2
    · rename_i hdup
      refine .stored position ⟨hempty, fun i hi => by simpa using hfirst i hi, ?_⟩
      intro i hfull hid
      have hne : i ≠ position := by
        rintro rfl
        simp [hfull] at hempty
      exact hdup (Fin.isSome_find?_iff.mpr ⟨i, by simp [hne, hfull, hid]⟩)

theorem addTransactionToPoolCall_eq (tx : Transaction) (pool : TransactionPool n) :
    ((addTransactionToPoolCall tx pool).1, (addTransactionToPoolCall tx pool).2.1) =
      addTransactionToPool tx pool := by
  unfold addTransactionToPoolCall addTransactionToPool addSection
  cases Fin.find? (fun i => (pool.slots i).empty) with
  | none => rfl
  | some position =>
    dsimp only
    split <;> rfl

theorem insertion_exact (tx : Transaction) (pool : TransactionPool n) :
    ∃ code after calls, addTransactionToPoolCall tx pool = (code, after, calls) ∧
      (code = 0 ↔ (∃ i, (pool.slots i).empty = true) ∧
        ∀ i, (pool.slots i).empty = false → (pool.slots i).transaction.id ≠ tx.id) ∧
      (code = -1 ↔ ∀ i, (pool.slots i).empty = false) ∧
      (code ≠ 0 → code ≠ -1 → code = -2) ∧
      (code = 0 → ∃ position, (pool.slots position).empty = true ∧
        (∀ i < position, (pool.slots i).empty = false) ∧
        after.slots = Function.update pool.slots position ⟨tx, false, 0⟩ ∧
        available after.slots = available pool.slots + 1 ∧
        after.occupancy = occupancyOf (available after.slots) n ∧
        after.workNotificationSem = pool.workNotificationSem + 1 ∧
        calls.count .postWorkNotification = 1) ∧
      (code ≠ 0 → after = pool ∧ calls.count .postWorkNotification = 0) ∧
      calls.count .postMutex = 1 := by
  have hcall := insertion_of_call tx pool
  generalize addTransactionToPoolCall tx pool = result at hcall
  cases hcall with
  | stored position h =>
    refine ⟨_, _, _, rfl, iff_of_true rfl ⟨⟨position, h.empty⟩, h.fresh⟩,
      iff_of_false (by decide) ?_, fun hne => absurd rfl hne, fun _ => ?_,
      fun hne => absurd rfl hne, rfl⟩
    · intro hall
      simpa [h.empty] using hall position
    · have hslots : (insertAt position tx pool).notify.slots =
          Function.update pool.slots position ⟨tx, false, 0⟩ := by
        rw [notify_slots, insertAt_slots]
      refine ⟨position, h.empty, h.first, hslots, ?_, ?_, ?_, rfl⟩
      · rw [hslots]
        exact available_insert h.empty tx
      · rw [hslots, notify_occupancy, insertAt, recount_occupancy]
      · rw [notify_sem, insertAt_sem]
  | duplicated position i hempty hfull hid =>
    refine ⟨_, _, _, rfl, iff_of_false (by decide) (fun h => h.2 i hfull hid),
      iff_of_false (by decide) ?_, fun _ _ => rfl, fun h => absurd h (by decide),
      fun _ => ⟨rfl, rfl⟩, rfl⟩
    intro hall
    simpa [hempty] using hall position
  | full h =>
    refine ⟨_, _, _, rfl, iff_of_false (by decide) ?_, iff_of_true rfl h,
      fun _ hne => absurd rfl hne, fun h => absurd h (by decide), fun _ => ⟨rfl, rfl⟩, rfl⟩
    rintro ⟨⟨i, hi⟩, -⟩
    simp [h i] at hi

end DeiChain
