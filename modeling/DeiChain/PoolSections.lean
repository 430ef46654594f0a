import DeiChain.Library.Turns
import DeiChain.TxGen
import DeiChain.Validator

namespace DeiChain

open Turns Counting

variable {n : ℕ} {cfg : Config}

-- What pool->mutex guards; work_notification_sem is a semaphore of its own.
structure PoolData (n : ℕ) where
  occupancy : ℤ
  slots : Slots n

def PoolData.setSlots (d : PoolData n) (slots : Slots n) : PoolData n := { d with slots := slots }

def TransactionPool.guarded (pool : TransactionPool n) : PoolData n := ⟨pool.occupancy, pool.slots⟩

@[simp] theorem data_setSlots (d : PoolData n) (slots : Slots n) :
    (d.setSlots slots).slots = slots := rfl

@[simp] theorem setSlots_setSlots (d : PoolData n) (slots slots' : Slots n) :
    (d.setSlots slots).setSlots slots' = d.setSlots slots' := rfl

@[simp] theorem data_setSlots_self (d : PoolData n) : d.setSlots d.slots = d := rfl

@[simp] theorem guarded_slots (pool : TransactionPool n) : pool.guarded.slots = pool.slots := rfl

theorem guarded_recount (pool : TransactionPool n) (slots : Slots n) :
    (pool.recount slots).guarded = ⟨occupancyOf (available slots) n, slots⟩ := by
  rw [TransactionPool.guarded, recount_occupancy, recount_slots]

def readSlot (i : Fin n) : Program (PoolData n) TransactionPoolEntry := .read (fun d => d.slots i)

def modifySlot (i : Fin n) (f : TransactionPoolEntry → TransactionPoolEntry) :
    Program (PoolData n) Unit :=
  .modify (fun d => d.setSlots (Function.update d.slots i (f (d.slots i))))

def findSlot (p : Fin n → TransactionPoolEntry → Bool) :
    List (Fin n) → Program (PoolData n) (Option (Fin n))
  | [] => pure none
  | i :: is => do
    let e ← readSlot i
    if p i e then pure (some i) else findSlot p is

def countSlots : List (Fin n) → ℕ → Program (PoolData n) ℕ
  | [], count => pure count
  | i :: is, count => do
    let e ← readSlot i
    countSlots is (if e.empty then count else count + 1)

def recountProgram (n : ℕ) : Program (PoolData n) Unit := do
  let count ← countSlots (List.finRange n) 0
  .modify (fun d => { d with occupancy := occupancyOf count n })

def addProgram (tx : Transaction) : Program (PoolData n) ℤ := do
  match ← findSlot (fun _ e => e.empty) (List.finRange n) with
  | none => pure (-1)
  | some position =>
    let duplicated ← findSlot (fun i e => i != position && !e.empty && e.transaction.id == tx.id)
      (List.finRange n)
    if duplicated.isSome then pure (-2)
    else
      modifySlot position (fun e => { e with transaction := tx })
      modifySlot position (·.setEmpty false)
      modifySlot position (fun e => { e with age := 0 })
      recountProgram n
      pure 0

def selectLoopProgram (count : ℕ) :
    List (Fin n) → List (Reservation n) → Program (PoolData n) (List (Reservation n))
  | [], selected => pure selected
  | i :: is, selected =>
    if selected.length < count then do
      let e ← readSlot i
      if e.empty = false ∧ ∀ r ∈ selected, r.2.id ≠ e.transaction.id then do
        modifySlot i (·.setEmpty true)
        selectLoopProgram count is (selected ++ [(i, e.transaction)])
      else selectLoopProgram count is selected
    else pure selected

def selectProgram (count : ℕ) : Program (PoolData n) (Option (List (Reservation n))) := do
  let availableTransactions ← countSlots (List.finRange n) 0
  if availableTransactions < count then pure none
  else some <$> selectLoopProgram count (List.finRange n) []

def releaseProgram : List (Fin n) → Program (PoolData n) Unit
  | [] => pure ()
  | i :: is => do
    modifySlot i (·.setEmpty false)
    releaseProgram is

def restoreProgram (txs : List Transaction) : List (Fin n) → Program (PoolData n) Unit
  | [] => pure ()
  | i :: is => do
    let e ← readSlot i
    if ∃ t ∈ txs, e.transaction.id = t.id then modifySlot i (·.setEmpty false)
    restoreProgram txs is

def lookupProgram : List Transaction → List (Fin n) → Program (PoolData n) (Bool × List (Fin n))
  | [], positions => pure (true, positions)
  | t :: ts, positions =>
    if t.id = [] then pure (false, positions)
    else do
      match ← findSlot (fun _ e => e.transaction.id == t.id) (List.finRange n) with
      | none => pure (false, positions)
      | some j => lookupProgram ts (positions ++ [j])

-- The position array is allocated inside the section.
def poolProgram (allocated : Bool) (txs : List Transaction) : Program (PoolData n) Bool :=
  if allocated then do
    let (valid, positions) ← lookupProgram txs []
    if valid then pure true
    else do
      releaseProgram positions
      pure false
  else pure false

def forEachFirstProgram (f : Fin n → Program (PoolData n) Unit) :
    List Transaction → Program (PoolData n) Unit
  | [] => pure ()
  | t :: ts => do
    match ← findSlot (fun _ e => e.transaction.id == t.id) (List.finRange n) with
    | none => pure ()
    | some j => f j
    forEachFirstProgram f ts

def consumeProgram (j : Fin n) : Program (PoolData n) Unit := do
  modifySlot j (·.setEmpty true)
  modifySlot j (fun e => { e with age := 0 })

def removeProgram (r : ReceivedBlock cfg) : Program (PoolData n) Unit := do
  forEachFirstProgram consumeProgram (r.block.transactions ++ r.heapTail)
  recountProgram n

def restoreRefusedProgram (r : ReceivedBlock cfg) : Program (PoolData n) Unit := do
  forEachFirstProgram (fun j => modifySlot j (·.setEmpty false)) r.block.transactions
  recountProgram n

def ageSlotProgram (i : Fin n) : Program (PoolData n) Unit := do
  let e ← readSlot i
  if e.empty then pure ()
  else do
    modifySlot i (fun e => { e with age := e.age + 1 })
    let e ← readSlot i
    if e.age % 50 = 0 then
      modifySlot i (fun e =>
        { e with transaction := { e.transaction with reward := e.transaction.reward + 1 } })
    else pure ()

def ageProgram : List (Fin n) → Program (PoolData n) Unit
  | [] => pure ()
  | i :: is => do
    ageSlotProgram i
    ageProgram is

@[simp] theorem run_readSlot (i : Fin n) (d : PoolData n) :
    (readSlot i).run d = (d, d.slots i) := rfl

@[simp] theorem run_modifySlot (i : Fin n) (f : TransactionPoolEntry → TransactionPoolEntry)
    (d : PoolData n) : (modifySlot i f).run d =
      (d.setSlots (Function.update d.slots i (f (d.slots i))), ()) := rfl

theorem run_findSlot (p : Fin n → TransactionPoolEntry → Bool) (is : List (Fin n))
    (d : PoolData n) : (findSlot p is).run d = (d, is.find? (fun i => p i (d.slots i))) := by
  induction is with
  | nil => rfl
  | cons i is ih =>
    rw [findSlot, Program.run_bind, run_readSlot]
    by_cases hp : p i (d.slots i) = true
    · simp [hp]
    · simp [hp, ih]

theorem run_findSlot_all (p : Fin n → TransactionPoolEntry → Bool) (d : PoolData n) :
    (findSlot p (List.finRange n)).run d = (d, Fin.find? (fun i => p i (d.slots i))) := by
  rw [run_findSlot, Fin.find?_eq_find?_finRange]

theorem run_countSlots (is : List (Fin n)) (count : ℕ) (d : PoolData n) :
    (countSlots is count).run d =
      (d, count + is.countP (fun i => (d.slots i).empty = false)) := by
  induction is generalizing count with
  | nil => rfl
  | cons i is ih =>
    rw [countSlots, Program.run_bind, run_readSlot, ih, List.countP_cons]
    cases (d.slots i).empty
    · simp
      omega
    · simp

theorem countP_finRange (slots : Slots n) :
    (List.finRange n).countP (fun i => (slots i).empty = false) = available slots := by
  rw [List.countP_eq_length_filter]
  rfl

theorem run_countSlots_all (d : PoolData n) :
    (countSlots (List.finRange n) 0).run d = (d, available d.slots) := by
  rw [run_countSlots, countP_finRange, Nat.zero_add]

@[simp] theorem run_recountProgram (d : PoolData n) :
    (recountProgram n).run d = ({ d with occupancy := occupancyOf (available d.slots) n }, ()) := by
  rw [recountProgram, Program.run_bind, run_countSlots_all]
  rfl

theorem run_addProgram (tx : Transaction) (pool : TransactionPool n) :
    (addProgram tx).run pool.guarded =
      ((addSection tx pool).2.guarded, (addSection tx pool).1) := by
  simp only [addProgram, addSection, Program.run_bind, run_findSlot_all, guarded_slots]
  cases hfind : Fin.find? (fun i => (pool.slots i).empty) with
  | none => rfl
  | some position =>
    simp only [Program.run_bind, run_findSlot_all, guarded_slots]
    split
    · rfl
    · simp [TransactionPool.guarded, TransactionPoolEntry.setEmpty, insertAt,
        TransactionPool.recount, TransactionPool.setSlots]

theorem addSection_sem (tx : Transaction) (pool : TransactionPool n) :
    (addSection tx pool).2.workNotificationSem = pool.workNotificationSem := by
  rcases addSection_cases tx pool with ⟨code, -, hadd⟩ | ⟨position, -, hadd⟩
  · rw [hadd]
  · rw [hadd, insertAt_sem]

theorem run_selectLoopProgram (count : ℕ) (is : List (Fin n)) (selected : List (Reservation n))
    (d : PoolData n) : (selectLoopProgram count is selected).run d =
      (d.setSlots ((selectLoop count is d.slots selected).1),
        (selectLoop count is d.slots selected).2) := by
  induction is generalizing d selected with
  | nil => rfl
  | cons i is ih =>
    simp only [selectLoopProgram, selectLoop]
    split
    · rw [Program.run_bind, run_readSlot]
      dsimp only
      split
      · rw [Program.run_bind, run_modifySlot]
        exact ih _ _
      · exact ih _ _
    · rfl

theorem run_selectProgram (count : ℕ) (d : PoolData n) :
    (selectProgram count).run d =
      (d.setSlots ((selectSection count d.slots).1), (selectSection count d.slots).2) := by
  rw [selectProgram, Program.run_bind, run_countSlots_all, selectSection]
  dsimp only
  split
  · rfl
  · rw [Program.run_map, run_selectLoopProgram]

theorem run_releaseProgram (positions : List (Fin n)) (d : PoolData n) :
    (releaseProgram positions).run d = (d.setSlots (release positions d.slots), ()) := by
  induction positions generalizing d with
  | nil => rfl
  | cons i is ih =>
    rw [releaseProgram, Program.run_bind, run_modifySlot]
    exact ih _

-- A slot is visited once or not at all; being restored twice would change nothing more.
theorem run_restoreProgram_slots (txs : List Transaction) (is : List (Fin n)) (d : PoolData n) :
    (restoreProgram txs is).run d = (d.setSlots (fun i =>
      if i ∈ is ∧ ∃ t ∈ txs, (d.slots i).transaction.id = t.id then (d.slots i).setEmpty false
      else d.slots i), ()) := by
  induction is generalizing d with
  | nil => simp [restoreProgram]
  | cons j is ih =>
    rw [restoreProgram, Program.run_bind, run_readSlot]
    dsimp only
    split
    · rename_i hmatch
      rw [Program.run_bind, run_modifySlot, ih]
      refine congrArg (fun slots => (d.setSlots slots, ())) (funext fun i => ?_)
      by_cases hij : i = j
      · subst hij
        simp [hmatch]
      · simp [hij]
    · rename_i hmatch
      rw [ih]
      refine congrArg (fun slots => (d.setSlots slots, ())) (funext fun i => ?_)
      by_cases hij : i = j
      · subst hij
        simp [hmatch]
      · simp [hij]

theorem run_restoreProgram (txs : List Transaction) (d : PoolData n) :
    (restoreProgram txs (List.finRange n)).run d =
      (d.setSlots (restoreLoop txs d.slots), ()) := by
  rw [run_restoreProgram_slots]
  simp only [List.mem_finRange, true_and]
  rfl

theorem run_lookupProgram (txs : List Transaction) (positions : List (Fin n)) (d : PoolData n) :
    (lookupProgram txs positions).run d =
      (d, (lookupLoop d.slots txs).1, positions ++ (lookupLoop d.slots txs).2) := by
  induction txs generalizing positions with
  | nil => simp [lookupProgram, lookupLoop]
  | cons t ts ih =>
    simp only [lookupProgram, lookupLoop]
    split
    · simp
    · rw [Program.run_bind, run_findSlot_all]
      cases hfirst : firstCarrier d.slots t.id with
      | none =>
        rw [firstCarrier] at hfirst
        simp [hfirst]
      | some j =>
        rw [firstCarrier] at hfirst
        simp [hfirst, ih]

theorem run_poolProgram (txs : List Transaction) (d : PoolData n) :
    (poolProgram true txs).run d =
      (d.setSlots ((poolSection txs d.slots).2), (poolSection txs d.slots).1) := by
  rw [poolProgram, if_pos rfl, Program.run_bind, run_lookupProgram, poolSection]
  cases hvalid : (lookupLoop d.slots txs).1 with
  | true => simp [hvalid]
  | false => simp [hvalid, run_releaseProgram]

theorem run_forEachFirstProgram {f : Fin n → Program (PoolData n) Unit}
    {g : TransactionPoolEntry → TransactionPoolEntry}
    (hf : ∀ j d, (f j).run d = (modifySlot j g).run d) (txs : List Transaction) (d : PoolData n) :
    (forEachFirstProgram f txs).run d = (d.setSlots (forEachFirst g txs d.slots), ()) := by
  induction txs generalizing d with
  | nil => rfl
  | cons t ts ih =>
    rw [forEachFirstProgram, Program.run_bind, run_findSlot_all]
    cases hfirst : firstCarrier d.slots t.id with
    | none =>
      rw [firstCarrier] at hfirst
      simp [hfirst, ih, forEachFirst, firstCarrier]
    | some j =>
      rw [firstCarrier] at hfirst
      simp [hfirst, hf, ih, forEachFirst, firstCarrier]

theorem run_removeProgram (r : ReceivedBlock cfg) (pool : TransactionPool n) :
    (removeProgram r).run pool.guarded = ((removeTransactionsFromPool r pool).guarded, ()) := by
  have hconsume : ∀ j (d : PoolData n),
      (consumeProgram j).run d = (modifySlot j consume).run d := by
    intro j d
    simp [consumeProgram, consume, TransactionPoolEntry.setEmpty]
  rw [removeProgram, Program.run_bind, run_forEachFirstProgram hconsume, run_recountProgram,
    removeTransactionsFromPool, guarded_recount]
  rfl

theorem run_restoreRefusedProgram (r : ReceivedBlock cfg) (pool : TransactionPool n) :
    (restoreRefusedProgram r).run pool.guarded = ((restoreRefused r pool).guarded, ()) := by
  rw [restoreRefusedProgram, Program.run_bind, run_forEachFirstProgram (fun _ _ => rfl),
    run_recountProgram, restoreRefused, guarded_recount]
  rfl

theorem run_ageSlotProgram (i : Fin n) (d : PoolData n) : (ageSlotProgram i).run d =
    (d.setSlots (Function.update d.slots i (ageEntry (d.slots i))), ()) := by
  rw [ageSlotProgram, Program.run_bind, run_readSlot, ageEntry]
  dsimp only
  split
  · simp
  · simp only [Program.run_bind, run_modifySlot, run_readSlot, data_setSlots,
      Function.update_self]
    split <;> simp

theorem run_ageProgram_slots {is : List (Fin n)} (hnodup : is.Nodup) (d : PoolData n) :
    (ageProgram is).run d = (d.setSlots (fun i =>
      if i ∈ is then ageEntry (d.slots i) else d.slots i), ()) := by
  induction is generalizing d with
  | nil => simp [ageProgram]
  | cons j is ih =>
    obtain ⟨hj, hnodup⟩ := List.nodup_cons.mp hnodup
    rw [ageProgram, Program.run_bind, run_ageSlotProgram, ih hnodup]
    refine congrArg (fun slots => (d.setSlots slots, ())) (funext fun i => ?_)
    by_cases hij : i = j
    · subst hij
      simp [hj]
    · simp [hij]

theorem run_ageProgram (d : PoolData n) : (ageProgram (List.finRange n)).run d =
    (d.setSlots (ageSection d.slots), ()) := by
  rw [run_ageProgram_slots (List.nodup_finRange n)]
  simp only [List.mem_finRange, if_true]
  rfl

end DeiChain
