import DeiChain.Data
import DeiChain.Library.Counting
import Mathlib.Data.Fintype.Basic
import Mathlib.Logic.Function.Basic

namespace DeiChain

open Counting

abbrev Slots (n : ℕ) := Fin n → TransactionPoolEntry

structure TransactionPool (n : ℕ) where
  occupancy : ℤ
  workNotificationSem : ℕ
  slots : Slots n

variable {n : ℕ}

def initPool (n : ℕ) : TransactionPool n :=
  ⟨0, 0, fun _ => ⟨Transaction.zero, true, 0⟩⟩

def availableSlots (slots : Slots n) : Finset (Fin n) :=
  Finset.univ.filter (fun i => (slots i).empty = false)

def available (slots : Slots n) : ℕ := (availableSlots slots).card

-- (count * 100) / pool_size in int arithmetic: the product wraps, the division truncates.
def occupancyOf (count size : ℕ) : ℤ := (Int.bmod (count * 100) (2 ^ 32)).tdiv size

def TransactionPool.setSlots (pool : TransactionPool n) (slots : Slots n) (occupancy : ℤ) :
    TransactionPool n :=
  { pool with slots := slots, occupancy := occupancy }

def TransactionPool.recount (pool : TransactionPool n) (slots : Slots n) : TransactionPool n :=
  pool.setSlots slots (occupancyOf (available slots) n)

def firstCarrier (slots : Slots n) (txId : List UInt8) : Option (Fin n) :=
  Fin.find? (fun j => (slots j).transaction.id == txId)

def release (positions : List (Fin n)) (slots : Slots n) : Slots n :=
  positions.foldl (fun slots j => Function.update slots j ((slots j).setEmpty false)) slots

def forEachFirst (f : TransactionPoolEntry → TransactionPoolEntry) (txs : List Transaction)
    (slots : Slots n) : Slots n :=
  txs.foldl (fun slots t =>
    match firstCarrier slots t.id with
    | none => slots
    | some j => Function.update slots j (f (slots j))) slots

@[simp] theorem setSlots_slots (pool : TransactionPool n) (slots : Slots n) (occupancy : ℤ) :
    (pool.setSlots slots occupancy).slots = slots := rfl

theorem setSlots_occupancy (pool : TransactionPool n) (slots : Slots n) (occupancy : ℤ) :
    (pool.setSlots slots occupancy).occupancy = occupancy := rfl

theorem recount_occupancy (pool : TransactionPool n) (slots : Slots n) :
    (pool.recount slots).occupancy = occupancyOf (available slots) n := setSlots_occupancy _ _ _

@[simp] theorem setSlots_sem (pool : TransactionPool n) (slots : Slots n) (occupancy : ℤ) :
    (pool.setSlots slots occupancy).workNotificationSem = pool.workNotificationSem := rfl

@[simp] theorem recount_slots (pool : TransactionPool n) (slots : Slots n) :
    (pool.recount slots).slots = slots := setSlots_slots _ _ _

@[simp] theorem recount_sem (pool : TransactionPool n) (slots : Slots n) :
    (pool.recount slots).workNotificationSem = pool.workNotificationSem := setSlots_sem _ _ _

@[simp] theorem mem_availableSlots {slots : Slots n} {i : Fin n} :
    i ∈ availableSlots slots ↔ (slots i).empty = false := by
  simp [availableSlots]

theorem available_eq_count (slots : Slots n) :
    available slots = count (fun e : TransactionPoolEntry => !e.empty) slots := by
  simp [available, availableSlots, count]

theorem available_mono {slots slots' : Slots n}
    (h : ∀ i, (slots' i).empty = false → (slots i).empty = false) :
    available slots' ≤ available slots := by
  rw [available_eq_count, available_eq_count]
  exact count_mono (fun i hi => by simpa using h i (by simpa using hi))

theorem firstCarrier_eq_some {slots : Slots n} {x : List UInt8} {j : Fin n} :
    firstCarrier slots x = some j ↔
      (slots j).transaction.id = x ∧ ∀ i < j, (slots i).transaction.id ≠ x := by
  simp [firstCarrier]

theorem firstCarrier_eq_none {slots : Slots n} {x : List UInt8} :
    firstCarrier slots x = none ↔ ∀ i, (slots i).transaction.id ≠ x := by
  simp [firstCarrier]

-- Where no two slots carry the same id, stale slots included, the first carrier is the carrier.
theorem firstCarrier_of_unique {slots : Slots n}
    (h : ∀ i j, (slots i).transaction.id = (slots j).transaction.id →
      (slots i).transaction.id ≠ [] → i = j) {x : List UInt8} (hx : x ≠ []) {j : Fin n} :
    firstCarrier slots x = some j ↔ (slots j).transaction.id = x := by
  rw [firstCarrier_eq_some]
  refine and_iff_left_of_imp (fun hid i hi hsame => ?_)
  exact hi.ne (h i j (hsame.trans hid.symm) (hsame ▸ hx))

theorem firstCarrier_congr {slots slots' : Slots n}
    (h : ∀ i, (slots' i).transaction = (slots i).transaction) (x : List UInt8) :
    firstCarrier slots' x = firstCarrier slots x := by
  simp only [firstCarrier, h]

theorem release_apply (positions : List (Fin n)) (slots : Slots n) (i : Fin n) :
    release positions slots i =
      if i ∈ positions then (slots i).setEmpty false else slots i := by
  induction positions generalizing slots with
  | nil => simp [release]
  | cons j js ih =>
    have hcons : release (j :: js) slots =
        release js (Function.update slots j ((slots j).setEmpty false)) := rfl
    rw [hcons, ih]
    by_cases hij : i = j
    · subst hij
      simp
    · simp [hij]

-- The change is idempotent on an entry and leaves the record alone, so that the slots found
-- by the later turns of the loop are those of the pool the loop started from.
theorem forEachFirst_apply {f : TransactionPoolEntry → TransactionPoolEntry}
    (hf : ∀ e, (f e).transaction = e.transaction) (hff : ∀ e, f (f e) = f e)
    (txs : List Transaction) (slots : Slots n) (i : Fin n) :
    forEachFirst f txs slots i =
      if ∃ t ∈ txs, firstCarrier slots t.id = some i then f (slots i) else slots i := by
  induction txs generalizing slots with
  | nil => simp [forEachFirst]
  | cons t ts ih =>
    cases hfirst : firstCarrier slots t.id with
    | none =>
      have hcons : forEachFirst f (t :: ts) slots = forEachFirst f ts slots := by
        simp [forEachFirst, hfirst]
      rw [hcons, ih]
      simp [hfirst]
    | some j =>
      have hcons : forEachFirst f (t :: ts) slots =
          forEachFirst f ts (Function.update slots j (f (slots j))) := by
        simp [forEachFirst, hfirst]
      have hsame : ∀ k, (Function.update slots j (f (slots j)) k).transaction =
          (slots k).transaction := by
        intro k
        by_cases hk : k = j
        · subst hk
          simp [hf]
        · simp [hk]
      rw [hcons, ih]
      simp only [firstCarrier_congr hsame]
      by_cases hij : i = j
      · subst hij
        simp [hfirst, hff]
      · have hji : j ≠ i := fun h => hij h.symm
        simp [hij, hfirst, hji]

end DeiChain
