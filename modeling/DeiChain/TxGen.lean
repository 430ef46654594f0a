import DeiChain.Pool

namespace DeiChain

open Counting

variable {n : ℕ}

def insertAt (position : Fin n) (tx : Transaction) (pool : TransactionPool n) :
    TransactionPool n :=
  pool.recount (Function.update pool.slots position ⟨tx, false, 0⟩)

@[simp] theorem insertAt_slots (position : Fin n) (tx : Transaction) (pool : TransactionPool n) :
    (insertAt position tx pool).slots = Function.update pool.slots position ⟨tx, false, 0⟩ :=
  recount_slots _ _

@[simp] theorem insertAt_sem (position : Fin n) (tx : Transaction) (pool : TransactionPool n) :
    (insertAt position tx pool).workNotificationSem = pool.workNotificationSem := recount_sem _ _

theorem available_insert {slots : Slots n} {position : Fin n}
    (h : (slots position).empty = true) (tx : Transaction) :
    available (Function.update slots position ⟨tx, false, 0⟩) = available slots + 1 := by
  have hcount := count_update (p := fun e : TransactionPoolEntry => !e.empty) (f := slots)
    (i := position) (a := ⟨tx, false, 0⟩)
  rw [h] at hcount
  rw [available_eq_count, available_eq_count]
  simpa using hcount

-- The post of work_notification_sem comes after the mutex has been released.
def addSection (tx : Transaction) (pool : TransactionPool n) : ℤ × TransactionPool n :=
  match Fin.find? (fun i => (pool.slots i).empty) with
  | none => (-1, pool)
  | some position =>
    let duplicated := Fin.find? (fun i => i != position && !(pool.slots i).empty &&
      (pool.slots i).transaction.id == tx.id)
    if duplicated.isSome then (-2, pool) else (0, insertAt position tx pool)

def addTransactionToPool (tx : Transaction) (pool : TransactionPool n) :
    ℤ × TransactionPool n :=
  let (code, pool) := addSection tx pool
  (code, if code = 0 then { pool with workNotificationSem := pool.workNotificationSem + 1 }
    else pool)

structure Accepts (tx : Transaction) (slots : Slots n) (position : Fin n) : Prop where
  empty : (slots position).empty = true
  first : ∀ i < position, (slots i).empty = false
  fresh : ∀ i, (slots i).empty = false → (slots i).transaction.id ≠ tx.id

theorem addSection_cases (tx : Transaction) (pool : TransactionPool n) :
    (∃ code, code ≠ 0 ∧ addSection tx pool = (code, pool)) ∨
    ∃ position, Accepts tx pool.slots position ∧
      addSection tx pool = (0, insertAt position tx pool) := by
  unfold addSection
  cases hfind : Fin.find? (fun i => (pool.slots i).empty) with
  | none => exact .inl ⟨-1, by simp, rfl⟩
  | some position =>
    obtain ⟨hempty, hfirst⟩ := Fin.find?_eq_some_iff.mp hfind
    dsimp only
    split
    · exact .inl ⟨-2, by simp, rfl⟩
    · rename_i hdup
      refine .inr ⟨position, ⟨hempty, hfirst, ?_⟩, rfl⟩
      intro i hfull hid
      have hne : i ≠ position := by
        rintro rfl
        simp [hfull] at hempty
      exact hdup (Fin.isSome_find?_iff.mpr ⟨i, by simp [hne, hfull, hid]⟩)

end DeiChain
