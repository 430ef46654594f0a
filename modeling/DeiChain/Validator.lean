import DeiChain.Library.HashChain
import DeiChain.Miner
import DeiChain.Refinement

namespace DeiChain

open ByteLayout ByteMemory HashChain

variable {n : ℕ} {cfg : Config}

def initialHashChars : Chars hashSize := ⟨initialHash ++ [0], by decide⟩

def previousHash (sha : Sha) (att : Attachment cfg) (m : Memory) : Chars hashSize :=
  if numBlocks m > 0 then computeSha256 sha (loadBlock att m (numBlocks m - 1))
  else initialHashChars

def checkLink (sha : Sha) (att : Attachment cfg) (m : Memory) (b : TransactionBlock) : Bool :=
  if numBlocks m > 0 then
    cString b.previousBlockHash.toList ==
      cString (computeSha256 sha (loadBlock att m (numBlocks m - 1))).toList
  else cString b.previousBlockHash.toList == initialHash

def lookupLoop (slots : Slots n) : List Transaction → Bool × List (Fin n)
  | [] => (true, [])
  | t :: ts =>
    if t.id = [] then (false, [])
    else
      match firstCarrier slots t.id with
      | none => (false, [])
      | some j =>
        let (valid, positions) := lookupLoop slots ts
        (valid, j :: positions)

def poolSection (txs : List Transaction) (slots : Slots n) : Bool × Slots n :=
  let (valid, positions) := lookupLoop slots txs
  (valid, if valid then slots else release positions slots)

-- The function without interruptions; allocated is whether malloc gave the position array.
def validateBlock (sha : Sha) (att : Attachment cfg) (m : Memory) (allocated : Bool)
    (b : TransactionBlock) (slots : Slots n) : Bool × Slots n :=
  if !verifyNonce sha b then (false, slots)
  else if !checkLink sha att m b then (false, slots)
  else if !allocated then (false, slots)
  else poolSection b.transactions slots

def consume (e : TransactionPoolEntry) : TransactionPoolEntry :=
  { e with empty := true, age := 0 }

-- Its loop runs to config->transactions_per_block whatever the block's own count.
def removeTransactionsFromPool (r : ReceivedBlock cfg) (pool : TransactionPool n) :
    TransactionPool n :=
  pool.recount (forEachFirst consume (r.block.transactions ++ r.heapTail) pool.slots)

-- The branch of validator_main for a block the full ledger has refused.
def restoreRefused (r : ReceivedBlock cfg) (pool : TransactionPool n) : TransactionPool n :=
  pool.recount (forEachFirst (·.setEmpty false) r.block.transactions pool.slots)

theorem removeTransactionsFromPool_apply (r : ReceivedBlock cfg) (pool : TransactionPool n)
    (i : Fin n) : (removeTransactionsFromPool r pool).slots i =
      if ∃ t ∈ r.block.transactions ++ r.heapTail, firstCarrier pool.slots t.id = some i
      then consume (pool.slots i) else pool.slots i := by
  rw [removeTransactionsFromPool, recount_slots]
  exact forEachFirst_apply (f := consume) (fun _ => rfl) (fun _ => rfl) _ _ _

theorem restoreRefused_apply (r : ReceivedBlock cfg) (pool : TransactionPool n) (i : Fin n) :
    (restoreRefused r pool).slots i =
      if ∃ t ∈ r.block.transactions, firstCarrier pool.slots t.id = some i
      then (pool.slots i).setEmpty false else pool.slots i := by
  rw [restoreRefused, recount_slots]
  exact forEachFirst_apply (f := (·.setEmpty false)) (fun _ => rfl) (fun _ => rfl) _ _ _

theorem removeTransactionsFromPool_transaction (r : ReceivedBlock cfg) (pool : TransactionPool n)
    (i : Fin n) : ((removeTransactionsFromPool r pool).slots i).transaction =
      (pool.slots i).transaction := by
  rw [removeTransactionsFromPool_apply]
  split <;> rfl

theorem restoreRefused_transaction (r : ReceivedBlock cfg) (pool : TransactionPool n)
    (i : Fin n) : ((restoreRefused r pool).slots i).transaction = (pool.slots i).transaction := by
  rw [restoreRefused_apply]
  split <;> rfl

theorem removeTransactionsFromPool_sem (r : ReceivedBlock cfg) (pool : TransactionPool n) :
    (removeTransactionsFromPool r pool).workNotificationSem = pool.workNotificationSem :=
  recount_sem _ _

theorem restoreRefused_sem (r : ReceivedBlock cfg) (pool : TransactionPool n) :
    (restoreRefused r pool).workNotificationSem = pool.workNotificationSem := recount_sem _ _

-- Both ints wrap around.
def ageEntry (e : TransactionPoolEntry) : TransactionPoolEntry :=
  if e.empty then e
  else
    let age := e.age + 1
    let reward := if age % 50 = 0 then e.transaction.reward + 1 else e.transaction.reward
    ⟨{ e.transaction with reward := reward }, e.empty, age⟩

@[simp] theorem ageEntry_empty (e : TransactionPoolEntry) : (ageEntry e).empty = e.empty := by
  unfold ageEntry
  split <;> rfl

@[simp] theorem ageEntry_id (e : TransactionPoolEntry) :
    (ageEntry e).transaction.id = e.transaction.id := by
  unfold ageEntry
  split <;> rfl

-- Aging raises the reward in place; the rest of a record never changes.
def Transaction.SameRecord (t u : Transaction) : Prop :=
  t.txId = u.txId ∧ t.value = u.value ∧ t.timestamp = u.timestamp

theorem Transaction.SameRecord.refl (t : Transaction) : t.SameRecord t := ⟨rfl, rfl, rfl⟩

theorem Transaction.SameRecord.trans {t u w : Transaction} (h : t.SameRecord u)
    (h' : u.SameRecord w) : t.SameRecord w :=
  ⟨h.1.trans h'.1, h.2.1.trans h'.2.1, h.2.2.trans h'.2.2⟩

theorem Transaction.SameRecord.id_eq {t u : Transaction} (h : t.SameRecord u) : t.id = u.id := by
  rw [Transaction.id, Transaction.id, h.1]

theorem ageEntry_sameRecord (e : TransactionPoolEntry) :
    (ageEntry e).transaction.SameRecord e.transaction := by
  unfold ageEntry
  split <;> exact ⟨rfl, rfl, rfl⟩

theorem ageEntry_of_empty {e : TransactionPoolEntry} (h : e.empty = true) : ageEntry e = e := by
  rw [ageEntry, if_pos h]

theorem ageEntry_of_full {e : TransactionPoolEntry} (h : e.empty = false) :
    (ageEntry e).age = e.age + 1 ∧ (ageEntry e).transaction.reward =
      if (e.age + 1) % 50 = 0 then e.transaction.reward + 1 else e.transaction.reward := by
  rw [ageEntry, if_neg (by simp [h])]
  exact ⟨rfl, rfl⟩

theorem toInt_age_succ (age : Int32) :
    (age + 1).toInt = if age.toInt = 2 ^ 31 - 1 then -2 ^ 31 else age.toInt + 1 := by
  have hlow := age.le_toInt
  have hhigh := age.toInt_lt
  rw [Int32.toInt_add, show (1 : Int32).toInt = 1 from rfl]
  split
  · rename_i hlast
    rw [hlast]
    rfl
  · exact Int.bmod_eq_of_le (by omega) (by omega)

theorem age_multiple_iff (age : Int32) : age % 50 = 0 ↔ age.toInt % 50 = 0 := by
  rw [← Int32.toInt_inj, Int32.toInt_mod, show (50 : Int32).toInt = 50 from rfl,
    show (0 : Int32).toInt = 0 from rfl, ← Int.dvd_iff_tmod_eq_zero, Int.dvd_iff_emod_eq_zero]

def ageSection (slots : Slots n) : Slots n := fun i => ageEntry (slots i)

-- The frame reader's count test and forced terminators on a block that has arrived whole.
def admitFrame (cfg : Config) (minerId : Int32) (b : TransactionBlock) (heapPtr : UInt64)
    (heapTail : List Transaction) : Option (ReceivedBlock cfg) :=
  if h : 0 < b.transactionsPerBlock.toInt ∧
      b.transactionsPerBlock.toInt ≤ cfg.transactionsPerBlock ∧
      b.transactions.length + heapTail.length = cfg.transactionsPerBlock then
    some
      { minerId := minerId
        block := { b with
          txbId := terminate (n := 63) b.txbId
          previousBlockHash := terminate (n := 64) b.previousBlockHash }
        heapPtr := heapPtr
        heapTail := heapTail
        count_pos := h.1
        count_le := h.2.1
        txbId_nul := terminate_last (n := 63) b.txbId
        previousBlockHash_nul := terminate_last (n := 64) b.previousBlockHash
        heap_length := h.2.2 }
  else none

theorem admitFrame_isSome {minerId : Int32} {b : TransactionBlock} {heapPtr : UInt64}
    (h : b.transactions.length = cfg.transactionsPerBlock) :
    (admitFrame cfg minerId b heapPtr []).isSome = true := by
  have hcount := b.transactions_length
  have hpos := cfg.transactionsPerBlock_pos
  have hcond : 0 < b.transactionsPerBlock.toInt ∧
      b.transactionsPerBlock.toInt ≤ cfg.transactionsPerBlock ∧
      b.transactions.length + ([] : List Transaction).length = cfg.transactionsPerBlock :=
    ⟨by omega, by omega, by simpa using h⟩
  rw [admitFrame, dif_pos hcond]
  rfl

theorem admitFrame_block {minerId : Int32} {b : TransactionBlock} {heapPtr : UInt64}
    {heapTail : List Transaction} {r : ReceivedBlock cfg}
    (h : admitFrame cfg minerId b heapPtr heapTail = some r) :
    r.block.transactions = b.transactions ∧ r.heapTail = heapTail := by
  unfold admitFrame at h
  split at h
  · cases h
    exact ⟨rfl, rfl⟩
  · cases h

def found (slots : Slots n) (t : Transaction) : Bool :=
  t.id != [] && (firstCarrier slots t.id).isSome

theorem found_iff {slots : Slots n} {t : Transaction} :
    found slots t = true ↔ t.id ≠ [] ∧ ∃ j, (slots j).transaction.id = t.id := by
  have hcarried : (firstCarrier slots t.id).isSome = true ↔
      ∃ j, (slots j).transaction.id = t.id := by
    simp [firstCarrier]
  simp [found, hcarried]

theorem lookupLoop_eq (slots : Slots n) (txs : List Transaction) :
    lookupLoop slots txs = (txs.all (found slots),
      (txs.takeWhile (found slots)).filterMap (fun t => firstCarrier slots t.id)) := by
  induction txs with
  | nil => rfl
  | cons t ts ih =>
    by_cases hid : t.id = []
    · have hnot : found slots t = false := by simp [found, hid]
      simp [lookupLoop, hid, hnot]
    · cases hfirst : firstCarrier slots t.id with
      | none =>
        have hnot : found slots t = false := by simp [found, hfirst]
        simp [lookupLoop, hid, hfirst, hnot]
      | some j =>
        have hyes : found slots t = true := by simp [found, hid, hfirst]
        simp [lookupLoop, hid, hfirst, hyes, ih]

theorem length_lookupLoop (slots : Slots n) (txs : List Transaction) :
    (lookupLoop slots txs).2.length ≤ txs.length := by
  rw [lookupLoop_eq]
  exact (List.length_filterMap_le _ _).trans (List.takeWhile_prefix _).length_le

theorem poolSection_fst (txs : List Transaction) (slots : Slots n) :
    (poolSection txs slots).1 = txs.all (found slots) := by
  simp [poolSection, lookupLoop_eq]

theorem poolSection_apply (txs : List Transaction) (slots : Slots n) (i : Fin n) :
    (poolSection txs slots).2 i =
      if (∃ t ∈ txs, found slots t = false) ∧
        ∃ t ∈ txs.takeWhile (found slots), firstCarrier slots t.id = some i
      then (slots i).setEmpty false else slots i := by
  by_cases hall : txs.all (found slots) = true
  · have hnone : ¬ ∃ t ∈ txs, found slots t = false := by
      rintro ⟨t, ht, hnot⟩
      simp [List.all_eq_true.mp hall t ht] at hnot
    simp [poolSection, lookupLoop_eq, hall, hnone]
  · have hsome : ∃ t ∈ txs, found slots t = false := by
      simpa [List.all_eq_true] using hall
    rw [poolSection, lookupLoop_eq]
    simp only [hall, Bool.false_eq_true, if_false, release_apply, List.mem_filterMap, hsome,
      true_and]

theorem poolSection_transaction (txs : List Transaction) (slots : Slots n) (i : Fin n) :
    ((poolSection txs slots).2 i).transaction = (slots i).transaction := by
  rw [poolSection_apply]
  split <;> rfl

def linking (sha : Sha) : Linking TransactionBlock (List UInt8) where
  genesis := initialHash
  carries b := cString b.previousBlockHash.toList
  digest b := cString (computeSha256 sha b).toList

theorem cString_initialHashChars : cString initialHashChars.toList = initialHash := by decide

theorem checkLink_eq (sha : Sha) (att : Attachment cfg) (m : Memory) (b : TransactionBlock) :
    checkLink sha att m b =
      (cString b.previousBlockHash.toList == cString (previousHash sha att m).toList) := by
  unfold checkLink previousHash
  split
  · rfl
  · rw [cString_initialHashChars]

theorem Represents.previousHash_eq {sha : Sha} {att : Attachment cfg} {m : Memory}
    {blocks : List TransactionBlock} (h : Represents att m blocks) :
    cString (previousHash sha att m).toList = (linking sha).tip blocks := by
  rcases List.eq_nil_or_concat blocks with rfl | ⟨init, last, rfl⟩
  · have hzero : numBlocks m = 0 := h.count
    rw [previousHash, if_neg (by omega), cString_initialHashChars]
    rfl
  · rw [List.concat_eq_append] at h ⊢
    have hcount : numBlocks m = (init.length + 1 : ℕ) := by simpa using h.count
    have hprev : numBlocks m - 1 = (init.length : ℕ) := by omega
    have hlast := h.loadBlock_eq (i := init.length) (by simp)
    rw [List.getElem_concat_length rfl] at hlast
    rw [previousHash, if_pos (by omega), hprev, hlast, Linking.tip_concat]
    rfl

theorem Represents.checkLink_iff {sha : Sha} {att : Attachment cfg} {m : Memory}
    {blocks : List TransactionBlock} (h : Represents att m blocks) (b : TransactionBlock) :
    checkLink sha att m b = true ↔ (linking sha).carries b = (linking sha).tip blocks := by
  rw [checkLink_eq, beq_iff_eq, h.previousHash_eq]
  rfl

theorem terminate_hexDigest (d : Chars 32) : terminate (n := 64) (hexDigest d) = hexDigest d := by
  have hlen : (d.toList.flatMap hexByte).length = 64 := by
    rw [length_flatMap_hexByte, d.toList_length]
  refine terminate_eq ?_
  change (d.toList.flatMap hexByte ++ [0])[64]? = some 0
  rw [List.getElem?_append_right hlen.le, hlen]
  rfl

theorem terminate_previousHash (sha : Sha) (att : Attachment cfg) (m : Memory) :
    terminate (n := 64) (previousHash sha att m) = previousHash sha att m := by
  unfold previousHash
  split
  · exact terminate_hexDigest _
  · rfl

end DeiChain
