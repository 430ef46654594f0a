import DeiChain.Offsets
import DeiChain.Segment
import DeiChain.StatisticsReport
import Mathlib.Data.List.TakeWhile

namespace DeiChain

open ByteLayout ByteMemory

variable {cfg : Config}

def maxLedgerLines : ℕ := 1000

-- The format %s; behind an array without a NUL it goes on in what follows.
def stringAt (m : Memory) (a : ℤ) : List UInt8 := cString (slice m a 1024)

def threeDigits (i : ℕ) : List UInt8 := List.replicate (3 - (decimal i).length) 48 ++ decimal i

def blockHead (i : ℕ) (txbId previousBlockHash : List UInt8) (timestamp : Int64) (nonce : UInt32) :
    List (List UInt8) :=
  [messageLine (bytesOf "||---- Block " ++ threeDigits i ++ bytesOf " --"),
    messageLine (bytesOf "Block ID: " ++ txbId),
    messageLine (bytesOf "Previous Hash:"),
    messageLine previousBlockHash,
    messageLine (bytesOf "Block Timestamp: " ++ decimal timestamp.toInt),
    messageLine (bytesOf "Nonce: " ++ decimal nonce.toNat),
    messageLine (bytesOf "Transactions:")]

def headAt (m : Memory) (i : ℕ) : List (List UInt8) :=
  let block := loadHeader m (entryOffset i)
  blockHead i (stringAt m (entryOffset i)) (stringAt m (entryOffset i + txbIdLen)) block.timestamp
    block.nonce

-- value is the format %.2f of a float, given by its bits.
def transactionLine (value : UInt32 → List UInt8) (j : ℕ) (txId : List UInt8) (tx : Transaction) :
    List UInt8 :=
  messageLine (bytesOf " [" ++ decimal j ++ bytesOf "] ID: " ++ txId ++ bytesOf " | Reward: " ++
    decimal tx.reward.toInt ++ bytesOf " | Value: " ++ value tx.value ++
    bytesOf " | Timestamp: " ++ decimal tx.timestamp.toInt)

def lineAt (value : UInt32 → List UInt8) (m : Memory) (transactionsPtr : ℤ) (j : ℕ) : List UInt8 :=
  let a := transactionsPtr + j * sizeofTransaction
  transactionLine value j (stringAt m a) (load Transaction.layout m a)

def blockFoot : List UInt8 := messageLine (bytesOf "||------------------------------")

def ledgerHead : List (List UInt8) :=
  [bytesOf "CONTROLLER: Dumping the Ledger (SIGUSR1 Received)", [],
    bytesOf "=================== Start Ledger ==================="]

def ledgerFoot : List (List UInt8) :=
  [bytesOf "=================== End Ledger ===================", []]

-- The address the dump computes for block i; C leaves an int product out of range undefined.
def transactionsPtr (cfg : Config) (i : ℕ) : Option ℤ :=
  if i * cfg.transactionsPerBlock < 2 ^ 31 then some (transactionsOffset cfg i) else none

def dumpEntry (value : UInt32 → List UInt8) (cfg : Config) (m : Memory)
    (messages : LineBuffer (List UInt8) maxLedgerLines) (i : ℕ) :
    Option (LineBuffer (List UInt8) maxLedgerLines) :=
  if loadValid m i ≠ 0 then do
    let messages ← messages.putAll (headAt m i)
    let transactionsPtr ← transactionsPtr cfg i
    let messages ← (List.range cfg.transactionsPerBlock).foldlM
      (fun messages j => messages.put (lineAt value m transactionsPtr j)) messages
    messages.put blockFoot
  else some messages

-- No result means a write behind the last of the messages, or undefined behaviour before it.
def dumpLedgerMessages (value : UInt32 → List UInt8) (cfg : Config) (m : Memory) :
    Option LogRequest := do
  let messages ← (LineBuffer.empty : LineBuffer (List UInt8) maxLedgerLines).putAll ledgerHead
  let messages ← (List.range (numBlocks m).toNat).foldlM (dumpEntry value cfg m) messages
  let messages ← messages.putAll ledgerFoot
  return .logAtomicMessages messages.lines

def validIndices (m : Memory) : List ℕ :=
  (List.range (numBlocks m).toNat).filter (fun i => loadValid m (i : ℕ) ≠ 0)

-- The area behind the entries that belongs to index i.
def transactionsArea (cfg : Config) (i : ℕ) : ℤ :=
  transactionsBase cfg + (i * cfg.transactionsPerBlock : ℕ) * sizeofTransaction

def blockReport (value : UInt32 → List UInt8) (cfg : Config) (m : Memory) (i : ℕ) :
    List (List UInt8) :=
  headAt m i ++ (List.range cfg.transactionsPerBlock).map
    (lineAt value m (transactionsArea cfg i)) ++ [blockFoot]

def ledgerReport (value : UInt32 → List UInt8) (cfg : Config) (m : Memory) : List (List UInt8) :=
  ledgerHead ++ (validIndices m).flatMap (blockReport value cfg m) ++ ledgerFoot

def Placed (cfg : Config) (m : Memory) (i : ℕ) : Prop :=
  loadValid m i ≠ 0 → i * cfg.transactionsPerBlock < 2 ^ 31

instance (m : Memory) : DecidablePred (Placed cfg m) :=
  fun i => inferInstanceAs (Decidable (loadValid m i ≠ 0 → i * cfg.transactionsPerBlock < 2 ^ 31))

theorem dumpEntry_eq (value : UInt32 → List UInt8) (m : Memory)
    (messages : LineBuffer (List UInt8) maxLedgerLines) (i : ℕ) :
    dumpEntry value cfg m messages i =
      if Placed cfg m i then
        messages.putAll (if loadValid m i ≠ 0 then blockReport value cfg m i else [])
      else none := by
  by_cases hvalid : loadValid m i ≠ 0
  · rw [dumpEntry, if_pos hvalid, if_pos hvalid]
    by_cases hproduct : i * cfg.transactionsPerBlock < 2 ^ 31
    · have hplaced : Placed cfg m i := fun _ => hproduct
      have hptr : transactionsPtr cfg i = some (transactionsArea cfg i) := by
        rw [transactionsPtr, if_pos hproduct, transactionsOffset_of_product hproduct]
        rfl
      rw [if_pos hplaced, blockReport, hptr]
      simp only [LineBuffer.foldlM_put, LineBuffer.putAll_append, LineBuffer.putAll_singleton,
        Option.bind_eq_bind, Option.bind_some, Option.bind_assoc]
    · have hplaced : ¬ Placed cfg m i := fun h => hproduct (h hvalid)
      have hptr : transactionsPtr cfg i = none := if_neg hproduct
      rw [if_neg hplaced, hptr]
      cases messages.putAll (headAt m i) <;> rfl
  · have hplaced : Placed cfg m i := fun h => absurd h hvalid
    rw [dumpEntry, if_neg hvalid, if_neg hvalid, if_pos hplaced]
    rfl

theorem forall_placed (m : Memory) :
    (∀ i ∈ List.range (numBlocks m).toNat, Placed cfg m i) ↔
      ∀ i ∈ validIndices m, i * cfg.transactionsPerBlock < 2 ^ 31 := by
  simp only [validIndices, List.mem_filter, decide_eq_true_eq, Placed, and_imp]

theorem flatMap_validIndices (m : Memory) (f : ℕ → List (List UInt8)) :
    (List.range (numBlocks m).toNat).flatMap
      (fun i : ℕ => if loadValid m i ≠ 0 then f i else []) = (validIndices m).flatMap f := by
  rw [validIndices]
  induction List.range (numBlocks m).toNat with
  | nil => rfl
  | cons i is ih =>
    rw [List.flatMap_cons, ih, List.filter_cons]
    by_cases hvalid : loadValid m i ≠ 0
    · rw [if_pos hvalid, if_pos (decide_eq_true hvalid), List.flatMap_cons]
    · rw [if_neg hvalid, if_neg (by simpa using hvalid), List.nil_append]

theorem dumpLedgerMessages_eq (value : UInt32 → List UInt8) (m : Memory) :
    dumpLedgerMessages value cfg m =
      if (∀ i ∈ validIndices m, i * cfg.transactionsPerBlock < 2 ^ 31) ∧
          (ledgerReport value cfg m).length ≤ maxLedgerLines then
        some (.logAtomicMessages (ledgerReport value cfg m))
      else none := by
  have hentries : dumpEntry value cfg m = fun messages i => if Placed cfg m i then
      messages.putAll (if loadValid m i ≠ 0 then blockReport value cfg m i else []) else none := by
    funext messages i
    exact dumpEntry_eq value m messages i
  have hput : dumpLedgerMessages value cfg m =
      if ∀ i ∈ validIndices m, i * cfg.transactionsPerBlock < 2 ^ 31 then
        (((LineBuffer.empty : LineBuffer (List UInt8) maxLedgerLines).putAll
          (ledgerReport value cfg m)).map LineBuffer.lines).map .logAtomicMessages
      else none := by
    rw [dumpLedgerMessages, hentries]
    generalize (LineBuffer.empty : LineBuffer (List UInt8) maxLedgerLines) = messages
    simp only [LineBuffer.foldlM_guarded, forall_placed, flatMap_validIndices]
    split
    · rw [ledgerReport, LineBuffer.putAll_append, LineBuffer.putAll_append]
      simp only [Option.bind_eq_bind, Option.map_eq_bind, Option.bind_assoc, Option.bind_some,
        Option.pure_def, Function.comp_apply]
    · cases messages.putAll ledgerHead <;> rfl
  rw [hput, LineBuffer.lines_putAll_empty]
  by_cases hplaced : ∀ i ∈ validIndices m, i * cfg.transactionsPerBlock < 2 ^ 31
  · by_cases hfits : (ledgerReport value cfg m).length ≤ maxLedgerLines
    · rw [if_pos hplaced, if_pos hfits, if_pos ⟨hplaced, hfits⟩]
      rfl
    · rw [if_pos hplaced, if_neg hfits, if_neg (fun h => hfits h.2)]
      rfl
  · rw [if_neg hplaced, if_neg (fun h => hplaced h.1)]

theorem length_ledgerReport (value : UInt32 → List UInt8) (m : Memory) :
    (ledgerReport value cfg m).length =
      5 + (validIndices m).length * (8 + cfg.transactionsPerBlock) := by
  have hblock : ∀ i, (blockReport value cfg m i).length = 8 + cfg.transactionsPerBlock := by
    intro i
    simp only [blockReport, headAt, blockHead, List.length_append, List.length_map,
      List.length_range, List.length_cons, List.length_nil]
    omega
  have hblocks : ((validIndices m).flatMap (blockReport value cfg m)).length =
      (validIndices m).length * (8 + cfg.transactionsPerBlock) := by
    rw [List.length_flatMap, List.map_congr_left (fun i _ => hblock i), List.map_const',
      List.sum_replicate_nat]
  simp only [ledgerReport, List.length_append, hblocks, ledgerHead, ledgerFoot, List.length_cons,
    List.length_nil]
  omega

theorem dumpLedgerMessages_iff (value : UInt32 → List UInt8) (m : Memory) :
    dumpLedgerMessages value cfg m = some (.logAtomicMessages (ledgerReport value cfg m)) ↔
      5 + (validIndices m).length * (8 + cfg.transactionsPerBlock) ≤ maxLedgerLines ∧
        ∀ i ∈ validIndices m, i * cfg.transactionsPerBlock < 2 ^ 31 := by
  rw [← length_ledgerReport value m, dumpLedgerMessages_eq]
  split
  · rename_i hfits
    exact iff_of_true rfl hfits.symm
  · rename_i hfails
    exact iff_of_false (by simp) (fun h => hfails h.symm)

theorem Represents.validIndices_eq {att : Attachment cfg} {m : Memory}
    {blocks : List TransactionBlock} (h : Represents att m blocks) :
    validIndices m = List.range blocks.length := by
  rw [validIndices, h.count, Int.toNat_natCast, List.filter_eq_self]
  intro i hi
  simp [(h.entries i (List.mem_range.mp hi)).valid]

theorem stringAt_eq {m : Memory} {a : ℤ} {n : ℕ} (hn : n ≤ 1024) (h : 0 ∈ slice m a n) :
    stringAt m a = cString (slice m a n) := by
  have hsplit : slice m a 1024 = slice m a n ++ slice m (a + n) (1024 - n) := by
    rw [← slice_append, Nat.add_sub_cancel' hn]
  rw [stringAt, hsplit, cString, cString, List.takeWhile_append, if_neg]
  intro hall
  have hwhole := (List.takeWhile_sublist _).eq_of_length hall
  exact absurd (List.takeWhile_eq_self_iff.mp hwhole 0 h) (by decide)

def DumpedBlock.lines (value : UInt32 → List UInt8) (b : DumpedBlock) : List (List UInt8) :=
  blockHead b.index (cString b.txbId.toList) (cString b.previousBlockHash.toList) b.timestamp
    b.nonce ++ b.transactions.mapIdx (fun j tx => transactionLine value j tx.id tx) ++ [blockFoot]

structure DumpedBlock.Terminated (b : DumpedBlock) : Prop where
  txbId : 0 ∈ b.txbId.toList
  previousBlockHash : 0 ∈ b.previousBlockHash.toList
  transactions : ∀ tx ∈ b.transactions, 0 ∈ tx.txId.toList

theorem toList_load_chars (m : Memory) (a : ℤ) (n : ℕ) :
    (load (chars n) m a).toList = slice m a n := by
  change (slice m a n ++ List.replicate n 0).take n = slice m a n
  exact List.take_left' length_slice

theorem txId_load (m : Memory) (a : ℤ) :
    (load Transaction.layout m a).txId.toList = slice m a txIdLen := by
  have hsplit : slice m a 32 = slice m a txIdLen ++ slice m (a + txIdLen) 16 :=
    slice_append (n := txIdLen) (k := 16)
  change ((slice m a 32).take txIdLen ++ List.replicate txIdLen 0).take txIdLen = _
  rw [hsplit, List.take_left' length_slice, List.take_left' length_slice]

-- The texts are those of the blocks that the structured dump reads.
theorem blockReport_eq (value : UInt32 → List UInt8) {m : Memory} {i : ℕ}
    (hi : i * cfg.transactionsPerBlock < 2 ^ 31) (h : (dumpBlock cfg m i).Terminated) :
    blockReport value cfg m i = (dumpBlock cfg m i).lines value := by
  have htxs : (dumpBlock cfg m i).transactions =
      (List.range cfg.transactionsPerBlock).map (fun j : ℕ =>
        load Transaction.layout m (transactionsArea cfg i + j * sizeofTransaction)) := by
    have harea : transactionsOffset cfg i = transactionsArea cfg i :=
      transactionsOffset_of_product hi
    rw [dumpBlock, harea, loadAll_eq_map]
    rfl
  have hid : stringAt m (entryOffset i) = cString (dumpBlock cfg m i).txbId.toList := by
    have hload : (dumpBlock cfg m i).txbId.toList = slice m (entryOffset i) txbIdLen :=
      toList_load_chars m _ _
    rw [hload, stringAt_eq (by decide) (hload ▸ h.txbId)]
  have hprev : stringAt m (entryOffset i + txbIdLen) =
      cString (dumpBlock cfg m i).previousBlockHash.toList := by
    have hload : (dumpBlock cfg m i).previousBlockHash.toList =
        slice m (entryOffset i + txbIdLen) hashSize := toList_load_chars m _ _
    rw [hload, stringAt_eq (by decide) (hload ▸ h.previousBlockHash)]
  have hlines : (List.range cfg.transactionsPerBlock).map
        (lineAt value m (transactionsArea cfg i)) =
      (dumpBlock cfg m i).transactions.mapIdx (fun j tx => transactionLine value j tx.id tx) := by
    have hterminated := h.transactions
    rw [htxs] at hterminated ⊢
    refine List.ext_getElem (by simp) (fun j hj _ => ?_)
    rw [List.length_map, List.length_range] at hj
    have hzero := hterminated _ (List.mem_map_of_mem (List.mem_range.mpr hj))
    rw [txId_load] at hzero
    simp only [List.getElem_map, List.getElem_range, List.getElem_mapIdx, lineAt, Transaction.id,
      txId_load, stringAt_eq (by decide) hzero]
  rw [blockReport, DumpedBlock.lines, headAt, hid, hprev, hlines]
  rfl

theorem ledger_dump_fits_iff (value : UInt32 → List UInt8) (cfg : Config) :
    (∀ m : Memory,
      dumpLedgerMessages value cfg m = some (.logAtomicMessages (ledgerReport value cfg m)) ↔
        5 + (validIndices m).length * (8 + cfg.transactionsPerBlock) ≤ maxLedgerLines ∧
          ∀ i ∈ validIndices m, i * cfg.transactionsPerBlock < 2 ^ 31) ∧
    ∀ (att : Attachment cfg) (m : Memory) (blocks : List TransactionBlock),
      Represents att m blocks →
        (dumpLedgerMessages value cfg m = some (.logAtomicMessages (ledgerReport value cfg m)) ↔
          5 + blocks.length * (8 + cfg.transactionsPerBlock) ≤ maxLedgerLines) := by
  refine ⟨dumpLedgerMessages_iff value, fun att m blocks h => ?_⟩
  rw [dumpLedgerMessages_iff, h.validIndices_eq, List.length_range]
  refine and_iff_left (fun i hi => ?_)
  exact (h.addressable i (List.mem_range.mp hi)).product

namespace Sample

-- A count, and as many entries whose valid flag alone is set.
def ledgerOf (count : UInt8) : Memory := fun x =>
  if x = 0 then count else if x < 40 then 0 else if (x - 40) % 168 = 160 then 1 else 0

end Sample

theorem ledger_dump_overflows :
    numBlocks (Sample.ledgerOf 56) ≤ Sample.defaultConfig.blockchainBlocks ∧
      dumpLedgerMessages (fun _ => []) Sample.defaultConfig (Sample.ledgerOf 56) = none := by
  have hcount : numBlocks (Sample.ledgerOf 56) = 56 := by decide
  have hvalid : (validIndices (Sample.ledgerOf 56)).length = 56 := by
    rw [validIndices, hcount]
    decide
  refine ⟨by rw [hcount]; decide, ?_⟩
  rw [dumpLedgerMessages_eq, if_neg]
  rintro ⟨-, hfits⟩
  rw [length_ledgerReport, hvalid] at hfits
  exact absurd hfits (by decide)

end DeiChain
