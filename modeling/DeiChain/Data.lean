import DeiChain.Library.Layout

namespace DeiChain

open ByteLayout

def txIdLen : ℕ := 16
def txbIdLen : ℕ := 64
def hashSize : ℕ := 65
def powMaxOps : ℕ := 10000000

def bytesOf (s : String) : List UInt8 := s.toList.map (fun c => UInt8.ofNat c.toNat)

def initialHash : List UInt8 :=
  bytesOf "00006a8e76f31ba74e21a092cca1015a418c9d5f4375e7a4fec676e1d2ec1436"

-- What strcmp and strlen see of a char array. An array without a NUL is cut at its end: against
-- a terminated one strcmp has then already answered, and pool ids are (pool_ids_terminated).
def cString (bs : List UInt8) : List UInt8 := bs.takeWhile (· != 0)

structure Transaction where
  txId : Chars txIdLen
  reward : Int32
  value : UInt32
  timestamp : Int64
deriving DecidableEq

namespace Transaction

def id (t : Transaction) : List UInt8 := cString t.txId.toList

def zero : Transaction := ⟨List.Vector.replicate txIdLen 0, 0, 0, 0⟩

def toTuple (t : Transaction) : Chars txIdLen × Int32 × UInt32 × Int64 :=
  (t.txId, t.reward, t.value, t.timestamp)

def layout : ByteLayout Transaction :=
  ((chars txIdLen).pair (int32.pair (uint32.pair int64))).map
    (fun p => ⟨p.1, p.2.1, p.2.2.1, p.2.2.2⟩) toTuple (fun _ => rfl)

@[simp] theorem size_layout : layout.size = 32 := rfl

end Transaction

@[ext] structure TransactionBlock where
  txbId : Chars txbIdLen
  previousBlockHash : Chars hashSize
  timestamp : Int64
  nonce : UInt32
  transactionsPerBlock : Int32
  transactions : List Transaction
  transactions_length : transactions.length = transactionsPerBlock.toInt.toNat
deriving DecidableEq

def TransactionBlock.ids (b : TransactionBlock) : List (List UInt8) :=
  b.transactions.map Transaction.id

structure TransactionPoolEntry where
  transaction : Transaction
  empty : Bool
  age : Int32
deriving DecidableEq

namespace TransactionPoolEntry

def setEmpty (e : TransactionPoolEntry) (empty : Bool) : TransactionPoolEntry :=
  { e with empty := empty }

@[simp] theorem setEmpty_empty (e : TransactionPoolEntry) (b : Bool) : (e.setEmpty b).empty = b :=
  rfl

@[simp] theorem setEmpty_transaction (e : TransactionPoolEntry) (b : Bool) :
    (e.setEmpty b).transaction = e.transaction := rfl

@[simp] theorem setEmpty_setEmpty (e : TransactionPoolEntry) (b c : Bool) :
    (e.setEmpty b).setEmpty c = e.setEmpty c := rfl

end TransactionPoolEntry

structure Config where
  numMiners : ℕ
  txPoolSize : ℕ
  transactionsPerBlock : ℕ
  blockchainBlocks : ℕ
  positive : 0 < numMiners ∧ 0 < txPoolSize ∧ 0 < transactionsPerBlock ∧ 0 < blockchainBlocks
  int32 : numMiners < 2 ^ 31 ∧ txPoolSize < 2 ^ 31 ∧ transactionsPerBlock < 2 ^ 31 ∧
    blockchainBlocks < 2 ^ 31

theorem Config.transactionsPerBlock_pos (cfg : Config) : 0 < cfg.transactionsPerBlock :=
  cfg.positive.2.2.1

-- A block the frame reader admits, in the validator's heap: the count is in range and both
-- strings are terminated. The copies of addBlockToLedger run past a short array; heapTail is
-- what lies there.
structure ReceivedBlock (cfg : Config) where
  minerId : Int32
  block : TransactionBlock
  heapPtr : UInt64
  heapTail : List Transaction
  count_pos : 0 < block.transactionsPerBlock.toInt
  count_le : block.transactionsPerBlock.toInt ≤ cfg.transactionsPerBlock
  txbId_nul : block.txbId.toList[txbIdLen - 1]? = some 0
  previousBlockHash_nul : block.previousBlockHash.toList[hashSize - 1]? = some 0
  heap_length : block.transactions.length + heapTail.length = cfg.transactionsPerBlock

theorem ReceivedBlock.length_pos {cfg : Config} (r : ReceivedBlock cfg) :
    0 < r.block.transactions.length := by
  have := r.count_pos
  rw [r.block.transactions_length]
  omega

theorem ReceivedBlock.length_le {cfg : Config} (r : ReceivedBlock cfg) :
    r.block.transactions.length ≤ cfg.transactionsPerBlock := by
  have := r.heap_length
  omega

theorem toInt_ofNat_of_lt {n : ℕ} (h : n < 2 ^ 31) : (Int32.ofNat n).toInt = n := by
  rw [Int32.toInt_ofNat']
  exact Int.bmod_eq_of_le (by simp [Int32.size]) (by simp [Int32.size]; omega)

end DeiChain
