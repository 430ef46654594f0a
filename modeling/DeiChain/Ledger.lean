import DeiChain.Library.Memory
import DeiChain.Pow

namespace DeiChain

open ByteLayout ByteMemory

structure BlockHeader where
  txbId : Chars txbIdLen
  previousBlockHash : Chars hashSize
  timestamp : Int64
  transactionsPtr : UInt64
  nonce : UInt32
  transactionsPerBlock : Int32
deriving DecidableEq

-- struct TransactionBlock in memory: seven bytes of padding align the timestamp.
def BlockHeader.bytes (h : BlockHeader) : List UInt8 :=
  (chars txbIdLen).encode h.txbId ++ ((chars hashSize).encode h.previousBlockHash ++
    (List.replicate 7 0 ++ (int64.encode h.timestamp ++ (uint64.encode h.transactionsPtr ++
      (uint32.encode h.nonce ++ (int32.encode h.transactionsPerBlock ++ []))))))

def loadHeader (m : Memory) (a : ℤ) : BlockHeader where
  txbId := load (chars txbIdLen) m a
  previousBlockHash := load (chars hashSize) m (a + 64)
  timestamp := load int64 m (a + 136)
  transactionsPtr := load uint64 m (a + 144)
  nonce := load uint32 m (a + 152)
  transactionsPerBlock := load int32 m (a + 156)

def TransactionBlock.header (b : TransactionBlock) (ptr : UInt64) : BlockHeader :=
  ⟨b.txbId, b.previousBlockHash, b.timestamp, ptr, b.nonce, b.transactionsPerBlock⟩

def sizeofBlockchainLedger : ℕ := 40
def sizeofBlockchainEntry : ℕ := 168

variable {cfg : Config}

def ledgerSize (cfg : Config) : ℕ :=
  sizeofBlockchainLedger + cfg.blockchainBlocks *
    (sizeofBlockchainEntry + cfg.transactionsPerBlock * sizeofTransaction)

-- The address shmat picked for the segment; forked validators share their parent's.
structure Attachment (cfg : Config) where
  base : ℕ
  fits : base + ledgerSize cfg ≤ 2 ^ 64

def Attachment.address (att : Attachment cfg) (offset : ℤ) : UInt64 :=
  UInt64.ofNat ((att.base + offset) % 2 ^ 64).toNat

def Attachment.offset (att : Attachment cfg) (p : UInt64) : ℤ := p.toNat - att.base

def numBlocks (m : Memory) : ℤ := (load int32 m 0).toInt

def entryOffset (i : ℤ) : ℤ := sizeofBlockchainLedger + sizeofBlockchainEntry * i

def transactionsBase (cfg : Config) : ℤ := entryOffset cfg.blockchainBlocks

-- num_blocks * transactions_per_block is an int product, widened only for the last factor.
def transactionsOffset (cfg : Config) (i : ℤ) : ℤ :=
  transactionsBase cfg + Int.bmod (i * cfg.transactionsPerBlock) (2 ^ 32) * sizeofTransaction

def loadBlock (att : Attachment cfg) (m : Memory) (i : ℤ) : TransactionBlock :=
  let h := loadHeader m (entryOffset i)
  { txbId := h.txbId
    previousBlockHash := h.previousBlockHash
    timestamp := h.timestamp
    nonce := h.nonce
    transactionsPerBlock := h.transactionsPerBlock
    transactions := loadAll Transaction.layout m (att.offset h.transactionsPtr)
      h.transactionsPerBlock.toInt.toNat
    transactions_length := length_decodeAll _ _ _ }

def loadValid (m : Memory) (i : ℤ) : ℤ := (load int32 m (entryOffset i + 160)).toInt

def initLedger : Memory := store int32 (fun _ => 0) 0 0

def appendBlock (att : Attachment cfg) (r : ReceivedBlock cfg) (m : Memory) : Memory :=
  let entry := entryOffset (numBlocks m)
  let target := transactionsOffset cfg (numBlocks m)
  let m := write m entry (r.block.header r.heapPtr).bytes
  let m := write m target (Transaction.layout.encodeAll (r.block.transactions ++ r.heapTail))
  let m := store uint64 m (entry + 144) (att.address target)
  let m := store int32 m (entryOffset (numBlocks m) + 160) 1
  store int32 m 0 (Int32.ofInt (numBlocks m + 1))

def addBlockToLedger (att : Attachment cfg) (r : ReceivedBlock cfg) (m : Memory) : ℤ × Memory :=
  if numBlocks m ≥ cfg.blockchainBlocks then (-1, m) else (0, appendBlock att r m)

end DeiChain
