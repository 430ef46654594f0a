import DeiChain.Library.Buffer
import DeiChain.Pow

namespace DeiChain

open ByteLayout ByteMemory

variable {m : Memory} {a : ℤ}

-- The members of the two structs, each with its size and its alignment.
def transactionMembers : List (ℕ × ℕ) := [(txIdLen, 1), (4, 4), (4, 4), (8, 8)]

def blockMembers : List (ℕ × ℕ) :=
  [(txbIdLen, 1), (hashSize, 1), (8, 8), (sizeofPointer, 8), (4, 4), (4, 4)]

def serializedFields (b : TransactionBlock) : List (List UInt8) :=
  [b.txbId.toList, b.previousBlockHash.toList, int64.encode b.timestamp, uint32.encode b.nonce,
    int32.encode b.transactionsPerBlock, Transaction.layout.encodeAll b.transactions]

-- One memcpy after the other behind a running pointer, into what calloc has zeroed.
def serializeCopies (b : TransactionBlock) (buffer : ℤ) : List (ℤ × List UInt8) :=
  copies buffer (serializedFields b)

def serializeInto (m : Memory) (buffer : ℤ) (b : TransactionBlock) : Memory :=
  writeAll (write m buffer (List.replicate (bufferSize b) 0)) (serializeCopies b buffer)

def serializedBuffer (m : Memory) (buffer : ℤ) (b : TransactionBlock) : List UInt8 :=
  slice (serializeInto m buffer b) buffer (bufferSize b)

theorem serializeBlock_eq (b : TransactionBlock) :
    serializeBlock b = (serializedFields b).flatten ++
      List.replicate (bufferSize b - (serializedFields b).flatten.length) 0 := by
  simp [serializeBlock, serializedFields]

theorem length_serializedFields (b : TransactionBlock) :
    (serializedFields b).flatten.length = 145 + b.transactionsPerBlock.toInt.toNat * 32 := by
  have htxbId : b.txbId.toList.length = 64 := b.txbId.toList_length
  have hprevious : b.previousBlockHash.toList.length = 65 := b.previousBlockHash.toList_length
  simp only [serializedFields, List.flatten_cons, List.flatten_nil, List.length_append, htxbId,
    hprevious, length_encode, length_encodeAll, b.transactions_length, List.length_nil, size_int64,
    size_uint32, size_int32, Transaction.size_layout]
  omega

theorem bufferSize_eq {b : TransactionBlock} (hpos : 0 < b.transactionsPerBlock.toInt) :
    bufferSize b = 152 + 32 * b.transactionsPerBlock.toInt.toNat := by
  rw [bufferSize, if_pos hpos]
  rfl

theorem serializedFields_fit (b : TransactionBlock) :
    (serializedFields b).flatten.length ≤ bufferSize b := by
  rw [length_serializedFields, bufferSize, sizeofTransactionBlock, sizeofPointer,
    sizeofTransaction]
  split <;> omega

theorem serializedBuffer_eq (m : Memory) (a : ℤ) (b : TransactionBlock) :
    serializedBuffer m a b = serializeBlock b := by
  have hfit := serializedFields_fit b
  have hzeros : List.replicate (bufferSize b) (0 : UInt8) =
      List.replicate (serializedFields b).flatten.length 0 ++
        List.replicate (bufferSize b - (serializedFields b).flatten.length) 0 := by
    rw [← List.replicate_add, Nat.add_sub_cancel' hfit]
  have hlen : (serializeBlock b).length = bufferSize b := by
    rw [serializeBlock_eq, List.length_append, List.length_replicate, Nat.add_sub_cancel' hfit]
  rw [serializedBuffer, serializeInto, serializeCopies, writeAll_copies, hzeros,
    write_prefix List.length_replicate, ← serializeBlock_eq, ← hlen]
  exact slice_write_self _

def fixedLayout : ByteLayout (Chars txbIdLen × Chars hashSize × Int64 × UInt32 × Int32) :=
  (chars txbIdLen).pair ((chars hashSize).pair (int64.pair (uint32.pair int32)))

-- The count among the fixed fields says how many transactions follow them.
def deserializeBlock (bs : List UInt8) : TransactionBlock :=
  let fixed := fixedLayout.decode (bs.take fixedLayout.size)
  { txbId := fixed.1
    previousBlockHash := fixed.2.1
    timestamp := fixed.2.2.1
    nonce := fixed.2.2.2.1
    transactionsPerBlock := fixed.2.2.2.2
    transactions := Transaction.layout.decodeAll fixed.2.2.2.2.toInt.toNat
      (bs.drop fixedLayout.size)
    transactions_length := length_decodeAll .. }

theorem deserializeBlock_serializeBlock (b : TransactionBlock) :
    deserializeBlock (serializeBlock b) = b := by
  let fixed := (b.txbId, b.previousBlockHash, b.timestamp, b.nonce, b.transactionsPerBlock)
  have hfields : (serializedFields b).flatten =
      fixedLayout.encode fixed ++ Transaction.layout.encodeAll b.transactions := by
    simp [serializedFields, fixedLayout, fixed, ByteLayout.pair, chars]
  have hlen : (fixedLayout.encode fixed).length = fixedLayout.size := length_encode _ _
  have hfixed : fixedLayout.decode ((serializeBlock b).take fixedLayout.size) = fixed := by
    rw [serializeBlock_eq, hfields, List.append_assoc, List.take_left' hlen, decode_encode]
  have htxs : Transaction.layout.decodeAll b.transactionsPerBlock.toInt.toNat
      ((serializeBlock b).drop fixedLayout.size) = b.transactions := by
    rw [serializeBlock_eq, hfields, List.append_assoc, List.drop_left' hlen,
      ← b.transactions_length]
    exact decodeAll_encodeAll_append _ _ _
  apply TransactionBlock.ext <;> simp only [deserializeBlock, hfixed, fixed]
  exact htxs

theorem serializeBlock_injective : Function.Injective serializeBlock :=
  Function.LeftInverse.injective deserializeBlock_serializeBlock

theorem serialization_exact (m m' : Memory) (a a' : ℤ) {b b' : TransactionBlock}
    (hpos : 0 < b.transactionsPerBlock.toInt) :
    bufferSize b = structSize blockMembers - sizeofPointer +
      structSize transactionMembers * b.transactionsPerBlock.toInt.toNat ∧
    (∀ w ∈ serializeCopies b a, a ≤ w.1 ∧ w.1 + w.2.length ≤ a + bufferSize b) ∧
    (∀ x, a ≤ x → x < a + bufferSize b →
      (∀ w ∈ serializeCopies b a, x < w.1 ∨ w.1 + w.2.length ≤ x) → serializeInto m a b x = 0) ∧
    (serializedBuffer m a b = serializedBuffer m' a' b' ↔
      b.txbId = b'.txbId ∧ b.previousBlockHash = b'.previousBlockHash ∧
        b.timestamp = b'.timestamp ∧ b.nonce = b'.nonce ∧
        b.transactionsPerBlock = b'.transactionsPerBlock ∧ b.transactions = b'.transactions) := by
  refine ⟨bufferSize_eq hpos, fun w hw => ?_, fun x hlo hhi hunwritten => ?_, ?_⟩
  · have hfit := serializedFields_fit b
    obtain ⟨hfrom, hto⟩ := copies_within hw
    exact ⟨hfrom, by omega⟩
  · rw [serializeInto, writeAll_outside hunwritten]
    exact write_replicate hlo hhi
  · rw [serializedBuffer_eq, serializedBuffer_eq, serializeBlock_injective.eq_iff,
      TransactionBlock.ext_iff]

namespace Sample

def noncedBlock (nonce : UInt32) : TransactionBlock where
  txbId := List.Vector.replicate txbIdLen 66
  previousBlockHash := List.Vector.replicate hashSize 48
  timestamp := 1
  nonce := nonce
  transactionsPerBlock := 1
  transactions := [⟨List.Vector.replicate txIdLen 84, 3, 0, 1⟩]
  transactions_length := rfl

end Sample

theorem serialization_exact_nonces :
    bufferSize (Sample.noncedBlock 1) = 184 ∧
      serializedBuffer (fun _ => 255) 0 (Sample.noncedBlock 1) ≠
        serializedBuffer (fun _ => 7) 8 (Sample.noncedBlock 2) := by
  obtain ⟨hsize, -, -, hbuffers⟩ := serialization_exact (fun _ => 255) (fun _ => 7) 0 8
    (b := Sample.noncedBlock 1) (by decide)
  refine ⟨hsize, fun heq => ?_⟩
  exact absurd (hbuffers.mp heq).2.2.2.1 (by decide : (1 : UInt32) ≠ 2)

end DeiChain
