import DeiChain.Data

namespace DeiChain

open ByteLayout

abbrev Sha := List UInt8 → Chars 32

def sizeofTransactionBlock : ℕ := 160
def sizeofPointer : ℕ := 8
def sizeofTransaction : ℕ := 32

def bufferSize (b : TransactionBlock) : ℕ :=
  sizeofTransactionBlock - sizeofPointer +
    if 0 < b.transactionsPerBlock.toInt then
      sizeofTransaction * b.transactionsPerBlock.toInt.toNat else 0

-- The fields are copied one behind the other into a zeroed buffer sized from the padded struct.
def serializeBlock (b : TransactionBlock) : List UInt8 :=
  let fields := b.txbId.toList ++ b.previousBlockHash.toList ++ int64.encode b.timestamp ++
    uint32.encode b.nonce ++ int32.encode b.transactionsPerBlock ++
    Transaction.layout.encodeAll b.transactions
  fields ++ List.replicate (bufferSize b - fields.length) 0

def hexDigit (n : ℕ) : UInt8 := UInt8.ofNat (if n < 10 then 48 + n else 87 + n)

def hexByte (x : UInt8) : List UInt8 := [hexDigit (x.toNat / 16), hexDigit (x.toNat % 16)]

theorem length_flatMap_hexByte (bs : List UInt8) : (bs.flatMap hexByte).length = 2 * bs.length := by
  induction bs with
  | nil => rfl
  | cons b bs ih => simp only [List.flatMap_cons, List.length_append, ih, hexByte,
      List.length_cons, List.length_nil]; omega

def hexDigest (d : Chars 32) : Chars hashSize :=
  ⟨d.toList.flatMap hexByte ++ [0], by
    rw [List.length_append, length_flatMap_hexByte, d.toList_length]; rfl⟩

def computeSha256 (sha : Sha) (b : TransactionBlock) : Chars hashSize :=
  hexDigest (sha (serializeBlock b))

inductive DifficultyLevel where
  | easy
  | normal
  | hard
deriving DecidableEq, Repr

def getDifficultFromReward (reward : ℤ) : DifficultyLevel :=
  if reward = 1 then .easy
  else if reward = 2 then .normal
  else if reward ≥ 3 then .hard else .easy

def DifficultyLevel.zerosRequired : DifficultyLevel → ℕ
  | .easy => 2
  | .normal => 3
  | .hard => 4

def zerosRequired (reward : ℤ) : ℕ :=
  let zeros := (getDifficultFromReward reward).zerosRequired
  let zeros := if zeros < 1 then 1 else zeros
  if zeros > hashSize - 1 then hashSize - 1 else zeros

def checkDifficulty (hash : Chars hashSize) (reward : ℤ) : Bool :=
  (hash.toList.take (zerosRequired reward)).all (· == 48)

def maxReward (txs : List Transaction) : ℤ :=
  txs.foldl (fun best t => if t.reward.toInt > best then t.reward.toInt else best) 0

def verifyNonce (sha : Sha) (b : TransactionBlock) : Bool :=
  checkDifficulty (computeSha256 sha b) (maxReward b.transactions)

structure PoWResult where
  hash : List UInt8
  operations : ℕ
  error : Bool
deriving DecidableEq

def powLoop (sha : Sha) (best : ℤ) : ℕ → TransactionBlock → ℕ → TransactionBlock × PoWResult
  | 0, b, operations => (b, ⟨[], operations, true⟩)
  | fuel + 1, b, operations =>
    if b.nonce.toNat < powMaxOps then
      let operations := operations + 1
      let hash := computeSha256 sha b
      if checkDifficulty hash best then (b, ⟨cString hash.toList, operations, false⟩)
      else
        let b := { b with nonce := b.nonce + 1 }
        if operations ≥ powMaxOps then (b, ⟨[], operations, true⟩)
        else powLoop sha best fuel b operations
    else (b, ⟨[], operations, true⟩)

def proofOfWork (sha : Sha) (b : TransactionBlock) : TransactionBlock × PoWResult :=
  powLoop sha (maxReward b.transactions) powMaxOps { b with nonce := 0 } 0

theorem powLoop_only_nonce (sha : Sha) (best : ℤ) (fuel : ℕ) (b : TransactionBlock) (ops : ℕ) :
    ∃ nonce, (powLoop sha best fuel b ops).1 = { b with nonce := nonce } := by
  induction fuel generalizing b ops with
  | zero => exact ⟨b.nonce, rfl⟩
  | succ fuel ih =>
    simp only [powLoop]
    split
    · split
      · exact ⟨b.nonce, rfl⟩
      · split
        · exact ⟨b.nonce + 1, rfl⟩
        · obtain ⟨nonce, h⟩ := ih { b with nonce := b.nonce + 1 } (ops + 1)
          exact ⟨nonce, h⟩
    · exact ⟨b.nonce, rfl⟩

theorem proofOfWork_only_nonce (sha : Sha) (b : TransactionBlock) :
    ∃ nonce, (proofOfWork sha b).1 = { b with nonce := nonce } := by
  obtain ⟨nonce, h⟩ := powLoop_only_nonce sha (maxReward b.transactions) powMaxOps
    { b with nonce := 0 } 0
  exact ⟨nonce, h⟩

theorem proofOfWork_transactions (sha : Sha) (b : TransactionBlock) :
    (proofOfWork sha b).1.transactions = b.transactions := by
  obtain ⟨nonce, h⟩ := proofOfWork_only_nonce sha b
  rw [h]

-- The search ends well only at a nonce whose hash the validator's own test accepts.
theorem powLoop_found {sha : Sha} {best : ℤ} {fuel : ℕ} {b : TransactionBlock} {ops : ℕ}
    (h : (powLoop sha best fuel b ops).2.error = false) :
    checkDifficulty (computeSha256 sha (powLoop sha best fuel b ops).1) best = true ∧
      (powLoop sha best fuel b ops).2.hash =
        cString (computeSha256 sha (powLoop sha best fuel b ops).1).toList := by
  induction fuel generalizing b ops with
  | zero => cases h
  | succ fuel ih =>
    simp only [powLoop] at h ⊢
    split at h
    · rename_i hnonce
      rw [if_pos hnonce]
      split at h
      · rename_i hfound
        rw [if_pos hfound]
        exact ⟨hfound, rfl⟩
      · rename_i hmissed
        rw [if_neg hmissed]
        split at h
        · cases h
        · rename_i hmore
          rw [if_neg hmore]
          exact ih h
    · cases h

theorem proofOfWork_found {sha : Sha} {b : TransactionBlock}
    (h : (proofOfWork sha b).2.error = false) :
    verifyNonce sha (proofOfWork sha b).1 = true ∧
      (proofOfWork sha b).2.hash = cString (computeSha256 sha (proofOfWork sha b).1).toList := by
  have hfound := powLoop_found h
  rw [verifyNonce, proofOfWork_transactions]
  exact hfound

end DeiChain
