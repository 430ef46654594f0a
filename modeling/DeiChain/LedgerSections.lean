import DeiChain.Library.Turns
import DeiChain.Validator

namespace DeiChain

open ByteLayout ByteMemory Turns

variable {cfg : Config} {att : Attachment cfg} {m m' : Memory} {n : ℕ}

def snapshotProgram (sha : Sha) (att : Attachment cfg) : Program Memory (Chars hashSize × ℤ) := do
  let count ← .read numBlocks
  let hash ←
    if count > 0 then .read (fun m => computeSha256 sha (loadBlock att m (numBlocks m - 1)))
    else pure initialHashChars
  let blockId ← .read numBlocks
  pure (hash, blockId)

def linkProgram (sha : Sha) (att : Attachment cfg) (b : TransactionBlock) :
    Program Memory Bool := do
  let count ← .read numBlocks
  if count > 0 then
    let lastHash ← .read (fun m => computeSha256 sha (loadBlock att m (numBlocks m - 1)))
    pure (cString b.previousBlockHash.toList == cString lastHash.toList)
  else pure (cString b.previousBlockHash.toList == initialHash)

def appendProgram (att : Attachment cfg) (r : ReceivedBlock cfg) : Program Memory Unit := do
  let entry ← .read (fun m => entryOffset (numBlocks m))
  let target ← .read (fun m => transactionsOffset cfg (numBlocks m))
  .modify (fun m => write m entry (r.block.header r.heapPtr).bytes)
  .modify (fun m =>
    write m target (Transaction.layout.encodeAll (r.block.transactions ++ r.heapTail)))
  .modify (fun m => store uint64 m (entry + 144) (att.address target))
  .modify (fun m => store int32 m (entryOffset (numBlocks m) + 160) 1)
  .modify (fun m => store int32 m 0 (Int32.ofInt (numBlocks m + 1)))

theorem run_snapshotProgram (sha : Sha) (att : Attachment cfg) (m : Memory) :
    (snapshotProgram sha att).run m = (m, previousHash sha att m, numBlocks m) := by
  rw [snapshotProgram, previousHash, Program.run_bind, Program.run_read]
  dsimp only
  split <;> simp

theorem run_linkProgram (sha : Sha) (att : Attachment cfg) (b : TransactionBlock) (m : Memory) :
    (linkProgram sha att b).run m = (m, checkLink sha att m b) := by
  rw [linkProgram, checkLink, Program.run_bind, Program.run_read]
  dsimp only
  split <;> simp

theorem run_appendProgram (att : Attachment cfg) (r : ReceivedBlock cfg) (m : Memory) :
    (appendProgram att r).run m = (appendBlock att r m, ()) := by
  simp [appendProgram, appendBlock]

-- All that an append changes before its last turn is the entry it fills.
def Untouched (cfg : Config) (n : ℕ) (m m' : Memory) : Prop :=
  ∀ x, ¬ EntryBytes cfg n x → m' x = m x

theorem Untouched.numBlocks_eq (h : Untouched cfg n m m')
    (hn : n * cfg.transactionsPerBlock < 2 ^ 31) : numBlocks m' = numBlocks m :=
  numBlocks_congr (fun x _ hhi => h x (fun hx => absurd (entryBytes_pos hn hx) (by omega)))

theorem Untouched.represents {blocks : List TransactionBlock}
    (h : Untouched cfg blocks.length m m') (hn : Addressable cfg blocks.length)
    (hrep : Represents att m blocks) : Represents att m' blocks where
  count := (h.numBlocks_eq hn.product).trans hrep.count
  addressable := hrep.addressable
  lengths := hrep.lengths
  entries i hi := (hrep.entries i hi).congr (hrep.lengths _ (List.getElem_mem hi)).2
    (fun x hx => h x (entryBytes_disjoint (hrep.addressable i hi) hn (by omega) hx))

theorem untouched_write (a : ℤ) (bs : List UInt8) (h : Untouched cfg n m m')
    (hbs : ∀ x, a ≤ x → x < a + bs.length → EntryBytes cfg n x) :
    Untouched cfg n m (write m' a bs) := by
  intro x hx
  rw [write_outside, h x hx]
  by_contra hin
  push Not at hin
  exact hx (hbs x hin.1 hin.2)

theorem appendProgram_keeps (att : Attachment cfg) (r : ReceivedBlock cfg)
    (hn : n * cfg.transactionsPerBlock < 2 ^ 31) (hcount : numBlocks m = n) :
    (appendProgram att r).Keeps (Untouched cfg n m) m := by
  have hlen := length_encodeAll_heap r
  have h₀ : Untouched cfg n m m := fun _ _ => rfl
  have h₁ := untouched_write (entryOffset n) (r.block.header r.heapPtr).bytes h₀
    (fun x hlo hhi => .inl ⟨hlo, by simp at hhi; omega⟩)
  have h₂ := untouched_write (transactionsOffset cfg n)
    (Transaction.layout.encodeAll (r.block.transactions ++ r.heapTail)) h₁
    (fun x hlo hhi => .inr ⟨hlo, by rw [hlen] at hhi; exact hhi⟩)
  have h₃ := untouched_write (entryOffset n + 144)
    (uint64.encode (att.address (transactionsOffset cfg n))) h₂
    (fun x hlo hhi => .inl ⟨by omega, by simp at hhi; omega⟩)
  have h₄ := untouched_write (entryOffset n + 160) (int32.encode 1) h₃
    (fun x hlo hhi => .inl ⟨by omega, by simp at hhi; omega⟩)
  have hcount₃ : numBlocks (store uint64 _ _ (att.address (transactionsOffset cfg n))) = n :=
    (h₃.numBlocks_eq hn).trans hcount
  simp only [appendProgram, Program.keeps_bind, Program.keeps_read, Program.keeps_modify,
    Program.run_read, Program.run_modify, hcount, hcount₃, true_and, and_true]
  exact ⟨h₀, h₀, h₁, h₂, h₃, h₄⟩

theorem snapshotProgram_keeps (sha : Sha) (att : Attachment cfg) (m : Memory) :
    (snapshotProgram sha att).Keeps (fun m' => m' = m) m := by
  by_cases hcount : numBlocks m > 0
  · simp [snapshotProgram, hcount]
  · simp [snapshotProgram, hcount]

theorem linkProgram_keeps (sha : Sha) (att : Attachment cfg) (b : TransactionBlock) (m : Memory) :
    (linkProgram sha att b).Keeps (fun m' => m' = m) m := by
  by_cases hcount : numBlocks m > 0
  · simp [linkProgram, hcount]
  · simp [linkProgram, hcount]

end DeiChain
