import DeiChain.Ledger

namespace DeiChain

open ByteLayout ByteMemory

theorem load_headerBytes (m : Memory) (a : ℤ) (h : BlockHeader) :
    loadHeader (write m a h.bytes) a = h := by
  have htxb : load (chars txbIdLen) (write m a h.bytes) a = h.txbId :=
    load_write_middle (L := chars txbIdLen) [] _ h.txbId (by simp)
  have hprev : load (chars hashSize) (write m a h.bytes) (a + 64) = h.previousBlockHash :=
    load_write_middle (L := chars hashSize) ((chars txbIdLen).encode h.txbId) _
      h.previousBlockHash (by simp; rfl)
  have htime : load int64 (write m a h.bytes) (a + 136) = h.timestamp := by
    have hsplit : h.bytes = ((chars txbIdLen).encode h.txbId ++
        ((chars hashSize).encode h.previousBlockHash ++ List.replicate 7 0)) ++
        (int64.encode h.timestamp ++ (uint64.encode h.transactionsPtr ++
          (uint32.encode h.nonce ++ (int32.encode h.transactionsPerBlock ++ [])))) := by
      simp only [BlockHeader.bytes, List.append_assoc]
    rw [hsplit]
    exact load_write_middle _ _ h.timestamp (by simp; rfl)
  have hptr : load uint64 (write m a h.bytes) (a + 144) = h.transactionsPtr := by
    have hsplit : h.bytes = ((chars txbIdLen).encode h.txbId ++
        ((chars hashSize).encode h.previousBlockHash ++ (List.replicate 7 0 ++
          int64.encode h.timestamp))) ++
        (uint64.encode h.transactionsPtr ++ (uint32.encode h.nonce ++
          (int32.encode h.transactionsPerBlock ++ []))) := by
      simp only [BlockHeader.bytes, List.append_assoc]
    rw [hsplit]
    exact load_write_middle _ _ h.transactionsPtr (by simp; rfl)
  have hnonce : load uint32 (write m a h.bytes) (a + 152) = h.nonce := by
    have hsplit : h.bytes = ((chars txbIdLen).encode h.txbId ++
        ((chars hashSize).encode h.previousBlockHash ++ (List.replicate 7 0 ++
          (int64.encode h.timestamp ++ uint64.encode h.transactionsPtr)))) ++
        (uint32.encode h.nonce ++ (int32.encode h.transactionsPerBlock ++ [])) := by
      simp only [BlockHeader.bytes, List.append_assoc]
    rw [hsplit]
    exact load_write_middle _ _ h.nonce (by simp; rfl)
  have hcount : load int32 (write m a h.bytes) (a + 156) = h.transactionsPerBlock := by
    have hsplit : h.bytes = ((chars txbIdLen).encode h.txbId ++
        ((chars hashSize).encode h.previousBlockHash ++ (List.replicate 7 0 ++
          (int64.encode h.timestamp ++ (uint64.encode h.transactionsPtr ++
            uint32.encode h.nonce))))) ++ (int32.encode h.transactionsPerBlock ++ []) := by
      simp only [BlockHeader.bytes, List.append_assoc]
    rw [hsplit]
    exact load_write_middle _ _ h.transactionsPerBlock (by simp; rfl)
  rw [loadHeader, htxb, hprev, htime, hptr, hnonce, hcount]

@[simp] theorem BlockHeader.length_bytes (h : BlockHeader) : h.bytes.length = 160 := by
  simp [BlockHeader.bytes]
  rfl

variable {cfg : Config}

-- An index whose entry exists and whose transaction offset the int product still reaches.
structure Addressable (cfg : Config) (i : ℕ) : Prop where
  lt : i < cfg.blockchainBlocks
  product : i * cfg.transactionsPerBlock < 2 ^ 31

theorem addressable_of_lt {i : ℕ}
    (hno : cfg.blockchainBlocks * cfg.transactionsPerBlock < 2 ^ 31)
    (hi : i < cfg.blockchainBlocks) : Addressable cfg i :=
  ⟨hi, lt_of_le_of_lt (Nat.mul_le_mul_right _ hi.le) hno⟩

theorem entryOffset_eq (i : ℤ) : entryOffset i = 40 + 168 * i := rfl

theorem transactionsBase_eq : transactionsBase cfg = 40 + 168 * cfg.blockchainBlocks := rfl

theorem transactionsOffset_of_product {i : ℕ} (hlt : i * cfg.transactionsPerBlock < 2 ^ 31) :
    transactionsOffset cfg i =
      transactionsBase cfg + (i * cfg.transactionsPerBlock : ℕ) * 32 := by
  have hmod : Int.bmod ((i : ℤ) * cfg.transactionsPerBlock) (2 ^ 32) =
      (i * cfg.transactionsPerBlock : ℕ) := by
    rw [← Nat.cast_mul]
    exact Int.bmod_eq_of_le (by omega) (by omega)
  rw [transactionsOffset, hmod]
  rfl

theorem transactionsOffset_eq {i : ℕ} (hi : Addressable cfg i) :
    transactionsOffset cfg i =
      transactionsBase cfg + (i * cfg.transactionsPerBlock : ℕ) * 32 :=
  transactionsOffset_of_product hi.product

theorem transactionsOffset_step {i j : ℕ} (hij : i < j) (hi : Addressable cfg i)
    (hj : Addressable cfg j) :
    transactionsOffset cfg i + (cfg.transactionsPerBlock * 32 : ℕ) ≤ transactionsOffset cfg j := by
  have hmul : (i + 1) * cfg.transactionsPerBlock ≤ j * cfg.transactionsPerBlock :=
    Nat.mul_le_mul_right _ hij
  rw [transactionsOffset_eq hi, transactionsOffset_eq hj]
  rw [Nat.add_mul, Nat.one_mul] at hmul
  omega

theorem transactionsOffset_ge {i : ℕ} (hi : Addressable cfg i) :
    40 + 168 * (cfg.blockchainBlocks : ℤ) ≤ transactionsOffset cfg i := by
  rw [transactionsOffset_eq hi, transactionsBase_eq]
  omega

theorem ledgerSize_eq (cfg : Config) : ledgerSize cfg = 40 + cfg.blockchainBlocks * 168 +
    cfg.blockchainBlocks * cfg.transactionsPerBlock * 32 := by
  rw [ledgerSize, sizeofTransaction, Nat.mul_add, Nat.mul_assoc, ← Nat.add_assoc]
  rfl

theorem transactionsOffset_fits {i : ℕ} (hi : Addressable cfg i) :
    transactionsOffset cfg i + (cfg.transactionsPerBlock * 32 : ℕ) ≤ ledgerSize cfg := by
  have hmul : (i + 1) * cfg.transactionsPerBlock ≤
      cfg.blockchainBlocks * cfg.transactionsPerBlock := Nat.mul_le_mul_right _ hi.lt
  rw [transactionsOffset_eq hi, transactionsBase_eq, ledgerSize_eq]
  rw [Nat.add_mul, Nat.one_mul] at hmul
  omega

def EntryBytes (cfg : Config) (i : ℕ) (x : ℤ) : Prop :=
  (entryOffset i ≤ x ∧ x < entryOffset i + 168) ∨
    (transactionsOffset cfg i ≤ x ∧
      x < transactionsOffset cfg i + (cfg.transactionsPerBlock * 32 : ℕ))

theorem entryBytes_disjoint {i j : ℕ} (hi : Addressable cfg i) (hj : Addressable cfg j)
    (hij : i ≠ j) {x : ℤ} (hx : EntryBytes cfg i x) :
    ¬ EntryBytes cfg j x := by
  have hli := hi.lt
  have hlj := hj.lt
  have hgi := transactionsOffset_ge hi
  have hgj := transactionsOffset_ge hj
  have hsep : transactionsOffset cfg i + (cfg.transactionsPerBlock * 32 : ℕ) ≤
      transactionsOffset cfg j ∨ transactionsOffset cfg j +
        (cfg.transactionsPerBlock * 32 : ℕ) ≤ transactionsOffset cfg i := by
    rcases Nat.lt_or_gt_of_ne hij with hlt | hlt
    · exact .inl (transactionsOffset_step hlt hi hj)
    · exact .inr (transactionsOffset_step hlt hj hi)
  simp only [EntryBytes, entryOffset_eq] at hx ⊢
  omega

theorem entryBytes_pos {i : ℕ} (hi : i * cfg.transactionsPerBlock < 2 ^ 31) {x : ℤ}
    (hx : EntryBytes cfg i x) : 4 ≤ x := by
  have harea := transactionsOffset_of_product hi
  rw [transactionsBase_eq] at harea
  simp only [EntryBytes, entryOffset_eq] at hx
  omega

theorem entryBytes_fits {i : ℕ} (hi : Addressable cfg i) {x : ℤ} (hx : EntryBytes cfg i x) :
    0 ≤ x ∧ x < ledgerSize cfg := by
  have hlt := hi.lt
  have hge := transactionsOffset_ge hi
  have hfit := transactionsOffset_fits hi
  simp only [EntryBytes, entryOffset_eq] at hx
  omega

theorem toNat_address (att : Attachment cfg) (x : ℤ) :
    ((att.address x).toNat : ℤ) = (att.base + x) % 2 ^ 64 := by
  have hnn := Int.emod_nonneg (att.base + x) (b := 2 ^ 64) (by decide)
  have hlt := Int.emod_lt_of_pos (att.base + x) (b := 2 ^ 64) (by decide)
  rw [Attachment.address, UInt64.toNat_ofNat_of_lt' (by
    rw [UInt64.size]
    omega), Int.toNat_of_nonneg hnn]

theorem offset_address (att : Attachment cfg) {i : ℕ} (hi : Addressable cfg i) :
    att.offset (att.address (transactionsOffset cfg i)) = transactionsOffset cfg i := by
  have hlt := hi.lt
  have hge := transactionsOffset_ge hi
  have hfit := transactionsOffset_fits hi
  have hbase := att.fits
  have hpos := cfg.transactionsPerBlock_pos
  have hnn : 0 ≤ att.base + transactionsOffset cfg i := by omega
  have hlt : att.base + transactionsOffset cfg i < 2 ^ 64 := by
    have hcast : (att.base : ℤ) + ledgerSize cfg ≤ 2 ^ 64 := by exact_mod_cast hbase
    omega
  rw [Attachment.offset, toNat_address, Int.emod_eq_of_lt hnn hlt]
  omega

variable {att : Attachment cfg} {m m' : Memory}

structure EntryHolds (att : Attachment cfg) (m : Memory) (i : ℕ) (b : TransactionBlock) :
    Prop where
  header : loadHeader m (entryOffset i) = b.header (att.address (transactionsOffset cfg i))
  valid : loadValid m i = 1
  transactions : loadAll Transaction.layout m (transactionsOffset cfg i) b.transactions.length =
    b.transactions

theorem loadHeader_congr {a : ℤ} (h : ∀ x, a ≤ x → x < a + 160 → m x = m' x) :
    loadHeader m a = loadHeader m' a := by
  have hload {α : Type} (L : ByteLayout α) (k : ℤ) (hk : 0 ≤ k) (hsize : k + L.size ≤ 160) :
      load L m (a + k) = load L m' (a + k) :=
    load_congr (fun x hlo hhi => h x (by omega) (by omega))
  have htxb : load (chars txbIdLen) m a = load (chars txbIdLen) m' a := by
    rw [← add_zero a]
    exact hload (chars txbIdLen) 0 (by decide) (by decide)
  have hprev := hload (chars hashSize) 64 (by decide) (by decide)
  have htime := hload int64 136 (by decide) (by decide)
  have hptr := hload uint64 144 (by decide) (by decide)
  have hnonce := hload uint32 152 (by decide) (by decide)
  have hcount := hload int32 156 (by decide) (by decide)
  rw [loadHeader, loadHeader, htxb, hprev, htime, hptr, hnonce, hcount]

theorem EntryHolds.congr {i : ℕ} {b : TransactionBlock} (h : EntryHolds att m i b)
    (hlen : b.transactions.length ≤ cfg.transactionsPerBlock)
    (hsame : ∀ x, EntryBytes cfg i x → m' x = m x) : EntryHolds att m' i b where
  header := by
    rw [← h.header]
    exact loadHeader_congr (fun x hlo hhi => hsame x (.inl ⟨hlo, by omega⟩))
  valid := by
    rw [← h.valid, loadValid, loadValid]
    congr 1
    exact load_congr (fun x hlo hhi => hsame x (.inl ⟨by omega, by simp at hhi; omega⟩))
  transactions := by
    refine (loadAll_congr (fun x hlo hhi => hsame x (.inr ⟨hlo, ?_⟩))).trans h.transactions
    rw [Transaction.size_layout] at hhi
    omega

theorem EntryHolds.loadBlock_eq {i : ℕ} {b : TransactionBlock} (h : EntryHolds att m i b)
    (hi : Addressable cfg i) : loadBlock att m i = b := by
  have hptr : att.offset (loadHeader m (entryOffset i)).transactionsPtr =
      transactionsOffset cfg i := by
    rw [h.header]
    exact offset_address att hi
  have hcount : (loadHeader m (entryOffset i)).transactionsPerBlock.toInt.toNat =
      b.transactions.length := by
    rw [h.header, b.transactions_length]
    rfl
  apply TransactionBlock.ext
  · exact congrArg BlockHeader.txbId h.header
  · exact congrArg BlockHeader.previousBlockHash h.header
  · exact congrArg BlockHeader.timestamp h.header
  · exact congrArg BlockHeader.nonce h.header
  · exact congrArg BlockHeader.transactionsPerBlock h.header
  · change loadAll Transaction.layout m (att.offset (loadHeader m (entryOffset i)).transactionsPtr)
      (loadHeader m (entryOffset i)).transactionsPerBlock.toInt.toNat = b.transactions
    rw [hptr, hcount, h.transactions]

structure Represents (att : Attachment cfg) (m : Memory) (blocks : List TransactionBlock) :
    Prop where
  count : numBlocks m = blocks.length
  addressable : ∀ i < blocks.length, Addressable cfg i
  lengths : ∀ b ∈ blocks, 0 < b.transactions.length ∧
    b.transactions.length ≤ cfg.transactionsPerBlock
  entries : ∀ i (h : i < blocks.length), EntryHolds att m i blocks[i]

theorem represents_initLedger : Represents att initLedger [] where
  count := by
    rw [numBlocks, initLedger, load_store]
    rfl
  addressable := by simp
  lengths := by simp
  entries := by simp

theorem Represents.capacity {blocks : List TransactionBlock} (h : Represents att m blocks) :
    blocks.length ≤ cfg.blockchainBlocks := by
  rcases Nat.eq_zero_or_pos blocks.length with hzero | hpos
  · omega
  · have := (h.addressable (blocks.length - 1) (by omega)).lt
    omega

theorem Represents.loadBlock_eq {blocks : List TransactionBlock} (h : Represents att m blocks)
    {i : ℕ} (hi : i < blocks.length) : loadBlock att m i = blocks[i] :=
  (h.entries i hi).loadBlock_eq (h.addressable i hi)

theorem numBlocks_congr (h : ∀ x, 0 ≤ x → x < 4 → m' x = m x) : numBlocks m' = numBlocks m :=
  congrArg Int32.toInt (load_congr (fun x hlo hhi => h x hlo (by simpa using hhi)))

theorem loadHeader_store_ptr (a : ℤ) (p : UInt64) :
    loadHeader (store uint64 m (a + 144) p) a = { loadHeader m a with transactionsPtr := p } := by
  have hother {α : Type} (L : ByteLayout α) (k : ℤ) (hk : k + L.size ≤ 144 ∨ 152 ≤ k) :
      load L (store uint64 m (a + 144) p) (a + k) = load L m (a + k) :=
    load_congr (fun x hlo hhi => store_outside (by simp; omega))
  have htxb : load (chars txbIdLen) (store uint64 m (a + 144) p) a = load (chars txbIdLen) m a := by
    rw [← add_zero a]
    simpa using hother (chars txbIdLen) 0 (by decide)
  have hprev := hother (chars hashSize) 64 (by decide)
  have htime := hother int64 136 (by decide)
  have hnonce := hother uint32 152 (by decide)
  have hcount := hother int32 156 (by decide)
  rw [loadHeader, loadHeader, htxb, hprev, htime, hnonce, hcount, load_store]

section Append

variable {r : ReceivedBlock cfg} {n : ℕ}

def appendedMemory (att : Attachment cfg) (r : ReceivedBlock cfg) (n : ℕ) (m : Memory) : Memory :=
  let m := write m (entryOffset n) (r.block.header r.heapPtr).bytes
  let m := write m (transactionsOffset cfg n)
    (Transaction.layout.encodeAll (r.block.transactions ++ r.heapTail))
  let m := store uint64 m (entryOffset n + 144) (att.address (transactionsOffset cfg n))
  store int32 m (entryOffset n + 160) 1

theorem length_encodeAll_heap (r : ReceivedBlock cfg) :
    (Transaction.layout.encodeAll (r.block.transactions ++ r.heapTail)).length =
      cfg.transactionsPerBlock * 32 := by
  rw [length_encodeAll, List.length_append, r.heap_length, Transaction.size_layout]

theorem appendedMemory_outside (hn : Addressable cfg n) {x : ℤ}
    (hx : ¬ EntryBytes cfg n x) : appendedMemory att r n m x = m x := by
  have hlt := hn.lt
  have hge := transactionsOffset_ge hn
  have hlen := length_encodeAll_heap r
  simp only [EntryBytes] at hx
  rw [appendedMemory, store_outside (by simp; omega), store_outside (by simp; omega),
    write_outside (by rw [hlen]; omega), write_outside (by simp; omega)]

theorem numBlocks_appendedMemory (att : Attachment cfg) (r : ReceivedBlock cfg) (m : Memory)
    (hn : Addressable cfg n) :
    numBlocks (appendedMemory att r n m) = numBlocks m :=
  numBlocks_congr (fun _ _ hhi => appendedMemory_outside hn
    (fun hx => absurd (entryBytes_pos hn.product hx) (by omega)))

theorem appendBlock_eq (hn : Addressable cfg n)
    (hcount : numBlocks m = n) :
    appendBlock att r m = store int32 (appendedMemory att r n m) 0 (Int32.ofInt (n + 1)) := by
  have hlt := hn.lt
  have hge := transactionsOffset_ge hn
  have hstore : ∀ m' : Memory, numBlocks (store uint64 (write (write m' (entryOffset n)
      (r.block.header r.heapPtr).bytes) (transactionsOffset cfg n)
      (Transaction.layout.encodeAll (r.block.transactions ++ r.heapTail))) (entryOffset n + 144)
      (att.address (transactionsOffset cfg n))) = numBlocks m' := by
    intro m'
    refine numBlocks_congr (fun x hlo hhi => ?_)
    have he := entryOffset_eq n
    rw [store_outside (by omega), write_outside (by omega), write_outside (by omega)]
  have hlast := numBlocks_appendedMemory att r m hn
  simp only [appendedMemory] at hlast ⊢
  simp only [appendBlock, hcount, hstore, hlast]

theorem appendedMemory_holds (att : Attachment cfg) (r : ReceivedBlock cfg) (m : Memory)
    (hn : Addressable cfg n) :
    EntryHolds att (appendedMemory att r n m) n r.block := by
  have hlt := hn.lt
  have hge := transactionsOffset_ge hn
  have he := entryOffset_eq n
  have hlen := length_encodeAll_heap r
  constructor
  · have hvalid : loadHeader (appendedMemory att r n m) (entryOffset n) = loadHeader
        (store uint64 (write (write m (entryOffset n) (r.block.header r.heapPtr).bytes)
          (transactionsOffset cfg n) (Transaction.layout.encodeAll
            (r.block.transactions ++ r.heapTail))) (entryOffset n + 144)
          (att.address (transactionsOffset cfg n))) (entryOffset n) :=
      loadHeader_congr (fun x hlo hhi => store_outside (by omega))
    have hcopy : loadHeader (write (write m (entryOffset n) (r.block.header r.heapPtr).bytes)
        (transactionsOffset cfg n) (Transaction.layout.encodeAll
          (r.block.transactions ++ r.heapTail))) (entryOffset n) =
        loadHeader (write m (entryOffset n) (r.block.header r.heapPtr).bytes) (entryOffset n) :=
      loadHeader_congr (fun x hlo hhi => write_outside (by omega))
    rw [hvalid, loadHeader_store_ptr, hcopy, load_headerBytes]
    rfl
  · rw [loadValid, appendedMemory, load_store]
    rfl
  · have harea : loadAll Transaction.layout (appendedMemory att r n m) (transactionsOffset cfg n)
        r.block.transactions.length = loadAll Transaction.layout
          (write (write m (entryOffset n) (r.block.header r.heapPtr).bytes)
            (transactionsOffset cfg n) (Transaction.layout.encodeAll
              (r.block.transactions ++ r.heapTail))) (transactionsOffset cfg n)
          r.block.transactions.length := by
      refine loadAll_congr (fun x hlo hhi => ?_)
      rw [appendedMemory, store_outside (by simp; omega), store_outside (by simp; omega)]
    rw [harea, loadAll_write]

theorem appendBlock_frame (hn : Addressable cfg n)
    (hcount : numBlocks m = n) {x : ℤ} (hx : x < 0 ∨ 4 ≤ x) (hent : ¬ EntryBytes cfg n x) :
    appendBlock att r m x = m x := by
  rw [appendBlock_eq hn hcount, store_outside (by simp; omega),
    appendedMemory_outside hn hent]

theorem appendBlock_numBlocks (hn : Addressable cfg n)
    (hcount : numBlocks m = n) : numBlocks (appendBlock att r m) = n + 1 := by
  have hlt := hn.lt
  have hint := cfg.int32.2.2.2
  rw [appendBlock_eq hn hcount, numBlocks, load_store, Int32.toInt_ofInt]
  exact Int.bmod_eq_of_le (by simp [Int32.size]; omega) (by simp [Int32.size]; omega)

theorem appendBlock_holds (hn : Addressable cfg n) (hcount : numBlocks m = n) :
    EntryHolds att (appendBlock att r m) n r.block := by
  rw [appendBlock_eq hn hcount]
  refine (appendedMemory_holds att r m hn).congr r.length_le (fun x hx => store_outside ?_)
  have hpos := entryBytes_pos hn.product hx
  simp
  omega

theorem Represents.append {blocks : List TransactionBlock} (h : Represents att m blocks)
    (hn : Addressable cfg blocks.length) :
    Represents att (appendBlock att r m) (blocks ++ [r.block]) where
  count := by
    rw [appendBlock_numBlocks hn h.count, List.length_append]
    rfl
  addressable := by
    intro i hi
    rcases Nat.lt_or_ge i blocks.length with hold | hge
    · exact h.addressable i hold
    · obtain rfl : i = blocks.length := by simp at hi; omega
      exact hn
  lengths := by
    intro b hb
    rcases List.mem_append.mp hb with hb | hb
    · exact h.lengths b hb
    · rw [List.mem_singleton.mp hb]
      exact ⟨r.length_pos, r.length_le⟩
  entries := by
    intro i hi
    rcases Nat.lt_or_ge i blocks.length with hold | hge
    · rw [List.getElem_append_left hold]
      have hlen := (h.lengths _ (List.getElem_mem hold)).2
      refine (h.entries i hold).congr hlen (fun x hx => ?_)
      have hpos := entryBytes_pos (h.addressable i hold).product hx
      exact appendBlock_frame hn h.count (.inr hpos)
        (entryBytes_disjoint (h.addressable i hold) hn (by omega) hx)
    · obtain rfl : i = blocks.length := by simp at hi; omega
      rw [List.getElem_concat_length rfl]
      exact appendBlock_holds hn h.count

end Append

def ledgerBlocks (att : Attachment cfg) (m : Memory) : List TransactionBlock :=
  (List.range (numBlocks m).toNat).map (fun i => loadBlock att m (i : ℕ))

theorem Represents.ledgerBlocks_eq {blocks : List TransactionBlock}
    (h : Represents att m blocks) : ledgerBlocks att m = blocks := by
  refine List.ext_getElem (by simp [ledgerBlocks, h.count]) ?_
  intro i hi hi'
  simp only [ledgerBlocks, List.getElem_map, List.getElem_range]
  exact h.loadBlock_eq hi'

end DeiChain
