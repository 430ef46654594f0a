import DeiChain.Tamper

namespace DeiChain

open ByteLayout ByteMemory HashChain Transition

variable {cfg : Config} {k : ℕ} {env : Environment cfg}

def SharesSegment (cfg : Config) (m view : Memory) : Prop :=
  ∀ x : ℤ, 0 ≤ x → x < ledgerSize cfg → view x = m x

theorem offset_address_reader (att reader : Attachment cfg) {i : ℕ} (hi : Addressable cfg i) :
    reader.offset (att.address (transactionsOffset cfg i)) =
      transactionsOffset cfg i + (att.base - reader.base) := by
  have hown := offset_address att hi
  rw [Attachment.offset] at hown ⊢
  omega

theorem loadHeader_shared {m view : Memory} (h : SharesSegment cfg m view) {i : ℕ}
    (hi : Addressable cfg i) : loadHeader view (entryOffset i) = loadHeader m (entryOffset i) := by
  refine loadHeader_congr (fun x hlo hhi => ?_)
  have hfits := entryBytes_fits hi (x := x) (.inl ⟨hlo, by omega⟩)
  exact h x hfits.1 hfits.2

theorem Represents.loadBlock_reader {att : Attachment cfg} {m view : Memory}
    {blocks : List TransactionBlock} (h : Represents att m blocks)
    (hview : SharesSegment cfg m view) (reader : Attachment cfg) {i : ℕ}
    (hi : i < blocks.length) :
    loadBlock reader view i = blocks[i] ↔
      loadAll Transaction.layout view (transactionsOffset cfg i + (att.base - reader.base))
        blocks[i].transactions.length = blocks[i].transactions := by
  have haddr := h.addressable i hi
  have hheader := (loadHeader_shared hview haddr).trans (h.entries i hi).header
  have htxs : (loadBlock reader view i).transactions =
      loadAll Transaction.layout view (transactionsOffset cfg i + (att.base - reader.base))
        blocks[i].transactions.length := by
    rw [blocks[i].transactions_length, ← offset_address_reader att reader haddr]
    simp only [loadBlock, hheader, TransactionBlock.header]
  constructor
  · intro heq
    rw [← htxs, heq]
  · intro hsame
    rw [← htxs] at hsame
    refine TransactionBlock.ext ?_ ?_ ?_ ?_ ?_ hsame
    · exact congrArg BlockHeader.txbId hheader
    · exact congrArg BlockHeader.previousBlockHash hheader
    · exact congrArg BlockHeader.timestamp hheader
    · exact congrArg BlockHeader.nonce hheader
    · exact congrArg BlockHeader.transactionsPerBlock hheader

theorem Represents.transactions_shared {att : Attachment cfg} {m view : Memory}
    {blocks : List TransactionBlock} (h : Represents att m blocks)
    (hview : SharesSegment cfg m view) {i : ℕ} (hi : i < blocks.length) :
    loadAll Transaction.layout view (transactionsOffset cfg i) blocks[i].transactions.length =
      blocks[i].transactions := by
  have haddr := h.addressable i hi
  have hlen := (h.lengths _ (List.getElem_mem hi)).2
  refine (loadAll_congr (fun x hlo hhi => ?_)).trans (h.entries i hi).transactions
  rw [Transaction.size_layout] at hhi
  have hfits := entryBytes_fits haddr (x := x) (.inr ⟨hlo, by omega⟩)
  exact hview x hfits.1 hfits.2

-- Nothing is said of an append into a full ledger or at a wrapped int product.
theorem hash_location_independent_iff {s : State cfg k}
    (h : Reachable (step env) always (initState cfg k) s)
    (haddr : ∀ i < s.committed.length, Addressable cfg i) (reader : Attachment cfg)
    {view : Memory} (hview : SharesSegment cfg s.ledger view) {i : ℕ}
    (hi : i < s.committed.length)
    (hsha : Set.InjOn env.sha {serializeBlock (loadBlock env.att s.ledger i),
      serializeBlock (loadBlock reader view i)}) :
    (computeSha256 env.sha (loadBlock reader view i) =
        computeSha256 env.sha (loadBlock env.att s.ledger i) ↔
      loadAll Transaction.layout view (transactionsOffset cfg i + (env.att.base - reader.base))
        s.committed[i].transactions.length = s.committed[i].transactions) ∧
    (reader.base = env.att.base → computeSha256 env.sha (loadBlock reader view i) =
      computeSha256 env.sha (loadBlock env.att s.ledger i)) := by
  have hrep := represents_of_reachable h haddr
  have hreader := hrep.loadBlock_reader hview reader hi
  have hwriter := hrep.loadBlock_eq hi
  have hiff : computeSha256 env.sha (loadBlock reader view i) =
      computeSha256 env.sha (loadBlock env.att s.ledger i) ↔
        loadBlock reader view i = s.committed[i] := by
    rw [← hwriter]
    constructor
    · intro heq
      exact digest_inj (fun hs => hsha (Set.mem_insert_of_mem _ rfl) (Set.mem_insert _ _) hs)
        (congrArg (fun hash : Chars hashSize => cString hash.toList) heq)
    · intro heq
      rw [heq]
  refine ⟨hiff.trans hreader, fun hbase => ?_⟩
  rw [hiff, hreader, hbase, sub_self, add_zero]
  exact hrep.transactions_shared hview hi

namespace Sample

def wideConfig : Config := ⟨1, 1, 1, 200, by decide, by decide⟩

def firstIdByte (bs : List UInt8) : Chars 32 := ⟨0 :: bs.getD 145 0 :: List.replicate 30 0, rfl⟩

def wideEnvironment : Environment wideConfig := ⟨firstIdByte, ⟨65536, by decide⟩⟩

def nextPage : Attachment wideConfig := ⟨69632, by decide⟩

def widen {spare : Fin 2} (r : ReceivedBlock (config spare)) : ReceivedBlock wideConfig where
  minerId := r.minerId
  block := r.block
  heapPtr := r.heapPtr
  heapTail := r.heapTail
  count_pos := r.count_pos
  count_le := r.count_le
  txbId_nul := r.txbId_nul
  previousBlockHash_nul := r.previousBlockHash_nul
  heap_length := r.heap_length

def wideInsert (v : Fin k) (r : ReceivedBlock wideConfig) : List (Label wideConfig k) :=
  [.shared (.add (transaction 1)), .validator v (.deliver r), .validator v .checkLink,
    .validator v .checkPool, .validator v .testCapacity, .validator v .append]

end Sample

theorem hash_location_independent_next_page :
    ∃ (s : State Sample.wideConfig 1) (hi : 0 < s.committed.length),
      (computeSha256 Sample.firstIdByte (loadBlock Sample.nextPage s.ledger 0) =
          computeSha256 Sample.firstIdByte (loadBlock Sample.wideEnvironment.att s.ledger 0) ↔
        loadAll Transaction.layout s.ledger
          (transactionsOffset Sample.wideConfig (0 : ℕ) + ((65536 : ℕ) - (69632 : ℕ)))
          s.committed[0].transactions.length = s.committed[0].transactions) := by
  have hrun : (run (step Sample.wideEnvironment) (initState _ 1)
      (Sample.wideInsert 0 (Sample.widen (@Sample.received 0 1)))).any (fun s =>
      decide (s.committed.length = 1 ∧
        Sample.firstIdByte (serializeBlock (loadBlock Sample.nextPage s.ledger (0 : ℕ))) ≠
          Sample.firstIdByte (serializeBlock
            (loadBlock Sample.wideEnvironment.att s.ledger (0 : ℕ))))) = true := by
    decide +kernel
  obtain ⟨s, hs, hend⟩ := (Option.any_eq_true ..).mp hrun
  obtain ⟨hlen, hne⟩ := of_decide_eq_true hend
  have hi : 0 < s.committed.length := by omega
  have haddr : ∀ i < s.committed.length, Addressable Sample.wideConfig i := by
    intro i hlt
    obtain rfl : i = 0 := by omega
    exact addressable_of_lt (by decide) (by decide)
  refine ⟨s, hi, (hash_location_independent_iff (reachable_of_run hs) haddr Sample.nextPage
    (fun _ _ _ => rfl) hi ?_).1⟩
  rintro x (rfl | rfl) y (rfl | rfl) heq
  · rfl
  · exact absurd heq.symm hne
  · exact absurd heq hne
  · rfl

theorem hash_depends_on_location :
    ∃ s : State Sample.wideConfig 1,
      Reachable (step Sample.wideEnvironment) always (initState _ 1) s ∧ numBlocks s.ledger = 1 ∧
        computeSha256 Sample.firstIdByte (loadBlock Sample.nextPage s.ledger 0) ≠
          computeSha256 Sample.firstIdByte (loadBlock Sample.wideEnvironment.att s.ledger 0) := by
  have hrun : (run (step Sample.wideEnvironment) (initState _ 1)
      (Sample.wideInsert 0 (Sample.widen (@Sample.received 0 1)))).any (fun s =>
      decide (numBlocks s.ledger = 1 ∧
        computeSha256 Sample.firstIdByte (loadBlock Sample.nextPage s.ledger 0) ≠
          computeSha256 Sample.firstIdByte (loadBlock Sample.wideEnvironment.att s.ledger 0))) =
      true := by
    decide +kernel
  obtain ⟨s, hs, hend⟩ := (Option.any_eq_true ..).mp hrun
  exact ⟨s, reachable_of_run hs, of_decide_eq_true hend⟩

end DeiChain
