import DeiChain.Chain
import DeiChain.Library.AppendLog

namespace DeiChain

open ByteLayout ByteMemory Transition AppendLog

variable {cfg : Config} {att : Attachment cfg}

structure DumpedBlock where
  index : ℕ
  txbId : Chars txbIdLen
  previousBlockHash : Chars hashSize
  timestamp : Int64
  nonce : UInt32
  transactions : List Transaction
deriving DecidableEq

-- The controller prints a fixed number of transactions, from an address it computes itself.
def dumpBlock (cfg : Config) (m : Memory) (i : ℕ) : DumpedBlock :=
  let h := loadHeader m (entryOffset i)
  ⟨i, h.txbId, h.previousBlockHash, h.timestamp, h.nonce,
    loadAll Transaction.layout m (transactionsOffset cfg i) cfg.transactionsPerBlock⟩

def dumpLedger (cfg : Config) (m : Memory) : List DumpedBlock :=
  ((List.range (numBlocks m).toNat).filter (fun i => loadValid m (i : ℕ) ≠ 0)).map (dumpBlock cfg m)

def TransactionBlock.dumped (b : TransactionBlock) (i : ℕ) : DumpedBlock :=
  ⟨i, b.txbId, b.previousBlockHash, b.timestamp, b.nonce, b.transactions⟩

-- init_ipc_resources clears the counter only; the rest of the memory is what it was.
def clearLedger (m : Memory) : Memory := store int32 m 0 0

theorem represents_clearLedger (m : Memory) : Represents att (clearLedger m) [] where
  count := by
    rw [numBlocks, clearLedger, load_store]
    rfl
  addressable := by simp
  lengths := by simp
  entries := by simp

theorem Represents.dumpBlock_eq {m : Memory} {blocks : List TransactionBlock}
    (h : Represents att m blocks)
    (hfull : ∀ b ∈ blocks, b.transactions.length = cfg.transactionsPerBlock) {i : ℕ}
    (hi : i < blocks.length) : dumpBlock cfg m i = blocks[i].dumped i := by
  obtain ⟨hheader, -, htxs⟩ := h.entries i hi
  rw [hfull _ (List.getElem_mem hi)] at htxs
  simp only [dumpBlock, hheader, htxs]
  rfl

theorem Represents.dumpLedger_eq {m : Memory} {blocks : List TransactionBlock}
    (h : Represents att m blocks)
    (hfull : ∀ b ∈ blocks, b.transactions.length = cfg.transactionsPerBlock) :
    dumpLedger cfg m = blocks.mapIdx (fun i b => b.dumped i) := by
  have hvalid : (List.range (numBlocks m).toNat).filter (fun i => loadValid m (i : ℕ) ≠ 0) =
      List.range blocks.length := by
    rw [h.count, Int.toNat_natCast, List.filter_eq_self]
    intro i hi
    simp [(h.entries i (List.mem_range.mp hi)).valid]
  rw [dumpLedger, hvalid]
  refine List.ext_getElem (by simp) ?_
  intro i hi hi'
  simp only [List.getElem_map, List.getElem_range, List.getElem_mapIdx]
  exact h.dumpBlock_eq hfull _

theorem appendBlock_outside {m : Memory} {n : ℕ} (hn : Addressable cfg n)
    (hcount : numBlocks m = n) (r : ReceivedBlock cfg) {x : ℤ}
    (hx : x < 0 ∨ ledgerSize cfg ≤ x) : appendBlock att r m x = m x := by
  have hsize : 4 ≤ ledgerSize cfg := by
    rw [ledgerSize, sizeofBlockchainLedger]
    omega
  refine appendBlock_frame hn hcount (by omega) (fun hent => ?_)
  have hfits := entryBytes_fits hn hent
  omega

def Full (r : ReceivedBlock cfg) : Prop :=
  r.block.transactionsPerBlock.toInt = cfg.transactionsPerBlock

theorem Full.length {r : ReceivedBlock cfg} (h : Full r) :
    r.block.transactions.length = cfg.transactionsPerBlock := by
  rw [r.block.transactions_length, h, Int.toNat_natCast]

def Behaves (att : Attachment cfg) (m₀ m : Memory) (blocks : List TransactionBlock) : Prop :=
  Represents att m blocks ∧ (∀ b ∈ blocks, b.transactions.length = cfg.transactionsPerBlock) ∧
    ∀ x : ℤ, x < 0 ∨ ledgerSize cfg ≤ x → m x = m₀ x

theorem addBlockToLedger_refines (att : Attachment cfg) (m₀ : Memory)
    (hno : cfg.blockchainBlocks * cfg.transactionsPerBlock < 2 ^ 31) :
    Refines (fun m r => addBlockToLedger att r m) cfg.blockchainBlocks ReceivedBlock.block Full
      (Behaves att m₀) := by
  rintro m blocks r hr ⟨hrep, hfull, houtside⟩
  have hcount := hrep.count
  by_cases hroom : blocks.length < cfg.blockchainBlocks
  · have haddr := addressable_of_lt hno hroom
    have hadd : addBlockToLedger att r m = (0, appendBlock att r m) := by
      rw [addBlockToLedger, if_neg (by omega)]
    change (addBlockToLedger att r m).1 = _ ∧ Behaves att m₀ (addBlockToLedger att r m).2 _
    rw [hadd, push, if_pos hroom]
    refine ⟨rfl, hrep.append haddr, ?_, ?_⟩
    · intro b hb
      rcases List.mem_append.mp hb with hb | hb
      · exact hfull b hb
      · rw [List.mem_singleton.mp hb]
        exact hr.length
    · intro x hx
      exact (appendBlock_outside haddr hcount r hx).trans (houtside x hx)
  · have hadd : addBlockToLedger att r m = (-1, m) := by
      rw [addBlockToLedger, if_pos (by omega)]
    change (addBlockToLedger att r m).1 = _ ∧ Behaves att m₀ (addBlockToLedger att r m).2 _
    rw [hadd, push, if_neg hroom]
    exact ⟨rfl, hrep, hfull, houtside⟩

theorem ledger_refines_log (att : Attachment cfg)
    (hno : cfg.blockchainBlocks * cfg.transactionsPerBlock < 2 ^ 31) (m₀ : Memory)
    (rs : List (ReceivedBlock cfg)) (hfull : ∀ r ∈ rs, Full r) :
    ∃ codes m, callAll (fun m r => addBlockToLedger att r m) (clearLedger m₀) rs = (codes, m) ∧
      (∀ i < rs.length, codes[i]? = some (if i < cfg.blockchainBlocks then 0 else -1)) ∧
      ledgerBlocks att m = (rs.map (·.block)).take cfg.blockchainBlocks ∧
      dumpLedger cfg m = (ledgerBlocks att m).mapIdx (fun i b => b.dumped i) ∧
      (∀ x : ℤ, x < 0 ∨ ledgerSize cfg ≤ x → m x = m₀ x) ∧
      ∀ r, numBlocks m = cfg.blockchainBlocks → addBlockToLedger att r m = (-1, m) := by
  have hstart : Behaves att m₀ (clearLedger m₀) [] := by
    refine ⟨represents_clearLedger m₀, by simp, fun x hx => store_outside ?_⟩
    have hsize : 4 ≤ ledgerSize cfg := by
      rw [ledgerSize, sizeofBlockchainLedger]
      omega
    simp only [size_int32]
    omega
  obtain ⟨hcodes, hrep, hlen, houtside⟩ :=
    (addBlockToLedger_refines att m₀ hno).callAll hfull hstart
  rw [callAll_push, List.nil_append, List.length_nil, Nat.sub_zero] at hrep hlen
  refine ⟨_, _, rfl, ?_, hrep.ledgerBlocks_eq, ?_, houtside, ?_⟩
  · intro i hi
    rw [hcodes, codes_push _ _ _ i (by simpa using hi), List.length_nil, Nat.zero_add]
  · rw [hrep.ledgerBlocks_eq]
    exact hrep.dumpLedger_eq hlen
  · intro r hcount
    rw [addBlockToLedger, if_pos (by omega)]

theorem ledger_refines_log_three_calls :
    ∃ codes m, callAll (fun m r => addBlockToLedger (Sample.environment 1).att r m)
        (clearLedger (fun _ => 255))
        [Sample.received 1, Sample.replayReceived 2, Sample.replayReceived 3] = (codes, m) ∧
      codes[2]? = some (-1) ∧
      ledgerBlocks (Sample.environment 1).att m = [Sample.block 1, Sample.replay 2] := by
  have hfull : ∀ r ∈ [(Sample.received 1 : ReceivedBlock (Sample.config 1)),
      Sample.replayReceived 2, Sample.replayReceived 3], Full r := by
    intro r hr
    simp only [List.mem_cons, List.not_mem_nil, or_false] at hr
    rcases hr with rfl | rfl | rfl <;> exact (by decide : (1 : Int32).toInt = 1)
  obtain ⟨codes, m, hrun, hcodes, hblocks, -⟩ := ledger_refines_log (Sample.environment 1).att
    (by decide) (fun _ => 255) _ hfull
  exact ⟨codes, m, hrun, hcodes 2 (by decide), hblocks⟩

end DeiChain
