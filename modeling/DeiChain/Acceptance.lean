import DeiChain.BlockIds
import DeiChain.Pipe

namespace DeiChain

open ByteLayout ByteMemory HashChain Transition

variable {cfg : Config} {k : ℕ} {env : Environment cfg}

namespace MinedBlock

-- The miner's search and, when it fails, the retry under a new timestamp.
def attempts (sha : Sha) (b : MinedBlock cfg) (retryClock : Int64) : MinedBlock cfg × PoWResult :=
  if (b.search sha).2.error then ((b.search sha).1.setTimestamp retryClock).search sha
  else b.search sha

variable {sha : Sha} {b : MinedBlock cfg} {retryClock : Int64}

theorem mine_eq_attempts (h : (b.attempts sha retryClock).2.error = false) :
    b.mine sha retryClock = some (b.attempts sha retryClock).1 := by
  unfold attempts at h ⊢
  unfold mine
  by_cases herror : (b.search sha).2.error = true
  · rw [if_pos herror] at h ⊢
    simp only [herror, if_true, h, Bool.false_eq_true, if_false]
  · rw [if_neg herror]
    simp only [herror, Bool.false_eq_true, if_false]

theorem search_found (h : (b.search sha).2.error = false) :
    verifyNonce sha (b.search sha).1.block = true ∧
      (b.search sha).2.hash = cString (computeSha256 sha (b.search sha).1.block).toList :=
  proofOfWork_found (b := b.block) h

theorem search_strings (sha : Sha) (b : MinedBlock cfg) :
    (b.search sha).1.block.txbId = b.block.txbId ∧
      (b.search sha).1.block.previousBlockHash = b.block.previousBlockHash := by
  change (proofOfWork sha b.block).1.txbId = _ ∧ (proofOfWork sha b.block).1.previousBlockHash = _
  obtain ⟨nonce, h⟩ := proofOfWork_only_nonce sha b.block
  rw [h]
  exact ⟨rfl, rfl⟩

theorem attempts_found (h : (b.attempts sha retryClock).2.error = false) :
    verifyNonce sha (b.attempts sha retryClock).1.block = true ∧
      (b.attempts sha retryClock).2.hash =
        cString (computeSha256 sha (b.attempts sha retryClock).1.block).toList := by
  unfold attempts at h ⊢
  split at h
  · rename_i herror
    rw [if_pos herror]
    exact search_found h
  · rename_i hfound
    rw [if_neg hfound]
    exact search_found h

theorem attempts_strings : (b.attempts sha retryClock).1.block.txbId = b.block.txbId ∧
    (b.attempts sha retryClock).1.block.previousBlockHash = b.block.previousBlockHash := by
  have hfirst := search_strings sha b
  unfold attempts
  split
  · have hsecond := search_strings sha ((b.search sha).1.setTimestamp retryClock)
    exact ⟨hsecond.1.trans hfirst.1, hsecond.2.trans hfirst.2⟩
  · exact hfirst

theorem attempts_reserved : (b.attempts sha retryClock).1.reserved = b.reserved := by
  unfold attempts
  split
  · rw [search_reserved]
    exact search_reserved sha b
  · exact search_reserved sha b

theorem attempts_spec {mined : MinedBlock cfg} {result : PoWResult}
    (h : b.attempts sha retryClock = (mined, result)) (herror : result.error = false) :
    verifyNonce sha mined.block = true ∧
      result.hash = cString (computeSha256 sha mined.block).toList ∧
      mined.reserved = b.reserved ∧ mined.block.txbId = b.block.txbId ∧
      mined.block.previousBlockHash = b.block.previousBlockHash := by
  obtain ⟨rfl, rfl⟩ : (b.attempts sha retryClock).1 = mined ∧
      (b.attempts sha retryClock).2 = result := ⟨congrArg Prod.fst h, congrArg Prod.snd h⟩
  exact ⟨(attempts_found herror).1, (attempts_found herror).2, attempts_reserved,
    attempts_strings.1, attempts_strings.2⟩

theorem count_eq (b : MinedBlock cfg) :
    b.block.transactionsPerBlock.toInt = cfg.transactionsPerBlock := by
  have hlen := b.block.transactions_length
  have hpos := cfg.transactionsPerBlock_pos
  rw [b.transactions_eq, List.length_map, b.reserved.toList_length] at hlen
  omega

theorem length_transactions (b : MinedBlock cfg) :
    b.block.transactions.length = cfg.transactionsPerBlock := by
  rw [b.transactions_eq, List.length_map, b.reserved.toList_length]

def frame (b : MinedBlock cfg) (minerId : Int32)
    (htxb : b.block.txbId.toList[txbIdLen - 1]? = some 0)
    (hprev : b.block.previousBlockHash.toList[hashSize - 1]? = some 0) : Frame cfg where
  minerId := minerId
  block := b.block
  count_pos := by
    have hpos := cfg.transactionsPerBlock_pos
    rw [b.count_eq]
    omega
  count_le := b.count_eq.le
  txbId_nul := htxb
  previousBlockHash_nul := hprev

end MinedBlock

def NoAppend (_ : State cfg k) (l : Label cfg k) : Prop := ∀ v, l ≠ .validator v .append

-- Anything but an append and an insertion into one of the given slots.
def Spares (reserved : List (Reservation cfg.txPoolSize)) (s : State cfg k) (l : Label cfg k) :
    Prop :=
  NoAppend s l ∧ ∀ tx position, l = .shared (.add tx) → Accepts tx s.pool.slots position →
    ∀ r ∈ reserved, r.1 ≠ position

theorem ledger_step {s t : State cfg k} {l : Label cfg k} (hallow : NoAppend s l)
    (hstep : step env s l = some t) : t.ledger = s.ledger := by
  rcases step_chain hstep with ⟨v, d, tip, hl, -⟩ | ⟨hledger, -⟩
  · exact absurd hl (hallow v)
  · exact hledger

theorem ledger_of_noAppend {s t : State cfg k} (h : Reachable (step env) NoAppend s t) :
    t.ledger = s.ledger :=
  h.invariant (I := fun t => t.ledger = s.ledger) rfl
    (fun _ _ _ ha hallow hstep => (ledger_step hallow hstep).trans ha)

-- As long as nothing is appended, every snapshot finds the same hash.
theorem view_of_noAppend {s t : State cfg k} {m : Fin cfg.numMiners}
    (hs : ∀ p, (s.miners m).view = some p → p.1 = previousHash env.sha env.att s.ledger)
    (h : Reachable (step env) NoAppend s t) :
    ∀ p, (t.miners m).view = some p → p.1 = previousHash env.sha env.att s.ledger := by
  refine h.invariant_along (I := fun t => ∀ p, (t.miners m).view = some p →
    p.1 = previousHash env.sha env.att s.ledger) hs ?_
  intro a l b hreach ha _ hstep p hp
  rcases step_view hstep hp with hold | rfl
  · exact ha p hold
  · exact congrArg (previousHash env.sha env.att) (ledger_of_noAppend hreach)

theorem carried_of_spares {s t : State cfg k} {reserved : List (Reservation cfg.txPoolSize)}
    (hs : ∀ r ∈ reserved, (s.pool.slots r.1).transaction.id = r.2.id)
    (h : Reachable (step env) (Spares reserved) s t) :
    ∀ r ∈ reserved, (t.pool.slots r.1).transaction.id = r.2.id := by
  refine h.invariant (I := fun t => ∀ r ∈ reserved,
    (t.pool.slots r.1).transaction.id = r.2.id) hs ?_
  intro a l b ha hallow hstep r hr
  rcases step_transaction hstep r.1 with hsame | ⟨-, -, hsame⟩ | ⟨tx, hl, hpos, -⟩
  · rw [hsame]
    exact ha r hr
  · rw [hsame.id_eq]
    exact ha r hr
  · exact absurd rfl (hallow.2 tx r.1 hl hpos r hr)

theorem selected_of_step {s t : State cfg k} {m : Fin cfg.numMiners}
    {reserved : List.Vector (Reservation cfg.txPoolSize) cfg.transactionsPerBlock}
    {previousHash : Chars hashSize} {blockId : ℤ} (h : step env s (.miner m .select) = some t)
    (hst : t.miners m = .selected reserved previousHash blockId) :
    ∀ r ∈ reserved.toList, (t.pool.slots r.1).transaction = r.2 := by
  obtain ⟨⟨sh, st⟩, hsh, rfl⟩ := Option.map_eq_some_iff.mp h
  have hmove := minerMove_of_step hsh
  rw [State.setMiner_miners, Function.update_self] at hst
  generalize s.miners m = old at hmove
  cases hmove with
  | @select _ _ slots reserved' hroom hsel =>
    cases hst
    intro r hr
    have hselects := selects_of_section hsel
    rw [State.setMiner_toShared, Shared.setSlots_slots, hselects.after_apply,
      if_pos (List.mem_map_of_mem hr)]
    exact (hselects.taken r hr).2.2.symm
  | _ => cases hst

theorem validateBlock_accepts {n : ℕ} {sha : Sha} {att : Attachment cfg} {m : Memory}
    {b : TransactionBlock} {slots : Slots n} (hpow : verifyNonce sha b = true)
    (hlink : checkLink sha att m b = true) (hfound : b.transactions.all (found slots) = true) :
    validateBlock sha att m true b slots = (true, slots) := by
  simp [validateBlock, hpow, hlink, poolSection, lookupLoop_eq, hfound]

theorem checkLink_of_previousHash {sha : Sha} {att : Attachment cfg} {m : Memory}
    {b : TransactionBlock} (h : b.previousBlockHash = previousHash sha att m) :
    checkLink sha att m b = true := by
  rw [checkLink_eq, h, beq_self_eq_true]

theorem addBlockToLedger_stores (att : Attachment cfg) (r : ReceivedBlock cfg) {m : Memory}
    (hno : cfg.blockchainBlocks * cfg.transactionsPerBlock < 2 ^ 31)
    (hroom : 0 ≤ numBlocks m ∧ numBlocks m < cfg.blockchainBlocks) :
    (addBlockToLedger att r m).1 = 0 ∧
      loadBlock att (addBlockToLedger att r m).2 (numBlocks m) = r.block := by
  obtain ⟨n, hn⟩ := Int.eq_ofNat_of_zero_le hroom.1
  have haddr : Addressable cfg n := addressable_of_lt hno (by omega)
  rw [addBlockToLedger, if_neg (by omega), hn]
  exact ⟨rfl, (appendBlock_holds haddr hn).loadBlock_eq haddr⟩

theorem decode_frame (f : Frame cfg) :
    finishOf cfg (sendBlockToValidator f).flatten = some (some f.pair) :=
  pipeProtocol_sound.finished f

theorem view_before_snapshot {s t : State cfg k} {m : Fin cfg.numMiners}
    (h : step env s (.miner m .snapshot) = some t) : (s.miners m).view = none := by
  obtain ⟨⟨sh, st⟩, hsh, -⟩ := Option.map_eq_some_iff.mp h
  have hmove := minerMove_of_step hsh
  generalize s.miners m = old at hmove
  cases hmove
  rfl

theorem honest_block_accepted {before seen ready taken t : State cfg k} {m : Fin cfg.numMiners}
    {reserved : List.Vector (Reservation cfg.txPoolSize) cfg.transactionsPerBlock}
    {seenHash : Chars hashSize} {blockId : ℤ} {clock retryClock : Int64}
    {mined : MinedBlock cfg} {result : PoWResult} (heapPtr : UInt64)
    (hno : cfg.blockchainBlocks * cfg.transactionsPerBlock < 2 ^ 31)
    (hroom : 0 ≤ numBlocks before.ledger ∧ numBlocks before.ledger < cfg.blockchainBlocks)
    (hsnapshot : step env before (.miner m .snapshot) = some seen)
    (hready : Reachable (step env) NoAppend seen ready)
    (hselect : step env ready (.miner m .select) = some taken)
    (hst : taken.miners m = .selected reserved seenHash blockId)
    (hids : ∀ r ∈ reserved.toList, r.2.id ≠ [])
    (hmined : (MinedBlock.create reserved seenHash (m + 1 : ℕ) blockId clock).attempts env.sha
      retryClock = (mined, result)) (herror : result.error = false)
    (hspared : Reachable (step env) (Spares reserved.toList) taken t) :
    ∃ f : Frame cfg, f.pair = (minerIdOf m, mined.block) ∧
      finishOf cfg (sendBlockToValidator f).flatten = some (some f.pair) ∧
      ∃ r, admitFrame cfg f.minerId f.block heapPtr [] = some r ∧
        validateBlock env.sha env.att t.ledger true r.block t.pool.slots = (true, t.pool.slots) ∧
        cString (computeSha256 env.sha r.block).toList = result.hash ∧
        (addBlockToLedger env.att r t.ledger).1 = 0 ∧
        cString (computeSha256 env.sha (loadBlock env.att
          (addBlockToLedger env.att r t.ledger).2 (numBlocks t.ledger))).toList = result.hash := by
  have htaken : Reachable (step env) NoAppend before taken :=
    (((Reachable.refl before).tail (fun _ h => by cases h) hsnapshot).trans hready).tail
      (fun _ h => by cases h) hselect
  have hview : seenHash = previousHash env.sha env.att before.ledger := by
    refine view_of_noAppend (m := m) (fun p hp => ?_) htaken (seenHash, blockId) (by rw [hst]; rfl)
    rw [view_before_snapshot hsnapshot] at hp
    cases hp
  have hledger : t.ledger = before.ledger :=
    (ledger_of_noAppend (hspared.mono (fun _ _ h => h.1))).trans (ledger_of_noAppend htaken)
  obtain ⟨hpow, hhash, hreserved, htxb, hprev⟩ := MinedBlock.attempts_spec hmined herror
  have htxbNul : mined.block.txbId.toList[txbIdLen - 1]? = some 0 := by
    rw [htxb]
    exact terminate_last (n := 63) _
  have hprevNul : mined.block.previousBlockHash.toList[hashSize - 1]? = some 0 := by
    rw [hprev]
    exact terminate_last (n := 64) _
  have hlink : checkLink env.sha env.att t.ledger mined.block = true := by
    refine checkLink_of_previousHash (hprev.trans ?_)
    rw [hledger, hview]
    exact terminate_previousHash _ _ _
  have hfound : mined.block.transactions.all (found t.pool.slots) = true := by
    rw [mined.transactions_eq, hreserved, List.all_eq_true]
    intro u hu
    obtain ⟨r, hr, rfl⟩ := List.mem_map.mp hu
    have hcarried := carried_of_spares
      (fun r hr => congrArg Transaction.id (selected_of_step hselect hst r hr)) hspared r hr
    exact found_iff.mpr ⟨hids r hr, r.1, hcarried⟩
  let f := mined.frame (minerIdOf m) htxbNul hprevNul
  have hheap : f.block.transactions.length + ([] : List Transaction).length =
      cfg.transactionsPerBlock := mined.length_transactions
  obtain ⟨r, hadmit, hpair⟩ := f.admitted heapPtr [] hheap
  have hblock : r.block = mined.block := congrArg Prod.snd hpair
  obtain ⟨hcode, hstored⟩ := addBlockToLedger_stores env.att r hno (hledger ▸ hroom)
  refine ⟨f, rfl, decode_frame f, r, hadmit, ?_, ?_, hcode, ?_⟩
  · rw [hblock]
    exact validateBlock_accepts hpow hlink hfound
  · rw [hblock, hhash]
  · rw [hstored, hblock, hhash]

namespace Sample

def mines {spare : Fin 2} : MinerState (config spare) → Bool
  | .selected reserved seenHash blockId =>
    reserved.toList.all (·.2.id != []) &&
      !((MinedBlock.create reserved seenHash (1 : ℕ) blockId 0).attempts
        (environment spare).sha 0).2.error
  | _ => false

theorem selected_of_mines {st : MinerState (config 1)} (h : mines st = true) :
    ∃ reserved seenHash blockId, st = .selected reserved seenHash blockId ∧
      (∀ r ∈ reserved.toList, r.2.id ≠ []) ∧
      ((MinedBlock.create reserved seenHash (1 : ℕ) blockId 0).attempts
        (environment 1).sha 0).2.error = false := by
  cases st with
  | selected reserved seenHash blockId =>
    obtain ⟨hids, herror⟩ := Bool.and_eq_true_iff.mp h
    refine ⟨reserved, seenHash, blockId, rfl, fun r hr => ?_, by simpa using herror⟩
    simpa using List.all_eq_true.mp hids r hr
  | _ => cases h

end Sample

theorem honest_block_accepted_after_aging :
    ∃ (t : State (Sample.config 1) 1) (r : ReceivedBlock (Sample.config 1)),
      (t.pool.slots 1).age = 1 ∧
        validateBlock (Sample.environment 1).sha (Sample.environment 1).att t.ledger true r.block
          t.pool.slots = (true, t.pool.slots) ∧
        (addBlockToLedger (Sample.environment 1).att r t.ledger).1 = 0 := by
  let labels : List (Label (Sample.config 1) 1) := [.miner 0 (.create 0), .miner 0 (.mine 0),
    .miner 0 .send, .shared .age, .validator 0 (.receive 0 0)]
  have hrun : (run (step (Sample.environment 1)) (initState (Sample.config 1) 1)
      (Sample.add 1 ++ Sample.add 2 ++ [.miner 0 .wait])).any (fun before =>
        (step (Sample.environment 1) before (.miner 0 .snapshot)).any (fun seen =>
        (step (Sample.environment 1) seen (.miner 0 .select)).any (fun taken =>
        (run (step (Sample.environment 1)) taken labels).any (fun t =>
          Sample.mines (taken.miners 0) && decide (numBlocks before.ledger = 0 ∧
            (t.pool.slots 1).age = 1))))) = true := by
    decide +kernel
  obtain ⟨before, -, hrun⟩ := (Option.any_eq_true ..).mp hrun
  obtain ⟨seen, hsnapshot, hrun⟩ := (Option.any_eq_true ..).mp hrun
  obtain ⟨taken, hselect, hrun⟩ := (Option.any_eq_true ..).mp hrun
  obtain ⟨t, ht, hend⟩ := (Option.any_eq_true ..).mp hrun
  obtain ⟨hmines, hend⟩ := Bool.and_eq_true_iff.mp hend
  obtain ⟨hempty, hage⟩ := of_decide_eq_true hend
  obtain ⟨reserved, seenHash, blockId, hst, hids, herror⟩ := Sample.selected_of_mines hmines
  have hspared : Reachable (step (Sample.environment 1)) (Spares reserved.toList) taken t := by
    refine reachable_of_run_forall ?_ ht
    intro l hl a
    refine ⟨?_, ?_⟩
    · rintro v rfl
      simp [labels] at hl
    · rintro tx position rfl
      simp [labels] at hl
  obtain ⟨f, -, -, r, -, hvalid, -, hcode, -⟩ := honest_block_accepted 0 (by decide)
    (by rw [hempty]; decide) hsnapshot (.refl seen) hselect hst hids rfl herror hspared
  exact ⟨t, r, hage, hvalid, hcode⟩

end DeiChain
