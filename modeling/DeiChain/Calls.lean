import DeiChain.Moves

namespace DeiChain

open ByteLayout ByteMemory Transition

variable {cfg : Config} {k : ℕ} {env : Environment cfg} {s : State cfg k}

theorem reachable_shared (env : Environment cfg) {a : SharedAction} {sh : Shared cfg}
    (h : sharedStep s.toShared a = some sh) : Reachable (step env) always s (s.setShared sh) :=
  reachable_of_step (l := .shared a) (by rw [step, h, Option.map_some])

theorem reachable_miner {m : Fin cfg.numMiners} (a : MinerAction) {sh : Shared cfg}
    {st : MinerState cfg} (h : minerStep env (m + 1) s.toShared (s.miners m) a = some (sh, st)) :
    Reachable (step env) always s (s.setMiner sh m st) :=
  reachable_of_step (l := .miner m a) (by rw [step, h, Option.map_some])

theorem reachable_validator {v : Fin k} (a : ValidatorAction cfg) {sh : Shared cfg}
    {st : ValidatorState cfg}
    (h : validatorStep env s.toShared (s.validators v) a = some (sh, st)) :
    Reachable (step env) always s (s.setValidator sh v st) :=
  reachable_of_step (l := .validator v a) (by rw [step, h, Option.map_some])

-- A function of the source that nothing interrupts is a run of the system.
theorem reachable_add (tx : Transaction) :
    ∃ t, Reachable (step env) always s t ∧ t.pool = (addTransactionToPool tx s.pool).2 := by
  have hadd : Reachable (step env) always s (s.setShared (s.toShared.add tx)) :=
    reachable_shared env (a := .add tx) rfl
  rcases addSection_cases tx s.pool with ⟨code, hcode, heq⟩ | ⟨position, -, heq⟩
  · refine ⟨_, hadd, ?_⟩
    simp only [addTransactionToPool, State.setShared, Shared.add, heq, if_neg hcode,
      Shared.setPool_pool]
  · obtain ⟨pool, hpool⟩ : ∃ pool, insertAt position tx s.pool = pool := ⟨_, rfl⟩
    rw [hpool] at heq
    have hpending : 0 < (s.toShared.add tx).pendingPosts := by
      simp only [Shared.add, heq, if_true, Nat.succ_pos]
    have hpost := reachable_shared env (s := s.setShared (s.toShared.add tx)) (a := .post)
      (if_pos hpending)
    refine ⟨_, hadd.trans hpost, ?_⟩
    simp only [addTransactionToPool, State.setShared, Shared.add, Shared.setSem, heq, if_true,
      Shared.setPool_pool]

theorem reachable_select {m : Fin cfg.numMiners} {previousHash : Chars hashSize} {blockId : ℤ}
    (hm : s.miners m = .snapshot previousHash blockId) :
    ∃ t, Reachable (step env) always s t ∧
      t.pool.slots = (selectTransactions cfg.transactionsPerBlock s.pool.slots).1 ∧
      match (selectTransactions cfg.transactionsPerBlock s.pool.slots).2 with
      | none => t.miners m = .waiting
      | some txs => ∃ reserved, t.miners m = .selected reserved previousHash blockId ∧
          reserved.toList.map Prod.snd = txs := by
  rcases hsel : selectSection cfg.transactionsPerBlock s.pool.slots with ⟨slots, _ | reserved⟩
  · have hnone : Reachable (step env) always s
        (s.setMiner (s.toShared.setSlots slots) m .waiting) :=
      reachable_miner .select (by simp only [minerStep, hm, hsel])
    exact ⟨_, hnone, by simp [selectTransactions, hsel], by simp [selectTransactions, hsel]⟩
  · by_cases hlen : reserved.length = cfg.transactionsPerBlock
    · have hfull : Reachable (step env) always s (s.setMiner (s.toShared.setSlots slots) m
          (.selected ⟨reserved, hlen⟩ previousHash blockId)) :=
        reachable_miner .select (by simp only [minerStep, hm, hsel, dif_pos hlen])
      refine ⟨_, hfull, by simp [selectTransactions, hsel, hlen], ?_⟩
      simp only [selectTransactions, hsel, if_pos hlen]
      exact ⟨⟨reserved, hlen⟩, Function.update_self .., rfl⟩
    · let short := s.setMiner (s.toShared.setSlots slots) m (.rollback reserved)
      have hshort : Reachable (step env) always s short :=
        reachable_miner .select (by simp only [minerStep, hm, hsel, dif_neg hlen])
      have hback : Reachable (step env) always short (short.setMiner
          (short.toShared.setSlots (release (reserved.map Prod.fst) slots)) m .waiting) :=
        reachable_miner .rollback (by simp [short, minerStep])
      exact ⟨_, hshort.trans hback, by simp [selectTransactions, hsel, hlen],
        by simp [selectTransactions, hsel, hlen]⟩

def Validates (v : Fin k) (_ : State cfg k) (l : Label cfg k) : Prop :=
  l = .validator v .checkLink ∨ l = .validator v .checkPool

theorem reachable_verdict {v : Fin k} {d : Delivery cfg} (hv : s.validators v = .received d)
    {valid : Bool} {slots : Slots cfg.txPoolSize}
    (hresult : validateBlock env.sha env.att s.ledger true d.received.block s.pool.slots =
      (valid, slots)) :
    Reachable (step env) (Validates v) s (s.setValidator (s.toShared.setSlots slots) v
      (if valid then .accepted d s.committed.length else .idle)) := by
  by_cases hcheck : (verifyNonce env.sha d.received.block &&
      checkLink env.sha env.att s.ledger d.received.block) = true
  · let linked := s.setValidator s.toShared v (.linked d s.committed.length)
    have hlink : step env s (.validator v .checkLink) = some linked := by
      simp only [step, validatorStep, hv, hcheck, if_true, Option.map_some, linked]
    have hpool : poolSection d.received.block.transactions s.pool.slots = (valid, slots) := by
      rw [Bool.and_eq_true] at hcheck
      rw [← hresult]
      simp [validateBlock, hcheck.1, hcheck.2]
    have hsection : step env linked (.validator v .checkPool) =
        some (s.setValidator (s.toShared.setSlots slots) v
          (if valid then .accepted d s.committed.length else .idle)) := by
      simp [linked, step, validatorStep, hpool, State.setValidator]
    exact ((Reachable.refl s).tail (.inl rfl) hlink).tail (.inr rfl) hsection
  · have hreject : step env s (.validator v .checkLink) =
        some (s.setValidator s.toShared v .idle) := by
      simp [step, validatorStep, hv, hcheck]
    have hnothing : (valid, slots) = (false, s.pool.slots) := by
      rw [← hresult]
      simp only [Bool.not_eq_true, Bool.and_eq_false_iff] at hcheck
      rcases hcheck with hpow | hlink
      · simp [validateBlock, hpow]
      · simp [validateBlock, hlink]
    obtain ⟨rfl, rfl⟩ := Prod.mk.inj hnothing
    rw [Shared.setSlots_self]
    exact (Reachable.refl s).tail (.inl rfl) hreject

theorem reachable_validate {v : Fin k} {d : Delivery cfg} (hv : s.validators v = .received d) :
    ∃ t, Reachable (step env) always s t ∧ t.ledger = s.ledger ∧
      (t.pool.slots, t.validators v) =
        match validateBlock env.sha env.att s.ledger true d.received.block s.pool.slots with
        | (valid, slots) => (slots, if valid then .accepted d s.committed.length else .idle) := by
  refine ⟨_, (reachable_verdict hv rfl).mono (fun _ _ _ => trivial), rfl, ?_⟩
  rw [State.setValidator_toShared, State.setValidator_validators, Function.update_self]
  rfl

theorem reachable_addBlock {v : Fin k} {d : Delivery cfg} {tip : ℕ}
    (hv : s.validators v = .accepted d tip) :
    ∃ t, Reachable (step env) always s t ∧
      (t.ledger, t.validators v) =
        match addBlockToLedger env.att d.received s.ledger with
        | (code, ledger) => (ledger, if code = 0 then .removing d else .full d) := by
  by_cases hfull : numBlocks s.ledger ≥ cfg.blockchainBlocks
  · have htest : Reachable (step env) always s (s.setValidator s.toShared v (.full d)) :=
      reachable_validator .testCapacity (by simp only [validatorStep, hv, if_pos hfull])
    rw [addBlockToLedger, if_pos hfull]
    exact ⟨_, htest, by simp⟩
  · let appending := s.setValidator s.toShared v (.appending d tip)
    have htest : Reachable (step env) always s appending :=
      reachable_validator .testCapacity (by simp only [validatorStep, hv, if_neg hfull])
    have happend : Reachable (step env) always appending (appending.setValidator
        (s.toShared.append env.att d.received) v (.removing d)) :=
      reachable_validator .append (by simp [appending, validatorStep])
    rw [addBlockToLedger, if_neg hfull]
    exact ⟨_, htest.trans happend, by simp [Shared.append]⟩

end DeiChain
