import DeiChain.System

namespace DeiChain

open ByteLayout ByteMemory Transition

variable {cfg : Config} {k : ℕ} {env : Environment cfg} {sh sh' : Shared cfg}

namespace Shared

@[simp] theorem setPool_pool (pool : TransactionPool cfg.txPoolSize) :
    (sh.setPool pool).pool = pool := rfl

@[simp] theorem setSlots_slots (slots : Slots cfg.txPoolSize) :
    (sh.setSlots slots).pool.slots = slots := rfl

@[simp] theorem setSlots_sem (slots : Slots cfg.txPoolSize) :
    (sh.setSlots slots).pool.workNotificationSem = sh.pool.workNotificationSem := rfl

theorem setSlots_self : sh.setSlots sh.pool.slots = sh := rfl

end Shared

inductive MinerMove (env : Environment cfg) (minerId : ℕ) (sh : Shared cfg) :
    MinerAction → MinerState cfg → Shared cfg → MinerState cfg → Prop
  | wait (h : 0 < sh.pool.workNotificationSem) : MinerMove env minerId sh .wait .waiting
      (sh.setSem (sh.pool.workNotificationSem - 1)) .woken
  | waitFails : MinerMove env minerId sh .waitFails .waiting sh .exited
  | snapshot : MinerMove env minerId sh .snapshot .woken sh
      (.snapshot (previousHash env.sha env.att sh.ledger) (numBlocks sh.ledger))
  | selectNone {previousHash : Chars hashSize} {blockId : ℤ}
      (h : available sh.pool.slots < cfg.transactionsPerBlock) :
      MinerMove env minerId sh .select (.snapshot previousHash blockId) sh .waiting
  | select {previousHash : Chars hashSize} {blockId : ℤ} {slots : Slots cfg.txPoolSize}
      {reserved : List.Vector (Reservation cfg.txPoolSize) cfg.transactionsPerBlock}
      (h : cfg.transactionsPerBlock ≤ available sh.pool.slots)
      (hsel : selectLoop cfg.transactionsPerBlock (List.finRange _) sh.pool.slots [] =
        (slots, reserved.toList)) :
      MinerMove env minerId sh .select (.snapshot previousHash blockId) (sh.setSlots slots)
        (.selected reserved previousHash blockId)
  | selectShort {previousHash : Chars hashSize} {blockId : ℤ} {slots : Slots cfg.txPoolSize}
      {reserved : List (Reservation cfg.txPoolSize)}
      (h : cfg.transactionsPerBlock ≤ available sh.pool.slots)
      (hsel : selectLoop cfg.transactionsPerBlock (List.finRange _) sh.pool.slots [] =
        (slots, reserved))
      (hshort : reserved.length ≠ cfg.transactionsPerBlock) :
      MinerMove env minerId sh .select (.snapshot previousHash blockId) (sh.setSlots slots)
        (.rollback reserved)
  | selectFails {previousHash : Chars hashSize} {blockId : ℤ} :
      MinerMove env minerId sh .selectFails (.snapshot previousHash blockId) sh .waiting
  | rollback {reserved : List (Reservation cfg.txPoolSize)} :
      MinerMove env minerId sh .rollback (.rollback reserved)
        (sh.setSlots (release (reserved.map Prod.fst) sh.pool.slots)) .waiting
  | checkFails {reserved : List.Vector (Reservation cfg.txPoolSize) cfg.transactionsPerBlock}
      {previousHash : Chars hashSize} {blockId : ℤ} :
      MinerMove env minerId sh .checkFails (.selected reserved previousHash blockId) sh
        (.restoring reserved)
  | create {reserved : List.Vector (Reservation cfg.txPoolSize) cfg.transactionsPerBlock}
      {previousHash : Chars hashSize} {blockId : ℤ} (clock : Int64) :
      MinerMove env minerId sh (.create clock) (.selected reserved previousHash blockId) sh
        (.created (MinedBlock.create reserved previousHash minerId blockId clock))
  | createFails {reserved : List.Vector (Reservation cfg.txPoolSize) cfg.transactionsPerBlock}
      {previousHash : Chars hashSize} {blockId : ℤ} :
      MinerMove env minerId sh .createFails (.selected reserved previousHash blockId) sh
        (.restoring reserved)
  | mine {b b' : MinedBlock cfg} {retryClock : Int64} (h : b.mine env.sha retryClock = some b') :
      MinerMove env minerId sh (.mine retryClock) (.created b) sh (.mined b')
  | mineFails {b : MinedBlock cfg} {retryClock : Int64} :
      MinerMove env minerId sh (.mine retryClock) (.created b) sh (.restoring b.reserved)
  | send {b : MinedBlock cfg} :
      MinerMove env minerId sh .send (.mined b) (sh.push ⟨Int32.ofNat minerId, b⟩) .waiting
  | sendFails {b : MinedBlock cfg} :
      MinerMove env minerId sh .sendFails (.mined b) sh (.restoring b.reserved)
  | restore {reserved : List.Vector (Reservation cfg.txPoolSize) cfg.transactionsPerBlock} :
      MinerMove env minerId sh .restore (.restoring reserved)
        (sh.setSlots (restoreLoop (reserved.toList.map Prod.snd) sh.pool.slots)) .waiting
  | quit {st : MinerState cfg} (h : sh.shouldTerminate = true) :
      MinerMove env minerId sh .quit st sh .exited

theorem minerMove_of_step {minerId : ℕ} {st st' : MinerState cfg} {a : MinerAction}
    (h : minerStep env minerId sh st a = some (sh', st')) :
    MinerMove env minerId sh a st sh' st' := by
  cases a with
  | select =>
    cases st <;> simp only [minerStep, reduceCtorEq] at h
    rename_i previousHash blockId
    simp only [selectSection] at h
    split at h
    · rename_i hnone
      split at hnone
      · cases hnone
        cases h
        exact .selectNone ‹_›
      · cases hnone
    · rename_i hsome
      split at hsome
      · cases hsome
      · cases hsome
        split at h
        · cases h
          exact .select (Nat.le_of_not_lt ‹_›) rfl
        · cases h
          exact .selectShort (Nat.le_of_not_lt ‹_›) rfl ‹_›
  | mine retryClock =>
    cases st <;> simp only [minerStep, reduceCtorEq] at h
    split at h
    · cases h
      exact .mine ‹_›
    · cases h
      exact .mineFails
  | wait =>
    cases st <;> simp only [minerStep, reduceCtorEq] at h
    split at h
    · cases h
      exact .wait ‹_›
    · cases h
  | quit =>
    cases st <;> simp only [minerStep, reduceCtorEq] at h
    all_goals
      split at h
      · cases h
        exact .quit ‹_›
      · cases h
  | _ =>
    cases st <;> cases h
    constructor

inductive ValidatorMove (env : Environment cfg) (sh : Shared cfg) :
    ValidatorAction cfg → ValidatorState cfg → Shared cfg → ValidatorState cfg → Prop
  | receive {i : ℕ} {heapPtr : UInt64} {msg : Message cfg} (h : sh.pipe i = some msg) :
      ValidatorMove env sh (.receive i heapPtr) .idle (sh.pop i) (.received (msg.delivery heapPtr))
  | deliver (r : ReceivedBlock cfg) :
      ValidatorMove env sh (.deliver r) .idle sh (.received ⟨r, [], by simp⟩)
  | link {d : Delivery cfg} (hpow : verifyNonce env.sha d.received.block = true)
      (hlink : checkLink env.sha env.att sh.ledger d.received.block = true) :
      ValidatorMove env sh .checkLink (.received d) sh (.linked d sh.committed.length)
  | linkFails {d : Delivery cfg} : ValidatorMove env sh .checkLink (.received d) sh .idle
  | accept {d : Delivery cfg} {tip : ℕ}
      (h : d.received.block.transactions.all (found sh.pool.slots) = true) :
      ValidatorMove env sh .checkPool (.linked d tip) sh (.accepted d tip)
  | reject {d : Delivery cfg} {tip : ℕ}
      (h : d.received.block.transactions.all (found sh.pool.slots) = false) :
      ValidatorMove env sh .checkPool (.linked d tip)
        (sh.setSlots (poolSection d.received.block.transactions sh.pool.slots).2) .idle
  | checkPoolFails {d : Delivery cfg} {tip : ℕ} :
      ValidatorMove env sh .checkPoolFails (.linked d tip) sh .idle
  | fits {d : Delivery cfg} {tip : ℕ} (h : numBlocks sh.ledger < cfg.blockchainBlocks) :
      ValidatorMove env sh .testCapacity (.accepted d tip) sh (.appending d tip)
  | refuse {d : Delivery cfg} {tip : ℕ} (h : cfg.blockchainBlocks ≤ numBlocks sh.ledger) :
      ValidatorMove env sh .testCapacity (.accepted d tip) sh (.full d)
  | append {d : Delivery cfg} {tip : ℕ} :
      ValidatorMove env sh .append (.appending d tip) (sh.append env.att d.received) (.removing d)
  | remove {d : Delivery cfg} {pool : TransactionPool cfg.txPoolSize}
      (h : removeTransactionsFromPool d.received sh.pool = pool) :
      ValidatorMove env sh .remove (.removing d) (sh.setPool pool) .idle
  | restoreRefused {d : Delivery cfg} {pool : TransactionPool cfg.txPoolSize}
      (h : restoreRefused d.received sh.pool = pool) :
      ValidatorMove env sh .restoreRefused (.full d) (sh.setPool pool) .idle

theorem validatorMove_of_step {st st' : ValidatorState cfg} {a : ValidatorAction cfg}
    (h : validatorStep env sh st a = some (sh', st')) : ValidatorMove env sh a st sh' st' := by
  cases a with
  | receive i heapPtr =>
    cases st <;> simp only [validatorStep, reduceCtorEq] at h
    split at h
    · cases h
      exact .receive ‹_›
    · cases h
  | checkLink =>
    cases st <;> simp only [validatorStep, reduceCtorEq] at h
    split at h
    · rename_i hcheck
      rw [Bool.and_eq_true] at hcheck
      cases h
      exact .link hcheck.1 hcheck.2
    · cases h
      exact .linkFails
  | checkPool =>
    cases st <;> simp only [validatorStep, reduceCtorEq] at h
    rename_i d tip
    have hfst := poolSection_fst d.received.block.transactions sh.pool.slots
    cases h
    rw [hfst]
    split
    · rename_i hall
      have hsame : (poolSection d.received.block.transactions sh.pool.slots).2 =
          sh.pool.slots := by
        simp [poolSection, lookupLoop_eq, hall]
      rw [hsame, Shared.setSlots_self]
      exact .accept hall
    · exact .reject (Bool.eq_false_iff.mpr ‹_›)
  | testCapacity =>
    cases st <;> simp only [validatorStep, reduceCtorEq] at h
    cases h
    split
    · exact .refuse ‹_›
    · exact .fits (not_le.mp ‹_›)
  | deliver r =>
    cases st <;> cases h
    constructor
  | checkPoolFails =>
    cases st <;> cases h
    constructor
  | append =>
    cases st <;> cases h
    constructor
  | remove =>
    cases st <;> simp only [validatorStep, reduceCtorEq, Option.some.injEq, Prod.mk.injEq] at h
    obtain ⟨rfl, rfl⟩ := h
    exact .remove rfl
  | restoreRefused =>
    cases st <;> simp only [validatorStep, reduceCtorEq, Option.some.injEq, Prod.mk.injEq] at h
    obtain ⟨rfl, rfl⟩ := h
    exact .restoreRefused rfl

inductive SharedMove (sh : Shared cfg) : SharedAction → Shared cfg → Prop
  | add (tx : Transaction) {position : Fin cfg.txPoolSize} {pool : TransactionPool cfg.txPoolSize}
      (h : Accepts tx sh.pool.slots position) (hpool : insertAt position tx sh.pool = pool) :
      SharedMove sh (.add tx)
        { sh.setPool pool with
          pendingPosts := sh.pendingPosts + 1
          used := tx.id :: sh.used }
  | addFails (tx : Transaction) : SharedMove sh (.add tx) { sh with used := tx.id :: sh.used }
  | post (h : 0 < sh.pendingPosts) :
      SharedMove sh .post
        { sh.setSem (sh.pool.workNotificationSem + 1) with pendingPosts := sh.pendingPosts - 1 }
  | terminate : SharedMove sh .terminate { sh with shouldTerminate := true }
  | mainPost (h : sh.shouldTerminate = true) :
      SharedMove sh .mainPost
        { sh.setSem (sh.pool.workNotificationSem + 1) with mainPosts := sh.mainPosts + 1 }
  | lose (i : ℕ) : SharedMove sh (.lose i) (sh.pop i)
  | age : SharedMove sh .age (sh.setSlots (ageSection sh.pool.slots))

theorem sharedMove_of_step {a : SharedAction} (h : sharedStep sh a = some sh') :
    SharedMove sh a sh' := by
  cases a with
  | add tx =>
    rcases addSection_cases tx sh.pool with ⟨code, hcode, hadd⟩ | ⟨position, hpos, hadd⟩
    · simp only [sharedStep, Shared.add, hadd, if_neg hcode] at h
      cases h
      exact .addFails tx
    · simp only [sharedStep, Shared.add, hadd, if_pos, Option.some.injEq] at h
      subst h
      exact .add tx hpos rfl
  | post =>
    simp only [sharedStep] at h
    split at h
    · cases h
      exact .post ‹_›
    · cases h
  | mainPost =>
    simp only [sharedStep] at h
    split at h
    · rename_i hcond
      cases h
      exact .mainPost hcond.1
    · cases h
  | _ =>
    cases h
    constructor

theorem step_cases {s t : State cfg k} {l : Label cfg k} (h : step env s l = some t) :
    (∃ a sh, l = .shared a ∧ SharedMove s.toShared a sh ∧ t = s.setShared sh) ∨
    (∃ m a sh st, l = .miner m a ∧
      MinerMove env (m + 1) s.toShared a (s.miners m) sh st ∧ t = s.setMiner sh m st) ∨
    ∃ v a sh st, l = .validator v a ∧ ValidatorMove env s.toShared a (s.validators v) sh st ∧
      t = s.setValidator sh v st := by
  cases l with
  | shared a =>
    obtain ⟨sh, hsh, rfl⟩ := Option.map_eq_some_iff.mp h
    exact .inl ⟨a, sh, rfl, sharedMove_of_step hsh, rfl⟩
  | miner m a =>
    obtain ⟨⟨sh, st⟩, hsh, rfl⟩ := Option.map_eq_some_iff.mp h
    exact .inr (.inl ⟨m, a, sh, st, rfl, minerMove_of_step hsh, rfl⟩)
  | validator v a =>
    obtain ⟨⟨sh, st⟩, hsh, rfl⟩ := Option.map_eq_some_iff.mp h
    exact .inr (.inr ⟨v, a, sh, st, rfl, validatorMove_of_step hsh, rfl⟩)

theorem step_used {s t : State cfg k} {l : Label cfg k} (h : step env s l = some t) :
    t.used = s.used ∨ ∃ tx, l = .shared (.add tx) ∧ t.used = tx.id :: s.used := by
  rcases step_cases h with ⟨a, sh, rfl, hmove, rfl⟩ | ⟨m, a, sh, st, rfl, hmove, rfl⟩ |
    ⟨v, a, sh, st, rfl, hmove, rfl⟩
  · cases hmove with
    | add tx => exact .inr ⟨tx, rfl, rfl⟩
    | addFails tx => exact .inr ⟨tx, rfl, rfl⟩
    | _ => exact .inl rfl
  · generalize s.miners m = old at hmove
    cases hmove <;> exact .inl rfl
  · generalize s.validators v = old at hmove
    cases hmove <;> exact .inl rfl

theorem step_transaction {s t : State cfg k} {l : Label cfg k} (h : step env s l = some t)
    (i : Fin cfg.txPoolSize) :
    (t.pool.slots i).transaction = (s.pool.slots i).transaction ∨
      (l = .shared .age ∧ (s.pool.slots i).empty = false ∧
        (t.pool.slots i).transaction.SameRecord (s.pool.slots i).transaction) ∨
      ∃ tx, l = .shared (.add tx) ∧ Accepts tx s.pool.slots i ∧
        (t.pool.slots i).transaction = tx := by
  rcases step_cases h with ⟨a, sh, rfl, hmove, rfl⟩ | ⟨m, a, sh, st, rfl, hmove, rfl⟩ |
    ⟨v, a, sh, st, rfl, hmove, rfl⟩
  · cases hmove with
    | @add tx position pool hpos hpool =>
      by_cases hi : i = position
      · refine .inr (.inr ⟨tx, rfl, hi ▸ hpos, ?_⟩)
        change (pool.slots i).transaction = _
        rw [← hpool, insertAt_slots, hi, Function.update_self]
      · refine .inl ?_
        change (pool.slots i).transaction = _
        rw [← hpool, insertAt_slots, Function.update_of_ne hi]
    | age =>
      by_cases hi : (s.pool.slots i).empty = true
      · exact .inl (congrArg TransactionPoolEntry.transaction (ageEntry_of_empty hi))
      · exact .inr (.inl ⟨rfl, Bool.eq_false_iff.mpr hi, ageEntry_sameRecord _⟩)
    | _ => exact .inl rfl
  · refine .inl ?_
    generalize s.miners m = old at hmove
    cases hmove with
    | select hroom hsel =>
      rw [State.setMiner_toShared, Shared.setSlots_slots, (selects_of_section hsel).after_apply]
      split <;> rfl
    | selectShort hroom hsel hshort =>
      rw [State.setMiner_toShared, Shared.setSlots_slots, (selects_of_section hsel).after_apply]
      split <;> rfl
    | rollback =>
      rw [State.setMiner_toShared, Shared.setSlots_slots, release_apply]
      split <;> rfl
    | restore =>
      rw [State.setMiner_toShared, Shared.setSlots_slots, restoreLoop]
      split <;> rfl
    | _ => rfl
  · refine .inl ?_
    generalize s.validators v = old at hmove
    cases hmove with
    | reject hall => exact poolSection_transaction _ _ i
    | remove hpool =>
      rw [State.setValidator_toShared, Shared.setPool_pool, ← hpool,
        removeTransactionsFromPool_transaction]
    | restoreRefused hpool =>
      rw [State.setValidator_toShared, Shared.setPool_pool, ← hpool, restoreRefused_transaction]
    | _ => rfl

def PipeFresh (s : State cfg k) : Prop := ∀ i, s.sent ≤ i → s.pipe i = none

theorem PipeFresh.pop {sh : Shared cfg} (h : ∀ i, sh.sent ≤ i → sh.pipe i = none) (j : ℕ) :
    ∀ i, (sh.pop j).sent ≤ i → (sh.pop j).pipe i = none := by
  intro i hi
  change Function.update sh.pipe j none i = none
  by_cases hij : i = j
  · rw [hij, Function.update_self]
  · rw [Function.update_of_ne hij]
    exact h i hi

theorem pipeFresh_step {s t : State cfg k} {l : Label cfg k} (hs : PipeFresh s)
    (hstep : step env s l = some t) : PipeFresh t := by
  rcases step_cases hstep with ⟨a, sh, rfl, hmove, rfl⟩ | ⟨m, a, sh, st, rfl, hmove, rfl⟩ |
    ⟨v, a, sh, st, rfl, hmove, rfl⟩
  · cases hmove with
    | lose i => exact PipeFresh.pop hs i
    | _ => exact hs
  · generalize s.miners m = old at hmove
    cases hmove with
    | send =>
      intro i hi
      change s.sent + 1 ≤ i at hi
      change Function.update s.pipe s.sent _ i = none
      rw [Function.update_of_ne (by omega)]
      exact hs i (by omega)
    | _ => exact hs
  · generalize s.validators v = old at hmove
    cases hmove with
    | @receive i heapPtr msg hmsg => exact PipeFresh.pop hs i
    | _ => exact hs

theorem pipeFresh_of_reachable {s : State cfg k} {allow : State cfg k → Label cfg k → Prop}
    (h : Reachable (step env) allow (initState cfg k) s) : PipeFresh s :=
  h.invariant (fun _ _ => rfl) (fun _ _ _ ha _ hstep => pipeFresh_step ha hstep)

end DeiChain
