import DeiChain.Acceptance
import DeiChain.Difficulty
import DeiChain.Mining
import DeiChain.Progress

namespace DeiChain

open ByteLayout ByteMemory Transition

variable {cfg : Config} {k : ℕ} {env : Environment cfg}

-- An honest step before the simulation is told to end.
def Ongoing (s : State cfg k) (l : Label cfg k) : Prop := Honest s l ∧ l ≠ .shared .terminate

def Grows (env : Environment cfg) (s : State cfg k) : Prop :=
  ∃ t, Reachable (step env) Ongoing s t ∧ s.committed.length < t.committed.length

-- What running steps keep, and what rules out an append, rules out growth.
theorem not_grows {I : State cfg k → Prop} {s : State cfg k} (hs : I s)
    (hstep : ∀ a l b, I a → Ongoing a l → step env a l = some b → I b)
    (happend : ∀ a v d tip, I a → a.validators v ≠ .appending d tip) : ¬Grows env s := by
  rintro ⟨t, ht, hgrown⟩
  have hkeep : I t ∧ t.committed = s.committed := by
    refine ht.invariant (I := fun a => I a ∧ a.committed = s.committed) ⟨hs, rfl⟩ ?_
    rintro a l b ⟨ha, hsame⟩ hallow hab
    refine ⟨hstep a l b ha hallow hab, ?_⟩
    rcases step_chain hab with ⟨v, d, tip, -, hst, -⟩ | ⟨-, hcommitted, -⟩
    · exact absurd hst (happend a v d tip ha)
    · exact hcommitted.trans hsame
  rw [hkeep.2] at hgrown
  exact lt_irrefl _ hgrown

structure LedgerFull (s : State cfg k) : Prop where
  count : cfg.blockchainBlocks ≤ numBlocks s.ledger
  appending : ∀ v d tip, s.validators v ≠ .appending d tip

theorem LedgerFull.step {s t : State cfg k} {l : Label cfg k} (hs : LedgerFull s)
    (h : step env s l = some t) : LedgerFull t := by
  have hledger : t.ledger = s.ledger := by
    rcases step_chain h with ⟨v, d, tip, -, hst, -⟩ | ⟨hledger, -⟩
    · exact absurd hst (hs.appending v d tip)
    · exact hledger
  refine ⟨hledger ▸ hs.count, fun v d tip hst => ?_⟩
  rcases step_cases h with ⟨a, sh, rfl, hmove, rfl⟩ | ⟨m, a, sh, st, rfl, hmove, rfl⟩ |
    ⟨w, a, sh, st, rfl, hmove, rfl⟩
  · exact hs.appending v d tip hst
  · exact hs.appending v d tip hst
  · rcases of_update (P := fun st => st = ValidatorState.appending d tip) hst with ⟨-, rfl⟩ | hold
    · generalize s.validators w = old at hmove
      cases hmove with
      | fits hroom => exact absurd hs.count (not_le.mpr hroom)
    · exact hs.appending v d tip hold

-- No block is on its way to the ledger, and no miner is anywhere near making one.
structure Barren (P : MinerState cfg → Prop) (s : State cfg k) : Prop where
  validators : ∀ v, s.validators v = .idle
  pipe : ∀ i, s.pipe i = none
  flag : s.shouldTerminate = false
  miners : ∀ m, P (s.miners m)

-- What is left to do is done by the shared part and the miners.
theorem Barren.step {P : MinerState cfg → Prop} {s t : State cfg k} {l : Label cfg k}
    (hs : Barren P s) (hmined : ∀ b, ¬P (.mined b)) (hallow : Ongoing s l)
    (hminer : ∀ (m : Fin cfg.numMiners) a sh st,
      MinerMove env (m + 1) s.toShared a (s.miners m) sh st → P st)
    (h : step env s l = some t) : Barren P t := by
  rcases step_cases h with ⟨a, sh, rfl, hmove, rfl⟩ | ⟨m, a, sh, st, rfl, hmove, rfl⟩ |
    ⟨w, a, sh, st, rfl, hmove, rfl⟩
  · have hpipe : ∀ i, sh.pipe i = none := by
      intro i
      cases hmove with
      | lose j =>
        change Function.update s.pipe j none i = none
        by_cases hi : i = j
        · rw [hi, Function.update_self]
        · rw [Function.update_of_ne hi]
          exact hs.pipe i
      | _ => exact hs.pipe i
    have hflag : sh.shouldTerminate = false := by
      cases hmove with
      | terminate => exact absurd rfl hallow.2
      | _ => exact hs.flag
    exact ⟨hs.validators, hpipe, hflag, hs.miners⟩
  · have hst := hminer m a sh st hmove
    have hsame : sh.pipe = s.pipe ∧ sh.shouldTerminate = s.shouldTerminate := by
      have hold := hs.miners m
      generalize s.miners m = old at hmove hold
      cases hmove with
      | @send b => exact absurd hold (hmined b)
      | _ => exact ⟨rfl, rfl⟩
    refine ⟨hs.validators, fun i => ?_, hsame.2.trans hs.flag, fun j => ?_⟩
    · exact (congrFun hsame.1 i).trans (hs.pipe i)
    · by_cases hj : j = m
      · rw [hj, State.setMiner_miners, Function.update_self]
        exact hst
      · rw [State.setMiner_miners, Function.update_of_ne hj]
        exact hs.miners j
  · rw [hs.validators w] at hmove
    cases hmove with
    | receive hpipe =>
      rw [hs.pipe] at hpipe
      cases hpipe
    | deliver r => cases hallow.1

theorem Barren.not_appending {P : MinerState cfg → Prop} {s : State cfg k} (hs : Barren P s)
    (v : Fin k) (d : Delivery cfg) (tip : ℕ) : s.validators v ≠ .appending d tip := by
  rw [hs.validators v]
  simp

-- Every thread has ended.
theorem not_grows_exited {s : State cfg k} (hs : Barren (· = .exited) s) : ¬Grows env s := by
  refine not_grows hs (fun a l b ha hallow h => ha.step (by simp) hallow ?_ h)
    (fun a v d tip ha => ha.not_appending v d tip)
  intro m act sh st hmove
  rw [ha.miners m] at hmove
  cases hmove with
  | quit hflag => rfl

-- The pool cannot hold a block's worth of transactions.
def emptyHanded : MinerState cfg → Prop
  | .exited | .waiting | .woken | .snapshot _ _ => True
  | _ => False

theorem not_grows_small {s : State cfg k} (hs : Barren emptyHanded s)
    (hsmall : cfg.txPoolSize < cfg.transactionsPerBlock) : ¬Grows env s := by
  refine not_grows hs (fun a l b ha hallow h => ha.step (fun b hb => hb) hallow ?_ h)
    (fun a v d tip ha => ha.not_appending v d tip)
  intro m act sh st hmove
  have hold := ha.miners m
  have hroom : available a.pool.slots ≤ cfg.txPoolSize :=
    (Finset.card_le_univ _).trans_eq (Fintype.card_fin _)
  generalize a.miners m = old at hmove hold
  cases hmove with
  | select hle => omega
  | selectShort hle => omega
  | wait | waitFails | snapshot | selectNone | selectFails | quit => trivial
  | _ => exact hold.elim

-- Every thread that has not ended waits, nobody is going to wake one, and no insertion succeeds.
structure Unwoken (sh : Shared cfg) : Prop where
  token : sh.pool.workNotificationSem = 0
  post : sh.pendingPosts = 0
  occupied : ∀ i, (sh.pool.slots i).empty = false

theorem Unwoken.shared {sh sh' : Shared cfg} {a : SharedAction} (hs : Unwoken sh)
    (hrunning : sh.shouldTerminate ≠ true) (h : SharedMove sh a sh') : Unwoken sh' := by
  cases h with
  | add tx hpos hpool =>
    have hempty := hpos.empty
    rw [hs.occupied] at hempty
    cases hempty
  | post hpending => exact absurd hs.post hpending.ne'
  | mainPost hflag => exact absurd hflag hrunning
  | age => exact ⟨hs.token, hs.post, fun i => (ageEntry_empty _).trans (hs.occupied i)⟩
  | _ => exact ⟨hs.token, hs.post, hs.occupied⟩

structure Stalled (s : State cfg k) : Prop where
  barren : Barren (fun st => st = .exited ∨ st = .waiting) s
  unwoken : Unwoken s.toShared

theorem Stalled.step {s t : State cfg k} {l : Label cfg k} (hs : Stalled s)
    (hallow : Ongoing s l) (h : step env s l = some t) : Stalled t := by
  have hwait : ∀ (m : Fin cfg.numMiners) a sh st,
      MinerMove env (m + 1) s.toShared a (s.miners m) sh st → st = .exited ∧ sh = s.toShared := by
    intro m a sh st hmove
    rcases hs.barren.miners m with hst | hst
    · rw [hst] at hmove
      cases hmove with
      | quit hflag => exact ⟨rfl, rfl⟩
    · rw [hst] at hmove
      cases hmove with
      | wait hpos => exact absurd hs.unwoken.token hpos.ne'
      | waitFails => exact ⟨rfl, rfl⟩
      | quit hflag => exact ⟨rfl, rfl⟩
  refine ⟨hs.barren.step (by simp) hallow (fun m a sh st hm => .inl (hwait m a sh st hm).1) h,
    ?_⟩
  rcases step_cases h with ⟨a, sh, rfl, hmove, rfl⟩ | ⟨m, a, sh, st, rfl, hmove, rfl⟩ |
    ⟨w, a, sh, st, rfl, hmove, rfl⟩
  · refine Unwoken.shared hs.unwoken (fun hflag => ?_) hmove
    rw [hs.barren.flag] at hflag
    cases hflag
  · rw [(hwait m a sh st hmove).2]
    exact hs.unwoken
  · rw [hs.barren.validators w] at hmove
    cases hmove with
    | receive hpipe =>
      rw [hs.barren.pipe] at hpipe
      cases hpipe
    | deliver r => exact hs.unwoken

theorem not_grows_stalled {s : State cfg k} (hs : Stalled s) : ¬Grows env s :=
  not_grows hs (fun _ _ _ ha hallow h => ha.step hallow h)
    (fun _ v d tip ha => ha.barren.not_appending v d tip)

theorem addSection_of_room {n : ℕ} {tx : Transaction} {pool : TransactionPool n}
    (hroom : ∃ i, (pool.slots i).empty = true)
    (hfresh : ∀ i, (pool.slots i).empty = false → (pool.slots i).transaction.id ≠ tx.id) :
    ∃ position, (pool.slots position).empty = true ∧
      addSection tx pool = (0, insertAt position tx pool) := by
  unfold addSection
  cases hfind : Fin.find? (fun i => (pool.slots i).empty) with
  | none =>
    obtain ⟨i, hi⟩ := hroom
    exact absurd hi (Bool.eq_false_iff.mp (Fin.find?_eq_none_iff.mp hfind i))
  | some position =>
    obtain ⟨hempty, -⟩ := Fin.find?_eq_some_iff.mp hfind
    have hsingle : ¬(Fin.find? (fun i => i != position && !(pool.slots i).empty &&
        (pool.slots i).transaction.id == tx.id)).isSome := by
      rw [Fin.isSome_find?_iff]
      rintro ⟨i, hi⟩
      simp only [Bool.and_eq_true, bne_iff_ne, Bool.not_eq_true', beq_iff_eq] at hi
      exact hfresh i hi.1.2 hi.2
    exact ⟨position, hempty, if_neg hsingle⟩

-- New transactions, as the generators still hand in.
def Unused (used : List (List UInt8)) (txs : List Transaction) : Prop :=
  (txs.map Transaction.id).Nodup ∧ ∀ tx ∈ txs, tx.id ≠ [] ∧ tx.id ∉ used

-- What the insertions leave as it is.
structure SamePipeline (sh sh' : Shared cfg) : Prop where
  ledger : sh'.ledger = sh.ledger
  pipe : sh'.pipe = sh.pipe
  committed : sh'.committed = sh.committed
  flag : sh'.shouldTerminate = sh.shouldTerminate

theorem setShared_setShared (s : State cfg k) (sh sh' : Shared cfg) :
    (s.setShared sh).setShared sh' = s.setShared sh' := rfl

theorem samePipeline_add (sh : Shared cfg) (tx : Transaction) : SamePipeline sh (sh.add tx) :=
  ⟨rfl, rfl, rfl, rfl⟩

theorem available_le (pool : TransactionPool cfg.txPoolSize) :
    available pool.slots ≤ cfg.txPoolSize :=
  (Finset.card_le_univ _).trans_eq (Fintype.card_fin _)

theorem exists_empty {pool : TransactionPool cfg.txPoolSize}
    (h : available pool.slots ≠ cfg.txPoolSize) : ∃ i, (pool.slots i).empty = true := by
  by_contra hno
  have hall : availableSlots pool.slots = Finset.univ := by
    refine Finset.eq_univ_iff_forall.mpr (fun i => mem_availableSlots.mpr ?_)
    exact Bool.eq_false_iff.mpr (fun hi => hno ⟨i, hi⟩)
  exact h ((congrArg Finset.card hall).trans (Finset.card_univ.trans (Fintype.card_fin _)))

-- The generators alone fill the pool, with a post to come for every insertion.
theorem exists_filled (env : Environment cfg) {s : State cfg k} {txs : List Transaction}
    (hs : HonestInvariant s) (hunused : Unused s.used txs)
    (henough : cfg.txPoolSize - available s.pool.slots ≤ txs.length) :
    ∃ sh, Reachable (step env) Ongoing s (s.setShared sh) ∧ SamePipeline s.toShared sh ∧
      HonestInvariant (s.setShared sh) ∧ available sh.pool.slots = cfg.txPoolSize ∧
      sh.pool.workNotificationSem = s.pool.workNotificationSem ∧
      sh.pendingPosts = s.pendingPosts + (cfg.txPoolSize - available s.pool.slots) := by
  induction txs generalizing s with
  | nil =>
    have hfull : available s.pool.slots = cfg.txPoolSize := by
      have hroom := available_le s.pool
      rw [List.length_nil] at henough
      omega
    exact ⟨s.toShared, .refl s, ⟨rfl, rfl, rfl, rfl⟩, hs, hfull, rfl, by omega⟩
  | cons tx txs ih =>
    obtain ⟨hnodup, hnew⟩ := hunused
    obtain ⟨hne, hfresh⟩ := hnew tx List.mem_cons_self
    by_cases hfull : available s.pool.slots = cfg.txPoolSize
    · exact ⟨s.toShared, .refl s, ⟨rfl, rfl, rfl, rfl⟩, hs, hfull, rfl, by omega⟩
    · have hother : ∀ i, (s.pool.slots i).empty = false → (s.pool.slots i).transaction.id ≠ tx.id :=
        fun i hi heq => hfresh (heq ▸ hs.pool.known i (hs.pool.available_ne i hi))
      obtain ⟨position, hempty, hadd⟩ := addSection_of_room (exists_empty hfull) hother
      have hallow : Honest s (.shared (.add tx)) := by
        simpa [Honest, honest, hne] using hfresh
      have hstep : step env s (.shared (.add tx)) = some (s.setShared (s.toShared.add tx)) := rfl
      have hpool : (s.toShared.add tx).pool = insertAt position tx s.pool := by
        simp [Shared.add, hadd]
      have hposts : (s.toShared.add tx).pendingPosts = s.pendingPosts + 1 := by
        simp [Shared.add, hadd]
      have hone : available (s.toShared.add tx).pool.slots = available s.pool.slots + 1 := by
        rw [hpool, insertAt_slots]
        exact available_insert hempty tx
      have hunused' : Unused (tx.id :: s.used) txs := by
        refine ⟨(List.nodup_cons.mp hnodup).2, fun u hu => ?_⟩
        obtain ⟨hune, hufresh⟩ := hnew u (List.mem_cons_of_mem tx hu)
        refine ⟨hune, List.not_mem_cons_of_ne_of_not_mem (fun heq => ?_) hufresh⟩
        exact (List.nodup_cons.mp hnodup).1 (heq ▸ List.mem_map_of_mem hu)
      have hroom := available_le s.pool
      rw [List.length_cons] at henough
      obtain ⟨sh, hreach, hsame, hinv, hall, hsem, hpending⟩ :=
        ih (s := s.setShared (s.toShared.add tx)) (hs.step hallow hstep) hunused' (by
          rw [State.setShared_toShared, hone]
          omega)
      rw [setShared_setShared] at hreach hinv
      rw [State.setShared_toShared] at hsame hsem hpending
      have hkept := samePipeline_add s.toShared tx
      refine ⟨sh, ((Reachable.refl s).tail ⟨hallow, by simp⟩ hstep).trans hreach,
        ⟨hsame.ledger.trans hkept.ledger, hsame.pipe.trans hkept.pipe,
          hsame.committed.trans hkept.committed, hsame.flag.trans hkept.flag⟩, hinv, hall, ?_, ?_⟩
      · rw [hsem, hpool, insertAt_sem]
      · rw [hpending, hposts, hone]
        omega

theorem Ongoing.miner {s₀ s : State cfg k} (h : Reachable (step env) Ongoing s₀ s)
    {m : Fin cfg.numMiners} {a : MinerAction} {old st : MinerState cfg} {sh : Shared cfg}
    (hst : s.miners m = old) (hstep : minerStep env (m + 1) s.toShared old a = some (sh, st)) :
    Reachable (step env) Ongoing s₀ (s.setMiner sh m st) ∧ (s.setMiner sh m st).miners m = st :=
  ⟨h.tail (l := .miner m a) ⟨rfl, by simp⟩ (by rw [step, hst, hstep, Option.map_some]),
    Function.update_self ..⟩

theorem Ongoing.validator {s₀ s : State cfg k} (h : Reachable (step env) Ongoing s₀ s) {v : Fin k}
    {a : ValidatorAction cfg} {old st : ValidatorState cfg} {sh : Shared cfg}
    (hst : s.validators v = old) (hown : ∀ r, a ≠ .deliver r)
    (hstep : validatorStep env s.toShared old a = some (sh, st)) :
    Reachable (step env) Ongoing s₀ (s.setValidator sh v st) ∧
      (s.setValidator sh v st).validators v = st := by
  have hhonest : Honest s (.validator v a) := by
    cases a <;> first | rfl | exact absurd rfl (hown _)
  exact ⟨h.tail (l := .validator v a) ⟨hhonest, by simp⟩
    (by rw [step, hst, hstep, Option.map_some]), Function.update_self ..⟩

-- A block that every test of the validators will pass.
structure Committable (env : Environment cfg) (ledger : Memory) (slots : Slots cfg.txPoolSize)
    (b : TransactionBlock) : Prop where
  nonce : verifyNonce env.sha b = true
  previous : b.previousBlockHash = previousHash env.sha env.att ledger
  txbId : terminate (n := 63) b.txbId = b.txbId
  found : ∀ tx ∈ b.transactions, DeiChain.found slots tx = true

theorem Committable.received {ledger : Memory} {slots : Slots cfg.txPoolSize} {msg : Message cfg}
    (h : Committable env ledger slots msg.mined.block) (heapPtr : UInt64) :
    (msg.received heapPtr).block = msg.mined.block := by
  have hadmit := msg.admit_received heapPtr
  have hprev : terminate (n := 64) msg.mined.block.previousBlockHash =
      msg.mined.block.previousBlockHash := by
    rw [h.previous]
    exact terminate_previousHash _ _ _
  unfold admitFrame at hadmit
  split at hadmit
  · rw [Option.some_inj] at hadmit
    rw [← hadmit]
    simp only [h.txbId, hprev]
  · cases hadmit

theorem sharedStep_post {sh : Shared cfg} (h : 0 < sh.pendingPosts) :
    sharedStep sh .post = some { sh.setSem (sh.pool.workNotificationSem + 1) with
      pendingPosts := sh.pendingPosts - 1 } := if_pos h

theorem minerStep_wait {sh : Shared cfg} {minerId : ℕ} (h : 0 < sh.pool.workNotificationSem) :
    minerStep env minerId sh .waiting .wait =
      some (sh.setSem (sh.pool.workNotificationSem - 1), .woken) := if_pos h

theorem minerStep_select {sh : Shared cfg} {minerId : ℕ} {previousHash : Chars hashSize}
    {blockId : ℤ} {slots : Slots cfg.txPoolSize} {reserved : List (Reservation cfg.txPoolSize)}
    (h : selectSection cfg.transactionsPerBlock sh.pool.slots = (slots, some reserved))
    (hlen : reserved.length = cfg.transactionsPerBlock) :
    minerStep env minerId sh (.snapshot previousHash blockId) .select =
      some (sh.setSlots slots, .selected ⟨reserved, hlen⟩ previousHash blockId) := by
  simp only [minerStep, h, dif_pos hlen]

theorem minerStep_mine {sh : Shared cfg} {minerId : ℕ} {b : MinedBlock cfg} {clock : Int64}
    (h : (b.attempts env.sha clock).2.error = false) :
    minerStep env minerId sh (.created b) (.mine clock) =
      some (sh, .mined (b.attempts env.sha clock).1) := by
  simp only [minerStep, MinedBlock.mine_eq_attempts h]

-- A block made of what a selection took is committable as long as nothing else happens.
theorem committable_attempts {sh : Shared cfg} {minerId : ℕ} {clock retryClock : Int64}
    {slots : Slots cfg.txPoolSize} {used : List (List UInt8)}
    {reserved : List.Vector (Reservation cfg.txPoolSize) cfg.transactionsPerBlock}
    (hpool : PoolInvariant sh.pool.slots used)
    (hsel : Selects (List.finRange _) sh.pool.slots [] reserved.toList slots) {b : MinedBlock cfg}
    (hb : MinedBlock.create reserved (previousHash env.sha env.att sh.ledger) minerId
      (numBlocks sh.ledger) clock = b) (h : (b.attempts env.sha retryClock).2.error = false) :
    Committable env sh.ledger slots (b.attempts env.sha retryClock).1.block := by
  obtain ⟨htxb, hprev⟩ : (b.attempts env.sha retryClock).1.block.txbId = b.block.txbId ∧
      (b.attempts env.sha retryClock).1.block.previousBlockHash = b.block.previousBlockHash :=
    MinedBlock.attempts_strings
  refine ⟨(MinedBlock.attempts_found h).1, ?_, ?_, fun tx htx => ?_⟩
  · rw [hprev, ← hb]
    exact terminate_previousHash _ _ _
  · rw [htxb, ← hb]
    exact terminate_terminate _
  · rw [MinedBlock.transactions_eq, MinedBlock.attempts_reserved, ← hb] at htx
    obtain ⟨r, hr, rfl⟩ := List.mem_map.mp htx
    obtain ⟨-, havailable, htaken⟩ := hsel.taken r hr
    refine found_iff.mpr ⟨htaken ▸ hpool.available_ne r.1 havailable, r.1, ?_⟩
    have htaken' : r.1 ∈ reserved.toList.map Prod.fst := List.mem_map_of_mem hr
    rw [hsel.after_apply, if_pos htaken', htaken]
    rfl

-- A miner that wakes while the pool offers enough sends a block made for the ledger it saw.
theorem exists_sent {s₀ s : State cfg k} (h₀ : Reachable (step env) Ongoing s₀ s)
    {m : Fin cfg.numMiners} {used : List (List UInt8)} (hpool : PoolInvariant s.pool.slots used)
    (hwoken : s.miners m = .woken) (hroom : cfg.transactionsPerBlock ≤ available s.pool.slots)
    (hsearch : ∀ b : MinedBlock cfg, ∃ clock, (b.attempts env.sha clock).2.error = false) :
    ∃ t msg, Reachable (step env) Ongoing s₀ t ∧ t.pipe s.sent = some msg ∧
      Committable env t.ledger t.pool.slots msg.mined.block ∧ t.ledger = s.ledger ∧
      t.committed = s.committed ∧ t.validators = s.validators := by
  obtain ⟨slots, reserved, hsel⟩ : ∃ slots reserved, selectLoop cfg.transactionsPerBlock
      (List.finRange _) s.pool.slots [] = (slots, reserved) := ⟨_, _, Prod.mk.eta.symm⟩
  have hlen := select_full hpool hroom hsel
  have hselect : selectSection cfg.transactionsPerBlock s.pool.slots = (slots, some reserved) := by
    rw [selectSection, if_neg (not_lt.mpr hroom), hsel]
  obtain ⟨b, hb⟩ : ∃ b, MinedBlock.create ⟨reserved, hlen⟩ (previousHash env.sha env.att s.ledger)
      (m + 1 : ℕ) (numBlocks s.ledger) 0 = b := ⟨_, rfl⟩
  obtain ⟨clock, hfound⟩ := hsearch b
  obtain ⟨h₁, hst₁⟩ := Ongoing.miner h₀ hwoken (a := .snapshot) rfl
  obtain ⟨h₂, hst₂⟩ := Ongoing.miner h₁ hst₁ (minerStep_select hselect hlen)
  obtain ⟨h₃, hst₃⟩ := Ongoing.miner h₂ hst₂ (a := .create 0) rfl
  rw [hb] at h₃ hst₃
  obtain ⟨h₄, hst₄⟩ := Ongoing.miner h₃ hst₃ (minerStep_mine hfound)
  obtain ⟨h₅, -⟩ := Ongoing.miner h₄ hst₄ (a := .send) rfl
  exact ⟨_, _, h₅, Function.update_self ..,
    committable_attempts hpool (selects_of_section hsel) hb hfound, rfl, rfl, rfl⟩

theorem validatorStep_checkLink {sh : Shared cfg} {d : Delivery cfg}
    (hnonce : verifyNonce env.sha d.received.block = true)
    (hprevious : d.received.block.previousBlockHash = previousHash env.sha env.att sh.ledger) :
    validatorStep env sh (.received d) .checkLink = some (sh, .linked d sh.committed.length) := by
  simp only [validatorStep, hnonce, checkLink_of_previousHash hprevious, Bool.and_self, if_true]

theorem validatorStep_checkPool {sh : Shared cfg} {d : Delivery cfg} {tip : ℕ}
    (h : d.received.block.transactions.all (found sh.pool.slots) = true) :
    validatorStep env sh (.linked d tip) .checkPool = some (sh, .accepted d tip) := by
  have hpool : poolSection d.received.block.transactions sh.pool.slots = (true, sh.pool.slots) := by
    simp [poolSection, lookupLoop_eq, h]
  simp only [validatorStep, hpool, if_true, Shared.setSlots_self]

theorem validatorStep_testCapacity {sh : Shared cfg} {d : Delivery cfg} {tip : ℕ}
    (h : numBlocks sh.ledger < cfg.blockchainBlocks) :
    validatorStep env sh (.accepted d tip) .testCapacity = some (sh, .appending d tip) := by
  simp only [validatorStep, if_neg (not_le.mpr h)]

-- An idle validator that finds a committable block in the pipe appends it.
theorem exists_committed {s₀ s : State cfg k} (h₀ : Reachable (step env) Ongoing s₀ s) {v : Fin k}
    {i : ℕ} {msg : Message cfg} (hidle : s.validators v = .idle) (hpipe : s.pipe i = some msg)
    (hb : Committable env s.ledger s.pool.slots msg.mined.block)
    (hroom : numBlocks s.ledger < cfg.blockchainBlocks) :
    ∃ t, Reachable (step env) Ongoing s₀ t ∧ s.committed.length < t.committed.length := by
  have hblock : (msg.delivery 0).received.block = msg.mined.block := hb.received 0
  have hreceive : validatorStep env s.toShared .idle (.receive i 0) =
      some (s.toShared.pop i, .received (msg.delivery 0)) := by
    simp only [validatorStep, hpipe]
  obtain ⟨h₁, hst₁⟩ := Ongoing.validator h₀ hidle (by simp) hreceive
  obtain ⟨h₂, hst₂⟩ := Ongoing.validator h₁ hst₁ (by simp)
    (validatorStep_checkLink (hblock ▸ hb.nonce) (by rw [hblock]; exact hb.previous))
  obtain ⟨h₃, hst₃⟩ := Ongoing.validator h₂ hst₂ (by simp)
    (validatorStep_checkPool (by rw [hblock]; exact List.all_eq_true.mpr hb.found))
  obtain ⟨h₄, hst₄⟩ := Ongoing.validator h₃ hst₃ (by simp) (validatorStep_testCapacity hroom)
  obtain ⟨h₅, -⟩ := Ongoing.validator h₄ hst₄ (a := .append) (by simp) rfl
  refine ⟨_, h₅, ?_⟩
  change s.committed.length < (s.committed ++ [_]).length
  simp

theorem Ongoing.shared {s₀ s : State cfg k} (h : Reachable (step env) Ongoing s₀ s)
    {a : SharedAction} {sh : Shared cfg} (hallow : Ongoing s (.shared a))
    (hstep : sharedStep s.toShared a = some sh) :
    Reachable (step env) Ongoing s₀ (s.setShared sh) :=
  h.tail hallow (by rw [step, hstep, Option.map_some])

theorem AtRest.barren {s : State cfg k} (hrest : AtRest env s) (hflag : s.shouldTerminate = false)
    (v : Fin k) : Barren (fun st => st = .exited ∨ st = .waiting) s :=
  ⟨fun w => (hrest.validator w).1, (hrest.validator v).2, hflag,
    fun m => (hrest.miner m).imp id And.left⟩

theorem Barren.mono {P Q : MinerState cfg → Prop} {s : State cfg k} (h : Barren P s)
    (hle : ∀ m, P (s.miners m) → Q (s.miners m)) : Barren Q s :=
  ⟨h.validators, h.pipe, h.flag, fun m => hle m (h.miners m)⟩

-- At rest the ledger can still grow if and only if a thread waits, the ledger and the pool are
-- large enough, and an insertion can succeed; otherwise it never grows again.
theorem grows_from_rest_iff {s : State cfg k} {txs : List Transaction}
    (hs : Reachable (step env) Honest (initState cfg k) s) (hrest : AtRest env s)
    (hflag : s.shouldTerminate = false) (hk : 0 < k)
    (hsearch : ∀ b : MinedBlock cfg, ∃ clock, (b.attempts env.sha clock).2.error = false)
    (hunused : Unused s.used txs) (henough : cfg.txPoolSize ≤ txs.length) :
    Grows env s ↔ (∃ m, s.miners m = .waiting) ∧ numBlocks s.ledger < cfg.blockchainBlocks ∧
      cfg.transactionsPerBlock ≤ cfg.txPoolSize ∧ ∃ i, (s.pool.slots i).empty = true := by
  have hbarren := hrest.barren hflag ⟨0, hk⟩
  have hpost := hrest.pendingPosts
  constructor
  · intro hgrows
    have hwaits : ∃ m, s.miners m = .waiting := by
      by_contra hno
      refine not_grows_exited (hbarren.mono (fun m hm => ?_)) hgrows
      exact hm.resolve_right (fun hst => hno ⟨m, hst⟩)
    refine ⟨hwaits, ?_, ?_, ?_⟩
    · by_contra hroom
      exact not_grows (I := LedgerFull) ⟨not_lt.mp hroom, hbarren.not_appending⟩
        (fun _ _ _ ha _ h => ha.step h) (fun _ v d tip ha => ha.appending v d tip) hgrows
    · by_contra hsmall
      refine not_grows_small (hbarren.mono (fun m hm => ?_)) (not_le.mp hsmall) hgrows
      rcases hm with hst | hst <;> rw [hst] <;> trivial
    · by_contra hfull
      obtain ⟨m, hm⟩ := hwaits
      have htoken : s.pool.workNotificationSem = 0 := by
        rcases hrest.miner m with hst | ⟨-, hsem, -⟩
        · rw [hm] at hst
          cases hst
        · exact hsem
      refine not_grows_stalled ⟨hbarren, htoken, hpost, fun i => ?_⟩ hgrows
      exact Bool.eq_false_iff.mpr (fun hi => hfull ⟨i, hi⟩)
  · rintro ⟨⟨m, hwait⟩, hledger, hsize, i, hempty⟩
    have hinv := honestInvariant_of_reachable hs
    obtain ⟨sh, h₁, hsame, hfilled, hall, -, hposts⟩ :=
      exists_filled env hinv hunused (by omega)
    have hless : available s.pool.slots < cfg.txPoolSize := by
      refine (Finset.card_lt_univ_of_notMem (x := i) ?_).trans_eq (Fintype.card_fin _)
      rw [mem_availableSlots, hempty]
      simp
    have hpending : 0 < sh.pendingPosts := by omega
    have h₂ := Ongoing.shared h₁ (a := .post) ⟨rfl, by simp⟩
      (sharedStep_post hpending)
    obtain ⟨h₃, hwoken⟩ := Ongoing.miner h₂ (m := m) hwait (minerStep_wait (Nat.succ_pos _))
    obtain ⟨t, msg, h₄, hpipe, hcommittable, hledger', hcommitted, hvalidators⟩ :=
      exists_sent h₃ hfilled.pool hwoken (hsize.trans_eq hall.symm) hsearch
    have hledger₄ : t.ledger = s.ledger := hledger'.trans hsame.ledger
    obtain ⟨u, h₅, hgrown⟩ := exists_committed h₄ (v := ⟨0, hk⟩)
      ((congrFun hvalidators _).trans (hrest.validator _).1) hpipe hcommittable (hledger₄ ▸ hledger)
    refine ⟨u, h₅, ?_⟩
    have hcommitted₄ : t.committed = s.committed := hcommitted.trans hsame.committed
    rwa [hcommitted₄] at hgrown

theorem waiting_of_work {st : MinerState cfg} (h : st.work = 1) : st = .waiting := by
  cases st <;> first | rfl | simp [MinerState.work] at h

theorem idle_of_work {st : ValidatorState cfg} (h : st.work = 0) : st = .idle := by
  cases st <;> first | rfl | simp [ValidatorState.work] at h

namespace Sample

theorem search_succeeds (b : MinedBlock (config 1)) :
    (b.attempts (environment 1).sha 0).2.error = false := by
  have hzeros : ∀ reward,
      checkDifficulty (hexDigest (List.Vector.replicate 32 0)) reward = true := by
    intro reward
    have hmem := zerosRequired_mem reward
    rw [checkDifficulty]
    simp only [List.mem_cons, List.not_mem_nil, or_false] at hmem
    rcases hmem with h | h | h <;> rw [h] <;> decide
  have hfirst : (b.search (environment 1).sha).2.error = false := by
    have hsearched := proofOfWork_searched (environment 1).sha b.block
    change (proofOfWork (environment 1).sha b.block).2.error = false
    generalize proofOfWork (environment 1).sha b.block = r at hsearched
    cases hsearched with
    | found => rfl
    | exhausted hnone => exact absurd (hzeros _) (hnone 0 le_rfl (by decide))
  rw [MinedBlock.attempts, if_neg (by simp [hfirst])]
  exact hfirst

end Sample

-- At the start a block can be made; once both tokens went into blocks that failed for lack of
-- memory, with the pool full, none can.
theorem grows_from_rest_stalled :
    Grows (Sample.environment 1) (initState (Sample.config 1) 1) ∧
      ∃ s, Reachable (step (Sample.environment 1)) Honest (initState (Sample.config 1) 1) s ∧
        s.committed = [] ∧ available s.pool.slots = 2 ∧ ¬Grows (Sample.environment 1) s := by
  let restored (m : Fin 2) : List (Label (Sample.config 1) 1) :=
    Sample.reserve m ++ [.miner m .createFails, .miner m .restore]
  have hsearch (b : MinedBlock (Sample.config 1)) :
      ∃ clock, (b.attempts (Sample.environment 1).sha clock).2.error = false :=
    ⟨0, Sample.search_succeeds b⟩
  have hunused : Unused [[2], [1]] [Sample.transaction 3, Sample.transaction 4] := by
    refine ⟨by decide, by decide⟩
  refine ⟨?_, ?_⟩
  · refine (grows_from_rest_iff (.refl _) (.of_waiting rfl rfl rfl (fun _ => rfl) (fun _ => rfl)
      (fun _ => rfl)) rfl Nat.one_pos hsearch
      (⟨hunused.1, fun tx htx => ⟨(hunused.2 tx htx).1, by simp [initState]⟩⟩) le_rfl).mpr ?_
    exact ⟨⟨0, rfl⟩, by decide, by decide, 0, rfl⟩
  · have hrun : (runAllowed (step (Sample.environment 1)) Honest (initState (Sample.config 1) 1)
        (Sample.add 1 ++ Sample.add 2 ++ restored 0 ++ restored 1)).any (fun s => decide
          ((∀ m, (s.miners m).work = 1) ∧ (∀ v, (s.validators v).work = 0) ∧ s.sent = 0 ∧
            s.pendingPosts = 0 ∧ s.pool.workNotificationSem = 0 ∧ s.shouldTerminate = false ∧
            s.used = [[2], [1]] ∧ s.committed.length = 0 ∧ available s.pool.slots = 2 ∧
            ∀ i, (s.pool.slots i).empty = false)) = true := by
      decide +kernel
    obtain ⟨s, hs, hrun⟩ := (Option.any_eq_true ..).mp hrun
    obtain ⟨hminers, hvalidators, hsent, hposts, hsem, hflag, hused, hnone, htwo, hfull⟩ :=
      of_decide_eq_true hrun
    have hreach := reachable_of_runAllowed hs
    have hfresh : PipeFresh s := pipeFresh_of_reachable hreach
    refine ⟨s, hreach, List.length_eq_zero_iff.mp hnone, htwo, fun hgrows => ?_⟩
    have hrest : AtRest (Sample.environment 1) s := .of_waiting hposts hsem hflag
      (fun m => waiting_of_work (hminers m)) (fun v => idle_of_work (hvalidators v))
      (fun i => hfresh i (by omega))
    obtain ⟨-, -, -, i, hi⟩ := (grows_from_rest_iff hreach hrest hflag Nat.one_pos hsearch
      (hused ▸ hunused) le_rfl).mp hgrows
    rw [hfull i] at hi
    cases hi

end DeiChain
