import DeiChain.Library.Transition
import DeiChain.TxGen
import DeiChain.Validator

namespace DeiChain

open ByteLayout ByteMemory

variable {cfg : Config} {k : ℕ}

-- A block with the slots its transactions were taken from. The program forgets the slots as
-- soon as select_transactions returns; they are kept here to speak about reservations.
structure MinedBlock (cfg : Config) where
  reserved : List.Vector (Reservation cfg.txPoolSize) cfg.transactionsPerBlock
  block : TransactionBlock
  transactions_eq : block.transactions = reserved.toList.map Prod.snd

namespace MinedBlock

def create (reserved : List.Vector (Reservation cfg.txPoolSize) cfg.transactionsPerBlock)
    (previousHash : Chars hashSize) (minerId blockId : ℤ) (clock : Int64) : MinedBlock cfg :=
  ⟨reserved, createBlock (reserved.map Prod.snd) previousHash minerId blockId clock,
    List.Vector.toList_map _ _⟩

def setTimestamp (b : MinedBlock cfg) (clock : Int64) : MinedBlock cfg :=
  ⟨b.reserved, { b.block with timestamp := clock }, b.transactions_eq⟩

def search (sha : Sha) (b : MinedBlock cfg) : MinedBlock cfg × PoWResult :=
  (⟨b.reserved, (proofOfWork sha b.block).1,
    (proofOfWork_transactions sha b.block).trans b.transactions_eq⟩, (proofOfWork sha b.block).2)

def mine (sha : Sha) (b : MinedBlock cfg) (retryClock : Int64) : Option (MinedBlock cfg) :=
  let (b, result) := b.search sha
  if result.error then
    let (b, result) := (b.setTimestamp retryClock).search sha
    if result.error then none else some b
  else some b

theorem search_reserved (sha : Sha) (b : MinedBlock cfg) :
    (b.search sha).1.reserved = b.reserved := rfl

theorem mine_reserved {sha : Sha} {b b' : MinedBlock cfg} {retryClock : Int64}
    (h : b.mine sha retryClock = some b') : b'.reserved = b.reserved := by
  simp only [mine] at h
  split at h
  · split at h
    · cases h
    · cases h
      rw [search_reserved]
      exact search_reserved sha b
  · cases h
    exact search_reserved sha b

end MinedBlock

structure Message (cfg : Config) where
  minerId : Int32
  mined : MinedBlock cfg

-- A block in a validator's hands; reserved is empty when no miner of the system mined it.
structure Delivery (cfg : Config) where
  received : ReceivedBlock cfg
  reserved : List (Reservation cfg.txPoolSize)
  reserved_mem : ∀ r ∈ reserved, r.2 ∈ received.block.transactions

namespace Message

variable (msg : Message cfg) (heapPtr : UInt64)

theorem admitted : (admitFrame cfg msg.minerId msg.mined.block heapPtr []).isSome = true :=
  admitFrame_isSome (by rw [msg.mined.transactions_eq, List.length_map, List.Vector.toList_length])

def received : ReceivedBlock cfg :=
  (admitFrame cfg msg.minerId msg.mined.block heapPtr []).get (msg.admitted heapPtr)

theorem admit_received :
    admitFrame cfg msg.minerId msg.mined.block heapPtr [] = some (msg.received heapPtr) :=
  (Option.some_get _).symm

theorem received_transactions :
    (msg.received heapPtr).block.transactions = msg.mined.reserved.toList.map Prod.snd :=
  (admitFrame_block (msg.admit_received heapPtr)).1.trans msg.mined.transactions_eq

def delivery : Delivery cfg where
  received := msg.received heapPtr
  reserved := msg.mined.reserved.toList
  reserved_mem r hr := by
    rw [msg.received_transactions heapPtr]
    exact List.mem_map_of_mem hr

end Message

inductive MinerState (cfg : Config) where
  | waiting
  | woken
  | snapshot (previousHash : Chars hashSize) (blockId : ℤ)
  | rollback (reserved : List (Reservation cfg.txPoolSize))
  | selected (reserved : List.Vector (Reservation cfg.txPoolSize) cfg.transactionsPerBlock)
      (previousHash : Chars hashSize) (blockId : ℤ)
  | created (b : MinedBlock cfg)
  | mined (b : MinedBlock cfg)
  | restoring (reserved : List.Vector (Reservation cfg.txPoolSize) cfg.transactionsPerBlock)
  | exited

-- The tip counts the blocks appended when the previous hash was checked.
inductive ValidatorState (cfg : Config) where
  | idle
  | received (d : Delivery cfg)
  | linked (d : Delivery cfg) (tip : ℕ)
  | accepted (d : Delivery cfg) (tip : ℕ)
  | appending (d : Delivery cfg) (tip : ℕ)
  | removing (d : Delivery cfg)
  | full (d : Delivery cfg)

-- The shared segments and the pipe. The last two fields are history: the ids handed to
-- add_transaction_to_pool and the blocks appended so far.
structure Shared (cfg : Config) where
  pool : TransactionPool cfg.txPoolSize
  ledger : Memory
  pipe : ℕ → Option (Message cfg)
  sent : ℕ
  pendingPosts : ℕ
  mainPosts : ℕ
  shouldTerminate : Bool
  used : List (List UInt8)
  committed : List TransactionBlock

structure State (cfg : Config) (k : ℕ) extends Shared cfg where
  miners : Fin cfg.numMiners → MinerState cfg
  validators : Fin k → ValidatorState cfg

namespace State

def setShared (s : State cfg k) (sh : Shared cfg) : State cfg k := { s with toShared := sh }

def setMiner (s : State cfg k) (sh : Shared cfg) (m : Fin cfg.numMiners) (st : MinerState cfg) :
    State cfg k :=
  { s with toShared := sh, miners := Function.update s.miners m st }

def setValidator (s : State cfg k) (sh : Shared cfg) (v : Fin k) (st : ValidatorState cfg) :
    State cfg k :=
  { s with toShared := sh, validators := Function.update s.validators v st }

variable (s : State cfg k) (sh : Shared cfg) (m : Fin cfg.numMiners) (v : Fin k)

@[simp] theorem setShared_toShared : (s.setShared sh).toShared = sh := rfl

@[simp] theorem setShared_miners : (s.setShared sh).miners = s.miners := rfl

@[simp] theorem setShared_validators : (s.setShared sh).validators = s.validators := rfl

@[simp] theorem setMiner_toShared (st : MinerState cfg) : (s.setMiner sh m st).toShared = sh := rfl

@[simp] theorem setMiner_miners (st : MinerState cfg) :
    (s.setMiner sh m st).miners = Function.update s.miners m st := rfl

@[simp] theorem setMiner_validators (st : MinerState cfg) :
    (s.setMiner sh m st).validators = s.validators := rfl

@[simp] theorem setValidator_toShared (st : ValidatorState cfg) :
    (s.setValidator sh v st).toShared = sh := rfl

@[simp] theorem setValidator_miners (st : ValidatorState cfg) :
    (s.setValidator sh v st).miners = s.miners := rfl

@[simp] theorem setValidator_validators (st : ValidatorState cfg) :
    (s.setValidator sh v st).validators = Function.update s.validators v st := rfl

end State

structure Environment (cfg : Config) where
  sha : Sha
  att : Attachment cfg

inductive SharedAction where
  | add (tx : Transaction)
  | post
  | terminate
  | mainPost
  | lose (i : ℕ)
  | age

inductive MinerAction where
  | wait
  | waitFails
  | snapshot
  | select
  | selectFails
  | rollback
  | checkFails
  | create (clock : Int64)
  | createFails
  | mine (retryClock : Int64)
  | send
  | sendFails
  | restore
  | quit

inductive ValidatorAction (cfg : Config) where
  | receive (i : ℕ) (heapPtr : UInt64)
  | deliver (r : ReceivedBlock cfg)
  | checkLink
  | checkPool
  | checkPoolFails
  | testCapacity
  | append
  | remove
  | restoreRefused

inductive Label (cfg : Config) (k : ℕ) where
  | shared (a : SharedAction)
  | miner (m : Fin cfg.numMiners) (a : MinerAction)
  | validator (v : Fin k) (a : ValidatorAction cfg)

namespace Shared

def setPool (sh : Shared cfg) (pool : TransactionPool cfg.txPoolSize) : Shared cfg :=
  { sh with pool := pool }

def setSlots (sh : Shared cfg) (slots : Slots cfg.txPoolSize) : Shared cfg :=
  sh.setPool (sh.pool.setSlots slots sh.pool.occupancy)

def setSem (sh : Shared cfg) (sem : ℕ) : Shared cfg :=
  sh.setPool { sh.pool with workNotificationSem := sem }

def push (sh : Shared cfg) (msg : Message cfg) : Shared cfg :=
  { sh with pipe := Function.update sh.pipe sh.sent (some msg), sent := sh.sent + 1 }

def pop (sh : Shared cfg) (i : ℕ) : Shared cfg :=
  { sh with pipe := Function.update sh.pipe i none }

def append (sh : Shared cfg) (att : Attachment cfg) (r : ReceivedBlock cfg) : Shared cfg :=
  { sh with ledger := appendBlock att r sh.ledger, committed := sh.committed ++ [r.block] }

def add (sh : Shared cfg) (tx : Transaction) : Shared cfg :=
  let (code, pool) := addSection tx sh.pool
  { sh.setPool pool with
    pendingPosts := if code = 0 then sh.pendingPosts + 1 else sh.pendingPosts
    used := tx.id :: sh.used }

end Shared

def sharedStep (sh : Shared cfg) : SharedAction → Option (Shared cfg)
  | .add tx => some (sh.add tx)
  | .post =>
    if 0 < sh.pendingPosts then
      some { sh.setSem (sh.pool.workNotificationSem + 1) with
        pendingPosts := sh.pendingPosts - 1 }
    else none
  | .terminate => some { sh with shouldTerminate := true }
  | .mainPost =>
    if sh.shouldTerminate ∧ sh.mainPosts < cfg.numMiners then
      some { sh.setSem (sh.pool.workNotificationSem + 1) with mainPosts := sh.mainPosts + 1 }
    else none
  | .lose i => some (sh.pop i)
  | .age => some (sh.setSlots (ageSection sh.pool.slots))

def minerStep (env : Environment cfg) (minerId : ℕ) (sh : Shared cfg) (st : MinerState cfg) :
    MinerAction → Option (Shared cfg × MinerState cfg)
  | .wait =>
    match st with
    | .waiting =>
      if 0 < sh.pool.workNotificationSem then
        some (sh.setSem (sh.pool.workNotificationSem - 1), .woken)
      else none
    | _ => none
  | .waitFails =>
    match st with
    | .waiting => some (sh, .exited)
    | _ => none
  | .snapshot =>
    match st with
    | .woken =>
      some (sh, .snapshot (previousHash env.sha env.att sh.ledger) (numBlocks sh.ledger))
    | _ => none
  | .select =>
    match st with
    | .snapshot previousHash blockId =>
      match selectSection cfg.transactionsPerBlock sh.pool.slots with
      | (slots, none) => some (sh.setSlots slots, .waiting)
      | (slots, some reserved) =>
        if h : reserved.length = cfg.transactionsPerBlock then
          some (sh.setSlots slots, .selected ⟨reserved, h⟩ previousHash blockId)
        else some (sh.setSlots slots, .rollback reserved)
    | _ => none
  | .selectFails =>
    match st with
    | .snapshot _ _ => some (sh, .waiting)
    | _ => none
  | .rollback =>
    match st with
    | .rollback reserved =>
      some (sh.setSlots (release (reserved.map Prod.fst) sh.pool.slots), .waiting)
    | _ => none
  | .checkFails =>
    match st with
    | .selected reserved _ _ => some (sh, .restoring reserved)
    | _ => none
  | .create clock =>
    match st with
    | .selected reserved previousHash blockId =>
      some (sh, .created (MinedBlock.create reserved previousHash minerId blockId clock))
    | _ => none
  | .createFails =>
    match st with
    | .selected reserved _ _ => some (sh, .restoring reserved)
    | _ => none
  | .mine retryClock =>
    match st with
    | .created b =>
      match b.mine env.sha retryClock with
      | some b => some (sh, .mined b)
      | none => some (sh, .restoring b.reserved)
    | _ => none
  | .send =>
    match st with
    | .mined b => some (sh.push ⟨Int32.ofNat minerId, b⟩, .waiting)
    | _ => none
  | .sendFails =>
    match st with
    | .mined b => some (sh, .restoring b.reserved)
    | _ => none
  | .restore =>
    match st with
    | .restoring reserved =>
      some (sh.setSlots (restoreLoop (reserved.toList.map Prod.snd) sh.pool.slots), .waiting)
    | _ => none
  | .quit =>
    match st with
    | .rollback _ | .restoring _ | .exited => none
    | _ => if sh.shouldTerminate then some (sh, .exited) else none

def validatorStep (env : Environment cfg) (sh : Shared cfg) (st : ValidatorState cfg) :
    ValidatorAction cfg → Option (Shared cfg × ValidatorState cfg)
  | .receive i heapPtr =>
    match st, sh.pipe i with
    | .idle, some msg => some (sh.pop i, .received (msg.delivery heapPtr))
    | _, _ => none
  | .deliver r =>
    match st with
    | .idle => some (sh, .received ⟨r, [], by simp⟩)
    | _ => none
  | .checkLink =>
    match st with
    | .received d =>
      if verifyNonce env.sha d.received.block &&
          checkLink env.sha env.att sh.ledger d.received.block then
        some (sh, .linked d sh.committed.length)
      else some (sh, .idle)
    | _ => none
  | .checkPool =>
    match st with
    | .linked d tip =>
      match poolSection d.received.block.transactions sh.pool.slots with
      | (valid, slots) => some (sh.setSlots slots, if valid then .accepted d tip else .idle)
    | _ => none
  | .checkPoolFails =>
    match st with
    | .linked _ _ => some (sh, .idle)
    | _ => none
  | .testCapacity =>
    match st with
    | .accepted d tip =>
      some (sh, if numBlocks sh.ledger ≥ cfg.blockchainBlocks then .full d else .appending d tip)
    | _ => none
  | .append =>
    match st with
    | .appending d _ => some (sh.append env.att d.received, .removing d)
    | _ => none
  | .remove =>
    match st with
    | .removing d => some (sh.setPool (removeTransactionsFromPool d.received sh.pool), .idle)
    | _ => none
  | .restoreRefused =>
    match st with
    | .full d => some (sh.setPool (restoreRefused d.received sh.pool), .idle)
    | _ => none

def step (env : Environment cfg) (s : State cfg k) : Label cfg k → Option (State cfg k)
  | .shared a => (sharedStep s.toShared a).map s.setShared
  | .miner m a =>
    (minerStep env (m + 1) s.toShared (s.miners m) a).map (fun p => s.setMiner p.1 m p.2)
  | .validator v a =>
    (validatorStep env s.toShared (s.validators v) a).map (fun p => s.setValidator p.1 v p.2)

def initState (cfg : Config) (k : ℕ) : State cfg k where
  pool := initPool cfg.txPoolSize
  ledger := initLedger
  pipe := fun _ => none
  sent := 0
  pendingPosts := 0
  mainPosts := 0
  shouldTerminate := false
  used := []
  committed := []
  miners := fun _ => .waiting
  validators := fun _ => .idle

end DeiChain
