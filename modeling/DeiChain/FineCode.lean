import DeiChain.LedgerSections
import DeiChain.Library.Critical
import DeiChain.PoolSections
import DeiChain.System

namespace DeiChain

open ByteLayout ByteMemory Critical Turns

inductive Mutex where
  | pool
  | ledger
deriving DecidableEq

inductive Party (cfg : Config) (γ k : ℕ) where
  | generator (g : Fin γ)
  | miner (m : Fin cfg.numMiners)
  | validator (v : Fin k)
  | main
deriving DecidableEq

abbrev MutexData (cfg : Config) : Mutex → Type
  | .pool => PoolData cfg.txPoolSize
  | .ledger => Memory

abbrev AllData (cfg : Config) := ∀ m, MutexData cfg m

-- What no mutex guards. The last two fields are history, as in Shared.
structure Unguarded (cfg : Config) where
  workNotificationSem : ℕ
  pipe : ℕ → Option (Message cfg)
  sent : ℕ
  mainPosts : ℕ
  shouldTerminate : Bool
  used : List (List UInt8)
  committed : List TransactionBlock

variable {cfg : Config} {γ k : ℕ}

def Shared.unguarded (sh : Shared cfg) : Unguarded cfg :=
  ⟨sh.pool.workNotificationSem, sh.pipe, sh.sent, sh.mainPosts, sh.shouldTerminate, sh.used,
    sh.committed⟩

def Unguarded.shared (r : Unguarded cfg) (v : AllData cfg) (pendingPosts : ℕ) : Shared cfg where
  pool := ⟨(v .pool).occupancy, r.workNotificationSem, (v .pool).slots⟩
  ledger := v .ledger
  pipe := r.pipe
  sent := r.sent
  pendingPosts := pendingPosts
  mainPosts := r.mainPosts
  shouldTerminate := r.shouldTerminate
  used := r.used
  committed := r.committed

inductive MinerSection where
  | snapshot
  | select
  | rollback
  | copyIds (fails : Bool)
  | restore

inductive ValidatorSection where
  | readOccupancy
  | age
  | checkLink
  | checkPool (allocated : Bool)
  | append
  | remove
  | restoreRefused

inductive PoolResult (cfg : Config) where
  | added (tx : Transaction) (code : ℤ)
  | selected (o : Option (List (Reservation cfg.txPoolSize)))
  | copied (fails : Bool)
  | returned
  | checked (valid : Bool)
  | done

inductive LedgerResult where
  | snapshot (previousHash : Chars hashSize) (blockId : ℤ)
  | linked (valid : Bool)
  | appended

abbrev MutexResult (cfg : Config) : Mutex → Type
  | .pool => PoolResult cfg
  | .ledger => LedgerResult

-- A miner with its flag that the ids have been copied, and whether a generator still has to post
-- work_notification_sem.
abbrev PartyLocal : Party cfg γ k → Type
  | .generator _ => Bool
  | .miner _ => MinerState cfg × Bool
  | .validator _ => ValidatorState cfg
  | .main => Unit

abbrev PartyPlain : Party cfg γ k → Type
  | .generator _ => Unit
  | .miner _ => MinerAction
  | .validator _ => ValidatorAction cfg
  | .main => SharedAction

abbrev PartySection : Party cfg γ k → Type
  | .generator _ => Transaction
  | .miner _ => MinerSection
  | .validator _ => ValidatorSection
  | .main => Empty

def MinerAction.plain (copied : Bool) : MinerAction → Bool
  | .wait | .waitFails | .selectFails | .mine _ | .send | .sendFails => true
  | .create _ | .createFails => copied
  | .quit => !copied
  | _ => false

-- The nonce is verified before the mutex is taken.
def ValidatorAction.plain (sha : Sha) (st : ValidatorState cfg) : ValidatorAction cfg → Bool
  | .receive _ _ | .deliver _ | .testCapacity => true
  | .checkLink =>
    match st with
    | .received d => !verifyNonce sha d.received.block
    | _ => false
  | _ => false

def SharedAction.plain : SharedAction → Bool
  | .terminate | .mainPost | .lose _ => true
  | _ => false

def generatorPost (r : Unguarded cfg) (posting : Bool) : Option (Unguarded cfg × Bool) :=
  if posting then some ({ r with workNotificationSem := r.workNotificationSem + 1 }, false)
  else none

def minerPlain (env : Environment cfg) (minerId : ℕ) (a : MinerAction) (sh : Shared cfg)
    (q : MinerState cfg × Bool) : Option (Unguarded cfg × MinerState cfg × Bool) :=
  if a.plain q.2 then
    (minerStep env minerId sh q.1 a).map (fun p => (p.1.unguarded, p.2, false))
  else none

def validatorPlain (env : Environment cfg) (a : ValidatorAction cfg) (sh : Shared cfg)
    (st : ValidatorState cfg) : Option (Unguarded cfg × ValidatorState cfg) :=
  if a.plain env.sha st then
    (validatorStep env sh st a).map (fun p => (p.1.unguarded, p.2))
  else none

def mainPlain (a : SharedAction) (sh : Shared cfg) : Option (Unguarded cfg × Unit) :=
  if a.plain then (sharedStep sh a).map (fun sh => (sh.unguarded, ())) else none

abbrev SectionBody (cfg : Config) := Σ m, Program (MutexData cfg m) (MutexResult cfg m)

def poolSectionBody (p : Program (PoolData cfg.txPoolSize) (PoolResult cfg)) : SectionBody cfg :=
  ⟨.pool, p⟩

def ledgerSectionBody (p : Program Memory LedgerResult) : SectionBody cfg := ⟨.ledger, p⟩

def generatorStart (tx : Transaction) (posting : Bool) : Option (SectionBody cfg) :=
  if posting then none else some (poolSectionBody (.added tx <$> addProgram tx))

def minerStart (env : Environment cfg) (e : MinerSection) (q : MinerState cfg × Bool) :
    Option (SectionBody cfg) :=
  match e, q with
  | .snapshot, (.woken, _) =>
    some (ledgerSectionBody ((fun x => .snapshot x.1 x.2) <$> snapshotProgram env.sha env.att))
  | .select, (.snapshot _ _, _) =>
    some (poolSectionBody (.selected <$> selectProgram cfg.transactionsPerBlock))
  | .rollback, (.rollback reserved, _) =>
    some (poolSectionBody ((fun _ => .returned) <$> releaseProgram (reserved.map Prod.fst)))
  | .copyIds fails, (.selected _ _ _, false) => some (poolSectionBody (pure (.copied fails)))
  | .restore, (.restoring reserved, _) =>
    some (poolSectionBody ((fun _ => .returned) <$>
      restoreProgram (reserved.toList.map Prod.snd) (List.finRange cfg.txPoolSize)))
  | _, _ => none

def validatorStart (env : Environment cfg) (e : ValidatorSection) (st : ValidatorState cfg) :
    Option (SectionBody cfg) :=
  match e, st with
  | .readOccupancy, .idle => some (poolSectionBody ((fun _ => .done) <$> .read PoolData.occupancy))
  | .age, .idle =>
    some (poolSectionBody ((fun _ => .done) <$> ageProgram (List.finRange cfg.txPoolSize)))
  | .checkLink, .received d =>
    if verifyNonce env.sha d.received.block then
      some (ledgerSectionBody (.linked <$> linkProgram env.sha env.att d.received.block))
    else none
  | .checkPool allocated, .linked d _ =>
    some (poolSectionBody (.checked <$> poolProgram allocated d.received.block.transactions))
  | .append, .appending d _ =>
    some (ledgerSectionBody ((fun _ => .appended) <$> appendProgram env.att d.received))
  | .remove, .removing d =>
    some (poolSectionBody ((fun _ => .returned) <$> removeProgram d.received))
  | .restoreRefused, .full d =>
    some (poolSectionBody ((fun _ => .returned) <$> restoreRefusedProgram d.received))
  | _, _ => none

def generatorFinish (x : PoolResult cfg) (r : Unguarded cfg) (posting : Bool) :
    Unguarded cfg × Bool :=
  match x with
  | .added tx code => ({ r with used := tx.id :: r.used }, code = 0)
  | _ => (r, posting)

def selectedState (o : Option (List (Reservation cfg.txPoolSize))) (previousHash : Chars hashSize)
    (blockId : ℤ) : MinerState cfg :=
  match o with
  | none => .waiting
  | some reserved =>
    if h : reserved.length = cfg.transactionsPerBlock then
      .selected ⟨reserved, h⟩ previousHash blockId
    else .rollback reserved

def minerFinish (x : PoolResult cfg) (q : MinerState cfg × Bool) : MinerState cfg × Bool :=
  match x, q with
  | .selected o, (.snapshot previousHash blockId, _) =>
    (selectedState o previousHash blockId, false)
  | .copied true, (.selected reserved _ _, _) => (.restoring reserved, false)
  | .copied false, (st, _) => (st, true)
  | .returned, _ => (.waiting, false)
  | _, q => q

def minerFinishLedger (x : LedgerResult) (q : MinerState cfg × Bool) : MinerState cfg × Bool :=
  match x with
  | .snapshot previousHash blockId => (.snapshot previousHash blockId, false)
  | _ => q

def validatorFinish (x : PoolResult cfg) (st : ValidatorState cfg) : ValidatorState cfg :=
  match x, st with
  | .checked true, .linked d tip => .accepted d tip
  | .checked false, _ => .idle
  | .returned, _ => .idle
  | _, st => st

def validatorFinishLedger (x : LedgerResult) (r : Unguarded cfg) (st : ValidatorState cfg) :
    Unguarded cfg × ValidatorState cfg :=
  match x, st with
  | .linked true, .received d => (r, .linked d r.committed.length)
  | .linked false, _ => (r, .idle)
  | .appended, .appending d _ =>
    ({ r with committed := r.committed ++ [d.received.block] }, .removing d)
  | _, st => (r, st)

-- The system of the other modules, with every access to the shared data a step of its own.
def fineCode (env : Environment cfg) (γ k : ℕ) :
    Code (Party cfg γ k) Mutex (MutexData cfg) (Unguarded cfg) where
  Local := PartyLocal
  Plain := PartyPlain
  Section := PartySection
  Result := MutexResult cfg
  plain
    | .generator _ => fun _ _ r posting => generatorPost r posting
    | .miner m => fun a v r q => minerPlain env (m + 1) a (r.shared v 0) q
    | .validator _ => fun a v r st => validatorPlain env a (r.shared v 0) st
    | .main => fun a v r _ => mainPlain a (r.shared v 0)
  start
    | .generator _ => fun tx posting => generatorStart tx posting
    | .miner _ => fun e q => minerStart env e q
    | .validator _ => fun e st => validatorStart env e st
    | .main => fun e _ => nomatch e
  finish
    | .generator _, .pool => fun x r posting => generatorFinish x r posting
    | .miner _, .pool => fun x r q => (r, minerFinish x q)
    | .miner _, .ledger => fun x r q => (r, minerFinishLedger x q)
    | .validator _, .pool => fun x r st => (r, validatorFinish x st)
    | .validator _, .ledger => fun x r st => validatorFinishLedger x r st
    | .generator _, .ledger => fun _ r q => (r, q)
    | .main, _ => fun _ r q => (r, q)

def initWhole (env : Environment cfg) (γ k : ℕ) : Critical.Whole (fineCode env γ k) where
  data
    | .pool => (initPool cfg.txPoolSize).guarded
    | .ledger => initLedger
  rest := ⟨0, fun _ => none, 0, 0, false, [], []⟩
  locals
    | .generator _ => false
    | .miner _ => (.waiting, false)
    | .validator _ => .idle
    | .main => ()

end DeiChain
