import DeiChain.ExactlyOnce

namespace DeiChain

open ByteLayout Transition

variable {cfg : Config} {k : ℕ} {env : Environment cfg}

-- Blocks that differ in the fields of the search at most, or in what lies behind the NUL that
-- the frame reader forces into both strings.
structure SameBody (b b' : TransactionBlock) : Prop where
  txbId : terminate (n := 63) b.txbId = terminate (n := 63) b'.txbId
  previousBlockHash : terminate (n := 64) b.previousBlockHash =
    terminate (n := 64) b'.previousBlockHash
  transactions : b.transactions = b'.transactions

theorem SameBody.refl (b : TransactionBlock) : SameBody b b := ⟨rfl, rfl, rfl⟩

theorem SameBody.trans {a b c : TransactionBlock} (h : SameBody a b) (h' : SameBody b c) :
    SameBody a c :=
  ⟨h.txbId.trans h'.txbId, h.previousBlockHash.trans h'.previousBlockHash,
    h.transactions.trans h'.transactions⟩

theorem sameBody_search (sha : Sha) (b : TransactionBlock) : SameBody (proofOfWork sha b).1 b := by
  obtain ⟨nonce, h⟩ := proofOfWork_only_nonce sha b
  rw [h]
  exact ⟨rfl, rfl, rfl⟩

theorem sameBody_mine {sha : Sha} {b b' : MinedBlock cfg} {retryClock : Int64}
    (h : b.mine sha retryClock = some b') : SameBody b'.block b.block := by
  have hsearch (c : MinedBlock cfg) : SameBody (c.search sha).1.block c.block :=
    sameBody_search sha c.block
  simp only [MinedBlock.mine] at h
  split at h
  · split at h
    · cases h
    · cases h
      refine (hsearch _).trans (SameBody.trans ?_ (hsearch b))
      exact ⟨rfl, rfl, rfl⟩
  · cases h
    exact hsearch b

theorem sameBody_received (msg : Message cfg) (heapPtr : UInt64) :
    SameBody (msg.received heapPtr).block msg.mined.block := by
  have hadmit := msg.admit_received heapPtr
  unfold admitFrame at hadmit
  split at hadmit
  · rw [Option.some_inj] at hadmit
    rw [← hadmit]
    exact ⟨terminate_terminate _, terminate_terminate _, rfl⟩
  · cases hadmit

theorem received_minerId (msg : Message cfg) (heapPtr : UInt64) :
    (msg.received heapPtr).minerId = msg.minerId := by
  have hadmit := msg.admit_received heapPtr
  unfold admitFrame at hadmit
  split at hadmit
  · rw [Option.some_inj] at hadmit
    rw [← hadmit]
  · cases hadmit

def MinerState.block : MinerState cfg → Option TransactionBlock
  | .created b => some b.block
  | .mined b => some b.block
  | _ => none

def ValidatorState.delivery : ValidatorState cfg → Option (Delivery cfg)
  | .idle => none
  | .received d => some d
  | .linked d _ => some d
  | .accepted d _ => some d
  | .appending d _ => some d
  | .removing d => some d
  | .full d => some d

def minerIdOf (m : Fin cfg.numMiners) : Int32 := Int32.ofNat (m + 1)

theorem minerIdOf_toInt (m : Fin cfg.numMiners) : (minerIdOf m).toInt = m + 1 := by
  have hlt := cfg.int32.1
  rw [minerIdOf, toInt_ofNat_of_lt (by omega)]
  rfl

def Message.pair (msg : Message cfg) : Int32 × TransactionBlock := (msg.minerId, msg.mined.block)

def Delivery.pair (d : Delivery cfg) : Int32 × TransactionBlock :=
  (d.received.minerId, d.received.block)

def State.carried (s : State cfg k) : Holder cfg k → Option (Int32 × TransactionBlock)
  | .miner m => (s.miners m).block.map (fun b => (minerIdOf m, b))
  | .pipe i => (s.pipe i).map Message.pair
  | .validator v => (s.validators v).delivery.map Delivery.pair

inductive Origin (s : State cfg k) (l : Label cfg k) (p : Int32 × TransactionBlock) : Prop
  | carried (g : Holder cfg k) {b : TransactionBlock} (h : s.carried g = some (p.1, b))
      (hsame : SameBody p.2 b)
  | created (m : Fin cfg.numMiners)
      (reserved : List.Vector (Reservation cfg.txPoolSize) cfg.transactionsPerBlock)
      (previousHash : Chars hashSize) (blockId : ℤ) (clock : Int64)
      (hl : l = .miner m (.create clock))
      (hst : s.miners m = .selected reserved previousHash blockId)
      (hp : p = (minerIdOf m,
        (MinedBlock.create reserved previousHash (m + 1 : ℕ) blockId clock).block))
  | delivered (v : Fin k) (r : ReceivedBlock cfg) (hl : l = .validator v (.deliver r))
      (hp : p = (r.minerId, r.block))

theorem Origin.same {s : State cfg k} {l : Label cfg k} {p : Int32 × TransactionBlock}
    {g : Holder cfg k} (h : s.carried g = some p) : Origin s l p :=
  .carried g h (.refl _)

theorem SharedMove.carried {s : State cfg k} {a : SharedAction} {sh : Shared cfg}
    (h : SharedMove s.toShared a sh) {g : Holder cfg k} {p : Int32 × TransactionBlock}
    (hp : (s.setShared sh).carried g = some p) : Origin s (.shared a) p := by
  cases g with
  | miner m => exact .same (g := .miner m) hp
  | validator v => exact .same (g := .validator v) hp
  | pipe i =>
    cases h with
    | lose j =>
      rcases of_update (P := (Option.map Message.pair · = some p)) hp with ⟨-, hnone⟩ | hold
      · cases hnone
      · exact .same (g := .pipe i) hold
    | _ => exact .same (g := .pipe i) hp

theorem MinerMove.carried {s : State cfg k} {m : Fin cfg.numMiners} {a : MinerAction}
    {sh : Shared cfg} {st : MinerState cfg}
    (h : MinerMove env (m + 1) s.toShared a (s.miners m) sh st) {g : Holder cfg k}
    {p : Int32 × TransactionBlock} (hp : (s.setMiner sh m st).carried g = some p) :
    Origin s (.miner m a) p := by
  have hown : ∀ b, (s.miners m).block = some b →
      s.carried (.miner m) = some (minerIdOf m, b) := by
    intro b hb
    simp only [State.carried, hb, Option.map_some]
  generalize hst : s.miners m = old at h hown
  cases g with
  | validator v => exact .same (g := .validator v) hp
  | pipe i =>
    cases h with
    | @send b =>
      rcases of_update (P := (Option.map Message.pair · = some p)) hp with ⟨-, hsent⟩ | hold
      · exact .same ((hown b.block rfl).trans hsent)
      · exact .same (g := .pipe i) hold
    | _ => exact .same (g := .pipe i) hp
  | miner m' =>
    rcases of_update (P := fun st => (MinerState.block st).map (fun b => (minerIdOf m', b)) =
      some p) hp with ⟨rfl, hnew⟩ | hold
    · obtain ⟨b', hb', rfl⟩ := Option.map_eq_some_iff.mp hnew
      cases h with
      | create clock =>
        cases hb'
        exact .created m' _ _ _ clock rfl hst rfl
      | @mine b _ _ hmine =>
        cases hb'
        exact .carried (.miner m') (hown b.block rfl) (sameBody_mine hmine)
      | _ => cases hb'
    · exact .same (g := .miner m') hold

theorem ValidatorMove.carried {s : State cfg k} {v : Fin k} {a : ValidatorAction cfg}
    {sh : Shared cfg} {st : ValidatorState cfg}
    (h : ValidatorMove env s.toShared a (s.validators v) sh st) {g : Holder cfg k}
    {p : Int32 × TransactionBlock} (hp : (s.setValidator sh v st).carried g = some p) :
    Origin s (.validator v a) p := by
  have hown : ∀ d, (s.validators v).delivery = some d →
      s.carried (.validator v) = some d.pair := by
    intro d hd
    simp only [State.carried, hd, Option.map_some]
  generalize hst : s.validators v = old at h hown
  cases g with
  | miner m => exact .same (g := .miner m) hp
  | pipe i =>
    cases h with
    | @receive j heapPtr msg hmsg =>
      rcases of_update (P := (Option.map Message.pair · = some p)) hp with ⟨-, hnone⟩ | hold
      · cases hnone
      · exact .same (g := .pipe i) hold
    | _ => exact .same (g := .pipe i) hp
  | validator w =>
    rcases of_update (P := fun st => (ValidatorState.delivery st).map Delivery.pair = some p) hp
      with ⟨rfl, hnew⟩ | hold
    · obtain ⟨d, hd, rfl⟩ := Option.map_eq_some_iff.mp hnew
      cases h with
      | @receive j heapPtr msg hmsg =>
        cases hd
        refine .carried (.pipe j) ?_ (sameBody_received msg heapPtr)
        change (s.pipe j).map _ = _
        rw [hmsg, Option.map_some]
        exact congrArg (fun id => some (id, msg.mined.block)) (received_minerId msg heapPtr).symm
      | deliver r =>
        cases hd
        exact .delivered w r rfl rfl
      | _ => first
        | cases hd
          done
        | exact .same (hown _ hd)
    · exact .same (g := .validator w) hold

theorem step_carried {s t : State cfg k} {l : Label cfg k} (h : step env s l = some t)
    {g : Holder cfg k} {p : Int32 × TransactionBlock} (hp : t.carried g = some p) :
    Origin s l p := by
  rcases step_cases h with ⟨a, sh, rfl, hmove, rfl⟩ | ⟨m, a, sh, st, rfl, hmove, rfl⟩ |
    ⟨v, a, sh, st, rfl, hmove, rfl⟩
  · exact hmove.carried hp
  · exact hmove.carried hp
  · exact hmove.carried hp

end DeiChain
