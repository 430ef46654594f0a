import DeiChain.Moves

namespace DeiChain

open ByteLayout ByteMemory HashChain Transition

variable {cfg : Config} {k : ℕ} {env : Environment cfg}

theorem SharedMove.ledger {sh sh' : Shared cfg} {a : SharedAction} (h : SharedMove sh a sh') :
    sh'.ledger = sh.ledger ∧ sh'.committed = sh.committed := by
  cases h <;> exact ⟨rfl, rfl⟩

theorem MinerMove.ledger {minerId : ℕ} {sh sh' : Shared cfg} {a : MinerAction}
    {st st' : MinerState cfg} (h : MinerMove env minerId sh a st sh' st') :
    sh'.ledger = sh.ledger ∧ sh'.committed = sh.committed := by
  cases h <;> exact ⟨rfl, rfl⟩

namespace ValidatorState

def checked : ValidatorState cfg → Option (Delivery cfg × ℕ)
  | .linked d tip | .accepted d tip | .appending d tip => some (d, tip)
  | _ => none

def appends : ValidatorState cfg → Bool
  | .appending _ _ => true
  | _ => false

end ValidatorState

theorem step_chain {s t : State cfg k} {l : Label cfg k} (h : step env s l = some t) :
    (∃ v d tip, l = .validator v .append ∧ s.validators v = .appending d tip ∧
      t.ledger = appendBlock env.att d.received s.ledger ∧
      t.committed = s.committed ++ [d.received.block] ∧
      t.validators = Function.update s.validators v (.removing d)) ∨
    (t.ledger = s.ledger ∧ t.committed = s.committed ∧ ∀ v,
      t.validators v = s.validators v ∨
      (t.validators v).checked = none ∨
      (∃ d, verifyNonce env.sha d.received.block = true ∧
        checkLink env.sha env.att s.ledger d.received.block = true ∧
        t.validators v = .linked d s.committed.length) ∨
      (∃ d tip, l = .validator v .checkPool ∧ s.validators v = .linked d tip ∧
        d.received.block.transactions.all (found s.pool.slots) = true ∧
        t.validators v = .accepted d tip) ∨
      ∃ d tip, l = .validator v .testCapacity ∧ s.validators v = .accepted d tip ∧
        numBlocks s.ledger < cfg.blockchainBlocks ∧ t.validators v = .appending d tip) := by
  rcases step_cases h with ⟨a, sh, rfl, hmove, rfl⟩ | ⟨m, a, sh, st, rfl, hmove, rfl⟩ |
    ⟨v, a, sh, st, rfl, hmove, rfl⟩
  · exact .inr ⟨hmove.ledger.1, hmove.ledger.2, fun _ => .inl rfl⟩
  · exact .inr ⟨hmove.ledger.1, hmove.ledger.2, fun _ => .inl rfl⟩
  · generalize hst : s.validators v = old at hmove
    have hother : ∀ w ≠ v, Function.update s.validators v st w = s.validators w := fun w hw =>
      Function.update_of_ne hw _ _
    have hself : Function.update s.validators v st v = st := Function.update_self _ _ _
    cases hmove with
    | append => exact .inl ⟨v, _, _, rfl, hst, rfl, rfl, rfl⟩
    | link hpow hlink =>
      refine .inr ⟨rfl, rfl, fun w => ?_⟩
      by_cases hw : w = v
      · subst hw
        exact .inr (.inr (.inl ⟨_, hpow, hlink, hself⟩))
      · exact .inl (hother w hw)
    | accept hall =>
      refine .inr ⟨rfl, rfl, fun w => ?_⟩
      by_cases hw : w = v
      · subst hw
        exact .inr (.inr (.inr (.inl ⟨_, _, rfl, hst, hall, hself⟩)))
      · exact .inl (hother w hw)
    | fits hroom =>
      refine .inr ⟨rfl, rfl, fun w => ?_⟩
      by_cases hw : w = v
      · subst hw
        exact .inr (.inr (.inr (.inr ⟨_, _, rfl, hst, hroom, hself⟩)))
      · exact .inl (hother w hw)
    | _ =>
      refine .inr ⟨rfl, rfl, fun w => ?_⟩
      by_cases hw : w = v
      · subst hw
        exact .inr (.inl (congrArg ValidatorState.checked hself))
      · exact .inl (hother w hw)

theorem represents_of_reachable {allow : State cfg k → Label cfg k → Prop} {s : State cfg k}
    (h : Reachable (step env) allow (initState cfg k) s)
    (haddr : ∀ i < s.committed.length, Addressable cfg i) :
    Represents env.att s.ledger s.committed := by
  refine h.invariant (I := fun s => (∀ i < s.committed.length, Addressable cfg i) →
    Represents env.att s.ledger s.committed) (fun _ => represents_initLedger) ?_ haddr
  intro a l b ha _ hstep hb
  rcases step_chain hstep with ⟨v, d, tip, -, -, hledger, hcommitted, -⟩ |
    ⟨hledger, hcommitted, -⟩
  · rw [hcommitted, List.length_append, List.length_singleton] at hb
    rw [hledger, hcommitted]
    exact (ha (fun i hi => hb i (by omega))).append (hb _ (by omega))
  · rw [hcommitted] at hb
    rw [hledger, hcommitted]
    exact ha hb

-- The int product that places the transactions of the next block does not wrap.
def ProductFits (cfg : Config) (m : Memory) : Prop :=
  ∃ n : ℕ, numBlocks m = n ∧ n * cfg.transactionsPerBlock < 2 ^ 31

theorem productFits_iff {m : Memory} : ProductFits cfg m ↔
    0 ≤ numBlocks m ∧ (numBlocks m).toNat * cfg.transactionsPerBlock < 2 ^ 31 := by
  constructor
  · rintro ⟨n, hcount, hn⟩
    rw [hcount, Int.toNat_natCast]
    exact ⟨Int.natCast_nonneg n, hn⟩
  · rintro ⟨hpos, hproduct⟩
    exact ⟨_, (Int.toNat_of_nonneg hpos).symm, hproduct⟩

instance {m : Memory} : Decidable (ProductFits cfg m) := decidable_of_iff _ productFits_iff.symm

-- The segment has an entry for it, too.
def HasRoom (cfg : Config) (m : Memory) : Prop := ∃ n : ℕ, numBlocks m = n ∧ Addressable cfg n

theorem hasRoom_iff {m : Memory} :
    HasRoom cfg m ↔ 0 ≤ numBlocks m ∧ (numBlocks m).toNat < cfg.blockchainBlocks ∧
      (numBlocks m).toNat * cfg.transactionsPerBlock < 2 ^ 31 := by
  constructor
  · rintro ⟨n, hcount, hn⟩
    rw [hcount, Int.toNat_natCast]
    exact ⟨Int.natCast_nonneg n, hn.lt, hn.product⟩
  · rintro ⟨hpos, hlt, hproduct⟩
    exact ⟨_, (Int.toNat_of_nonneg hpos).symm, hlt, hproduct⟩

instance {m : Memory} : Decidable (HasRoom cfg m) := decidable_of_iff _ hasRoom_iff.symm

def spacious (s : State cfg k) : Label cfg k → Bool
  | .validator _ .append => HasRoom cfg s.ledger
  | _ => true

def Spacious (s : State cfg k) (l : Label cfg k) : Prop := spacious s l = true

instance (s : State cfg k) (l : Label cfg k) : Decidable (Spacious s l) :=
  inferInstanceAs (Decidable (_ = true))

theorem Spacious.hasRoom {s : State cfg k} {v : Fin k} (h : Spacious s (.validator v .append)) :
    HasRoom cfg s.ledger := of_decide_eq_true h

theorem represents_of_spacious {allow : State cfg k → Label cfg k → Prop} {s : State cfg k}
    (hallow : ∀ a l, allow a l → Spacious a l)
    (h : Reachable (step env) allow (initState cfg k) s) :
    Represents env.att s.ledger s.committed := by
  refine h.invariant (I := fun t => Represents env.att t.ledger t.committed)
    represents_initLedger ?_
  intro a l b ha hl hstep
  rcases step_chain hstep with ⟨v, d, tip, rfl, -, hledger, hcommitted, -⟩ |
    ⟨hledger, hcommitted, -⟩
  · obtain ⟨n, hcount, hn⟩ := (hallow a _ hl).hasRoom
    obtain rfl : n = a.committed.length := by exact_mod_cast hcount.symm.trans ha.count
    rw [hledger, hcommitted]
    exact ha.append hn
  · rw [hledger, hcommitted]
    exact ha

-- No block was appended between the previous-hash check of a block and its own append, and the
-- int product that places its transactions does not wrap.
def Undisturbed (s : State cfg k) (l : Label cfg k) : Prop :=
  ∀ v d tip, l = .validator v .append → s.validators v = .appending d tip →
    s.committed.length = tip ∧ tip * cfg.transactionsPerBlock < 2 ^ 31

def undisturbed (s : State cfg k) : Label cfg k → Bool
  | .validator v .append =>
    match s.validators v with
    | .appending _ tip => s.committed.length = tip ∧ tip * cfg.transactionsPerBlock < 2 ^ 31
    | _ => true
  | _ => true

theorem undisturbed_iff {s : State cfg k} {l : Label cfg k} :
    undisturbed s l = true ↔ Undisturbed s l := by
  unfold undisturbed Undisturbed
  split
  · split
    · rename_i hst
      rw [decide_eq_true_iff]
      refine ⟨fun h => ?_, fun h => h _ _ _ rfl hst⟩
      rintro v d tip heq hd
      cases heq
      cases hst.symm.trans hd
      exact h
    · rename_i hother
      refine iff_of_true rfl ?_
      rintro v d tip heq hd
      cases heq
      exact absurd hd (hother d tip)
  · rename_i hother
    exact iff_of_true rfl (fun v d tip heq _ => absurd heq (hother v))

instance (s : State cfg k) (l : Label cfg k) : Decidable (Undisturbed s l) :=
  decidable_of_iff _ undisturbed_iff

structure ChainInvariant (env : Environment cfg) (s : State cfg k) : Prop where
  represents : Represents env.att s.ledger s.committed
  linked : (linking env.sha).Linked s.committed
  nonces : ∀ b ∈ s.committed, verifyNonce env.sha b = true
  checked : ∀ v d tip, (s.validators v).checked = some (d, tip) →
    verifyNonce env.sha d.received.block = true ∧ tip ≤ s.committed.length ∧
      (linking env.sha).carries d.received.block = (linking env.sha).tip (s.committed.take tip)
  room : ∀ v d tip, s.validators v = .appending d tip → tip < cfg.blockchainBlocks

theorem chainInvariant_init : ChainInvariant env (initState cfg k) where
  represents := represents_initLedger
  linked := Linking.linked_nil _
  nonces := by simp [initState]
  checked := by simp [initState, ValidatorState.checked]
  room := by simp [initState]

theorem ChainInvariant.append {s t : State cfg k} {v : Fin k} {d : Delivery cfg} {tip : ℕ}
    (h : ChainInvariant env s) (hst : s.validators v = .appending d tip)
    (htip : s.committed.length = tip) (hprod : tip * cfg.transactionsPerBlock < 2 ^ 31)
    (hledger : t.ledger = appendBlock env.att d.received s.ledger)
    (hcommitted : t.committed = s.committed ++ [d.received.block])
    (hvalidators : t.validators = Function.update s.validators v (.removing d)) :
    ChainInvariant env t := by
  have hchecked : (s.validators v).checked = some (d, tip) := by rw [hst]; rfl
  obtain ⟨hnonce, -, hcarries⟩ := h.checked v d tip hchecked
  have haddr : Addressable cfg s.committed.length := by
    rw [htip]
    exact ⟨h.room v d tip hst, hprod⟩
  have hother : ∀ w, (t.validators w) = s.validators w ∨ t.validators w = .removing d := by
    intro w
    by_cases hw : w = v
    · exact .inr (by rw [hvalidators, hw, Function.update_self])
    · exact .inl (by rw [hvalidators, Function.update_of_ne hw])
  refine ⟨?_, ?_, ?_, ?_, ?_⟩
  · rw [hledger, hcommitted]
    exact h.represents.append haddr
  · rw [hcommitted, Linking.linked_concat]
    rw [List.take_of_length_le (by omega)] at hcarries
    exact ⟨h.linked, hcarries⟩
  · intro b hb
    rw [hcommitted, List.mem_append, List.mem_singleton] at hb
    rcases hb with hb | rfl
    · exact h.nonces b hb
    · exact hnonce
  · intro w d' tip' hw
    rcases hother w with hsame | hnone
    · obtain ⟨hn, hle, hc⟩ := h.checked w d' tip' (hsame ▸ hw)
      refine ⟨hn, ?_, ?_⟩
      · rw [hcommitted, List.length_append]
        omega
      · rw [hcommitted, List.take_append_of_le_length hle, hc]
    · rw [hnone] at hw
      cases hw
  · intro w d' tip' hw
    rcases hother w with hsame | hnone
    · exact h.room w d' tip' (hsame ▸ hw)
    · rw [hnone] at hw
      cases hw

theorem ChainInvariant.step {s t : State cfg k} {l : Label cfg k} (h : ChainInvariant env s)
    (hallow : Undisturbed s l) (hstep : step env s l = some t) : ChainInvariant env t := by
  rcases step_chain hstep with ⟨v, d, tip, hl, hst, hledger, hcommitted, hvalidators⟩ |
    ⟨hledger, hcommitted, hvalidators⟩
  · obtain ⟨htip, hprod⟩ := hallow v d tip hl hst
    exact h.append hst htip hprod hledger hcommitted hvalidators
  · refine ⟨hledger ▸ hcommitted ▸ h.represents, hcommitted ▸ h.linked, hcommitted ▸ h.nonces,
      ?_, ?_⟩
    · intro v d tip hd
      rw [hcommitted]
      rcases hvalidators v with hsame | hnone | ⟨d', hpow, hlink, hlinked⟩ |
        ⟨d', tip', -, hold, -, hnew⟩ | ⟨d', tip', -, hold, -, hnew⟩
      · exact h.checked v d tip (hsame ▸ hd)
      · rw [hnone] at hd
        cases hd
      · rw [hlinked] at hd
        cases hd
        rw [List.take_of_length_le le_rfl]
        exact ⟨hpow, le_rfl, (h.represents.checkLink_iff _).mp hlink⟩
      · rw [hnew] at hd
        cases hd
        exact h.checked v d tip (by rw [hold]; rfl)
      · rw [hnew] at hd
        cases hd
        exact h.checked v d tip (by rw [hold]; rfl)
    · intro v d tip hd
      rcases hvalidators v with hsame | hnone | ⟨d', -, -, hlinked⟩ | ⟨d', tip', -, -, -, hnew⟩ |
        ⟨d', tip', -, hold, hroom, hnew⟩
      · exact h.room v d tip (hsame ▸ hd)
      · rw [hd] at hnone
        cases hnone
      · rw [hd] at hlinked
        cases hlinked
      · rw [hd] at hnew
        cases hnew
      · rw [hd] at hnew
        cases hnew
        have hle := (h.checked v d tip (by rw [hold]; rfl)).2.1
        have hcount := h.represents.count
        omega

def HashChained (sha : Sha) (att : Attachment cfg) (m : Memory) : Prop :=
  ∀ i : ℕ, (i : ℤ) < numBlocks m →
    cString (loadBlock att m i).previousBlockHash.toList =
      if i = 0 then initialHash
      else cString (computeSha256 sha (loadBlock att m (i - 1 : ℕ))).toList

theorem hashChained_iff_linked {sha : Sha} {att : Attachment cfg} {m : Memory} :
    HashChained sha att m ↔ (linking sha).Linked (ledgerBlocks att m) := by
  have hlen : (ledgerBlocks att m).length = (numBlocks m).toNat := by
    simp [ledgerBlocks]
  have hget : ∀ i (hi : i < (ledgerBlocks att m).length),
      (ledgerBlocks att m)[i] = loadBlock att m (i : ℕ) := by
    intro i hi
    simp [ledgerBlocks]
  rw [Linking.linked_iff_getElem, HashChained]
  constructor
  · intro hall i hi
    rw [List.get_eq_getElem, hget, hget]
    exact hall i (by omega)
  · intro hall i hi
    have hentry := hall i (by omega)
    rw [List.get_eq_getElem, hget, hget] at hentry
    exact hentry

theorem Represents.hashChained_iff {sha : Sha} {att : Attachment cfg} {m : Memory}
    {blocks : List TransactionBlock} (h : Represents att m blocks) :
    HashChained sha att m ↔ (linking sha).Linked blocks := by
  rw [hashChained_iff_linked, h.ledgerBlocks_eq]

theorem chainInvariant_of_reachable {s : State cfg k}
    (h : Reachable (step env) Undisturbed (initState cfg k) s) : ChainInvariant env s :=
  h.invariant chainInvariant_init (fun _ _ _ hs hallow hstep => hs.step hallow hstep)

structure SingleInvariant (env : Environment cfg) (s : State cfg 1) : Prop where
  chain : ChainInvariant env s
  tips : ∀ v d tip, (s.validators v).checked = some (d, tip) → s.committed.length = tip

theorem SingleInvariant.undisturbed {s : State cfg 1} (h : SingleInvariant env s)
    (hno : cfg.blockchainBlocks * cfg.transactionsPerBlock < 2 ^ 31) (l : Label cfg 1) :
    Undisturbed s l := by
  intro v d tip _ hst
  have haddr : Addressable cfg tip := addressable_of_lt hno (h.chain.room v d tip hst)
  exact ⟨h.tips v d tip (by rw [hst]; rfl), haddr.product⟩

theorem SingleInvariant.step {s t : State cfg 1} {l : Label cfg 1} (h : SingleInvariant env s)
    (hallow : Undisturbed s l) (hstep : step env s l = some t) : SingleInvariant env t := by
  refine ⟨h.chain.step hallow hstep, ?_⟩
  intro w d tip hw
  rcases step_chain hstep with ⟨v, d', tip', -, -, -, -, hvalidators⟩ |
    ⟨-, hcommitted, hvalidators⟩
  · rw [hvalidators, Subsingleton.elim w v, Function.update_self] at hw
    cases hw
  · rw [hcommitted]
    rcases hvalidators w with hsame | hnone | ⟨d', -, -, hlinked⟩ | ⟨d', tip', -, hold, -, hnew⟩ |
      ⟨d', tip', -, hold, -, hnew⟩
    · exact h.tips w d tip (hsame ▸ hw)
    · rw [hnone] at hw
      cases hw
    · rw [hlinked] at hw
      cases hw
      rfl
    · rw [hnew] at hw
      cases hw
      exact h.tips w d tip (by rw [hold]; rfl)
    · rw [hnew] at hw
      cases hw
      exact h.tips w d tip (by rw [hold]; rfl)

theorem singleInvariant_init : SingleInvariant env (initState cfg 1) :=
  ⟨chainInvariant_init, by simp [initState, ValidatorState.checked]⟩

theorem undisturbed_of_single {s : State cfg 1}
    (hno : cfg.blockchainBlocks * cfg.transactionsPerBlock < 2 ^ 31)
    (h : Reachable (step env) always (initState cfg 1) s) :
    Reachable (step env) Undisturbed (initState cfg 1) s :=
  h.restrict singleInvariant_init (fun _ l _ ha _ hstep => ha.step (ha.undisturbed hno l) hstep)
    (fun _ l ha _ => ha.undisturbed hno l)

-- No append so far has overflowed the int product that places its transactions.
def NoOverflow (s : State cfg k) : Prop :=
  ∀ i < s.committed.length, i * cfg.transactionsPerBlock < 2 ^ 31

theorem noOverflow_of_length {s : State cfg k}
    (h : s.committed.length * cfg.transactionsPerBlock < 2 ^ 31) : NoOverflow s :=
  fun _ hi => lt_of_le_of_lt (Nat.mul_le_mul_right _ hi.le) h

theorem committed_grows {s t : State cfg k} {l : Label cfg k} (h : step env s l = some t) :
    s.committed <+: t.committed := by
  rcases step_chain h with ⟨v, d, tip, -, -, -, hcommitted, -⟩ | ⟨-, hcommitted, -⟩
  · exact hcommitted ▸ List.prefix_append _ _
  · exact hcommitted ▸ List.prefix_rfl

theorem committed_of_append {s t : State cfg k} {v : Fin k} {d : Delivery cfg} {tip : ℕ}
    (hst : s.validators v = .appending d tip) (h : step env s (.validator v .append) = some t) :
    t.committed = s.committed ++ [d.received.block] := by
  simp only [step, validatorStep, hst, Option.map_some, Option.some.injEq] at h
  exact h ▸ rfl

theorem NoOverflow.before {s t : State cfg k} (h : NoOverflow t)
    (hpre : s.committed <+: t.committed) : NoOverflow s :=
  fun i hi => h i (hi.trans_le hpre.length_le)

theorem singleInvariant_of_noOverflow {s : State cfg 1}
    (h : Reachable (step env) always (initState cfg 1) s) (hexact : NoOverflow s) :
    SingleInvariant env s := by
  refine h.invariant (I := fun s => NoOverflow s → SingleInvariant env s)
    (fun _ => singleInvariant_init) ?_ hexact
  intro a l b ha _ hstep hb
  have hsingle := ha (hb.before (committed_grows hstep))
  refine hsingle.step ?_ hstep
  rintro v d tip rfl hst
  have htip : a.committed.length = tip := hsingle.tips v d tip (by rw [hst]; rfl)
  have hlen : a.committed.length < b.committed.length := by
    rw [committed_of_append hst hstep, List.length_append]
    exact Nat.lt_succ_self _
  exact ⟨htip, htip ▸ hb a.committed.length hlen⟩

namespace Sample

def config (spare : Fin 2) : Config :=
  ⟨2, 2, 1, spare + 1, by revert spare; decide, by revert spare; decide⟩

variable {spare : Fin 2}

instance : NeZero (config spare).numMiners := ⟨Nat.succ_ne_zero 1⟩

instance : NeZero (config spare).txPoolSize := ⟨Nat.succ_ne_zero 1⟩

def environment (spare : Fin 2) : Environment (config spare) :=
  ⟨fun _ => List.Vector.replicate 32 0, ⟨0, by revert spare; decide⟩⟩

def transaction (c : UInt8) : Transaction := ⟨⟨c :: List.replicate 15 0, rfl⟩, 1, 0, 0⟩

def block (c : UInt8) : TransactionBlock where
  txbId := List.Vector.replicate txbIdLen 0
  previousBlockHash := initialHashChars
  timestamp := 0
  nonce := 0
  transactionsPerBlock := 1
  transactions := [transaction c]
  transactions_length := rfl

def received (c : UInt8) : ReceivedBlock (config spare) where
  minerId := 1
  block := block c
  heapPtr := 0
  heapTail := []
  count_pos := (by decide : 0 < (1 : Int32).toInt)
  count_le := (by decide : (1 : Int32).toInt ≤ 1)
  txbId_nul := rfl
  previousBlockHash_nul := rfl
  heap_length := rfl

def replay (c : UInt8) : TransactionBlock :=
  { block c with previousBlockHash := hexDigest (List.Vector.replicate 32 0) }

def replayReceived (c : UInt8) : ReceivedBlock (config spare) where
  minerId := 1
  block := replay c
  heapPtr := 0
  heapTail := []
  count_pos := (by decide : 0 < (1 : Int32).toInt)
  count_le := (by decide : (1 : Int32).toInt ≤ 1)
  txbId_nul := rfl
  previousBlockHash_nul := rfl
  heap_length := rfl

def validate {k : ℕ} (v : Fin k) (c : UInt8) : List (Label (config spare) k) :=
  [.shared (.add (transaction c)), .validator v (.deliver (received c)), .validator v .checkLink,
    .validator v .checkPool]

def commit {k : ℕ} (v : Fin k) : List (Label (config spare) k) :=
  [.validator v .testCapacity, .validator v .append]

-- One block after the other, the second one linked to the first.
def inTurn {k : ℕ} (v w : Fin k) : List (Label (config spare) k) :=
  validate v 1 ++ commit v ++ [.validator v .remove, .shared (.add (transaction 2)),
    .validator w (.deliver (replayReceived 2)), .validator w .checkLink,
    .validator w .checkPool] ++ commit w

end Sample

theorem chain_integrity {s : State cfg k}
    (h : Reachable (step env) Undisturbed (initState cfg k) s) :
    HashChained env.sha env.att s.ledger :=
  have hinv := chainInvariant_of_reachable h
  hinv.represents.hashChained_iff.mpr hinv.linked

theorem chain_integrity_in_turn :
    ∃ s : State (Sample.config 1) 2, s.committed = [Sample.block 1, Sample.replay 2] ∧
      HashChained (Sample.environment 1).sha (Sample.environment 1).att s.ledger := by
  have hrun : (runAllowed (step (Sample.environment 1)) Undisturbed (initState _ 2)
      (Sample.inTurn 0 1)).any (fun s => decide
        (s.committed = [Sample.block 1, Sample.replay 2])) = true := by decide +kernel
  obtain ⟨s, hs, hend⟩ := (Option.any_eq_true ..).mp hrun
  exact ⟨s, of_decide_eq_true hend, chain_integrity (reachable_of_runAllowed hs)⟩

theorem chain_broken_by_two_validators :
    ∃ s : State (Sample.config 1) 2,
      Reachable (step (Sample.environment 1)) always (initState _ 2) s ∧
        ¬ HashChained (Sample.environment 1).sha (Sample.environment 1).att s.ledger := by
  let labels : List (Label (Sample.config 1) 2) :=
    Sample.validate 0 1 ++ Sample.validate 1 2 ++ Sample.commit 0 ++ Sample.commit 1
  have hsome : (run (step (Sample.environment 1)) (initState _ 2) labels).isSome = true := by decide
  obtain ⟨s, hrun⟩ := Option.isSome_iff_exists.mp hsome
  have hledger : (run (step (Sample.environment 1)) (initState _ 2) labels).map (·.ledger) =
      some (appendBlock (Sample.environment 1).att (Sample.received 2)
        (appendBlock (Sample.environment 1).att (Sample.received 1) initLedger)) := rfl
  rw [hrun, Option.map_some, Option.some_inj] at hledger
  have hrep : Represents (Sample.environment 1).att s.ledger [Sample.block 1, Sample.block 2] := by
    rw [hledger]
    exact (represents_initLedger.append ⟨by decide, by decide⟩).append ⟨by decide, by decide⟩
  refine ⟨s, reachable_of_run hrun, ?_⟩
  rw [hrep.hashChained_iff]
  intro hlinked
  exact absurd (hlinked 1 (by decide)) (by decide)

end DeiChain
