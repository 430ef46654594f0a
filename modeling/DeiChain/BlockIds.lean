import DeiChain.BlockText
import DeiChain.Library.History
import DeiChain.Provenance
import DeiChain.Tamper

namespace DeiChain

open ByteLayout ByteMemory HashChain Transition

variable {cfg : Config} {k : ℕ} {env : Environment cfg}

-- Validators decode nothing but blocks that miners of the system have sent.
def FromMiners (_ : State cfg k) : Label cfg k → Prop
  | .validator _ (.deliver _) => False
  | _ => True

instance (s : State cfg k) : ∀ l, Decidable (FromMiners s l)
  | .validator _ (.deliver _) => isFalse id
  | .shared _ | .miner _ _ => isTrue trivial
  | .validator _ (.receive _ _) | .validator _ .checkLink | .validator _ .checkPool
  | .validator _ .checkPoolFails | .validator _ .testCapacity | .validator _ .append
  | .validator _ .remove | .validator _ .restoreRefused => isTrue trivial

abbrev Builds (cfg : Config) := List (Fin cfg.numMiners × TransactionBlock)

def builds (s : State cfg k) (l : Label cfg k) (_ : State cfg k) (h : Builds cfg) : Builds cfg :=
  match l with
  | .miner m (.create clock) =>
    match s.miners m with
    | .selected reserved previousHash blockId =>
      h ++ [(m, (MinedBlock.create reserved previousHash (m + 1 : ℕ) blockId clock).block)]
    | _ => h
  | _ => h

theorem builds_cases (s : State cfg k) (l : Label cfg k) (t : State cfg k) (h : Builds cfg) :
    builds s l t h = h ∨ ∃ m reserved previousHash blockId clock, l = .miner m (.create clock) ∧
      s.miners m = .selected reserved previousHash blockId ∧ builds s l t h =
        h ++ [(m, (MinedBlock.create reserved previousHash (m + 1 : ℕ) blockId clock).block)] := by
  unfold builds
  split
  · split
    · exact .inr ⟨_, _, _, _, _, rfl, ‹_›, rfl⟩
    · exact .inl rfl
  · exact .inl rfl

theorem subset_builds (s : State cfg k) (l : Label cfg k) (t : State cfg k) (h : Builds cfg) :
    h ⊆ builds s l t h := by
  rcases builds_cases s l t h with hsame | ⟨m, reserved, previousHash, blockId, clock, -, -, hnew⟩
  · exact hsame.symm ▸ List.Subset.refl h
  · exact hnew.symm ▸ List.subset_append_left _ _

def MinerState.view : MinerState cfg → Option (Chars hashSize × ℤ)
  | .snapshot previousHash blockId => some (previousHash, blockId)
  | .selected _ previousHash blockId => some (previousHash, blockId)
  | _ => none

theorem MinerMove.view {minerId : ℕ} {sh sh' : Shared cfg} {a : MinerAction}
    {st st' : MinerState cfg} (h : MinerMove env minerId sh a st sh' st')
    {p : Chars hashSize × ℤ} (hp : st'.view = some p) :
    st.view = some p ∨ p = (previousHash env.sha env.att sh.ledger, numBlocks sh.ledger) := by
  cases h with
  | snapshot => exact .inr (Option.some_inj.mp hp).symm
  | select => exact .inl hp
  | _ => cases hp

theorem step_view {s t : State cfg k} {l : Label cfg k} (h : step env s l = some t)
    {m : Fin cfg.numMiners} {p : Chars hashSize × ℤ} (hp : (t.miners m).view = some p) :
    (s.miners m).view = some p ∨
      p = (previousHash env.sha env.att s.ledger, numBlocks s.ledger) := by
  rcases step_cases h with ⟨a, sh, rfl, hmove, rfl⟩ | ⟨w, a, sh, st, rfl, hmove, rfl⟩ |
    ⟨v, a, sh, st, rfl, hmove, rfl⟩
  · exact .inl hp
  · rw [State.setMiner_miners] at hp
    by_cases hm : m = w
    · subst hm
      rw [Function.update_self] at hp
      exact hmove.view hp
    · rw [Function.update_of_ne hm] at hp
      exact .inl hp
  · exact .inl hp

-- What a miner has seen of the ledger: a number of blocks and the hash of the last of them.
def Seen (sha : Sha) (committed : List TransactionBlock) (p : Chars hashSize × ℤ) (i : ℕ) : Prop :=
  i ≤ committed.length ∧ p.2 = i ∧
    cString (terminate (n := 64) p.1).toList = (linking sha).tip (committed.take i)

-- A block that carries the text of that number and the hash, whatever else became of the ledger.
def Tagged (sha : Sha) (committed : List TransactionBlock) (m : Fin cfg.numMiners)
    (b : TransactionBlock) (i : ℕ) : Prop :=
  i ≤ committed.length ∧ cString (terminate (n := 63) b.txbId).toList = blockText (m + 1) i ∧
    cString (terminate (n := 64) b.previousBlockHash).toList =
      (linking sha).tip (committed.take i)

theorem tip_take_of_grows {sha : Sha} {committed committed' : List TransactionBlock}
    (h : committed <+: committed') {i : ℕ} (hi : i ≤ committed.length) :
    (linking sha).tip (committed'.take i) = (linking sha).tip (committed.take i) := by
  obtain ⟨rest, rfl⟩ := h
  rw [List.take_append_of_le_length hi]

theorem Seen.mono {sha : Sha} {committed committed' : List TransactionBlock}
    {p : Chars hashSize × ℤ} {i : ℕ} (h : Seen sha committed p i)
    (hgrows : committed <+: committed') : Seen sha committed' p i :=
  ⟨h.1.trans hgrows.length_le, h.2.1, h.2.2.trans (tip_take_of_grows hgrows h.1).symm⟩

theorem Tagged.mono {sha : Sha} {committed committed' : List TransactionBlock}
    {m : Fin cfg.numMiners} {b : TransactionBlock} {i : ℕ} (h : Tagged sha committed m b i)
    (hgrows : committed <+: committed') : Tagged sha committed' m b i :=
  ⟨h.1.trans hgrows.length_le, h.2.1, h.2.2.trans (tip_take_of_grows hgrows h.1).symm⟩

theorem Seen.tagged {sha : Sha} {committed : List TransactionBlock} {m : Fin cfg.numMiners}
    {reserved : List.Vector (Reservation cfg.txPoolSize) cfg.transactionsPerBlock}
    {previousHash : Chars hashSize} {blockId : ℤ} {i : ℕ}
    (h : Seen sha committed (previousHash, blockId) i)
    (hle : committed.length ≤ cfg.blockchainBlocks) (clock : Int64) :
    Tagged sha committed m
      (MinedBlock.create reserved previousHash (m + 1 : ℕ) blockId clock).block i := by
  obtain ⟨hi, hid, hhash⟩ := h
  obtain rfl : blockId = i := hid
  have hminers := cfg.int32.1
  have hblocks := cfg.int32.2.2.2
  refine ⟨hi, ?_, ?_⟩
  · have hlen : (blockText (m + 1) i).length ≤ 63 := length_blockText_le (by omega) (by omega)
    change cString (terminate (terminate (snprintf 63 (blockText (m + 1) i)))).toList = _
    rw [terminate_terminate]
    exact cString_snprintf hlen (fun x => blockText_ne_zero)
  · exact (congrArg (fun c => cString c.toList) (terminate_terminate (n := 64) previousHash)).trans
      hhash

def CollisionFree (sha : Sha) (blocks : List TransactionBlock) : Prop :=
  (∀ a ∈ blocks, ∀ b ∈ blocks, computeSha256 sha a = computeSha256 sha b → a = b) ∧
    ∀ a ∈ blocks, cString (computeSha256 sha a).toList ≠ initialHash

theorem CollisionFree.before {sha : Sha} {blocks blocks' : List TransactionBlock}
    (h : CollisionFree sha blocks') (hgrows : blocks <+: blocks') : CollisionFree sha blocks :=
  ⟨fun a ha b hb => h.1 a (hgrows.subset ha) b (hgrows.subset hb),
    fun a ha => h.2 a (hgrows.subset ha)⟩

theorem CollisionFree.tip_take_inj {sha : Sha} {blocks : List TransactionBlock}
    (h : CollisionFree sha blocks) (hl : (linking sha).Linked blocks) {i j : ℕ}
    (hi : i ≤ blocks.length) (hj : j ≤ blocks.length)
    (htip : (linking sha).tip (blocks.take i) = (linking sha).tip (blocks.take j)) : i = j := by
  refine (linking sha).tip_take_inj hl (fun a ha b hb heq => ?_) h.2 hi hj htip
  exact h.1 a ha b hb (congrArg hexDigest (cString_hexDigest_injective heq))

structure IdInvariant (env : Environment cfg) (s : State cfg 1) (h : Builds cfg) : Prop where
  seen : ∀ m p, (s.miners m).view = some p → ∃ i, Seen env.sha s.committed p i
  built : ∀ q ∈ h, ∃ i, Tagged env.sha s.committed q.1 q.2 i
  carried : ∀ g p, s.carried g = some p → ∃ q ∈ h, SameBody p.2 q.2
  committed : ∀ i (hi : i < s.committed.length), ∃ q ∈ h, SameBody s.committed[i] q.2 ∧
    cString s.committed[i].txbId.toList = blockText (q.1 + 1) i

theorem idInvariant_init : IdInvariant env (initState cfg 1) [] where
  seen m p hp := by cases hp
  built q hq := by cases hq
  carried g p hp := by cases g <;> cases hp
  committed i hi := by cases hi

theorem seen_step {s t : State cfg 1} {l : Label cfg 1} {h : Builds cfg}
    (hs : IdInvariant env s h) (hrep : Represents env.att s.ledger s.committed)
    (hstep : step env s l = some t) (m : Fin cfg.numMiners) (p : Chars hashSize × ℤ)
    (hp : (t.miners m).view = some p) : ∃ i, Seen env.sha t.committed p i := by
  rcases step_view hstep hp with hold | rfl
  · obtain ⟨i, hi⟩ := hs.seen m p hold
    exact ⟨i, hi.mono (committed_grows hstep)⟩
  · have hseen : Seen env.sha s.committed (previousHash env.sha env.att s.ledger,
        numBlocks s.ledger) s.committed.length := by
      refine ⟨le_rfl, hrep.count, ?_⟩
      rw [List.take_length, ← hrep.previousHash_eq]
      simp only [terminate_previousHash]
      rfl
    exact ⟨_, hseen.mono (committed_grows hstep)⟩

theorem built_step {s t : State cfg 1} {l : Label cfg 1} {h : Builds cfg}
    (hs : IdInvariant env s h) (hrep : Represents env.att s.ledger s.committed)
    (hstep : step env s l = some t) :
    ∀ q ∈ builds s l t h, ∃ i, Tagged env.sha t.committed q.1 q.2 i := by
  have hgrows := committed_grows hstep
  have hold : ∀ q ∈ h, ∃ i, Tagged env.sha t.committed q.1 q.2 i := by
    intro q hq
    obtain ⟨i, hi⟩ := hs.built q hq
    exact ⟨i, hi.mono hgrows⟩
  rcases builds_cases s l t h with hsame | ⟨m, reserved, previousHash, blockId, clock, -, hst, hnew⟩
  · rw [hsame]
    exact hold
  · rw [hnew]
    intro q hq
    rcases List.mem_append.mp hq with hq | hq
    · exact hold q hq
    · rw [List.mem_singleton.mp hq]
      obtain ⟨i, hi⟩ := hs.seen m (previousHash, blockId) (by rw [hst]; rfl)
      exact ⟨i, (hi.tagged hrep.capacity clock).mono hgrows⟩

theorem carried_step {s t : State cfg 1} {l : Label cfg 1} {h : Builds cfg}
    (hs : IdInvariant env s h) (hallow : FromMiners s l) (hstep : step env s l = some t)
    (g : Holder cfg 1) (p : Int32 × TransactionBlock) (hp : t.carried g = some p) :
    ∃ q ∈ builds s l t h, SameBody p.2 q.2 := by
  cases step_carried hstep hp with
  | @carried g' b hold hsame =>
    obtain ⟨q, hq, hbody⟩ := hs.carried g' (p.1, b) hold
    exact ⟨q, subset_builds s l t h hq, hsame.trans hbody⟩
  | created m reserved previousHash blockId clock hl hst heq =>
    subst hl
    refine ⟨(m, p.2), ?_, .refl _⟩
    rw [builds, hst, heq]
    exact List.mem_append_right _ (List.mem_singleton_self _)
  | delivered v r hl heq =>
    subst hl
    exact hallow.elim

theorem ReceivedBlock.terminate_txbId (r : ReceivedBlock cfg) :
    terminate (n := 63) r.block.txbId = r.block.txbId := terminate_eq r.txbId_nul

theorem ReceivedBlock.terminate_previousBlockHash (r : ReceivedBlock cfg) :
    terminate (n := 64) r.block.previousBlockHash = r.block.previousBlockHash :=
  terminate_eq r.previousBlockHash_nul

-- The link check holds the block to the one position whose tip it carries.
theorem appended_position {s : State cfg 1} {h : Builds cfg} {v : Fin 1} {d : Delivery cfg}
    {tip : ℕ} (hs : IdInvariant env s h) (hsingle : SingleInvariant env s)
    (hfree : CollisionFree env.sha s.committed) (hst : s.validators v = .appending d tip) :
    ∃ q ∈ h, SameBody d.received.block q.2 ∧
      cString d.received.block.txbId.toList = blockText (q.1 + 1) s.committed.length := by
  have hchecked : (s.validators v).checked = some (d, tip) := by rw [hst]; rfl
  have htip : s.committed.length = tip := hsingle.tips v d tip hchecked
  have hcarries := (hsingle.chain.checked v d tip hchecked).2.2
  obtain ⟨q, hq, hbody⟩ := hs.carried (.validator v) d.pair
    (by simp only [State.carried, hst, ValidatorState.delivery, Option.map_some])
  obtain ⟨i, hi, htext, hprev⟩ := hs.built q hq
  have hlink : (linking env.sha).tip (s.committed.take i) =
      (linking env.sha).tip (s.committed.take tip) := by
    calc (linking env.sha).tip (s.committed.take i)
        = cString (terminate (n := 64) q.2.previousBlockHash).toList := hprev.symm
      _ = cString (terminate (n := 64) d.received.block.previousBlockHash).toList :=
          congrArg (fun c => cString c.toList) hbody.previousBlockHash.symm
      _ = (linking env.sha).carries d.received.block :=
          congrArg (fun c => cString c.toList) d.received.terminate_previousBlockHash
      _ = (linking env.sha).tip (s.committed.take tip) := hcarries
  obtain rfl : i = tip := hfree.tip_take_inj hsingle.chain.linked hi (by omega) hlink
  refine ⟨q, hq, hbody, ?_⟩
  rw [htip, ← htext, ← hbody.txbId]
  exact congrArg (fun c => cString c.toList) d.received.terminate_txbId.symm

theorem committed_step {s t : State cfg 1} {l : Label cfg 1} {h : Builds cfg}
    (hs : IdInvariant env s h) (hsingle : SingleInvariant env s)
    (hfree : CollisionFree env.sha s.committed) (hstep : step env s l = some t) :
    ∀ i (hi : i < t.committed.length), ∃ q ∈ builds s l t h, SameBody t.committed[i] q.2 ∧
      cString t.committed[i].txbId.toList = blockText (q.1 + 1) i := by
  have hsub := subset_builds s l t h
  rcases step_chain hstep with ⟨v, d, tip, -, hst, -, hcommitted, -⟩ | ⟨-, hcommitted, -⟩
  · rw [hcommitted]
    intro i hi
    rcases Nat.lt_or_ge i s.committed.length with hlt | hge
    · rw [List.getElem_append_left hlt]
      obtain ⟨q, hq, hrest⟩ := hs.committed i hlt
      exact ⟨q, hsub hq, hrest⟩
    · obtain rfl : i = s.committed.length := by simp at hi; omega
      rw [List.getElem_concat_length rfl]
      obtain ⟨q, hq, hrest⟩ := appended_position hs hsingle hfree hst
      exact ⟨q, hsub hq, hrest⟩
  · rw [hcommitted]
    intro i hi
    obtain ⟨q, hq, hrest⟩ := hs.committed i hi
    exact ⟨q, hsub hq, hrest⟩

theorem IdInvariant.step {s t : State cfg 1} {l : Label cfg 1} {h : Builds cfg}
    (hs : IdInvariant env s h) (hsingle : SingleInvariant env s)
    (hfree : CollisionFree env.sha s.committed) (hallow : FromMiners s l)
    (hstep : step env s l = some t) : IdInvariant env t (builds s l t h) where
  seen := seen_step hs hsingle.chain.represents hstep
  built := built_step hs hsingle.chain.represents hstep
  carried := carried_step hs hallow hstep
  committed := committed_step hs hsingle hfree hstep

theorem idInvariant_of_reachable {s : State cfg 1} {h : Builds cfg}
    (hreach : Reachable (watch (step env) builds) (watching FromMiners) (initState cfg 1, [])
      (s, h)) (hexact : NoOverflow s) (hfree : CollisionFree env.sha s.committed) :
    IdInvariant env s h := by
  refine hreach.invariant_along (I := fun p : State cfg 1 × Builds cfg => NoOverflow p.1 →
    CollisionFree env.sha p.1.committed → IdInvariant env p.1 p.2)
    (fun _ _ => idInvariant_init) ?_ hexact hfree
  rintro ⟨a, ha⟩ l ⟨b, hb⟩ hbefore hinv hallow hstep hexact hfree
  obtain ⟨hs, hh⟩ := watch_eq_some hstep
  have hgrows := committed_grows hs
  have hsingle := singleInvariant_of_noOverflow (hbefore.forget.mono (fun _ _ _ => trivial))
    (hexact.before hgrows)
  have hfree' := hfree.before hgrows
  rw [hh]
  exact (hinv (hexact.before hgrows) hfree').step hsingle hfree' hallow hs

theorem block_ids_are_positions {s : State cfg 1} {h : Builds cfg}
    (hreach : Reachable (watch (step env) builds) (watching FromMiners) (initState cfg 1, [])
      (s, h)) (hexact : NoOverflow s)
    (hfree : CollisionFree env.sha (ledgerBlocks env.att s.ledger)) :
    (∀ i : ℕ, (i : ℤ) < numBlocks s.ledger → ∃ q ∈ h,
      SameBody (loadBlock env.att s.ledger i) q.2 ∧
        cString (loadBlock env.att s.ledger i).txbId.toList = blockText (q.1 + 1) i) ∧
      ((ledgerBlocks env.att s.ledger).map (fun b => cString b.txbId.toList)).Nodup := by
  have hrep := (singleInvariant_of_noOverflow (hreach.forget.mono (fun _ _ _ => trivial))
    hexact).chain.represents
  rw [hrep.ledgerBlocks_eq] at hfree ⊢
  have hinv := idInvariant_of_reachable hreach hexact hfree
  constructor
  · intro i hi
    rw [hrep.count] at hi
    have hlt : i < s.committed.length := by exact_mod_cast hi
    rw [hrep.loadBlock_eq hlt]
    exact hinv.committed i hlt
  · rw [List.nodup_iff_injective_getElem]
    rintro ⟨i, hi⟩ ⟨j, hj⟩ heq
    simp only [List.getElem_map] at heq
    rw [List.length_map] at hi hj
    obtain ⟨q, -, -, htext⟩ := hinv.committed i hi
    obtain ⟨q', -, -, htext'⟩ := hinv.committed j hj
    exact Fin.ext (blockText_inj (htext.symm.trans (heq.trans htext'))).2

namespace Sample

-- A hash that meets every difficulty and tells texts apart by the sum of their bytes.
def summing (spare : Fin 2) : Environment (config spare) :=
  ⟨fun x => ⟨List.replicate 31 0 ++ [x.foldl (· + ·) 0], rfl⟩, (environment spare).att⟩

-- Both miners have seen the empty ledger; the second block comes too late. Then one more block is
-- mined on the first.
def staleBetween {spare : Fin 2} {k : ℕ} (v : Fin k) (m m' : Fin 2) :
    List (Label (config spare) k) :=
  add 1 ++ add 2 ++ reserve m ++ mineAndSend m ++ reserve m' ++ mineAndSend m' ++ receive v 0 ++
    commit v ++ [.validator v .remove, .validator v (.receive 1 0), .validator v .checkLink] ++
    add 3 ++ reserve m ++ mineAndSend m ++ receive v 2 ++ commit v

end Sample

theorem block_ids_after_stale_block :
    ∃ (s : State (Sample.config 1) 1) (h : Builds (Sample.config 1)), s.ledgerIds = [[1], [3]] ∧
      h.length = 3 ∧ ∀ i : ℕ, i < 2 → ∃ q ∈ h,
        cString (loadBlock (Sample.summing 1).att s.ledger i).txbId.toList =
          blockText (q.1 + 1) i := by
  have hrun : (runAllowed (watch (step (Sample.summing 1)) builds) (watching FromMiners)
      (initState (Sample.config 1) 1, []) (Sample.staleBetween 0 0 1)).any (fun p => decide
        (p.1.ledgerIds = [[1], [3]] ∧ p.2.length = 3 ∧ numBlocks p.1.ledger = 2 ∧
          p.1.committed.length = 2 ∧
          ((ledgerBlocks (Sample.summing 1).att p.1.ledger).map
            (computeSha256 (Sample.summing 1).sha)).Nodup ∧
          ∀ b ∈ ledgerBlocks (Sample.summing 1).att p.1.ledger,
            cString (computeSha256 (Sample.summing 1).sha b).toList ≠ initialHash)) = true := by
    decide +kernel
  obtain ⟨⟨s, h⟩, hs, hend⟩ := (Option.any_eq_true ..).mp hrun
  obtain ⟨hids, hbuilt, hcount, hlen, hnodup, hgenesis⟩ := of_decide_eq_true hend
  have hexact : NoOverflow s := noOverflow_of_length (by
    rw [show s.committed.length = 2 from hlen]
    decide)
  have hfree : CollisionFree (Sample.summing 1).sha
      (ledgerBlocks (Sample.summing 1).att s.ledger) :=
    ⟨fun a ha b hb => List.inj_on_of_nodup_map hnodup ha hb, hgenesis⟩
  refine ⟨s, h, hids, hbuilt, fun i hi => ?_⟩
  obtain ⟨q, hq, -, htext⟩ := (block_ids_are_positions (reachable_of_runAllowed hs) hexact
    hfree).1 i (by rw [show numBlocks s.ledger = 2 from hcount]; exact_mod_cast hi)
  exact ⟨q, hq, htext⟩

end DeiChain
