import DeiChain.Library.Counting
import DeiChain.Library.History
import DeiChain.Provenance
import Mathlib.Tactic.Abel

namespace DeiChain

open ByteLayout ByteMemory Transition Counting

variable {cfg : Config} {k : ℕ} {env : Environment cfg}

def TransactionBlock.rewards (b : TransactionBlock) : ℤ :=
  (b.transactions.map (fun t => t.reward.toInt)).sum

structure StatisticsMessage where
  minerId : Int32
  valid : Bool
  transactionCount : ℤ
  totalRewards : ℤ
deriving DecidableEq

def sendStatistics (minerId : Int32) (valid : Bool) (b : TransactionBlock) : StatisticsMessage :=
  if valid then ⟨minerId, valid, b.transactionsPerBlock.toInt, b.rewards⟩
  else ⟨minerId, valid, 0, 0⟩

structure Statistics (cfg : Config) where
  validBlocks : Fin cfg.numMiners → ℤ
  invalidBlocks : Fin cfg.numMiners → ℤ
  validationCount : Fin cfg.numMiners → ℤ
  credits : Fin cfg.numMiners → ℤ

def minerIdx (cfg : Config) (minerId : Int32) : Option (Fin cfg.numMiners) :=
  let idx := minerId.toInt - 1
  if h : 0 ≤ idx ∧ idx < cfg.numMiners then some ⟨idx.toNat, by omega⟩ else none

def Statistics.process (st : Statistics cfg) (msg : StatisticsMessage) : Statistics cfg :=
  match minerIdx cfg msg.minerId with
  | none => st
  | some i =>
    let st :=
      if msg.valid then
        { st with
          validBlocks := Function.update st.validBlocks i (st.validBlocks i + 1)
          credits := Function.update st.credits i (st.credits i + msg.totalRewards) }
      else
        { st with invalidBlocks := Function.update st.invalidBlocks i (st.invalidBlocks i + 1) }
    { st with validationCount := Function.update st.validationCount i (st.validationCount i + 1) }

def statisticsLoop (cfg : Config) (messages : List StatisticsMessage) : Statistics cfg :=
  messages.foldl Statistics.process ⟨fun _ => 0, fun _ => 0, fun _ => 0, fun _ => 0⟩

theorem minerIdx_eq_some {minerId : Int32} {m : Fin cfg.numMiners} :
    minerIdx cfg minerId = some m ↔ minerId = minerIdOf m := by
  have hlt := m.isLt
  rw [← Int32.toInt_inj, minerIdOf_toInt]
  simp only [minerIdx, Option.dite_none_right_eq_some, Option.some.injEq, Fin.ext_iff]
  constructor
  · rintro ⟨hrange, hval⟩
    omega
  · intro hid
    exact ⟨by omega, by omega⟩

theorem ne_minerIdOf_of_none {minerId : Int32} (h : minerIdx cfg minerId = none)
    (m : Fin cfg.numMiners) : minerId ≠ minerIdOf m := by
  intro hid
  rw [minerIdx_eq_some.mpr hid] at h
  cases h

theorem ne_minerIdOf_of_ne {minerId : Int32} {m i : Fin cfg.numMiners}
    (h : minerIdx cfg minerId = some i) (hne : m ≠ i) : minerId ≠ minerIdOf m := by
  intro hid
  rw [minerIdx_eq_some.mpr hid, Option.some_inj] at h
  exact hne h

def share (m : Fin cfg.numMiners) (amount : StatisticsMessage → ℤ) (msg : StatisticsMessage) : ℤ :=
  if msg.minerId = minerIdOf m then amount msg else 0

def validMessages (messages : List StatisticsMessage) : List StatisticsMessage :=
  messages.filter (·.valid)

theorem process_totals (st : Statistics cfg) (msg : StatisticsMessage) (m : Fin cfg.numMiners) :
    (st.process msg).validBlocks m =
        st.validBlocks m + ((validMessages [msg]).map (share m (fun _ => 1))).sum ∧
      (st.process msg).credits m =
        st.credits m + ((validMessages [msg]).map (share m (·.totalRewards))).sum := by
  have hmsg : validMessages [msg] = if msg.valid then [msg] else [] := by
    cases hv : msg.valid <;> simp [validMessages, hv]
  rw [hmsg]
  unfold Statistics.process
  cases hidx : minerIdx cfg msg.minerId with
  | none =>
    have hne := ne_minerIdOf_of_none hidx m
    cases msg.valid <;> simp [share, hne]
  | some i =>
    have hid := minerIdx_eq_some.mp hidx
    by_cases hm : m = i
    · subst hm
      cases msg.valid <;> simp [share, hid]
    · have hne := ne_minerIdOf_of_ne hidx hm
      cases msg.valid <;> simp [share, hm, hne]

theorem statisticsLoop_totals (messages : List StatisticsMessage) (m : Fin cfg.numMiners) :
    (statisticsLoop cfg messages).validBlocks m =
        ((validMessages messages).map (share m (fun _ => 1))).sum ∧
      (statisticsLoop cfg messages).credits m =
        ((validMessages messages).map (share m (·.totalRewards))).sum := by
  induction messages using List.reverseRecOn with
  | nil => exact ⟨rfl, rfl⟩
  | append_singleton messages msg ih =>
    have hstep : statisticsLoop cfg (messages ++ [msg]) =
        (statisticsLoop cfg messages).process msg := by
      simp [statisticsLoop]
    have hvalid : validMessages (messages ++ [msg]) =
        validMessages messages ++ validMessages [msg] := List.filter_append ..
    obtain ⟨hblocks, hcredits⟩ := process_totals (statisticsLoop cfg messages) msg m
    rw [hstep, hvalid, List.map_append, List.sum_append, List.map_append, List.sum_append,
      ← ih.1, ← ih.2]
    exact ⟨hblocks, hcredits⟩

theorem sum_validBlocks {messages : List StatisticsMessage}
    (h : ∀ msg ∈ validMessages messages, ∃ m : Fin cfg.numMiners, msg.minerId = minerIdOf m) :
    ∑ m, (statisticsLoop cfg messages).validBlocks m = (validMessages messages).length := by
  simp only [statisticsLoop_totals]
  generalize validMessages messages = valid at h ⊢
  induction valid with
  | nil => simp
  | cons msg rest ih =>
    obtain ⟨hmsg, hrest⟩ := List.forall_mem_cons.mp h
    obtain ⟨i, hi⟩ := hmsg
    have hone : ∑ m : Fin cfg.numMiners, share m (fun _ => 1) msg = 1 := by
      have hshare : ∀ m : Fin cfg.numMiners, share m (fun _ => 1) msg = if m = i then 1 else 0 := by
        intro m
        have hiff : msg.minerId = minerIdOf m ↔ m = i := by
          rw [← minerIdx_eq_some, minerIdx_eq_some.mpr hi, Option.some_inj, eq_comm]
        simp only [share, hiff]
      simp [hshare]
    simp only [List.map_cons, List.sum_cons, Finset.sum_add_distrib, hone, ih hrest,
      List.length_cons]
    omega

-- What a validator sends when it ends an iteration; valid is still 1 after a full ledger.
def verdict : ValidatorState cfg → ValidatorState cfg → Option StatisticsMessage
  | .received d, .idle | .linked d _, .idle =>
    some (sendStatistics d.received.minerId false d.received.block)
  | .removing d, .idle | .full d, .idle =>
    some (sendStatistics d.received.minerId true d.received.block)
  | _, _ => none

def appended : ValidatorState cfg → ValidatorState cfg → Option (ReceivedBlock cfg)
  | .appending d _, .removing _ => some d.received
  | _, _ => none

def refused : ValidatorState cfg → ValidatorState cfg → Option (ReceivedBlock cfg)
  | .accepted d _, .full _ => some d.received
  | _, _ => none

def announced (r : Option (ReceivedBlock cfg)) : List (Int32 × TransactionBlock) :=
  (r.map (fun r => (r.minerId, r.block))).toList

-- Everything sent to the queue, and for the blocks appended and refused which miner's they were.
structure Journal where
  messages : List StatisticsMessage
  sources : List Int32
  refusals : List (Int32 × TransactionBlock)

def Journal.empty : Journal := ⟨[], [], []⟩

def Journal.add (j : Journal) (st st' : ValidatorState cfg) : Journal where
  messages := j.messages ++ (verdict st st').toList
  sources := j.sources ++ (announced (appended st st')).map Prod.fst
  refusals := j.refusals ++ announced (refused st st')

def journal (s : State cfg k) (l : Label cfg k) (t : State cfg k) (j : Journal) : Journal :=
  match l with
  | .validator v _ => j.add (s.validators v) (t.validators v)
  | _ => j

def owed : ValidatorState cfg → Multiset StatisticsMessage
  | .removing d | .full d => {sendStatistics d.received.minerId true d.received.block}
  | _ => 0

def entries (s : State cfg k) (j : Journal) : List (Int32 × TransactionBlock) :=
  j.sources.zip s.committed

def announce (p : Int32 × TransactionBlock) : StatisticsMessage := sendStatistics p.1 true p.2

def InRange (cfg : Config) (minerId : Int32) : Prop :=
  ∃ m : Fin cfg.numMiners, minerId = minerIdOf m

def Attributed (_ : State cfg k) : Label cfg k → Prop
  | .validator _ (.deliver r) => InRange cfg r.minerId
  | _ => True

def Fits (s : State cfg k) : Label cfg k → Prop
  | .validator v .testCapacity =>
    match s.validators v with
    | .accepted _ _ => numBlocks s.ledger < cfg.blockchainBlocks
    | _ => True
  | _ => True

instance (s : State cfg k) : ∀ l, Decidable (Attributed s l)
  | .validator _ (.deliver r) =>
    inferInstanceAs (Decidable (∃ m : Fin cfg.numMiners, r.minerId = minerIdOf m))
  | .shared _ | .miner _ _ => isTrue trivial
  | .validator _ (.receive _ _) | .validator _ .checkLink | .validator _ .checkPool
  | .validator _ .checkPoolFails | .validator _ .testCapacity | .validator _ .append
  | .validator _ .remove | .validator _ .restoreRefused => isTrue trivial

structure JournalInvariant (s : State cfg k) (j : Journal) : Prop where
  length : j.sources.length = s.committed.length
  balance : (validMessages j.messages : Multiset StatisticsMessage) +
    ∑ v, owed (s.validators v) = ((entries s j ++ j.refusals).map announce : List _)
  carried : ∀ g p, s.carried g = some p → InRange cfg p.1
  sources : ∀ p ∈ entries s j ++ j.refusals, InRange cfg p.1

theorem journalInvariant_init : JournalInvariant (initState cfg k) .empty where
  length := rfl
  balance := by
    simp [initState, owed, Journal.empty, validMessages, entries]
  carried g p hp := by cases g <;> cases hp
  sources p hp := by cases hp

theorem carried_inRange {s t : State cfg k} {l : Label cfg k} {j : Journal}
    (h : JournalInvariant s j) (hallow : Attributed s l) (hstep : step env s l = some t) :
    ∀ g p, t.carried g = some p → InRange cfg p.1 := by
  intro g p hp
  cases step_carried hstep hp with
  | @carried g' b hold hsame => exact h.carried g' (p.1, b) hold
  | created m _ _ _ _ _ _ heq => exact ⟨m, by rw [heq]⟩
  | delivered v r hl heq =>
    subst hl
    rw [heq]
    exact hallow

theorem ValidatorMove.balance {s : State cfg k} {a : ValidatorAction cfg} {sh : Shared cfg}
    {old st : ValidatorState cfg} (h : ValidatorMove env s.toShared a old sh st) :
    (validMessages (verdict old st).toList : Multiset StatisticsMessage) + owed st =
      owed old +
        ((announced (appended old st) ++ announced (refused old st)).map announce : List _) := by
  cases h <;> simp [verdict, appended, refused, owed, announced, announce, validMessages,
    sendStatistics]

theorem ValidatorMove.committed {s : State cfg k} {a : ValidatorAction cfg} {sh : Shared cfg}
    {old st : ValidatorState cfg} (h : ValidatorMove env s.toShared a old sh st) :
    sh.committed = s.committed ++ (announced (appended old st)).map Prod.snd := by
  cases h with
  | append => rfl
  | _ => exact (List.append_nil _).symm

theorem entries_add {s : State cfg k} {j : Journal} {sh : Shared cfg} {v : Fin k}
    {st : ValidatorState cfg} (hlen : j.sources.length = s.committed.length)
    (hcommitted : sh.committed =
      s.committed ++ (announced (appended (s.validators v) st)).map Prod.snd) :
    entries (s.setValidator sh v st) (j.add (s.validators v) st) =
      entries s j ++ announced (appended (s.validators v) st) := by
  change (j.sources ++ _).zip sh.committed = _
  rw [hcommitted, List.zip_append hlen]
  generalize appended (s.validators v) st = r
  cases r <;> rfl

theorem announced_delivery {old st : ValidatorState cfg} {p : Int32 × TransactionBlock}
    (h : p ∈ announced (appended old st) ++ announced (refused old st)) :
    ∃ d, old.delivery = some d ∧ p = d.pair := by
  cases old <;> cases st <;> simp [announced, appended, refused] at h
  · exact ⟨_, rfl, h⟩
  · exact ⟨_, rfl, h⟩

theorem JournalInvariant.validator {s : State cfg k} {j : Journal} {v : Fin k}
    {a : ValidatorAction cfg} {sh : Shared cfg} {st : ValidatorState cfg}
    (h : JournalInvariant s j) (hallow : Attributed s (.validator v a))
    (hstep : DeiChain.step env s (.validator v a) = some (s.setValidator sh v st))
    (hmove : ValidatorMove env s.toShared a (s.validators v) sh st) :
    JournalInvariant (s.setValidator sh v st) (j.add (s.validators v) st) := by
  have hentries := entries_add h.length hmove.committed
  refine ⟨?_, ?_, carried_inRange h hallow hstep, ?_⟩
  · change (j.sources ++ _).length = sh.committed.length
    rw [hmove.committed]
    simp [h.length]
  · have hsum : ∑ w, owed (Function.update s.validators v st w) + owed (s.validators v) =
        ∑ w, owed (s.validators w) + owed st := sum_update owed s.validators v st
    have hvalid : validMessages (j.add (s.validators v) st).messages =
        validMessages j.messages ++ validMessages (verdict (s.validators v) st).toList :=
      List.filter_append ..
    rw [hentries, hvalid]
    change _ + ∑ w, owed (Function.update s.validators v st w) =
      ((entries s j ++ _ ++ (j.refusals ++ _)).map announce : List _)
    refine add_right_cancel (b := owed (s.validators v)) ?_
    calc _ = (validMessages j.messages + ∑ w, owed (s.validators w)) +
          (validMessages (verdict (s.validators v) st).toList + owed st) := by
          rw [add_assoc, hsum, ← Multiset.coe_add]
          exact add_add_add_comm _ _ _ _
      _ = _ := by
          rw [h.balance, hmove.balance]
          simp only [List.map_append, ← Multiset.coe_add]
          abel
  · intro p hp
    rw [hentries] at hp
    have hor : p ∈ entries s j ++ j.refusals ∨
        p ∈ announced (appended (s.validators v) st) ++
          announced (refused (s.validators v) st) := by
      simp only [Journal.add, List.mem_append] at hp ⊢
      tauto
    rcases hor with hold | hnew
    · exact h.sources p hold
    · obtain ⟨d, hd, rfl⟩ := announced_delivery hnew
      exact h.carried (.validator v) _ (by rw [State.carried, hd, Option.map_some])

theorem JournalInvariant.step {s t : State cfg k} {l : Label cfg k} {j : Journal}
    (h : JournalInvariant s j) (hallow : Attributed s l) (hstep : step env s l = some t) :
    JournalInvariant t (journal s l t j) := by
  rcases step_cases hstep with ⟨a, sh, rfl, hmove, rfl⟩ | ⟨m, a, sh, st, rfl, hmove, rfl⟩ |
    ⟨v, a, sh, st, rfl, hmove, rfl⟩
  · have hentries : entries (s.setShared sh) j = entries s j :=
      congrArg (j.sources.zip) hmove.ledger.2
    exact ⟨h.length.trans (congrArg List.length hmove.ledger.2.symm), hentries ▸ h.balance,
      carried_inRange h hallow hstep, hentries ▸ h.sources⟩
  · have hentries : entries (s.setMiner sh m st) j = entries s j :=
      congrArg (j.sources.zip) hmove.ledger.2
    exact ⟨h.length.trans (congrArg List.length hmove.ledger.2.symm), hentries ▸ h.balance,
      carried_inRange h hallow hstep, hentries ▸ h.sources⟩
  · have hnext : journal s (.validator v a) (s.setValidator sh v st) j =
        j.add (s.validators v) st := by
      simp only [journal, State.setValidator_validators, Function.update_self]
    rw [hnext]
    exact h.validator hallow hstep hmove

theorem fits_iff {s : State cfg k} {v : Fin k} {a : ValidatorAction cfg} {sh : Shared cfg}
    {st : ValidatorState cfg} (h : ValidatorMove env s.toShared a (s.validators v) sh st) :
    announced (refused (s.validators v) st) = [] ↔ Fits s (.validator v a) := by
  generalize hst : s.validators v = old at h
  cases h with
  | refuse hfull =>
    simp only [Fits, hst]
    exact iff_of_false (by simp [announced, refused]) (not_lt.mpr hfull)
  | fits hroom =>
    simp only [Fits, hst]
    exact iff_of_true rfl hroom
  | _ => exact iff_of_true rfl trivial

theorem refusals_step {s t : State cfg k} {l : Label cfg k} (j : Journal)
    (h : step env s l = some t) :
    (journal s l t j).refusals = [] ↔ j.refusals = [] ∧ Fits s l := by
  rcases step_cases h with ⟨a, sh, rfl, -, rfl⟩ | ⟨m, a, sh, st, rfl, -, rfl⟩ |
    ⟨v, a, sh, st, rfl, hmove, rfl⟩
  · exact (and_iff_left trivial).symm
  · exact (and_iff_left trivial).symm
  · rw [← fits_iff hmove, ← List.append_eq_nil_iff]
    simp only [journal, Journal.add, State.setValidator_validators, Function.update_self]

structure Reconciled (env : Environment cfg) (s : State cfg k) (j : Journal) : Prop where
  blocks : ∑ m, (statisticsLoop cfg j.messages).validBlocks m = numBlocks s.ledger
  credits : ∀ m : Fin cfg.numMiners, (statisticsLoop cfg j.messages).credits m =
    (((j.sources.zip (ledgerBlocks env.att s.ledger)).filter (·.1 = minerIdOf m)).map
      (·.2.rewards)).sum

instance (s : State cfg k) (j : Journal) : Decidable (Reconciled env s j) :=
  decidable_of_iff
    (∑ m, (statisticsLoop cfg j.messages).validBlocks m = numBlocks s.ledger ∧
      ∀ m : Fin cfg.numMiners, (statisticsLoop cfg j.messages).credits m =
        (((j.sources.zip (ledgerBlocks env.att s.ledger)).filter (·.1 = minerIdOf m)).map
          (·.2.rewards)).sum)
    ⟨fun h => ⟨h.1, h.2⟩, fun h => ⟨h.blocks, h.credits⟩⟩

theorem JournalInvariant.settled {s : State cfg k} {j : Journal} (h : JournalInvariant s j)
    (hidle : ∀ v, s.validators v = .idle) :
    (validMessages j.messages).Perm ((entries s j ++ j.refusals).map announce) := by
  have hnone : ∑ v, owed (s.validators v) = 0 :=
    Finset.sum_eq_zero (fun v _ => by rw [hidle v]; rfl)
  have hbalance := h.balance
  rw [hnone, add_zero] at hbalance
  exact Multiset.coe_eq_coe.mp hbalance

theorem share_announce (m : Fin cfg.numMiners) (l : List (Int32 × TransactionBlock)) :
    ((l.map announce).map (share m (·.totalRewards))).sum =
      ((l.filter (·.1 = minerIdOf m)).map (·.2.rewards)).sum := by
  have hshare : ∀ p : Int32 × TransactionBlock, share m (·.totalRewards) (announce p) =
      if p.1 = minerIdOf m then p.2.rewards else 0 := fun _ => rfl
  simp [List.map_map, Function.comp_def, hshare, List.sum_map_ite]

theorem reconciled_iff {s : State cfg k} {j : Journal} (h : JournalInvariant s j)
    (hrep : Represents env.att s.ledger s.committed) (hidle : ∀ v, s.validators v = .idle) :
    Reconciled env s j ↔ j.refusals = [] := by
  have hperm := h.settled hidle
  have htotal : ∑ m, (statisticsLoop cfg j.messages).validBlocks m =
      (s.committed.length + j.refusals.length : ℕ) := by
    rw [sum_validBlocks, hperm.length_eq]
    · simp [entries, h.length]
    · intro msg hmsg
      obtain ⟨p, hp, rfl⟩ := List.mem_map.mp (hperm.subset hmsg)
      exact h.sources p hp
  constructor
  · intro hrec
    have hblocks := hrec.blocks
    rw [htotal, hrep.count] at hblocks
    exact List.length_eq_zero_iff.mp (by omega)
  · intro hnone
    refine ⟨?_, fun m => ?_⟩
    · rw [htotal, hrep.count, hnone]
      rfl
    · rw [(statisticsLoop_totals _ m).2, (hperm.map _).sum_eq, hnone, List.append_nil,
        share_announce, hrep.ledgerBlocks_eq]
      rfl

theorem journalInvariant_of_reachable {s : State cfg k} {j : Journal}
    (h : Reachable (watch (step env) journal) (watching Attributed)
      (initState cfg k, .empty) (s, j)) : JournalInvariant s j := by
  refine h.invariant (I := fun p => JournalInvariant p.1 p.2) journalInvariant_init ?_
  intro a l b ha hallow hstep
  obtain ⟨hs, hj⟩ := watch_eq_some hstep
  exact hj ▸ ha.step hallow hs

theorem statistics_reconcile {s : State cfg 1} {j : Journal}
    (h : Reachable (watch (step env) journal) (watching Attributed)
      (initState cfg 1, .empty) (s, j))
    (hexact : NoOverflow s) (hidle : ∀ v, s.validators v = .idle) :
    Reconciled env s j ↔ Reachable (watch (step env) journal)
      (watching (fun s l => Attributed s l ∧ Fits s l)) (initState cfg 1, .empty) (s, j) := by
  have hreach : Reachable (step env) always (initState cfg 1) s :=
    h.forget.mono (fun _ _ _ => trivial)
  have hrep := (singleInvariant_of_noOverflow hreach hexact).chain.represents
  rw [reconciled_iff (journalInvariant_of_reachable h) hrep hidle]
  constructor
  · refine h.invariant (I := fun p => p.2.refusals = [] → Reachable (watch (step env) journal)
      (watching (fun s l => Attributed s l ∧ Fits s l)) (initState cfg 1, .empty) p)
      (fun _ => .refl _) ?_
    intro a l b ha hallow hstep hnone
    obtain ⟨hs, hj⟩ := watch_eq_some hstep
    rw [hj, refusals_step a.2 hs] at hnone
    exact (ha hnone.1).tail ⟨hallow, hnone.2⟩ hstep
  · intro hfits
    refine hfits.invariant (I := fun p => p.2.refusals = []) rfl ?_
    intro a l b ha hallow hstep
    obtain ⟨hs, hj⟩ := watch_eq_some hstep
    rw [hj, refusals_step a.2 hs]
    exact ⟨ha, hallow.2⟩

def settled (s : State cfg 1) : Bool := (s.validators 0).delivery.isNone

theorem idle_of_settled {s : State cfg 1} (h : settled s = true) (v : Fin 1) :
    s.validators v = .idle := by
  rw [Subsingleton.elim v 0]
  unfold settled at h
  cases hst : s.validators 0 <;> rw [hst] at h <;> first | rfl | cases h

namespace Sample

variable {spare : Fin 2}

def insertOne (v : Fin k) : List (Label (config spare) k) :=
  validate v 1 ++ commit v ++ [.validator v .remove]

def refuseNext (v : Fin k) : List (Label (config spare) k) :=
  [.shared (.add (transaction 2)), .validator v (.deliver (replayReceived 2)),
    .validator v .checkLink, .validator v .checkPool, .validator v .testCapacity,
    .validator v .restoreRefused]

end Sample

theorem statistics_reconcile_run :
    ∃ (s : State (Sample.config 0) 1) (j : Journal), numBlocks s.ledger = 1 ∧
      Reconciled (Sample.environment 0) s j ∧
      Reachable (watch (step (Sample.environment 0)) journal)
        (watching (fun s l => Attributed s l ∧ Fits s l)) (initState _ 1, .empty) (s, j) := by
  have hrun : (runAllowed (watch (step (Sample.environment 0)) journal) (watching Attributed)
      (initState _ 1, Journal.empty) (Sample.insertOne 0)).any (fun p =>
        settled p.1 && decide (p.1.committed.length = 1 ∧ numBlocks p.1.ledger = 1 ∧
          Reconciled (Sample.environment 0) p.1 p.2)) = true := by
    decide +kernel
  obtain ⟨⟨s, j⟩, hs, hend⟩ := (Option.any_eq_true ..).mp hrun
  obtain ⟨hidle, hend⟩ := Bool.and_eq_true_iff.mp hend
  obtain ⟨hlen, hcount, hrec⟩ := of_decide_eq_true hend
  have hexact : NoOverflow s := by
    refine noOverflow_of_length ?_
    rw [show s.committed.length = 1 from hlen]
    decide
  exact ⟨s, j, hcount, hrec, (statistics_reconcile (reachable_of_runAllowed hs) hexact
    (idle_of_settled hidle)).mp hrec⟩

-- The refused block is counted as valid and its miner credited.
theorem statistics_exceed_ledger :
    ∃ (s : State (Sample.config 0) 1) (j : Journal),
      Reachable (watch (step (Sample.environment 0)) journal) (watching Attributed)
        (initState _ 1, .empty) (s, j) ∧
      (∀ v, s.validators v = .idle) ∧ numBlocks s.ledger = 1 ∧
      ∑ m, (statisticsLoop (Sample.config 0) j.messages).validBlocks m = 2 ∧
      ¬ Reconciled (Sample.environment 0) s j := by
  have hrun : (runAllowed (watch (step (Sample.environment 0)) journal) (watching Attributed)
      (initState _ 1, Journal.empty) (Sample.insertOne 0 ++ Sample.refuseNext 0)).any (fun p =>
        settled p.1 && decide (numBlocks p.1.ledger = 1 ∧
          ∑ m, (statisticsLoop (Sample.config 0) p.2.messages).validBlocks m = 2 ∧
          ¬ Reconciled (Sample.environment 0) p.1 p.2)) = true := by
    decide +kernel
  obtain ⟨⟨s, j⟩, hs, hend⟩ := (Option.any_eq_true ..).mp hrun
  obtain ⟨hidle, hend⟩ := Bool.and_eq_true_iff.mp hend
  obtain ⟨hcount, hvalid, hnot⟩ := of_decide_eq_true hend
  exact ⟨s, j, reachable_of_runAllowed hs, idle_of_settled hidle, hcount, hvalid, hnot⟩

end DeiChain
