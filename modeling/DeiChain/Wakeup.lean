import DeiChain.Library.Counting
import DeiChain.ExactlyOnce
import Mathlib.Tactic.FinCases

namespace DeiChain

open ByteLayout Transition Counting

variable {cfg : Config} {k : ℕ} {env : Environment cfg}

def MinerState.awake : MinerState cfg → Bool
  | .woken => true
  | .snapshot _ _ => true
  | _ => false

def awakeCount (s : State cfg k) : ℕ := count MinerState.awake s.miners

-- The selection attempts still to come: tokens, posts on their way, and miners awake.
def outstanding (s : State cfg k) : ℕ :=
  s.pool.workNotificationSem + s.pendingPosts + awakeCount s

-- A step that puts transactions back, or gives up a selection for lack of memory, leaves fewer
-- than a block's worth beyond what the outstanding attempts will look at. No such step posts.
def Signalled (s : State cfg k) : Label cfg k → Prop
  | .miner m .rollback => ∀ reserved, s.miners m = .rollback reserved →
      available (release (reserved.map Prod.fst) s.pool.slots) <
        outstanding s + cfg.transactionsPerBlock
  | .miner m .restore => ∀ reserved, s.miners m = .restoring reserved →
      available (restoreLoop (reserved.toList.map Prod.snd) s.pool.slots) <
        outstanding s + cfg.transactionsPerBlock
  | .miner m .selectFails => (s.miners m).awake = true →
      available s.pool.slots + 1 < outstanding s + cfg.transactionsPerBlock
  | .validator v .checkPool => ∀ d tip, s.validators v = .linked d tip →
      available (poolSection d.received.block.transactions s.pool.slots).2 <
        outstanding s + cfg.transactionsPerBlock
  | .validator v .restoreRefused => ∀ d, s.validators v = .full d →
      available (restoreRefused d.received s.pool).slots <
        outstanding s + cfg.transactionsPerBlock
  | _ => True

def signalled (s : State cfg k) : Label cfg k → Bool
  | .miner m .rollback =>
    match s.miners m with
    | .rollback reserved => available (release (reserved.map Prod.fst) s.pool.slots) <
        outstanding s + cfg.transactionsPerBlock
    | _ => true
  | .miner m .restore =>
    match s.miners m with
    | .restoring reserved => available (restoreLoop (reserved.toList.map Prod.snd) s.pool.slots) <
        outstanding s + cfg.transactionsPerBlock
    | _ => true
  | .miner m .selectFails => (s.miners m).awake = true →
      available s.pool.slots + 1 < outstanding s + cfg.transactionsPerBlock
  | .validator v .checkPool =>
    match s.validators v with
    | .linked d _ => available (poolSection d.received.block.transactions s.pool.slots).2 <
        outstanding s + cfg.transactionsPerBlock
    | _ => true
  | .validator v .restoreRefused =>
    match s.validators v with
    | .full d => available (restoreRefused d.received s.pool).slots <
        outstanding s + cfg.transactionsPerBlock
    | _ => true
  | _ => true

theorem signalled_sound {s : State cfg k} {l : Label cfg k} (h : signalled s l = true) :
    Signalled s l := by
  cases l with
  | shared a => trivial
  | miner m a =>
    cases a with
    | rollback =>
      intro reserved hst
      simpa [signalled, hst] using h
    | restore =>
      intro reserved hst
      simpa [signalled, hst] using h
    | selectFails => exact fun hawake => of_decide_eq_true h hawake
    | _ => trivial
  | validator v a =>
    cases a with
    | checkPool =>
      intro d tip hst
      simpa [signalled, hst] using h
    | restoreRefused =>
      intro d hst
      simpa [signalled, hst] using h
    | _ => trivial

def Covered (s : State cfg k) : Prop :=
  s.shouldTerminate = false → available s.pool.slots < outstanding s + cfg.transactionsPerBlock

theorem covered_init : Covered (initState cfg k) := by
  intro _
  have hnone : available (initState cfg k).pool.slots = 0 := by
    rw [available_eq_count]
    exact count_eq_zero.mpr (fun _ => rfl)
  have hpos := cfg.transactionsPerBlock_pos
  omega

theorem Covered.shared {s : State cfg k} (h : Covered s) {a : SharedAction} {sh : Shared cfg}
    (hmove : SharedMove s.toShared a sh) : Covered (s.setShared sh) := by
  intro hterm
  have hawake : awakeCount (s.setShared sh) = awakeCount s := rfl
  rw [outstanding, hawake]
  cases hmove with
  | @add tx position pool hpos hpool =>
    have hold := h hterm
    have hslots : pool.slots = Function.update s.pool.slots position ⟨tx, false, 0⟩ := by
      rw [← hpool, insertAt_slots]
    have hsem : pool.workNotificationSem = s.pool.workNotificationSem := by
      rw [← hpool, insertAt_sem]
    have hone := available_insert hpos.empty tx
    rw [← hslots] at hone
    change available pool.slots < pool.workNotificationSem + (s.pendingPosts + 1) + _ + _
    rw [outstanding] at hold
    omega
  | addFails tx => exact h hterm
  | post hpending =>
    have hold := h hterm
    rw [outstanding] at hold
    change available s.pool.slots < s.pool.workNotificationSem + 1 + (s.pendingPosts - 1) + _ + _
    omega
  | terminate => cases hterm
  | mainPost hflag =>
    change s.shouldTerminate = false at hterm
    rw [hterm] at hflag
    cases hflag
  | lose i => exact h hterm
  | age =>
    have hold := h hterm
    have hle : available (ageSection s.pool.slots) ≤ available s.pool.slots :=
      available_mono (fun i hi => (ageEntry_empty _).symm.trans hi)
    exact lt_of_le_of_lt hle hold

theorem covered_setMiner {s : State cfg k} {m : Fin cfg.numMiners} {sh : Shared cfg}
    {old st : MinerState cfg} (hst : s.miners m = old)
    (hbound : sh.shouldTerminate = false → available sh.pool.slots + old.awake.toNat <
      sh.pool.workNotificationSem + sh.pendingPosts + awakeCount s + st.awake.toNat +
        cfg.transactionsPerBlock) : Covered (s.setMiner sh m st) := by
  intro hterm
  have hawake : awakeCount (s.setMiner sh m st) + old.awake.toNat =
      awakeCount s + st.awake.toNat := hst ▸ count_update
  have hlt := hbound hterm
  change available sh.pool.slots < sh.pool.workNotificationSem + sh.pendingPosts +
    awakeCount (s.setMiner sh m st) + cfg.transactionsPerBlock
  omega

theorem Covered.miner {s : State cfg k} (h : Covered s) {m : Fin cfg.numMiners} {a : MinerAction}
    {sh : Shared cfg} {st : MinerState cfg} {minerId : ℕ}
    (hmove : MinerMove env minerId s.toShared a (s.miners m) sh st)
    (hallow : Signalled s (.miner m a)) : Covered (s.setMiner sh m st) := by
  generalize hst : s.miners m = old at hmove
  refine covered_setMiner hst (fun hterm => ?_)
  unfold Covered outstanding at h
  cases hmove with
  | wait hpos =>
    have hold := h hterm
    change available s.pool.slots + 0 < s.pool.workNotificationSem - 1 + s.pendingPosts + _ + 1 + _
    omega
  | selectNone hroom =>
    have hawake : 0 < awakeCount s := count_pos (i := m) (by rw [hst]; rfl)
    change available s.pool.slots + 1 < _ + _ + _ + 0 + _
    omega
  | @select previousHash blockId slots reserved hroom hsel =>
    have hold := h hterm
    have hafter := available_after_select (selects_of_section hsel)
    have hpos := cfg.transactionsPerBlock_pos
    rw [reserved.toList_length] at hafter
    change available slots + 1 < s.pool.workNotificationSem + s.pendingPosts + _ + 0 + _
    omega
  | @selectShort previousHash blockId slots reserved hroom hsel hshort =>
    -- Even a selection cut short by duplicates takes at least one transaction.
    have hold := h hterm
    have hafter := available_after_select (selects_of_section hsel)
    have hsome : 0 < reserved.length := by
      have hpos := cfg.transactionsPerBlock_pos
      obtain ⟨i, hi⟩ := Finset.card_pos.mp (hpos.trans_le hroom)
      have hne := selectLoop_ne_nil hpos ⟨i, List.mem_finRange i, mem_availableSlots.mp hi⟩
      rw [hsel] at hne
      exact List.length_pos_iff.mpr hne
    change available slots + 1 < s.pool.workNotificationSem + s.pendingPosts + _ + 0 + _
    omega
  | selectFails => exact hallow (by rw [hst]; rfl)
  | rollback => exact hallow _ hst
  | restore => exact hallow _ hst
  | quit hflag => exact absurd (hterm.symm.trans hflag) Bool.false_ne_true
  | _ =>
    have hold := h hterm
    change available s.pool.slots + _ < s.pool.workNotificationSem + s.pendingPosts + _ + _ + _
    simp only [MinerState.awake, Bool.toNat_true, Bool.toNat_false]
    omega

theorem Covered.validator {s : State cfg k} (h : Covered s) {v : Fin k} {a : ValidatorAction cfg}
    {sh : Shared cfg} {st : ValidatorState cfg}
    (hmove : ValidatorMove env s.toShared a (s.validators v) sh st)
    (hallow : Signalled s (.validator v a)) : Covered (s.setValidator sh v st) := by
  intro hterm
  have hawake : awakeCount (s.setValidator sh v st) = awakeCount s := rfl
  rw [outstanding, hawake]
  generalize hst : s.validators v = old at hmove
  cases hmove with
  | reject hall => exact hallow _ _ hst
  | @remove d pool hpool =>
    have hold := h hterm
    have hsem : pool.workNotificationSem = s.pool.workNotificationSem := by
      rw [← hpool, removeTransactionsFromPool_sem]
    have hle : available pool.slots ≤ available s.pool.slots := by
      refine available_mono (fun i hi => ?_)
      rw [← hpool, removeTransactionsFromPool_apply] at hi
      split at hi
      · cases hi
      · exact hi
    change available pool.slots < pool.workNotificationSem + s.pendingPosts + _ + _
    rw [hsem]
    exact lt_of_le_of_lt hle hold
  | @restoreRefused d pool hpool =>
    have hbound := hallow _ hst
    have hsem : pool.workNotificationSem = s.pool.workNotificationSem := by
      rw [← hpool, restoreRefused_sem]
    change available pool.slots < pool.workNotificationSem + s.pendingPosts + _ + _
    rw [hsem, ← hpool]
    exact hbound
  | _ => exact h hterm

theorem Covered.step {s t : State cfg k} {l : Label cfg k} (h : Covered s)
    (hallow : Signalled s l) (hstep : step env s l = some t) : Covered t := by
  rcases step_cases hstep with ⟨a, sh, rfl, hmove, rfl⟩ | ⟨m, a, sh, st, rfl, hmove, rfl⟩ |
    ⟨v, a, sh, st, rfl, hmove, rfl⟩
  · exact h.shared hmove
  · exact h.miner hmove hallow
  · exact h.validator hmove hallow

theorem no_lost_wakeup {s : State cfg k}
    (h : Reachable (step env) Signalled (initState cfg k) s) (hterm : s.shouldTerminate = false)
    (hblocked : ∀ m, s.miners m = .waiting) (hsem : s.pool.workNotificationSem = 0)
    (hposted : s.pendingPosts = 0) : available s.pool.slots < cfg.transactionsPerBlock := by
  have hcovered : Covered s :=
    h.invariant covered_init (fun _ _ _ ha hallow hstep => ha.step hallow hstep)
  have hnone : awakeCount s = 0 := count_eq_zero.mpr (fun m => by rw [hblocked m]; rfl)
  have hbound := hcovered hterm
  rw [outstanding, hsem, hposted, hnone] at hbound
  omega

-- A stranger's block spends the transaction of the first token. So there is one left when miner 0
-- returns transaction 2, and miner 1 takes it.
theorem no_lost_wakeup_returned :
    ∃ s : State (Sample.config 1) 1, s.held (.pipe 0) = [[2]] ∧
      available s.pool.slots < (Sample.config 1).transactionsPerBlock := by
  let labels : List (Label (Sample.config 1) 1) :=
    Sample.validate 0 1 ++ Sample.commit 0 ++ [.validator 0 .remove, .shared .post] ++
      Sample.add 2 ++ Sample.reserve 0 ++
      [.miner 0 (.create 0), .miner 0 (.mine 0), .miner 0 .sendFails, .miner 0 .restore] ++
      Sample.reserve 1 ++ Sample.mineAndSend 1
  have hsome : (runAllowed (step (Sample.environment 1)) (fun s l => signalled s l = true)
      (initState _ 1) labels).isSome = true := by decide +kernel
  obtain ⟨s, hrun⟩ := Option.isSome_iff_exists.mp hsome
  have hstate : (runAllowed (step (Sample.environment 1)) (fun s l => signalled s l = true)
      (initState _ 1) labels).map (fun s => (s.held (.pipe 0), s.shouldTerminate,
        s.pool.workNotificationSem, s.pendingPosts)) = some ([[2]], false, 0, 0) := by
    decide +kernel
  have hminers : ∀ m : Fin 2, (runAllowed (step (Sample.environment 1))
      (fun s l => signalled s l = true) (initState _ 1) labels).map (fun s => s.miners m) =
        some .waiting := by
    intro m
    fin_cases m <;> rfl
  simp only [hrun, Option.map_some, Option.some_inj, Prod.mk.injEq] at hstate hminers
  obtain ⟨hsent, hterm, hsem, hposted⟩ := hstate
  exact ⟨s, hsent, no_lost_wakeup ((reachable_of_runAllowed hrun).mono
    (fun _ _ => signalled_sound)) hterm hminers hsem hposted⟩

theorem wakeup_lost_by_restore :
    ∃ s : State (Sample.config 1) 1,
      Reachable (step (Sample.environment 1)) Honest (initState _ 1) s ∧
        s.shouldTerminate = false ∧ (∀ m, s.miners m = .waiting) ∧
        s.pool.workNotificationSem = 0 ∧ s.pendingPosts = 0 ∧
        ¬ available s.pool.slots < (Sample.config 1).transactionsPerBlock := by
  let labels : List (Label (Sample.config 1) 1) :=
    Sample.add 1 ++ Sample.reserve 0 ++
      [.miner 0 (.create 0), .miner 0 (.mine 0), .miner 0 .sendFails, .miner 0 .restore]
  have hsome : (runAllowed (step (Sample.environment 1)) Honest (initState _ 1) labels).isSome =
      true := by decide +kernel
  obtain ⟨s, hrun⟩ := Option.isSome_iff_exists.mp hsome
  have hstate : (runAllowed (step (Sample.environment 1)) Honest (initState _ 1) labels).map
      (fun s => (s.shouldTerminate, s.pool.workNotificationSem, s.pendingPosts,
        available s.pool.slots)) = some (false, 0, 0, 1) := by decide +kernel
  have hminers : ∀ m : Fin 2, (runAllowed (step (Sample.environment 1)) Honest (initState _ 1)
      labels).map (fun s => s.miners m) = some .waiting := by
    intro m
    fin_cases m <;> rfl
  simp only [hrun, Option.map_some, Option.some_inj, Prod.mk.injEq] at hstate hminers
  obtain ⟨hterm, hsem, hposted, havailable⟩ := hstate
  refine ⟨s, reachable_of_runAllowed hrun, hterm, hminers, hsem, hposted, ?_⟩
  rw [havailable]
  decide

end DeiChain
