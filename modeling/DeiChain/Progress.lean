import DeiChain.Library.Potential
import DeiChain.Losses
import DeiChain.MinerShutdown

namespace DeiChain

open ByteLayout Transition Counting

variable {cfg : Config} {k : ℕ} {env : Environment cfg}

-- The steps a thread has before it until it waits again, and those its block still gives to a
-- validator; a thread that waits may end.
def MinerState.work : MinerState cfg → ℕ
  | .exited => 0
  | .waiting => 1
  | .rollback _ => 2
  | .restoring _ => 2
  | .mined _ => 8
  | .created _ => 9
  | .selected _ _ _ => 10
  | .snapshot _ _ => 11
  | .woken => 12

def ValidatorState.work : ValidatorState cfg → ℕ
  | .idle => 0
  | .removing _ => 1
  | .full _ => 1
  | .appending _ _ => 2
  | .accepted _ _ => 3
  | .linked _ _ => 4
  | .received _ => 5

def frames (sh : Shared cfg) : ℕ :=
  ((Finset.range sh.sent).filter (fun i => (sh.pipe i).isSome)).card

def Shared.work (sh : Shared cfg) : ℕ :=
  12 * sh.pool.workNotificationSem + 13 * sh.pendingPosts + 6 * frames sh

def State.work (s : State cfg k) : ℕ :=
  s.toShared.work + ∑ m, (s.miners m).work + ∑ v, (s.validators v).work

namespace Label

-- The steps that handle a token, a transaction or a block: all steps of the miners, those of a
-- validator from a frame on, and the second half of an accepted insertion. The sweeps, wake-ups
-- and reads at end of file in the loop of validator_main handle nothing and never end.
def handles : Label cfg k → Bool
  | .shared .post => true
  | .shared _ => false
  | .miner _ _ => true
  | .validator _ (.deliver _) => false
  | .validator _ _ => true

-- What comes in from outside: transactions, posts on termination, blocks of strangers.
def charge : Label cfg k → ℕ
  | .shared (.add _) => 13
  | .shared .mainPost => 12
  | .validator _ (.deliver _) => 5
  | _ => 0

end Label

theorem frames_push (sh : Shared cfg) (msg : Message cfg) :
    frames (sh.push msg) = frames sh + 1 := by
  have hold : (Finset.range sh.sent).filter (fun i => ((sh.push msg).pipe i).isSome) =
      (Finset.range sh.sent).filter (fun i => (sh.pipe i).isSome) := by
    refine Finset.filter_congr (fun i hi => ?_)
    have hne : i ≠ sh.sent := (Finset.mem_range.mp hi).ne
    change (Function.update sh.pipe sh.sent (some msg) i).isSome = true ↔ _
    rw [Function.update_of_ne hne]
  have hnew : ((sh.push msg).pipe sh.sent).isSome = true := by
    change (Function.update sh.pipe sh.sent (some msg) sh.sent).isSome = true
    rw [Function.update_self]
    rfl
  change ((Finset.range (sh.sent + 1)).filter _).card = _
  rw [Finset.range_add_one, Finset.filter_insert, if_pos hnew, hold,
    Finset.card_insert_of_notMem (by simp)]
  rfl

theorem frames_pop (sh : Shared cfg) (i : ℕ) : (frames (sh.pop i) ≤ frames sh) ∧
    ((∀ j, sh.sent ≤ j → sh.pipe j = none) → (sh.pipe i).isSome →
      frames (sh.pop i) + 1 = frames sh) := by
  have herase : (Finset.range sh.sent).filter (fun j => ((sh.pop i).pipe j).isSome) =
      ((Finset.range sh.sent).filter (fun j => (sh.pipe j).isSome)).erase i := by
    ext j
    rw [Finset.mem_filter, Finset.mem_erase, Finset.mem_filter, Shared.pop]
    by_cases hj : j = i
    · simp [hj]
    · simp [hj]
  change (Finset.card (Finset.filter _ (Finset.range sh.sent)) ≤ _) ∧ (_ → _ →
    Finset.card (Finset.filter _ (Finset.range sh.sent)) + 1 = _)
  rw [herase]
  refine ⟨Finset.card_erase_le, fun hfresh hsome => ?_⟩
  refine Finset.card_erase_add_one (Finset.mem_filter.mpr ⟨Finset.mem_range.mpr ?_, hsome⟩)
  by_contra hsent
  rw [hfresh i (by omega)] at hsome
  cases hsome

theorem work_shared {sh sh' : Shared cfg} {a : SharedAction} (h : SharedMove sh a sh') :
    sh'.work + (Label.handles (.shared a : Label cfg k)).toNat ≤
      sh.work + (Label.charge (.shared a : Label cfg k)) := by
  cases h with
  | @add tx position pool hpos hpool =>
    have hsem : pool.workNotificationSem = sh.pool.workNotificationSem := by
      rw [← hpool, insertAt_sem]
    change 12 * pool.workNotificationSem + 13 * (sh.pendingPosts + 1) + 6 * frames sh + 0 ≤
      12 * sh.pool.workNotificationSem + 13 * sh.pendingPosts + 6 * frames sh + 13
    omega
  | addFails tx => exact Nat.le_add_right _ _
  | post hpending =>
    change 12 * (sh.pool.workNotificationSem + 1) + 13 * (sh.pendingPosts - 1) + 6 * frames sh + 1 ≤
      12 * sh.pool.workNotificationSem + 13 * sh.pendingPosts + 6 * frames sh + 0
    omega
  | terminate => exact Nat.le_refl _
  | mainPost hflag =>
    change 12 * (sh.pool.workNotificationSem + 1) + 13 * sh.pendingPosts + 6 * frames sh + 0 ≤
      12 * sh.pool.workNotificationSem + 13 * sh.pendingPosts + 6 * frames sh + 12
    omega
  | lose i =>
    have hless := (frames_pop sh i).1
    change 12 * sh.pool.workNotificationSem + 13 * sh.pendingPosts + 6 * frames (sh.pop i) + 0 ≤
      12 * sh.pool.workNotificationSem + 13 * sh.pendingPosts + 6 * frames sh + 0
    omega
  | age => exact Nat.le_refl _

theorem minerStep_exited {sh sh' : Shared cfg} {st' : MinerState cfg} {a : MinerAction}
    {minerId : ℕ} : minerStep env minerId sh .exited a ≠ some (sh', st') := by
  cases a <;> exact fun h => by cases h

theorem work_miner {sh sh' : Shared cfg} {st st' : MinerState cfg} {a : MinerAction}
    {minerId : ℕ} (hlive : st ≠ .exited) (h : MinerMove env minerId sh a st sh' st') :
    sh'.work + st'.work + 1 ≤ sh.work + st.work := by
  cases h with
  | wait hpos =>
    change 12 * (sh.pool.workNotificationSem - 1) + 13 * sh.pendingPosts + 6 * frames sh + 12 + 1 ≤
      12 * sh.pool.workNotificationSem + 13 * sh.pendingPosts + 6 * frames sh + 1
    omega
  | @send b =>
    change 12 * sh.pool.workNotificationSem + 13 * sh.pendingPosts +
        6 * frames (sh.push ⟨Int32.ofNat minerId, b⟩) + 1 + 1 ≤
      12 * sh.pool.workNotificationSem + 13 * sh.pendingPosts + 6 * frames sh + 8
    rw [frames_push]
    omega
  | quit hflag =>
    have hpos : 0 < st.work := by
      cases st <;> first | exact Nat.succ_pos _ | exact absurd rfl hlive
    change sh.work + 0 + 1 ≤ _
    omega
  | _ =>
    exact (Nat.add_assoc sh.work _ 1).trans_le
      (Nat.add_le_add_left (Nat.le_of_ble_eq_true rfl) sh.work)

theorem work_validator {sh sh' : Shared cfg} {st st' : ValidatorState cfg}
    {a : ValidatorAction cfg} {v : Fin k} (hfresh : ∀ i, sh.sent ≤ i → sh.pipe i = none)
    (h : ValidatorMove env sh a st sh' st') :
    sh'.work + st'.work + (Label.handles (.validator v a)).toNat ≤
      sh.work + st.work + Label.charge (.validator v a) := by
  cases h with
  | @receive i heapPtr msg hmsg =>
    have hless := (frames_pop sh i).2 hfresh (by rw [hmsg]; rfl)
    change 12 * sh.pool.workNotificationSem + 13 * sh.pendingPosts + 6 * frames (sh.pop i) + 5 + 1 ≤
      12 * sh.pool.workNotificationSem + 13 * sh.pendingPosts + 6 * frames sh + 0 + 0
    omega
  | @remove d pool hpool =>
    have hsem : pool.workNotificationSem = sh.pool.workNotificationSem :=
      hpool ▸ removeTransactionsFromPool_sem _ _
    change 12 * pool.workNotificationSem + 13 * sh.pendingPosts + 6 * frames sh + 0 + 1 ≤
      12 * sh.pool.workNotificationSem + 13 * sh.pendingPosts + 6 * frames sh + 1 + 0
    omega
  | @restoreRefused d pool hpool =>
    have hsem : pool.workNotificationSem = sh.pool.workNotificationSem :=
      hpool ▸ restoreRefused_sem _ _
    change 12 * pool.workNotificationSem + 13 * sh.pendingPosts + 6 * frames sh + 0 + 1 ≤
      12 * sh.pool.workNotificationSem + 13 * sh.pendingPosts + 6 * frames sh + 1 + 0
    omega
  | _ =>
    exact (Nat.add_assoc sh.work _ _).trans_le (((Nat.add_le_add_left
      (Nat.le_of_ble_eq_true rfl) sh.work)).trans_eq (Nat.add_assoc sh.work _ _).symm)

-- A thread that has ended takes no step, so every step of a miner is a step of one at work.
theorem paid (env : Environment cfg) (k : ℕ) :
    Paid (step env) (PipeFresh (k := k)) State.work Label.charge Label.handles := by
  intro s l t hs h
  refine ⟨pipeFresh_step hs h, ?_⟩
  cases l with
  | shared a =>
    obtain ⟨sh, hsh, rfl⟩ := Option.map_eq_some_iff.mp h
    have hwork := work_shared (k := k) (sharedMove_of_step hsh)
    change sh.work + _ + _ + _ ≤ s.toShared.work + _ + _ + _
    simp only [State.setShared_miners, State.setShared_validators]
    omega
  | miner m a =>
    obtain ⟨⟨sh, st⟩, hsh, rfl⟩ := Option.map_eq_some_iff.mp h
    have hlive : s.miners m ≠ .exited := fun hst => minerStep_exited (hst ▸ hsh)
    have hwork := work_miner hlive (minerMove_of_step hsh)
    have hsum := sum_update MinerState.work s.miners m st
    change sh.work + ∑ j, (Function.update s.miners m st j).work + _ + 1 ≤
      s.toShared.work + _ + _ + 0
    rw [State.setMiner_validators]
    omega
  | validator v a =>
    obtain ⟨⟨sh, st⟩, hsh, rfl⟩ := Option.map_eq_some_iff.mp h
    have hwork := work_validator (v := v) hs (validatorMove_of_step hsh)
    have hsum := sum_update ValidatorState.work s.validators v st
    change sh.work + _ + ∑ j, (Function.update s.validators v st j).work + _ ≤
      s.toShared.work + _ + _ + _
    rw [State.setValidator_miners]
    omega

-- The handling that the miners and the validators do by themselves.
def Working (_ : State cfg k) (l : Label cfg k) : Prop :=
  l.handles = true ∧ ∀ m, l ≠ .miner m .waitFails

-- Nothing is left to be handled.
def AtRest (env : Environment cfg) (s : State cfg k) : Prop :=
  ∀ l, Working s l → step env s l = none

theorem exists_validatorStep (env : Environment cfg) (sh : Shared cfg) {st : ValidatorState cfg}
    (hbusy : st ≠ .idle) :
    ∃ a, (∀ r, a ≠ .deliver r) ∧ (validatorStep env sh st a).isSome = true := by
  cases st with
  | idle => exact absurd rfl hbusy
  | received d =>
    refine ⟨.checkLink, by simp, ?_⟩
    simp only [validatorStep]
    split <;> rfl
  | linked d tip => exact ⟨.checkPool, by simp, rfl⟩
  | accepted d tip => exact ⟨.testCapacity, by simp, rfl⟩
  | appending d tip => exact ⟨.append, by simp, rfl⟩
  | removing d => exact ⟨.remove, by simp, rfl⟩
  | full d => exact ⟨.restoreRefused, by simp, rfl⟩

namespace AtRest

variable {s : State cfg k}

theorem pendingPosts (h : AtRest env s) : s.pendingPosts = 0 := by
  by_contra hne
  have hnone := h (.shared .post) ⟨rfl, by simp⟩
  simp [step, sharedStep, Nat.pos_of_ne_zero hne] at hnone

theorem miner (h : AtRest env s) (m : Fin cfg.numMiners) : s.miners m = .exited ∨
    s.miners m = .waiting ∧ s.pool.workNotificationSem = 0 ∧ s.shouldTerminate = false := by
  have hno : ∀ a, a ≠ .waitFails →
      (minerStep env (m + 1) s.toShared (s.miners m) a).isSome = false := by
    intro a hfails
    have hnone := h (.miner m a) ⟨rfl, fun m' hm => hfails (Label.miner.inj hm).2⟩
    rw [step, Option.map_eq_none_iff] at hnone
    rw [hnone]
    rfl
  by_cases hlive : s.miners m = .exited
  · exact .inl hlive
  · have hwait : s.miners m = .waiting ∧ s.pool.workNotificationSem = 0 := by
      by_contra hnot
      obtain ⟨a, -, hfails, ha⟩ : ∃ a, a ≠ .quit ∧ a ≠ .waitFails ∧
          (minerStep env (m + 1) s.toShared (s.miners m) a).isSome = true :=
        exists_minerStep _ hlive (fun hst => Nat.pos_of_ne_zero (fun hsem => hnot ⟨hst, hsem⟩))
      rw [hno a hfails] at ha
      cases ha
    refine .inr ⟨hwait.1, hwait.2, Bool.eq_false_iff.mpr (fun hflag => ?_)⟩
    have hquit : (minerStep env (m + 1) s.toShared (s.miners m) .quit).isSome = true :=
      quit_isSome (by rw [hwait.1]; rfl) hflag
    rw [hno .quit (by simp)] at hquit
    cases hquit

theorem validator (h : AtRest env s) (v : Fin k) :
    s.validators v = .idle ∧ ∀ i, s.pipe i = none := by
  have hno : ∀ a, (∀ r, a ≠ .deliver r) →
      validatorStep env s.toShared (s.validators v) a = none := by
    intro a hdeliver
    refine Option.map_eq_none_iff.mp (h (.validator v a) ⟨?_, by simp⟩)
    cases a <;> first | rfl | exact absurd rfl (hdeliver _)
  have hidle : s.validators v = .idle := by
    by_contra hbusy
    obtain ⟨a, hdeliver, ha⟩ := exists_validatorStep env s.toShared hbusy
    rw [hno a hdeliver] at ha
    cases ha
  refine ⟨hidle, fun i => ?_⟩
  have hnone := hno (.receive i 0) (by simp)
  rw [hidle] at hnone
  cases hpipe : s.pipe i with
  | none => rfl
  | some msg => simp [validatorStep, hpipe] at hnone

-- Threads that wait for a token that is not there, validators with nothing to read.
theorem of_waiting (hposts : s.pendingPosts = 0) (hsem : s.pool.workNotificationSem = 0)
    (hflag : s.shouldTerminate = false) (hminers : ∀ m, s.miners m = .waiting)
    (hvalidators : ∀ v, s.validators v = .idle) (hpipe : ∀ i, s.pipe i = none) : AtRest env s := by
  rintro l ⟨hhandles, hfails⟩
  cases l with
  | shared a =>
    cases a with
    | post => simp [step, sharedStep, hposts]
    | _ => cases hhandles
  | miner m a =>
    rw [step, hminers, Option.map_eq_none_iff]
    cases a with
    | wait => simp [minerStep, hsem]
    | waitFails => exact absurd rfl (hfails m)
    | quit => simp [minerStep, hflag]
    | _ => rfl
  | validator v a =>
    rw [step, hvalidators, Option.map_eq_none_iff]
    cases a with
    | receive i heapPtr => simp [validatorStep, hpipe]
    | deliver r => cases hhandles
    | _ => rfl

end AtRest

-- Whatever the order, the handling is bounded by what there was at the beginning and what came in
-- since; left alone the miners and the validators get through with it.
theorem handling_bounded {s : State cfg k} (hs : Reachable (step env) always (initState cfg k) s) :
    (∀ ls t, run (step env) s ls = some t →
      ls.countP Label.handles ≤ s.work + (ls.map Label.charge).sum) ∧
    ∃ t, Reachable (step env) Working s t ∧ AtRest env t := by
  have hfresh : PipeFresh s := pipeFresh_of_reachable hs
  refine ⟨fun ls t hrun => ?_, (paid env k).exists_rest (fun s l hl => ⟨hl.1, ?_⟩) hfresh⟩
  · have hle := (paid env k).countP_le hfresh hrun
    omega
  · have hhandles := hl.1
    cases l with
    | shared a => cases a <;> first | rfl | cases hhandles
    | miner m a => rfl
    | validator v a => cases a <;> first | rfl | cases hhandles

-- A token for one of two threads: its transaction goes all the way into the ledger.
theorem handling_bounded_one_transaction :
    ∃ s t u : State (Sample.config 1) 1, s.work = 14 ∧
      run (step (Sample.environment 1)) s (Sample.reserve 0 ++ Sample.mineAndSend 0 ++
        Sample.receive 0 0 ++ Sample.commit 0) = some t ∧
      (Sample.reserve 0 ++ Sample.mineAndSend 0 ++ Sample.receive 0 0 ++ Sample.commit 0 :
        List (Label (Sample.config 1) 1)).countP Label.handles ≤ s.work ∧
      Reachable (step (Sample.environment 1)) Working t u ∧ AtRest (Sample.environment 1) u := by
  let labels : List (Label (Sample.config 1) 1) := Sample.reserve 0 ++ Sample.mineAndSend 0 ++
    Sample.receive 0 0 ++ Sample.commit 0
  have hrun : (run (step (Sample.environment 1)) (initState (Sample.config 1) 1)
      (Sample.add 1)).any (fun s => decide (s.work = 14) &&
        (run (step (Sample.environment 1)) s labels).isSome) = true := by
    decide +kernel
  obtain ⟨s, hs, hrun⟩ := (Option.any_eq_true ..).mp hrun
  obtain ⟨hwork, hrun⟩ := Bool.and_eq_true_iff.mp hrun
  obtain ⟨t, ht⟩ := Option.isSome_iff_exists.mp hrun
  have hreach := reachable_of_run hs
  obtain ⟨hbound, -⟩ := handling_bounded hreach
  obtain ⟨-, u, hu, hrest⟩ := handling_bounded (hreach.trans (reachable_of_run ht))
  exact ⟨s, t, u, of_decide_eq_true hwork, ht, hbound labels t ht, hu, hrest⟩

end DeiChain
