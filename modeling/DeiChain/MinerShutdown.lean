import DeiChain.Chain
import DeiChain.Library.Counting
import Mathlib.Data.Set.Card

namespace DeiChain

open ByteLayout Transition Counting

variable {cfg : Config} {k : ℕ} {env : Environment cfg}

-- The loops that put transactions back go on to the head of the main loop without a test.
def MinerState.guarded : MinerState cfg → Bool
  | .rollback _ | .restoring _ | .exited => false
  | _ => true

-- The system with the threads' tests of should_terminate as steps of their own: tested says that
-- the one in front of a thread's next step is behind it. A thread reads the flag between its two
-- searches as well, but touches nothing shared there, so that one test stands for them.
structure Guarded (cfg : Config) (k : ℕ) where
  system : State cfg k
  tested : Fin cfg.numMiners → Bool

inductive GuardedLabel (cfg : Config) (k : ℕ) where
  | test (m : Fin cfg.numMiners)
  | act (l : Label cfg k)

namespace Guarded

def start (cfg : Config) (k : ℕ) : Guarded cfg k := ⟨initState cfg k, fun _ => false⟩

def thread (g : Guarded cfg k) (m : Fin cfg.numMiners) : MinerState cfg × Bool :=
  (g.system.miners m, g.tested m)

def untested (g : Guarded cfg k) (m : Fin cfg.numMiners) : Bool :=
  (g.system.miners m).guarded && !g.tested m

end Guarded

def guardedStep (env : Environment cfg) (g : Guarded cfg k) :
    GuardedLabel cfg k → Option (Guarded cfg k)
  | .test m =>
    if g.untested m then
      if g.system.shouldTerminate then
        (step env g.system (.miner m .quit)).map (fun s => ⟨s, g.tested⟩)
      else some ⟨g.system, Function.update g.tested m true⟩
    else none
  | .act (.miner _ .quit) => none
  | .act (.miner m a) =>
    if g.untested m then none
    else (step env g.system (.miner m a)).map (fun s => ⟨s, Function.update g.tested m false⟩)
  | .act l => (step env g.system l).map (fun s => ⟨s, g.tested⟩)

inductive GuardedMove (env : Environment cfg) (g : Guarded cfg k) :
    GuardedLabel cfg k → Guarded cfg k → Prop
  | pass {m : Fin cfg.numMiners} (huntested : g.untested m = true)
      (hflag : g.system.shouldTerminate = false) :
      GuardedMove env g (.test m) ⟨g.system, Function.update g.tested m true⟩
  | leave {m : Fin cfg.numMiners} (huntested : g.untested m = true)
      (hflag : g.system.shouldTerminate = true) :
      GuardedMove env g (.test m)
        ⟨g.system.setMiner g.system.toShared m .exited, g.tested⟩
  | miner {m : Fin cfg.numMiners} {a : MinerAction} {sh : Shared cfg} {st : MinerState cfg}
      (hquit : a ≠ .quit) (htested : g.untested m = false)
      (h : MinerMove env (m + 1) g.system.toShared a (g.system.miners m) sh st) :
      GuardedMove env g (.act (.miner m a))
        ⟨g.system.setMiner sh m st, Function.update g.tested m false⟩
  | shared {a : SharedAction} {sh : Shared cfg} (h : SharedMove g.system.toShared a sh) :
      GuardedMove env g (.act (.shared a)) ⟨g.system.setShared sh, g.tested⟩
  | validator {v : Fin k} {a : ValidatorAction cfg} {sh : Shared cfg} {st : ValidatorState cfg}
      (h : ValidatorMove env g.system.toShared a (g.system.validators v) sh st) :
      GuardedMove env g (.act (.validator v a)) ⟨g.system.setValidator sh v st, g.tested⟩

theorem guardedStep_miner {g : Guarded cfg k} {m : Fin cfg.numMiners} {a : MinerAction}
    (hquit : a ≠ .quit) :
    guardedStep env g (.act (.miner m a)) =
      if g.untested m then none
      else (step env g.system (.miner m a)).map
        (fun s => ⟨s, Function.update g.tested m false⟩) := by
  cases a <;> first | rfl | exact absurd rfl hquit

theorem guardedMove_of_step {g t : Guarded cfg k} {l : GuardedLabel cfg k}
    (h : guardedStep env g l = some t) : GuardedMove env g l t := by
  cases l with
  | test m =>
    simp only [guardedStep] at h
    split at h
    · rename_i huntested
      split at h
      · rename_i hflag
        obtain ⟨s, hs, rfl⟩ := Option.map_eq_some_iff.mp h
        obtain ⟨⟨sh, st⟩, hmove, rfl⟩ := Option.map_eq_some_iff.mp hs
        obtain ⟨rfl, rfl⟩ : sh = g.system.toShared ∧ st = .exited := by
          have hq := minerMove_of_step hmove
          cases hq
          exact ⟨rfl, rfl⟩
        exact .leave huntested hflag
      · rename_i hflag
        cases h
        exact .pass huntested (Bool.eq_false_iff.mpr hflag)
    · cases h
  | act l =>
    cases l with
    | shared a =>
      obtain ⟨s, hs, rfl⟩ := Option.map_eq_some_iff.mp h
      obtain ⟨sh, hmove, rfl⟩ := Option.map_eq_some_iff.mp hs
      exact .shared (sharedMove_of_step hmove)
    | validator v a =>
      obtain ⟨s, hs, rfl⟩ := Option.map_eq_some_iff.mp h
      obtain ⟨⟨sh, st⟩, hmove, rfl⟩ := Option.map_eq_some_iff.mp hs
      exact .validator (validatorMove_of_step hmove)
    | miner m a =>
      have hquit : a ≠ .quit := by
        rintro rfl
        cases h
      rw [guardedStep_miner hquit] at h
      split at h
      · cases h
      · rename_i htested
        obtain ⟨s, hs, rfl⟩ := Option.map_eq_some_iff.mp h
        obtain ⟨⟨sh, st⟩, hmove, rfl⟩ := Option.map_eq_some_iff.mp hs
        exact .miner hquit (Bool.eq_false_iff.mpr htested) (minerMove_of_step hmove)

theorem step_of_act {g t : Guarded cfg k} {l : Label cfg k}
    (h : guardedStep env g (.act l) = some t) : step env g.system l = some t.system := by
  cases l with
  | miner m a =>
    have hquit : a ≠ .quit := by
      rintro rfl
      cases h
    rw [guardedStep_miner hquit] at h
    split at h
    · cases h
    · obtain ⟨s, hs, rfl⟩ := Option.map_eq_some_iff.mp h
      exact hs
  | _ =>
    obtain ⟨s, hs, rfl⟩ := Option.map_eq_some_iff.mp h
    exact hs

theorem guarded_refines {g t : Guarded cfg k} {l : GuardedLabel cfg k}
    (h : guardedStep env g l = some t) :
    t.system = g.system ∨ ∃ l', step env g.system l' = some t.system := by
  cases l with
  | act l => exact .inr ⟨l, step_of_act h⟩
  | test m =>
    simp only [guardedStep] at h
    split at h
    · split at h
      · obtain ⟨s, hs, rfl⟩ := Option.map_eq_some_iff.mp h
        exact .inr ⟨.miner m .quit, hs⟩
      · cases h
        exact .inl rfl
    · cases h

theorem reachable_system {g t : Guarded cfg k} (h : Reachable (guardedStep env) always g t) :
    Reachable (step env) always g.system t.system := by
  refine h.invariant (I := fun u => Reachable (step env) always g.system u.system) (.refl _) ?_
  rintro a l b ha - hs
  rcases guarded_refines hs with hsame | ⟨l', hl'⟩
  · exact hsame ▸ ha
  · exact ha.tail trivial hl'

def GuardedLabel.miner? : GuardedLabel cfg k → Option (Fin cfg.numMiners)
  | .test m => some m
  | .act (.miner m _) => some m
  | .act _ => none

-- Blocked in sem_wait, or past the test in front of it.
def atWait : MinerState cfg × Bool → Bool
  | (.waiting, tested) => tested
  | _ => false

-- The steps a thread can still take once should_terminate is set.
def stepsLeft : MinerState cfg × Bool → ℕ
  | (.exited, _) => 0
  | (.rollback _, _) => 2
  | (.restoring _, _) => 2
  | (_, false) => 1
  | (.waiting, true) => 2
  | (.woken, true) => 2
  | (_, true) => 3

theorem atWait_untested (st : MinerState cfg) : atWait (st, false) = false := by
  cases st <;> rfl

theorem stepsLeft_le (p : MinerState cfg × Bool) : stepsLeft p ≤ 3 := by
  obtain ⟨st, b⟩ := p
  cases st <;> cases b <;> exact Nat.le_of_ble_eq_true rfl

theorem miner_ending {sh sh' : Shared cfg} {st st' : MinerState cfg} {b : Bool} {a : MinerAction}
    {minerId : ℕ} (h : MinerMove env minerId sh a st sh' st') (hquit : a ≠ .quit)
    (htested : (st.guarded && !b) = false) :
    sh'.shouldTerminate = sh.shouldTerminate ∧ sh'.mainPosts = sh.mainPosts ∧
      sh.pool.workNotificationSem ≤ sh'.pool.workNotificationSem + (atWait (st, b)).toNat ∧
      stepsLeft (st', false) < stepsLeft (st, b) := by
  cases h with
  | quit hflag => exact absurd rfl hquit
  | rollback => exact ⟨rfl, rfl, Nat.le_refl _, Nat.one_lt_two⟩
  | restore => exact ⟨rfl, rfl, Nat.le_refl _, Nat.one_lt_two⟩
  | wait hpos =>
    obtain rfl : b = true := by simpa [MinerState.guarded] using htested
    refine ⟨rfl, rfl, ?_, Nat.one_lt_two⟩
    change sh.pool.workNotificationSem ≤ sh.pool.workNotificationSem - 1 + 1
    omega
  | _ =>
    obtain rfl : b = true := by simpa [MinerState.guarded] using htested
    exact ⟨rfl, rfl, Nat.le_add_right _ _, Nat.le_of_ble_eq_true rfl⟩

theorem shared_ending {sh sh' : Shared cfg} {a : SharedAction} (h : SharedMove sh a sh')
    (hflag : sh.shouldTerminate = true) :
    sh'.shouldTerminate = true ∧
      sh.pool.workNotificationSem + sh'.mainPosts ≤
        sh'.pool.workNotificationSem + sh.mainPosts := by
  cases h with
  | @add tx position pool hpos hpool =>
    have hsem : pool.workNotificationSem = sh.pool.workNotificationSem := by
      rw [← hpool, insertAt_sem]
    exact ⟨hflag, Nat.add_le_add_right hsem.ge _⟩
  | terminate => exact ⟨rfl, Nat.le_refl _⟩
  | post hpending => exact ⟨hflag, Nat.add_le_add_right (Nat.le_succ _) _⟩
  | mainPost hset =>
    refine ⟨hflag, ?_⟩
    change sh.pool.workNotificationSem + (sh.mainPosts + 1) ≤
      sh.pool.workNotificationSem + 1 + sh.mainPosts
    omega
  | _ => exact ⟨hflag, Nat.le_refl _⟩

theorem validator_ending {sh sh' : Shared cfg} {a : ValidatorAction cfg}
    {st st' : ValidatorState cfg} (h : ValidatorMove env sh a st sh' st') :
    sh'.shouldTerminate = sh.shouldTerminate ∧ sh'.mainPosts = sh.mainPosts ∧
      sh'.pool.workNotificationSem = sh.pool.workNotificationSem := by
  cases h with
  | remove hpool => exact ⟨rfl, rfl, hpool ▸ removeTransactionsFromPool_sem _ _⟩
  | restoreRefused hpool => exact ⟨rfl, rfl, hpool ▸ restoreRefused_sem _ _⟩
  | _ => exact ⟨rfl, rfl, rfl⟩

-- A step once should_terminate is set.
inductive EndingMove (g : Guarded cfg k) (l : GuardedLabel cfg k) (t : Guarded cfg k) : Prop
  | other (hl : l.miner? = none) (hthread : t.thread = g.thread)
      (hsem : g.system.pool.workNotificationSem + t.system.mainPosts ≤
        t.system.pool.workNotificationSem + g.system.mainPosts)
  | miner {m : Fin cfg.numMiners} {st : MinerState cfg} (hl : l.miner? = some m)
      (hthread : t.thread = Function.update g.thread m (st, false))
      (hless : stepsLeft (st, false) < stepsLeft (g.thread m))
      (hposts : t.system.mainPosts = g.system.mainPosts)
      (hsem : g.system.pool.workNotificationSem ≤
        t.system.pool.workNotificationSem + (atWait (g.thread m)).toNat)

theorem thread_setMiner {g : Guarded cfg k} {sh : Shared cfg} {m : Fin cfg.numMiners}
    {st : MinerState cfg} {tested : Fin cfg.numMiners → Bool}
    (htested : tested = Function.update g.tested m false) :
    Guarded.thread ⟨g.system.setMiner sh m st, tested⟩ =
      Function.update g.thread m (st, false) := by
  subst htested
  funext j
  rcases eq_or_ne j m with rfl | hne
  · simp [Guarded.thread]
  · simp [Guarded.thread, hne]

theorem endingMove_of_step {g t : Guarded cfg k} {l : GuardedLabel cfg k}
    (hflag : g.system.shouldTerminate = true) (h : guardedStep env g l = some t) :
    t.system.shouldTerminate = true ∧ EndingMove g l t := by
  cases guardedMove_of_step h with
  | pass huntested hclear => exact absurd (hflag.symm.trans hclear) Bool.noConfusion
  | @leave m huntested hset =>
    obtain ⟨hguarded, htested⟩ := Bool.and_eq_true_iff.mp huntested
    have hfalse : g.tested m = false := by simpa using htested
    refine ⟨hflag, .miner rfl (thread_setMiner ?_) ?_ rfl (Nat.le_add_right _ _)⟩
    · rw [← hfalse, Function.update_eq_self]
    · rw [Guarded.thread, hfalse]
      generalize g.system.miners m = st at hguarded ⊢
      cases st <;> first | exact Nat.one_pos | cases hguarded
  | @miner m a sh st hquit htested hmove =>
    obtain ⟨hkeep, hposts, hsem, hless⟩ := miner_ending hmove hquit htested
    exact ⟨hkeep.trans hflag, .miner rfl (thread_setMiner rfl) hless hposts hsem⟩
  | shared hmove =>
    obtain ⟨hkeep, hsem⟩ := shared_ending hmove hflag
    exact ⟨hkeep, .other rfl rfl hsem⟩
  | @validator v a sh st hmove =>
    obtain ⟨hkeep, hposts, hsem⟩ := validator_ending hmove
    refine ⟨hkeep.trans hflag, .other rfl rfl (Nat.le_of_eq ?_)⟩
    change _ + sh.mainPosts = sh.pool.workNotificationSem + _
    rw [hposts, hsem]

theorem EndingMove.spends {g t : Guarded cfg k} {l : GuardedLabel cfg k}
    (h : EndingMove g l t) (m : Fin cfg.numMiners) :
    stepsLeft (t.thread m) + (decide (l.miner? = some m)).toNat ≤ stepsLeft (g.thread m) := by
  cases h with
  | other hl hthread =>
    rw [hl, hthread]
    exact Nat.le_refl _
  | @miner j st hl hthread hless =>
    rw [hl, hthread]
    rcases eq_or_ne m j with rfl | hne
    · rw [Function.update_self, decide_eq_true rfl]
      exact hless
    · rw [Function.update_of_ne hne, decide_eq_false (fun h => hne (Option.some.inj h).symm)]
      exact Nat.le_refl _

theorem EndingMove.waited {g t : Guarded cfg k} {l : GuardedLabel cfg k} (h : EndingMove g l t)
    {m : Fin cfg.numMiners} (hwait : atWait (t.thread m) = true) : atWait (g.thread m) = true := by
  cases h with
  | other hl hthread => exact hthread ▸ hwait
  | miner hl hthread =>
    rw [hthread] at hwait
    rcases of_update (P := fun p => atWait p = true) hwait with ⟨-, hnew⟩ | hold
    · rw [atWait_untested] at hnew
      cases hnew
    · exact hold

-- The threads that a post may have to wake are covered by the tokens and the posts to come.
structure Ending (g : Guarded cfg k) : Prop where
  flag : g.system.shouldTerminate = true
  tokens : count atWait g.thread + g.system.mainPosts ≤
    g.system.pool.workNotificationSem + cfg.numMiners

theorem Ending.of_flag {g : Guarded cfg k} (hflag : g.system.shouldTerminate = true)
    (hposts : g.system.mainPosts = 0) : Ending g := by
  refine ⟨hflag, ?_⟩
  have hle : count atWait g.thread ≤ Fintype.card (Fin cfg.numMiners) := count_le_card
  rw [Fintype.card_fin] at hle
  omega

theorem Ending.next {g t : Guarded cfg k} {l : GuardedLabel cfg k} (hg : Ending g)
    (h : guardedStep env g l = some t) : Ending t := by
  obtain ⟨hflag, hmove⟩ := endingMove_of_step hg.flag h
  have htokens := hg.tokens
  refine ⟨hflag, ?_⟩
  cases hmove with
  | other hl hthread hsem =>
    rw [hthread]
    omega
  | @miner m st hl hthread hless hposts hsem =>
    have hcount : count atWait (Function.update g.thread m (st, false)) +
        (atWait (g.thread m)).toNat = count atWait g.thread + (atWait (st, false)).toNat :=
      count_update
    rw [atWait_untested, Bool.toNat_false] at hcount
    rw [hthread]
    omega

theorem Ending.reachable {g t : Guarded cfg k} (hg : Ending g)
    (h : Reachable (guardedStep env) always g t) : Ending t :=
  h.invariant hg (fun _ _ _ ha _ => ha.next)

def MayWait (env : Environment cfg) (g : Guarded cfg k) (m : Fin cfg.numMiners) : Prop :=
  ∃ t, Reachable (guardedStep env) always g t ∧ atWait (t.thread m) = true

theorem Ending.mayWait_iff {g : Guarded cfg k} (hg : Ending g) {m : Fin cfg.numMiners} :
    MayWait env g m ↔ atWait (g.thread m) = true := by
  constructor
  · rintro ⟨t, hreach, hwait⟩
    have hback : atWait (t.thread m) = true → atWait (g.thread m) = true := by
      refine hreach.invariant_along
        (I := fun u => atWait (u.thread m) = true → atWait (g.thread m) = true) id ?_
      intro a l b ha hsince _ hs hb
      exact hsince ((endingMove_of_step (hg.reachable ha).flag hs).2.waited hb)
    exact hback hwait
  · exact fun hwait => ⟨g, .refl g, hwait⟩

theorem Ending.ncard_mayWait {g : Guarded cfg k} (hg : Ending g) :
    {m | MayWait env g m}.ncard = count atWait g.thread := by
  have hset : {m | MayWait env g m} =
      ↑(Finset.univ.filter (fun m => atWait (g.thread m) = true)) := by
    ext m
    simp [hg.mayWait_iff]
  rw [hset, Set.ncard_coe_finset, count]

theorem Ending.countP_le {g t : Guarded cfg k} (hg : Ending g) {ls : List (GuardedLabel cfg k)}
    (h : run (guardedStep env) g ls = some t) (m : Fin cfg.numMiners) :
    ls.countP (fun l => decide (l.miner? = some m)) ≤ stepsLeft (g.thread m) := by
  have hstep : ∀ (a : Guarded cfg k) (l : GuardedLabel cfg k) (b : Guarded cfg k), Ending a →
      guardedStep env a l = some b →
      Ending b ∧ stepsLeft (b.thread m) + (decide (l.miner? = some m)).toNat ≤
        stepsLeft (a.thread m) :=
    fun a l b ha hs => ⟨ha.next hs, (endingMove_of_step ha.flag hs).2.spends m⟩
  exact countP_le_of_run hstep hg h

theorem quit_isSome {sh : Shared cfg} {st : MinerState cfg} {minerId : ℕ}
    (hguarded : st.guarded = true) (hflag : sh.shouldTerminate = true) :
    (minerStep env minerId sh st .quit).isSome = true := by
  cases st <;> first | exact (Bool.false_ne_true hguarded).elim | simp [minerStep, hflag]

theorem exists_minerStep {sh : Shared cfg} {st : MinerState cfg} (minerId : ℕ)
    (hlive : st ≠ .exited) (hsem : st = .waiting → 0 < sh.pool.workNotificationSem) :
    ∃ a, a ≠ .quit ∧ a ≠ .waitFails ∧ (minerStep env minerId sh st a).isSome = true := by
  cases st with
  | waiting => exact ⟨.wait, by simp, by simp, by simp [minerStep, hsem rfl]⟩
  | woken => exact ⟨.snapshot, by simp, by simp, rfl⟩
  | snapshot previousHash blockId =>
    refine ⟨.select, by simp, by simp, ?_⟩
    simp only [minerStep]
    split
    · rfl
    · split <;> rfl
  | rollback reserved => exact ⟨.rollback, by simp, by simp, rfl⟩
  | selected reserved previousHash blockId => exact ⟨.create 0, by simp, by simp, rfl⟩
  | created b =>
    refine ⟨.mine 0, by simp, by simp, ?_⟩
    simp only [minerStep]
    split <;> rfl
  | mined b => exact ⟨.send, by simp, by simp, rfl⟩
  | restoring reserved => exact ⟨.restore, by simp, by simp, rfl⟩
  | exited => exact absurd rfl hlive

theorem exists_guardedStep {g : Guarded cfg k} {m : Fin cfg.numMiners}
    (hflag : g.system.shouldTerminate = true) (hlive : g.system.miners m ≠ .exited)
    (hsem : atWait (g.thread m) = true → 0 < g.system.pool.workNotificationSem) :
    ∃ l, l.miner? = some m ∧ l ≠ .act (.miner m .waitFails) ∧
      (guardedStep env g l).isSome = true := by
  by_cases huntested : g.untested m = true
  · refine ⟨.test m, rfl, by simp, ?_⟩
    rw [guardedStep, if_pos huntested, if_pos hflag, Option.isSome_map, step, Option.isSome_map]
    exact quit_isSome (Bool.and_eq_true_iff.mp huntested).1 hflag
  · have hwait : g.system.miners m = .waiting → 0 < g.system.pool.workNotificationSem := by
      intro hwaiting
      refine hsem ?_
      simpa [Guarded.untested, Guarded.thread, hwaiting, MinerState.guarded, atWait]
        using huntested
    obtain ⟨a, hquit, hfails, ha⟩ := exists_minerStep (m + 1) hlive hwait
    refine ⟨.act (.miner m a), rfl, ?_, ?_⟩
    · rintro hl
      cases hl
      exact hfails rfl
    · rw [guardedStep_miner hquit, if_neg huntested, Option.isSome_map, step, Option.isSome_map]
      exact ha

theorem shutdown_wakes_miners {g₀ g : Guarded cfg k} (hflag : g₀.system.shouldTerminate = true)
    (hposts : g₀.system.mainPosts = 0) (h : Reachable (guardedStep env) always g₀ g)
    (hdone : g.system.mainPosts = cfg.numMiners) :
    {m | MayWait env g m}.ncard ≤ g.system.pool.workNotificationSem ∧
      (∀ m, g.system.miners m ≠ .exited → ∃ l, l.miner? = some m ∧
        l ≠ .act (.miner m .waitFails) ∧ (guardedStep env g l).isSome = true) ∧
      ∀ ls t m, run (guardedStep env) g ls = some t →
        ls.countP (fun l => decide (l.miner? = some m)) ≤ 3 := by
  have hg : Ending g := (Ending.of_flag hflag hposts).reachable h
  have htokens : count atWait g.thread ≤ g.system.pool.workNotificationSem := by
    have hle := hg.tokens
    omega
  refine ⟨hg.ncard_mayWait.trans_le htokens, fun m hlive => ?_, fun ls t m hrun => ?_⟩
  · exact exists_guardedStep hg.flag hlive (fun hwait => (count_pos hwait).trans_le htokens)
  · exact (hg.countP_le hrun m).trans (stepsLeft_le _)

theorem shutdown_wakes_miners_two :
    ∃ g : Guarded (Sample.config 1) 1, Reachable (guardedStep (Sample.environment 1)) always
        (Guarded.start _ 1) g ∧ atWait (g.thread 0) = true ∧
      {m | MayWait (Sample.environment 1) g m}.ncard ≤ g.system.pool.workNotificationSem := by
  let before : List (GuardedLabel (Sample.config 1) 1) := [.test 0, .act (.shared .terminate)]
  let posts : List (GuardedLabel (Sample.config 1) 1) :=
    [.act (.shared .mainPost), .act (.shared .mainPost)]
  obtain ⟨g₀, hbefore⟩ : ∃ g₀, run (guardedStep (Sample.environment 1)) (Guarded.start _ 1)
      before = some g₀ := ⟨_, rfl⟩
  obtain ⟨g, hposts⟩ : ∃ g, run (guardedStep (Sample.environment 1)) g₀ posts = some g := by
    cases hbefore
    exact ⟨_, rfl⟩
  have hstart := reachable_of_run hbefore
  have hreach := reachable_of_run hposts
  cases hbefore
  cases hposts
  exact ⟨_, hstart.trans hreach, rfl, (shutdown_wakes_miners rfl rfl hreach rfl).1⟩

end DeiChain
