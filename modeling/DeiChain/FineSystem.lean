import DeiChain.ExactlyOnce
import DeiChain.FineRules

namespace DeiChain

open ByteLayout ByteMemory Counting Critical Transition Turns

variable {cfg : Config} {γ k : ℕ} {env : Environment cfg}

def posting (locals : ∀ i : Party cfg γ k, PartyLocal i) : ℕ :=
  count (fun b : Bool => b) (fun g => (locals (.generator g) : Bool))

def systemOf (v : AllData cfg) (r : Unguarded cfg) (locals : ∀ i : Party cfg γ k, PartyLocal i) :
    State cfg k where
  toShared := r.shared v (posting locals)
  miners := fun m => (locals (.miner m)).1
  validators := fun w => locals (.validator w)

def wholeSystem (w : Critical.Whole (fineCode env γ k)) : State cfg k :=
  systemOf w.data w.rest w.locals

theorem shared_setSlots (v : AllData cfg) (r : Unguarded cfg) (n : ℕ)
    (slots : Slots cfg.txPoolSize) :
    r.shared (Function.update v .pool ((v .pool).setSlots slots)) n =
      (r.shared v n).setSlots slots := rfl

theorem shared_setPool (v : AllData cfg) (r : Unguarded cfg) (n : ℕ)
    {pool : TransactionPool cfg.txPoolSize}
    (hsem : pool.workNotificationSem = r.workNotificationSem) :
    r.shared (Function.update v .pool pool.guarded) n = (r.shared v n).setPool pool := by
  rw [Unguarded.shared, ← hsem]
  rfl

theorem posting_miner (locals : ∀ i : Party cfg γ k, PartyLocal i) (m : Fin cfg.numMiners)
    (q : MinerState cfg × Bool) :
    posting (Function.update locals (.miner m) q) = posting locals := by
  unfold posting
  congr 1

theorem posting_validator (locals : ∀ i : Party cfg γ k, PartyLocal i) (w : Fin k)
    (st : ValidatorState cfg) :
    posting (Function.update locals (.validator w) st) = posting locals := by
  unfold posting
  congr 1

theorem systemOf_miner (v v₀ : AllData cfg) (r r₀ : Unguarded cfg)
    (locals : ∀ i : Party cfg γ k, PartyLocal i) (m : Fin cfg.numMiners)
    (q : MinerState cfg × Bool) : systemOf v r (Function.update locals (.miner m) q) =
      (systemOf v₀ r₀ locals).setMiner (r.shared v (posting locals)) m q.1 := by
  have hminers : (fun m' => (Function.update locals (.miner m) q (.miner m') :
      MinerState cfg × Bool).1) = Function.update (fun m' => (locals (.miner m')).1) m q.1 := by
    funext m'
    by_cases hm : m' = m
    · subst hm
      simp
    · simp [hm]
  rw [systemOf, posting_miner, hminers]
  rfl

theorem systemOf_validator (v v₀ : AllData cfg) (r r₀ : Unguarded cfg)
    (locals : ∀ i : Party cfg γ k, PartyLocal i) (w : Fin k) (st : ValidatorState cfg) :
    systemOf v r (Function.update locals (.validator w) st) =
      (systemOf v₀ r₀ locals).setValidator (r.shared v (posting locals)) w st := by
  have hvalidators : (fun w' => (Function.update locals (.validator w) st (.validator w') :
      ValidatorState cfg)) = Function.update (fun w' => locals (.validator w')) w st := by
    funext w'
    by_cases hw : w' = w
    · subst hw
      simp
    · simp [hw]
  rw [systemOf, posting_validator, hvalidators]
  rfl

theorem posting_generator (locals : ∀ i : Party cfg γ k, PartyLocal i) (g : Fin γ) (b : Bool) :
    posting (Function.update locals (.generator g) b) + (locals (.generator g) : Bool).toNat =
      posting locals + b.toNat := by
  have hlocals : (fun g' => (Function.update locals (.generator g) b (.generator g') : Bool)) =
      Function.update (fun g' => (locals (.generator g') : Bool)) g b := by
    funext g'
    by_cases hg : g' = g
    · subst hg
      simp
    · simp [hg]
  rw [posting, hlocals]
  exact count_update

variable {v v' : AllData cfg} {r r' : Unguarded cfg} {locals : ∀ i : Party cfg γ k, PartyLocal i}

theorem step_of_miner {m : Fin cfg.numMiners} {a : MinerAction} {q : MinerState cfg × Bool}
    (h : minerStep env (m + 1) (r.shared v (posting locals)) (locals (.miner m)).1 a =
      some (r'.shared v' (posting locals), q.1)) :
    step env (systemOf v r locals) (.miner m a) =
      some (systemOf v' r' (Function.update locals (.miner m) q)) := by
  rw [systemOf_miner v' v r' r]
  change (minerStep env (m + 1) (r.shared v (posting locals)) (locals (.miner m)).1 a).map _ = _
  rw [h]
  rfl

theorem step_of_validator {w : Fin k} {a : ValidatorAction cfg} {st : ValidatorState cfg}
    (h : validatorStep env (r.shared v (posting locals)) (locals (.validator w)) a =
      some (r'.shared v' (posting locals), st)) :
    step env (systemOf v r locals) (.validator w a) =
      some (systemOf v' r' (Function.update locals (.validator w) st)) := by
  rw [systemOf_validator v' v r' r]
  change (validatorStep env (r.shared v (posting locals)) (locals (.validator w)) a).map _ = _
  rw [h]
  rfl

theorem step_of_shared {a : SharedAction} {locals' : ∀ i : Party cfg γ k, PartyLocal i}
    (hminers : ∀ m, locals' (.miner m) = locals (.miner m))
    (hvalidators : ∀ w, locals' (.validator w) = locals (.validator w))
    (h : sharedStep (r.shared v (posting locals)) a = some (r'.shared v' (posting locals'))) :
    step env (systemOf v r locals) (.shared a) = some (systemOf v' r' locals') := by
  change (sharedStep (r.shared v (posting locals)) a).map _ = _
  rw [h]
  simp only [systemOf, hminers, hvalidators]
  rfl

theorem step_of_post {g : Fin γ} {b : Bool}
    (h : generatorPost r (locals (.generator g)) = some (r', b)) :
    step env (systemOf v r locals) (.shared .post) =
      some (systemOf v r' (Function.update locals (.generator g) b)) := by
  unfold generatorPost at h
  split at h
  · rename_i hposting
    cases h
    have hcount := posting_generator locals g false
    have hposts : 0 < posting locals := count_pos (p := fun b : Bool => b) hposting
    have hrest : posting (Function.update locals (.generator g) false) = posting locals - 1 := by
      rw [hposting] at hcount
      simp at hcount
      omega
    refine step_of_shared (fun _ => rfl) (fun _ => rfl) ?_
    change (if 0 < posting locals then _ else _) = _
    rw [if_pos hposts, hrest]
    rfl
  · cases h

theorem step_of_add {g : Fin γ} {tx : Transaction} (hready : locals (.generator g) = false) :
    step env (systemOf v r locals) (.shared (.add tx)) =
      some (systemOf (Function.update v .pool ((addProgram tx).run (v .pool)).1)
        (generatorFinish (.added tx ((addProgram tx).run (v .pool)).2) r false).1
        (Function.update locals (.generator g)
          (generatorFinish (.added tx ((addProgram tx).run (v .pool)).2) r false).2)) := by
  refine step_of_shared (fun _ => rfl) (fun _ => rfl) ?_
  have hrun := run_addProgram tx (r.shared v 0).pool
  change (addProgram tx).run (v .pool) = _ at hrun
  have hsem := addSection_sem tx (r.shared v 0).pool
  have hadd : sharedStep (r.shared v (posting locals)) (.add tx) =
      some { (r.shared v (posting locals)).setPool (addSection tx (r.shared v 0).pool).2 with
        pendingPosts := if (addSection tx (r.shared v 0).pool).1 = 0 then posting locals + 1
          else posting locals
        used := tx.id :: r.used } := rfl
  rw [hrun, hadd]
  generalize addSection tx (r.shared v 0).pool = result at hsem ⊢
  obtain ⟨code, pool⟩ := result
  have hcount := posting_generator locals g (code = 0)
  rw [hready] at hcount
  have hposts : posting (Function.update locals (.generator g) (decide (code = 0))) =
      if code = 0 then posting locals + 1 else posting locals := by
    by_cases hcode : code = 0
    · simpa [hcode] using hcount
    · simpa [hcode] using hcount
  dsimp only [generatorFinish]
  rw [hposts]
  exact congrArg some (shared_setPool v { r with used := tx.id :: r.used } _ hsem).symm

theorem step_of_minerPlain {m : Fin cfg.numMiners} {a : MinerAction} {q : MinerState cfg × Bool}
    (h : minerPlain env (m + 1) a (r.shared v 0) (locals (.miner m)) = some (r', q)) :
    step env (systemOf v r locals) (.miner m a) =
      some (systemOf v r' (Function.update locals (.miner m) q)) := by
  unfold minerPlain at h
  split at h
  · rename_i hplain
    obtain ⟨⟨sh, st⟩, hstep, heq⟩ := Option.map_eq_some_iff.mp h
    cases heq
    apply step_of_miner
    rw [minerStep_shared hplain r v v _ 0, hstep]
    rfl
  · cases h

theorem step_of_validatorPlain {w : Fin k} {a : ValidatorAction cfg} {st : ValidatorState cfg}
    (h : validatorPlain env a (r.shared v 0) (locals (.validator w)) = some (r', st)) :
    step env (systemOf v r locals) (.validator w a) =
      some (systemOf v r' (Function.update locals (.validator w) st)) := by
  unfold validatorPlain at h
  split at h
  · rename_i hplain
    obtain ⟨⟨sh, st⟩, hstep, heq⟩ := Option.map_eq_some_iff.mp h
    cases heq
    apply step_of_validator
    have hcount : numBlocks (v .ledger) = numBlocks (v .ledger) := rfl
    rw [validatorStep_shared hplain r hcount _ 0, hstep]
    rfl
  · cases h

theorem step_of_mainPlain {a : SharedAction} {u : Unit}
    (h : mainPlain a (r.shared v 0) = some (r', u)) :
    step env (systemOf v r locals) (.shared a) =
      some (systemOf v r' (Function.update locals .main u)) := by
  unfold mainPlain at h
  split at h
  · rename_i hplain
    obtain ⟨sh, hstep, heq⟩ := Option.map_eq_some_iff.mp h
    cases heq
    refine step_of_shared (fun _ => rfl) (fun _ => rfl) ?_
    rw [sharedStep_shared hplain r v v _ 0, hstep]
    rfl
  · cases h

-- What a section done in one go makes of the system.
def sectionDone (env : Environment cfg) (v : AllData cfg) (r : Unguarded cfg)
    (locals : ∀ i : Party cfg γ k, PartyLocal i) (i : Party cfg γ k) (b : SectionBody cfg) :
    State cfg k :=
  let result := b.2.run (v b.1)
  let p := (fineCode env γ k).finish i b.1 result.2 r (locals i)
  systemOf (Function.update v b.1 result.1) p.1 (Function.update locals i p.2)

theorem minerSection_pool {m : Fin cfg.numMiners}
    {p : Program (PoolData cfg.txPoolSize) (PoolResult cfg)} {d : PoolData cfg.txPoolSize}
    {x : PoolResult cfg} (h : p.run (v .pool) = (d, x)) :
    sectionDone env v r locals (.miner m) (poolSectionBody p) =
      systemOf (Function.update v .pool d) r
        (Function.update locals (.miner m) (minerFinish x (locals (.miner m)))) := by
  dsimp only [sectionDone, poolSectionBody]
  rw [h]
  rfl

theorem minerSection_ledger {m : Fin cfg.numMiners} {p : Program Memory LedgerResult} {d : Memory}
    {x : LedgerResult} (h : p.run (v .ledger) = (d, x)) :
    sectionDone env v r locals (.miner m) (ledgerSectionBody p) =
      systemOf (Function.update v .ledger d) r
        (Function.update locals (.miner m) (minerFinishLedger x (locals (.miner m)))) := by
  dsimp only [sectionDone, ledgerSectionBody]
  rw [h]
  rfl

theorem systemOf_copied {m : Fin cfg.numMiners} {st : MinerState cfg} {copied : Bool}
    (h : (locals (.miner m)).1 = st) :
    systemOf v r (Function.update locals (.miner m) (st, copied)) = systemOf v r locals := by
  rw [systemOf_miner v v r r, ← h, State.setMiner]
  exact congrArg (fun miners => { systemOf v r locals with miners := miners })
    (Function.update_eq_self m _)

theorem step_of_snapshotSection {m : Fin cfg.numMiners} {copied : Bool}
    (hq : locals (.miner m) = (.woken, copied)) :
    step env (systemOf v r locals) (.miner m .snapshot) =
      some (sectionDone env v r locals (.miner m) (ledgerSectionBody
        ((fun x => .snapshot x.1 x.2) <$> snapshotProgram env.sha env.att))) := by
  have hrun : Program.run ((fun x => LedgerResult.snapshot x.1 x.2) <$>
      snapshotProgram env.sha env.att) (v .ledger) = (v .ledger,
        .snapshot (previousHash env.sha env.att (v .ledger)) (numBlocks (v .ledger))) := by
    rw [Program.run_map, run_snapshotProgram]
  rw [minerSection_ledger hrun, Function.update_eq_self]
  apply step_of_miner
  rw [hq]
  rfl

theorem step_of_selectSection {m : Fin cfg.numMiners} {ph : Chars hashSize} {blockId : ℤ}
    {copied : Bool} (hq : locals (.miner m) = (.snapshot ph blockId, copied)) :
    step env (systemOf v r locals) (.miner m .select) =
      some (sectionDone env v r locals (.miner m) (poolSectionBody
        (PoolResult.selected <$> selectProgram cfg.transactionsPerBlock))) := by
  have hrun : Program.run (PoolResult.selected <$>
      selectProgram cfg.transactionsPerBlock) (v .pool) =
      ((v .pool).setSlots (selectSection cfg.transactionsPerBlock (v .pool).slots).1,
        PoolResult.selected (selectSection cfg.transactionsPerBlock (v .pool).slots).2) := by
    rw [Program.run_map, run_selectProgram]
  rw [minerSection_pool hrun]
  apply step_of_miner
  rw [hq, shared_setSlots]
  change minerStep env _ _ (.snapshot ph blockId) .select = some (_, selectedState _ ph blockId)
  have hslots : (r.shared v (posting locals)).pool.slots = (v .pool).slots := rfl
  simp only [minerStep, hslots]
  rcases selectSection cfg.transactionsPerBlock (v .pool).slots with ⟨slots, _ | reserved⟩
  · rfl
  · simp only [selectedState]
    split <;> rfl

theorem step_of_rollbackSection {m : Fin cfg.numMiners}
    {reserved : List (Reservation cfg.txPoolSize)} {copied : Bool}
    (hq : locals (.miner m) = (.rollback reserved, copied)) :
    step env (systemOf v r locals) (.miner m .rollback) =
      some (sectionDone env v r locals (.miner m) (poolSectionBody
        ((fun _ => .returned) <$> releaseProgram (reserved.map Prod.fst)))) := by
  have hrun : Program.run ((fun _ => (PoolResult.returned : PoolResult cfg)) <$>
      releaseProgram (reserved.map Prod.fst)) (v .pool) =
      ((v .pool).setSlots (release (reserved.map Prod.fst) (v .pool).slots), .returned) := by
    rw [Program.run_map, run_releaseProgram]
  rw [minerSection_pool hrun]
  apply step_of_miner
  rw [hq, shared_setSlots]
  rfl

theorem step_of_restoreSection {m : Fin cfg.numMiners}
    {reserved : List.Vector (Reservation cfg.txPoolSize) cfg.transactionsPerBlock} {copied : Bool}
    (hq : locals (.miner m) = (.restoring reserved, copied)) :
    step env (systemOf v r locals) (.miner m .restore) =
      some (sectionDone env v r locals (.miner m) (poolSectionBody ((fun _ => .returned) <$>
        restoreProgram (reserved.toList.map Prod.snd) (List.finRange cfg.txPoolSize)))) := by
  have hrun : Program.run ((fun _ => (PoolResult.returned : PoolResult cfg)) <$>
      restoreProgram (reserved.toList.map Prod.snd) (List.finRange cfg.txPoolSize)) (v .pool) =
      ((v .pool).setSlots (restoreLoop (reserved.toList.map Prod.snd) (v .pool).slots),
        .returned) := by
    rw [Program.run_map, run_restoreProgram]
  rw [minerSection_pool hrun]
  apply step_of_miner
  rw [hq, shared_setSlots]
  rfl

theorem step_of_minerSection {m : Fin cfg.numMiners} {e : MinerSection} {b : SectionBody cfg}
    (h : minerStart env e (locals (.miner m)) = some b) :
    sectionDone env v r locals (.miner m) b = systemOf v r locals ∨
      ∃ a, step env (systemOf v r locals) (.miner m a) =
        some (sectionDone env v r locals (.miner m) b) := by
  rcases hq : locals (.miner m) with ⟨st, copied⟩
  rw [hq] at h
  cases e with
  | snapshot =>
    cases st <;> simp only [minerStart, reduceCtorEq] at h
    cases h
    exact .inr ⟨_, step_of_snapshotSection hq⟩
  | select =>
    cases st <;> simp only [minerStart, reduceCtorEq] at h
    cases h
    exact .inr ⟨_, step_of_selectSection hq⟩
  | rollback =>
    cases st <;> simp only [minerStart, reduceCtorEq] at h
    cases h
    exact .inr ⟨_, step_of_rollbackSection hq⟩
  | copyIds fails =>
    cases st <;> cases copied <;> simp only [minerStart, reduceCtorEq] at h
    cases h
    have hrun : Program.run (pure (PoolResult.copied fails : PoolResult cfg)) (v .pool) =
        (v .pool, .copied fails) := rfl
    rw [minerSection_pool hrun, Function.update_eq_self, hq]
    cases fails with
    | false => exact .inl (systemOf_copied (by rw [hq]))
    | true =>
      refine .inr ⟨.checkFails, step_of_miner ?_⟩
      rw [hq]
      rfl
  | restore =>
    cases st <;> simp only [minerStart, reduceCtorEq] at h
    cases h
    exact .inr ⟨_, step_of_restoreSection hq⟩

theorem validatorSection_pool {w : Fin k}
    {p : Program (PoolData cfg.txPoolSize) (PoolResult cfg)} {d : PoolData cfg.txPoolSize}
    {x : PoolResult cfg} (h : p.run (v .pool) = (d, x)) :
    sectionDone env v r locals (.validator w) (poolSectionBody p) =
      systemOf (Function.update v .pool d) r
        (Function.update locals (.validator w) (validatorFinish x (locals (.validator w)))) := by
  dsimp only [sectionDone, poolSectionBody]
  rw [h]
  rfl

theorem validatorSection_ledger {w : Fin k} {p : Program Memory LedgerResult} {d : Memory}
    {x : LedgerResult} (h : p.run (v .ledger) = (d, x)) :
    sectionDone env v r locals (.validator w) (ledgerSectionBody p) =
      systemOf (Function.update v .ledger d) (validatorFinishLedger x r (locals (.validator w))).1
        (Function.update locals (.validator w)
          (validatorFinishLedger x r (locals (.validator w))).2) := by
  dsimp only [sectionDone, ledgerSectionBody]
  rw [h]
  rfl

theorem validatorFinish_done (st : ValidatorState cfg) : validatorFinish .done st = st := by
  cases st <;> rfl

theorem step_of_checkLinkSection {w : Fin k} {d : Delivery cfg}
    (hst : locals (.validator w) = .received d)
    (hnonce : verifyNonce env.sha d.received.block = true) :
    step env (systemOf v r locals) (.validator w .checkLink) =
      some (sectionDone env v r locals (.validator w)
        (ledgerSectionBody
          (LedgerResult.linked <$> linkProgram env.sha env.att d.received.block))) := by
  have hrun : Program.run (LedgerResult.linked <$>
      linkProgram env.sha env.att d.received.block) (v .ledger) = (v .ledger,
        .linked (checkLink env.sha env.att (v .ledger) d.received.block)) := by
    rw [Program.run_map, run_linkProgram]
  rw [validatorSection_ledger hrun, Function.update_eq_self]
  apply step_of_validator
  rw [hst]
  have hledger : (r.shared v (posting locals)).ledger = v .ledger := rfl
  simp only [validatorStep, hnonce, hledger, Bool.true_and]
  cases checkLink env.sha env.att (v .ledger) d.received.block <;> rfl

theorem step_of_checkPoolSection {w : Fin k} {d : Delivery cfg} {tip : ℕ}
    (hst : locals (.validator w) = .linked d tip) (allocated : Bool) :
    step env (systemOf v r locals)
        (.validator w (if allocated then .checkPool else .checkPoolFails)) =
      some (sectionDone env v r locals (.validator w)
        (poolSectionBody (PoolResult.checked <$>
          poolProgram allocated d.received.block.transactions))) := by
  cases allocated with
  | false =>
    have hrun : Program.run (PoolResult.checked <$>
        poolProgram false d.received.block.transactions) (v .pool) =
        (v .pool, (.checked false : PoolResult cfg)) := rfl
    rw [validatorSection_pool hrun, Function.update_eq_self]
    apply step_of_validator
    rw [hst]
    rfl
  | true =>
    have hrun : Program.run (PoolResult.checked <$>
        poolProgram true d.received.block.transactions) (v .pool) = ((v .pool).setSlots
          (poolSection d.received.block.transactions (v .pool).slots).2, (.checked
            (poolSection d.received.block.transactions (v .pool).slots).1 : PoolResult cfg)) := by
      rw [Program.run_map, run_poolProgram]
    have hslots : (r.shared v (posting locals)).pool.slots = (v .pool).slots := rfl
    rw [validatorSection_pool hrun]
    apply step_of_validator
    rw [hst, shared_setSlots]
    simp only [validatorStep, hslots]
    rcases poolSection d.received.block.transactions (v .pool).slots with ⟨valid, slots⟩
    cases valid <;> rfl

theorem step_of_appendSection {w : Fin k} {d : Delivery cfg} {tip : ℕ}
    (hst : locals (.validator w) = .appending d tip) :
    step env (systemOf v r locals) (.validator w .append) =
      some (sectionDone env v r locals (.validator w)
        (ledgerSectionBody ((fun _ => .appended) <$> appendProgram env.att d.received))) := by
  have hrun : Program.run ((fun _ => LedgerResult.appended) <$>
      appendProgram env.att d.received) (v .ledger) =
      (appendBlock env.att d.received (v .ledger), .appended) := by
    rw [Program.run_map, run_appendProgram]
  rw [validatorSection_ledger hrun]
  apply step_of_validator
  rw [hst]
  rfl

theorem step_of_removeSection {w : Fin k} {d : Delivery cfg}
    (hst : locals (.validator w) = .removing d) :
    step env (systemOf v r locals) (.validator w .remove) =
      some (sectionDone env v r locals (.validator w)
        (poolSectionBody ((fun _ => .returned) <$> removeProgram d.received))) := by
  have hpool := run_removeProgram d.received (r.shared v (posting locals)).pool
  have hrun : Program.run ((fun _ => (PoolResult.returned : PoolResult cfg)) <$>
      removeProgram d.received) (v .pool) = ((removeTransactionsFromPool d.received
        (r.shared v (posting locals)).pool).guarded, .returned) := by
    rw [Program.run_map]
    exact congrArg (fun p => (p.1, PoolResult.returned)) hpool
  rw [validatorSection_pool hrun]
  apply step_of_validator
  rw [hst, shared_setPool v _ _ (removeTransactionsFromPool_sem _ _)]
  rfl

theorem step_of_restoreRefusedSection {w : Fin k} {d : Delivery cfg}
    (hst : locals (.validator w) = .full d) :
    step env (systemOf v r locals) (.validator w .restoreRefused) =
      some (sectionDone env v r locals (.validator w)
        (poolSectionBody ((fun _ => .returned) <$> restoreRefusedProgram d.received))) := by
  have hpool := run_restoreRefusedProgram d.received (r.shared v (posting locals)).pool
  have hrun : Program.run ((fun _ => (PoolResult.returned : PoolResult cfg)) <$>
      restoreRefusedProgram d.received) (v .pool) = ((restoreRefused d.received
        (r.shared v (posting locals)).pool).guarded, .returned) := by
    rw [Program.run_map]
    exact congrArg (fun p => (p.1, PoolResult.returned)) hpool
  rw [validatorSection_pool hrun]
  apply step_of_validator
  rw [hst, shared_setPool v _ _ (restoreRefused_sem _ _)]
  rfl

theorem step_of_ageSection {w : Fin k} :
    step env (systemOf v r locals) (.shared .age) =
      some (sectionDone env v r locals (.validator w)
        (poolSectionBody ((fun _ => .done) <$> ageProgram (List.finRange cfg.txPoolSize)))) := by
  have hrun : Program.run ((fun _ => (PoolResult.done : PoolResult cfg)) <$>
      ageProgram (List.finRange cfg.txPoolSize)) (v .pool) =
      ((v .pool).setSlots (ageSection (v .pool).slots), .done) := by
    rw [Program.run_map, run_ageProgram]
  rw [validatorSection_pool hrun, validatorFinish_done, Function.update_eq_self]
  exact step_of_shared (fun _ => rfl) (fun _ => rfl) (by rw [shared_setSlots]; rfl)

theorem step_of_validatorSection {w : Fin k} {e : ValidatorSection} {b : SectionBody cfg}
    (h : validatorStart env e (locals (.validator w)) = some b) :
    sectionDone env v r locals (.validator w) b = systemOf v r locals ∨
      step env (systemOf v r locals) (.shared .age) =
        some (sectionDone env v r locals (.validator w) b) ∨
      ∃ a, (∀ r, a ≠ .deliver r) ∧ (a = .append → e = .append) ∧
        step env (systemOf v r locals) (.validator w a) =
          some (sectionDone env v r locals (.validator w) b) := by
  cases hst : locals (.validator w) with
  | idle =>
    rw [hst] at h
    cases e <;> simp only [validatorStart, reduceCtorEq] at h
    · cases h
      have hrun : Program.run ((fun _ => (PoolResult.done : PoolResult cfg)) <$>
          Program.read PoolData.occupancy) (v .pool) = (v .pool, .done) := rfl
      rw [validatorSection_pool hrun, validatorFinish_done, Function.update_eq_self,
        Function.update_eq_self]
      exact .inl rfl
    · cases h
      exact .inr (.inl step_of_ageSection)
  | received d =>
    rw [hst] at h
    cases e <;> simp only [validatorStart, reduceCtorEq] at h
    split at h <;> cases h
    exact .inr (.inr ⟨_, by simp, by simp, step_of_checkLinkSection hst ‹_›⟩)
  | linked d tip =>
    rw [hst] at h
    cases e <;> simp only [validatorStart, reduceCtorEq] at h
    rename_i allocated
    cases h
    refine .inr (.inr ⟨_, ?_, ?_, step_of_checkPoolSection hst allocated⟩) <;>
      cases allocated <;> simp
  | appending d tip =>
    rw [hst] at h
    cases e <;> simp only [validatorStart, reduceCtorEq] at h
    cases h
    exact .inr (.inr ⟨_, by simp, by simp, step_of_appendSection hst⟩)
  | removing d =>
    rw [hst] at h
    cases e <;> simp only [validatorStart, reduceCtorEq] at h
    cases h
    exact .inr (.inr ⟨_, by simp, by simp, step_of_removeSection hst⟩)
  | full d =>
    rw [hst] at h
    cases e <;> simp only [validatorStart, reduceCtorEq] at h
    cases h
    exact .inr (.inr ⟨_, by simp, by simp, step_of_restoreRefusedSection hst⟩)
  | accepted d tip =>
    rw [hst] at h
    cases e <;> cases h

theorem step_of_generatorSection {g : Fin γ} {tx : Transaction} {b : SectionBody cfg}
    (h : generatorStart tx (locals (.generator g)) = some b) :
    step env (systemOf v r locals) (.shared (.add tx)) =
      some (sectionDone env v r locals (.generator g) b) := by
  unfold generatorStart at h
  split at h
  · cases h
  · rename_i hready
    cases h
    rw [step_of_add (Bool.eq_false_iff.mpr hready)]
    dsimp only [sectionDone, poolSectionBody]
    rw [Program.run_map]
    rfl

-- The steps of the runs that are spoken of.
structure Permitted (sc : Scope) (s : State cfg k) (l : Label cfg k) : Prop where
  honest : sc.honest = true → Honest s l
  range : ∀ v, l = .validator v .append → ProductFits cfg s.ledger
  room : sc.spacious = true → Spacious s l

theorem permitted_shared {sc : Scope} {s : State cfg k} {a : SharedAction}
    (h : sc.honest = true → Honest s (.shared a)) : Permitted sc s (.shared a) :=
  ⟨h, fun _ hl => (by cases hl), fun _ => rfl⟩

theorem permitted_miner {sc : Scope} {s : State cfg k} {m : Fin cfg.numMiners}
    {a : MinerAction} : Permitted sc s (.miner m a) :=
  ⟨fun _ => rfl, fun _ hl => (by cases hl), fun _ => rfl⟩

theorem permitted_validator {sc : Scope} {s : State cfg k} {v : Fin k}
    {a : ValidatorAction cfg} (hdeliver : sc.honest = true → ∀ r, a ≠ .deliver r)
    (happend : a = .append →
      ProductFits cfg s.ledger ∧ (sc.spacious = true → HasRoom cfg s.ledger)) :
    Permitted sc s (.validator v a) := by
  refine ⟨fun honly => ?_, fun w hl => ?_, fun hspacious => ?_⟩
  · cases a with
    | deliver r => exact absurd rfl (hdeliver honly r)
    | _ => rfl
  · cases hl
    exact (happend rfl).1
  · cases a with
    | append => exact decide_eq_true ((happend rfl).2 hspacious)
    | _ => rfl

theorem validatorStart_append {st : ValidatorState cfg} {b : SectionBody cfg}
    (h : validatorStart env .append st = some b) : b.1 = .ledger := by
  cases st <;> cases h
  rfl

-- Reading the occupancy and copying the ids are moves that the system does not see.
theorem step_of_wholeMove {sc : Scope} {w w' : Critical.Whole (fineCode env γ k)}
    (h : WholeMove (rules env γ k sc) w w') :
    wholeSystem w' = wholeSystem w ∨
      Next (step env) (Permitted sc) (wholeSystem w) (wholeSystem w') := by
  cases h with
  | @plain i a r q hallow hplain =>
    cases i with
    | generator g =>
      exact .inr ⟨.shared .post, permitted_shared (fun _ => rfl), step_of_post hplain⟩
    | miner m => exact .inr ⟨.miner m a, permitted_miner, step_of_minerPlain hplain⟩
    | validator v =>
      refine .inr ⟨.validator v a, permitted_validator ?_ ?_, step_of_validatorPlain hplain⟩
      · rintro honly d rfl
        exact absurd hallow (by simp [rules, plainAllowed, honly])
      · rintro rfl
        cases hplain
    | main =>
      refine .inr ⟨.shared a, permitted_shared (fun _ => ?_), step_of_mainPlain hplain⟩
      cases a with
      | add tx => cases hplain
      | _ => rfl
  | @done i e m p hrest hdata hstart =>
    cases i with
    | generator g =>
      refine .inr ⟨.shared (.add e), permitted_shared (fun honly => ?_),
        step_of_generatorSection hstart⟩
      simpa [rules, enterRest, honly, Honest, honest, wholeSystem, systemOf, Unguarded.shared]
        using hrest
    | miner m =>
      rcases step_of_minerSection (r := w.rest) hstart with hsame | ⟨a, hstep⟩
      · exact .inl hsame
      · exact .inr ⟨.miner m a, permitted_miner, hstep⟩
    | validator v =>
      rcases step_of_validatorSection (r := w.rest) hstart with
        hsame | hage | ⟨a, ha, happend, hstep⟩
      · exact .inl hsame
      · exact .inr ⟨.shared .age, permitted_shared (fun _ => rfl), hage⟩
      · refine .inr ⟨.validator v a, permitted_validator (fun _ => ha) (fun heq => ?_), hstep⟩
        cases happend heq
        obtain rfl : m = .ledger := validatorStart_append hstart
        exact enterData_append hdata
    | main => cases e

theorem reachable_of_wholeMoves {sc : Scope} {w w' : Critical.Whole (fineCode env γ k)}
    (h : Relation.ReflTransGen (WholeMove (rules env γ k sc)) w w') :
    Reachable (step env) (Permitted sc) (wholeSystem w) (wholeSystem w') := by
  induction h with
  | refl => exact .refl _
  | tail _ hmove ih =>
    rcases step_of_wholeMove hmove with hsame | hnext
    · rw [hsame]
      exact ih
    · exact Relation.ReflTransGen.tail ih hnext

theorem wholeSystem_init : wholeSystem (initWhole env γ k) = initState cfg k := by
  have hposting : posting (initWhole env γ k).locals = 0 := count_eq_zero.mpr (fun _ => rfl)
  have hinit : wholeSystem (initWhole env γ k) =
      { initState cfg k with pendingPosts := posting (initWhole env γ k).locals } := rfl
  rw [hinit, hposting]
  rfl

end DeiChain
