import DeiChain.Chain
import DeiChain.FineCode

namespace DeiChain

open ByteLayout ByteMemory Critical Turns

variable {cfg : Config} {γ k : ℕ}

-- Which runs are spoken of: honest ones only, and those that append to a ledger with room only.
structure Scope where
  honest : Bool
  spacious : Bool

def enterRest (sc : Scope) : ∀ i : Party cfg γ k, PartySection i → Unguarded cfg → Bool
  | .generator _, tx, r => !sc.honest || (!tx.id.isEmpty && !r.used.contains tx.id)
  | _, _, _ => true

-- Beyond the int range the copies of an append might hit the counter.
def enterData (sc : Scope) : ∀ i : Party cfg γ k, PartySection i → ∀ m, MutexData cfg m → Bool
  | .validator _, .append, .ledger, m => ProductFits cfg m && (!sc.spacious || HasRoom cfg m)
  | _, _, _, _ => true

def plainAllowed (sc : Scope) : ∀ i : Party cfg γ k, PartyPlain i → Bool
  | .validator _, .deliver _ => !sc.honest
  | _, _ => true

theorem enterData_append {sc : Scope} {v : Fin k} {m : Memory}
    (h : enterData sc (.validator v : Party cfg γ k) .append .ledger m = true) :
    ProductFits cfg m ∧ (sc.spacious = true → HasRoom cfg m) := by
  have hboth : decide (ProductFits cfg m) = true ∧
      (!sc.spacious || decide (HasRoom cfg m)) = true := Bool.and_eq_true_iff.mp h
  refine ⟨of_decide_eq_true hboth.1, fun hroom => ?_⟩
  have hsome := hboth.2
  rw [hroom] at hsome
  exact of_decide_eq_true hsome

theorem minerStep_shared {env : Environment cfg} {minerId : ℕ} {copied : Bool} {a : MinerAction}
    (h : a.plain copied = true) (r : Unguarded cfg) (v v' : AllData cfg) (n n' : ℕ)
    (st : MinerState cfg) : minerStep env minerId (r.shared v n) st a =
      (minerStep env minerId (r.shared v' n') st a).map
        (fun p => (p.1.unguarded.shared v n, p.2)) := by
  cases a with
  | wait =>
    cases st <;> simp only [minerStep, Option.map_none]
    change (if 0 < r.workNotificationSem then _ else _) =
      (if 0 < r.workNotificationSem then _ else _ : Option _).map _
    split <;> rfl
  | mine retryClock =>
    cases st <;> simp only [minerStep, Option.map_none]
    split <;> rfl
  | quit =>
    cases st <;> simp only [minerStep, Option.map_none]
    all_goals
      change (if r.shouldTerminate = true then _ else _) =
        (if r.shouldTerminate = true then _ else _ : Option _).map _
      split <;> rfl
  | snapshot => cases h
  | select => cases h
  | rollback => cases h
  | checkFails => cases h
  | restore => cases h
  | _ => cases st <;> rfl

theorem validatorStep_shared {env : Environment cfg} {a : ValidatorAction cfg}
    {st : ValidatorState cfg} (h : a.plain env.sha st = true) (r : Unguarded cfg)
    {v v' : AllData cfg} (hcount : numBlocks (v .ledger) = numBlocks (v' .ledger)) (n n' : ℕ) :
    validatorStep env (r.shared v n) st a =
      (validatorStep env (r.shared v' n') st a).map
        (fun p => (p.1.unguarded.shared v n, p.2)) := by
  cases a with
  | receive i heapPtr =>
    cases st with
    | idle =>
      have hpipe : ∀ v n, (r.shared v n).pipe i = r.pipe i := fun _ _ => rfl
      simp only [validatorStep, hpipe]
      cases r.pipe i <;> rfl
    | _ => rfl
  | deliver r => cases st <;> rfl
  | checkLink =>
    cases st with
    | received d =>
      have hnonce : verifyNonce env.sha d.received.block = false := by
        simpa [ValidatorAction.plain] using h
      simp [validatorStep, hnonce]
      rfl
    | _ => rfl
  | testCapacity =>
    cases st with
    | accepted d tip =>
      change some (_, if numBlocks (v .ledger) ≥ _ then _ else _) =
        some (_, if numBlocks (v' .ledger) ≥ _ then _ else _)
      rw [hcount]
      rfl
    | _ => rfl
  | checkPool => cases h
  | checkPoolFails => cases h
  | append => cases h
  | remove => cases h
  | restoreRefused => cases h

theorem sharedStep_shared {a : SharedAction} (h : a.plain = true) (r : Unguarded cfg)
    (v v' : AllData cfg) (n n' : ℕ) : sharedStep (r.shared v n) a =
      (sharedStep (r.shared v' n') a).map (fun sh => sh.unguarded.shared v n) := by
  cases a with
  | mainPost =>
    change (if r.shouldTerminate = true ∧ r.mainPosts < cfg.numMiners then _ else _) =
      (if r.shouldTerminate = true ∧ r.mainPosts < cfg.numMiners then _ else _ : Option _).map _
    split <;> rfl
  | terminate => rfl
  | lose i => rfl
  | add tx => cases h
  | post => cases h
  | age => cases h

-- The counter is all that a plain step sees of guarded data.
theorem plain_congr {env : Environment cfg} {v v' : AllData cfg}
    (hcount : numBlocks (v .ledger) = numBlocks (v' .ledger)) (i : Party cfg γ k)
    (a : PartyPlain i) (r : Unguarded cfg) (q : PartyLocal i) :
    (fineCode env γ k).plain i a v r q = (fineCode env γ k).plain i a v' r q := by
  cases i with
  | generator g => rfl
  | miner m =>
    change minerPlain env _ a (r.shared v 0) q = minerPlain env _ a (r.shared v' 0) q
    unfold minerPlain
    split
    · rename_i hplain
      rw [minerStep_shared hplain r v v' 0 0, Option.map_map]
      rfl
    · rfl
  | validator w =>
    change validatorPlain env a (r.shared v 0) q = validatorPlain env a (r.shared v' 0) q
    unfold validatorPlain
    split
    · rename_i hplain
      rw [validatorStep_shared hplain r hcount 0 0, Option.map_map]
      rfl
    · rfl
  | main =>
    change mainPlain a (r.shared v 0) = mainPlain a (r.shared v' 0)
    unfold mainPlain
    split
    · rename_i hplain
      rw [sharedStep_shared hplain r v v' 0 0, Option.map_map]
      rfl
    · rfl

theorem minerStart_ledger {env : Environment cfg} {e : MinerSection} {q : MinerState cfg × Bool}
    {p : Program Memory LedgerResult} (h : minerStart env e q = some ⟨.ledger, p⟩) (m : Memory) :
    p.Keeps (fun m' => m' = m) m := by
  obtain ⟨st, copied⟩ := q
  cases e with
  | snapshot =>
    cases st <;> simp only [minerStart, reduceCtorEq] at h
    cases h
    exact (Program.keeps_map _ _ _ _).mpr (snapshotProgram_keeps env.sha env.att m)
  | copyIds fails => cases st <;> cases copied <;> cases h
  | _ => cases st <;> cases h

theorem validatorStart_ledger {env : Environment cfg} {e : ValidatorSection}
    {st : ValidatorState cfg} {p : Program Memory LedgerResult}
    (h : validatorStart env e st = some ⟨.ledger, p⟩) :
    (∀ m, p.Keeps (fun m' => m' = m) m) ∨
      ∃ r, e = .append ∧ p = (fun _ => .appended) <$> appendProgram env.att r := by
  cases e with
  | checkLink =>
    cases st <;> simp only [validatorStart, reduceCtorEq] at h
    rename_i d
    split at h
    · cases h
      exact .inl (fun m => (Program.keeps_map _ _ _ _).mpr
        (linkProgram_keeps env.sha env.att d.received.block m))
    · cases h
  | append =>
    cases st <;> simp only [validatorStart, reduceCtorEq] at h
    cases h
    exact .inr ⟨_, rfl, rfl⟩
  | _ => cases st <;> cases h

-- How the ledger looks between the turns of a section.
theorem untouched_of_path {env : Environment cfg} {sc : Scope} {i : Party cfg γ k}
    {e : PartySection i} {q : PartyLocal i} {p₀ p : Program Memory LedgerResult} {m m' : Memory}
    (hstart : (fineCode env γ k).start i e q = some ⟨.ledger, p₀⟩)
    (hdata : enterData sc i e .ledger m = true) (hpath : Program.Path p₀ m p m') :
    m' = m ∨ ∃ n : ℕ, numBlocks m = n ∧ n * cfg.transactionsPerBlock < 2 ^ 31 ∧
      (sc.spacious = true → Addressable cfg n) ∧ Untouched cfg n m m' := by
  cases i with
  | generator g =>
    change generatorStart e q = _ at hstart
    unfold generatorStart at hstart
    split at hstart <;> cases hstart
  | miner w => exact .inl (hpath.keeps (minerStart_ledger hstart m) rfl).1
  | validator w =>
    rcases validatorStart_ledger hstart with hkeeps | ⟨r, rfl, rfl⟩
    · exact .inl (hpath.keeps (hkeeps m) rfl).1
    · obtain ⟨⟨n, hcount, hn⟩, hroom⟩ := enterData_append hdata
      have hkeeps := (Program.keeps_map (Untouched cfg n m) (appendProgram env.att r)
        (fun _ => LedgerResult.appended) m).mpr (appendProgram_keeps env.att r hn hcount)
      refine .inr ⟨n, hcount, hn, fun hspacious => ?_, (hpath.keeps hkeeps (fun _ _ => rfl)).1⟩
      obtain ⟨n', hcount', hn'⟩ := hroom hspacious
      obtain rfl : n' = n := by exact_mod_cast hcount'.symm.trans hcount
      exact hn'
  | main => cases e

theorem plain_history {env : Environment cfg} {v : AllData cfg} {i : Party cfg γ k}
    {a : PartyPlain i} {r r' : Unguarded cfg} {q q' : PartyLocal i}
    (h : (fineCode env γ k).plain i a v r q = some (r', q')) :
    r'.used = r.used ∧ r'.committed = r.committed := by
  cases i with
  | generator g =>
    change generatorPost r q = _ at h
    unfold generatorPost at h
    split at h <;> cases h
    exact ⟨rfl, rfl⟩
  | miner m =>
    change minerPlain env _ a (r.shared v 0) q = _ at h
    unfold minerPlain at h
    split at h
    · obtain ⟨⟨sh, st⟩, hstep, heq⟩ := Option.map_eq_some_iff.mp h
      cases heq
      have hmove := minerMove_of_step hstep
      generalize q.1 = old at hmove
      cases hmove <;> exact ⟨rfl, rfl⟩
    · cases h
  | validator w =>
    change validatorPlain env a (r.shared v 0) q = _ at h
    unfold validatorPlain at h
    split at h
    · obtain ⟨⟨sh, st⟩, hstep, heq⟩ := Option.map_eq_some_iff.mp h
      cases heq
      have hmove := validatorMove_of_step hstep
      cases a with
      | append => contradiction
      | _ => cases hmove <;> exact ⟨rfl, rfl⟩
    · cases h
  | main =>
    change mainPlain a (r.shared v 0) = _ at h
    unfold mainPlain at h
    split at h
    · obtain ⟨sh, hstep, heq⟩ := Option.map_eq_some_iff.mp h
      cases heq
      cases sharedMove_of_step hstep with
      | add tx => contradiction
      | addFails tx => contradiction
      | _ => exact ⟨rfl, rfl⟩
    · cases h

theorem validatorFinishLedger_used (x : LedgerResult) (r : Unguarded cfg)
    (st : ValidatorState cfg) : (validatorFinishLedger x r st).1.used = r.used := by
  unfold validatorFinishLedger
  split <;> rfl

theorem finishLedger_used (env : Environment cfg) (i : Party cfg γ k) (x : LedgerResult)
    (r : Unguarded cfg) (q : PartyLocal i) :
    ((fineCode env γ k).finish i .ledger x r q).1.used = r.used := by
  cases i with
  | validator v => exact validatorFinishLedger_used x r q
  | _ => rfl

theorem finish_committed (env : Environment cfg) (i : Party cfg γ k) (m : Mutex)
    (x : MutexResult cfg m) (r : Unguarded cfg) (q : PartyLocal i) :
    r.committed <+: ((fineCode env γ k).finish i m x r q).1.committed := by
  cases i with
  | validator v =>
    cases m with
    | pool => exact List.prefix_rfl
    | ledger =>
      change r.committed <+: (validatorFinishLedger x r q).1.committed
      generalize (q : ValidatorState cfg) = st
      unfold validatorFinishLedger
      split
      · exact List.prefix_rfl
      · exact List.prefix_rfl
      · exact List.prefix_append _ _
      · exact List.prefix_rfl
  | generator g =>
    cases m with
    | pool => cases x <;> exact List.prefix_rfl
    | ledger => exact List.prefix_rfl
  | miner n => cases m <;> exact List.prefix_rfl
  | main => exact List.prefix_rfl

def rules (env : Environment cfg) (γ k : ℕ) (sc : Scope) : Rules (fineCode env γ k) where
  plain i a := plainAllowed sc i a = true
  rest i e r := enterRest sc i e r = true
  data i e m d := enterData sc i e m d = true
  blind := by
    intro v v' hseen i a r q
    refine plain_congr ?_ i a r q
    rcases hseen .ledger with hsame | ⟨i, e, q, p₀, p, hstart, hdata, hpath⟩
    · rw [hsame]
    · rcases untouched_of_path hstart hdata hpath with hsame | ⟨n, -, hn, -, huntouched⟩
      · rw [hsame]
      · exact huntouched.numBlocks_eq hn
  rest_plain := by
    intro i e j a v r q r' q' hrest hplain
    cases i with
    | generator g =>
      dsimp only [enterRest] at hrest ⊢
      rw [(plain_history hplain).1]
      exact hrest
    | _ => rfl
  rest_finish := by
    intro i e q m p j m' x r q' hrest hstart hne
    cases i with
    | generator g =>
      change generatorStart e q = _ at hstart
      unfold generatorStart at hstart
      split at hstart <;> cases hstart
      cases m' with
      | pool => exact absurd rfl hne
      | ledger =>
        dsimp only [enterRest] at hrest ⊢
        rw [finishLedger_used env j x r q']
        exact hrest
    | _ => rfl

theorem enterData_of_spacious {honest : Bool} {i : Party cfg γ k} {e : PartySection i} {m : Mutex}
    {d : MutexData cfg m} (h : enterData ⟨honest, true⟩ i e m d = true) :
    enterData ⟨honest, false⟩ i e m d = true := by
  cases i with
  | validator v =>
    cases e with
    | append =>
      cases m with
      | pool => exact h
      | ledger => exact Bool.and_eq_true_iff.mpr ⟨(Bool.and_eq_true_iff.mp h).1, rfl⟩
    | _ => exact h
  | _ => exact h

theorem allowed_of_spacious {env : Environment cfg} {honest : Bool}
    (s : Critical.State (fineCode env γ k)) (l : Critical.Label (fineCode env γ k))
    (h : Allowed (rules env γ k ⟨honest, true⟩) s l) :
    Allowed (rules env γ k ⟨honest, false⟩) s l := by
  cases l with
  | enter i e => exact ⟨h.1, fun m p hstart => enterData_of_spacious (h.2 m p hstart)⟩
  | _ => exact h

theorem allowed_enter_iff {env : Environment cfg} {sc : Scope}
    {s : Critical.State (fineCode env γ k)} {i : Party cfg γ k} {e : PartySection i} :
    Allowed (rules env γ k sc) s (.enter i e) ↔
      enterRest sc i e s.rest = true ∧
        ((fineCode env γ k).start i e (s.control i).loc).all
          (fun b => enterData sc i e b.1 (s.data b.1)) = true := by
  refine and_congr_right (fun _ => ?_)
  cases hstart : (fineCode env γ k).start i e (s.control i).loc with
  | none => simp
  | some b =>
    constructor
    · intro h
      exact h b.1 b.2 rfl
    · rintro h m p heq
      cases heq
      exact h

instance {env : Environment cfg} {sc : Scope} (s : Critical.State (fineCode env γ k)) :
    ∀ l, Decidable (Allowed (rules env γ k sc) s l)
  | .plain i a => inferInstanceAs (Decidable (plainAllowed sc i a = true))
  | .enter _ _ => decidable_of_iff _ allowed_enter_iff.symm
  | .turn _ => .isTrue trivial
  | .leave _ => .isTrue trivial

end DeiChain
