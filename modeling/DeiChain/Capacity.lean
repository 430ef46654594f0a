import DeiChain.Chain
import DeiChain.Library.Counting

namespace DeiChain

open ByteMemory Transition Counting

variable {cfg : Config} {k : ℕ} {env : Environment cfg}

def appendingCount (s : State cfg k) : ℕ := count ValidatorState.appends s.validators

-- A capacity test that passes leaves an entry for every validator still on its way to the
-- append, and no append wraps the int product.
def Roomy (s : State cfg k) (l : Label cfg k) : Prop :=
  (∀ v d tip, l = .validator v .testCapacity → s.validators v = .accepted d tip →
    numBlocks s.ledger < cfg.blockchainBlocks →
    numBlocks s.ledger + appendingCount s < cfg.blockchainBlocks) ∧
  ∀ v d tip, l = .validator v .append → s.validators v = .appending d tip →
    numBlocks s.ledger * cfg.transactionsPerBlock < 2 ^ 31

def roomy (s : State cfg k) : Label cfg k → Bool
  | .validator v .testCapacity =>
    match s.validators v with
    | .accepted _ _ => numBlocks s.ledger < cfg.blockchainBlocks →
        numBlocks s.ledger + appendingCount s < cfg.blockchainBlocks
    | _ => true
  | .validator v .append =>
    match s.validators v with
    | .appending _ _ => numBlocks s.ledger * cfg.transactionsPerBlock < 2 ^ 31
    | _ => true
  | _ => true

theorem roomy_sound {s : State cfg k} {l : Label cfg k} (h : roomy s l = true) : Roomy s l := by
  constructor
  · rintro v d tip rfl hst hfree
    simp only [roomy, hst] at h
    exact of_decide_eq_true h hfree
  · rintro v d tip rfl hst
    simp only [roomy, hst] at h
    exact of_decide_eq_true h

structure CapacityInvariant (env : Environment cfg) (s : State cfg k) : Prop where
  represents : Represents env.att s.ledger s.committed
  room : s.committed.length + appendingCount s ≤ cfg.blockchainBlocks

theorem capacityInvariant_init : CapacityInvariant env (initState cfg k) where
  represents := represents_initLedger
  room := by
    have hnone : appendingCount (initState cfg k) = 0 := count_eq_zero.mpr (fun _ => rfl)
    rw [hnone]
    exact Nat.zero_le _

theorem CapacityInvariant.addressable {s : State cfg k} (h : CapacityInvariant env s)
    {v : Fin k} {d : Delivery cfg} {tip : ℕ} (hst : s.validators v = .appending d tip)
    (hallow : Roomy s (.validator v .append)) : Addressable cfg s.committed.length := by
  have hpos : 0 < appendingCount s := count_pos (i := v) (by rw [hst]; rfl)
  have hroom := h.room
  have hprod := hallow.2 v d tip rfl hst
  rw [h.represents.count] at hprod
  exact ⟨by omega, by exact_mod_cast hprod⟩

theorem CapacityInvariant.step {s t : State cfg k} {l : Label cfg k}
    (h : CapacityInvariant env s) (hallow : Roomy s l) (hstep : step env s l = some t) :
    CapacityInvariant env t := by
  rcases step_cases hstep with ⟨a, sh, rfl, hmove, rfl⟩ | ⟨m, a, sh, st, rfl, hmove, rfl⟩ |
    ⟨v, a, sh, st, rfl, hmove, rfl⟩
  · obtain ⟨hledger, hcommitted⟩ := hmove.ledger
    exact ⟨hledger ▸ hcommitted ▸ h.represents, hcommitted ▸ h.room⟩
  · obtain ⟨hledger, hcommitted⟩ := hmove.ledger
    exact ⟨hledger ▸ hcommitted ▸ h.represents, hcommitted ▸ h.room⟩
  · have hroom := h.room
    have hcount : appendingCount (s.setValidator sh v st) +
        (s.validators v).appends.toNat = appendingCount s + st.appends.toNat := count_update
    generalize hst : s.validators v = old at hmove hcount
    cases hmove with
    | append =>
      simp only [ValidatorState.appends, Bool.toNat_true, Bool.toNat_false] at hcount
      refine ⟨h.represents.append (h.addressable hst hallow), ?_⟩
      change (s.committed ++ [_]).length + _ ≤ _
      rw [List.length_append, List.length_singleton]
      omega
    | fits hfree =>
      have hspare := hallow.1 v _ _ rfl hst hfree
      rw [h.represents.count] at hspare
      simp only [ValidatorState.appends, Bool.toNat_true, Bool.toNat_false] at hcount
      refine ⟨h.represents, ?_⟩
      change s.committed.length + _ ≤ _
      omega
    | _ =>
      simp only [ValidatorState.appends, Bool.toNat_false, add_zero] at hcount
      exact ⟨h.represents, hcount ▸ hroom⟩

theorem capacityInvariant_of_reachable {s : State cfg k}
    (h : Reachable (step env) Roomy (initState cfg k) s) : CapacityInvariant env s :=
  h.invariant capacityInvariant_init (fun _ _ _ hs hallow hstep => hs.step hallow hstep)

theorem CapacityInvariant.roomy {s : State cfg 1} (h : CapacityInvariant env s)
    (hno : cfg.blockchainBlocks * cfg.transactionsPerBlock < 2 ^ 31) (l : Label cfg 1) :
    Roomy s l := by
  refine ⟨fun v d tip _ hst hfree => ?_, fun v d tip _ hst => ?_⟩
  · have hnone : appendingCount s = 0 :=
      count_eq_zero.mpr (fun w => by rw [Subsingleton.elim w v, hst]; rfl)
    rw [hnone]
    simpa using hfree
  · have hpos : 0 < appendingCount s := count_pos (i := v) (by rw [hst]; rfl)
    have hroom := h.room
    have haddr : Addressable cfg s.committed.length := addressable_of_lt hno (by omega)
    rw [h.represents.count]
    exact_mod_cast haddr.product

theorem roomy_of_single {s : State cfg 1}
    (hno : cfg.blockchainBlocks * cfg.transactionsPerBlock < 2 ^ 31)
    (h : Reachable (step env) always (initState cfg 1) s) :
    Reachable (step env) Roomy (initState cfg 1) s :=
  h.restrict capacityInvariant_init (fun _ l _ ha _ hstep => ha.step (ha.roomy hno l) hstep)
    (fun _ l ha _ => ha.roomy hno l)

theorem step_append {s t : State cfg k} {v : Fin k}
    (h : step env s (.validator v .append) = some t) :
    ∃ d tip, s.validators v = .appending d tip ∧
      t.ledger = appendBlock env.att d.received s.ledger := by
  rcases step_cases h with ⟨_, _, hl, -, -⟩ | ⟨_, _, _, _, hl, -, -⟩ |
    ⟨w, a, sh, st, hl, hmove, rfl⟩
  · cases hl
  · cases hl
  · cases hl
    generalize hst : s.validators v = old at hmove
    cases hmove with
    | append => exact ⟨_, _, rfl, rfl⟩

theorem capacity_respected {s : State cfg k}
    (h : Reachable (step env) Roomy (initState cfg k) s) :
    numBlocks s.ledger ≤ cfg.blockchainBlocks ∧
      ∀ v t, Roomy s (.validator v .append) → step env s (.validator v .append) = some t →
        ∃ i : ℕ, numBlocks s.ledger = i ∧ i < cfg.blockchainBlocks ∧
          ∀ x, t.ledger x ≠ s.ledger x → (0 ≤ x ∧ x < 4) ∨ EntryBytes cfg i x := by
  have hinv := capacityInvariant_of_reachable h
  refine ⟨by rw [hinv.represents.count]; exact_mod_cast hinv.represents.capacity, ?_⟩
  intro v t hallow hstep
  obtain ⟨d, tip, hst, hledger⟩ := step_append hstep
  have haddr := hinv.addressable hst hallow
  refine ⟨s.committed.length, hinv.represents.count, haddr.lt, ?_⟩
  intro x hx
  by_contra hout
  obtain ⟨hfield, hentry⟩ := not_or.mp hout
  refine hx ?_
  rw [hledger]
  exact appendBlock_frame haddr hinv.represents.count (by omega) hentry

-- The second validator fills the ledger; a third block is turned down.
theorem capacity_respected_when_full :
    ∃ s : State (Sample.config 1) 2, s.committed = [Sample.block 1, Sample.replay 2] ∧
      s.used = [[3], [2], [1]] ∧
      numBlocks s.ledger ≤ (Sample.config 1).blockchainBlocks := by
  let labels : List (Label (Sample.config 1) 2) := Sample.inTurn 0 1 ++
    [.validator 1 .remove, .shared (.add (Sample.transaction 3)),
      .validator 0 (.deliver (Sample.replayReceived 3)), .validator 0 .checkLink,
      .validator 0 .checkPool, .validator 0 .testCapacity]
  have hrun : (runAllowed (step (Sample.environment 1)) (fun s l => roomy s l = true)
      (initState _ 2) labels).any (fun s => decide
        (s.committed = [Sample.block 1, Sample.replay 2] ∧ s.used = [[3], [2], [1]])) = true := by
    decide +kernel
  obtain ⟨s, hs, hend⟩ := (Option.any_eq_true ..).mp hrun
  obtain ⟨hcommitted, hused⟩ := of_decide_eq_true hend
  exact ⟨s, hcommitted, hused,
    (capacity_respected ((reachable_of_runAllowed hs).mono (fun _ _ => roomy_sound))).1⟩

theorem capacity_exceeded_by_two_validators :
    ∃ s : State (Sample.config 0) 2,
      Reachable (step (Sample.environment 0)) always (initState _ 2) s ∧
        ¬ numBlocks s.ledger ≤ (Sample.config 0).blockchainBlocks := by
  let labels : List (Label (Sample.config 0) 2) :=
    Sample.validate 0 1 ++ Sample.validate 1 2 ++
      [.validator 0 .testCapacity, .validator 1 .testCapacity, .validator 0 .append,
        .validator 1 .append]
  have hsome : (run (step (Sample.environment 0)) (initState _ 2) labels).isSome = true := by
    decide
  obtain ⟨s, hrun⟩ := Option.isSome_iff_exists.mp hsome
  have hcount : (run (step (Sample.environment 0)) (initState _ 2) labels).map
      (fun s => numBlocks s.ledger) = some 2 := by decide +kernel
  rw [hrun, Option.map_some, Option.some_inj] at hcount
  exact ⟨s, reachable_of_run hrun, by rw [hcount]; decide⟩

end DeiChain
