import DeiChain.ExactlyOnce
import DeiChain.Library.Heap
import DeiChain.Selection

namespace DeiChain

open Heap Transition

inductive MinerBuffer where
  | selected
  | selectedIndices
  | txId (i : ℕ)
  | block
  | serialized
deriving DecidableEq

-- The places where miner_thread_function reads *should_terminate_ptr.
inductive FlagTest where
  | loop
  | woken
  | snapshot
  | noTransactions
  | selected
  | created
  | mined
  | retried
  | finished

-- What one turn of the loop meets: the flag at each of its tests, the pool when it selects, and
-- which calls fail. For each block hashed it is told whether the buffer of compute_sha256 is
-- refused; an empty ledger gives the miner nothing to hash.
structure MinerTurn (cfg : Config) where
  stop : FlagTest → Bool
  waitFails : Bool
  ledgerHash : Option Bool
  selectedFails : Bool
  indicesFails : Bool
  slots : Slots cfg.txPoolSize
  copied : ℕ
  blockFails : Bool
  hashes : List Bool
  powFails : Bool
  retryHashes : List Bool
  retryFails : Bool
  sendFails : Bool

variable {cfg : Config}

def ledgerHashEvents (refused : Bool) : List (Event MinerBuffer) :=
  if refused then [] else [.alloc .serialized, .use .serialized, .free .serialized]

def hashEvents (refused : Bool) : List (Event MinerBuffer) :=
  if refused then [.use .block]
  else [.use .block, .alloc .serialized, .use .selected, .use .serialized, .free .serialized]

def powEvents (hashes : List Bool) : List (Event MinerBuffer) :=
  [.use .block, .use .selected] ++ hashes.flatMap hashEvents

def txIds (n : ℕ) : List MinerBuffer := (List.range n).map .txId

def copyIds (n : ℕ) : List (Event MinerBuffer) :=
  (txIds n).flatMap (fun p => [.use .selected, .alloc p])

def freeIds (n : ℕ) : List (Event MinerBuffer) := (txIds n).map .free

namespace MinerTurn

variable (o : MinerTurn cfg)

def snapshotEvents : List (Event MinerBuffer) := o.ledgerHash.elim [] ledgerHashEvents

def reserveEvents (reserved : List (Reservation cfg.txPoolSize)) : List (Event MinerBuffer) :=
  reserved.flatMap (fun _ => [.use .selected, .use .selectedIndices])

-- In the branch that rolls back, selected_indices is freed there and again before the return.
def selectEvents : List (Event MinerBuffer) × Bool :=
  if o.selectedFails then ([], false)
  else if o.indicesFails then ([.alloc .selected, .free .selected], false)
  else
    match (selectSection cfg.transactionsPerBlock o.slots).2 with
    | none => ([.alloc .selected, .alloc .selectedIndices, .free .selected,
        .free .selectedIndices], false)
    | some reserved =>
      let es := [.alloc .selected, .alloc .selectedIndices] ++ reserveEvents reserved
      if reserved.length = cfg.transactionsPerBlock then (es ++ [.free .selectedIndices], true)
      else (es ++ reserved.map (fun _ => .use .selectedIndices) ++
        [.free .selected, .free .selectedIndices, .free .selectedIndices], false)

def cleanup (cfg : Config) : List (Event MinerBuffer) :=
  freeIds cfg.transactionsPerBlock ++ [.free .selected, .free .block]

def sendEvents : List (Event MinerBuffer) × Bool :=
  if o.stop .finished then (.use .block :: cleanup cfg, false)
  else
    ([.use .block, .use .block, .use .selected] ++ (if o.sendFails then [.use .selected] else []) ++
      freeIds cfg.transactionsPerBlock ++ [.use .block, .free .selected, .free .block], true)

def mineEvents : List (Event MinerBuffer) × Bool :=
  if o.stop .created then (cleanup cfg, false)
  else if o.stop .mined then (powEvents o.hashes ++ cleanup cfg, false)
  else if o.powFails then
    let es := powEvents o.hashes ++ .use .block :: powEvents o.retryHashes
    if o.stop .retried then (es ++ cleanup cfg, false)
    else if o.retryFails then (es ++ .use .selected :: cleanup cfg, true)
    else (es ++ o.sendEvents.1, o.sendEvents.2)
  else (powEvents o.hashes ++ o.sendEvents.1, o.sendEvents.2)

def buildEvents : List (Event MinerBuffer) × Bool :=
  if o.stop .selected then ([.free .selected], false)
  else if o.copied < cfg.transactionsPerBlock then
    (copyIds o.copied ++ .use .selected :: freeIds o.copied ++ [.free .selected], true)
  else if o.blockFails then
    (copyIds cfg.transactionsPerBlock ++ .use .selected :: freeIds cfg.transactionsPerBlock ++
      [.free .selected], true)
  else
    (copyIds cfg.transactionsPerBlock ++ [.alloc .block, .use .block] ++ o.mineEvents.1,
      o.mineEvents.2)

-- The events of one turn, and whether the loop goes on.
def events : List (Event MinerBuffer) × Bool :=
  if o.stop .loop || o.waitFails || o.stop .woken then ([], false)
  else if o.stop .snapshot then (o.snapshotEvents, false)
  else if o.selectEvents.2 then
    (o.snapshotEvents ++ o.selectEvents.1 ++ o.buildEvents.1,
      o.buildEvents.2)
  else
    (o.snapshotEvents ++ o.selectEvents.1, !o.stop .noTransactions)

end MinerTurn

theorem mem_txIds {n : ℕ} {p : MinerBuffer} : p ∈ txIds n ↔ ∃ i < n, .txId i = p := by
  simp [txIds]

theorem nodup_txIds (n : ℕ) : (txIds n).Nodup :=
  List.nodup_range.map (fun _ _ h => MinerBuffer.txId.inj h)

-- What the miner owns once the ids are copied, and once it has its block.
def heldCopies (n : ℕ) : Finset MinerBuffer := {.selected} ∪ (txIds n).toFinset

def heldBlock (n : ℕ) : Finset MinerBuffer := insert .block (heldCopies n)

theorem exec_copyIds (n : ℕ) : exec {.selected} (copyIds n) = some (heldCopies n) := by
  refine exec_grow (fun g hg p hp => ?_) (Finset.Subset.refl _) (nodup_txIds n)
    (fun p hp hmem => ?_)
  · rw [exec_use (Finset.singleton_subset_iff.mp hg), exec_alloc hp, exec_nil]
  · obtain ⟨i, -, rfl⟩ := mem_txIds.mp hp
    cases Finset.mem_singleton.mp hmem

theorem exec_freeIds {n : ℕ} {h : Finset MinerBuffer} (hlive : ∀ p ∈ txIds n, p ∈ h) :
    exec h (freeIds n) = some (h \ (txIds n).toFinset) :=
  exec_frees (nodup_txIds n) hlive

theorem exec_freeIds_copies (n : ℕ) : exec (heldCopies n) (freeIds n) = some {.selected} := by
  rw [exec_freeIds (fun p hp => by simp [heldCopies, hp])]
  congr 1
  ext p
  cases p <;> simp [heldCopies, mem_txIds]

theorem exec_freeIds_block (n : ℕ) :
    exec (heldBlock n) (freeIds n) = some {.block, .selected} := by
  rw [exec_freeIds (fun p hp => by simp [heldBlock, heldCopies, hp])]
  congr 1
  ext p
  cases p <;> simp [heldBlock, heldCopies, mem_txIds]

theorem exec_freeSelected : exec {MinerBuffer.selected} [.free .selected] = some ∅ := by decide

theorem exec_cleanup : exec (heldBlock cfg.transactionsPerBlock) (MinerTurn.cleanup cfg) =
    some ∅ := by
  rw [MinerTurn.cleanup, exec_append_of (exec_freeIds_block _)]
  decide

theorem mem_heldBlock (n : ℕ) : .block ∈ heldBlock n ∧ .selected ∈ heldBlock n ∧
    .serialized ∉ heldBlock n := by
  simp [heldBlock, heldCopies, mem_txIds]

theorem exec_hashEvents (n : ℕ) (refused : Bool) :
    exec (heldBlock n) (hashEvents refused) = some (heldBlock n) := by
  obtain ⟨hblock, hselected, hserialized⟩ := mem_heldBlock n
  cases refused with
  | true => exact exec_use hblock
  | false =>
    have hmem := Finset.mem_insert_self MinerBuffer.serialized (heldBlock n)
    simp only [hashEvents, Bool.false_eq_true, if_false]
    rw [exec_use hblock, exec_alloc hserialized, exec_use (Finset.mem_insert_of_mem hselected),
      exec_use hmem, exec_free hmem, Finset.erase_insert hserialized, exec_nil]

theorem exec_powEvents (n : ℕ) (hashes : List Bool) :
    exec (heldBlock n) (powEvents hashes) = some (heldBlock n) := by
  obtain ⟨hblock, hselected, -⟩ := mem_heldBlock n
  rw [powEvents, List.cons_append, exec_use hblock, List.cons_append, exec_use hselected,
    List.nil_append]
  exact exec_flatMap (fun refused _ => exec_hashEvents n refused)

namespace MinerTurn

variable (o : MinerTurn cfg)

theorem exec_snapshotEvents : exec ∅ o.snapshotEvents = some ∅ := by
  rcases h : o.ledgerHash with - | refused
  · rw [snapshotEvents, h]
    rfl
  · rw [snapshotEvents, h]
    cases refused <;> decide

theorem exec_sendEvents : exec (heldBlock cfg.transactionsPerBlock) o.sendEvents.1 = some ∅ := by
  obtain ⟨hblock, hselected, -⟩ := mem_heldBlock cfg.transactionsPerBlock
  unfold sendEvents
  split
  · exact (exec_use hblock).trans exec_cleanup
  · have huses : exec (heldBlock cfg.transactionsPerBlock)
        ([.use .block, .use .block, .use .selected] ++
          (if o.sendFails then [.use .selected] else [])) =
        some (heldBlock cfg.transactionsPerBlock) := by
      simp only [List.cons_append, List.nil_append]
      rw [exec_use hblock, exec_use hblock, exec_use hselected]
      cases o.sendFails with
      | false => rfl
      | true => exact exec_use hselected
    dsimp only
    rw [List.append_assoc, exec_append_of huses, exec_append_of (exec_freeIds_block _)]
    decide

theorem exec_mineEvents : exec (heldBlock cfg.transactionsPerBlock) o.mineEvents.1 = some ∅ := by
  obtain ⟨hblock, hselected, -⟩ := mem_heldBlock cfg.transactionsPerBlock
  have hpow := exec_powEvents cfg.transactionsPerBlock o.hashes
  have hagain : exec (heldBlock cfg.transactionsPerBlock)
      (powEvents o.hashes ++ .use .block :: powEvents o.retryHashes) =
        some (heldBlock cfg.transactionsPerBlock) := by
    rw [exec_append_of hpow, exec_use hblock]
    exact exec_powEvents _ _
  unfold mineEvents
  split
  · exact exec_cleanup
  split
  · exact (exec_append_of hpow).trans exec_cleanup
  split
  · dsimp only
    split
    · exact (exec_append_of hagain).trans exec_cleanup
    split
    · exact (exec_append_of hagain).trans ((exec_use hselected).trans exec_cleanup)
    · exact (exec_append_of hagain).trans o.exec_sendEvents
  · exact (exec_append_of hpow).trans o.exec_sendEvents

theorem exec_buildEvents : exec {.selected} o.buildEvents.1 = some ∅ := by
  have hselected : ∀ n, MinerBuffer.selected ∈ heldCopies n := fun n => by simp [heldCopies]
  have hgiveUp : ∀ n, exec {.selected}
      (copyIds n ++ .use .selected :: freeIds n ++ [.free .selected]) = some ∅ := by
    intro n
    rw [List.append_assoc, exec_append_of (exec_copyIds n), List.cons_append,
      exec_use (hselected n), exec_append_of (exec_freeIds_copies n)]
    exact exec_freeSelected
  unfold buildEvents
  split
  · exact exec_freeSelected
  split
  · exact hgiveUp _
  split
  · exact hgiveUp _
  · have hfresh : MinerBuffer.block ∉ heldCopies cfg.transactionsPerBlock := by
      simp [heldCopies, mem_txIds]
    dsimp only
    rw [List.append_assoc, exec_append_of (exec_copyIds _), List.cons_append, exec_alloc hfresh,
      List.cons_append, exec_use (Finset.mem_insert_self _ _)]
    exact o.exec_mineEvents

theorem exec_reserveEvents (reserved : List (Reservation cfg.txPoolSize)) :
    exec {MinerBuffer.selected, .selectedIndices} (reserveEvents reserved) =
      some {.selected, .selectedIndices} :=
  exec_flatMap (fun _ _ => by decide)

-- The pool offers enough transactions, but not under enough different ids.
def RollsBack : Prop :=
  o.selectedFails = false ∧ o.indicesFails = false ∧
    cfg.transactionsPerBlock ≤ available o.slots ∧
    (distinctIds o.slots).card < cfg.transactionsPerBlock

theorem length_selectSection {reserved : List (Reservation cfg.txPoolSize)}
    (h : (selectSection cfg.transactionsPerBlock o.slots).2 = some reserved) :
    cfg.transactionsPerBlock ≤ available o.slots ∧
      reserved.length = min cfg.transactionsPerBlock (distinctIds o.slots).card := by
  rw [selectSection_eq] at h
  split at h
  · cases h
  · obtain rfl := Option.some.inj h
    exact ⟨by omega, by simp [length_freshSlots]⟩

theorem selectSection_none (h : (selectSection cfg.transactionsPerBlock o.slots).2 = none) :
    available o.slots < cfg.transactionsPerBlock := by
  rw [selectSection_eq] at h
  split at h
  · assumption
  · cases h

theorem exec_selectEvents : (o.selectEvents.2 = true ∧ ¬o.RollsBack ∧
      exec ∅ o.selectEvents.1 = some {.selected}) ∨
    (o.selectEvents.2 = false ∧ ¬o.RollsBack ∧ exec ∅ o.selectEvents.1 = some ∅) ∨
    (o.selectEvents.2 = false ∧ o.RollsBack ∧ exec ∅ o.selectEvents.1 = none) := by
  unfold selectEvents RollsBack
  cases o.selectedFails with
  | true => exact .inr (.inl ⟨rfl, by simp, rfl⟩)
  | false =>
    cases o.indicesFails with
    | true =>
      have hgone : exec ∅ [Event.alloc MinerBuffer.selected, .free .selected] = some ∅ := by decide
      exact .inr (.inl ⟨rfl, by simp, hgone⟩)
    | false =>
      have hallocs : exec ∅ [Event.alloc MinerBuffer.selected, .alloc .selectedIndices] =
          some {.selected, .selectedIndices} := by decide
      simp only [Bool.false_eq_true, if_false, true_and]
      cases hsel : (selectSection cfg.transactionsPerBlock o.slots).2 with
      | none =>
        have hnone := o.selectSection_none hsel
        have hgone : exec ∅ [Event.alloc MinerBuffer.selected, .alloc .selectedIndices,
            .free .selected, .free .selectedIndices] = some ∅ := by decide
        exact .inr (.inl ⟨rfl, by omega, hgone⟩)
      | some reserved =>
        obtain ⟨hroom, hlen⟩ := o.length_selectSection hsel
        have htaken : exec ∅ ([Event.alloc MinerBuffer.selected, .alloc .selectedIndices] ++
            reserveEvents reserved) = some {.selected, .selectedIndices} := by
          rw [exec_append_of hallocs]
          exact exec_reserveEvents reserved
        dsimp only
        by_cases hall : reserved.length = cfg.transactionsPerBlock
        · rw [if_pos hall]
          refine .inl ⟨rfl, by omega, ?_⟩
          rw [exec_append_of htaken]
          decide
        · rw [if_neg hall]
          refine .inr (.inr ⟨rfl, by omega, ?_⟩)
          have hread : exec {MinerBuffer.selected, .selectedIndices}
              (reserved.map (fun _ => .use MinerBuffer.selectedIndices)) =
                some {.selected, .selectedIndices} := by
            refine exec_uses (fun e he => ?_)
            obtain ⟨r, -, rfl⟩ := List.mem_map.mp he
            exact ⟨_, by decide, rfl⟩
          rw [exec_append_of ((exec_append_of htaken).trans hread)]
          decide

def Overfreed : Prop :=
  (o.stop .loop || o.waitFails || o.stop .woken || o.stop .snapshot) = false ∧ o.RollsBack

theorem exec_events : (¬o.Overfreed ∧ exec ∅ o.events.1 = some ∅) ∨
    (o.Overfreed ∧ exec ∅ o.events.1 = none) := by
  have hsnapshot := o.exec_snapshotEvents
  unfold events Overfreed
  cases hearly : o.stop .loop || o.waitFails || o.stop .woken with
  | true => exact .inl ⟨by simp, rfl⟩
  | false =>
    cases hstop : o.stop .snapshot with
    | true => exact .inl ⟨by simp, hsnapshot⟩
    | false =>
      simp only [Bool.false_eq_true, if_false, Bool.or_self, true_and]
      rcases o.exec_selectEvents with ⟨hsel, hrolls, hexec⟩ | ⟨hsel, hrolls, hexec⟩ |
        ⟨hsel, hrolls, hexec⟩
      · rw [if_pos hsel]
        refine .inl ⟨hrolls, ?_⟩
        rw [List.append_assoc, exec_append_of hsnapshot, exec_append_of hexec]
        exact o.exec_buildEvents
      · rw [hsel, if_neg (by simp)]
        exact .inl ⟨hrolls, (exec_append_of hsnapshot).trans hexec⟩
      · rw [hsel, if_neg (by simp)]
        exact .inr ⟨hrolls, (exec_append_of hsnapshot).trans hexec⟩

end MinerTurn

-- The thread takes turns until one of them leaves the loop.
def turnsTaken : List (MinerTurn cfg) → List (MinerTurn cfg)
  | [] => []
  | o :: os => o :: if o.events.2 then turnsTaken os else []

def threadEvents (os : List (MinerTurn cfg)) : List (Event MinerBuffer) :=
  (turnsTaken os).flatMap (fun o => o.events.1)

theorem not_overfreed_of_reachable {env : Environment cfg} {k : ℕ} {s : State cfg k}
    (h : Reachable (step env) Honest (initState cfg k) s) {o : MinerTurn cfg}
    (hslots : o.slots = s.pool.slots) : ¬o.Overfreed := by
  rintro ⟨-, -, -, hroom, hfew⟩
  have hfull := select_full (honestInvariant_of_reachable h).pool (hslots ▸ hroom)
    (Prod.mk.eta.symm : selectLoop _ (List.finRange _) s.pool.slots [] = _)
  rw [selectLoop_finRange, List.length_map, List.length_take, length_freshSlots, ← hslots] at hfull
  omega

-- A miner frees each of its buffers once, uses none outside its life and leaves none behind,
-- unless a selection is rolled back; in honest runs that never happens.
theorem miner_heap_clean_iff (env : Environment cfg) (k : ℕ) (os : List (MinerTurn cfg)) :
    (Clean (threadEvents os) ↔ ∀ o ∈ turnsTaken os, ¬o.Overfreed) ∧
      ((∀ o ∈ turnsTaken os, ∃ s, Reachable (step env) Honest (initState cfg k) s ∧
        o.slots = s.pool.slots) → Clean (threadEvents os)) := by
  have hclean := clean_flatMap_iff (fun o (_ : o ∈ turnsTaken os) => o.exec_events)
  refine ⟨hclean, fun hseen => hclean.mpr (fun o ho => ?_)⟩
  obtain ⟨s, hs, hslots⟩ := hseen o ho
  exact not_overfreed_of_reachable hs hslots

end DeiChain
