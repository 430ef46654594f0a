import DeiChain.Atomicity

namespace DeiChain

open ByteLayout ByteMemory Critical Transition Turns

variable {cfg : Config} {γ k n : ℕ} {env : Environment cfg} {sc : Scope}

theorem turns_readSlot (i : Fin n) (d : PoolData n) : (readSlot i).turns d = 1 := rfl

theorem turns_modifySlot (i : Fin n) (f : TransactionPoolEntry → TransactionPoolEntry)
    (d : PoolData n) : (modifySlot i f).turns d = 1 := rfl

theorem turns_findSlot (p : Fin n → TransactionPoolEntry → Bool) (is : List (Fin n))
    (d : PoolData n) : (findSlot p is).turns d ≤ is.length + 1 := by
  induction is with
  | nil => exact Nat.le_refl 1
  | cons i is ih =>
    rw [findSlot, Program.turns_bind, turns_readSlot, run_readSlot, List.length_cons]
    dsimp only
    split
    · rw [Program.turns_pure]
      omega
    · omega

theorem turns_countSlots (is : List (Fin n)) (count : ℕ) (d : PoolData n) :
    (countSlots is count).turns d = is.length + 1 := by
  induction is generalizing count with
  | nil => rfl
  | cons i is ih =>
    rw [countSlots, Program.turns_bind, turns_readSlot, run_readSlot, ih, List.length_cons]
    omega

theorem turns_recountProgram (d : PoolData n) : (recountProgram n).turns d = n + 2 := by
  simp [recountProgram, turns_countSlots]

theorem turns_addProgram (tx : Transaction) (d : PoolData n) :
    (addProgram tx).turns d ≤ 3 * n + 8 := by
  have hfind := turns_findSlot (n := n) (fun _ e => e.empty) (List.finRange n) d
  rw [List.length_finRange] at hfind
  rw [addProgram, Program.turns_bind, run_findSlot_all]
  cases Fin.find? (fun i => (d.slots i).empty) with
  | none =>
    simp only [Program.turns_pure]
    omega
  | some position =>
    have hdup := turns_findSlot (fun i e => i != position && !e.empty && e.transaction.id == tx.id)
      (List.finRange n) d
    rw [List.length_finRange] at hdup
    simp only [Program.turns_bind, run_findSlot_all]
    split
    · simp only [Program.turns_pure]
      omega
    · simp only [Program.turns_bind, turns_modifySlot, turns_recountProgram, Program.turns_pure]
      omega

theorem turns_selectLoopProgram (count : ℕ) (is : List (Fin n)) (selected : List (Reservation n))
    (d : PoolData n) : (selectLoopProgram count is selected).turns d ≤ 2 * is.length + 1 := by
  induction is generalizing d selected with
  | nil => exact Nat.le_refl 1
  | cons i is ih =>
    rw [selectLoopProgram, List.length_cons]
    split
    · rw [Program.turns_bind, turns_readSlot, run_readSlot]
      dsimp only
      split
      · rw [Program.turns_bind, turns_modifySlot]
        have hrest := ih (selected ++ [(i, (d.slots i).transaction)])
          (((modifySlot i (·.setEmpty true)).run d).1)
        omega
      · have hrest := ih selected d
        omega
    · rw [Program.turns_pure]
      omega

theorem turns_selectProgram (count : ℕ) (d : PoolData n) :
    (selectProgram count).turns d ≤ 3 * n + 2 := by
  rw [selectProgram, Program.turns_bind, turns_countSlots, run_countSlots_all, List.length_finRange]
  dsimp only
  split
  · rw [Program.turns_pure]
    omega
  · have hloop := turns_selectLoopProgram count (List.finRange n) [] d
    rw [List.length_finRange] at hloop
    rw [Program.turns_map]
    omega

theorem turns_releaseProgram (positions : List (Fin n)) (d : PoolData n) :
    (releaseProgram positions).turns d = positions.length + 1 := by
  induction positions generalizing d with
  | nil => rfl
  | cons i is ih =>
    rw [releaseProgram, Program.turns_bind, turns_modifySlot, ih, List.length_cons]
    omega

theorem turns_restoreProgram (txs : List Transaction) (is : List (Fin n)) (d : PoolData n) :
    (restoreProgram txs is).turns d ≤ 2 * is.length + 1 := by
  induction is generalizing d with
  | nil => exact Nat.le_refl 1
  | cons i is ih =>
    rw [restoreProgram, Program.turns_bind, turns_readSlot, run_readSlot, List.length_cons]
    dsimp only
    split
    · rw [Program.turns_bind, turns_modifySlot]
      have hrest := ih ((modifySlot i (·.setEmpty false)).run d).1
      omega
    · have hrest := ih d
      omega

theorem turns_lookupProgram (txs : List Transaction) (positions : List (Fin n)) (d : PoolData n) :
    (lookupProgram txs positions).turns d ≤ txs.length * (n + 1) + 1 := by
  induction txs generalizing positions with
  | nil => simp [lookupProgram]
  | cons t ts ih =>
    have hfind := turns_findSlot (fun _ e => e.transaction.id == t.id) (List.finRange n) d
    rw [List.length_finRange] at hfind
    rw [lookupProgram, List.length_cons, Nat.add_mul, Nat.one_mul]
    split
    · rw [Program.turns_pure]
      omega
    · rw [Program.turns_bind, run_findSlot_all]
      cases Fin.find? (fun i => (d.slots i).transaction.id == t.id) with
      | none =>
        simp only [Program.turns_pure]
        omega
      | some j =>
        have hrest := ih (positions ++ [j])
        simp only
        omega

theorem turns_poolProgram (allocated : Bool) (txs : List Transaction) (d : PoolData n) :
    (poolProgram allocated txs).turns d ≤ txs.length * (n + 2) + 3 := by
  have hmul : txs.length * (n + 2) = txs.length * (n + 1) + txs.length := Nat.mul_succ _ _
  unfold poolProgram
  split
  · have hlookup := turns_lookupProgram txs [] d
    have hlen := length_lookupLoop d.slots txs
    rw [Program.turns_bind, run_lookupProgram]
    dsimp only
    split
    · rw [Program.turns_pure]
      omega
    · rw [Program.turns_bind, turns_releaseProgram, Program.turns_pure, List.nil_append]
      omega
  · rw [Program.turns_pure]
    omega

theorem turns_forEachFirstProgram {f : Fin n → Program (PoolData n) Unit} {c : ℕ} (hc : 0 < c)
    (hf : ∀ j d, (f j).turns d ≤ c) (txs : List Transaction) (d : PoolData n) :
    (forEachFirstProgram f txs).turns d ≤ txs.length * (n + 1 + c) + 1 := by
  induction txs generalizing d with
  | nil => simp [forEachFirstProgram]
  | cons t ts ih =>
    have hfind := turns_findSlot (fun _ e => e.transaction.id == t.id) (List.finRange n) d
    rw [List.length_finRange] at hfind
    rw [forEachFirstProgram, List.length_cons, Nat.add_mul, Nat.one_mul, Program.turns_bind,
      run_findSlot_all]
    cases Fin.find? (fun i => (d.slots i).transaction.id == t.id) with
    | none =>
      have hrest := ih d
      simp only
      omega
    | some j =>
      have hone := hf j d
      have hrest := ih ((f j).run d).1
      simp only [Program.turns_bind]
      omega

theorem turns_removeProgram (r : ReceivedBlock cfg) (d : PoolData n) :
    (removeProgram r).turns d ≤ cfg.transactionsPerBlock * (n + 3) + (n + 3) := by
  have hconsume : ∀ j (d : PoolData n), (consumeProgram j).turns d ≤ 2 := fun _ _ => Nat.le_refl 2
  have hloop : _ ≤ _ * (n + 3) + 1 := turns_forEachFirstProgram (by decide) hconsume
    (r.block.transactions ++ r.heapTail) d
  rw [List.length_append, r.heap_length] at hloop
  rw [removeProgram, Program.turns_bind, turns_recountProgram]
  omega

theorem turns_restoreRefusedProgram (r : ReceivedBlock cfg) (d : PoolData n) :
    (restoreRefusedProgram r).turns d ≤ cfg.transactionsPerBlock * (n + 3) + (n + 3) := by
  have hreturn : ∀ j (d : PoolData n), (modifySlot j (·.setEmpty false)).turns d ≤ 1 :=
    fun _ _ => Nat.le_refl 1
  have hloop : _ ≤ _ * (n + 2) + 1 := turns_forEachFirstProgram (by decide) hreturn
    r.block.transactions d
  have hmul := Nat.mul_le_mul r.length_le (Nat.le_succ (n + 2))
  rw [restoreRefusedProgram, Program.turns_bind, turns_recountProgram]
  simp only [Nat.succ_eq_add_one, Nat.add_assoc, Nat.reduceAdd] at hmul
  omega

theorem turns_ageProgram (is : List (Fin n)) (d : PoolData n) :
    (ageProgram is).turns d ≤ 4 * is.length + 1 := by
  induction is generalizing d with
  | nil => exact Nat.le_refl 1
  | cons i is ih =>
    have hslot : (ageSlotProgram i).turns d ≤ 4 := by
      rw [ageSlotProgram, Program.turns_bind, turns_readSlot, run_readSlot]
      dsimp only
      split
      · simp
      · simp only [Program.turns_bind, turns_modifySlot, turns_readSlot]
        split
        · simp [turns_modifySlot]
        · simp
    have hrest := ih ((ageSlotProgram i).run d).1
    rw [ageProgram, Program.turns_bind, List.length_cons]
    omega

theorem turns_snapshotProgram (sha : Sha) (att : Attachment cfg) (m : Memory) :
    (snapshotProgram sha att).turns m ≤ 4 := by
  by_cases hcount : numBlocks m > 0
  · simp [snapshotProgram, hcount]
  · simp [snapshotProgram, hcount]

theorem turns_linkProgram (sha : Sha) (att : Attachment cfg) (b : TransactionBlock) (m : Memory) :
    (linkProgram sha att b).turns m ≤ 3 := by
  by_cases hcount : numBlocks m > 0
  · simp [linkProgram, hcount]
  · simp [linkProgram, hcount]

theorem turns_appendProgram (att : Attachment cfg) (r : ReceivedBlock cfg) (m : Memory) :
    (appendProgram att r).turns m = 7 := by
  simp [appendProgram]

-- The accesses of the longest section.
def holdBound (cfg : Config) : ℕ := (cfg.transactionsPerBlock + 3) * (cfg.txPoolSize + 3)

theorem holdBound_ge (cfg : Config) : cfg.transactionsPerBlock * (cfg.txPoolSize + 3) +
    3 * (cfg.txPoolSize + 3) ≤ holdBound cfg := by
  rw [holdBound, Nat.add_mul]

def Bounded (b : SectionBody cfg) : Prop := ∀ d, b.2.turns d ≤ holdBound cfg

theorem bounded_pool {X : Type} {p : Program (PoolData cfg.txPoolSize) X} {g : X → PoolResult cfg}
    (h : ∀ d, p.turns d ≤ holdBound cfg) : Bounded (poolSectionBody (g <$> p)) :=
  fun d => (Program.turns_map p g d).trans_le (h d)

theorem bounded_ledger {X : Type} {p : Program Memory X} {g : X → LedgerResult}
    (h : ∀ d, p.turns d ≤ holdBound cfg) :
    Bounded (ledgerSectionBody (g <$> p) : SectionBody cfg) :=
  fun d => (Program.turns_map p g d).trans_le (h d)

theorem bounded_minerStart {e : MinerSection} {q : MinerState cfg × Bool} {b : SectionBody cfg}
    (h : minerStart env e q = some b)
    (hrollback : ∀ reserved, q.1 = .rollback reserved →
      reserved.length ≤ cfg.transactionsPerBlock) : Bounded b := by
  have hbound := holdBound_ge cfg
  obtain ⟨st, copied⟩ := q
  cases e with
  | snapshot =>
    cases st <;> simp only [minerStart, reduceCtorEq] at h
    cases h
    refine bounded_ledger (fun d => ?_)
    have hturns := turns_snapshotProgram env.sha env.att d
    omega
  | select =>
    cases st <;> simp only [minerStart, reduceCtorEq] at h
    cases h
    refine bounded_pool (fun d => ?_)
    have hturns := turns_selectProgram cfg.transactionsPerBlock d
    omega
  | rollback =>
    cases st <;> simp only [minerStart, reduceCtorEq] at h
    rename_i reserved
    cases h
    refine bounded_pool (fun d => ?_)
    have hlen := hrollback reserved rfl
    have hmul := Nat.le_mul_of_pos_right cfg.transactionsPerBlock
      (Nat.succ_pos (cfg.txPoolSize + 2))
    rw [turns_releaseProgram, List.length_map]
    simp only [Nat.succ_eq_add_one, Nat.add_assoc, Nat.reduceAdd] at hmul
    omega
  | copyIds fails =>
    cases st <;> cases copied <;> simp only [minerStart, reduceCtorEq] at h
    cases h
    intro d
    change 1 ≤ holdBound cfg
    omega
  | restore =>
    cases st <;> simp only [minerStart, reduceCtorEq] at h
    rename_i reserved
    cases h
    refine bounded_pool (fun d => ?_)
    have hturns := turns_restoreProgram (reserved.toList.map Prod.snd)
      (List.finRange cfg.txPoolSize) d
    rw [List.length_finRange] at hturns
    omega

theorem bounded_validatorStart {e : ValidatorSection} {st : ValidatorState cfg}
    {b : SectionBody cfg} (h : validatorStart env e st = some b) : Bounded b := by
  have hbound := holdBound_ge cfg
  cases e with
  | readOccupancy =>
    cases st <;> simp only [validatorStart, reduceCtorEq] at h
    cases h
    refine bounded_pool (fun d => ?_)
    rw [Program.turns_read]
    omega
  | age =>
    cases st <;> simp only [validatorStart, reduceCtorEq] at h
    cases h
    refine bounded_pool (fun d => ?_)
    have hturns := turns_ageProgram (List.finRange cfg.txPoolSize) d
    have htpb := cfg.transactionsPerBlock_pos
    have hmul := Nat.le_mul_of_pos_left (cfg.txPoolSize + 3) htpb
    rw [List.length_finRange] at hturns
    omega
  | checkLink =>
    cases st <;> simp only [validatorStart, reduceCtorEq] at h
    rename_i d
    split at h
    · cases h
      refine bounded_ledger (fun m => ?_)
      have hturns := turns_linkProgram env.sha env.att d.received.block m
      omega
    · cases h
  | checkPool allocated =>
    cases st <;> simp only [validatorStart, reduceCtorEq] at h
    rename_i d tip
    cases h
    refine bounded_pool (fun data => ?_)
    have hturns := turns_poolProgram allocated d.received.block.transactions data
    have hmul := Nat.mul_le_mul d.received.length_le (Nat.le_succ (cfg.txPoolSize + 2))
    simp only [Nat.succ_eq_add_one, Nat.add_assoc, Nat.reduceAdd] at hmul
    omega
  | append =>
    cases st <;> simp only [validatorStart, reduceCtorEq] at h
    cases h
    refine bounded_ledger (fun m => ?_)
    rw [turns_appendProgram]
    omega
  | remove =>
    cases st <;> simp only [validatorStart, reduceCtorEq] at h
    rename_i d
    cases h
    refine bounded_pool (fun data => ?_)
    have hturns := turns_removeProgram d.received data
    omega
  | restoreRefused =>
    cases st <;> simp only [validatorStart, reduceCtorEq] at h
    rename_i d
    cases h
    refine bounded_pool (fun data => ?_)
    have hturns := turns_restoreRefusedProgram d.received data
    omega

theorem rollback_length {t : State cfg k} {allow : State cfg k → Label cfg k → Prop}
    (h : Reachable (step env) allow (initState cfg k) t) :
    ∀ m reserved, t.miners m = .rollback reserved →
      reserved.length ≤ cfg.transactionsPerBlock := by
  refine h.invariant (I := fun t => ∀ m reserved, t.miners m = .rollback reserved →
    reserved.length ≤ cfg.transactionsPerBlock) (fun m reserved hm => by cases hm) ?_
  intro a l b ha _ hstep m reserved hm
  rcases step_cases hstep with ⟨x, sh, rfl, hmove, rfl⟩ | ⟨n, x, sh, st, rfl, hmove, rfl⟩ |
    ⟨v, x, sh, st, rfl, hmove, rfl⟩
  · exact ha m reserved hm
  · rw [State.setMiner_miners] at hm
    rcases of_update (P := fun st => st = MinerState.rollback reserved) hm with ⟨rfl, hst⟩ | hold
    · generalize a.miners m = old at hmove
      cases hmove with
      | selectShort hroom hsel hshort =>
        cases hst
        have hlen := selectLoop_length_le (List.finRange cfg.txPoolSize) a.pool.slots []
          (Nat.zero_le cfg.transactionsPerBlock)
        rwa [hsel] at hlen
      | _ => cases hst
    · exact ha m reserved hold
  · exact ha m reserved hm

theorem bounded_section {s : FineState env γ k} (hs : FineReachable sc s)
    {i : Party cfg γ k} {e : PartySection i} {b : SectionBody cfg}
    (h : (fineCode env γ k).start i e (s.control i).loc = some b) : Bounded b := by
  cases i with
  | generator g =>
    change generatorStart e _ = some b at h
    unfold generatorStart at h
    split at h
    · cases h
    · cases h
      refine bounded_pool (fun d => ?_)
      have hturns := turns_addProgram e d
      have hbound := holdBound_ge cfg
      have htpb := cfg.transactionsPerBlock_pos
      have hmul := Nat.le_mul_of_pos_left (cfg.txPoolSize + 3) htpb
      omega
  | miner m =>
    obtain ⟨-, t, hreach, href⟩ := critical_sections_atomic hs
    refine bounded_minerStart h (fun reserved hst => ?_)
    exact rollback_length hreach m reserved ((href.miners m).trans hst)
  | validator v => exact bounded_validatorStart h
  | main => cases e

theorem left_le {s : FineState env γ k} (hs : FineReachable sc s) (i : Party cfg γ k) :
    s.left i ≤ holdBound cfg := by
  unfold State.left
  cases hc : s.control i with
  | outside q => exact Nat.zero_le _
  | leaving q m => exact Nat.zero_le _
  | inside q e m p =>
    obtain ⟨w, -, hsim⟩ := hs.simulated
    obtain ⟨p₀, hstart, -, -, hpath⟩ := hsim.inside i q e m p hc
    have hloc : (s.control i).loc = q := by
      rw [hc]
      rfl
    exact hpath.turns_le.trans (bounded_section hs (hloc ▸ hstart) _)

-- Whoever waits for a mutex waits for one party, which leaves its section by a bounded number of
-- turns of its own and no move of anybody else.
theorem mutex_wait_bounded {s : FineState env γ k} (hs : FineReachable sc s)
    {i : Party cfg γ k} {e : PartySection i} {q : PartyLocal i} {b : SectionBody cfg}
    (hout : s.control i = .outside q) (hstart : (fineCode env γ k).start i e q = some b)
    (hstuck : Critical.step s (.enter i e) = none) :
    ∃ j, j ≠ i ∧ (∀ j', (s.control j').mutex = some b.1 ↔ j' = j) ∧
      s.left j ≤ holdBound cfg ∧ ∃ t u,
        run Critical.step s (List.replicate (s.left j) (.turn j) ++ [.leave j]) = some t ∧
        Critical.step t (.enter i e) = some u := by
  obtain ⟨j, t, u, hne, hheld, hrun, henter⟩ :=
    enter_after_release hs.exclusive hout hstart hstuck
  refine ⟨j, hne, fun j' => ⟨fun h => hs.exclusive.only h hheld, ?_⟩, left_le hs j, t, u, hrun,
    henter⟩
  rintro rfl
  exact hheld

-- A validator is kept out by a generator that has just taken the mutex.
theorem mutex_wait_bounded_occupancy :
    ∃ (s : FineState (Sample.environment 1) 1 2) (j : Party (Sample.config 1) 1 2),
      j ≠ .validator 0 ∧ (∀ j', (s.control j').mutex = some .pool ↔ j' = j) ∧
      s.left j ≤ holdBound (Sample.config 1) ∧ ∃ t u,
        run Critical.step s (List.replicate (s.left j) (.turn j) ++ [.leave j]) = some t ∧
        Critical.step t (.enter (.validator 0) ValidatorSection.readOccupancy) = some u := by
  obtain ⟨s, hs⟩ : ∃ s, Critical.step (initWhole (Sample.environment 1) 1 2).toState
      (.enter (.generator 0) (Sample.transaction 1)) = some s := ⟨_, rfl⟩
  have hreach : FineReachable ⟨true, false⟩ s := (Reachable.refl _).tail (by decide +kernel) hs
  have hout : s.control (.validator 0) = .outside .idle := by
    cases hs
    rfl
  have hblocked : Critical.step s (.enter (.validator 0) ValidatorSection.readOccupancy) =
      none := by
    cases hs
    rfl
  exact ⟨s, mutex_wait_bounded hreach hout rfl hblocked⟩

end DeiChain
