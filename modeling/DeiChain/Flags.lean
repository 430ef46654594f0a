import DeiChain.Moves

namespace DeiChain

open ByteLayout Transition

variable {cfg : Config} {k : ℕ} {env : Environment cfg}

def firstCarriers {n : ℕ} (slots : Slots n) (txs : List Transaction) : List (Fin n) :=
  txs.filterMap (fun t => firstCarrier slots t.id)

theorem mem_firstCarriers {n : ℕ} {slots : Slots n} {txs : List Transaction} {i : Fin n} :
    i ∈ firstCarriers slots txs ↔ ∃ t ∈ txs, firstCarrier slots t.id = some i :=
  List.mem_filterMap

def taken (s : State cfg k) : Label cfg k → List (Fin cfg.txPoolSize)
  | .miner m .select =>
    match s.miners m with
    | .snapshot _ _ =>
      ((selectSection cfg.transactionsPerBlock s.pool.slots).2.getD []).map Prod.fst
    | _ => []
  | .validator v .remove =>
    match s.validators v with
    | .removing d =>
      firstCarriers s.pool.slots (d.received.block.transactions ++ d.received.heapTail)
    | _ => []
  | _ => []

def restored (s : State cfg k) : Label cfg k → List (Fin cfg.txPoolSize)
  | .miner m .rollback =>
    match s.miners m with
    | .rollback reserved => reserved.map Prod.fst
    | _ => []
  | .miner m .restore =>
    match s.miners m with
    | .restoring reserved => (List.finRange _).filter (fun i =>
        reserved.toList.any (fun r => (s.pool.slots i).transaction.id == r.2.id))
    | _ => []
  | .validator v .checkPool =>
    match s.validators v with
    | .linked d _ =>
      if d.received.block.transactions.all (found s.pool.slots) then []
      else firstCarriers s.pool.slots
        (d.received.block.transactions.takeWhile (found s.pool.slots))
    | _ => []
  | .validator v .restoreRefused =>
    match s.validators v with
    | .full d => firstCarriers s.pool.slots d.received.block.transactions
    | _ => []
  | _ => []

def inserted (s : State cfg k) : Label cfg k → List (Fin cfg.txPoolSize)
  | .shared (.add tx) =>
    if (addSection tx s.pool).1 = 0 then (Fin.find? (fun i => (s.pool.slots i).empty)).toList
    else []
  | _ => []

-- The steps that end by counting the entries and storing the percentage.
def refreshes (s : State cfg k) : Label cfg k → Bool
  | .shared (.add tx) => (addSection tx s.pool).1 = 0
  | .validator _ .remove => true
  | .validator _ .restoreRefused => true
  | _ => false

structure FlagStep (s : State cfg k) (l : Label cfg k) (t : State cfg k) : Prop where
  flags : ∀ i, (t.pool.slots i).empty =
    if i ∈ inserted s l ∨ i ∈ restored s l then false
    else if i ∈ taken s l then true else (s.pool.slots i).empty
  ids : ∀ i, i ∉ inserted s l →
    (t.pool.slots i).transaction.id = (s.pool.slots i).transaction.id
  occupancy : t.pool.occupancy =
    if refreshes s l then occupancyOf (available t.pool.slots) cfg.txPoolSize
    else s.pool.occupancy

theorem FlagStep.of_unchanged {s t : State cfg k} {l : Label cfg k} (hins : inserted s l = [])
    (hres : restored s l = []) (htaken : taken s l = []) (href : refreshes s l = false)
    (hflags : ∀ i, (t.pool.slots i).empty = (s.pool.slots i).empty)
    (hids : ∀ i, (t.pool.slots i).transaction.id = (s.pool.slots i).transaction.id)
    (hocc : t.pool.occupancy = s.pool.occupancy) : FlagStep s l t where
  flags i := by
    rw [hins, hres, htaken, hflags]
    simp
  ids i _ := hids i
  occupancy := by
    rw [href, hocc]
    rfl

theorem inserted_rejected {s : State cfg k} {tx : Transaction} {code : ℤ} (hcode : code ≠ 0)
    (hadd : addSection tx s.pool = (code, s.pool)) : inserted s (.shared (.add tx)) = [] := by
  simp only [inserted, hadd, if_neg hcode]

theorem inserted_accepted {s : State cfg k} {tx : Transaction} {position : Fin cfg.txPoolSize}
    (hpos : Accepts tx s.pool.slots position)
    (hadd : addSection tx s.pool = (0, insertAt position tx s.pool)) :
    inserted s (.shared (.add tx)) = [position] := by
  have hfind : Fin.find? (fun i => (s.pool.slots i).empty) = some position :=
    Fin.find?_eq_some_iff.mpr ⟨hpos.empty, hpos.first⟩
  simp only [inserted, hadd, if_true, hfind, Option.toList_some]

theorem flagStep_add {s t : State cfg k} (tx : Transaction)
    (ht : s.setShared (s.toShared.add tx) = t) : FlagStep s (.shared (.add tx)) t := by
  have hpool : t.pool = (addSection tx s.pool).2 := by
    rw [← ht]
    rfl
  rcases addSection_cases tx s.pool with ⟨code, hcode, hadd⟩ | ⟨position, hpos, hadd⟩
  · rw [hadd] at hpool
    refine .of_unchanged (inserted_rejected hcode hadd) rfl rfl ?_ (fun _ => by rw [hpool])
      (fun _ => by rw [hpool]) (by rw [hpool])
    simp only [refreshes, hadd, decide_eq_false_iff_not]
    exact hcode
  · rw [hadd] at hpool
    have hins := inserted_accepted hpos hadd
    have hslots : t.pool.slots = Function.update s.pool.slots position ⟨tx, false, 0⟩ := by
      rw [hpool, insertAt_slots]
    refine ⟨fun i => ?_, fun i hi => ?_, ?_⟩
    · rw [hins, hslots]
      by_cases hi : i = position
      · subst hi
        simp
      · simp [hi, restored, taken]
    · rw [hins, List.mem_singleton] at hi
      rw [hslots, Function.update_of_ne hi]
    · have hcode : refreshes s (.shared (.add tx)) = true := by
        simp only [refreshes, hadd, decide_true]
      rw [hcode, if_pos rfl, hslots, hpool, insertAt]
      exact recount_occupancy _ _

theorem flagStep_shared {s : State cfg k} {a : SharedAction} {sh : Shared cfg}
    (h : sharedStep s.toShared a = some sh) : FlagStep s (.shared a) (s.setShared sh) := by
  cases a with
  | add tx =>
    cases h
    exact flagStep_add tx rfl
  | age =>
    cases h
    exact .of_unchanged rfl rfl rfl rfl (fun i => ageEntry_empty _) (fun i => ageEntry_id _) rfl
  | _ =>
    cases sharedMove_of_step h
    exact .of_unchanged rfl rfl rfl rfl (fun _ => rfl) (fun _ => rfl) rfl

theorem flagStep_select {s t : State cfg k} {m : Fin cfg.numMiners}
    {slots : Slots cfg.txPoolSize} {reserved : List (Reservation cfg.txPoolSize)}
    (htaken : taken s (.miner m .select) = reserved.map Prod.fst)
    (hsel : selectLoop cfg.transactionsPerBlock (List.finRange _) s.pool.slots [] =
      (slots, reserved))
    (hslots : t.pool.slots = slots) (hocc : t.pool.occupancy = s.pool.occupancy) :
    FlagStep s (.miner m .select) t := by
  refine ⟨fun i => ?_, fun i _ => ?_, hocc⟩
  · rw [htaken, hslots, (selects_of_section hsel).after_apply]
    simp only [inserted, restored, List.not_mem_nil, or_self, if_false]
    split <;> rfl
  · rw [hslots, (selects_of_section hsel).after_apply]
    split <;> rfl

theorem MinerMove.flagStep {s : State cfg k} {m : Fin cfg.numMiners} {minerId : ℕ}
    {a : MinerAction} {sh : Shared cfg} {st : MinerState cfg}
    (h : MinerMove env minerId s.toShared a (s.miners m) sh st) :
    FlagStep s (.miner m a) (s.setMiner sh m st) := by
  generalize hst : s.miners m = old at h
  cases h with
  | selectNone hshort =>
    refine .of_unchanged rfl rfl ?_ rfl (fun _ => rfl) (fun _ => rfl) rfl
    simp [taken, hst, selectSection, hshort]
  | @select _ _ slots reserved hroom hsel =>
    refine flagStep_select ?_ hsel rfl rfl
    simp [taken, hst, selectSection, not_lt.mpr hroom, hsel]
  | @selectShort _ _ slots reserved hroom hsel hshort =>
    refine flagStep_select ?_ hsel rfl rfl
    simp [taken, hst, selectSection, not_lt.mpr hroom, hsel]
  | @rollback reserved =>
    have hres : restored s (.miner m .rollback) = reserved.map Prod.fst := by
      simp only [restored, hst]
    refine ⟨fun i => ?_, fun i _ => ?_, rfl⟩
    · rw [hres, State.setMiner_toShared, Shared.setSlots_slots, release_apply]
      simp only [inserted, taken, List.not_mem_nil, false_or, if_false]
      split <;> rfl
    · rw [State.setMiner_toShared, Shared.setSlots_slots, release_apply]
      split <;> rfl
  | @restore reserved =>
    have hres : ∀ i, i ∈ restored s (.miner m .restore) ↔
        ∃ t ∈ reserved.toList.map Prod.snd, (s.pool.slots i).transaction.id = t.id := by
      intro i
      simp only [restored, hst, List.mem_filter, List.mem_finRange, true_and, List.any_eq_true,
        beq_iff_eq, List.mem_map, exists_exists_and_eq_and]
    refine ⟨fun i => ?_, fun i _ => ?_, rfl⟩
    · rw [State.setMiner_toShared, Shared.setSlots_slots, restoreLoop]
      simp only [inserted, taken, List.not_mem_nil, false_or, if_false, hres]
      split <;> rfl
    · rw [State.setMiner_toShared, Shared.setSlots_slots, restoreLoop]
      split <;> rfl
  | _ => exact .of_unchanged rfl rfl rfl rfl (fun _ => rfl) (fun _ => rfl) rfl

theorem ValidatorMove.flagStep {s : State cfg k} {v : Fin k} {a : ValidatorAction cfg}
    {sh : Shared cfg} {st : ValidatorState cfg}
    (h : ValidatorMove env s.toShared a (s.validators v) sh st) :
    FlagStep s (.validator v a) (s.setValidator sh v st) := by
  generalize hst : s.validators v = old at h
  cases h with
  | accept hall =>
    refine .of_unchanged rfl ?_ rfl rfl (fun _ => rfl) (fun _ => rfl) rfl
    simp only [restored, hst, if_pos hall]
  | @reject d _ hall =>
    have hres : ∀ i, i ∈ restored s (.validator v .checkPool) ↔
        ∃ t ∈ d.received.block.transactions.takeWhile (found s.pool.slots),
          firstCarrier s.pool.slots t.id = some i := by
      intro i
      simp only [restored, hst, hall, Bool.false_eq_true, if_false, mem_firstCarriers]
    have hnot : ∃ t ∈ d.received.block.transactions, found s.pool.slots t = false := by
      simpa [List.all_eq_false] using hall
    refine ⟨fun i => ?_, fun i _ => congrArg Transaction.id (poolSection_transaction _ _ i), rfl⟩
    rw [State.setValidator_toShared, Shared.setSlots_slots, poolSection_apply]
    simp only [inserted, taken, List.not_mem_nil, false_or, if_false, hres, hnot, true_and]
    split <;> rfl
  | @remove d pool hpool =>
    have htaken : ∀ i, i ∈ taken s (.validator v .remove) ↔
        ∃ t ∈ d.received.block.transactions ++ d.received.heapTail,
          firstCarrier s.pool.slots t.id = some i := by
      intro i
      simp only [taken, hst, mem_firstCarriers]
    refine ⟨fun i => ?_, fun i _ => ?_, ?_⟩
    · rw [State.setValidator_toShared, Shared.setPool_pool, ← hpool,
        removeTransactionsFromPool_apply]
      simp only [inserted, restored, List.not_mem_nil, or_self, if_false, htaken]
      split <;> rfl
    · rw [State.setValidator_toShared, Shared.setPool_pool, ← hpool,
        removeTransactionsFromPool_transaction]
    · have href : refreshes s (.validator v .remove) = true := rfl
      rw [href, if_pos rfl, State.setValidator_toShared, Shared.setPool_pool, ← hpool,
        removeTransactionsFromPool, recount_slots, recount_occupancy]
  | @restoreRefused d pool hpool =>
    have hres : ∀ i, i ∈ restored s (.validator v .restoreRefused) ↔
        ∃ t ∈ d.received.block.transactions, firstCarrier s.pool.slots t.id = some i := by
      intro i
      simp only [restored, hst, mem_firstCarriers]
    refine ⟨fun i => ?_, fun i _ => ?_, ?_⟩
    · rw [State.setValidator_toShared, Shared.setPool_pool, ← hpool, restoreRefused_apply]
      simp only [inserted, taken, List.not_mem_nil, false_or, if_false, hres]
      split <;> rfl
    · rw [State.setValidator_toShared, Shared.setPool_pool, ← hpool, restoreRefused_transaction]
    · have href : refreshes s (.validator v .restoreRefused) = true := rfl
      rw [href, if_pos rfl, State.setValidator_toShared, Shared.setPool_pool, ← hpool,
        DeiChain.restoreRefused, recount_slots, recount_occupancy]
  | _ =>
    refine .of_unchanged rfl ?_ rfl rfl (fun _ => rfl) (fun _ => rfl) rfl
    simp only [restored]

theorem flagStep_of_step {s t : State cfg k} {l : Label cfg k} (h : step env s l = some t) :
    FlagStep s l t := by
  cases l with
  | shared a =>
    obtain ⟨sh, hsh, rfl⟩ := Option.map_eq_some_iff.mp h
    exact flagStep_shared hsh
  | miner m a =>
    obtain ⟨⟨sh, st⟩, hsh, rfl⟩ := Option.map_eq_some_iff.mp h
    exact (minerMove_of_step hsh).flagStep
  | validator v a =>
    obtain ⟨⟨sh, st⟩, hsh, rfl⟩ := Option.map_eq_some_iff.mp h
    exact (validatorMove_of_step hsh).flagStep

end DeiChain
