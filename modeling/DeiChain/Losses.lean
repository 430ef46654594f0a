import DeiChain.Aging
import DeiChain.Library.Loss
import Mathlib.Data.List.TakeWhile

namespace DeiChain

open ByteLayout Transition Custody

variable {cfg : Config} {k : ℕ} {env : Environment cfg}

def uncarried {n : ℕ} (slots : Slots n) (ids : List (List UInt8)) : List (List UInt8) :=
  ids.filter (fun x => (firstCarrier slots x).isNone)

-- The ids that vanish with a step. A refused add has never put its transaction anywhere; a
-- restore goes by id and misses what another transaction has overwritten; the search of
-- validate_block stops at the first missing transaction and returns only those before it.
def dropped (env : Environment cfg) (s : State cfg k) : Label cfg k → List (List UInt8)
  | .shared (.add tx) => if (addSection tx s.pool).1 = 0 then [] else [tx.id]
  | .shared (.lose i) => pipeIds (s.pipe i)
  | .miner m .quit => (s.miners m).ids
  | .miner m .restore => uncarried s.pool.slots (s.miners m).ids
  | .validator v .checkLink =>
    match s.validators v with
    | .received d =>
      if verifyNonce env.sha d.received.block &&
          checkLink env.sha env.att s.ledger d.received.block then []
      else d.received.block.ids
    | _ => []
  | .validator v .checkPool =>
    match s.validators v with
    | .linked d _ =>
      (d.received.block.transactions.dropWhile (found s.pool.slots)).map Transaction.id
    | _ => []
  | .validator v .checkPoolFails => (s.validators v).ids
  | .validator v .restoreRefused => uncarried s.pool.slots (s.validators v).ids
  | _ => []

theorem mem_availableIds {slots : Slots cfg.txPoolSize} {x : List UInt8} :
    x ∈ State.availableIds slots ↔
      ∃ i, (slots i).empty = false ∧ (slots i).transaction.id = x := Iff.rfl

theorem FlagStep.mem_available {s t : State cfg k} {l : Label cfg k} (h : FlagStep s l t)
    (hins : inserted s l = []) {x : List UInt8} :
    x ∈ State.availableIds t.pool.slots ↔
      (∃ i ∈ restored s l, (s.pool.slots i).transaction.id = x) ∨
        ∃ i, i ∉ taken s l ∧ (s.pool.slots i).empty = false ∧
          (s.pool.slots i).transaction.id = x := by
  have hids : ∀ i, (t.pool.slots i).transaction.id = (s.pool.slots i).transaction.id :=
    fun i => h.ids i (by rw [hins]; exact List.not_mem_nil)
  have hflags : ∀ i, (t.pool.slots i).empty = false ↔
      i ∈ restored s l ∨ (i ∉ taken s l ∧ (s.pool.slots i).empty = false) := by
    intro i
    rw [h.flags, hins]
    by_cases hres : i ∈ restored s l
    · simp [hres]
    · by_cases htaken : i ∈ taken s l
      · simp [hres, htaken]
      · simp [hres, htaken]
  simp only [mem_availableIds, hflags, hids]
  refine ⟨?_, ?_⟩
  · rintro ⟨i, hres | ⟨hnot, hfull⟩, hid⟩
    · exact .inl ⟨i, hres, hid⟩
    · exact .inr ⟨i, hnot, hfull, hid⟩
  · rintro (⟨i, hres, hid⟩ | ⟨i, hnot, hfull, hid⟩)
    · exact ⟨i, .inl hres, hid⟩
    · exact ⟨i, .inr ⟨hnot, hfull⟩, hid⟩

theorem FlagStep.available_keep {s t : State cfg k} {l : Label cfg k} (h : FlagStep s l t)
    (hins : inserted s l = []) (hres : restored s l = []) (htaken : taken s l = [])
    (x : List UInt8) : x ∈ t.account.available ↔ x ∈ s.account.available := by
  have hmem := h.mem_available hins (x := x)
  simp only [hres, htaken, List.not_mem_nil, not_false_eq_true, true_and, false_and, exists_false,
    false_or] at hmem
  exact hmem

-- A party gives up all it holds and returns nothing.
theorem HonestInvariant.loses_all {s t : State cfg k} (hs : HonestInvariant s) (g : Holder cfg k)
    (hused : t.used = s.used) (hcommitted : t.committed = s.committed)
    (hheld : t.held = Function.update s.held g [])
    (havailable : ∀ x, x ∈ t.account.available ↔ x ∈ s.account.available) :
    Loses s.account t.account (s.held g) := by
  refine hs.sound.loses_drop g (hs.sound.held_nodup g) (fun _ hx => hx)
    (congrArg (fun used => {x | x ∈ used}) hused) (fun x => ?_) hheld
    (congrArg (List.flatMap TransactionBlock.ids) hcommitted)
  rw [havailable]
  exact (or_iff_left (fun hx => hx.2 hx.1)).symm

-- A party gives up all it holds and returns what it finds.
theorem HonestInvariant.loses_rest {s t : State cfg k} {l : Label cfg k} (hs : HonestInvariant s)
    (hflags : FlagStep s l t) (g : Holder cfg k) {drops : List (List UInt8)}
    (hdrops : drops.Sublist (s.held g)) (hused : t.used = s.used)
    (hcommitted : t.committed = s.committed) (hheld : t.held = Function.update s.held g [])
    (hins : inserted s l = []) (htaken : taken s l = [])
    (hres : ∀ x, (∃ i ∈ restored s l, (s.pool.slots i).transaction.id = x) ↔
      x ∈ s.held g ∧ x ∉ drops) : Loses s.account t.account drops := by
  refine hs.sound.loses_drop g (hdrops.nodup (hs.sound.held_nodup g)) (fun _ hx => hdrops.subset hx)
    (congrArg (fun used => {x | x ∈ used}) hused) (fun x => ?_) hheld
    (congrArg (List.flatMap TransactionBlock.ids) hcommitted)
  have hmem := hflags.mem_available hins (x := x)
  simp only [htaken, List.not_mem_nil, not_false_eq_true, true_and, hres] at hmem
  exact hmem.trans or_comm

theorem loses_same {s t : State cfg k} (hused : t.used = s.used)
    (hcommitted : t.committed = s.committed) (hheld : t.held = s.held)
    (havailable : ∀ x, x ∈ t.account.available ↔ x ∈ s.account.available) :
    Loses s.account t.account [] :=
  loses_keep (congrArg (fun used => {x | x ∈ used}) hused) havailable hheld
    (congrArg (List.flatMap TransactionBlock.ids) hcommitted)

theorem mem_uncarried {n : ℕ} {slots : Slots n} {ids : List (List UInt8)} {x : List UInt8} :
    x ∈ uncarried slots ids ↔ x ∈ ids ∧ ∀ i, (slots i).transaction.id ≠ x := by
  rw [uncarried, List.mem_filter, Option.isNone_iff_eq_none, firstCarrier_eq_none]

theorem mem_firstCarriers_id {n : ℕ} {slots : Slots n} {txs : List Transaction}
    {x : List UInt8} : (∃ i ∈ firstCarriers slots txs, (slots i).transaction.id = x) ↔
      x ∈ txs.map Transaction.id ∧ ∃ i, (slots i).transaction.id = x := by
  refine ⟨?_, ?_⟩
  · rintro ⟨i, hi, rfl⟩
    obtain ⟨t, ht, hcarrier⟩ := mem_firstCarriers.mp hi
    rw [(firstCarrier_eq_some.mp hcarrier).1]
    exact ⟨List.mem_map_of_mem ht, i, (firstCarrier_eq_some.mp hcarrier).1⟩
  · rintro ⟨hx, i, hi⟩
    obtain ⟨t, ht, rfl⟩ := List.mem_map.mp hx
    cases hfirst : firstCarrier slots t.id with
    | none => exact absurd hi (firstCarrier_eq_none.mp hfirst i)
    | some j =>
      exact ⟨j, mem_firstCarriers.mpr ⟨t, ht, hfirst⟩, (firstCarrier_eq_some.mp hfirst).1⟩

theorem loses_add {s : State cfg k} (hs : HonestInvariant s) {tx : Transaction}
    (hallow : Honest s (.shared (.add tx))) :
    Loses s.account (s.setShared (s.toShared.add tx)).account
      (dropped env s (.shared (.add tx))) := by
  obtain ⟨-, hfresh⟩ := honest_add hallow
  have hissued : (s.setShared (s.toShared.add tx)).account.issued =
      insert tx.id s.account.issued := by
    ext x
    exact List.mem_cons
  have hpool : (s.setShared (s.toShared.add tx)).pool = (addSection tx s.pool).2 := rfl
  rcases addSection_cases tx s.pool with ⟨code, hcode, hadd⟩ | ⟨position, hpos, hadd⟩
  · rw [dropped, hadd, if_neg hcode]
    refine hs.sound.loses_refused hfresh hissued (fun y => ?_) rfl rfl
    change y ∈ State.availableIds (s.setShared (s.toShared.add tx)).pool.slots ↔ _
    rw [hpool, hadd]
    exact Iff.rfl
  · rw [dropped, hadd, if_pos rfl]
    refine loses_issue hfresh hissued (fun y => ?_) rfl rfl
    change y ∈ State.availableIds (s.setShared (s.toShared.add tx)).pool.slots ↔ _
    rw [hpool, hadd, insertAt_slots, mem_availableIds]
    refine ⟨?_, ?_⟩
    · rintro ⟨i, hfull, hid⟩
      by_cases hi : i = position
      · subst hi
        rw [Function.update_self] at hid
        exact .inl hid.symm
      · rw [Function.update_of_ne hi] at hfull hid
        exact .inr ⟨i, hfull, hid⟩
    · rintro (rfl | ⟨i, hfull, hid⟩)
      · exact ⟨position, by rw [Function.update_self]; exact ⟨rfl, rfl⟩⟩
      · have hi : i ≠ position := by
          rintro rfl
          rw [hpos.empty] at hfull
          cases hfull
        exact ⟨i, by rw [Function.update_of_ne hi]; exact ⟨hfull, hid⟩⟩

theorem loses_shared {s : State cfg k} (hs : HonestInvariant s) {a : SharedAction}
    {sh : Shared cfg} (hallow : Honest s (.shared a)) (h : sharedStep s.toShared a = some sh) :
    Loses s.account (s.setShared sh).account (dropped env s (.shared a)) := by
  have hflags := flagStep_shared h
  cases a with
  | add tx =>
    cases h
    exact loses_add hs hallow
  | lose i =>
    cases h
    exact hs.loses_all (.pipe i) rfl rfl (held_pop i) (fun _ => Iff.rfl)
  | age =>
    cases h
    exact loses_same rfl rfl rfl (hflags.available_keep rfl rfl rfl)
  | _ =>
    cases sharedMove_of_step h
    exact loses_same rfl rfl rfl (fun _ => Iff.rfl)

theorem loses_select {s t : State cfg k} (hs : HonestInvariant s) {m : Fin cfg.numMiners}
    {slots : Slots cfg.txPoolSize} {reserved : List (Reservation cfg.txPoolSize)}
    (hnone : s.held (.miner m) = [])
    (hsel : Selects (List.finRange _) s.pool.slots [] reserved slots) (hused : t.used = s.used)
    (hcommitted : t.committed = s.committed) (hslots : t.pool.slots = slots)
    (hheld : t.held = Function.update s.held (.miner m) (reserved.map (·.2.id))) :
    Loses s.account t.account [] := by
  refine loses_take (h := .miner m) hnone (congrArg (fun used => {x | x ∈ used}) hused)
    (fun x => ?_) hheld (congrArg (List.flatMap TransactionBlock.ids) hcommitted)
  change x ∈ State.availableIds s.pool.slots ↔ x ∈ State.availableIds t.pool.slots ∨ _
  rw [hslots, mem_availableIds, mem_availableIds, List.mem_map]
  refine ⟨?_, ?_⟩
  · rintro ⟨i, hfull, hid⟩
    have hafter := hsel.after_apply i
    by_cases hi : i ∈ reserved.map Prod.fst
    · obtain ⟨r, hr, rfl⟩ := List.mem_map.mp hi
      exact .inr ⟨r, hr, by rw [(hsel.taken r hr).2.2, hid]⟩
    · rw [if_neg hi] at hafter
      exact .inl ⟨i, by rw [hafter]; exact ⟨hfull, hid⟩⟩
  · rintro (⟨i, hfull, hid⟩ | ⟨r, hr, rfl⟩)
    · obtain ⟨hold, htx, -⟩ := select_available hs.pool hsel i hfull
      exact ⟨i, hold, by rw [← htx, hid]⟩
    · obtain ⟨-, hfull, htx⟩ := hsel.taken r hr
      exact ⟨r.1, hfull, by rw [htx]⟩

theorem loses_miner {s : State cfg k} (hs : HonestInvariant s) (hpipe : s.pipe s.sent = none)
    {m : Fin cfg.numMiners} {a : MinerAction} {sh : Shared cfg} {st : MinerState cfg}
    (h : MinerMove env (m + 1) s.toShared a (s.miners m) sh st) :
    Loses s.account (s.setMiner sh m st).account (dropped env s (.miner m a)) := by
  have hflags := h.flagStep
  generalize hst : s.miners m = old at h
  have hids : s.held (.miner m) = old.ids := congrArg MinerState.ids hst
  cases h with
  | select hroom hsel =>
    exact loses_select hs hids (selects_of_section hsel) rfl rfl rfl (held_setMiner rfl m _)
  | selectShort hroom hsel hshort => exact absurd (select_full hs.pool hroom hsel) hshort
  | rollback => exact absurd hst (hs.noRollback m _)
  | @send b =>
    have hheld := held_push (s := s) m .waiting ⟨Int32.ofNat (m + 1), b⟩
    refine loses_pass (.miner m) (.pipe s.sent) (by simp) (congrArg pipeIds hpipe) rfl
      (fun _ => Iff.rfl) ?_ rfl
    change _ = Function.update (Function.update s.held (.miner m) []) _ (s.held (.miner m))
    rw [hids]
    exact hheld
  | @restore reserved =>
    refine hs.loses_rest hflags (.miner m) List.filter_sublist rfl rfl (held_setMiner rfl m _) rfl
      rfl (fun x => ?_)
    have hheld : s.held (.miner m) = reserved.toList.map (·.2.id) := hids
    change _ ↔ x ∈ s.held (.miner m) ∧ x ∉ uncarried s.pool.slots (s.held (.miner m))
    simp only [mem_uncarried, not_and, not_forall, not_not]
    simp only [restored, hst, List.mem_filter, List.mem_finRange, true_and, List.any_eq_true,
      beq_iff_eq]
    refine ⟨?_, ?_⟩
    · rintro ⟨i, ⟨r, hr, hid⟩, rfl⟩
      refine ⟨?_, fun _ => ⟨i, rfl⟩⟩
      rw [hheld, hid]
      exact List.mem_map_of_mem hr
    · rintro ⟨hx, hcarried⟩
      obtain ⟨i, hi⟩ := hcarried hx
      rw [hheld] at hx
      obtain ⟨r, hr, hid⟩ := List.mem_map.mp hx
      exact ⟨i, ⟨r, hr, hi.trans hid.symm⟩, hi⟩
  | create clock =>
    refine loses_same rfl rfl (held_setMiner_same rfl ?_) (fun _ => Iff.rfl)
    rw [hst]
    exact MinedBlock.ids_eq _
  | mine hmine =>
    refine loses_same rfl rfl (held_setMiner_same rfl ?_) (fun _ => Iff.rfl)
    rw [hst]
    simp only [MinerState.ids]
    rw [MinedBlock.ids_eq, MinedBlock.ids_eq, MinedBlock.mine_reserved hmine]
  | mineFails | sendFails =>
    refine loses_same rfl rfl (held_setMiner_same rfl ?_) (fun _ => Iff.rfl)
    rw [hst]
    exact (MinedBlock.ids_eq _).symm
  | quit => exact hs.loses_all (.miner m) rfl rfl (held_setMiner rfl m _) (fun _ => Iff.rfl)
  | _ =>
    refine loses_same rfl rfl (held_setMiner_same rfl ?_) (fun _ => Iff.rfl)
    rw [hst]
    rfl

theorem loses_link {s : State cfg k} (hs : HonestInvariant s) {v : Fin k} {sh : Shared cfg}
    {st : ValidatorState cfg}
    (h : validatorStep env s.toShared (s.validators v) .checkLink = some (sh, st)) :
    Loses s.account (s.setValidator sh v st).account (dropped env s (.validator v .checkLink)) := by
  rw [dropped]
  cases hst : s.validators v <;> rw [hst] at h <;> simp only [validatorStep, reduceCtorEq] at h
  rename_i d
  have hids : s.held (.validator v) = d.received.block.ids := congrArg ValidatorState.ids hst
  split at h
  · rename_i hlinked
    cases h
    dsimp only
    rw [if_pos hlinked]
    refine loses_same rfl rfl (held_setValidator_same rfl ?_) (fun _ => Iff.rfl)
    rw [hst]
    rfl
  · rename_i hrefused
    cases h
    dsimp only
    rw [if_neg hrefused, ← hids]
    exact hs.loses_all (.validator v) rfl rfl (held_setValidator rfl v _) (fun _ => Iff.rfl)

theorem mem_before_missing_iff {s : State cfg k} (hs : HonestInvariant s) {v : Fin k}
    {d : Delivery cfg} (hids : s.held (.validator v) = d.received.block.ids)
    (p : Transaction → Bool) {x : List UInt8} :
    x ∈ (d.received.block.transactions.takeWhile p).map Transaction.id ↔
      x ∈ s.held (.validator v) ∧
        x ∉ (d.received.block.transactions.dropWhile p).map Transaction.id := by
  have hnodup := hs.sound.held_nodup (.validator v)
  change (s.held (.validator v)).Nodup at hnodup
  have hsplit : d.received.block.ids =
      (d.received.block.transactions.takeWhile p).map Transaction.id ++
        (d.received.block.transactions.dropWhile p).map Transaction.id := by
    rw [← List.map_append, List.takeWhile_append_dropWhile]
    rfl
  rw [hids, hsplit] at hnodup ⊢
  have hdisjoint := List.disjoint_of_nodup_append hnodup
  rw [List.mem_append]
  refine ⟨fun hx => ⟨.inl hx, fun hmem => hdisjoint hx hmem⟩, ?_⟩
  rintro ⟨hx | hx, hnot⟩
  · exact hx
  · exact absurd hx hnot

theorem loses_validator {s : State cfg k} (hs : HonestInvariant s) (hdel : DeliveryInvariant s)
    {v : Fin k} {a : ValidatorAction cfg} {sh : Shared cfg} {st : ValidatorState cfg}
    (hallow : Honest s (.validator v a))
    (h : validatorStep env s.toShared (s.validators v) a = some (sh, st)) :
    Loses s.account (s.setValidator sh v st).account (dropped env s (.validator v a)) := by
  by_cases hlink : a = .checkLink
  · subst hlink
    exact loses_link hs h
  have hmove := validatorMove_of_step h
  have hflags := hmove.flagStep
  clear h
  generalize hst : s.validators v = old at hmove
  have hids : s.held (.validator v) = old.ids := congrArg ValidatorState.ids hst
  cases hmove with
  | @receive i heapPtr msg hmsg =>
    exact loses_pass (.pipe i) (.validator v) (by simp) hids rfl (fun _ => Iff.rfl)
      (held_receive v hmsg) rfl
  | deliver r => cases hallow
  | link | linkFails => exact absurd rfl hlink
  | @accept d tip hall =>
    have hnone : dropped env s (.validator v .checkPool) = [] := by
      have hdrop : d.received.block.transactions.dropWhile (found s.pool.slots) = [] :=
        List.dropWhile_eq_nil_iff.mpr (List.all_eq_true.mp hall)
      simp only [dropped, hst, hdrop, List.map_nil]
    rw [hnone]
    refine loses_same rfl rfl (held_setValidator_same rfl ?_) (fun _ => Iff.rfl)
    rw [hst]
    rfl
  | @reject d tip hall =>
    have hdrops : dropped env s (.validator v .checkPool) =
        (d.received.block.transactions.dropWhile (found s.pool.slots)).map Transaction.id := by
      simp only [dropped, hst]
    rw [hdrops]
    refine hs.loses_rest hflags (.validator v) ?_ rfl rfl (held_setValidator rfl v _) rfl rfl
      (fun x => ?_)
    · rw [hids]
      exact (List.dropWhile_sublist _).map _
    · simp only [restored, hst, hall, Bool.false_eq_true, if_false]
      rw [mem_firstCarriers_id, ← mem_before_missing_iff hs hids]
      refine and_iff_left_of_imp (fun hx => ?_)
      obtain ⟨t, ht, rfl⟩ := List.mem_map.mp hx
      exact (found_iff.mp (List.mem_takeWhile_imp ht)).2
  | checkPoolFails =>
    exact hs.loses_all (.validator v) rfl rfl (held_setValidator rfl v _) (fun _ => Iff.rfl)
  | append =>
    refine loses_spend (h := .validator v) rfl (fun _ => Iff.rfl) (held_setValidator rfl v _) ?_
    change State.ledgerIds _ = s.ledgerIds ++ s.held (.validator v)
    rw [hids]
    exact (List.flatMap_append).trans (congrArg _ (List.flatMap_singleton _ _))
  | @remove d pool hpool =>
    refine loses_same rfl rfl (held_setValidator_same rfl ?_) (fun x => ?_)
    · rw [hst]
      rfl
    · have hmem := hflags.mem_available rfl (x := x)
      simp only [restored, List.not_mem_nil, false_and, exists_false, false_or] at hmem
      refine hmem.trans ⟨?_, ?_⟩
      · rintro ⟨i, -, hfull, hid⟩
        exact ⟨i, hfull, hid⟩
      · rintro ⟨i, hfull, hid⟩
        refine ⟨i, fun htaken => ?_, hfull, hid⟩
        -- The block has been appended, so its transactions are available nowhere.
        simp only [taken, hst, hdel.whole v d (by rw [hst]; rfl), List.append_nil] at htaken
        obtain ⟨t, ht, hcarrier⟩ := mem_firstCarriers.mp htaken
        refine hs.sound.spent_unavailable t.id ?_ ⟨i, hfull, (firstCarrier_eq_some.mp hcarrier).1⟩
        exact hdel.spent v d hst t.id (List.mem_map_of_mem ht)
  | @restoreRefused d pool hpool =>
    refine hs.loses_rest hflags (.validator v) List.filter_sublist rfl rfl
      (held_setValidator rfl v _) rfl rfl (fun x => ?_)
    change _ ↔ x ∈ s.held (.validator v) ∧ x ∉ uncarried s.pool.slots (s.held (.validator v))
    simp only [mem_uncarried, not_and, not_forall, not_not]
    simp only [restored, hst]
    rw [mem_firstCarriers_id, hids]
    exact ⟨fun hx => ⟨hx.1, fun _ => hx.2⟩, fun hx => ⟨hx.1, hx.2 hx.1⟩⟩
  | _ =>
    refine loses_same rfl rfl (held_setValidator_same rfl ?_) (fun _ => Iff.rfl)
    rw [hst]
    rfl

theorem loses_step {s t : State cfg k} {l : Label cfg k} (hs : HonestInvariant s)
    (hdel : DeliveryInvariant s) (hfresh : PipeFresh s) (hallow : Honest s l)
    (hstep : step env s l = some t) : Loses s.account t.account (dropped env s l) := by
  cases l with
  | shared a =>
    obtain ⟨sh, hsh, rfl⟩ := Option.map_eq_some_iff.mp hstep
    exact loses_shared hs hallow hsh
  | miner m a =>
    obtain ⟨⟨sh, st⟩, hsh, rfl⟩ := Option.map_eq_some_iff.mp hstep
    exact loses_miner hs (hfresh s.sent le_rfl) (minerMove_of_step hsh)
  | validator v a =>
    obtain ⟨⟨sh, st⟩, hsh, rfl⟩ := Option.map_eq_some_iff.mp hstep
    exact loses_validator hs hdel hallow hsh

def recordDrops (env : Environment cfg) (s : State cfg k) (l : Label cfg k) (_ : State cfg k)
    (lost : List (List UInt8)) : List (List UInt8) := dropped env s l ++ lost

structure DropsRecorded (s : State cfg k) (lost : List (List UInt8)) : Prop where
  honest : HonestInvariant s
  deliveries : DeliveryInvariant s
  pipe : PipeFresh s
  nodup : lost.Nodup
  mem_iff : ∀ x, x ∈ lost ↔ x ∈ s.account.lost

theorem dropsRecorded_init : DropsRecorded (initState cfg k) [] where
  honest := honestInvariant_init
  deliveries := deliveryInvariant_init
  pipe i _ := rfl
  nodup := List.nodup_nil
  mem_iff x := by
    refine iff_of_false List.not_mem_nil (fun hlost => ?_)
    have hissued : x ∈ (initState cfg k).used := hlost.1
    cases hissued

theorem DropsRecorded.step {s t : State cfg k} {l : Label cfg k} {lost : List (List UInt8)}
    (h : DropsRecorded s lost) (hallow : Honest s l) (hstep : step env s l = some t) :
    DropsRecorded t (dropped env s l ++ lost) := by
  have hloses := loses_step h.honest h.deliveries h.pipe hallow hstep
  refine ⟨h.honest.step hallow hstep, h.deliveries.step hallow hstep, pipeFresh_step h.pipe hstep,
    List.nodup_append.mpr ⟨hloses.nodup, h.nodup, ?_⟩, fun x => ?_⟩
  · rintro x hx y hy rfl
    exact hloses.fresh x hx ((h.mem_iff x).mp hy)
  · rw [List.mem_append, h.mem_iff, hloses.lost]

theorem dropsRecorded_of_reachable {s t : State cfg k} {lost lost' : List (List UInt8)}
    (hs : DropsRecorded s lost)
    (h : Reachable (watch (step env) (recordDrops env)) (watching Honest) (s, lost) (t, lost')) :
    DropsRecorded t lost' ∧ lost ⊆ lost' := by
  refine h.invariant (I := fun p => DropsRecorded p.1 p.2 ∧ lost ⊆ p.2) ⟨hs, List.Subset.refl _⟩ ?_
  rintro ⟨a, before⟩ l ⟨b, after⟩ ⟨ha, hsub⟩ hallow hstep
  obtain ⟨hnext, hafter⟩ := watch_eq_some hstep
  dsimp only at hnext hafter
  subst hafter
  exact ⟨ha.step hallow hnext, List.Subset.trans hsub (List.subset_append_right _ _)⟩

-- A transaction handed in is lost exactly when some step of the run has dropped it. No
-- transaction is dropped twice, and a lost one is neither offered, held nor committed again.
theorem lost_iff_dropped {s : State cfg k} {lost : List (List UInt8)}
    (h : Reachable (watch (step env) (recordDrops env)) (watching Honest)
      (initState cfg k, []) (s, lost)) :
    lost.Nodup ∧
      (∀ x, x ∈ lost ↔ x ∈ s.used ∧ x ∉ State.availableIds s.pool.slots ∧
        (∀ g, x ∉ s.held g) ∧ x ∉ s.ledgerIds) ∧
      ∀ t lost', Reachable (watch (step env) (recordDrops env)) (watching Honest)
        (s, lost) (t, lost') → ∀ x ∈ lost, x ∉ State.availableIds t.pool.slots ∧
          (∀ g, x ∉ t.held g) ∧ x ∉ t.ledgerIds := by
  have hspelled : ∀ {t : State cfg k} {x : List UInt8}, x ∈ t.account.lost ↔
      x ∈ t.used ∧ x ∉ State.availableIds t.pool.slots ∧ (∀ g, x ∉ t.held g) ∧
        x ∉ t.ledgerIds := by
    intro t x
    rw [mem_lost, mem_present, not_or, not_or, not_exists]
    exact Iff.rfl
  have hs := (dropsRecorded_of_reachable dropsRecorded_init h).1
  refine ⟨hs.nodup, fun x => (hs.mem_iff x).trans hspelled, fun t lost' hlater x hx => ?_⟩
  obtain ⟨ht, hsub⟩ := dropsRecorded_of_reachable hs hlater
  exact (hspelled.mp ((ht.mem_iff x).mp (hsub hx))).2

-- The block of the second miner comes too late, and its transaction is lost with it.
theorem lost_iff_dropped_late_block :
    ∃ (s : State (Sample.config 1) 2) (lost : List (List UInt8)), s.ledgerIds = [[1]] ∧
      s.used = [[2], [1]] ∧ lost = [[2]] ∧ lost.Nodup ∧
      (∀ x, x ∈ lost ↔ x ∈ s.used ∧ x ∉ State.availableIds s.pool.slots ∧
        (∀ g, x ∉ s.held g) ∧ x ∉ s.ledgerIds) := by
  let labels : List (Label (Sample.config 1) 2) :=
    Sample.add 1 ++ Sample.add 2 ++ Sample.reserve 0 ++ Sample.mineAndSend 0 ++
      Sample.reserve 1 ++ Sample.mineAndSend 1 ++ Sample.receive 0 0 ++ Sample.commit 0 ++
      [.validator 1 (.receive 1 0), .validator 1 .checkLink]
  have hcheck : (runAllowed (watch (step (Sample.environment 1))
      (recordDrops (Sample.environment 1))) (watching Honest) (initState _ 2, []) labels).map
        (fun p => (p.1.ledgerIds, p.1.used, p.2)) = some ([[1]], [[2], [1]], [[2]]) := by
    decide +kernel
  obtain ⟨⟨s, lost⟩, hrun, hmap⟩ := Option.map_eq_some_iff.mp hcheck
  simp only [Prod.mk.injEq] at hmap
  obtain ⟨hledger, hused, hdropped⟩ := hmap
  have hlost := lost_iff_dropped (reachable_of_runAllowed hrun)
  exact ⟨s, lost, hledger, hused, hdropped, hlost.1, hlost.2.1⟩

end DeiChain
