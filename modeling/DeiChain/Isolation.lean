import DeiChain.ExactlyOnce

namespace DeiChain

open ByteLayout Transition

variable {cfg : Config} {k : ℕ} {env : Environment cfg}

def MinerState.reserved : MinerState cfg → List (Reservation cfg.txPoolSize)
  | .rollback reserved => reserved
  | .selected reserved _ _ => reserved.toList
  | .created b => b.reserved.toList
  | .mined b => b.reserved.toList
  | .restoring reserved => reserved.toList
  | _ => []

def ValidatorState.reserved : ValidatorState cfg → List (Reservation cfg.txPoolSize)
  | .received d => d.reserved
  | .linked d _ => d.reserved
  | .accepted d _ => d.reserved
  | .appending d _ => d.reserved
  | .full d => d.reserved
  | _ => []

def pipeReserved (msg : Option (Message cfg)) : List (Reservation cfg.txPoolSize) :=
  (msg.map (·.mined.reserved.toList)).getD []

def State.reserved (s : State cfg k) : Holder cfg k → List (Reservation cfg.txPoolSize)
  | .miner m => (s.miners m).reserved
  | .pipe i => pipeReserved (s.pipe i)
  | .validator v => (s.validators v).reserved

theorem SharedMove.reserved {s : State cfg k} {a : SharedAction} {sh : Shared cfg}
    (h : SharedMove s.toShared a sh) {g : Holder cfg k} {r : Reservation cfg.txPoolSize}
    (hr : r ∈ (s.setShared sh).reserved g) : r ∈ s.reserved g := by
  cases g with
  | miner m => exact hr
  | validator v => exact hr
  | pipe i =>
    cases h with
    | lose j =>
      change r ∈ pipeReserved (Function.update s.pipe j none i) at hr
      rcases of_update (P := fun msg => r ∈ pipeReserved msg) hr with ⟨-, hnone⟩ | hold
      · cases hnone
      · exact hold
    | _ => exact hr

theorem MinerMove.reserved {s : State cfg k} {m : Fin cfg.numMiners} {minerId : ℕ}
    {a : MinerAction} {sh : Shared cfg} {st : MinerState cfg}
    (h : MinerMove env minerId s.toShared a (s.miners m) sh st) {g : Holder cfg k}
    {r : Reservation cfg.txPoolSize} (hr : r ∈ (s.setMiner sh m st).reserved g) :
    r ∈ s.reserved g ∨ r ∈ s.reserved (.miner m) ∨
      (a = .select ∧ r.2 = (s.pool.slots r.1).transaction) := by
  have hown : r ∈ (s.miners m).reserved → r ∈ s.reserved (.miner m) := id
  generalize hst : s.miners m = old at h hown
  cases g with
  | validator v => exact .inl hr
  | pipe i =>
    cases h with
    | @send b =>
      change r ∈ pipeReserved (Function.update s.pipe s.sent (some ⟨_, b⟩) i) at hr
      rcases of_update (P := fun msg => r ∈ pipeReserved msg) hr with ⟨-, hsent⟩ | hold
      · exact .inr (.inl (hown hsent))
      · exact .inl hold
    | _ => exact .inl hr
  | miner m' =>
    change r ∈ (Function.update s.miners m st m').reserved at hr
    rcases of_update (P := fun st => r ∈ MinerState.reserved st) hr with ⟨-, hr⟩ | hold
    · cases h with
      | select hroom hsel =>
        exact .inr (.inr ⟨rfl, ((selects_of_section hsel).taken r hr).2.2⟩)
      | selectShort hroom hsel hshort =>
        exact .inr (.inr ⟨rfl, ((selects_of_section hsel).taken r hr).2.2⟩)
      | mine hmine =>
        change r ∈ (MinedBlock.reserved _).toList at hr
        rw [MinedBlock.mine_reserved hmine] at hr
        exact .inr (.inl (hown hr))
      | _ => first | exact .inr (.inl (hown hr)) | cases hr
    · exact .inl hold

theorem ValidatorMove.reserved {s : State cfg k} {v : Fin k} {a : ValidatorAction cfg}
    {sh : Shared cfg} {st : ValidatorState cfg}
    (h : ValidatorMove env s.toShared a (s.validators v) sh st) {g : Holder cfg k}
    {r : Reservation cfg.txPoolSize} (hr : r ∈ (s.setValidator sh v st).reserved g) :
    ∃ g', r ∈ s.reserved g' := by
  have hown : r ∈ (s.validators v).reserved → r ∈ s.reserved (.validator v) := id
  generalize hst : s.validators v = old at h hown
  cases g with
  | miner m => exact ⟨.miner m, hr⟩
  | pipe i =>
    cases h with
    | @receive j heapPtr msg hmsg =>
      change r ∈ pipeReserved (Function.update s.pipe j none i) at hr
      rcases of_update (P := fun msg => r ∈ pipeReserved msg) hr with ⟨-, hnone⟩ | hold
      · cases hnone
      · exact ⟨.pipe i, hold⟩
    | _ => exact ⟨.pipe i, hr⟩
  | validator w =>
    change r ∈ (Function.update s.validators v st w).reserved at hr
    rcases of_update (P := fun st => r ∈ ValidatorState.reserved st) hr with ⟨-, hr⟩ | hold
    · cases h with
      | @receive j heapPtr msg hmsg =>
        refine ⟨.pipe j, ?_⟩
        change r ∈ pipeReserved (s.pipe j)
        rw [hmsg]
        exact hr
      | _ => first | exact ⟨.validator v, hown hr⟩ | cases hr
    · exact ⟨.validator w, hold⟩

theorem step_reserved {s t : State cfg k} {l : Label cfg k} (h : step env s l = some t)
    {g : Holder cfg k} {r : Reservation cfg.txPoolSize} (hr : r ∈ t.reserved g) :
    (∃ g', r ∈ s.reserved g') ∨
      ((∃ m, l = .miner m .select) ∧ r.2 = (s.pool.slots r.1).transaction) := by
  rcases step_cases h with ⟨a, sh, rfl, hmove, rfl⟩ | ⟨m, a, sh, st, rfl, hmove, rfl⟩ |
    ⟨v, a, sh, st, rfl, hmove, rfl⟩
  · exact .inl ⟨g, hmove.reserved hr⟩
  · rcases hmove.reserved hr with hold | hold | ⟨rfl, hnew⟩
    · exact .inl ⟨g, hold⟩
    · exact .inl ⟨.miner m, hold⟩
    · exact .inr ⟨⟨m, rfl⟩, hnew⟩
  · exact .inl (hmove.reserved hr)

-- All that is reserved, whoever holds it.
def State.reservations (s : State cfg k) : List (Reservation cfg.txPoolSize) :=
  (List.finRange cfg.numMiners).flatMap (fun m => (s.miners m).reserved) ++
    (List.range s.sent).flatMap (fun i => pipeReserved (s.pipe i)) ++
    (List.finRange k).flatMap (fun v => (s.validators v).reserved)

theorem mem_reservations {s : State cfg k} (hpipe : PipeFresh s)
    {r : Reservation cfg.txPoolSize} : r ∈ s.reservations ↔ ∃ g, r ∈ s.reserved g := by
  simp only [State.reservations, List.mem_append, List.mem_flatMap, List.mem_finRange, true_and,
    List.mem_range]
  constructor
  · rintro ((⟨m, hm⟩ | ⟨i, -, hi⟩) | ⟨v, hv⟩)
    · exact ⟨.miner m, hm⟩
    · exact ⟨.pipe i, hi⟩
    · exact ⟨.validator v, hv⟩
  · rintro ⟨m | i | v, hg⟩
    · exact .inl (.inl ⟨m, hg⟩)
    · by_cases hi : i < s.sent
      · exact .inl (.inr ⟨i, hi, hg⟩)
      · change r ∈ pipeReserved (s.pipe i) at hg
        rw [hpipe i (Nat.le_of_not_lt hi)] at hg
        cases hg
    · exact .inr ⟨v, hg⟩

-- In front of every reserved slot that is marked empty there lies another one marked so.
def Sheltered (s : State cfg k) : Prop :=
  ∀ r ∈ s.reservations, (s.pool.slots r.1).empty = true →
    ∃ i < r.1, (s.pool.slots i).empty = true

instance (s : State cfg k) : Decidable (Sheltered s) :=
  inferInstanceAs (Decidable (∀ r ∈ s.reservations, (s.pool.slots r.1).empty = true →
    ∃ i < r.1, (s.pool.slots i).empty = true))

-- A transaction comes while its id is available in the pool already, or all reserved slots are
-- sheltered.
def shelters (s : State cfg k) : Label cfg k → Bool
  | .shared (.add tx) =>
    (∃ i, (s.pool.slots i).empty = false ∧ (s.pool.slots i).transaction.id = tx.id) ∨ Sheltered s
  | _ => true

def Shelters (s : State cfg k) (l : Label cfg k) : Prop := shelters s l = true

instance (s : State cfg k) (l : Label cfg k) : Decidable (Shelters s l) :=
  inferInstanceAs (Decidable (_ = true))

theorem shelters_add {s : State cfg k} {tx : Transaction} : Shelters s (.shared (.add tx)) ↔
    (∃ i, (s.pool.slots i).empty = false ∧ (s.pool.slots i).transaction.id = tx.id) ∨
      Sheltered s := decide_eq_true_iff

-- The first slot marked empty is reserved exactly when some reserved slot is not sheltered.
theorem shelters_iff {s : State cfg k} {tx : Transaction}
    (hpipe : PipeFresh s) : Shelters s (.shared (.add tx)) ↔
      ∀ position, Accepts tx s.pool.slots position → ∀ g, ∀ r ∈ s.reserved g, r.1 ≠ position := by
  rw [shelters_add]
  constructor
  · rintro (⟨i, hfull, hid⟩ | hall) position hpos g r hr heq
    · exact hpos.fresh i hfull hid
    · obtain ⟨i, hlt, hempty⟩ := hall r ((mem_reservations hpipe).mpr ⟨g, hr⟩)
        (heq ▸ hpos.empty)
      rw [hpos.first i (heq ▸ hlt)] at hempty
      cases hempty
  · intro h
    by_contra hnot
    obtain ⟨hfresh, hopen⟩ := not_or.mp hnot
    simp only [Sheltered, not_forall, not_exists, not_and, Bool.not_eq_true] at hopen
    obtain ⟨r, hr, hempty, hfirst⟩ := hopen
    obtain ⟨g, hg⟩ := (mem_reservations hpipe).mp hr
    exact h r.1 ⟨hempty, hfirst, fun i hfull hid => hfresh ⟨i, hfull, hid⟩⟩ g r hg rfl

def Kept (R : Transaction → Transaction → Prop) (s : State cfg k) : Prop :=
  ∀ g, ∀ r ∈ s.reserved g, R (s.pool.slots r.1).transaction r.2

theorem kept_init (R : Transaction → Transaction → Prop) : Kept R (initState cfg k) := by
  intro g r hr
  cases g <;> cases hr

theorem sameRecord_step {s t : State cfg k} {l : Label cfg k}
    (hpipe : PipeFresh s) (hs : Kept Transaction.SameRecord s)
    (hallow : Shelters s l) (hstep : step env s l = some t) : Kept Transaction.SameRecord t := by
  intro g r hr
  have hslot : Transaction.SameRecord (t.pool.slots r.1).transaction
      (s.pool.slots r.1).transaction ∨
        ∃ tx, l = .shared (.add tx) ∧ Accepts tx s.pool.slots r.1 := by
    rcases step_transaction hstep r.1 with hsame | ⟨-, -, hsame⟩ | ⟨tx, hl, hpos, -⟩
    · exact .inl (hsame ▸ .refl _)
    · exact .inl hsame
    · exact .inr ⟨tx, hl, hpos⟩
  rcases step_reserved hstep hr with ⟨g', hold⟩ | ⟨⟨m, rfl⟩, hnew⟩
  · rcases hslot with hsame | ⟨tx, rfl, hpos⟩
    · exact hsame.trans (hs g' r hold)
    · exact absurd rfl ((shelters_iff hpipe).mp hallow r.1 hpos g' r hold)
  · rcases hslot with hsame | ⟨tx, hl, -⟩
    · exact hnew ▸ hsame
    · cases hl

theorem reserved_held {s : State cfg k} {g : Holder cfg k} {r : Reservation cfg.txPoolSize}
    (hr : r ∈ s.reserved g) : r.2.id ∈ s.held g := by
  have hmined : ∀ b : MinedBlock cfg, r ∈ b.reserved.toList → r.2.id ∈ b.block.ids := by
    intro b hb
    rw [b.ids_eq]
    exact List.mem_map_of_mem hb
  have hdelivered : ∀ d : Delivery cfg, r ∈ d.reserved → r.2.id ∈ d.received.block.ids :=
    fun d hd => List.mem_map_of_mem (d.reserved_mem r hd)
  cases g with
  | miner m =>
    change r ∈ (s.miners m).reserved at hr
    change r.2.id ∈ (s.miners m).ids
    cases hst : s.miners m with
    | created b => exact hmined b (by rwa [hst] at hr)
    | mined b => exact hmined b (by rwa [hst] at hr)
    | rollback reserved => exact List.mem_map_of_mem (by rwa [hst] at hr)
    | selected reserved => exact List.mem_map_of_mem (by rwa [hst] at hr)
    | restoring reserved => exact List.mem_map_of_mem (by rwa [hst] at hr)
    | _ =>
      rw [hst] at hr
      cases hr
  | pipe i =>
    change r ∈ pipeReserved (s.pipe i) at hr
    change r.2.id ∈ pipeIds (s.pipe i)
    cases hmsg : s.pipe i with
    | none =>
      rw [hmsg] at hr
      cases hr
    | some msg => exact hmined msg.mined (by rwa [hmsg] at hr)
  | validator v =>
    change r ∈ (s.validators v).reserved at hr
    change r.2.id ∈ (s.validators v).ids
    cases hst : s.validators v with
    | idle =>
      rw [hst] at hr
      cases hr
    | removing d =>
      rw [hst] at hr
      cases hr
    | received d => exact hdelivered d (by rwa [hst] at hr)
    | linked d tip => exact hdelivered d (by rwa [hst] at hr)
    | accepted d tip => exact hdelivered d (by rwa [hst] at hr)
    | appending d tip => exact hdelivered d (by rwa [hst] at hr)
    | full d => exact hdelivered d (by rwa [hst] at hr)

theorem eq_step {s t : State cfg k} {l : Label cfg k} (hpipe : PipeFresh s)
    (hinv : HonestInvariant s) (hs : Kept Eq s) (hallow : Shelters s l)
    (hstep : step env s l = some t) : Kept Eq t := by
  intro g r hr
  rcases step_reserved hstep hr with ⟨g', hold⟩ | ⟨⟨m, rfl⟩, hnew⟩
  · have hkept := hs g' r hold
    rcases step_transaction hstep r.1 with hsame | ⟨-, hfull, -⟩ | ⟨tx, rfl, hpos, -⟩
    · exact hsame.trans hkept
    · -- A reserved transaction is not available, so aging passes it by.
      exact absurd ⟨r.1, hfull, congrArg Transaction.id hkept⟩
        (hinv.sound.held_unavailable g' r.2.id (reserved_held hold))
    · exact absurd rfl ((shelters_iff hpipe).mp hallow r.1 hpos g' r hold)
  · rcases step_transaction hstep r.1 with hsame | ⟨hl, -, -⟩ | ⟨tx, hl, -, -⟩
    · exact hsame.trans hnew.symm
    · cases hl
    · cases hl

theorem addSection_of_accepts {n : ℕ} {tx : Transaction} {pool : TransactionPool n}
    {position : Fin n} (h : Accepts tx pool.slots position) :
    addSection tx pool = (0, insertAt position tx pool) := by
  have hfind : Fin.find? (fun i => (pool.slots i).empty) = some position :=
    Fin.find?_eq_some_iff.mpr ⟨h.empty, fun i hi => by simp [h.first i hi]⟩
  rw [addSection, hfind]
  dsimp only
  rw [if_neg]
  intro hdup
  obtain ⟨i, hi⟩ := Fin.isSome_find?_iff.mp hdup
  simp only [Bool.and_eq_true, Bool.not_eq_true', beq_iff_eq] at hi
  exact h.fresh i hi.1.2 hi.2

theorem overwritten_of_add {s t : State cfg k} {tx : Transaction}
    (hpipe : PipeFresh s)
    (hstep : step env s (.shared (.add tx)) = some t) (hopen : ¬ Shelters s (.shared (.add tx))) :
    ∃ g, ∃ r ∈ t.reserved g, (t.pool.slots r.1).transaction = tx := by
  rw [shelters_iff hpipe] at hopen
  push Not at hopen
  obtain ⟨position, hpos, g, r, hr, rfl⟩ := hopen
  cases hstep
  refine ⟨g, r, ?_, ?_⟩
  · cases g <;> exact hr
  · change (((addSection tx s.pool).2).slots r.1).transaction = tx
    rw [addSection_of_accepts hpos, insertAt_slots, Function.update_self]

-- The last part says that the condition is exact.
theorem reservation_isolated {s : State cfg k}
    (h : Reachable (step env) Shelters (initState cfg k) s) :
    (∀ g, ∀ r ∈ s.reserved g, (s.pool.slots r.1).transaction.SameRecord r.2) ∧
      (Reachable (step env) (fun s l => Shelters s l ∧ Honest s l) (initState cfg k) s →
        ∀ g, ∀ r ∈ s.reserved g, (s.pool.slots r.1).transaction = r.2) ∧
      ∀ tx t, step env s (.shared (.add tx)) = some t → ¬ Shelters s (.shared (.add tx)) →
        ∃ g, ∃ r ∈ t.reserved g, (t.pool.slots r.1).transaction = tx := by
  refine ⟨?_, fun hboth => ?_, fun tx t => overwritten_of_add (pipeFresh_of_reachable h)⟩
  · exact h.invariant_along (kept_init _)
      (fun _ _ _ hreach hs => sameRecord_step (pipeFresh_of_reachable hreach) hs)
  have hinv : HonestInvariant s ∧ Kept Eq s := by
    refine hboth.invariant_along (I := fun s => HonestInvariant s ∧ Kept Eq s)
      ⟨honestInvariant_init, kept_init _⟩ ?_
    rintro a l b hreach ⟨ha, hkept⟩ ⟨hshelters, hhonest⟩ hstep
    exact ⟨ha.step hhonest hstep, eq_step (pipeFresh_of_reachable hreach) ha hkept hshelters hstep⟩
  exact hinv.2

namespace Sample

-- The second miner has reserved slot 1 when transaction 3 comes; slot 0, in front of it, is free
-- again.
def besideReserved {spare : Fin 2} {k : ℕ} (v : Fin k) (m m' : Fin 2) :
    List (Label (config spare) k) :=
  add 1 ++ add 2 ++ reserve m ++ mineAndSend m ++ receive v 0 ++ commit v ++
    [.validator v .remove] ++ reserve m' ++ [.shared (.add (transaction 3)), .shared .age] ++
    mineAndSend m' ++ [.validator v (.receive 1 0)]

end Sample

theorem reservation_isolated_run :
    ∃ s : State (Sample.config 1) 1, (s.pool.slots 0).transaction.id = [3] ∧
      s.reserved (.validator 0) = [(1, Sample.transaction 2)] ∧
      ∀ g, ∀ r ∈ s.reserved g, (s.pool.slots r.1).transaction = r.2 := by
  have hrun : (runAllowed (step (Sample.environment 1)) (fun s l => Shelters s l ∧ Honest s l)
      (initState _ 1) (Sample.besideReserved 0 0 1)).any (fun s => decide
        ((s.pool.slots 0).transaction.id = [3] ∧
          s.reserved (.validator 0) = [(1, Sample.transaction 2)])) = true := by decide +kernel
  obtain ⟨s, hs, hend⟩ := (Option.any_eq_true ..).mp hrun
  obtain ⟨hid, hreserved⟩ := of_decide_eq_true hend
  have hboth := reachable_of_runAllowed hs
  exact ⟨s, hid, hreserved,
    (reservation_isolated (hboth.mono (fun _ _ hallow => hallow.1))).2.1 hboth⟩

theorem reservation_overwritten :
    ∃ s : State (Sample.config 1) 1,
      Reachable (step (Sample.environment 1)) Honest (initState _ 1) s ∧
        ∃ g, ∃ r ∈ s.reserved g, (s.pool.slots r.1).transaction ≠ r.2 := by
  let labels : List (Label (Sample.config 1) 1) :=
    Sample.add 1 ++ Sample.reserve 0 ++ Sample.add 2
  have hsome : (runAllowed (step (Sample.environment 1)) Honest (initState _ 1) labels).isSome =
      true := by decide +kernel
  obtain ⟨s, hrun⟩ := Option.isSome_iff_exists.mp hsome
  have hslot : (runAllowed (step (Sample.environment 1)) Honest (initState _ 1) labels).map
      (fun s => (s.reserved (.miner 0), (s.pool.slots 0).transaction)) =
        some ([(0, Sample.transaction 1)], Sample.transaction 2) := by decide +kernel
  rw [hrun, Option.map_some, Option.some_inj, Prod.mk.injEq] at hslot
  refine ⟨s, reachable_of_runAllowed hrun, .miner 0, (0, Sample.transaction 1), ?_, ?_⟩
  · rw [hslot.1]
    exact List.mem_singleton_self _
  · change (s.pool.slots 0).transaction ≠ Sample.transaction 1
    rw [hslot.2]
    decide

end DeiChain
