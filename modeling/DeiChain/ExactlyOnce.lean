import DeiChain.Chain
import DeiChain.Library.Custody

namespace DeiChain

open ByteLayout ByteMemory Transition Custody

variable {cfg : Config} {k : ℕ} {env : Environment cfg}

inductive Holder (cfg : Config) (k : ℕ) where
  | miner (m : Fin cfg.numMiners)
  | pipe (i : ℕ)
  | validator (v : Fin k)
deriving DecidableEq

def MinerState.ids : MinerState cfg → List (List UInt8)
  | .rollback reserved => reserved.map (·.2.id)
  | .selected reserved _ _ => reserved.toList.map (·.2.id)
  | .created b => b.block.ids
  | .mined b => b.block.ids
  | .restoring reserved => reserved.toList.map (·.2.id)
  | _ => []

-- A block counts as in flight until it has been appended or turned down.
def ValidatorState.ids : ValidatorState cfg → List (List UInt8)
  | .received d => d.received.block.ids
  | .linked d _ => d.received.block.ids
  | .accepted d _ => d.received.block.ids
  | .appending d _ => d.received.block.ids
  | .full d => d.received.block.ids
  | _ => []

def pipeIds (msg : Option (Message cfg)) : List (List UInt8) :=
  (msg.map (·.mined.block.ids)).getD []

namespace State

def held (s : State cfg k) : Holder cfg k → List (List UInt8)
  | .miner m => (s.miners m).ids
  | .pipe i => pipeIds (s.pipe i)
  | .validator v => (s.validators v).ids

def ledgerIds (s : State cfg k) : List (List UInt8) := s.committed.flatMap TransactionBlock.ids

def availableIds (slots : Slots cfg.txPoolSize) : Set (List UInt8) :=
  {x | ∃ i, (slots i).empty = false ∧ (slots i).transaction.id = x}

def account (s : State cfg k) : Account (List UInt8) (Holder cfg k) where
  issued := {x | x ∈ s.used}
  available := availableIds s.pool.slots
  held := s.held
  spent := s.ledgerIds

end State

theorem MinedBlock.ids_eq (b : MinedBlock cfg) :
    b.block.ids = b.reserved.toList.map (·.2.id) := by
  rw [TransactionBlock.ids, b.transactions_eq, List.map_map]
  rfl

theorem Message.received_ids (msg : Message cfg) (heapPtr : UInt64) :
    (msg.received heapPtr).block.ids = msg.mined.block.ids := by
  rw [TransactionBlock.ids, msg.received_transactions, ← msg.mined.transactions_eq]
  rfl

theorem held_setMiner {s : State cfg k} {sh : Shared cfg} (hpipe : sh.pipe = s.pipe)
    (m : Fin cfg.numMiners) (st : MinerState cfg) :
    (s.setMiner sh m st).held =
      Function.update s.held (.miner m) st.ids := by
  funext h
  cases h with
  | miner m' =>
    by_cases hm : m' = m
    · subst hm
      simp [State.held]
    · simp [State.held, hm]
  | pipe i => simp [State.held, hpipe]
  | validator v => simp [State.held]

theorem held_setValidator {s : State cfg k} {sh : Shared cfg} (hpipe : sh.pipe = s.pipe)
    (v : Fin k) (st : ValidatorState cfg) :
    (s.setValidator sh v st).held = Function.update s.held (.validator v) st.ids := by
  funext h
  cases h with
  | miner m => simp [State.held]
  | pipe i => simp [State.held, hpipe]
  | validator v' =>
    by_cases hv : v' = v
    · subst hv
      simp [State.held]
    · simp [State.held, hv]

theorem held_push {s : State cfg k} (m : Fin cfg.numMiners) (st : MinerState cfg)
    (msg : Message cfg) :
    (s.setMiner (s.push msg) m st).held = Function.update (Function.update s.held (.miner m) st.ids)
        (.pipe s.sent) msg.mined.block.ids := by
  funext h
  cases h with
  | miner m' =>
    by_cases hm : m' = m
    · subst hm
      simp [State.held]
    · simp [State.held, hm]
  | pipe i =>
    by_cases hi : i = s.sent
    · subst hi
      simp [State.held, Shared.push, pipeIds]
    · simp [State.held, Shared.push, hi]
  | validator v => simp [State.held]

theorem held_pop {s : State cfg k} (i : ℕ) :
    (s.setShared (s.pop i)).held =
      Function.update s.held (.pipe i) [] := by
  funext h
  cases h with
  | miner m => simp [State.held]
  | pipe j =>
    by_cases hj : j = i
    · subst hj
      simp [State.held, Shared.pop, pipeIds]
    · simp [State.held, Shared.pop, hj]
  | validator v => simp [State.held]

-- Every transaction is handed in once, under an id of its own, and validators are given no
-- blocks from outside the system.
def honest (s : State cfg k) : Label cfg k → Bool
  | .shared (.add tx) => !tx.id.isEmpty && !s.used.contains tx.id
  | .validator _ (.deliver _) => false
  | _ => true

def Honest (s : State cfg k) (l : Label cfg k) : Prop := honest s l = true

instance (s : State cfg k) (l : Label cfg k) : Decidable (Honest s l) :=
  inferInstanceAs (Decidable (_ = true))

-- Ids stay in their slots after a transaction has left the pool, and restores go by id.
structure PoolInvariant (slots : Slots cfg.txPoolSize) (used : List (List UInt8)) : Prop where
  distinct : ∀ i j, (slots i).transaction.id = (slots j).transaction.id →
    (slots i).transaction.id ≠ [] → i = j
  known : ∀ i, (slots i).transaction.id ≠ [] → (slots i).transaction.id ∈ used
  available_ne : ∀ i, (slots i).empty = false → (slots i).transaction.id ≠ []

theorem PoolInvariant.preserve {slots slots' : Slots cfg.txPoolSize} {used : List (List UInt8)}
    (h : PoolInvariant slots used)
    (hids : ∀ i, (slots' i).transaction.id = (slots i).transaction.id)
    (havail : ∀ i, (slots' i).empty = false →
      (slots i).empty = false ∨ (slots i).transaction.id ≠ []) : PoolInvariant slots' used where
  distinct i j := by
    rw [hids, hids]
    exact h.distinct i j
  known i := by
    rw [hids]
    exact h.known i
  available_ne i hi := by
    rw [hids]
    exact (havail i hi).elim (h.available_ne i) id

theorem PoolInvariant.insert {slots : Slots cfg.txPoolSize} {used : List (List UInt8)}
    {tx : Transaction} (h : PoolInvariant slots used) (hne : tx.id ≠ []) (hnew : tx.id ∉ used)
    (position : Fin cfg.txPoolSize) :
    PoolInvariant (Function.update slots position ⟨tx, false, 0⟩) (tx.id :: used) := by
  have hother : ∀ i, (slots i).transaction.id ≠ tx.id := by
    intro i heq
    exact hnew (heq ▸ h.known i (heq ▸ hne))
  have hat : ∀ i, (i = position ∧ Function.update slots position ⟨tx, false, 0⟩ i =
      ⟨tx, false, 0⟩) ∨ (i ≠ position ∧
        Function.update slots position ⟨tx, false, 0⟩ i = slots i) := by
    intro i
    by_cases hi : i = position
    · exact .inl ⟨hi, by rw [hi, Function.update_self]⟩
    · exact .inr ⟨hi, Function.update_of_ne hi _ _⟩
  refine ⟨?_, ?_, ?_⟩
  · intro i j
    rcases hat i with ⟨hi, hi'⟩ | ⟨-, hi'⟩ <;> rcases hat j with ⟨hj, hj'⟩ | ⟨-, hj'⟩ <;>
      rw [hi', hj']
    · exact fun _ _ => hi.trans hj.symm
    · exact fun heq _ => absurd heq.symm (hother j)
    · exact fun heq _ => absurd heq (hother i)
    · exact h.distinct i j
  · intro i
    rcases hat i with ⟨-, hi'⟩ | ⟨-, hi'⟩ <;> rw [hi']
    · exact fun _ => List.mem_cons_self
    · exact fun hi => List.mem_cons_of_mem _ (h.known i hi)
  · intro i
    rcases hat i with ⟨-, hi'⟩ | ⟨-, hi'⟩ <;> rw [hi']
    · exact fun _ => hne
    · exact h.available_ne i

structure HonestInvariant (s : State cfg k) : Prop where
  pool : PoolInvariant s.pool.slots s.used
  used_ne : ∀ x ∈ s.used, x ≠ []
  noRollback : ∀ m reserved, s.miners m ≠ .rollback reserved
  sound : Sound s.account

theorem honestInvariant_init : HonestInvariant (initState cfg k) where
  pool := by
    constructor
    · intro i j _ hne
      exact absurd rfl hne
    · intro i hne
      exact absurd rfl hne
    · intro i hi
      cases hi
  used_ne := by simp [initState]
  noRollback := by simp [initState]
  sound := by
    refine sound_of_empty ?_ (fun h => by cases h <;> rfl) rfl
    rintro x ⟨i, hi, -⟩
    cases hi

theorem HonestInvariant.keep {s t : State cfg k} (h : HonestInvariant s) (hused : t.used = s.used)
    (hcommitted : t.committed = s.committed) (hheld : t.held = s.held)
    (hroll : ∀ m reserved, t.miners m ≠ .rollback reserved)
    (hids : ∀ i, (t.pool.slots i).transaction.id = (s.pool.slots i).transaction.id)
    (havail : ∀ i, (t.pool.slots i).empty = false → (s.pool.slots i).empty = false) :
    HonestInvariant t where
  pool := hused ▸ h.pool.preserve hids (fun i hi => .inl (havail i hi))
  used_ne := hused ▸ h.used_ne
  noRollback := hroll
  sound := by
    refine Move.sound (a := s.account) (.keep ?_ ?_ hheld ?_) h.sound
    · exact congrArg (fun used => {x | x ∈ used}) hused
    · rintro x ⟨i, hi, hx⟩
      exact ⟨i, havail i hi, (hids i).symm.trans hx⟩
    · exact congrArg (List.flatMap TransactionBlock.ids) hcommitted

theorem HonestInvariant.release {s t : State cfg k} (h : HonestInvariant s) (g : Holder cfg k)
    (hused : t.used = s.used) (hcommitted : t.committed = s.committed)
    (hheld : t.held = Function.update s.held g [])
    (hroll : ∀ m reserved, t.miners m ≠ .rollback reserved)
    (hids : ∀ i, (t.pool.slots i).transaction.id = (s.pool.slots i).transaction.id)
    (havail : ∀ i, (t.pool.slots i).empty = false →
      (s.pool.slots i).empty = false ∨ (s.pool.slots i).transaction.id ∈ s.held g) :
    HonestInvariant t where
  pool := hused ▸ h.pool.preserve hids (fun i hi => (havail i hi).imp_right
    (fun hmem => h.used_ne _ (h.sound.held_issued g _ hmem)))
  used_ne := hused ▸ h.used_ne
  noRollback := hroll
  sound := by
    refine Move.sound (a := s.account) (.release g ?_ ?_ hheld ?_) h.sound
    · exact congrArg (fun used => {x | x ∈ used}) hused
    · rintro x ⟨i, hi, rfl⟩
      rw [hids]
      exact (havail i hi).imp_left (fun hold => ⟨i, hold, rfl⟩)
    · exact congrArg (List.flatMap TransactionBlock.ids) hcommitted

theorem honest_add {s : State cfg k} {tx : Transaction} (h : Honest s (.shared (.add tx))) :
    tx.id ≠ [] ∧ tx.id ∉ s.used := by
  simpa [Honest, honest] using h

theorem HonestInvariant.issue {s t : State cfg k} {tx : Transaction} (h : HonestInvariant s)
    (hnew : tx.id ≠ [] ∧ tx.id ∉ s.used) (hused : t.used = tx.id :: s.used)
    (hcommitted : t.committed = s.committed) (hheld : t.held = s.held)
    (hminers : t.miners = s.miners)
    (hslots : t.pool.slots = s.pool.slots ∨
      ∃ position, t.pool.slots = Function.update s.pool.slots position ⟨tx, false, 0⟩) :
    HonestInvariant t where
  pool := by
    rw [hused]
    rcases hslots with hsame | ⟨position, hslots⟩
    · rw [hsame]
      exact ⟨h.pool.distinct, fun i hi => List.mem_cons_of_mem _ (h.pool.known i hi),
        h.pool.available_ne⟩
    · rw [hslots]
      exact h.pool.insert hnew.1 hnew.2 position
  used_ne := by
    rw [hused]
    exact List.forall_mem_cons.mpr ⟨hnew.1, h.used_ne⟩
  noRollback := hminers ▸ h.noRollback
  sound := by
    refine Move.sound (a := s.account) (.issue tx.id hnew.2 ?_ ?_ hheld ?_) h.sound
    · ext x
      simp [State.account, hused]
    · rintro x ⟨i, hi, rfl⟩
      rcases hslots with hsame | ⟨position, hslots⟩
      · rw [hsame] at hi ⊢
        exact .inr ⟨i, hi, rfl⟩
      · rw [hslots] at hi ⊢
        by_cases hp : i = position
        · rw [hp, Function.update_self]
          exact .inl rfl
        · rw [Function.update_of_ne hp] at hi ⊢
          exact .inr ⟨i, hi, rfl⟩
    · exact congrArg (List.flatMap TransactionBlock.ids) hcommitted

theorem HonestInvariant.shared {s : State cfg k} (h : HonestInvariant s) {a : SharedAction}
    {sh : Shared cfg} (hmove : SharedMove s.toShared a sh)
    (hallow : Honest s (.shared a)) : HonestInvariant (s.setShared sh) := by
  cases hmove with
  | add tx hpos hpool =>
    exact h.issue (honest_add hallow) rfl rfl rfl rfl (.inr ⟨_,
      (congrArg TransactionPool.slots hpool.symm).trans (insertAt_slots _ _ _)⟩)
  | addFails tx => exact h.issue (honest_add hallow) rfl rfl rfl rfl (.inl rfl)
  | lose i =>
    exact h.release (.pipe i) rfl rfl (held_pop i) h.noRollback (fun _ => rfl)
      (fun _ hi => .inl hi)
  | age =>
    exact h.keep rfl rfl rfl h.noRollback (fun i => ageEntry_id _)
      (fun i hi => (ageEntry_empty _).symm.trans hi)
  | _ => exact h.keep rfl rfl rfl h.noRollback (fun _ => rfl) (fun _ hi => hi)

theorem noRollback_update {s : State cfg k} (h : HonestInvariant s) {m : Fin cfg.numMiners}
    {st : MinerState cfg} (hst : ∀ reserved, st ≠ .rollback reserved) :
    ∀ m' reserved, Function.update s.miners m st m' ≠ .rollback reserved := by
  intro m' reserved
  by_cases hm : m' = m
  · rw [hm, Function.update_self]
    exact hst reserved
  · rw [Function.update_of_ne hm]
    exact h.noRollback m' reserved

theorem select_available {slots after : Slots cfg.txPoolSize} {used : List (List UInt8)}
    {reserved : List (Reservation cfg.txPoolSize)} (h : PoolInvariant slots used)
    (hsel : Selects (List.finRange _) slots [] reserved after) (i : Fin cfg.txPoolSize)
    (hi : (after i).empty = false) :
    (slots i).empty = false ∧ (after i).transaction = (slots i).transaction ∧
      (slots i).transaction.id ∉ reserved.map (·.2.id) := by
  have hafter := hsel.after_apply i
  by_cases hmem : i ∈ reserved.map Prod.fst
  · rw [if_pos hmem] at hafter
    rw [hafter] at hi
    cases hi
  · rw [if_neg hmem] at hafter
    rw [hafter] at hi ⊢
    refine ⟨hi, rfl, fun hid => hmem ?_⟩
    obtain ⟨r, hr, heq⟩ := List.mem_map.mp hid
    obtain ⟨-, -, htx⟩ := hsel.taken r hr
    have hsame : (slots i).transaction.id = (slots r.1).transaction.id := by rw [← htx, heq]
    have hpos : i = r.1 := h.distinct i r.1 hsame (h.available_ne i hi)
    exact hpos ▸ List.mem_map_of_mem hr

theorem select_full {slots after : Slots cfg.txPoolSize} {used : List (List UInt8)} {count : ℕ}
    {reserved : List (Reservation cfg.txPoolSize)} (h : PoolInvariant slots used)
    (hroom : count ≤ available slots)
    (hsel : selectLoop count (List.finRange _) slots [] = (after, reserved)) :
    reserved.length = count := by
  have hle : reserved.length ≤ count := by
    have hlength := selectLoop_length_le (List.finRange _) slots [] (Nat.zero_le count)
    rwa [hsel] at hlength
  by_contra hne
  have hall := selectLoop_exhausts count slots [] (List.nodup_finRange _)
    (fun i _ j _ hi _ heq => h.distinct i j heq (h.available_ne i hi)) (by simp)
    (by rw [hsel]; exact lt_of_le_of_ne hle hne)
  rw [hsel] at hall
  have hsub : availableSlots slots ⊆ (reserved.map Prod.fst).toFinset := by
    intro i hi
    rw [List.mem_toFinset]
    exact hall i (List.mem_finRange i) (mem_availableSlots.mp hi)
  have hcard := (Finset.card_le_card hsub).trans (List.toFinset_card_le _)
  rw [List.length_map] at hcard
  change available slots ≤ _ at hcard
  omega

theorem held_setMiner_same {s : State cfg k} {sh : Shared cfg} (hpipe : sh.pipe = s.pipe)
    {m : Fin cfg.numMiners} {st : MinerState cfg} (hids : st.ids = (s.miners m).ids) :
    (s.setMiner sh m st).held =
      s.held := by
  rw [held_setMiner hpipe, hids]
  exact Function.update_eq_self (.miner m) s.held

theorem HonestInvariant.take {s : State cfg k} (h : HonestInvariant s) {m : Fin cfg.numMiners}
    {slots : Slots cfg.txPoolSize} {previousHash : Chars hashSize} {blockId : ℤ}
    {reserved : List.Vector (Reservation cfg.txPoolSize) cfg.transactionsPerBlock}
    (hsel : Selects (List.finRange _) s.pool.slots [] reserved.toList slots) :
    HonestInvariant
      (s.setMiner (s.setSlots slots) m (.selected reserved previousHash blockId)) where
  pool := by
    refine h.pool.preserve ?_ (fun i hi => .inl (select_available h.pool hsel i hi).1)
    intro i
    change (slots i).transaction.id = _
    rw [hsel.after_apply]
    split <;> rfl
  used_ne := h.used_ne
  noRollback := noRollback_update h (fun _ heq => by cases heq)
  sound := by
    have hheld : (s.setMiner (s.setSlots slots) m
        (.selected reserved previousHash blockId)).held =
          Function.update s.held (.miner m) (reserved.toList.map (·.2.id)) := held_setMiner rfl m _
    refine Move.sound (a := s.account) (.take (.miner m) _ ?_ ?_ rfl ?_ hheld rfl) h.sound
    · intro x hx
      obtain ⟨r, hr, rfl⟩ := List.mem_map.mp hx
      obtain ⟨-, hempty, htx⟩ := hsel.taken r hr
      exact ⟨r.1, hempty, by rw [htx]⟩
    · simpa using hsel.ids
    · rintro x ⟨i, hi, rfl⟩
      obtain ⟨hold, htx, hnot⟩ := select_available h.pool hsel i hi
      change (slots i).transaction.id ∈ _ ∧ (slots i).transaction.id ∉ _
      rw [htx]
      exact ⟨⟨i, hold, rfl⟩, hnot⟩

theorem HonestInvariant.send {s : State cfg k} (h : HonestInvariant s) {m : Fin cfg.numMiners}
    {b : MinedBlock cfg} {minerId : Int32} (hst : s.miners m = .mined b) :
    HonestInvariant (s.setMiner (s.push ⟨minerId, b⟩) m .waiting) where
  pool := h.pool
  used_ne := h.used_ne
  noRollback := noRollback_update h (fun _ heq => by cases heq)
  sound := by
    refine Move.sound (a := s.account) (.pass (.miner m) (.pipe s.sent) rfl subset_rfl ?_ rfl)
      h.sound
    have hids : s.account.held (.miner m) = b.block.ids := congrArg MinerState.ids hst
    rw [hids]
    exact held_push m .waiting ⟨minerId, b⟩

theorem HonestInvariant.advance {s : State cfg k} (h : HonestInvariant s) {m : Fin cfg.numMiners}
    {st : MinerState cfg} (hst : ∀ reserved, st ≠ .rollback reserved)
    (hids : st.ids = (s.miners m).ids) : HonestInvariant (s.setMiner s.toShared m st) :=
  h.keep rfl rfl (held_setMiner_same rfl hids) (noRollback_update h hst) (fun _ => rfl)
    (fun _ hi => hi)

theorem HonestInvariant.miner {s : State cfg k} (h : HonestInvariant s) {m : Fin cfg.numMiners}
    {a : MinerAction} {sh : Shared cfg} {st : MinerState cfg}
    (hmove : MinerMove env (m + 1) s.toShared a (s.miners m) sh st) :
    HonestInvariant (s.setMiner sh m st) := by
  generalize hst : s.miners m = old at hmove
  cases hmove with
  | select hroom hsel => exact h.take (selects_of_section hsel)
  | selectShort hroom hsel hshort => exact absurd (select_full h.pool hroom hsel) hshort
  | rollback => exact absurd hst (h.noRollback m _)
  | send => exact h.send hst
  | restore =>
    refine h.release (.miner m) rfl rfl (held_setMiner rfl m _)
      (noRollback_update h (fun _ heq => by cases heq)) ?_ ?_
    · intro i
      change (restoreLoop _ s.pool.slots i).transaction.id = _
      unfold restoreLoop
      split <;> rfl
    · intro i hi
      change (restoreLoop _ s.pool.slots i).empty = false at hi
      unfold restoreLoop at hi
      split at hi
      · rename_i hcarried
        obtain ⟨t, ht, hid⟩ := hcarried
        obtain ⟨r, hr, rfl⟩ := List.mem_map.mp ht
        refine .inr ?_
        change _ ∈ (s.miners m).ids
        rw [hst, hid]
        exact List.mem_map_of_mem hr
      · exact .inl hi
  | create clock =>
    exact h.advance (fun _ heq => by cases heq) (by rw [hst]; exact MinedBlock.ids_eq _)
  | mine hmine =>
    refine h.advance (fun _ heq => by cases heq) ?_
    rw [hst]
    simp only [MinerState.ids]
    rw [MinedBlock.ids_eq, MinedBlock.ids_eq, MinedBlock.mine_reserved hmine]
  | mineFails =>
    exact h.advance (fun _ heq => by cases heq) (by rw [hst]; exact (MinedBlock.ids_eq _).symm)
  | sendFails =>
    exact h.advance (fun _ heq => by cases heq) (by rw [hst]; exact (MinedBlock.ids_eq _).symm)
  | checkFails => exact h.advance (fun _ heq => by cases heq) (by rw [hst]; rfl)
  | createFails => exact h.advance (fun _ heq => by cases heq) (by rw [hst]; rfl)
  | _ =>
    exact h.release (.miner m) rfl rfl (held_setMiner rfl m _)
      (noRollback_update h (fun _ heq => by cases heq)) (fun _ => rfl) (fun _ hi => .inl hi)

theorem held_receive {s : State cfg k} {i : ℕ} {heapPtr : UInt64} {msg : Message cfg} (v : Fin k)
    (hmsg : s.pipe i = some msg) :
    (s.setValidator (s.pop i) v (.received (msg.delivery heapPtr))).held =
      Function.update (Function.update s.held (.pipe i) []) (.validator v) (s.held (.pipe i)) := by
  have hids : s.held (.pipe i) = (msg.received heapPtr).block.ids := by
    rw [msg.received_ids]
    exact congrArg pipeIds hmsg
  funext h
  cases h with
  | miner m => simp [State.held]
  | pipe j =>
    by_cases hj : j = i
    · subst hj
      simp [State.held, Shared.pop, pipeIds]
    · simp [State.held, Shared.pop, hj]
  | validator v' =>
    by_cases hv : v' = v
    · subst hv
      rw [hids]
      simp [State.held, ValidatorState.ids, Message.delivery]
    · simp [State.held, hv]

theorem held_setValidator_same {s : State cfg k} {sh : Shared cfg} (hpipe : sh.pipe = s.pipe)
    {v : Fin k} {st : ValidatorState cfg} (hids : st.ids = (s.validators v).ids) :
    (s.setValidator sh v st).held = s.held := by
  rw [held_setValidator hpipe, hids]
  exact Function.update_eq_self (.validator v) s.held

theorem HonestInvariant.commit {s : State cfg k} (h : HonestInvariant s) {v : Fin k}
    {d : Delivery cfg} {tip : ℕ} (hst : s.validators v = .appending d tip) :
    HonestInvariant (s.setValidator (s.append env.att d.received) v (.removing d)) where
  pool := h.pool
  used_ne := h.used_ne
  noRollback := h.noRollback
  sound := by
    refine Move.sound (a := s.account) (.spend (.validator v) rfl subset_rfl
      (held_setValidator rfl v _) ?_) h.sound
    have hids : s.account.held (.validator v) = d.received.block.ids :=
      congrArg ValidatorState.ids hst
    rw [hids]
    exact (List.flatMap_append).trans (congrArg _ (List.flatMap_singleton _ _))

theorem HonestInvariant.validator {s : State cfg k} (h : HonestInvariant s) {v : Fin k}
    {a : ValidatorAction cfg} {sh : Shared cfg} {st : ValidatorState cfg}
    (hmove : ValidatorMove env s.toShared a (s.validators v) sh st)
    (hallow : Honest s (.validator v a)) : HonestInvariant (s.setValidator sh v st) := by
  generalize hst : s.validators v = old at hmove
  cases hmove with
  | receive hmsg =>
    refine ⟨h.pool, h.used_ne, h.noRollback, ?_⟩
    exact Move.sound (a := s.account) (.pass (.pipe _) (.validator v) rfl subset_rfl
      (held_receive v hmsg) rfl) h.sound
  | deliver r => cases hallow
  | append => exact h.commit hst
  | reject hall =>
    refine h.release (.validator v) rfl rfl (held_setValidator rfl v _) h.noRollback
      (fun i => congrArg Transaction.id (poolSection_transaction _ _ i)) ?_
    intro i hi
    change ((poolSection _ s.pool.slots).2 i).empty = false at hi
    rw [poolSection_apply] at hi
    split at hi
    · rename_i hfound
      obtain ⟨-, t, ht, hcarrier⟩ := hfound
      refine .inr ?_
      change _ ∈ (s.validators v).ids
      rw [hst, (firstCarrier_eq_some.mp hcarrier).1]
      exact List.mem_map_of_mem (List.takeWhile_subset _ ht)
    · exact .inl hi
  | remove hpool =>
    refine h.release (.validator v) rfl rfl (held_setValidator rfl v _) h.noRollback
      (fun i => ?_) (fun i hi => ?_)
    · rw [State.setValidator_toShared, Shared.setPool_pool, ← hpool,
        removeTransactionsFromPool_transaction]
    · rw [State.setValidator_toShared, Shared.setPool_pool, ← hpool,
        removeTransactionsFromPool_apply] at hi
      split at hi
      · cases hi
      · exact .inl hi
  | restoreRefused hpool =>
    refine h.release (.validator v) rfl rfl (held_setValidator rfl v _) h.noRollback
      (fun i => ?_) (fun i hi => ?_)
    · rw [State.setValidator_toShared, Shared.setPool_pool, ← hpool, restoreRefused_transaction]
    · rw [State.setValidator_toShared, Shared.setPool_pool, ← hpool, restoreRefused_apply] at hi
      split at hi
      · rename_i hcarried
        obtain ⟨t, ht, hcarrier⟩ := hcarried
        refine .inr ?_
        change _ ∈ (s.validators v).ids
        rw [hst, (firstCarrier_eq_some.mp hcarrier).1]
        exact List.mem_map_of_mem ht
      · exact .inl hi
  | linkFails =>
    exact h.release (.validator v) rfl rfl (held_setValidator rfl v _) h.noRollback
      (fun _ => rfl) (fun _ hi => .inl hi)
  | checkPoolFails =>
    exact h.release (.validator v) rfl rfl (held_setValidator rfl v _) h.noRollback
      (fun _ => rfl) (fun _ hi => .inl hi)
  | _ =>
    exact h.keep rfl rfl (held_setValidator_same rfl (by rw [hst]; rfl)) h.noRollback
      (fun _ => rfl) (fun _ hi => hi)

theorem HonestInvariant.step {s t : State cfg k} {l : Label cfg k} (h : HonestInvariant s)
    (hallow : Honest s l) (hstep : step env s l = some t) : HonestInvariant t := by
  rcases step_cases hstep with ⟨a, sh, rfl, hmove, rfl⟩ | ⟨m, a, sh, st, rfl, hmove, rfl⟩ |
    ⟨v, a, sh, st, rfl, hmove, rfl⟩
  · exact h.shared hmove hallow
  · exact h.miner hmove
  · exact h.validator hmove hallow

theorem honestInvariant_of_reachable {s : State cfg k}
    (h : Reachable (step env) Honest (initState cfg k) s) : HonestInvariant s :=
  h.invariant honestInvariant_init (fun _ _ _ hs hallow hstep => hs.step hallow hstep)

theorem exactly_once {s : State cfg k}
    (h : Reachable (step env) Honest (initState cfg k) s) :
    (Reachable (step env) (fun a l => Honest a l ∧ Spacious a l) (initState cfg k) s →
      ((ledgerBlocks env.att s.ledger).flatMap TransactionBlock.ids).Nodup) ∧
      s.ledgerIds.Nodup ∧ (∀ g, (s.held g).Nodup) ∧
      ∀ g g', g ≠ g' → (s.held g).Disjoint (s.held g') := by
  have hsound := (honestInvariant_of_reachable h).sound
  refine ⟨fun hroom => ?_, hsound.spent_nodup, hsound.held_nodup, hsound.held_disjoint⟩
  rw [(represents_of_spacious (fun _ _ hallow => hallow.2) hroom).ledgerBlocks_eq]
  exact hsound.spent_nodup

namespace Sample

variable {spare : Fin 2}

def add {k : ℕ} (c : UInt8) : List (Label (config spare) k) :=
  [.shared (.add (transaction c)), .shared .post]

def reserve {k : ℕ} (m : Fin 2) : List (Label (config spare) k) :=
  [.miner m .wait, .miner m .snapshot, .miner m .select]

def mineAndSend {k : ℕ} (m : Fin 2) : List (Label (config spare) k) :=
  [.miner m (.create 0), .miner m (.mine 0), .miner m .send]

def receive {k : ℕ} (v : Fin k) (i : ℕ) : List (Label (config spare) k) :=
  [.validator v (.receive i 0), .validator v .checkLink, .validator v .checkPool]

end Sample

-- Two validators commit a block each, a second miner's block beside the first one's.
theorem exactly_once_honest_run :
    ∃ s : State (Sample.config 1) 2, s.ledgerIds = [[1], [2]] ∧ s.held (.miner 0) = [[3]] ∧
      ((ledgerBlocks (Sample.environment 1).att s.ledger).flatMap TransactionBlock.ids).Nodup ∧
      ∀ g g', g ≠ g' → (s.held g).Disjoint (s.held g') := by
  let labels : List (Label (Sample.config 1) 2) :=
    Sample.add 1 ++ Sample.add 2 ++ Sample.reserve 0 ++ Sample.mineAndSend 0 ++
      Sample.reserve 1 ++ Sample.mineAndSend 1 ++ Sample.receive 0 0 ++ Sample.receive 1 1 ++
      Sample.commit 0 ++ Sample.commit 1 ++ [.validator 0 .remove] ++ Sample.add 3 ++
      Sample.reserve 0
  have hrun : (runAllowed (step (Sample.environment 1)) (fun a l => Honest a l ∧ Spacious a l)
      (initState _ 2) labels).any (fun s => decide
        (s.ledgerIds = [[1], [2]] ∧ s.held (.miner 0) = [[3]])) = true := by decide +kernel
  obtain ⟨s, hs, hend⟩ := (Option.any_eq_true ..).mp hrun
  obtain ⟨hledger, hheld⟩ := of_decide_eq_true hend
  have hreach := reachable_of_runAllowed hs
  obtain ⟨hsegment, -, -, hdisjoint⟩ := exactly_once (hreach.mono (fun _ _ hallow => hallow.1))
  exact ⟨s, hledger, hheld, hsegment hreach, hdisjoint⟩

namespace Sample

def overrunConfig : Config := ⟨2, 10, 5, 1, by decide, by decide⟩

def overrunEnvironment : Environment overrunConfig :=
  ⟨fun _ => List.Vector.replicate 32 0, ⟨0, by decide⟩⟩

-- Two miners mine five transactions each; both blocks pass the capacity test of the empty ledger.
def overrun : List (Label overrunConfig 2) :=
  (List.range 10).flatMap (fun i =>
      [.shared (.add (transaction (UInt8.ofNat (97 + i)))), .shared .post]) ++
    (List.finRange 2).flatMap (fun m => [.miner m .wait, .miner m .snapshot,
      .miner m .select, .miner m (.create 0), .miner m (.mine 0), .miner m .send]) ++
    (List.finRange 2).flatMap (fun v => [.validator v (.receive v 0),
      .validator v .checkLink, .validator v .checkPool, .validator v .testCapacity]) ++
    (List.finRange 2).map (fun v => .validator v .append)

end Sample

-- The second entry lies on the transactions of the first: two of their ids now read as empty.
theorem exactly_once_overrun :
    ∃ s : State Sample.overrunConfig 2,
      Reachable (step Sample.overrunEnvironment) Honest (initState _ 2) s ∧
        ¬((ledgerBlocks Sample.overrunEnvironment.att s.ledger).flatMap
          TransactionBlock.ids).Nodup := by
  have hrun : (runAllowed (step Sample.overrunEnvironment) Honest (initState _ 2)
      Sample.overrun).any (fun s => decide (((ledgerBlocks Sample.overrunEnvironment.att
        s.ledger).flatMap TransactionBlock.ids).count [] = 2)) = true := by
    decide +kernel
  obtain ⟨s, hs, hend⟩ := (Option.any_eq_true ..).mp hrun
  refine ⟨s, reachable_of_runAllowed hs, fun hnodup => ?_⟩
  have hle := List.nodup_iff_count_le_one.mp hnodup []
  rw [of_decide_eq_true hend] at hle
  exact absurd hle (by decide)

end DeiChain
