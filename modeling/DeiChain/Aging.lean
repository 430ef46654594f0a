import DeiChain.Flags
import DeiChain.Isolation
import DeiChain.Library.History
import DeiChain.Provenance

namespace DeiChain

open ByteLayout Transition

variable {cfg : Config} {k : ℕ} {env : Environment cfg}

inductive EntryStep (s : State cfg k) (l : Label cfg k) (i : Fin cfg.txPoolSize) :
    TransactionPoolEntry → Prop
  | flag (empty : Bool) (hnot : i ∉ inserted s l) :
      EntryStep s l i ((s.pool.slots i).setEmpty empty)
  | aged (hl : l = .shared .age) : EntryStep s l i (ageEntry (s.pool.slots i))
  | filled (tx : Transaction) (hl : l = .shared (.add tx)) (hi : i ∈ inserted s l) :
      EntryStep s l i ⟨tx, false, 0⟩
  | consumed (v : Fin k) (d : Delivery cfg) (hl : l = .validator v .remove)
      (hst : s.validators v = .removing d) (t : Transaction)
      (ht : t ∈ d.received.block.transactions ++ d.received.heapTail)
      (hid : (s.pool.slots i).transaction.id = t.id) :
      EntryStep s l i (consume (s.pool.slots i))

theorem EntryStep.same {s : State cfg k} {l : Label cfg k} {i : Fin cfg.txPoolSize}
    (hnot : i ∉ inserted s l) : EntryStep s l i (s.pool.slots i) :=
  .flag (s.pool.slots i).empty hnot

theorem entryStep_add {s : State cfg k} (tx : Transaction) (i : Fin cfg.txPoolSize) :
    EntryStep s (.shared (.add tx)) i ((s.setShared (s.toShared.add tx)).pool.slots i) := by
  change EntryStep s (.shared (.add tx)) i ((addSection tx s.pool).2.slots i)
  rcases addSection_cases tx s.pool with ⟨code, hcode, hadd⟩ | ⟨position, hpos, hadd⟩
  · rw [hadd]
    exact .same (by rw [inserted_rejected hcode hadd]; exact List.not_mem_nil)
  · have hins := inserted_accepted hpos hadd
    rw [hadd, insertAt_slots]
    by_cases hi : i = position
    · subst hi
      rw [Function.update_self]
      exact .filled tx rfl (by rw [hins]; exact List.mem_singleton_self i)
    · rw [Function.update_of_ne hi]
      exact .same (by rw [hins]; simpa using hi)

theorem MinerMove.entryStep {s : State cfg k} {m : Fin cfg.numMiners} {minerId : ℕ}
    {a : MinerAction} {sh : Shared cfg} {st : MinerState cfg}
    (h : MinerMove env minerId s.toShared a (s.miners m) sh st) (i : Fin cfg.txPoolSize) :
    EntryStep s (.miner m a) i (sh.pool.slots i) := by
  have hnot : i ∉ inserted s (.miner m a) := List.not_mem_nil
  generalize s.miners m = old at h
  cases h with
  | select _ hsel | selectShort _ hsel =>
    rw [Shared.setSlots_slots, (selects_of_section hsel).after_apply]
    split
    · exact .flag true hnot
    · exact .same hnot
  | rollback =>
    rw [Shared.setSlots_slots, release_apply]
    split
    · exact .flag false hnot
    · exact .same hnot
  | restore =>
    rw [Shared.setSlots_slots, restoreLoop]
    split
    · exact .flag false hnot
    · exact .same hnot
  | _ => exact .same hnot

theorem ValidatorMove.entryStep {s : State cfg k} {v : Fin k} {a : ValidatorAction cfg}
    {sh : Shared cfg} {st : ValidatorState cfg}
    (h : ValidatorMove env s.toShared a (s.validators v) sh st) (i : Fin cfg.txPoolSize) :
    EntryStep s (.validator v a) i (sh.pool.slots i) := by
  have hnot : i ∉ inserted s (.validator v a) := List.not_mem_nil
  generalize hst : s.validators v = old at h
  cases h with
  | reject =>
    rw [Shared.setSlots_slots, poolSection_apply]
    split
    · exact .flag false hnot
    · exact .same hnot
  | @remove d pool hpool =>
    rw [Shared.setPool_pool, ← hpool, removeTransactionsFromPool_apply]
    split
    · rename_i hfirst
      obtain ⟨t, ht, hcarrier⟩ := hfirst
      exact .consumed v d rfl hst t ht (firstCarrier_eq_some.mp hcarrier).1
    · exact .same hnot
  | restoreRefused hpool =>
    rw [Shared.setPool_pool, ← hpool, restoreRefused_apply]
    split
    · exact .flag false hnot
    · exact .same hnot
  | _ => exact .same hnot

theorem entryStep_of_step {s t : State cfg k} {l : Label cfg k} (h : step env s l = some t)
    (i : Fin cfg.txPoolSize) : EntryStep s l i (t.pool.slots i) := by
  cases l with
  | shared a =>
    obtain ⟨sh, hsh, rfl⟩ := Option.map_eq_some_iff.mp h
    cases a with
    | add tx =>
      cases hsh
      exact entryStep_add tx i
    | age =>
      cases hsh
      exact .aged rfl
    | _ =>
      cases sharedMove_of_step hsh
      exact .same List.not_mem_nil
  | miner m a =>
    obtain ⟨⟨sh, st⟩, hsh, rfl⟩ := Option.map_eq_some_iff.mp h
    exact (minerMove_of_step hsh).entryStep i
  | validator v a =>
    obtain ⟨⟨sh, st⟩, hsh, rfl⟩ := Option.map_eq_some_iff.mp h
    exact (validatorMove_of_step hsh).entryStep i

theorem received_heapTail (msg : Message cfg) (heapPtr : UInt64) :
    (msg.received heapPtr).heapTail = [] :=
  (admitFrame_block (msg.admit_received heapPtr)).2

-- What a validator removes from the pool has been appended before.
structure DeliveryInvariant (s : State cfg k) : Prop where
  whole : ∀ v d, (s.validators v).delivery = some d → d.received.heapTail = []
  spent : ∀ v d, s.validators v = .removing d →
    ∀ x ∈ d.received.block.ids, x ∈ s.ledgerIds

theorem deliveryInvariant_init : DeliveryInvariant (initState cfg k) where
  whole v d hd := by cases hd
  spent v d hd := by cases hd

theorem ledgerIds_grows {s t : State cfg k} {l : Label cfg k} (h : step env s l = some t)
    {x : List UInt8} (hx : x ∈ s.ledgerIds) : x ∈ t.ledgerIds := by
  obtain ⟨b, hb, hxb⟩ := List.mem_flatMap.mp hx
  exact List.mem_flatMap.mpr ⟨b, (committed_grows h).subset hb, hxb⟩

theorem ValidatorMove.whole {s : State cfg k} {v : Fin k} {a : ValidatorAction cfg}
    {sh : Shared cfg} {st : ValidatorState cfg} (hs : DeliveryInvariant s)
    (h : ValidatorMove env s.toShared a (s.validators v) sh st)
    (hallow : Honest s (.validator v a)) {d : Delivery cfg} (hd : st.delivery = some d) :
    d.received.heapTail = [] := by
  have hold := hs.whole v d
  generalize s.validators v = old at h hold
  cases h with
  | @receive i heapPtr msg hmsg =>
    cases hd
    exact received_heapTail msg heapPtr
  | deliver r => cases hallow
  | _ => first | exact hold hd | cases hd

theorem ValidatorMove.spent {s : State cfg k} {v : Fin k} {a : ValidatorAction cfg}
    {sh : Shared cfg} {st : ValidatorState cfg}
    (h : ValidatorMove env s.toShared a (s.validators v) sh st) {d : Delivery cfg}
    (hd : st = .removing d) {x : List UInt8} (hx : x ∈ d.received.block.ids) :
    x ∈ (s.setValidator sh v st).ledgerIds := by
  generalize s.validators v = old at h
  cases h with
  | append =>
    cases hd
    exact List.mem_flatMap.mpr ⟨_, List.mem_append_right _ (List.mem_singleton_self _), hx⟩
  | _ => cases hd

theorem DeliveryInvariant.step {s t : State cfg k} {l : Label cfg k} (h : DeliveryInvariant s)
    (hallow : Honest s l) (hstep : step env s l = some t) : DeliveryInvariant t := by
  have hgrows := fun x => ledgerIds_grows (x := x) hstep
  rcases step_cases hstep with ⟨a, sh, rfl, hmove, rfl⟩ | ⟨m, a, sh, st, rfl, hmove, rfl⟩ |
    ⟨v, a, sh, st, rfl, hmove, rfl⟩
  · exact ⟨h.whole, fun v d hd x hx => hgrows x (h.spent v d hd x hx)⟩
  · exact ⟨h.whole, fun v d hd x hx => hgrows x (h.spent v d hd x hx)⟩
  · refine ⟨fun w d hd => ?_, fun w d hd x hx => ?_⟩
    · rw [State.setValidator_validators] at hd
      rcases of_update (P := fun st => ValidatorState.delivery st = some d) hd with ⟨-, hnew⟩ | hold
      · exact hmove.whole h hallow hnew
      · exact h.whole w d hold
    · rw [State.setValidator_validators] at hd
      rcases of_update (P := (· = ValidatorState.removing d)) hd with ⟨-, hnew⟩ | hold
      · exact hmove.spent hnew hx
      · exact hgrows x (h.spent w d hold x hx)

theorem deliveryInvariant_of_reachable {s : State cfg k}
    (h : Reachable (step env) Honest (initState cfg k) s) : DeliveryInvariant s :=
  h.invariant deliveryInvariant_init (fun _ _ _ ha hallow hstep => ha.step hallow hstep)

-- What n sweeps have made of an entry filled with tx; its age is an int and wraps around.
def Aged (n : ℕ) (tx : Transaction) (e : TransactionPoolEntry) : Prop :=
  e.age = Int32.ofNat n ∧
    (n < 2 ^ 31 → e.transaction.reward = tx.reward + Int32.ofNat (n / 50))

theorem aged_new (tx : Transaction) : Aged 0 tx ⟨tx, false, 0⟩ :=
  ⟨rfl, fun _ => (Int32.add_zero tx.reward).symm⟩

theorem Aged.toInt_age {n : ℕ} {tx : Transaction} {e : TransactionPoolEntry} (h : Aged n tx e)
    (hn : n < 2 ^ 31) : e.age.toInt = n := by
  rw [h.1, toInt_ofNat_of_lt hn]

theorem Aged.reward_eq {n : ℕ} {tx : Transaction} {e : TransactionPoolEntry} (h : Aged n tx e)
    (hn : n < 2 ^ 31) : e.transaction.reward = tx.reward + e.age / 50 := by
  rw [h.2 hn, h.1, Int32.ofNat_div hn (by decide)]
  rfl

theorem Aged.ageEntry {n : ℕ} {tx : Transaction} {e : TransactionPoolEntry} (h : Aged n tx e)
    (hfull : e.empty = false) : Aged (n + 1) tx (ageEntry e) := by
  obtain ⟨hage, hreward⟩ := ageEntry_of_full hfull
  have hsucc : e.age + 1 = Int32.ofNat (n + 1) := by
    rw [h.1, Int32.ofNat_add]
    rfl
  refine ⟨hage.trans hsucc, fun hn => ?_⟩
  have hold := h.2 (by omega)
  have hmultiple : (e.age + 1) % 50 = 0 ↔ (n + 1) % 50 = 0 := by
    rw [age_multiple_iff, hsucc, toInt_ofNat_of_lt hn]
    omega
  rw [hreward, hold]
  simp only [hmultiple]
  split
  · have hraises : (n + 1) / 50 = n / 50 + 1 := by omega
    rw [hraises, Int32.ofNat_add, ← Int32.add_assoc]
    rfl
  · have hraises : (n + 1) / 50 = n / 50 := by omega
    rw [hraises]

theorem reward_toInt {reward base : Int32} {g : ℕ} (h : reward = base + Int32.ofNat g)
    (hfits : base.toInt + g < 2 ^ 31) : reward.toInt = base.toInt + g := by
  have hlow := base.le_toInt
  rw [h, Int32.toInt_add, Int32.toInt_ofNat', Int32.size, Int.add_bmod_bmod]
  exact Int.bmod_eq_of_le (by omega) (by omega)

theorem Aged.toInt {n : ℕ} {tx : Transaction} {e : TransactionPoolEntry} (h : Aged n tx e)
    (hn : n < 2 ^ 31) (hfits : tx.reward.toInt + e.age.toInt / 50 < 2 ^ 31) :
    e.transaction.reward.toInt = tx.reward.toInt + e.age.toInt / 50 := by
  rw [h.toInt_age hn] at hfits ⊢
  exact_mod_cast reward_toInt (h.2 hn) (by exact_mod_cast hfits)

abbrev Fillings (cfg : Config) := Fin cfg.txPoolSize → Option Transaction

def fillings (s : State cfg k) (l : Label cfg k) (_ : State cfg k) (f : Fillings cfg) :
    Fillings cfg :=
  match l with
  | .shared (.add tx) => fun i => if i ∈ inserted s l then some tx else f i
  | _ => f

theorem fillings_of_not_mem {s t : State cfg k} {l : Label cfg k} {i : Fin cfg.txPoolSize}
    (hnot : i ∉ inserted s l) (f : Fillings cfg) : fillings s l t f i = f i := by
  unfold fillings
  split
  · exact if_neg hnot
  · rfl

theorem fillings_of_mem {s t : State cfg k} {tx : Transaction} {i : Fin cfg.txPoolSize}
    (hi : i ∈ inserted s (.shared (.add tx))) (f : Fillings cfg) :
    fillings s (.shared (.add tx)) t f i = some tx := if_pos hi

-- The transaction a slot was filled with and the sweeps that have found it available since.
structure Stint where
  origin : Option Transaction
  sweeps : ℕ

abbrev Stints (cfg : Config) := Fin cfg.txPoolSize → Stint

def swept (s : State cfg k) (i : Fin cfg.txPoolSize) : Label cfg k → Bool
  | .shared .age => !(s.pool.slots i).empty
  | _ => false

def recordStints (s : State cfg k) (l : Label cfg k) (t : State cfg k) (h : Stints cfg) :
    Stints cfg := fun i =>
  { origin := fillings s l t (fun j => (h j).origin) i
    sweeps := if i ∈ inserted s l then 0 else (h i).sweeps + (swept s i l).toNat }

theorem recordStints_of_mem {s t : State cfg k} {tx : Transaction} {i : Fin cfg.txPoolSize}
    (hi : i ∈ inserted s (.shared (.add tx))) (h : Stints cfg) :
    recordStints s (.shared (.add tx)) t h i = ⟨some tx, 0⟩ := by
  rw [recordStints, fillings_of_mem hi, if_pos hi]

theorem recordStints_of_not_mem {s t : State cfg k} {l : Label cfg k} {i : Fin cfg.txPoolSize}
    (hnot : i ∉ inserted s l) (h : Stints cfg) :
    recordStints s l t h i = ⟨(h i).origin, (h i).sweeps + (swept s i l).toNat⟩ := by
  rw [recordStints, fillings_of_not_mem hnot, if_neg hnot]

def Traced (spent : List (List UInt8)) (e : TransactionPoolEntry) (st : Stint) : Prop :=
  match st.origin with
  | none => e.transaction = Transaction.zero
  | some tx => e.transaction.SameRecord tx ∧ (tx.id ∉ spent → Aged st.sweeps tx e)

theorem Traced.mono {spent spent' : List (List UInt8)} {e e' : TransactionPoolEntry}
    {st : Stint} (h : Traced spent e st) (hspent : spent ⊆ spent')
    (htx : e'.transaction = e.transaction) (hage : e'.age = e.age) : Traced spent' e' st := by
  obtain ⟨origin, sweeps⟩ := st
  cases origin with
  | none => exact htx.trans h
  | some tx =>
    refine ⟨htx ▸ h.1, fun hnot => ?_⟩
    rw [Aged, htx, hage]
    exact h.2 (fun hmem => hnot (hspent hmem))

theorem Traced.aged {spent : List (List UInt8)} {e : TransactionPoolEntry} {st : Stint}
    (h : Traced spent e st) (hfull : e.empty = false) (hne : e.transaction.id ≠ []) :
    Traced spent (ageEntry e) ⟨st.origin, st.sweeps + 1⟩ := by
  obtain ⟨origin, sweeps⟩ := st
  cases origin with
  | none =>
    rw [show e.transaction = Transaction.zero from h] at hne
    exact absurd rfl hne
  | some tx => exact ⟨(ageEntry_sameRecord e).trans h.1, fun hnot => (h.2 hnot).ageEntry hfull⟩

theorem Traced.consumed {spent : List (List UInt8)} {e : TransactionPoolEntry} {st : Stint}
    (h : Traced spent e st) (hid : e.transaction.id ∈ spent) : Traced spent (consume e) st := by
  obtain ⟨origin, sweeps⟩ := st
  cases origin with
  | none => exact h
  | some tx => exact ⟨h.1, fun hnot => absurd (h.1.id_eq ▸ hid) hnot⟩

theorem swept_of_ne {s : State cfg k} {i : Fin cfg.txPoolSize} {l : Label cfg k}
    (hl : l ≠ .shared .age) : swept s i l = false := by
  unfold swept
  split
  · exact absurd rfl hl
  · rfl

theorem traced_age {s t : State cfg k} {h : Stints cfg} {i : Fin cfg.txPoolSize}
    (hinv : HonestInvariant s) (htraced : Traced s.ledgerIds (s.pool.slots i) (h i))
    (hstep : step env s (.shared .age) = some t) :
    Traced t.ledgerIds (t.pool.slots i) (recordStints s (.shared .age) t h i) := by
  obtain rfl := Option.some.inj hstep
  rw [recordStints_of_not_mem List.not_mem_nil]
  change Traced s.ledgerIds (ageEntry (s.pool.slots i)) _
  cases hempty : (s.pool.slots i).empty with
  | true =>
    rw [ageEntry_of_empty hempty, swept, hempty]
    exact htraced
  | false =>
    rw [swept, hempty]
    exact htraced.aged hempty (hinv.pool.available_ne i hempty)

theorem traced_step {s t : State cfg k} {l : Label cfg k} {h : Stints cfg}
    {i : Fin cfg.txPoolSize} (hinv : HonestInvariant s) (hdel : DeliveryInvariant s)
    (htraced : Traced s.ledgerIds (s.pool.slots i) (h i)) (hstep : step env s l = some t) :
    Traced t.ledgerIds (t.pool.slots i) (recordStints s l t h i) := by
  by_cases hage : l = .shared .age
  · subst hage
    exact traced_age hinv htraced hstep
  have hgrows : s.ledgerIds ⊆ t.ledgerIds := fun x hx => ledgerIds_grows hstep hx
  have hentry := entryStep_of_step hstep i
  generalize t.pool.slots i = e at hentry ⊢
  cases hentry with
  | flag empty hnot =>
    rw [recordStints_of_not_mem hnot, swept_of_ne hage]
    exact htraced.mono hgrows rfl rfl
  | aged hl => exact absurd hl hage
  | filled tx hl hi =>
    subst hl
    rw [recordStints_of_mem hi]
    exact ⟨.refl tx, fun _ => aged_new tx⟩
  | consumed v d hl hst u hu hid =>
    subst hl
    rw [hdel.whole v d (by rw [hst]; rfl), List.append_nil] at hu
    have hspent : (s.pool.slots i).transaction.id ∈ s.ledgerIds := by
      rw [hid]
      exact hdel.spent v d hst _ (List.mem_map_of_mem hu)
    rw [recordStints_of_not_mem List.not_mem_nil]
    exact (htraced.consumed hspent).mono hgrows rfl rfl

def Unchanged (s : State cfg k) : Prop :=
  ∀ g, ∀ r ∈ s.reserved g, (s.pool.slots r.1).transaction.id = r.2.id →
    (s.pool.slots r.1).transaction = r.2

theorem unchanged_step {s t : State cfg k} {l : Label cfg k} (hinv : HonestInvariant s)
    (hs : Unchanged s) (hallow : Honest s l) (hstep : step env s l = some t) : Unchanged t := by
  intro g r hr hid
  have hentry := entryStep_of_step hstep r.1
  generalize t.pool.slots r.1 = e at hentry hid ⊢
  rcases step_reserved hstep hr with ⟨g', hold⟩ | ⟨⟨m, rfl⟩, hnew⟩
  · cases hentry with
    | flag | consumed => exact hs g' r hold hid
    | aged hl =>
      rw [ageEntry_id] at hid
      have hkept := hs g' r hold hid
      have hempty : (s.pool.slots r.1).empty = true := by
        -- A reserved transaction is not available, so aging passes it by.
        by_contra hfull
        exact hinv.sound.held_unavailable g' r.2.id (reserved_held hold)
          ⟨r.1, Bool.eq_false_iff.mpr hfull, hid⟩
      rw [ageEntry_of_empty hempty]
      exact hkept
    | filled tx hl hi =>
      subst hl
      have hissued : tx.id ∈ s.used := by
        rw [show tx.id = r.2.id from hid]
        exact hinv.sound.held_issued g' r.2.id (reserved_held hold)
      exact absurd hissued (honest_add hallow).2
  · cases hentry with
    | flag => exact hnew.symm
    | aged hl | filled _ hl | consumed _ _ hl => cases hl

theorem aging_law {s : State cfg k} {h : Stints cfg}
    (hreach : Reachable (watch (step env) recordStints) (watching Honest)
      (initState cfg k, fun _ => ⟨none, 0⟩) (s, h)) :
    (∀ i, (s.pool.slots i).transaction.id ≠ [] → ∃ tx, (h i).origin = some tx ∧
      (s.pool.slots i).transaction.SameRecord tx ∧
      (tx.id ∉ s.ledgerIds → (h i).sweeps < 2 ^ 31 →
        (s.pool.slots i).age.toInt = (h i).sweeps ∧
        (s.pool.slots i).transaction.reward = tx.reward + (s.pool.slots i).age / 50 ∧
        (tx.reward.toInt + (s.pool.slots i).age.toInt / 50 < 2 ^ 31 →
          (s.pool.slots i).transaction.reward.toInt =
            tx.reward.toInt + (s.pool.slots i).age.toInt / 50))) ∧
      ∀ g, ∀ r ∈ s.reserved g, (s.pool.slots r.1).transaction.id = r.2.id →
        (s.pool.slots r.1).transaction = r.2 := by
  have hboth : (∀ i, Traced s.ledgerIds (s.pool.slots i) (h i)) ∧ Unchanged s := by
    refine hreach.invariant_along (I := fun p : State cfg k × Stints cfg =>
      (∀ i, Traced p.1.ledgerIds (p.1.pool.slots i) (p.2 i)) ∧ Unchanged p.1)
      ⟨fun _ => rfl, fun g r hr => by cases g <;> cases hr⟩ ?_
    rintro ⟨a, ha⟩ l ⟨b, hb⟩ hprev ⟨htraced, hunchanged⟩ hallow hstep
    obtain ⟨hs, hrecord⟩ := watch_eq_some hstep
    have hinv := honestInvariant_of_reachable hprev.forget
    have hdel := deliveryInvariant_of_reachable hprev.forget
    refine ⟨fun i => ?_, unchanged_step hinv hunchanged hallow hs⟩
    rw [hrecord]
    exact traced_step hinv hdel (htraced i) hs
  refine ⟨fun i hne => ?_, hboth.2⟩
  have htraced := hboth.1 i
  unfold Traced at htraced
  split at htraced
  · exact absurd (congrArg Transaction.id htraced) hne
  · rename_i tx horigin
    refine ⟨tx, horigin, htraced.1, fun hnot hfew => ?_⟩
    have haged := htraced.2 hnot
    exact ⟨haged.toInt_age hfew, haged.reward_eq hfew, haged.toInt hfew⟩

theorem aging_law_fifty_rounds :
    ∃ (s : State (Sample.config 1) 1) (h : Stints (Sample.config 1)) (r : Reservation _),
      r ∈ s.reserved (.miner 0) ∧ (h 0).sweeps = 50 ∧ (s.pool.slots 0).age.toInt = 50 ∧
      (s.pool.slots 0).transaction.reward =
        (Sample.transaction 1).reward + (s.pool.slots 0).age / 50 ∧
      (s.pool.slots r.1).transaction = r.2 := by
  let labels : List (Label (Sample.config 1) 1) :=
    Sample.add 1 ++ List.replicate 50 (.shared .age) ++ Sample.reserve 0
  have hrun : (runAllowed (watch (step (Sample.environment 1)) recordStints) (watching Honest)
      (initState (Sample.config 1) 1, fun _ => ⟨none, 0⟩) labels).any (fun p => decide
        ((p.1.reserved (.miner 0)).map (fun r => (r.1, r.2.id)) = [(0, [1])] ∧
          (p.2 0).origin = some (Sample.transaction 1) ∧ (p.2 0).sweeps = 50 ∧
          (p.1.pool.slots 0).transaction.id = [1] ∧
          (Sample.transaction 1).id ∉ p.1.ledgerIds)) = true := by
    decide +kernel
  obtain ⟨⟨s, h⟩, hs, hend⟩ := (Option.any_eq_true ..).mp hrun
  obtain ⟨hreserved, horigin, hsweeps, hid, hnot⟩ := of_decide_eq_true hend
  obtain ⟨hlaw, hkept⟩ := aging_law (reachable_of_runAllowed hs)
  obtain ⟨⟨i, t⟩, hr, hrt⟩ := List.mem_map.mp (hreserved ▸ List.mem_singleton_self _)
  obtain ⟨rfl, ht⟩ := Prod.mk.inj hrt
  obtain ⟨tx, htx, -, hreward⟩ := hlaw 0 (by rw [hid]; exact List.cons_ne_nil _ _)
  obtain rfl : tx = Sample.transaction 1 := Option.some_inj.mp (htx.symm.trans horigin)
  have hfew : (h 0).sweeps < 2 ^ 31 := by
    rw [show (h 0).sweeps = 50 from hsweeps]
    decide
  obtain ⟨hage, hraised, -⟩ := hreward hnot hfew
  exact ⟨s, h, (0, t), hr, hsweeps, hage.trans (congrArg Nat.cast hsweeps), hraised,
    hkept _ _ hr (hid.trans ht.symm)⟩

theorem exists_swept (n : ℕ) : ∃ p : State (Sample.config 1) 1 × Stints (Sample.config 1),
    Reachable (watch (step (Sample.environment 1)) recordStints) (watching Honest)
      (initState (Sample.config 1) 1, fun _ => ⟨none, 0⟩) p ∧
    p.1.committed = [] ∧ (p.2 0).origin = some (Sample.transaction 1) ∧
    (p.1.pool.slots 0).empty = false ∧ Aged n (Sample.transaction 1) (p.1.pool.slots 0) := by
  induction n with
  | zero =>
    have hrun : (runAllowed (watch (step (Sample.environment 1)) recordStints) (watching Honest)
        (initState (Sample.config 1) 1, fun _ => ⟨none, 0⟩) (Sample.add 1)).any (fun p => decide
          (p.1.committed = [] ∧ (p.2 0).origin = some (Sample.transaction 1) ∧
            p.1.pool.slots 0 = ⟨Sample.transaction 1, false, 0⟩)) = true := by decide +kernel
    obtain ⟨p, hp, hend⟩ := (Option.any_eq_true ..).mp hrun
    obtain ⟨hcommitted, horigin, hslot⟩ := of_decide_eq_true hend
    refine ⟨p, reachable_of_runAllowed hp, hcommitted, horigin, ?_, ?_⟩
    · rw [hslot]
    · rw [hslot]
      exact aged_new _
  | succ n ih =>
    obtain ⟨⟨s, h⟩, hreach, hcommitted, horigin, hfull, haged⟩ := ih
    refine ⟨_, hreach.tail (l := .shared .age) rfl rfl, hcommitted, horigin, ?_, ?_⟩
    · exact (ageEntry_empty _).trans hfull
    · exact haged.ageEntry hfull

-- The sweep after 2 ^ 31 - 1 of them makes the age of a transaction that still waits negative.
theorem aging_law_age_wraps :
    ∃ (s : State (Sample.config 1) 1) (h : Stints (Sample.config 1)),
      Reachable (watch (step (Sample.environment 1)) recordStints) (watching Honest)
        (initState (Sample.config 1) 1, fun _ => ⟨none, 0⟩) (s, h) ∧
      s.ledgerIds = [] ∧ (h 0).origin = some (Sample.transaction 1) ∧
      (s.pool.slots 0).empty = false ∧ (s.pool.slots 0).age.toInt = -2 ^ 31 ∧
      (s.pool.slots 0).transaction.reward ≠
        (Sample.transaction 1).reward + (s.pool.slots 0).age / 50 := by
  obtain ⟨⟨s, h⟩, hreach, hcommitted, horigin, hfull, hage, hreward⟩ := exists_swept (2 ^ 31 - 1)
  obtain ⟨hage', hreward'⟩ := ageEntry_of_full hfull
  have hlast : (ageEntry (s.pool.slots 0)).age = Int32.minValue := by
    rw [hage', hage]
    decide
  have hkept : (ageEntry (s.pool.slots 0)).transaction.reward =
      (Sample.transaction 1).reward + Int32.ofNat ((2 ^ 31 - 1) / 50) := by
    rw [hreward', hage, if_neg (by decide)]
    exact hreward (by decide)
  refine ⟨_, _, hreach.tail (l := .shared .age) rfl rfl, ?_, horigin, ?_, ?_, ?_⟩
  · rw [State.ledgerIds]
    exact congrArg (List.flatMap TransactionBlock.ids) hcommitted
  · exact (ageEntry_empty _).trans hfull
  · change (ageEntry (s.pool.slots 0)).age.toInt = _
    rw [hlast]
    decide
  · change (ageEntry (s.pool.slots 0)).transaction.reward ≠ _ + (ageEntry (s.pool.slots 0)).age / 50
    rw [hkept, hlast]
    decide

end DeiChain
