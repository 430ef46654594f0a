import DeiChain.Aging

namespace DeiChain

open ByteLayout Transition

variable {cfg : Config} {k : ℕ} {env : Environment cfg}

-- The transactions handed in so far and the number of sweeps of age_transaction_pool.
structure Handed where
  transactions : List Transaction
  sweeps : ℕ

def recordHanded (_ : State cfg k) (l : Label cfg k) (_ : State cfg k) (h : Handed) : Handed :=
  match l with
  | .shared (.add tx) => { h with transactions := tx :: h.transactions }
  | .shared .age => { h with sweeps := h.sweeps + 1 }
  | _ => h

-- A copy of a transaction that was handed in, its reward raised once for fifty sweeps at most.
def CopyOf (h : Handed) (t : Transaction) : Prop :=
  ∃ tx ∈ h.transactions, t.SameRecord tx ∧
    ∃ raises : ℕ, 50 * raises ≤ h.sweeps ∧ t.reward = tx.reward + Int32.ofNat raises

-- An entry owes the sweeps since its reward was last raised as well.
def EntryOf (h : Handed) (e : TransactionPoolEntry) : Prop :=
  ∃ tx ∈ h.transactions, e.transaction.SameRecord tx ∧ ∃ raises : ℕ,
    50 * raises + e.age.toInt % 50 ≤ h.sweeps ∧
      e.transaction.reward = tx.reward + Int32.ofNat raises

variable {h h' : Handed}

theorem CopyOf.mono {t : Transaction} (ht : CopyOf h t)
    (hsub : h.transactions ⊆ h'.transactions) (hle : h.sweeps ≤ h'.sweeps) : CopyOf h' t := by
  obtain ⟨tx, htx, hsame, raises, hraises, hreward⟩ := ht
  exact ⟨tx, hsub htx, hsame, raises, hraises.trans hle, hreward⟩

namespace EntryOf

variable {e : TransactionPoolEntry}

theorem mono (he : EntryOf h e) (hsub : h.transactions ⊆ h'.transactions)
    (hle : h.sweeps ≤ h'.sweeps) : EntryOf h' e := by
  obtain ⟨tx, htx, hsame, raises, hraises, hreward⟩ := he
  exact ⟨tx, hsub htx, hsame, raises, hraises.trans (by exact_mod_cast hle), hreward⟩

theorem copy (he : EntryOf h e) : CopyOf h e.transaction := by
  obtain ⟨tx, htx, hsame, raises, hraises, hreward⟩ := he
  exact ⟨tx, htx, hsame, raises, by omega, hreward⟩

theorem new {tx : Transaction} (htx : tx ∈ h.transactions) : EntryOf h ⟨tx, false, 0⟩ :=
  ⟨tx, htx, .refl tx, 0, Int.natCast_nonneg _, (Int32.add_zero _).symm⟩

theorem consumed (he : EntryOf h e) : EntryOf h (consume e) := by
  obtain ⟨tx, htx, hsame, raises, hraises, hreward⟩ := he
  refine ⟨tx, htx, hsame, raises, ?_, hreward⟩
  change 50 * (raises : ℤ) + 0 % 50 ≤ h.sweeps
  omega

theorem aged (he : EntryOf h e) : EntryOf { h with sweeps := h.sweeps + 1 } (ageEntry e) := by
  obtain ⟨tx, htx, hsame, raises, hraises, hreward⟩ := he
  have hrecord := (ageEntry_sameRecord e).trans hsame
  cases hempty : e.empty with
  | true =>
    rw [ageEntry_of_empty hempty]
    exact ⟨tx, htx, hsame, raises, hraises.trans (by exact_mod_cast Nat.le_succ _), hreward⟩
  | false =>
    obtain ⟨hage, hraise⟩ := ageEntry_of_full hempty
    have hsucc := toInt_age_succ e.age
    by_cases hfifty : (e.age + 1) % 50 = 0
    · -- The fiftieth sweep since the last raise pays for this one.
      have hmultiple := (age_multiple_iff _).mp hfifty
      refine ⟨tx, htx, hrecord, raises + 1, ?_, ?_⟩
      · rw [hage, hmultiple]
        split at hsucc <;> push_cast <;> omega
      · rw [hraise, if_pos hfifty, hreward, Int32.ofNat_add, ← Int32.add_assoc]
        rfl
    · have hmultiple := mt (age_multiple_iff _).mpr hfifty
      refine ⟨tx, htx, hrecord, raises, ?_, ?_⟩
      · rw [hage]
        push_cast
        split at hsucc <;> omega
      · rw [hraise, if_neg hfifty, hreward]

end EntryOf

theorem subset_recordHanded (s : State cfg k) (l : Label cfg k) (t : State cfg k) (h : Handed) :
    h.transactions ⊆ (recordHanded s l t h).transactions ∧
      h.sweeps ≤ (recordHanded s l t h).sweeps := by
  unfold recordHanded
  split
  · exact ⟨List.subset_cons_self _ _, Nat.le_refl _⟩
  · exact ⟨List.Subset.refl _, Nat.le_succ _⟩
  · exact ⟨List.Subset.refl _, Nat.le_refl _⟩

-- Slots, reservations, blocks in hand and committed blocks: everywhere a record is kept.
structure CopiesOf (s : State cfg k) (h : Handed) : Prop where
  slots : ∀ i, (s.pool.slots i).transaction.id ≠ [] → EntryOf h (s.pool.slots i)
  reserved : ∀ g, ∀ r ∈ s.reserved g, CopyOf h r.2
  carried : ∀ g p, s.carried g = some p → ∀ t ∈ p.2.transactions, CopyOf h t
  committed : ∀ b ∈ s.committed, ∀ t ∈ b.transactions, CopyOf h t

theorem copiesOf_init : CopiesOf (initState cfg k) ⟨[], 0⟩ where
  slots i hne := absurd rfl hne
  reserved g r hr := by cases g <;> cases hr
  carried g p hp := by cases g <;> cases hp
  committed b hb := by cases hb

theorem slots_step {s t : State cfg k} {l : Label cfg k} {i : Fin cfg.txPoolSize}
    (hs : (s.pool.slots i).transaction.id ≠ [] → EntryOf h (s.pool.slots i))
    (hstep : step env s l = some t) (hne : (t.pool.slots i).transaction.id ≠ []) :
    EntryOf (recordHanded s l t h) (t.pool.slots i) := by
  obtain ⟨hsub, hle⟩ := subset_recordHanded s l t h
  have hentry := entryStep_of_step hstep i
  generalize t.pool.slots i = e at hentry hne ⊢
  cases hentry with
  | flag empty hnot => exact (hs hne).mono hsub hle
  | aged hl =>
    subst hl
    rw [ageEntry_id] at hne
    exact (hs hne).aged
  | filled tx hl hi =>
    subst hl
    exact .new List.mem_cons_self
  | consumed v d hl hst u hu hid => exact (hs hne).consumed.mono hsub hle

theorem CopiesOf.step {s t : State cfg k} {l : Label cfg k} (hs : CopiesOf s h)
    (ht : HonestInvariant t) (hallow : Honest s l) (hstep : DeiChain.step env s l = some t) :
    CopiesOf t (recordHanded s l t h) := by
  obtain ⟨hsub, hle⟩ := subset_recordHanded s l t h
  refine ⟨fun i hne => slots_step (hs.slots i) hstep hne, fun g r hr => ?_, fun g p hp u hu => ?_,
    fun b hb u hu => ?_⟩
  · rcases step_reserved hstep hr with ⟨g', hold⟩ | ⟨-, hnew⟩
    · exact (hs.reserved g' r hold).mono hsub hle
    · have hne : r.2.id ≠ [] :=
        ht.used_ne _ (ht.sound.held_issued g r.2.id (reserved_held hr))
      rw [hnew] at hne ⊢
      exact ((hs.slots r.1 hne).mono hsub hle).copy
  · cases step_carried hstep hp with
    | carried g' hold hsame =>
      rw [hsame.transactions] at hu
      exact (hs.carried g' _ hold u hu).mono hsub hle
    | created m reserved previousHash blockId clock hl hst hpair =>
      rw [hpair] at hu
      obtain ⟨r, hr, rfl⟩ := List.mem_map.mp ((MinedBlock.create reserved previousHash
        (m + 1 : ℕ) blockId clock).transactions_eq ▸ hu)
      refine (hs.reserved (.miner m) r ?_).mono hsub hle
      rw [State.reserved, hst]
      exact hr
    | delivered v r hl =>
      subst hl
      cases hallow
  · rcases step_chain hstep with ⟨v, d, tip, -, hst, -, hcommitted, -⟩ | ⟨-, hcommitted, -⟩
    · rw [hcommitted, List.mem_append, List.mem_singleton] at hb
      rcases hb with hold | rfl
      · exact (hs.committed b hold u hu).mono hsub hle
      · refine (hs.carried (.validator v) d.pair ?_ u hu).mono hsub hle
        rw [State.carried, hst]
        rfl
    · exact (hs.committed b (hcommitted ▸ hb) u hu).mono hsub hle

theorem handed_ids_step {s t : State cfg k} {l : Label cfg k} (hallow : Honest s l)
    (hids : h.transactions.map Transaction.id = s.used ∧ s.used.Nodup)
    (hstep : step env s l = some t) :
    (recordHanded s l t h).transactions.map Transaction.id = t.used ∧ t.used.Nodup := by
  cases l with
  | shared a =>
    obtain ⟨sh, hsh, rfl⟩ := Option.map_eq_some_iff.mp hstep
    cases a with
    | add tx =>
      cases hsh
      exact ⟨congrArg (tx.id :: ·) hids.1, List.nodup_cons.mpr ⟨(honest_add hallow).2, hids.2⟩⟩
    | _ =>
      cases sharedMove_of_step hsh
      exact hids
  | miner m a =>
    obtain ⟨⟨sh, st⟩, hsh, rfl⟩ := Option.map_eq_some_iff.mp hstep
    have hmove := minerMove_of_step hsh
    generalize s.miners m = old at hmove
    cases hmove <;> exact hids
  | validator v a =>
    obtain ⟨⟨sh, st⟩, hsh, rfl⟩ := Option.map_eq_some_iff.mp hstep
    have hmove := validatorMove_of_step hsh
    generalize s.validators v = old at hmove
    cases hmove <;> exact hids

-- The ledger holds transactions that were handed in, each one once and as it was handed in but
-- for its reward, which rises by one for fifty sweeps at most. So does its segment as long as
-- blocks are appended to a ledger with room only.
theorem ledger_records_unaltered {s : State cfg k}
    (hreach : Reachable (watch (step env) recordHanded) (watching Honest)
      (initState cfg k, ⟨[], 0⟩) (s, h)) :
    (h.transactions.map Transaction.id).Nodup ∧ s.ledgerIds.Nodup ∧
      (∀ b ∈ s.committed, ∀ t ∈ b.transactions, CopyOf h t) ∧
      (Reachable (step env) (fun a l => Honest a l ∧ Spacious a l) (initState cfg k) s →
        ((ledgerBlocks env.att s.ledger).flatMap TransactionBlock.ids).Nodup ∧
        ∀ b ∈ ledgerBlocks env.att s.ledger, ∀ t ∈ b.transactions, CopyOf h t) := by
  have hall : CopiesOf s h ∧ h.transactions.map Transaction.id = s.used ∧ s.used.Nodup := by
    refine hreach.invariant_along (I := fun p : State cfg k × Handed => CopiesOf p.1 p.2 ∧
      p.2.transactions.map Transaction.id = p.1.used ∧ p.1.used.Nodup)
      ⟨copiesOf_init, rfl, List.nodup_nil⟩ ?_
    rintro ⟨a, ha⟩ l ⟨b, hb⟩ hprev ⟨hcopies, hids⟩ hallow hstep
    obtain ⟨hs, hrecord⟩ := watch_eq_some hstep
    have hinv := (honestInvariant_of_reachable hprev.forget).step hallow hs
    rw [hrecord]
    exact ⟨hcopies.step hinv hallow hs, handed_ids_step hallow hids hs⟩
  obtain ⟨hcopies, hids, hnodup⟩ := hall
  have hspent := (honestInvariant_of_reachable hreach.forget).sound.spent_nodup
  refine ⟨hids ▸ hnodup, hspent, hcopies.committed, fun hroom => ?_⟩
  rw [(represents_of_spacious (fun _ _ hallow => hallow.2) hroom).ledgerBlocks_eq]
  exact ⟨hspent, hcopies.committed⟩

theorem ledger_records_unaltered_fifty_sweeps :
    ∃ (s : State (Sample.config 1) 1) (h : Handed) (b : TransactionBlock), b ∈ s.committed ∧
      b.transactions.map Transaction.reward = [2] ∧ h.transactions = [Sample.transaction 1] ∧
      h.sweeps = 50 ∧ ∀ t ∈ b.transactions, CopyOf h t := by
  let labels : List (Label (Sample.config 1) 1) :=
    Sample.add 1 ++ List.replicate 50 (.shared .age) ++ Sample.reserve 0 ++ Sample.mineAndSend 0 ++
      Sample.receive 0 0 ++ Sample.commit 0
  have hrun : (runAllowed (watch (step (Sample.environment 1)) recordHanded) (watching Honest)
      (initState (Sample.config 1) 1, ⟨[], 0⟩) labels).any (fun p => decide
        (p.1.committed.map (fun b => b.transactions.map Transaction.reward) = [[2]] ∧
          p.2.transactions = [Sample.transaction 1] ∧ p.2.sweeps = 50)) = true := by
    decide +kernel
  obtain ⟨⟨s, h⟩, hs, hend⟩ := (Option.any_eq_true ..).mp hrun
  obtain ⟨hcommitted, htransactions, hsweeps⟩ := of_decide_eq_true hend
  obtain ⟨-, -, hcopies, -⟩ := ledger_records_unaltered (reachable_of_runAllowed hs)
  obtain ⟨b, hb, hreward⟩ := List.mem_map.mp (hcommitted ▸ List.mem_singleton_self [2])
  exact ⟨s, h, b, hb, hreward, htransactions, hsweeps, hcopies b hb⟩

end DeiChain
