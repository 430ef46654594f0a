import DeiChain.Verdict

namespace DeiChain

open ByteLayout ByteMemory Transition

variable {n : ℕ} {cfg : Config}

def Committed (att : Attachment cfg) (m : Memory) (txId : List UInt8) : Prop :=
  txId ∈ (ledgerBlocks att m).flatMap TransactionBlock.ids

-- A consumed slot, or one of the slots that other blocks have reserved.
def Taken (att : Attachment cfg) (m : Memory) (others : Fin n → Prop) (slots : Slots n)
    (i : Fin n) : Prop :=
  (slots i).empty = true ∧ (Committed att m (slots i).transaction.id ∨ others i)

theorem rejection_resurrects_nothing_iff (sha : Sha) (att : Attachment cfg) (m : Memory)
    (allocated : Bool) (b : TransactionBlock) (slots : Slots n) (others : Fin n → Prop) :
    ((validateBlock sha att m allocated b slots).1 = false → ∀ i, Taken att m others slots i →
      ((validateBlock sha att m allocated b slots).2 i).empty = true) ↔
    (allocated = true → (∃ t ∈ b.transactions, ¬ Present slots t) →
      ∀ i, Taken att m others slots i → ¬ Undone sha att m b slots i) := by
  cases allocated with
  | false =>
    have hslots : (validateBlock sha att m false b slots).2 = slots := by
      unfold validateBlock
      split <;> [rfl; (split <;> rfl)]
    rw [hslots]
    exact iff_of_true (fun _ i htaken => htaken.1) (fun h => by cases h)
  | true =>
    constructor
    · rintro h - ⟨t, ht, hmissing⟩ i htaken hundone
      have hnot : ¬ Acceptable sha att m b slots := fun hok => hmissing (hok.present t ht)
      have hrejected : (validateBlock sha att m true b slots).1 = false :=
        Bool.eq_false_iff.mpr (fun hvalid => hnot (validateBlock_accepts_iff.mp hvalid))
      have hempty := h hrejected i htaken
      rw [(validateBlock_rejected_slots hnot i).1 hundone] at hempty
      cases hempty
    · intro h hrejected i htaken
      have hnot : ¬ Acceptable sha att m b slots := by
        rw [← validateBlock_accepts_iff, hrejected]
        exact Bool.false_ne_true
      have hkept : ¬ Undone sha att m b slots i := by
        intro hundone
        refine h rfl ?_ i htaken hundone
        by_contra hall
        push Not at hall
        exact hnot ⟨hundone.work, hundone.link, hall⟩
      rw [(validateBlock_rejected_slots hnot i).2 hkept]
      exact htaken.1

namespace Sample

def pairsConfig : Config := ⟨1, 2, 2, 2, by decide, by decide⟩

instance : NeZero pairsConfig.txPoolSize := ⟨Nat.succ_ne_zero 1⟩

def pairsEnvironment : Environment pairsConfig :=
  ⟨fun _ => List.Vector.replicate 32 0, ⟨0, by decide⟩⟩

def pair (b : TransactionBlock) (c c' : UInt8) : TransactionBlock :=
  { b with
    transactionsPerBlock := pairReceived.block.transactionsPerBlock
    transactions := [transaction c, transaction c']
    transactions_length := rfl }

def pairsReceived {cfg : Config} (r : ReceivedBlock cfg) (c c' : UInt8) :
    ReceivedBlock pairsConfig where
  minerId := r.minerId
  block := pair r.block c c'
  heapPtr := r.heapPtr
  heapTail := []
  count_pos := pairReceived.count_pos
  count_le := pairReceived.count_le
  txbId_nul := r.txbId_nul
  previousBlockHash_nul := r.previousBlockHash_nul
  heap_length := rfl

def consumePair {k : ℕ} (v : Fin k) (r : ReceivedBlock pairsConfig) : List (Label pairsConfig k) :=
  [.shared (.add (transaction 1)), .shared (.add (transaction 2)), .validator v (.deliver r),
    .validator v .checkLink, .validator v .checkPool, .validator v .testCapacity,
    .validator v .append, .validator v .remove]

end Sample

theorem rejection_resurrects_committed :
    ∃ s : State Sample.pairsConfig 1,
      Reachable (step Sample.pairsEnvironment) always (initState _ 1) s ∧
        ∃ r : ReceivedBlock Sample.pairsConfig,
          (validateBlock Sample.pairsEnvironment.sha Sample.pairsEnvironment.att s.ledger true
            r.block s.pool.slots).1 = false ∧
          Taken Sample.pairsEnvironment.att s.ledger (fun _ => False) s.pool.slots 0 ∧
          ((validateBlock Sample.pairsEnvironment.sha Sample.pairsEnvironment.att s.ledger true
            r.block s.pool.slots).2 0).empty = false := by
  let next := Sample.pairsReceived (@Sample.replayReceived 1 1) 1 3
  have hrun : (run (step Sample.pairsEnvironment) (initState _ 1) (Sample.consumePair 0
      (Sample.pairsReceived (@Sample.received 1 1) 1 2))).any (fun s =>
        decide ((validateBlock Sample.pairsEnvironment.sha Sample.pairsEnvironment.att s.ledger
            true next.block s.pool.slots).1 = false ∧
          ((s.pool.slots 0).empty = true ∧ (s.pool.slots 0).transaction.id ∈
            (ledgerBlocks Sample.pairsEnvironment.att s.ledger).flatMap TransactionBlock.ids) ∧
          ((validateBlock Sample.pairsEnvironment.sha Sample.pairsEnvironment.att s.ledger true
            next.block s.pool.slots).2 0).empty = false)) = true := by
    decide +kernel
  obtain ⟨s, hs, hend⟩ := (Option.any_eq_true ..).mp hrun
  obtain ⟨hrejected, ⟨hempty, hcommitted⟩, hback⟩ := of_decide_eq_true hend
  exact ⟨s, reachable_of_run hs, next, hrejected, ⟨hempty, .inl hcommitted⟩, hback⟩

end DeiChain
