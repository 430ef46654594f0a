import DeiChain.Chain

namespace DeiChain

open ByteLayout ByteMemory HashChain Transition

variable {cfg : Config} {k : ℕ} {env : Environment cfg}

structure Audited (sha : Sha) (att : Attachment cfg) (m : Memory) : Prop where
  capacity : 0 ≤ numBlocks m ∧ numBlocks m ≤ cfg.blockchainBlocks
  valid : ∀ i : ℕ, (i : ℤ) < numBlocks m → loadValid m i = 1
  nonces : ∀ i : ℕ, (i : ℤ) < numBlocks m → verifyNonce sha (loadBlock att m i) = true
  counts : ∀ i : ℕ, (i : ℤ) < numBlocks m →
    1 ≤ (loadBlock att m i).transactionsPerBlock.toInt ∧
      (loadBlock att m i).transactionsPerBlock.toInt ≤ cfg.transactionsPerBlock
  chained : HashChained sha att m

theorem ChainInvariant.audited {s : State cfg k} (h : ChainInvariant env s) :
    Audited env.sha env.att s.ledger := by
  have hrep := h.represents
  have hload : ∀ i : ℕ, (i : ℤ) < numBlocks s.ledger →
      ∃ hi : i < s.committed.length, loadBlock env.att s.ledger i = s.committed[i] := by
    intro i hi
    rw [hrep.count] at hi
    have hlt : i < s.committed.length := by exact_mod_cast hi
    exact ⟨hlt, hrep.loadBlock_eq hlt⟩
  refine ⟨⟨?_, ?_⟩, ?_, ?_, ?_, hrep.hashChained_iff.mpr h.linked⟩
  · rw [hrep.count]
    exact Int.natCast_nonneg _
  · rw [hrep.count]
    exact_mod_cast hrep.capacity
  · intro i hi
    obtain ⟨hlt, -⟩ := hload i hi
    exact (hrep.entries i hlt).valid
  · intro i hi
    obtain ⟨hlt, heq⟩ := hload i hi
    rw [heq]
    exact h.nonces _ (List.getElem_mem hlt)
  · intro i hi
    obtain ⟨hlt, heq⟩ := hload i hi
    obtain ⟨hpos, hle⟩ := hrep.lengths _ (List.getElem_mem hlt)
    rw [heq]
    rw [TransactionBlock.transactions_length] at hpos hle
    omega

structure Extends (s t : State cfg k) : Prop where
  committed : s.committed <+: t.committed
  bytes : ∀ i < s.committed.length, ∀ x, EntryBytes cfg i x → t.ledger x = s.ledger x

theorem Extends.step {s t u : State cfg k} {l : Label cfg k} (h : Extends s t)
    (hinv : ChainInvariant env t) (hallow : Undisturbed t l) (hstep : step env t l = some u) :
    Extends s u := by
  rcases step_chain hstep with ⟨v, d, tip, hl, hst, hledger, hcommitted, -⟩ |
    ⟨hledger, hcommitted, -⟩
  · obtain ⟨htip, hprod⟩ := hallow v d tip hl hst
    have haddr : Addressable cfg t.committed.length := by
      rw [htip]
      exact ⟨hinv.room v d tip hst, hprod⟩
    refine ⟨hcommitted ▸ h.committed.trans (List.prefix_append _ _), ?_⟩
    intro i hi x hx
    have hlt : i < t.committed.length := hi.trans_le h.committed.length_le
    have hold := hinv.represents.addressable i hlt
    rw [← h.bytes i hi x hx, hledger]
    exact appendBlock_frame haddr hinv.represents.count (.inr (entryBytes_pos hold.product hx))
      (entryBytes_disjoint hold haddr hlt.ne hx)
  · exact ⟨hcommitted ▸ h.committed, hledger ▸ h.bytes⟩

theorem extends_of_reachable {s t : State cfg 1}
    (hno : cfg.blockchainBlocks * cfg.transactionsPerBlock < 2 ^ 31)
    (hs : SingleInvariant env s) (h : Reachable (step env) always s t) : Extends s t := by
  have hboth : SingleInvariant env t ∧ Extends s t := by
    refine h.invariant (I := fun a => SingleInvariant env a ∧ Extends s a)
      ⟨hs, List.prefix_rfl, fun _ _ _ _ => rfl⟩ ?_
    rintro a l b ⟨ha, hext⟩ - hstep
    exact ⟨ha.step (ha.undisturbed hno l) hstep, hext.step ha.chain (ha.undisturbed hno l) hstep⟩
  exact hboth.2

theorem singleInvariant_of_reachable {s : State cfg 1}
    (hno : cfg.blockchainBlocks * cfg.transactionsPerBlock < 2 ^ 31)
    (h : Reachable (step env) always (initState cfg 1) s) : SingleInvariant env s :=
  h.invariant singleInvariant_init (fun _ l _ ha _ hstep => ha.step (ha.undisturbed hno l) hstep)

theorem single_validator_audit {s : State cfg 1}
    (hno : cfg.blockchainBlocks * cfg.transactionsPerBlock < 2 ^ 31)
    (h : Reachable (step env) always (initState cfg 1) s) :
    Audited env.sha env.att s.ledger ∧
      ∀ t, Reachable (step env) always s t →
        numBlocks s.ledger ≤ numBlocks t.ledger ∧
          ∀ i : ℕ, (i : ℤ) < numBlocks s.ledger →
            (∀ x, EntryBytes cfg i x → t.ledger x = s.ledger x) ∧
              loadBlock env.att t.ledger i = loadBlock env.att s.ledger i := by
  have hinv := singleInvariant_of_reachable hno h
  refine ⟨hinv.chain.audited, fun t ht => ?_⟩
  have hext := extends_of_reachable hno hinv ht
  have hrep := hinv.chain.represents
  have hrep' := (singleInvariant_of_reachable hno (h.trans ht)).chain.represents
  refine ⟨?_, fun i hi => ?_⟩
  · rw [hrep.count, hrep'.count]
    exact_mod_cast hext.committed.length_le
  · rw [hrep.count] at hi
    have hlt : i < s.committed.length := by exact_mod_cast hi
    refine ⟨hext.bytes i hlt, ?_⟩
    rw [hrep'.loadBlock_eq (hlt.trans_le hext.committed.length_le), hrep.loadBlock_eq hlt]
    exact (hext.committed.getElem hlt).symm

theorem single_validator_audit_two_blocks :
    ∃ s : State (Sample.config 1) 1, s.committed = [Sample.block 1, Sample.replay 2] ∧
      Audited (Sample.environment 1).sha (Sample.environment 1).att s.ledger := by
  have hrun : (run (step (Sample.environment 1)) (initState (Sample.config 1) 1)
      (Sample.inTurn 0 0)).any (fun s => decide
        (s.committed = [Sample.block 1, Sample.replay 2])) = true := by decide +kernel
  obtain ⟨s, hs, hend⟩ := (Option.any_eq_true ..).mp hrun
  exact ⟨s, of_decide_eq_true hend,
    (single_validator_audit (by decide) (reachable_of_run hs)).1⟩

end DeiChain
