import DeiChain.ExactlyOnce

namespace DeiChain

open ByteLayout Transition

variable {cfg : Config} {k : ℕ} {env : Environment cfg}

def Fresh (s : State cfg k) (d : Delivery cfg) : Prop :=
  d.received.block.ids.Nodup ∧ d.received.block.ids.Disjoint s.ledgerIds

-- The ids of the block differ and no slot still carries a committed one of them, all of these
-- slots having been filled again; or one of the ids was never handed in.
def Distinguishable (s : State cfg k) (d : Delivery cfg) : Prop :=
  (d.received.block.ids.Nodup ∧ ∀ x ∈ d.received.block.ids, x ∈ s.ledgerIds →
    ∀ i, (s.pool.slots i).transaction.id ≠ x) ∨
  ∃ x ∈ d.received.block.ids, x = [] ∨ x ∉ s.used

instance (s : State cfg k) (d : Delivery cfg) : Decidable (Distinguishable s d) :=
  inferInstanceAs (Decidable ((_ ∧ ∀ x ∈ _, _ → _) ∨ ∃ x ∈ _, _))

def distinguishes (s : State cfg k) : Label cfg k → Bool
  | .validator v .checkPool =>
    match s.validators v with
    | .linked d _ => Distinguishable s d
    | _ => true
  | _ => true

def Distinguishes (s : State cfg k) (l : Label cfg k) : Prop := distinguishes s l = true

instance (s : State cfg k) (l : Label cfg k) : Decidable (Distinguishes s l) :=
  inferInstanceAs (Decidable (_ = true))

theorem Distinguishes.block {s : State cfg k} {v : Fin k} {d : Delivery cfg} {tip : ℕ}
    (h : Distinguishes s (.validator v .checkPool)) (hst : s.validators v = .linked d tip) :
    Distinguishable s d := by
  simp only [Distinguishes, distinguishes, hst] at h
  exact of_decide_eq_true h

def ValidatorState.passed : ValidatorState cfg → Option (Delivery cfg)
  | .accepted d _ | .appending d _ => some d
  | _ => none

structure GateInvariant (s : State cfg k) : Prop where
  ledger : s.ledgerIds.Nodup
  passed : ∀ v d, (s.validators v).passed = some d → Fresh s d
  known : ∀ i, (s.pool.slots i).transaction.id ≠ [] → (s.pool.slots i).transaction.id ∈ s.used

theorem gateInvariant_init : GateInvariant (initState cfg k) where
  ledger := List.nodup_nil
  passed := by simp [initState, ValidatorState.passed]
  known := fun _ hne => absurd rfl hne

theorem passed_of_checked_none {st : ValidatorState cfg} (h : st.checked = none) :
    st.passed = none := by
  cases st <;> first | rfl | cases h

-- What the lookup finds in the pool is no transaction that is in the ledger already.
theorem GateInvariant.fresh {s : State cfg k} {d : Delivery cfg} (h : GateInvariant s)
    (hd : Distinguishable s d)
    (hall : d.received.block.transactions.all (found s.pool.slots) = true) : Fresh s d := by
  have hcarried : ∀ x ∈ d.received.block.ids,
      x ≠ [] ∧ ∃ i, (s.pool.slots i).transaction.id = x := by
    intro x hx
    obtain ⟨t, ht, rfl⟩ := List.mem_map.mp hx
    exact found_iff.mp (List.all_eq_true.mp hall t ht)
  rcases hd with ⟨hnodup, hgone⟩ | ⟨x, hx, hstrange⟩
  · refine ⟨hnodup, fun x hx hledger => ?_⟩
    obtain ⟨-, i, hi⟩ := hcarried x hx
    exact hgone x hx hledger i hi
  · obtain ⟨hne, i, rfl⟩ := hcarried x hx
    rcases hstrange with hnone | hnew
    · exact absurd hnone hne
    · exact absurd (h.known i hne) hnew

theorem known_step {s t : State cfg k} {l : Label cfg k} (hstep : step env s l = some t)
    (h : ∀ i, (s.pool.slots i).transaction.id ≠ [] → (s.pool.slots i).transaction.id ∈ s.used)
    (i : Fin cfg.txPoolSize) (hne : (t.pool.slots i).transaction.id ≠ []) :
    (t.pool.slots i).transaction.id ∈ t.used := by
  have hkept : s.used ⊆ t.used := by
    rcases step_used hstep with hsame | ⟨tx, -, hnew⟩
    · exact hsame ▸ List.Subset.refl _
    · exact hnew ▸ List.subset_cons_self _ _
  have hold : (t.pool.slots i).transaction.id = (s.pool.slots i).transaction.id →
      (t.pool.slots i).transaction.id ∈ t.used := by
    intro hid
    rw [hid] at hne ⊢
    exact hkept (h i hne)
  rcases step_transaction hstep i with hsame | ⟨-, -, hsame⟩ | ⟨tx, rfl, -, hnew⟩
  · exact hold (congrArg Transaction.id hsame)
  · exact hold hsame.id_eq
  · cases hstep
    rw [hnew]
    exact List.mem_cons_self

theorem GateInvariant.step {s t : State cfg 1} {l : Label cfg 1} (h : GateInvariant s)
    (hallow : Distinguishes s l) (hstep : step env s l = some t) : GateInvariant t := by
  have hknown := known_step hstep h.known
  rcases step_chain hstep with ⟨v, d, tip, -, hst, -, hcommitted, hvalidators⟩ |
    ⟨-, hcommitted, hvalidators⟩
  · obtain ⟨hnodup, hdisjoint⟩ := h.passed v d (by rw [hst]; rfl)
    have hids : t.ledgerIds = s.ledgerIds ++ d.received.block.ids := by
      rw [State.ledgerIds, hcommitted, List.flatMap_append, List.flatMap_singleton]
      rfl
    refine ⟨?_, fun w d' hd' => ?_, hknown⟩
    · rw [hids, List.nodup_append']
      exact ⟨h.ledger, hnodup, hdisjoint.symm⟩
    · rw [hvalidators, Subsingleton.elim w v, Function.update_self] at hd'
      cases hd'
  · have hids : t.ledgerIds = s.ledgerIds := congrArg (List.flatMap TransactionBlock.ids) hcommitted
    refine ⟨hids ▸ h.ledger, fun w d hd => ?_, hknown⟩
    rw [Fresh, hids]
    rcases hvalidators w with hsame | hnone | ⟨d', -, -, hlinked⟩ |
      ⟨d', tip', rfl, hold, hall, hnew⟩ | ⟨d', tip', -, hold, -, hnew⟩
    · exact h.passed w d (hsame ▸ hd)
    · rw [passed_of_checked_none hnone] at hd
      cases hd
    · rw [hlinked] at hd
      cases hd
    · rw [hnew] at hd
      cases hd
      exact h.fresh (hallow.block hold) hall
    · rw [hnew] at hd
      cases hd
      exact h.passed w d (by rw [hold]; rfl)

-- Every block that has passed the pool check is fresh, and stays so until it is appended.
theorem no_double_spending {s : State cfg 1}
    (h : Reachable (step env) Distinguishes (initState cfg 1) s) :
    s.ledgerIds.Nodup ∧
      (NoOverflow s → ((ledgerBlocks env.att s.ledger).flatMap TransactionBlock.ids).Nodup) ∧
      ∀ v d, (s.validators v).passed = some d →
        d.received.block.ids.Nodup ∧ d.received.block.ids.Disjoint s.ledgerIds := by
  have hinv : GateInvariant s :=
    h.invariant gateInvariant_init (fun _ _ _ ha hallow hstep => ha.step hallow hstep)
  refine ⟨hinv.ledger, fun hexact => ?_, hinv.passed⟩
  have hsingle := singleInvariant_of_noOverflow (h.mono (fun _ _ _ => trivial)) hexact
  rw [hsingle.chain.represents.ledgerBlocks_eq]
  exact hinv.ledger

namespace Sample

-- The slot of the committed transaction 1 is filled with transaction 2; then come a block that
-- spends 1 once more and one that spends 2.
def replayed {spare : Fin 2} {k : ℕ} (v : Fin k) : List (Label (config spare) k) :=
  validate v 1 ++ commit v ++ [.validator v .remove, .shared (.add (transaction 2)),
    .validator v (.deliver (replayReceived 1)), .validator v .checkLink, .validator v .checkPool,
    .validator v (.deliver (replayReceived 2)), .validator v .checkLink,
    .validator v .checkPool] ++ commit v

end Sample

theorem no_double_spending_run :
    ∃ s : State (Sample.config 1) 1, s.ledgerIds = [[1], [2]] ∧
      ((ledgerBlocks (Sample.environment 1).att s.ledger).flatMap TransactionBlock.ids).Nodup := by
  have hrun : (runAllowed (step (Sample.environment 1)) Distinguishes (initState _ 1)
      (Sample.replayed 0)).any (fun s => decide (s.ledgerIds = [[1], [2]] ∧
        s.committed.length = 2)) = true := by decide +kernel
  obtain ⟨s, hs, hend⟩ := (Option.any_eq_true ..).mp hrun
  obtain ⟨hledger, hlen⟩ := of_decide_eq_true hend
  exact ⟨s, hledger, (no_double_spending (reachable_of_runAllowed hs)).2.1
    (noOverflow_of_length (by rw [hlen]; decide))⟩

theorem double_spending_by_replay :
    ∃ s : State (Sample.config 1) 1,
      Reachable (step (Sample.environment 1)) always (initState _ 1) s ∧ ¬ s.ledgerIds.Nodup ∧
        ¬ ((ledgerBlocks (Sample.environment 1).att s.ledger).flatMap
          TransactionBlock.ids).Nodup := by
  let labels : List (Label (Sample.config 1) 1) :=
    Sample.validate 0 1 ++ Sample.commit 0 ++ [.validator 0 .remove,
      .validator 0 (.deliver (Sample.replayReceived 1)), .validator 0 .checkLink,
      .validator 0 .checkPool] ++ Sample.commit 0
  have hsome : (run (step (Sample.environment 1)) (initState _ 1) labels).isSome = true := by
    decide +kernel
  obtain ⟨s, hrun⟩ := Option.isSome_iff_exists.mp hsome
  have hcommitted : (run (step (Sample.environment 1)) (initState _ 1) labels).map
      (·.committed) = some [Sample.block 1, Sample.replay 1] := by decide +kernel
  rw [hrun, Option.map_some, Option.some_inj] at hcommitted
  have hreach := reachable_of_run hrun
  have hids : ¬ s.ledgerIds.Nodup := by
    rw [State.ledgerIds, hcommitted]
    decide
  refine ⟨s, hreach, hids, ?_⟩
  rw [(represents_of_reachable hreach ?_).ledgerBlocks_eq]
  · exact hids
  · rw [hcommitted]
    intro i hi
    exact addressable_of_lt (by decide) hi

end DeiChain
