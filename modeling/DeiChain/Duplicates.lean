import DeiChain.ExactlyOnce
import DeiChain.Flags

namespace DeiChain

open ByteLayout Transition

variable {cfg : Config} {k : ℕ} {env : Environment cfg}

def NoDuplicates {n : ℕ} (slots : Slots n) : Prop :=
  ∀ i j, (slots i).empty = false → (slots j).empty = false →
    (slots i).transaction.id = (slots j).transaction.id → i = j

-- A slot that the step returns is the only one with its id that is available or returned.
def SoleCarrier (s : State cfg k) (l : Label cfg k) : Prop :=
  ∀ i ∈ restored s l, ∀ j, j ≠ i →
    (s.pool.slots j).transaction.id = (s.pool.slots i).transaction.id →
      (s.pool.slots j).empty = true ∧ j ∉ restored s l

instance {n : ℕ} (slots : Slots n) : Decidable (NoDuplicates slots) :=
  inferInstanceAs (Decidable (∀ i j, (slots i).empty = false → (slots j).empty = false →
    (slots i).transaction.id = (slots j).transaction.id → i = j))

instance (s : State cfg k) (l : Label cfg k) : Decidable (SoleCarrier s l) :=
  inferInstanceAs (Decidable (∀ i ∈ restored s l, ∀ j, j ≠ i →
    (s.pool.slots j).transaction.id = (s.pool.slots i).transaction.id →
      (s.pool.slots j).empty = true ∧ j ∉ restored s l))

theorem restored_or_inserted (s : State cfg k) (l : Label cfg k) :
    restored s l = [] ∨ inserted s l = [] ∧ taken s l = [] := by
  cases l with
  | shared a => exact .inl rfl
  | miner m a =>
    cases a with
    | rollback => exact .inr ⟨rfl, rfl⟩
    | restore => exact .inr ⟨rfl, rfl⟩
    | _ => exact .inl rfl
  | validator v a =>
    cases a with
    | checkPool => exact .inr ⟨rfl, rfl⟩
    | restoreRefused => exact .inr ⟨rfl, rfl⟩
    | _ => exact .inl rfl

theorem inserted_eq {s t : State cfg k} {l : Label cfg k} {i : Fin cfg.txPoolSize}
    (hstep : step env s l = some t) (hi : i ∈ inserted s l) :
    inserted s l = [i] ∧ ∀ j, (s.pool.slots j).empty = false →
      (s.pool.slots j).transaction.id ≠ (t.pool.slots i).transaction.id := by
  cases l with
  | miner m a => cases hi
  | validator v a => cases hi
  | shared a =>
    cases a with
    | add tx =>
      cases hstep
      rcases addSection_cases tx s.pool with ⟨code, hcode, hadd⟩ | ⟨position, hpos, hadd⟩
      · rw [inserted_rejected hcode hadd] at hi
        cases hi
      · have hins := inserted_accepted hpos hadd
        rw [hins, List.mem_singleton] at hi
        subst hi
        refine ⟨hins, fun j hj => ?_⟩
        have hslot : (s.setShared (s.toShared.add tx)).pool.slots =
            Function.update s.pool.slots i ⟨tx, false, 0⟩ := by
          change (addSection tx s.pool).2.slots = _
          rw [hadd, insertAt_slots]
        rw [hslot, Function.update_self]
        exact hpos.fresh j hj
    | _ => cases hi

theorem noDuplicates_of_insert {s t : State cfg k} {l : Label cfg k}
    (h : NoDuplicates s.pool.slots) (hstep : step env s l = some t) (hres : restored s l = []) :
    NoDuplicates t.pool.slots := by
  have hflag := flagStep_of_step hstep
  have hother : ∀ i, (t.pool.slots i).empty = false → i ∉ inserted s l →
      (s.pool.slots i).empty = false ∧
        (t.pool.slots i).transaction.id = (s.pool.slots i).transaction.id := by
    intro i hi hnot
    rw [hflag.flags, hres, if_neg (by simp [hnot])] at hi
    split at hi
    · cases hi
    · exact ⟨hi, hflag.ids i hnot⟩
  intro i j hi hj hid
  by_cases hiIns : i ∈ inserted s l
  · obtain ⟨heq, hfresh⟩ := inserted_eq hstep hiIns
    by_cases hjIns : j ∈ inserted s l
    · rw [heq, List.mem_singleton] at hjIns
      exact hjIns.symm
    · obtain ⟨hfull, hsame⟩ := hother j hj hjIns
      exact absurd (hsame.symm.trans hid.symm) (hfresh j hfull)
  · obtain ⟨hfull, hsame⟩ := hother i hi hiIns
    by_cases hjIns : j ∈ inserted s l
    · exact absurd (hsame.symm.trans hid) ((inserted_eq hstep hjIns).2 i hfull)
    · obtain ⟨hfull', hsame'⟩ := hother j hj hjIns
      exact h i j hfull hfull' (hsame.symm.trans (hid.trans hsame'))

theorem noDuplicates_step {s t : State cfg k} {l : Label cfg k} (h : NoDuplicates s.pool.slots)
    (hstep : step env s l = some t) : NoDuplicates t.pool.slots ↔ SoleCarrier s l := by
  rcases restored_or_inserted s l with hres | ⟨hins, htaken⟩
  · refine iff_of_true (noDuplicates_of_insert h hstep hres) ?_
    rw [SoleCarrier, hres]
    simp
  · have hflag := flagStep_of_step hstep
    have hids : ∀ i, (t.pool.slots i).transaction.id = (s.pool.slots i).transaction.id :=
      fun i => hflag.ids i (by simp [hins])
    have havail : ∀ i, (t.pool.slots i).empty = false ↔
        i ∈ restored s l ∨ (s.pool.slots i).empty = false := by
      intro i
      rw [hflag.flags, hins, htaken]
      by_cases hi : i ∈ restored s l <;> simp [hi]
    simp only [NoDuplicates, havail, hids, SoleCarrier]
    constructor
    · intro hnodup i hi j hne hid
      have hnot : ¬ (j ∈ restored s l ∨ (s.pool.slots j).empty = false) :=
        fun hj => hne (hnodup j i hj (.inl hi) hid)
      rw [not_or, Bool.not_eq_false] at hnot
      exact ⟨hnot.2, hnot.1⟩
    · intro hsole i j hi hj hid
      by_contra hne
      rcases hi with hi | hi
      · obtain ⟨hempty, hnot⟩ := hsole i hi j (Ne.symm hne) hid.symm
        exact hj.elim hnot (by simp [hempty])
      · rcases hj with hj | hj
        · have hempty := (hsole j hj i hne hid).1
          rw [hi] at hempty
          cases hempty
        · exact hne (h i j hi hj hid)

theorem no_duplicates_iff {s : State cfg k}
    (h : Reachable (step env) SoleCarrier (initState cfg k) s) :
    NoDuplicates s.pool.slots ∧
      ∀ l t, step env s l = some t → (NoDuplicates t.pool.slots ↔ SoleCarrier s l) := by
  have hnodup : NoDuplicates s.pool.slots := by
    refine h.invariant (I := fun s => NoDuplicates s.pool.slots) ?_
      (fun a l b ha hallow hstep => (noDuplicates_step ha hstep).mpr hallow)
    intro i j hi
    cases hi
  exact ⟨hnodup, fun l t hstep => noDuplicates_step hnodup hstep⟩

theorem noDuplicates_of_honest {s : State cfg k}
    (h : Reachable (step env) Honest (initState cfg k) s) : NoDuplicates s.pool.slots := by
  have hpool := (honestInvariant_of_reachable h).pool
  exact fun i j hi _ hid => hpool.distinct i j hid (hpool.available_ne i hi)

namespace Sample

-- Both transactions are reserved when the second one is generated once more.
def regenerate : List (Label (config 1) 1) :=
  add 1 ++ add 2 ++ reserve 0 ++ reserve 1 ++ [.shared (.add (transaction 2))]

-- Of two reserved transactions the first is returned, the second handed in once more.
def returnFirst {spare : Fin 2} (m m' : Fin 2) : List (Label (config spare) 1) :=
  add 1 ++ add 2 ++ reserve m ++ reserve m' ++ [.miner m .createFails, .miner m .restore,
    .shared (.add (transaction 2))]

def returnSecond : List (Label (config 1) 1) := [.miner 1 .createFails, .miner 1 .restore]

end Sample

theorem no_duplicates_returned :
    ∃ s : State (Sample.config 1) 1, available s.pool.slots = 2 ∧ NoDuplicates s.pool.slots := by
  have hrun : (runAllowed (step (Sample.environment 1)) SoleCarrier (initState _ 1)
      (Sample.returnFirst 0 1)).any (fun s => decide (available s.pool.slots = 2)) = true := by
    decide +kernel
  obtain ⟨s, hs, htwo⟩ := (Option.any_eq_true ..).mp hrun
  exact ⟨s, of_decide_eq_true htwo, (no_duplicates_iff (reachable_of_runAllowed hs)).1⟩

theorem duplicates_after_restore :
    ∃ s : State (Sample.config 1) 1,
      Reachable (step (Sample.environment 1)) always (initState _ 1) s ∧
        (∀ i, (s.pool.slots i).empty = false ∧ (s.pool.slots i).transaction.id = [2]) ∧
        ¬ NoDuplicates s.pool.slots := by
  have hrun : (run (step (Sample.environment 1)) (initState (Sample.config 1) 1)
      (Sample.regenerate ++ Sample.returnSecond)).any (fun s => decide (
        (∀ i, (s.pool.slots i).empty = false ∧ (s.pool.slots i).transaction.id = [2]) ∧
          ¬ NoDuplicates s.pool.slots)) = true := by
    decide +kernel
  obtain ⟨s, hs, hend⟩ := (Option.any_eq_true ..).mp hrun
  exact ⟨s, reachable_of_run hs, of_decide_eq_true hend⟩

end DeiChain
