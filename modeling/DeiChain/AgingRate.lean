import DeiChain.Aging
import DeiChain.ScalingLaws
import Mathlib.Data.Finset.Card

namespace DeiChain

open Transition

variable {cfg : Config} {k : ℕ} {env : Environment cfg}

structure Running (cfg : Config) (k : ℕ) where
  system : State cfg k
  validators : Validators

inductive RunningLabel (cfg : Config) (k : ℕ) where
  | system (l : Label cfg k)
  | scaling (l : ScalingLabel)

def occupancyRead : ScalingLabel → Option ℤ
  | .process _ (.manage occupancy _) => some occupancy
  | .process _ (.exitTest occupancy) => some occupancy
  | _ => none

def passesGuard (s : Validators) : ScalingLabel → Bool
  | .process i .age => (s.processes[i]?).any (fun p => p.lastAgeUpdate < s.clock)
  | _ => false

namespace Running

def entry (r : Running cfg k) (i : Fin cfg.txPoolSize) : TransactionPoolEntry :=
  r.system.pool.slots i

def ageIf (env : Environment cfg) (passes : Bool) (s : State cfg k) : Option (State cfg k) :=
  if passes then DeiChain.step env s (.shared .age) else some s

def step (env : Environment cfg) (r : Running cfg k) :
    RunningLabel cfg k → Option (Running cfg k)
  | .system (.shared .age) => none
  | .system l => (DeiChain.step env r.system l).map (fun s => { r with system := s })
  | .scaling l =>
    if (occupancyRead l).all (· = r.system.pool.occupancy) then do
      let validators ← r.validators.step l
      let system ← ageIf env (passesGuard r.validators l) r.system
      return ⟨system, validators⟩
    else none

end Running

-- A validator passes its guard while the slot is available.
def catches (r : Running cfg k) : RunningLabel cfg k → Fin cfg.txPoolSize → Bool
  | .scaling l, i => passesGuard r.validators l && !(r.entry i).empty
  | .system _, _ => false

-- What the transaction of a slot has lived through: the clock seconds it has seen, those in
-- which its age grew, and those of the guards passed while it was available.
structure Stay where
  transaction : Transaction
  seconds : Finset ℤ
  growths : List ℤ
  passes : List ℤ

abbrev Stays (cfg : Config) := Fin cfg.txPoolSize → Stay

def startStays (cfg : Config) (clock : ℤ) : Stays cfg := fun _ =>
  ⟨Transaction.zero, {clock}, [], []⟩

def filling (r : Running cfg k) : RunningLabel cfg k → Fin cfg.txPoolSize → Option Transaction
  | .system l, i => fillings r.system l r.system (fun _ => none) i
  | .scaling _, _ => none

-- An age is incremented by the sweeps only; a removal sets it back.
def grows (r : Running cfg k) (l : RunningLabel cfg k) (r' : Running cfg k)
    (i : Fin cfg.txPoolSize) : Bool :=
  match l with
  | .scaling _ => (r'.entry i).age != (r.entry i).age
  | .system _ => false

def recordStays (r : Running cfg k) (l : RunningLabel cfg k) (r' : Running cfg k)
    (h : Stays cfg) : Stays cfg := fun i =>
  match filling r l i with
  | some tx => ⟨tx, {r'.validators.clock}, [], []⟩
  | none =>
    { h i with
      seconds := insert r'.validators.clock (h i).seconds
      growths := if grows r l r' i then r'.validators.clock :: (h i).growths else (h i).growths
      passes := if catches r l i then r.validators.clock :: (h i).passes else (h i).passes }

-- No guard has been passed in this second while a transaction caught now was available.
def FreshPass (p : Running cfg k × Stays cfg) (l : RunningLabel cfg k) : Prop :=
  ∀ i, catches p.1 l i = true → p.1.validators.clock ∉ (p.2 i).passes

instance (p : Running cfg k × Stays cfg) (l : RunningLabel cfg k) : Decidable (FreshPass p l) :=
  inferInstanceAs (Decidable (∀ i, _ → _ ∉ (p.2 i).passes))

inductive SlotChange (r : Running cfg k) (l : RunningLabel cfg k) (r' : Running cfg k)
    (i : Fin cfg.txPoolSize) : Prop
  | kept (hfill : filling r l i = none) (hcatch : catches r l i = false)
      (htx : (r'.entry i).transaction = (r.entry i).transaction)
      (hage : (r'.entry i).age = (r.entry i).age ∨
        (∃ sl, l = .system sl) ∧ (r'.entry i).age = 0)
  | grown (hfill : filling r l i = none) (hcatch : catches r l i = true)
      (hclock : r'.validators.clock = r.validators.clock)
      (hage : (r'.entry i).age = (r.entry i).age + 1)
      (hreward : (r'.entry i).transaction.reward =
        if ((r.entry i).age + 1) % 50 = 0 then (r.entry i).transaction.reward + 1
        else (r.entry i).transaction.reward)
  | filled (tx : Transaction) (hfill : filling r l i = some tx)
      (hentry : r'.entry i = ⟨tx, false, 0⟩)

theorem filling_of_not_mem {r : Running cfg k} {l : Label cfg k} {i : Fin cfg.txPoolSize}
    (hnot : i ∉ inserted r.system l) : filling r (.system l) i = none :=
  @fillings_of_not_mem _ _ r.system r.system l i hnot (fun _ => none)

theorem running_system {r r' : Running cfg k} {l : Label cfg k}
    (h : r.step env (.system l) = some r') :
    l ≠ .shared .age ∧
      ∃ s, DeiChain.step env r.system l = some s ∧ r' = { r with system := s } := by
  by_cases hl : l = .shared .age
  · subst hl
    cases h
  · unfold Running.step at h
    split at h
    · rename_i heq
      exact absurd (RunningLabel.system.inj heq) hl
    · rename_i heq
      obtain rfl := RunningLabel.system.inj heq
      obtain ⟨s, hs, rfl⟩ := Option.map_eq_some_iff.mp h
      exact ⟨hl, s, hs, rfl⟩
    · rename_i heq
      cases heq

theorem running_scaling {r r' : Running cfg k} {l : ScalingLabel}
    (h : r.step env (.scaling l) = some r') :
    r.validators.step l = some r'.validators ∧
      Running.ageIf env (passesGuard r.validators l) r.system = some r'.system := by
  simp only [Running.step] at h
  split at h
  · obtain ⟨v, hv, hrest⟩ := Option.bind_eq_some_iff.mp h
    obtain ⟨s, hs, hr⟩ := Option.bind_eq_some_iff.mp hrest
    obtain rfl := Option.some.inj hr
    exact ⟨hv, hs⟩
  · cases h

theorem clock_eq_of_passes {s t : Validators} {l : ScalingLabel} (h : s.step l = some t)
    (hpass : passesGuard s l = true) : t.clock = s.clock := by
  cases scalingMove_of_step h with
  | tick => cases hpass
  | _ => rfl

theorem slotChange_system {r : Running cfg k} {l : Label cfg k} {s : State cfg k}
    (hne : l ≠ .shared .age) (h : DeiChain.step env r.system l = some s)
    (i : Fin cfg.txPoolSize) : SlotChange r (.system l) { r with system := s } i := by
  have hentry := entryStep_of_step h i
  generalize he : s.pool.slots i = e at hentry
  have hnew : Running.entry { r with system := s } i = e := he
  cases hentry with
  | flag empty hnot =>
    exact .kept (filling_of_not_mem hnot) rfl (by rw [hnew]; rfl) (.inl (by rw [hnew]; rfl))
  | aged hl => exact absurd hl hne
  | filled tx hl hi =>
    subst hl
    exact .filled tx (@fillings_of_mem _ _ r.system r.system tx i hi (fun _ => none)) hnew
  | consumed v d hl hst t ht hid =>
    subst hl
    exact .kept (filling_of_not_mem List.not_mem_nil) rfl (by rw [hnew]; rfl)
      (.inr ⟨⟨_, rfl⟩, by rw [hnew]; rfl⟩)

theorem entry_of_passes {r r' : Running cfg k} {l : ScalingLabel}
    (h : r.step env (.scaling l) = some r') (hpass : passesGuard r.validators l = true)
    (i : Fin cfg.txPoolSize) : r'.entry i = ageEntry (r.entry i) := by
  obtain ⟨-, hsystem⟩ := running_scaling h
  have hage : (sharedStep r.system.toShared .age).map r.system.setShared = some r'.system := by
    rwa [hpass] at hsystem
  obtain ⟨sh, hsh, hs⟩ := Option.map_eq_some_iff.mp hage
  obtain rfl := Option.some.inj hsh
  rw [Running.entry, ← hs]
  rfl

theorem entry_of_not_passes {r r' : Running cfg k} {l : ScalingLabel}
    (h : r.step env (.scaling l) = some r') (hpass : passesGuard r.validators l = false)
    (i : Fin cfg.txPoolSize) : r'.entry i = r.entry i := by
  obtain ⟨-, hsystem⟩ := running_scaling h
  rw [hpass] at hsystem
  rw [Running.entry, ← Option.some.inj hsystem]
  rfl

theorem slotChange_scaling {r r' : Running cfg k} {l : ScalingLabel}
    (h : r.step env (.scaling l) = some r') (i : Fin cfg.txPoolSize) :
    SlotChange r (.scaling l) r' i := by
  cases hpass : passesGuard r.validators l with
  | true =>
    have hentry := entry_of_passes h hpass i
    cases hempty : (r.entry i).empty with
    | true =>
      rw [ageEntry_of_empty hempty] at hentry
      exact .kept rfl (by simp [catches, hempty]) (by rw [hentry]) (.inl (by rw [hentry]))
    | false =>
      obtain ⟨hage, hreward⟩ := ageEntry_of_full hempty
      rw [← hentry] at hage hreward
      exact .grown rfl (by simp [catches, hpass, hempty])
        (clock_eq_of_passes (running_scaling h).1 hpass) hage hreward
  | false =>
    have hentry := entry_of_not_passes h hpass i
    exact .kept rfl (by simp [catches, hpass]) (by rw [hentry]) (.inl (by rw [hentry]))

theorem slotChange_of_step {r r' : Running cfg k} {l : RunningLabel cfg k}
    (h : r.step env l = some r') (i : Fin cfg.txPoolSize) : SlotChange r l r' i := by
  cases l with
  | system l =>
    obtain ⟨hne, s, hs, rfl⟩ := running_system h
    exact slotChange_system hne hs i
  | scaling l => exact slotChange_scaling h i

structure StayInvariant (clock : ℤ) (e : TransactionPoolEntry) (st : Stay) : Prop where
  now : clock ∈ st.seconds
  known : ∀ g ∈ st.growths, g ∈ st.seconds
  caught : st.passes = st.growths
  age : e.age.toInt ≤ st.growths.length
  reward : ∃ g : ℕ, 50 * g + e.age.toInt % 50 ≤ st.growths.length ∧
    e.transaction.reward = st.transaction.reward + Int32.ofNat g

theorem stayInvariant_new (clock : ℤ) (tx : Transaction) (empty : Bool) :
    StayInvariant clock ⟨tx, empty, 0⟩ ⟨tx, {clock}, [], []⟩ where
  now := Finset.mem_singleton_self clock
  known g hg := by cases hg
  caught := rfl
  age := Int.le_refl 0
  reward := ⟨0, Int.le_refl 0, (Int32.add_zero _).symm⟩

theorem passesGuard_of_catches {r : Running cfg k} {l : RunningLabel cfg k}
    {i : Fin cfg.txPoolSize} (h : catches r l i = true) :
    ∃ sl, l = .scaling sl ∧ passesGuard r.validators sl = true := by
  cases l with
  | system l => cases h
  | scaling l => exact ⟨l, rfl, (Bool.and_eq_true .. ▸ h).1⟩

theorem recordStays_kept {r r' : Running cfg k} {l : RunningLabel cfg k} {h : Stays cfg}
    {i : Fin cfg.txPoolSize} (hfill : filling r l i = none) (hcatch : catches r l i = false)
    (hage : (r'.entry i).age = (r.entry i).age ∨
      (∃ sl, l = .system sl) ∧ (r'.entry i).age = 0) :
    recordStays r l r' h i = { h i with seconds := insert r'.validators.clock (h i).seconds } := by
  have hnot : grows r l r' i = false := by
    rcases hage with hsame | ⟨⟨sl, rfl⟩, -⟩
    · unfold grows
      split <;> simp [hsame]
    · rfl
  simp only [recordStays, hfill, hcatch, hnot, Bool.false_eq_true, if_false]

theorem recordStays_grown {r r' : Running cfg k} {l : RunningLabel cfg k} {h : Stays cfg}
    {i : Fin cfg.txPoolSize} (hfill : filling r l i = none) (hcatch : catches r l i = true)
    (hclock : r'.validators.clock = r.validators.clock)
    (hage : (r'.entry i).age = (r.entry i).age + 1) :
    recordStays r l r' h i = ⟨(h i).transaction, insert r.validators.clock (h i).seconds,
      r.validators.clock :: (h i).growths, r.validators.clock :: (h i).passes⟩ := by
  obtain ⟨sl, rfl, -⟩ := passesGuard_of_catches hcatch
  have hgrows : grows r (.scaling sl) r' i = true := by simp [grows, hage]
  simp only [recordStays, hfill, hcatch, hclock, hgrows, if_true]

theorem recordStays_filled {r r' : Running cfg k} {l : RunningLabel cfg k} {h : Stays cfg}
    {i : Fin cfg.txPoolSize} {tx : Transaction} (hfill : filling r l i = some tx) :
    recordStays r l r' h i = ⟨tx, {r'.validators.clock}, [], []⟩ := by
  simp only [recordStays, hfill]

theorem StayInvariant.step {r r' : Running cfg k} {l : RunningLabel cfg k} {h : Stays cfg}
    {i : Fin cfg.txPoolSize} (hinv : StayInvariant r.validators.clock (r.entry i) (h i))
    (hstep : r.step env l = some r') :
    StayInvariant r'.validators.clock (r'.entry i) (recordStays r l r' h i) := by
  obtain ⟨g, hg, hold⟩ := hinv.reward
  have hle := hinv.age
  cases slotChange_of_step hstep i with
  | kept hfill hcatch htx hage =>
    rw [recordStays_kept hfill hcatch hage]
    refine ⟨Finset.mem_insert_self _ _, fun g hg => Finset.mem_insert_of_mem (hinv.known g hg),
      hinv.caught, ?_, g, ?_, by rw [htx]; exact hold⟩
    · change (r'.entry i).age.toInt ≤ (h i).growths.length
      rcases hage with hage | ⟨-, hage⟩ <;> rw [hage]
      · exact hle
      · exact Int.natCast_nonneg _
    · change 50 * g + (r'.entry i).age.toInt % 50 ≤ (h i).growths.length
      rcases hage with hage | ⟨-, hage⟩ <;> rw [hage]
      · exact hg
      · change 50 * (g : ℤ) + 0 % 50 ≤ _
        omega
  | grown hfill hcatch hclock hage hreward =>
    have hsucc := toInt_age_succ (r.entry i).age
    rw [recordStays_grown hfill hcatch hclock hage, hclock]
    refine ⟨Finset.mem_insert_self _ _, ?_, congrArg (_ :: ·) hinv.caught, ?_, ?_⟩
    · exact List.forall_mem_cons.mpr ⟨Finset.mem_insert_self _ _,
        fun g hg => Finset.mem_insert_of_mem (hinv.known g hg)⟩
    · rw [List.length_cons, hage, hsucc]
      split <;> omega
    · rw [List.length_cons, hage, hsucc]
      by_cases hfifty : ((r.entry i).age + 1) % 50 = 0
      · have hmultiple := (age_multiple_iff _).mp hfifty
        rw [hsucc] at hmultiple
        refine ⟨g + 1, by split at hmultiple <;> split <;> omega, ?_⟩
        rw [hreward, if_pos hfifty, hold, Int32.ofNat_add, ← Int32.add_assoc]
        rfl
      · have hmultiple := mt (age_multiple_iff _).mpr hfifty
        rw [hsucc] at hmultiple
        refine ⟨g, by split at hmultiple <;> split <;> omega, ?_⟩
        rw [hreward, if_neg hfifty, hold]
  | filled tx hfill hentry =>
    rw [recordStays_filled hfill, hentry]
    exact stayInvariant_new _ tx false

theorem ageUpdate_ge (now : ℤ) (p : ValidatorProcess) (a : ProcessAction) :
    p.lastAgeUpdate ≤ ageUpdate now p a := by
  unfold ageUpdate
  split
  · split <;> omega
  · exact le_rfl

theorem exists_later {s t : Validators} {l : ScalingLabel} (h : s.step l = some t)
    {p : ValidatorProcess} (hp : p ∈ s.processes) :
    ∃ p' ∈ t.processes, p.lastAgeUpdate ≤ p'.lastAgeUpdate := by
  cases scalingMove_of_step h with
  | tick => exact ⟨p, hp, le_rfl⟩
  | @moved a pre post q q' hs hmove =>
    obtain ⟨-, -, -, hage⟩ := hmove
    rw [hs] at hp
    rcases Places.mem_replace q' hp with rfl | hp
    · exact ⟨q', List.mem_append_right _ List.mem_cons_self, hage ▸ ageUpdate_ge _ _ _⟩
    · exact ⟨p, hp, le_rfl⟩
  | @created a pre post q q' c hs hmove =>
    obtain - | - := hmove
    rw [hs] at hp
    rw [← List.cons_append, ← List.append_assoc]
    rcases Places.mem_replace ((q.parentOf s.clock).goto .exitTest) hp with rfl | hp
    · refine ⟨_, List.mem_append_left _ (List.mem_append_right _ List.mem_cons_self), le_rfl⟩
    · exact ⟨p, List.mem_append_left _ hp, le_rfl⟩

theorem exists_passed {s t : Validators} {l : ScalingLabel} (h : s.step l = some t)
    (hpass : passesGuard s l = true) : ∃ p ∈ t.processes, s.clock ≤ p.lastAgeUpdate := by
  cases scalingMove_of_step h with
  | tick => cases hpass
  | @moved a pre post q q' hs hmove =>
    obtain ⟨-, -, -, hage⟩ := hmove
    refine ⟨q', List.mem_append_right _ List.mem_cons_self, ?_⟩
    rw [hage]
    cases a with
    | age =>
      unfold ageUpdate
      split <;> omega
    | _ => cases hpass
  | created _ hmove =>
    obtain - | - := hmove
    cases hpass

theorem passes_known {r : Running cfg k} {h : Stays cfg} {validators : Validators}
    {allow : Running cfg k × Stays cfg → RunningLabel cfg k → Prop}
    (hreach : Reachable (watch (Running.step env) recordStays) allow
      (⟨initState cfg k, validators⟩, startStays cfg validators.clock) (r, h)) :
    ∀ i, ∀ g ∈ (h i).passes, ∃ p ∈ r.validators.processes, g ≤ p.lastAgeUpdate := by
  refine hreach.invariant (I := fun p : Running cfg k × Stays cfg =>
    ∀ i, ∀ g ∈ (p.2 i).passes, ∃ q ∈ p.1.validators.processes, g ≤ q.lastAgeUpdate)
    (fun i g hg => by cases hg) ?_
  rintro ⟨a, ha⟩ l ⟨b, h'⟩ hinv - hstep i g hg
  obtain ⟨hs, hb⟩ := watch_eq_some hstep
  have hkept : ∀ g ∈ (ha i).passes, ∃ q ∈ b.validators.processes, g ≤ q.lastAgeUpdate := by
    intro g hg
    obtain ⟨p, hp, hle⟩ := hinv i g hg
    cases l with
    | system l =>
      obtain ⟨-, s, -, rfl⟩ := running_system hs
      exact ⟨p, hp, hle⟩
    | scaling l =>
      obtain ⟨p', hp', hlater⟩ := exists_later (running_scaling hs).1 hp
      exact ⟨p', hp', hle.trans hlater⟩
  have hslot : g ∈ (recordStays a l b ha i).passes := by rwa [← hb]
  cases slotChange_of_step hs i with
  | kept hfill hcatch _ hage =>
    rw [recordStays_kept hfill hcatch hage] at hslot
    exact hkept g hslot
  | grown hfill hcatch hclock hage =>
    rw [recordStays_grown hfill hcatch hclock hage] at hslot
    rcases List.mem_cons.mp hslot with rfl | hslot
    · obtain ⟨sl, rfl, hpass⟩ := passesGuard_of_catches hcatch
      exact exists_passed (running_scaling hs).1 hpass
    · exact hkept g hslot
  | filled tx hfill =>
    rw [recordStays_filled hfill] at hslot
    cases hslot

theorem freshPass_of_alone {r : Running cfg k} {h : Stays cfg} {validators : Validators}
    {allow : Running cfg k × Stays cfg → RunningLabel cfg k → Prop} {p : ValidatorProcess}
    (hreach : Reachable (watch (Running.step env) recordStays) allow
      (⟨initState cfg k, validators⟩, startStays cfg validators.clock) (r, h))
    (halone : r.validators.processes = [p]) (l : RunningLabel cfg k) : FreshPass (r, h) l := by
  have hknown := passes_known hreach
  simp only [halone, List.mem_singleton, exists_eq_left] at hknown
  intro i hcatch hg
  obtain ⟨sl, rfl, hpass⟩ := passesGuard_of_catches hcatch
  have hlast : p.lastAgeUpdate < r.validators.clock := by
    change passesGuard r.validators sl = true at hpass
    unfold passesGuard at hpass
    split at hpass
    · obtain ⟨q, hq, hlt⟩ := (Option.any_eq_true ..).mp hpass
      have hmem := List.mem_of_getElem? hq
      rw [halone, List.mem_singleton] at hmem
      exact hmem ▸ of_decide_eq_true hlt
    · cases hpass
  exact absurd (hknown i _ hg) (not_le.mpr hlast)

namespace Sample

variable {spare : Fin 2}

def start : Running (config spare) k × Stays (config spare) :=
  (⟨initState (config spare) k, .start 5⟩, startStays (config spare) 5)

end Sample

end DeiChain
