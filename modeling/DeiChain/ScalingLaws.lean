import DeiChain.Scaling
import Mathlib.Data.List.Nodup

namespace DeiChain

open Transition

-- Who created each validator, and at which reading of the clock.
abbrev Creations := List (ℕ × ℤ)

def recordCreation (s : Validators) (l : ScalingLabel) (_ : Validators) (made : Creations) :
    Creations :=
  match creation s l with
  | some (p, _) => made ++ [(p.validatorId, s.clock)]
  | none => made

structure Spaced (s : Validators) (made : Creations) : Prop where
  creator : ∀ c ∈ made, c.1 = 1
  before : ∀ p ∈ s.processes, p.validatorId = 1 → ∀ c ∈ made, c.2 ≤ p.lastValidatorCreation
  apart : made.Pairwise (fun c c' => c.2 + 5 ≤ c'.2)
  count : s.processes.length = made.length + 1

theorem Spaced.moved {s : Validators} {a : ProcessAction} {pre post : List ValidatorProcess}
    {p p' : ValidatorProcess} {made : Creations} (h : Spaced s made)
    (hs : s.processes = pre ++ p :: post) (hmove : LoopMove s.clock p a p' none) :
    Spaced ⟨s.clock, pre ++ p' :: post⟩ made := by
  obtain ⟨hcounters, -⟩ := hmove
  obtain ⟨hid, -, hlast⟩ := counters_eq hcounters
  have hbefore := h.before
  have hcount := h.count
  rw [hs] at hbefore hcount
  refine ⟨h.creator, ?_, h.apart, by simpa using hcount⟩
  intro x hx hxid c hc
  rcases Places.mem_replace p hx with rfl | hx
  · rw [hlast]
    exact hbefore p (List.mem_append_right _ List.mem_cons_self) (hid ▸ hxid) c hc
  · exact hbefore x hx hxid c hc

theorem Family.parent_of_created {s : Validators} {p x : ValidatorProcess}
    {children : List ValidatorProcess} {newId : ℕ} (h : Family s p children) (hne : newId ≠ 1)
    (hx : x ∈ (p.parentOf s.clock).goto .exitTest ::
      (children ++ [(p.childOf newId).goto .exitTest])) (hid : x.validatorId = 1) :
    x = (p.parentOf s.clock).goto .exitTest := by
  rcases List.mem_cons.mp hx with hx | hx
  · exact hx
  · rcases List.mem_append.mp hx with hx | hx
    · rcases h.ids x hx with hother | hother <;> omega
    · rw [List.mem_singleton.mp hx] at hid
      exact absurd hid hne

theorem Spaced.created {s : Validators} {occupancy : ℤ} {p : ValidatorProcess}
    {children : List ValidatorProcess} {newId : ℕ} {made : Creations} (h : Spaced s made)
    (hfamily : Family s p children) (hid : forkId s.clock occupancy p = some newId) :
    Spaced ⟨s.clock, (p.parentOf s.clock).goto .exitTest ::
      (children ++ [(p.childOf newId).goto .exitTest])⟩ (made ++ [(p.validatorId, s.clock)]) := by
  obtain ⟨hp, hlast, hband⟩ := forkId_eq_some hid
  have hold := h.before p (hfamily.processes ▸ List.mem_cons_self) hp
  have hcount := h.count
  rw [hfamily.processes] at hcount
  refine ⟨?_, ?_, ?_, by simpa using hcount⟩
  · rw [List.forall_mem_append, List.forall_mem_singleton]
    exact ⟨h.creator, hp⟩
  · intro x hx hxid
    rw [hfamily.parent_of_created (by omega) hx hxid, List.forall_mem_append,
      List.forall_mem_singleton]
    refine ⟨fun c hc => ?_, Int.le_refl _⟩
    have hle := hold c hc
    change c.2 ≤ s.clock
    omega
  · rw [List.pairwise_append]
    refine ⟨h.apart, List.pairwise_singleton _ _, ?_⟩
    intro c hc c' hc'
    have hle := hold c hc
    rw [List.mem_singleton.mp hc']
    change c.2 + 5 ≤ s.clock
    omega

theorem Spaced.step {s t : Validators} {l : ScalingLabel} {p : ValidatorProcess}
    {children : List ValidatorProcess} {made : Creations} (h : Spaced s made)
    (hfamily : Family s p children) (hstep : s.step l = some t) :
    Spaced t (recordCreation s l t made) := by
  cases scalingMove_of_step hstep with
  | tick => exact ⟨h.creator, h.before, h.apart, h.count⟩
  | moved hs hmove =>
    rw [recordCreation, creation_moved hs hmove]
    exact h.moved hs hmove
  | created hs hmove =>
    obtain - | @⟨occupancy, newId, hpoint, hsignal, hid⟩ := hmove
    rw [recordCreation, creation_created hs hpoint hsignal hid]
    obtain ⟨rfl, rfl, rfl⟩ := hfamily.head hs (forkId_eq_some hid).1
    exact h.created hfamily hid

namespace Sample

def turn (i : ℕ) (occupancy : ℤ) : List ScalingLabel :=
  [.process i (.manage occupancy .created), .process i (.exitTest occupancy), .process i .age,
    .process i (.read false)]

end Sample

def endsChild (s : Validators) : ScalingLabel → Bool
  | .process i a => (s.processes[i]?).any (fun p => p.validatorId != 1 && ends p a)
  | .tick _ => false

def KeepsChildren (s : Validators) (l : ScalingLabel) : Prop := endsChild s l = false

instance (s : Validators) (l : ScalingLabel) : Decidable (KeepsChildren s l) :=
  inferInstanceAs (Decidable (_ = false))

def ChildrenAlive (s : Validators) : Prop :=
  ∀ p ∈ s.processes, p.validatorId ≠ 1 → p.alive = true

theorem keepsChildren_iff {s : Validators} {a : ProcessAction} {pre post : List ValidatorProcess}
    {p : ValidatorProcess} (hs : s.processes = pre ++ p :: post) :
    KeepsChildren s (.process pre.length a) ↔ (p.validatorId ≠ 1 → ends p a = false) := by
  have hp : s.processes[pre.length]? = some p := by simp [hs]
  rw [KeepsChildren, endsChild, hp, Option.any_some, Bool.and_eq_false_imp]
  simp only [bne_iff_ne]

theorem childrenAlive_split {s : Validators} {pre post : List ValidatorProcess}
    {p : ValidatorProcess} (hs : s.processes = pre ++ p :: post) :
    ChildrenAlive s ↔ (∀ q ∈ pre ++ post, q.validatorId ≠ 1 → q.alive = true) ∧
      (p.validatorId ≠ 1 → p.alive = true) := by
  simp only [ChildrenAlive, hs, List.forall_mem_append, List.forall_mem_cons]
  exact ⟨fun h => ⟨⟨h.1, h.2.2⟩, h.2.1⟩, fun h => ⟨h.1.1, h.2, h.1.2⟩⟩

theorem childrenAlive_step {s t : Validators} {l : ScalingLabel} (hstep : s.step l = some t) :
    ChildrenAlive t ↔ ChildrenAlive s ∧ KeepsChildren s l := by
  cases scalingMove_of_step hstep with
  | tick => exact (and_iff_left rfl).symm
  | @moved a pre post q q' hs hmove =>
    obtain ⟨hcounters, hends, -⟩ := hmove
    obtain ⟨hid, -, -⟩ := counters_eq hcounters
    rw [keepsChildren_iff hs, childrenAlive_split hs, childrenAlive_split rfl, hid, hends,
      Bool.and_eq_true, Bool.not_eq_true', and_assoc, ← imp_and]
  | @created a pre post q q' child hs hmove =>
    obtain - | @⟨occupancy, newId, hpoint, hsignal, hid⟩ := hmove
    obtain ⟨hq, -⟩ := forkId_eq_some hid
    have hkept : KeepsChildren s (.process pre.length (.manage occupancy .created)) :=
      (keepsChildren_iff hs).mpr (fun _ => hsignal)
    rw [and_iff_left hkept, childrenAlive_split hs, childrenAlive_split rfl]
    simp only [← List.append_assoc, List.forall_mem_append, List.forall_mem_singleton, alive_goto]
    simp [hq]

theorem living_length_eq_iff {s : Validators} {p : ValidatorProcess}
    {children : List ValidatorProcess} (h : Family s p children) (halive : p.alive = true) :
    p.activeValidators = s.living.length ↔ ChildrenAlive s := by
  have hliving : s.living.length = (children.filter ValidatorProcess.alive).length + 1 := by
    rw [Validators.living, h.processes, List.filter_cons_of_pos halive, List.length_cons]
  rw [h.count, hliving, Nat.add_right_cancel_iff, eq_comm, List.length_filter_eq_length_iff,
    ChildrenAlive, h.processes, List.forall_mem_cons]
  have hchild : ∀ c ∈ children, c.validatorId ≠ 1 := by
    intro c hc
    rcases h.ids c hc with hid | hid <;> omega
  constructor
  · exact fun hall => ⟨fun hne => absurd h.primary hne, fun c hc _ => hall c hc⟩
  · exact fun hall c hc => hall.2 c hc (hchild c hc)

theorem books_kept_iff {clock : ℤ} {ls : List ScalingLabel} {s : Validators}
    {p : ValidatorProcess} (hrun : run Validators.step (.start clock) ls = some s)
    (hp : p ∈ s.processes) (hprimary : p.validatorId = 1) (halive : p.alive = true) :
    p.activeValidators = s.living.length ↔
      runAllowed Validators.step KeepsChildren (.start clock) ls = some s := by
  obtain ⟨q, children, hfamily⟩ := family_of_reachable (reachable_of_run hrun)
  obtain ⟨pre, post, hsplit⟩ := List.append_of_mem hp
  obtain ⟨-, rfl, -⟩ := hfamily.head hsplit hprimary
  rw [living_length_eq_iff hfamily halive]
  refine flag_iff_runAllowed (I := fun _ => True)
    (fun a l b _ hstep => ⟨trivial, childrenAlive_step hstep⟩) trivial ?_ hrun
  intro c hc hne
  rw [List.mem_singleton.mp hc] at hne
  exact absurd rfl hne

theorem books_kept_after_fork :
    ∃ s p, p ∈ s.processes ∧ p.validatorId = 1 ∧ p.activeValidators = 2 ∧
      p.activeValidators = s.living.length ∧
      Reachable Validators.step KeepsChildren (.start 5) s := by
  let labels : List ScalingLabel :=
    [.process 0 (.manage 85 .created), .process 1 (.exitTest 41), .process 0 (.exitTest 30)]
  have hrun : (run Validators.step (.start 5) labels).any (fun s =>
      decide (runAllowed Validators.step KeepsChildren (.start 5) labels = some s ∧
        ∃ p ∈ s.processes, p.validatorId = 1 ∧ p.alive = true ∧ p.activeValidators = 2)) =
          true := by
    decide
  obtain ⟨s, hs, hend⟩ := (Option.any_eq_true ..).mp hrun
  obtain ⟨hallowed, p, hp, hprimary, halive, hactive⟩ := of_decide_eq_true hend
  exact ⟨s, p, hp, hprimary, hactive, (books_kept_iff hs hp hprimary halive).mpr hallowed,
    reachable_of_runAllowed hallowed⟩

theorem books_lose_a_child :
    ∃ s, Reachable Validators.step always (.start 5) s ∧ ∃ p ∈ s.processes, p.validatorId = 1 ∧
      p.alive = true ∧ p.activeValidators = 2 ∧ s.living.length = 1 := by
  let labels : List ScalingLabel :=
    [.process 0 (.manage 85 .created), .process 1 (.exitTest 40)]
  have hrun : (run Validators.step (.start 5) labels).any (fun s =>
      decide (∃ p ∈ s.processes, p.validatorId = 1 ∧ p.alive = true ∧ p.activeValidators = 2 ∧
        s.living.length = 1)) = true := by
    decide
  obtain ⟨s, hs, hend⟩ := (Option.any_eq_true ..).mp hrun
  exact ⟨s, reachable_of_run hs, of_decide_eq_true hend⟩

def livingIds (s : Validators) : List ℕ := s.living.map ValidatorProcess.validatorId

-- At 80 % and above the new validator always gets id 3.
def FreshThird (s : Validators) (l : ScalingLabel) : Prop :=
  (creation s l).map Prod.snd = some 3 → 3 ∉ livingIds s

instance (s : Validators) (l : ScalingLabel) : Decidable (FreshThird s l) :=
  inferInstanceAs (Decidable (_ → _))

theorem livingIds_split {s : Validators} {pre post : List ValidatorProcess}
    {p : ValidatorProcess} (hs : s.processes = pre ++ p :: post) :
    livingIds s = (pre.filter ValidatorProcess.alive).map ValidatorProcess.validatorId ++
      ((if p.alive then [p.validatorId] else []) ++
        (post.filter ValidatorProcess.alive).map ValidatorProcess.validatorId) := by
  rw [livingIds, Validators.living, hs, List.filter_append, List.map_append, List.filter_cons]
  split <;> simp

theorem livingIds_moved {s : Validators} {a : ProcessAction} {pre post : List ValidatorProcess}
    {p p' : ValidatorProcess} (hs : s.processes = pre ++ p :: post)
    (hmove : LoopMove s.clock p a p' none) :
    (livingIds ⟨s.clock, pre ++ p' :: post⟩).Sublist (livingIds s) := by
  obtain ⟨hcounters, hends, -⟩ := hmove
  obtain ⟨hid, -, -⟩ := counters_eq hcounters
  rw [livingIds_split hs, @livingIds_split ⟨s.clock, pre ++ p' :: post⟩ pre post p' rfl]
  refine (List.Sublist.refl _).append (List.Sublist.append ?_ (List.Sublist.refl _))
  rw [hid, hends]
  cases p.alive with
  | false => simp
  | true => split <;> simp

theorem livingIds_created {s : Validators} {pre post : List ValidatorProcess}
    {p : ValidatorProcess} {newId : ℕ} (hs : s.processes = pre ++ p :: post)
    (halive : p.alive = true) :
    livingIds ⟨s.clock, pre ++ (p.parentOf s.clock).goto .exitTest ::
      (post ++ [(p.childOf newId).goto .exitTest])⟩ = livingIds s ++ [newId] := by
  rw [livingIds_split hs, @livingIds_split ⟨s.clock, _⟩ pre _ _ rfl, List.filter_append,
    List.map_append, halive]
  simp only [← List.append_assoc]
  rfl

theorem livingIds_of_alone {s : Validators} {p : ValidatorProcess} (h : Family s p []) :
    ∀ x ∈ livingIds s, x = 1 := by
  intro x hx
  obtain ⟨q, hq, rfl⟩ := List.mem_map.mp hx
  have hmem := (List.mem_filter.mp hq).1
  rw [h.processes] at hmem
  rw [List.mem_singleton.mp hmem]
  exact h.primary

theorem distinct_step {s t : Validators} {l : ScalingLabel} {p : ValidatorProcess}
    {children : List ValidatorProcess} (hfamily : Family s p children)
    (hs : (livingIds s).Nodup) (hstep : s.step l = some t) :
    (livingIds t).Nodup ↔ FreshThird s l := by
  cases scalingMove_of_step hstep with
  | tick => exact iff_of_true hs (fun h => by cases h)
  | @moved a pre post q q' hsplit hmove =>
    refine iff_of_true (hs.sublist (livingIds_moved hsplit hmove)) ?_
    rw [FreshThird, creation_moved hsplit hmove]
    exact fun h => by cases h
  | @created a pre post q q' child hsplit hmove =>
    obtain - | @⟨occupancy, newId, hpoint, hsignal, hid⟩ := hmove
    have hcreation := creation_created hsplit hpoint hsignal hid
    obtain ⟨hq, -, hband⟩ := forkId_eq_some hid
    obtain ⟨rfl, rfl, rfl⟩ := hfamily.head hsplit hq
    rw [livingIds_created hsplit (alive_of_point hpoint (by decide)), List.nodup_append_comm,
      List.singleton_append, List.nodup_cons, and_iff_left hs]
    rw [FreshThird, hcreation]
    rcases hband with ⟨rfl, -⟩ | ⟨rfl, hcount⟩
    · exact ⟨fun hfresh _ => hfresh, fun hfresh => hfresh rfl⟩
    · have halone : post = [] := by
        have := hfamily.count
        exact List.length_eq_zero_iff.mp (by omega)
      subst halone
      refine iff_of_true (fun hmem => ?_) (fun h => by cases h)
      exact absurd (livingIds_of_alone hfamily 2 hmem) (by decide)

theorem distinct_validator_ids {clock : ℤ} {s : Validators}
    (h : Reachable Validators.step FreshThird (.start clock) s) :
    (livingIds s).Nodup ∧
      ∀ l t, s.step l = some t → ((livingIds t).Nodup ↔ FreshThird s l) := by
  have hboth : (∃ p children, Family s p children) ∧ (livingIds s).Nodup := by
    refine h.invariant (I := fun s => (∃ p children, Family s p children) ∧ (livingIds s).Nodup)
      ⟨⟨_, _, family_start clock⟩, List.nodup_singleton 1⟩ ?_
    rintro a l b ⟨⟨p, children, hfamily⟩, hnodup⟩ hfresh hstep
    exact ⟨hfamily.step hstep, (distinct_step hfamily hnodup hstep).mpr hfresh⟩
  obtain ⟨⟨p, children, hfamily⟩, hnodup⟩ := hboth
  exact ⟨hnodup, fun l t hstep => distinct_step hfamily hnodup hstep⟩

theorem distinct_validator_ids_rise :
    ∃ s, Reachable Validators.step FreshThird (.start 5) s ∧ livingIds s = [1, 2, 3] ∧
      (livingIds s).Nodup := by
  have hrun : (runAllowed Validators.step FreshThird (.start 5)
      (Sample.turn 0 65 ++ .tick 10 :: Sample.turn 0 85)).any
        (fun s => decide (livingIds s = [1, 2, 3])) = true := by
    decide
  obtain ⟨s, hs, hend⟩ := (Option.any_eq_true ..).mp hrun
  have hreach := reachable_of_runAllowed hs
  exact ⟨s, hreach, of_decide_eq_true hend, (distinct_validator_ids hreach).1⟩

theorem two_validators_numbered_three :
    ∃ s, Reachable Validators.step always (.start 5) s ∧ livingIds s = [1, 3, 3] ∧
      ¬ (livingIds s).Nodup := by
  have hrun : (run Validators.step (.start 5)
      (Sample.turn 0 85 ++ .tick 10 :: Sample.turn 0 85)).any
        (fun s => decide (livingIds s = [1, 3, 3])) = true := by
    decide
  obtain ⟨s, hs, hend⟩ := (Option.any_eq_true ..).mp hrun
  have hids := of_decide_eq_true hend
  exact ⟨s, reachable_of_run hs, hids, hids ▸ by decide⟩

end DeiChain
