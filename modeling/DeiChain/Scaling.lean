import DeiChain.Library.History
import DeiChain.Library.Places
import Mathlib.Data.Int.Notation

namespace DeiChain

open Transition

inductive LoopPoint
  | top
  | exitTest
  | aging
  | reading
  | ended
deriving DecidableEq

structure ValidatorProcess where
  validatorId : ℕ
  activeValidators : ℕ
  lastValidatorCreation : ℤ
  lastAgeUpdate : ℤ
  shouldTerminate : Bool
  point : LoopPoint
deriving DecidableEq

-- A process is named by its place in the list: fork appends, and an ended process stays.
structure Validators where
  clock : ℤ
  processes : List ValidatorProcess
deriving DecidableEq

inductive ForkOutcome
  | failed
  | created
deriving DecidableEq

inductive ProcessAction
  | manage (occupancy : ℤ) (fork : ForkOutcome)
  | exitTest (occupancy : ℤ)
  | age
  | read (selectFails : Bool)
  | signal
  | killed

inductive ScalingLabel
  | tick (now : ℤ)
  | process (i : ℕ) (a : ProcessAction)

namespace ValidatorProcess

def start : ValidatorProcess := ⟨1, 1, 0, 0, false, .top⟩

def goto (p : ValidatorProcess) (point : LoopPoint) : ValidatorProcess := { p with point := point }

def counters (p : ValidatorProcess) : ℕ × ℕ × ℤ :=
  (p.validatorId, p.activeValidators, p.lastValidatorCreation)

def alive (p : ValidatorProcess) : Bool := p.point ≠ .ended

def parentOf (p : ValidatorProcess) (now : ℤ) : ValidatorProcess :=
  { p with activeValidators := p.activeValidators + 1, lastValidatorCreation := now }

def childOf (p : ValidatorProcess) (newId : ℕ) : ValidatorProcess :=
  { p with validatorId := newId, activeValidators := 1 }

end ValidatorProcess

def forkId (now occupancy : ℤ) (p : ValidatorProcess) : Option ℕ :=
  if p.validatorId ≠ 1 then none
  else if now - p.lastValidatorCreation < 5 then none
  else if 80 ≤ occupancy ∧ p.activeValidators < 3 then some 3
  else if 60 ≤ occupancy ∧ occupancy < 80 ∧ p.activeValidators < 2 then some 2
  else none

def manageValidators (now occupancy : ℤ) (fork : ForkOutcome) (p : ValidatorProcess) :
    ValidatorProcess × Option ValidatorProcess :=
  match forkId now occupancy p, fork with
  | some newId, .created => (p.parentOf now, some (p.childOf newId))
  | _, _ => (p, none)

def ageGuard (now : ℤ) (p : ValidatorProcess) : ValidatorProcess :=
  if now ≤ p.lastAgeUpdate then p else { p with lastAgeUpdate := now }

def loopStep (now : ℤ) (p : ValidatorProcess) :
    ProcessAction → Option (ValidatorProcess × Option ValidatorProcess)
  | .manage occupancy fork =>
    if p.point = .top then
      if p.shouldTerminate then some (p.goto .ended, none)
      else
        let (p, child) := manageValidators now occupancy fork p
        some (p.goto .exitTest, child.map (fun c => c.goto .exitTest))
    else none
  | .exitTest occupancy =>
    if p.point = .exitTest then
      some (p.goto (if 1 < p.validatorId ∧ occupancy ≤ 40 then .ended else .aging), none)
    else none
  | .age => if p.point = .aging then some ((ageGuard now p).goto .reading, none) else none
  | .read selectFails =>
    if p.point = .reading then some (p.goto (if selectFails then .ended else .top), none)
    else none
  | .signal => some ({ p with shouldTerminate := true }, none)
  | .killed => some (p.goto .ended, none)

namespace Validators

def step (s : Validators) : ScalingLabel → Option Validators
  | .tick now => if s.clock ≤ now then some { s with clock := now } else none
  | .process i a => do
    let p ← s.processes[i]?
    let (p, child) ← loopStep s.clock p a
    return { s with processes := s.processes.set i p ++ child.toList }

def start (clock : ℤ) : Validators := ⟨clock, [ValidatorProcess.start]⟩

def living (s : Validators) : List ValidatorProcess := s.processes.filter ValidatorProcess.alive

end Validators

-- The process that creates a validator in this step, and the id of the new one.
def creation (s : Validators) : ScalingLabel → Option (ValidatorProcess × ℕ)
  | .process i (.manage occupancy .created) => do
    let p ← s.processes[i]?
    let newId ← if p.point = .top ∧ p.shouldTerminate = false then forkId s.clock occupancy p
      else none
    return (p, newId)
  | _ => none

def ends (p : ValidatorProcess) : ProcessAction → Bool
  | .manage _ _ => p.shouldTerminate
  | .exitTest occupancy => 1 < p.validatorId ∧ occupancy ≤ 40
  | .read selectFails => selectFails
  | .killed => true
  | _ => false

def ageUpdate (now : ℤ) (p : ValidatorProcess) : ProcessAction → ℤ
  | .age => if now ≤ p.lastAgeUpdate then p.lastAgeUpdate else now
  | _ => p.lastAgeUpdate

inductive LoopMove (now : ℤ) (p : ValidatorProcess) :
    ProcessAction → ValidatorProcess → Option ValidatorProcess → Prop
  | moved {a : ProcessAction} {p' : ValidatorProcess} (hcounters : p'.counters = p.counters)
      (hends : p'.alive = (p.alive && !ends p a))
      (hnone : ∀ occupancy, a = .manage occupancy .created →
        p.point = .top ∧ p.shouldTerminate = false → forkId now occupancy p = none)
      (hage : p'.lastAgeUpdate = ageUpdate now p a) : LoopMove now p a p' none
  | created {occupancy : ℤ} {newId : ℕ} (hpoint : p.point = .top)
      (hsignal : p.shouldTerminate = false) (hid : forkId now occupancy p = some newId) :
      LoopMove now p (.manage occupancy .created) ((p.parentOf now).goto .exitTest)
        (some ((p.childOf newId).goto .exitTest))

theorem alive_goto (p : ValidatorProcess) (point : LoopPoint) :
    (p.goto point).alive = decide (point ≠ .ended) := rfl

theorem alive_of_point {p : ValidatorProcess} {point : LoopPoint} (hp : p.point = point)
    (hne : point ≠ .ended) : p.alive = true := decide_eq_true (hp ▸ hne)

theorem manageValidators_none {now occupancy : ℤ} {fork : ForkOutcome} {p : ValidatorProcess}
    (h : fork = .created → forkId now occupancy p = none) :
    manageValidators now occupancy fork p = (p, none) := by
  unfold manageValidators
  cases fork with
  | failed => cases forkId now occupancy p <;> rfl
  | created => rw [h rfl]

theorem manageValidators_created {now occupancy : ℤ} {p : ValidatorProcess} {newId : ℕ}
    (h : forkId now occupancy p = some newId) :
    manageValidators now occupancy .created p = (p.parentOf now, some (p.childOf newId)) := by
  unfold manageValidators
  rw [h]

theorem loopMove_manage {now occupancy : ℤ} {fork : ForkOutcome} {p p' : ValidatorProcess}
    {child : Option ValidatorProcess}
    (h : loopStep now p (.manage occupancy fork) = some (p', child)) :
    LoopMove now p (.manage occupancy fork) p' child := by
  simp only [loopStep] at h
  split at h
  · rename_i hpoint
    have halive := alive_of_point hpoint (by decide)
    split at h
    · rename_i hsignal
      cases h
      exact .moved rfl (by simp [alive_goto, ends, hsignal]) (by simp [hsignal]) rfl
    · rename_i hsignal
      rw [Bool.not_eq_true] at hsignal
      by_cases hfork : fork = .created → forkId now occupancy p = none
      · rw [manageValidators_none hfork] at h
        cases h
        refine .moved rfl (by simp [alive_goto, ends, hsignal, halive]) ?_ rfl
        rintro o heq -
        cases heq
        exact hfork rfl
      · push Not at hfork
        obtain ⟨rfl, hsome⟩ := hfork
        obtain ⟨newId, hid⟩ := Option.ne_none_iff_exists'.mp hsome
        rw [manageValidators_created hid] at h
        cases h
        exact .created hpoint hsignal hid
  · cases h

theorem loopMove_of_step {now : ℤ} {p p' : ValidatorProcess} {a : ProcessAction}
    {child : Option ValidatorProcess} (h : loopStep now p a = some (p', child)) :
    LoopMove now p a p' child := by
  cases a with
  | manage occupancy fork => exact loopMove_manage h
  | exitTest occupancy =>
    simp only [loopStep] at h
    split at h
    · rename_i hpoint
      cases h
      refine .moved rfl ?_ (by simp) rfl
      rw [alive_goto, alive_of_point hpoint (by decide), ends]
      by_cases hexit : 1 < p.validatorId ∧ occupancy ≤ 40
      · rw [if_pos hexit, decide_eq_true hexit]
        rfl
      · rw [if_neg hexit, decide_eq_false hexit]
        rfl
    · cases h
  | age =>
    simp only [loopStep] at h
    split at h
    · rename_i hpoint
      cases h
      refine .moved ?_ ?_ (by simp) ?_
      · unfold ageGuard
        split <;> rfl
      · rw [alive_goto, alive_of_point hpoint (by decide)]
        rfl
      · unfold ageGuard ageUpdate
        split <;> rfl
    · cases h
  | read selectFails =>
    simp only [loopStep] at h
    split at h
    · rename_i hpoint
      cases h
      refine .moved rfl ?_ (by simp) rfl
      rw [alive_goto, alive_of_point hpoint (by decide), ends]
      cases selectFails <;> rfl
    · cases h
  | signal =>
    cases h
    exact .moved rfl (by simp [ends, ValidatorProcess.alive]) (by simp) rfl
  | killed =>
    cases h
    exact .moved rfl (by simp [ends, alive_goto]) (by simp) rfl

inductive ScalingMove (s : Validators) : ScalingLabel → Validators → Prop
  | tick {now : ℤ} (h : s.clock ≤ now) : ScalingMove s (.tick now) { s with clock := now }
  | moved {a : ProcessAction} {pre post : List ValidatorProcess} {p p' : ValidatorProcess}
      (hs : s.processes = pre ++ p :: post) (hmove : LoopMove s.clock p a p' none) :
      ScalingMove s (.process pre.length a) ⟨s.clock, pre ++ p' :: post⟩
  | created {a : ProcessAction} {pre post : List ValidatorProcess} {p p' c : ValidatorProcess}
      (hs : s.processes = pre ++ p :: post) (hmove : LoopMove s.clock p a p' (some c)) :
      ScalingMove s (.process pre.length a) ⟨s.clock, pre ++ p' :: (post ++ [c])⟩

theorem scalingMove_of_step {s t : Validators} {l : ScalingLabel}
    (h : s.step l = some t) : ScalingMove s l t := by
  cases l with
  | tick now =>
    simp only [Validators.step] at h
    split at h
    · rename_i hle
      cases h
      exact .tick hle
    · cases h
  | process i a =>
    obtain ⟨p, hp, hrest⟩ := Option.bind_eq_some_iff.mp h
    obtain ⟨⟨p', child⟩, hstep, ht⟩ := Option.bind_eq_some_iff.mp hrest
    obtain ⟨pre, post, hs, rfl, -, hset⟩ := Places.split_of_getElem? hp
    have hmove := loopMove_of_step hstep
    cases child with
    | none =>
      simp only [Option.toList_none, List.append_nil, hset] at ht
      cases ht
      exact .moved hs hmove
    | some c =>
      simp only [Option.toList_some, hset, List.append_assoc, List.cons_append] at ht
      cases ht
      exact .created hs hmove

theorem counters_eq {p p' : ValidatorProcess} (h : p'.counters = p.counters) :
    p'.validatorId = p.validatorId ∧ p'.activeValidators = p.activeValidators ∧
      p'.lastValidatorCreation = p.lastValidatorCreation := by
  simpa [ValidatorProcess.counters] using h

theorem forkId_eq_some {now occupancy : ℤ} {p : ValidatorProcess} {newId : ℕ}
    (h : forkId now occupancy p = some newId) :
    p.validatorId = 1 ∧ p.lastValidatorCreation + 5 ≤ now ∧
      (newId = 3 ∧ p.activeValidators < 3 ∨ newId = 2 ∧ p.activeValidators < 2) := by
  unfold forkId at h
  split at h
  · cases h
  · rename_i hid
    split at h
    · cases h
    · rename_i hlast
      refine ⟨not_not.mp hid, by omega, ?_⟩
      split at h
      · rename_i hband
        exact .inl ⟨(Option.some.inj h).symm, hband.2⟩
      · split at h
        · rename_i hband
          exact .inr ⟨(Option.some.inj h).symm, hband.2.2⟩
        · cases h

-- The first process is the primary one; its counter counts every process ever created.
structure Family (s : Validators) (p : ValidatorProcess) (children : List ValidatorProcess) :
    Prop where
  processes : s.processes = p :: children
  primary : p.validatorId = 1
  count : p.activeValidators = children.length + 1
  bound : children.length ≤ 2
  ids : ∀ c ∈ children, c.validatorId = 2 ∨ c.validatorId = 3

theorem family_start (clock : ℤ) : Family (.start clock) .start [] where
  processes := rfl
  primary := rfl
  count := rfl
  bound := by decide
  ids c hc := by cases hc

theorem Family.head {s : Validators} {p q : ValidatorProcess}
    {children pre post : List ValidatorProcess} (h : Family s p children)
    (hs : s.processes = pre ++ q :: post) (hq : q.validatorId = 1) :
    pre = [] ∧ q = p ∧ post = children := by
  rw [h.processes] at hs
  cases pre with
  | nil => exact ⟨rfl, (List.cons.inj hs).1.symm, (List.cons.inj hs).2.symm⟩
  | cons x pre =>
    have hmem : q ∈ children := by
      rw [(List.cons.inj hs).2]
      exact List.mem_append_right _ List.mem_cons_self
    rcases h.ids q hmem with hid | hid <;> omega

theorem Family.step {s t : Validators} {l : ScalingLabel} {p : ValidatorProcess}
    {children : List ValidatorProcess} (h : Family s p children) (hstep : s.step l = some t) :
    ∃ p' children', Family t p' children' := by
  cases scalingMove_of_step hstep with
  | tick => exact ⟨p, children, h.processes, h.primary, h.count, h.bound, h.ids⟩
  | @moved a pre post q q' hs hmove =>
    obtain ⟨hcounters, -⟩ := hmove
    obtain ⟨hid, hactive, -⟩ := counters_eq hcounters
    have hsplit := h.processes.symm.trans hs
    cases pre with
    | nil =>
      obtain ⟨rfl, rfl⟩ := List.cons.inj hsplit
      exact ⟨q', children, rfl, hid.trans h.primary, hactive.trans h.count, h.bound, h.ids⟩
    | cons x pre =>
      obtain ⟨rfl, rfl⟩ := List.cons.inj hsplit
      refine ⟨p, pre ++ q' :: post, rfl, h.primary, ?_, ?_, ?_⟩
      · simpa using h.count
      · simpa using h.bound
      · intro c hc
        rcases Places.mem_replace q hc with rfl | hc
        · rw [hid]
          exact h.ids q (List.mem_append_right _ List.mem_cons_self)
        · exact h.ids c hc
  | @created a pre post q q' c hs hmove =>
    obtain - | @⟨occupancy, newId, hpoint, hsignal, hid⟩ := hmove
    obtain ⟨hq, -, hband⟩ := forkId_eq_some hid
    obtain ⟨rfl, rfl, rfl⟩ := h.head hs hq
    have hcount := h.count
    refine ⟨_, _, rfl, hq, ?_, ?_, ?_⟩
    · change q.activeValidators + 1 = _
      simp [hcount]
    · simp only [List.length_append, List.length_singleton]
      omega
    · intro c hc
      rcases List.mem_append.mp hc with hc | hc
      · exact h.ids c hc
      · rw [List.mem_singleton.mp hc]
        change newId = 2 ∨ newId = 3
        omega

theorem creation_moved {s : Validators} {a : ProcessAction} {pre post : List ValidatorProcess}
    {p p' : ValidatorProcess} (hs : s.processes = pre ++ p :: post)
    (hmove : LoopMove s.clock p a p' none) : creation s (.process pre.length a) = none := by
  obtain ⟨-, -, hnone, -⟩ := hmove
  unfold creation
  split
  · rename_i heq
    cases heq
    have hp : s.processes[pre.length]? = some p := by simp [hs]
    rw [hp]
    by_cases htop : p.point = .top ∧ p.shouldTerminate = false
    · simp [htop, hnone _ rfl htop]
    · simp [htop]
  · rfl

theorem creation_created {s : Validators} {occupancy : ℤ} {pre post : List ValidatorProcess}
    {p : ValidatorProcess} {newId : ℕ} (hs : s.processes = pre ++ p :: post)
    (hpoint : p.point = .top) (hsignal : p.shouldTerminate = false)
    (hid : forkId s.clock occupancy p = some newId) :
    creation s (.process pre.length (.manage occupancy .created)) = some (p, newId) := by
  have hp : s.processes[pre.length]? = some p := by simp [hs]
  simp [creation, hp, hpoint, hsignal, hid]

theorem family_of_reachable {clock : ℤ} {s : Validators} {allow : Validators → ScalingLabel → Prop}
    (h : Reachable Validators.step allow (.start clock) s) :
    ∃ p children, Family s p children := by
  refine h.invariant (I := fun s => ∃ p children, Family s p children)
    ⟨_, _, family_start clock⟩ ?_
  rintro a l b ⟨p, children, hfamily⟩ - hstep
  exact hfamily.step hstep

end DeiChain
