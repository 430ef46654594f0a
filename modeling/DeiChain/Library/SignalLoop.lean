import DeiChain.Library.Potential

namespace SignalLoop

open Transition

-- body held calls: a report is being written. Each call writes its lines under a mutex, and held
-- says how many are left of the one that has it. A signal ends the sleep of the blocking call.
inductive Point
  | test
  | check
  | body (held : Option ℕ) (calls : List ℕ)
  | reset
  | sleep
  | asleep
  | left
deriving DecidableEq

def Point.held : Point → Bool
  | .body held _ => held.isSome
  | _ => false

-- What the handler of a signal does, and the calls that write a report of some lines.
structure Loop (σ : Type*) where
  stops : σ → Bool
  asks : σ → Bool
  locks : σ → Bool
  calls : ℕ → List ℕ

structure State (E : Type*) where
  point : Point
  stop : Bool
  asked : Bool
  dead : Bool
  queue : List E
  seen : List E
  shown : List (List E)
deriving DecidableEq

-- A signal that another thread takes does not end the sleep.
inductive Label (σ E : Type*)
  | run
  | report (lines : ℕ)
  | signal (x : σ) (here : Bool)
  | arrive (e : E)

variable {σ E : Type*}

namespace State

def init : State E := ⟨.test, false, false, false, [], [], []⟩

def advance (s : State E) : Option (State E) :=
  match s.point with
  | .test => if s.stop then some { s with point := .left } else some { s with point := .check }
  | .check => if s.asked then none else some { s with point := .sleep }
  | .body none [] => some { s with point := .reset }
  | .body none (n :: calls) => some { s with point := .body (some n) calls }
  | .body (some 0) calls => some { s with point := .body none calls }
  | .body (some (n + 1)) calls => some { s with point := .body (some n) calls }
  | .reset => some { s with point := .sleep, asked := false }
  | .sleep =>
    match s.queue with
    | [] => some { s with point := .asleep }
    | e :: es => some { s with point := .test, queue := es, seen := s.seen ++ [e] }
  | .asleep | .left => none

def deliver (loop : Loop σ) (s : State E) (x : σ) (here : Bool) : State E :=
  if loop.locks x && s.point.held then { s with dead := true }
  else
    { s with
      point := if here ∧ s.point = .asleep then .test else s.point
      stop := s.stop || loop.stops x
      asked := s.asked || loop.asks x }

def arrive (s : State E) (e : E) : State E :=
  if s.point = .asleep then { s with point := .test, seen := s.seen ++ [e] }
  else { s with queue := s.queue ++ [e] }

end State

def step (loop : Loop σ) (s : State E) : Label σ E → Option (State E)
  | .run => if s.dead then none else s.advance
  | .report lines =>
    if s.dead = false ∧ s.point = .check ∧ s.asked then
      some { s with point := .body none (loop.calls lines), shown := s.shown ++ [s.seen] }
    else none
  | .signal x here => if loop.locks x && !here then none else some (s.deliver loop x here)
  | .arrive e => some (s.arrive e)

def Label.own : Label σ E → Bool
  | .run | .report _ => true
  | _ => false

def Label.message : Label σ E → Option E
  | .arrive e => some e
  | _ => none

def Own (_ : State E) (l : Label σ E) : Prop := l.own = true

-- What the process comes to when it is left alone.
inductive Outcome
  | leaves
  | sleeps
  | stuck
deriving DecidableEq

def State.outcome (s : State E) : Outcome :=
  if s.dead then .stuck
  else if s.point = .left ∨ s.stop = true ∧ (s.point = .test ∨ s.queue ≠ []) then .leaves
  else .sleeps

-- A report is still to be started that shows what has been seen by then.
def State.reports (s : State E) : Bool :=
  !s.dead && s.asked &&
    (s.point = .check || !s.stop && (s.point = .test || s.point = .sleep && !s.queue.isEmpty))

def State.Ends (s : State E) : Outcome → Prop
  | .leaves => s.dead = false ∧ s.point = .left
  | .sleeps => s.dead = false ∧ s.point = .asleep
  | .stuck => s.dead = true

def Settles (loop : Loop σ) (s t : State E) : Prop :=
  Reachable (step loop) Own s t ∧ ∀ l : Label σ E, l.own = true → step loop t l = none

-- A message never finds the process asleep beside another one.
def State.Rested (s : State E) : Prop := s.point = .asleep → s.queue = []

variable {loop : Loop σ} {s t : State E}

inductive OwnMove (loop : Loop σ) (s : State E) : Label σ E → State E → Prop
  | leave (hpoint : s.point = .test) (hstop : s.stop = true) :
      OwnMove loop s .run { s with point := .left }
  | pass (hpoint : s.point = .test) (hstop : s.stop = false) :
      OwnMove loop s .run { s with point := .check }
  | skip (hpoint : s.point = .check) (hasked : s.asked = false) :
      OwnMove loop s .run { s with point := .sleep }
  | report {lines : ℕ} (hpoint : s.point = .check) (hasked : s.asked = true) :
      OwnMove loop s (.report lines)
        { s with point := .body none (loop.calls lines), shown := s.shown ++ [s.seen] }
  | lock {n : ℕ} {calls : List ℕ} (hpoint : s.point = .body none (n :: calls)) :
      OwnMove loop s .run { s with point := .body (some n) calls }
  | write {n : ℕ} {calls : List ℕ} (hpoint : s.point = .body (some (n + 1)) calls) :
      OwnMove loop s .run { s with point := .body (some n) calls }
  | unlock {calls : List ℕ} (hpoint : s.point = .body (some 0) calls) :
      OwnMove loop s .run { s with point := .body none calls }
  | finish (hpoint : s.point = .body none []) : OwnMove loop s .run { s with point := .reset }
  | reset (hpoint : s.point = .reset) :
      OwnMove loop s .run { s with point := .sleep, asked := false }
  | block (hpoint : s.point = .sleep) (hqueue : s.queue = []) :
      OwnMove loop s .run { s with point := .asleep }
  | take {e : E} {es : List E} (hpoint : s.point = .sleep) (hqueue : s.queue = e :: es) :
      OwnMove loop s .run { s with point := .test, queue := es, seen := s.seen ++ [e] }

theorem ownMove_of_advance (h : s.advance = some t) : OwnMove loop s .run t := by
  unfold State.advance at h
  split at h <;> rename_i hpoint
  · split at h <;> cases h
    · exact .leave hpoint ‹_›
    · exact .pass hpoint (Bool.not_eq_true _ ▸ ‹¬s.stop = true›)
  · split at h <;> cases h
    exact .skip hpoint (Bool.not_eq_true _ ▸ ‹¬s.asked = true›)
  · cases h
    exact .finish hpoint
  · cases h
    exact .lock hpoint
  · cases h
    exact .unlock hpoint
  · cases h
    exact .write hpoint
  · cases h
    exact .reset hpoint
  · split at h <;> cases h
    · exact .block hpoint ‹_›
    · exact .take hpoint ‹_›
  · cases h
  · cases h

theorem ownMove_of_step {l : Label σ E} (hown : l.own = true) (h : step loop s l = some t) :
    s.dead = false ∧ OwnMove loop s l t := by
  cases l with
  | run =>
    cases hdead : s.dead
    · rw [step, hdead] at h
      exact ⟨rfl, ownMove_of_advance h⟩
    · rw [step, hdead] at h
      cases h
  | report lines =>
    simp only [step, Option.ite_none_right_eq_some, Option.some.injEq] at h
    obtain ⟨⟨hdead, hpoint, hasked⟩, rfl⟩ := h
    exact ⟨hdead, .report hpoint hasked⟩
  | signal x here => cases hown
  | arrive e => cases hown

theorem OwnMove.outcome_eq {l : Label σ E} (h : OwnMove loop s l t) (hdead : s.dead = false) :
    t.outcome = s.outcome := by
  cases h <;> simp_all [State.outcome]

theorem OwnMove.reports_eq {l : Label σ E} (h : OwnMove loop s l t) (hdead : s.dead = false) :
    t.shown.length + t.reports.toNat = s.shown.length + s.reports.toNat := by
  cases h <;> simp_all [State.reports]

theorem OwnMove.arrived {l : Label σ E} (h : OwnMove loop s l t) :
    t.seen ++ t.queue = s.seen ++ s.queue := by
  cases h with
  | take hpoint hqueue => rw [hqueue, List.append_assoc, List.singleton_append]
  | _ => rfl

theorem OwnMove.rested {l : Label σ E} (h : OwnMove loop s l t) : t.Rested := by
  intro hasleep
  cases h with
  | block hpoint hqueue => exact hqueue
  | _ => cases hasleep

theorem Settles.keeps {I : State E → Prop} (h : Settles loop s t) (hs : I s)
    (hmove : ∀ {a l b}, a.dead = false → OwnMove loop a l b → I a → I b) : I t := by
  refine h.1.invariant hs ?_
  intro a l b ha hown hstep
  obtain ⟨hdead, hown⟩ := ownMove_of_step hown hstep
  exact hmove hdead hown ha

-- Where nothing of its own is left to do, the process is at one of three points.
theorem Settles.still (h : Settles loop s t) :
    t.dead = true ∨ t.dead = false ∧ (t.point = .left ∨ t.point = .asleep) := by
  cases hdead : t.dead
  · refine .inr ⟨rfl, ?_⟩
    have hrun := h.2 .run rfl
    have hreport := h.2 (.report 0) rfl
    simp only [step, hdead, Bool.false_eq_true, if_false] at hrun
    simp only [step, hdead, true_and, ite_eq_right_iff, reduceCtorEq, imp_false, not_and] at hreport
    unfold State.advance at hrun
    split at hrun <;> rename_i hpoint
    · split at hrun <;> cases hrun
    · split at hrun
      · exact absurd ‹_› (hreport hpoint)
      · cases hrun
    · cases hrun
    · cases hrun
    · cases hrun
    · cases hrun
    · cases hrun
    · split at hrun <;> cases hrun
    · exact .inr hpoint
    · exact .inl hpoint
  · exact .inl rfl

theorem Settles.ends (h : Settles loop s t) (hs : s.Rested) : t.Ends s.outcome := by
  have heq : t.outcome = s.outcome := h.keeps (I := fun u => u.outcome = s.outcome) rfl
    fun hdead hmove ha => (hmove.outcome_eq hdead).trans ha
  have hrested : t.Rested := h.keeps hs fun _ hmove _ => hmove.rested
  rw [← heq]
  obtain hdead | ⟨hdead, hleft | hasleep⟩ := h.still
  · rw [State.outcome, if_pos hdead]
    exact hdead
  · rw [State.outcome, if_neg (by simp [hdead]), if_pos (.inl hleft)]
    exact ⟨hdead, hleft⟩
  · have hqueue := hrested hasleep
    rw [State.outcome, if_neg (by simp [hdead]), if_neg (by simp [hasleep, hqueue])]
    exact ⟨hdead, hasleep⟩

theorem Settles.shown_eq (h : Settles loop s t) :
    t.shown.length = s.shown.length + s.reports.toNat := by
  have hnone : t.reports = false := by
    obtain hdead | ⟨-, hleft | hasleep⟩ := h.still
    · simp [State.reports, hdead]
    · simp [State.reports, hleft]
    · simp [State.reports, hasleep]
  have heq := h.keeps
    (I := fun u => u.shown.length + u.reports.toNat = s.shown.length + s.reports.toNat) rfl
    fun hdead hmove ha => (hmove.reports_eq hdead).trans ha
  rwa [hnone, Bool.toNat_false, Nat.add_zero] at heq

-- How many messages are still taken off the queue once the process is to stop.
def State.remaining (s : State E) : ℕ :=
  if s.dead = true ∨ s.point = .test ∨ s.point = .asleep ∨ s.point = .left then 0 else 1

theorem OwnMove.taken_eq {l : Label σ E} (h : OwnMove loop s l t) (hdead : s.dead = false)
    (hstop : s.stop = true) :
    t.stop = true ∧ t.seen ++ t.queue.take t.remaining = s.seen ++ s.queue.take s.remaining := by
  cases h <;> simp_all [State.remaining]

theorem Settles.seen_eq (h : Settles loop s t) (hstop : s.stop = true) :
    t.seen = s.seen ++ s.queue.take s.remaining := by
  have hkept := h.keeps (I := fun u => u.stop = true ∧
    u.seen ++ u.queue.take u.remaining = s.seen ++ s.queue.take s.remaining) ⟨hstop, rfl⟩
    fun hdead hmove ha => by
      obtain ⟨hstop', heq⟩ := hmove.taken_eq hdead ha.1
      exact ⟨hstop', heq.trans ha.2⟩
  have hzero : t.remaining = 0 := by
    obtain hdead | ⟨-, hleft | hasleep⟩ := h.still
    · rw [State.remaining, if_pos (.inl hdead)]
    · rw [State.remaining, if_pos (.inr (.inr (.inr hleft)))]
    · rw [State.remaining, if_pos (.inr (.inr (.inl hasleep)))]
  rw [hzero, List.take_zero, List.append_nil] at hkept
  exact hkept.2

def cost (calls : List ℕ) : ℕ := (calls.map (· + 2)).sum

def Point.weight : Point → ℕ
  | .test => 5
  | .check => 4
  | .body held calls => 3 + held.elim 0 (· + 1) + cost calls
  | .reset => 2
  | .sleep => 1
  | .asleep | .left => 0

def Point.answering : Point → Bool
  | .body _ _ | .reset => true
  | _ => false

def State.potential (loop : Loop σ) (s : State E) : ℕ :=
  s.point.weight + 5 * s.queue.length +
    (if s.asked && !s.point.answering then cost (loop.calls 0) else 0)

def Label.charge (loop : Loop σ) : Label σ E → ℕ
  | .run => 0
  | .report lines => cost (loop.calls lines) - cost (loop.calls 0)
  | .signal _ _ | .arrive _ => 5 + cost (loop.calls 0)

theorem OwnMove.potential_le {l : Label σ E} (h : OwnMove loop s l t) :
    t.potential loop + 1 ≤ s.potential loop + l.charge loop := by
  cases h <;> simp_all [State.potential, Point.weight, Point.answering, cost, Label.charge] <;>
    omega

theorem State.weight_le (s : State E) {p : Point}
    (hp : p = .test ∧ s.point = .asleep ∨ p = s.point) : p.weight ≤ s.point.weight + 5 := by
  obtain ⟨rfl, -⟩ | rfl := hp
  · exact Nat.le_add_left 5 _
  · exact Nat.le_add_right _ 5

theorem State.owed_le (loop : Loop σ) (s : State E) :
    (if s.asked && !s.point.answering then cost (loop.calls 0) else 0) ≤ cost (loop.calls 0) := by
  split
  · exact Nat.le_refl _
  · exact Nat.zero_le _

theorem paid : Paid (step (E := E) loop) (fun _ => True) (State.potential loop)
    (Label.charge loop) Label.own := by
  intro s l t _ h
  refine ⟨trivial, ?_⟩
  cases l with
  | run | report lines => exact (ownMove_of_step rfl h).2.potential_le
  | signal x here =>
    simp only [step, Option.ite_none_left_eq_some, Option.some.injEq] at h
    obtain ⟨-, rfl⟩ := h
    have howed := (s.deliver loop x here).owed_le loop
    have hweight : (s.deliver loop x here).point.weight ≤ s.point.weight + 5 := by
      refine s.weight_le ?_
      unfold State.deliver
      split
      · exact .inr rfl
      · dsimp only
        split
        · exact .inl ⟨rfl, (‹_ ∧ _› : here = true ∧ s.point = .asleep).2⟩
        · exact .inr rfl
    have hqueue : (s.deliver loop x here).queue = s.queue := by
      unfold State.deliver
      split <;> rfl
    simp only [State.potential, Label.charge, Label.own, hqueue, Bool.toNat_false]
    omega
  | arrive e =>
    obtain rfl := Option.some.inj h
    have howed := (s.arrive e).owed_le loop
    unfold State.arrive at howed ⊢
    split at howed
    · rename_i hasleep
      rw [if_pos hasleep]
      simp only [State.potential, Label.charge, Label.own, Point.weight, Bool.toNat_false]
        at howed ⊢
      omega
    · rename_i hawake
      rw [if_neg hawake]
      simp only [State.potential, Label.charge, Label.own, List.length_append,
        List.length_singleton, Bool.toNat_false] at howed ⊢
      omega

-- Left alone the process starts one report at most and gets to an end.
theorem terminates (s : State E) : Terminates (step loop) Own s := by
  refine terminates_of_decreasing (fun s => s.reports.toNat) (State.potential loop) ?_ s
  intro s l t hown hstep
  obtain ⟨hdead, hmove⟩ := ownMove_of_step hown hstep
  have hreports := hmove.reports_eq hdead
  have hpotential := hmove.potential_le
  cases l with
  | run =>
    have hshown : s.shown.length ≤ t.shown.length := by cases hmove <;> exact Nat.le_refl _
    have hle : t.reports.toNat ≤ s.reports.toNat := by omega
    rw [Label.charge] at hpotential
    rcases Nat.lt_or_eq_of_le hle with hlt | heq
    · exact .inl hlt
    · exact .inr ⟨heq, by omega⟩
  | report lines =>
    cases hmove
    rw [List.length_append, List.length_singleton] at hreports
    exact .inl (by omega)
  | signal x here => cases hown
  | arrive e => cases hown

def First (_ : State E) (l : Label σ E) : Prop := l = .run ∨ l = .report 0

theorem exists_settles (s : State E) : ∃ t, Settles loop s t := by
  have hfirst : ∃ t, Reachable (step loop) First s t ∧
      ∀ l, First t l → step loop t l = none := by
    refine paid.exists_rest ?_ trivial
    rintro - l (rfl | rfl)
    · exact ⟨rfl, rfl⟩
    · exact ⟨rfl, Nat.sub_self _⟩
  obtain ⟨t, ht, hrest⟩ := hfirst
  refine ⟨t, ht.mono ?_, ?_⟩
  · rintro a l (rfl | rfl) <;> rfl
  · intro l hown
    cases l with
    | run => exact hrest .run (.inl rfl)
    | report lines =>
      have hzero := hrest (.report 0) (.inr rfl)
      rw [step, ite_eq_right_iff] at hzero ⊢
      exact fun hcan => absurd (hzero hcan) (Option.some_ne_none _)
    | signal x here => cases hown
    | arrive e => cases hown

theorem Rested.deliver (h : s.Rested) (x : σ) (here : Bool) :
    (s.deliver loop x here).Rested := by
  unfold State.deliver
  split
  · exact h
  · intro hasleep
    dsimp only at hasleep
    split at hasleep
    · cases hasleep
    · exact h hasleep

theorem arrived_step {l : Label σ E} (hs : s.Rested) (h : step loop s l = some t) :
    t.Rested ∧ t.seen ++ t.queue = s.seen ++ s.queue ++ l.message.toList := by
  cases l with
  | run | report lines =>
    obtain ⟨-, hmove⟩ := ownMove_of_step rfl h
    exact ⟨hmove.rested, hmove.arrived.trans (List.append_nil _).symm⟩
  | signal x here =>
    simp only [step, Option.ite_none_left_eq_some, Option.some.injEq] at h
    obtain ⟨-, rfl⟩ := h
    refine ⟨Rested.deliver hs x here, ?_⟩
    unfold State.deliver
    split <;> exact (List.append_nil _).symm
  | arrive e =>
    obtain rfl := Option.some.inj h
    unfold State.arrive
    split
    · rename_i hasleep
      refine ⟨fun h => Point.noConfusion h, ?_⟩
      rw [hs hasleep, List.append_nil, List.append_nil]
      rfl
    · rename_i hawake
      exact ⟨fun h => absurd h hawake, (List.append_assoc ..).symm⟩

theorem arrived_of_run {ls : List (Label σ E)} (hs : s.Rested)
    (h : run (step loop) s ls = some t) :
    t.Rested ∧ t.seen ++ t.queue = s.seen ++ s.queue ++ ls.filterMap Label.message := by
  induction ls generalizing s with
  | nil =>
    obtain rfl := Option.some.inj h
    exact ⟨hs, (List.append_nil _).symm⟩
  | cons l ls ih =>
    obtain ⟨u, hu, ht⟩ := Option.bind_eq_some_iff.mp h
    obtain ⟨hrested, harrived⟩ := arrived_step hs hu
    obtain ⟨hend, hmessages⟩ := ih hrested ht
    refine ⟨hend, ?_⟩
    rw [hmessages, harrived, List.append_assoc]
    cases l <;> rfl

theorem alive_of_reachable (hlocks : ∀ x, loop.locks x = false)
    (h : Reachable (step loop) always State.init s) : s.dead = false := by
  refine h.invariant (I := fun u => u.dead = false) rfl ?_
  intro a l b ha _ hstep
  cases l with
  | run | report lines =>
    cases (ownMove_of_step rfl hstep).2 <;> exact ha
  | signal x here =>
    simp only [step, Option.ite_none_left_eq_some, Option.some.injEq] at hstep
    obtain ⟨-, rfl⟩ := hstep
    rw [State.deliver, hlocks, Bool.false_and, if_neg Bool.false_ne_true]
    exact ha
  | arrive e =>
    obtain rfl := Option.some.inj hstep
    unfold State.arrive
    split <;> exact ha

section Deliver

variable (s) (x : σ) (here : Bool)

theorem deliver_of_caught (h : loop.locks x = true ∧ s.point.held = true) :
    s.deliver loop x here = { s with dead := true } := by
  rw [State.deliver, if_pos (by rw [h.1, h.2]; rfl)]

theorem deliver_of_free (h : ¬(loop.locks x = true ∧ s.point.held = true)) :
    s.deliver loop x here = { s with
      point := if here ∧ s.point = .asleep then .test else s.point
      stop := s.stop || loop.stops x
      asked := s.asked || loop.asks x } := by
  rw [State.deliver, if_neg (by rwa [Bool.and_eq_true])]

theorem deliver_outcome : (s.deliver loop x here).outcome =
    if s.dead = true ∨ loop.locks x = true ∧ s.point.held = true then .stuck
    else if s.point = .left ∨ (s.stop = true ∨ loop.stops x = true) ∧
      (s.point = .test ∨ here = true ∧ s.point = .asleep ∨ s.queue ≠ []) then .leaves
    else .sleeps := by
  by_cases hcaught : loop.locks x = true ∧ s.point.held = true
  · rw [deliver_of_caught s x here hcaught, if_pos (.inr hcaught)]
    rfl
  · rw [deliver_of_free s x here hcaught]
    by_cases hwakes : here = true ∧ s.point = .asleep
    · simp [State.outcome, hwakes, Point.held]
    · simp [State.outcome, hwakes, hcaught]

theorem deliver_reports : (s.deliver loop x here).reports = true ↔
    ¬(s.dead = true ∨ loop.locks x = true ∧ s.point.held = true) ∧
      (s.asked = true ∨ loop.asks x = true) ∧
      (s.point = .check ∨ (s.stop = false ∧ loop.stops x = false) ∧
        (s.point = .test ∨ here = true ∧ s.point = .asleep ∨ s.point = .sleep ∧ s.queue ≠ [])) := by
  by_cases hcaught : loop.locks x = true ∧ s.point.held = true
  · rw [deliver_of_caught s x here hcaught]
    simp [State.reports, hcaught]
  · rw [deliver_of_free s x here hcaught]
    by_cases hwakes : here = true ∧ s.point = .asleep
    · simp [State.reports, hwakes, Point.held, and_assoc]
    · simp [State.reports, hwakes, hcaught, and_assoc]

theorem deliver_shown : (s.deliver loop x here).shown = s.shown := by
  unfold State.deliver
  split <;> rfl

variable {s x here}

theorem Settles.after_signal (hs : s.Rested) (h : Settles loop (s.deliver loop x here) t) :
    t.Ends (if s.dead = true ∨ loop.locks x = true ∧ s.point.held = true then .stuck
      else if s.point = .left ∨ (s.stop = true ∨ loop.stops x = true) ∧
        (s.point = .test ∨ here = true ∧ s.point = .asleep ∨ s.queue ≠ []) then .leaves
      else .sleeps) := by
  rw [← deliver_outcome]
  exact h.ends (Rested.deliver hs x here)

theorem Settles.answered_iff (h : Settles loop (s.deliver loop x here) t) :
    t.shown.length = s.shown.length + 1 ↔
      ¬(s.dead = true ∨ loop.locks x = true ∧ s.point.held = true) ∧
        (s.asked = true ∨ loop.asks x = true) ∧
        (s.point = .check ∨ (s.stop = false ∧ loop.stops x = false) ∧
          (s.point = .test ∨ here = true ∧ s.point = .asleep ∨
            s.point = .sleep ∧ s.queue ≠ [])) := by
  rw [← deliver_reports, h.shown_eq, deliver_shown]
  cases (s.deliver loop x here).reports <;> simp

-- Of the messages that wait, one at most is still taken.
theorem Settles.taken_after (h : Settles loop (s.deliver loop x true) t)
    (hstop : loop.stops x = true) (hfree : ¬(loop.locks x = true ∧ s.point.held = true)) :
    t.seen = s.seen ++ s.queue.take s.remaining ∧ t.queue = s.queue.drop s.remaining := by
  have hdeliver := deliver_of_free s x true hfree
  have hremaining : (s.deliver loop x true).remaining = s.remaining := by
    rw [hdeliver]
    by_cases hasleep : s.point = .asleep <;> simp [State.remaining, hasleep]
  have hseen := h.seen_eq (by rw [hdeliver]; simp [hstop])
  have hkept := h.keeps (I := fun u => u.seen ++ u.queue = s.seen ++ s.queue)
    (by rw [hdeliver]) fun _ hmove ha => hmove.arrived.trans ha
  rw [hremaining, hdeliver] at hseen
  refine ⟨hseen, ?_⟩
  rw [hseen, List.append_assoc] at hkept
  have hcancel := List.append_cancel_left hkept
  exact List.append_cancel_left (hcancel.trans (List.take_append_drop s.remaining s.queue).symm)

end Deliver

end SignalLoop
