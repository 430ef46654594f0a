import DeiChain.ScalingLaws

namespace DeiChain

open Transition

inductive ProcessName
  | miner
  | statistics
  | validator (i : ℕ)
deriving DecidableEq

-- In cleanup_resources a process is sent SIGTERM and waited for before the next one is signalled.
inductive ControllerPoint
  | running
  | killing (todo : List ProcessName)
  | waiting (p : ProcessName) (todo : List ProcessName)
  | destroyed
deriving DecidableEq

-- The last three fields are history: the processes alive when the controller was told to
-- terminate or created later, those sent SIGTERM and those waited for.
structure Simulation where
  miner : Bool
  statistics : Bool
  validators : Validators
  controller : ControllerPoint
  bound : List ProcessName
  signalled : List ProcessName
  waited : List ProcessName
deriving DecidableEq

inductive ShutdownLabel
  | validators (l : ScalingLabel)
  | minerExits
  | statisticsExits
  | terminate
  | kill
  | waited
  | interrupted
  | destroy

def aliveAt (s : Validators) (i : ℕ) : Bool := (s.processes[i]?).any ValidatorProcess.alive

def createdPids : List ProcessName := [.miner, .validator 0, .statistics]

namespace ControllerPoint

def pending : ControllerPoint → List ProcessName
  | .killing todo => todo
  | .waiting p todo => p :: todo
  | _ => []

end ControllerPoint

namespace Simulation

def start (clock : ℤ) : Simulation := ⟨true, true, .start clock, .running, [], [], []⟩

def alive (s : Simulation) : ProcessName → Bool
  | .miner => s.miner
  | .statistics => s.statistics
  | .validator i => aliveAt s.validators i

def names (s : Simulation) : List ProcessName :=
  .miner :: .statistics :: (List.range s.validators.processes.length).map .validator

def signal (s : Simulation) : ProcessName → Option Validators
  | .validator i => s.validators.step (.process i .signal)
  | _ => some s.validators

def created (s : Simulation) (l : ScalingLabel) : List ProcessName :=
  if s.controller ≠ .running ∧ (creation s.validators l).isSome then
    [.validator s.validators.processes.length]
  else []

def step (s : Simulation) : ShutdownLabel → Option Simulation
  | .validators l =>
    (s.validators.step l).map (fun v => { s with validators := v, bound := s.created l ++ s.bound })
  | .minerExits => some { s with miner := false }
  | .statisticsExits => some { s with statistics := false }
  | .terminate =>
    match s.controller with
    | .running =>
      some { s with controller := .killing createdPids, bound := s.names.filter s.alive }
    | _ => none
  | .kill =>
    match s.controller with
    | .killing (p :: todo) => (s.signal p).map (fun v =>
        { s with validators := v, controller := .waiting p todo, signalled := p :: s.signalled })
    | _ => none
  | .waited =>
    match s.controller with
    | .waiting p todo =>
      if s.alive p then none
      else some { s with controller := .killing todo, waited := p :: s.waited }
    | _ => none
  | .interrupted =>
    match s.controller with
    | .waiting p todo => if s.alive p then some { s with controller := .killing todo } else none
    | _ => none
  | .destroy =>
    match s.controller with
    | .killing [] => some { s with controller := .destroyed }
    | _ => none

end Simulation

def Orderly (s : Simulation) : ShutdownLabel → Prop
  | .terminate => ∀ i ∈ List.range s.validators.processes.length, aliveAt s.validators i = true →
      i = 0
  | .validators l => s.created l = []
  | .interrupted => False
  | _ => True

instance (s : Simulation) (l : ShutdownLabel) : Decidable (Orderly s l) :=
  match l with
  | .terminate => inferInstanceAs (Decidable (∀ i ∈ List.range _, _ → i = 0))
  | .validators l => inferInstanceAs (Decidable (s.created l = []))
  | .interrupted => isFalse (fun h => h)
  | .minerExits | .statisticsExits | .kill | .waited | .destroy => isTrue trivial

theorem aliveAt_split {s : Validators} {pre post : List ValidatorProcess} {p p' : ValidatorProcess}
    (hs : s.processes = pre ++ p :: post) (halive : p'.alive = true → p.alive = true) {i : ℕ}
    {q : ValidatorProcess} (hq : (pre ++ p' :: post)[i]? = some q) (hlive : q.alive = true) :
    aliveAt s i = true := by
  refine (Option.any_eq_true ..).mpr ?_
  rw [hs]
  rcases Places.getElem?_replace p hq with ⟨rfl, rfl⟩ | hold
  · exact ⟨p, by simp, halive hlive⟩
  · exact ⟨q, hold, hlive⟩

theorem aliveAt_step {s t : Validators} {l : ScalingLabel} (h : s.step l = some t) {i : ℕ}
    (halive : aliveAt t i = true) :
    aliveAt s i = true ∨ ((creation s l).isSome = true ∧ i = s.processes.length) := by
  obtain ⟨q, hq, hlive⟩ := (Option.any_eq_true ..).mp halive
  cases scalingMove_of_step h with
  | tick => exact .inl halive
  | @moved a pre post p p' hs hmove =>
    obtain ⟨-, hends, -⟩ := hmove
    refine .inl (aliveAt_split hs (fun hp' => ?_) hq hlive)
    rw [hends, Bool.and_eq_true] at hp'
    exact hp'.1
  | @created a pre post p p' c hs hmove =>
    obtain - | @⟨occupancy, newId, hpoint, hsignal, hid⟩ := hmove
    have hold := @aliveAt_split s pre post p ((p.parentOf s.clock).goto .exitTest) hs
      (fun _ => alive_of_point hpoint (by decide)) i q
    rw [← List.cons_append, ← List.append_assoc] at hq
    rcases Nat.lt_or_ge i s.processes.length with hlt | hge
    · rw [hs] at hlt
      rw [List.getElem?_append_left (by simpa using hlt)] at hq
      exact .inl (hold hq hlive)
    · refine .inr ⟨by rw [creation_created hs hpoint hsignal hid]; rfl, ?_⟩
      obtain ⟨hlt, -⟩ := List.getElem?_eq_some_iff.mp hq
      rw [hs] at hge ⊢
      simp only [List.length_append, List.length_cons, List.length_nil] at hlt hge ⊢
      omega

theorem processes_length_le {s t : Validators} {l : ScalingLabel} (h : s.step l = some t) :
    s.processes.length ≤ t.processes.length := by
  cases scalingMove_of_step h with
  | tick => exact Nat.le_refl _
  | moved hs hmove => simp [hs]
  | created hs hmove => simp [hs]

structure ShutdownInvariant (s : Simulation) : Prop where
  primary : 0 < s.validators.processes.length
  quiet : s.controller = .running → s.bound = [] ∧ s.waited = []
  distinct : (s.waited ++ s.controller.pending).Nodup
  pids : ∀ p ∈ s.waited ++ s.controller.pending, p ∈ createdPids
  sent : ∀ p ∈ s.waited, p ∈ s.signalled
  current : ∀ p todo, s.controller = .waiting p todo → p ∈ s.signalled
  seen : s.controller ≠ .running → ∀ p, s.alive p = true → p ∈ s.bound

-- Nothing that uses the resources has been left out so far.
def Settled (s : Simulation) : Prop := ∀ p ∈ s.bound, p ∈ s.waited ++ s.controller.pending

theorem shutdownInvariant_start (clock : ℤ) : ShutdownInvariant (.start clock) where
  primary := Nat.one_pos
  quiet _ := ⟨rfl, rfl⟩
  distinct := List.nodup_nil
  pids p hp := by cases hp
  sent p hp := by cases hp
  current p todo h := by cases h
  seen h := absurd rfl h

theorem settled_congr {s t : Simulation} (hbound : t.bound = s.bound)
    (hpids : ∀ p, p ∈ t.waited ++ t.controller.pending ↔ p ∈ s.waited ++ s.controller.pending) :
    Settled t ↔ Settled s := by
  unfold Settled
  simp only [hbound, hpids]

theorem created_eq {s : Simulation} {l : ScalingLabel} :
    s.created l = [] ∨ (s.controller ≠ .running ∧
      s.created l = [.validator s.validators.processes.length]) := by
  unfold Simulation.created
  split
  · rename_i h
    exact .inr ⟨h.1, rfl⟩
  · exact .inl rfl

theorem not_mem_createdPids {s : Simulation} (h : ShutdownInvariant s) :
    .validator s.validators.processes.length ∉ createdPids := by
  have hpos := h.primary
  simp only [createdPids, List.mem_cons, ProcessName.validator.injEq, reduceCtorEq,
    List.not_mem_nil, false_or, or_false]
  omega

theorem shutdown_validators {s t : Simulation} {l : ScalingLabel} (hs : ShutdownInvariant s)
    (h : s.step (.validators l) = some t) :
    ShutdownInvariant t ∧ (Settled t ↔ Settled s ∧ Orderly s (.validators l)) := by
  obtain ⟨v, hv, rfl⟩ := Option.map_eq_some_iff.mp h
  refine ⟨⟨Nat.lt_of_lt_of_le hs.primary (processes_length_le hv), fun hrun => ?_, hs.distinct,
    hs.pids, hs.sent, hs.current, fun hstop p hp => ?_⟩, ?_⟩
  · have hnone : s.created l = [] := if_neg (fun h => h.1 hrun)
    refine ⟨?_, (hs.quiet hrun).2⟩
    rw [hnone]
    exact (hs.quiet hrun).1
  · cases p with
    | validator i =>
      rcases aliveAt_step hv hp with hold | ⟨hnew, rfl⟩
      · exact List.mem_append_right _ (hs.seen hstop _ hold)
      · refine List.mem_append_left _ ?_
        rw [Simulation.created, if_pos ⟨hstop, hnew⟩]
        exact List.mem_singleton_self _
    | _ => exact List.mem_append_right _ (hs.seen hstop _ hp)
  · change Settled _ ↔ Settled s ∧ s.created l = []
    rcases created_eq with hnone | ⟨-, hone⟩
    · rw [and_iff_left hnone]
      exact settled_congr (by rw [hnone]; rfl) (fun _ => Iff.rfl)
    · refine iff_of_false (fun hall => ?_) (fun hall => ?_)
      · have hmem := hall (.validator s.validators.processes.length)
          (List.mem_append_left _ (by rw [hone]; exact List.mem_singleton_self _))
        exact not_mem_createdPids hs (hs.pids _ hmem)
      · rw [hall.2] at hone
        cases hone

theorem shutdown_exit {s t : Simulation} {l : ShutdownLabel} (hs : ShutdownInvariant s)
    (hv : t.validators = s.validators) (hc : t.controller = s.controller)
    (hb : t.bound = s.bound) (hsig : t.signalled = s.signalled) (hw : t.waited = s.waited)
    (halive : ∀ p, t.alive p = true → s.alive p = true) (horderly : Orderly s l) :
    ShutdownInvariant t ∧ (Settled t ↔ Settled s ∧ Orderly s l) := by
  refine ⟨⟨hv ▸ hs.primary, ?_, ?_, ?_, ?_, ?_, ?_⟩, ?_⟩
  · rw [hc, hb, hw]
    exact hs.quiet
  · rw [hw, hc]
    exact hs.distinct
  · rw [hw, hc]
    exact hs.pids
  · rw [hw, hsig]
    exact hs.sent
  · rw [hc, hsig]
    exact hs.current
  · rw [hc, hb]
    exact fun hstop p hp => hs.seen hstop p (halive p hp)
  · rw [and_iff_left horderly]
    exact settled_congr hb (fun p => by rw [hw, hc])

theorem shutdown_terminate {s t : Simulation} (hs : ShutdownInvariant s)
    (h : s.step .terminate = some t) :
    ShutdownInvariant t ∧ (Settled t ↔ Settled s ∧ Orderly s .terminate) := by
  simp only [Simulation.step] at h
  split at h
  · rename_i hrun
    obtain ⟨hbound, hwaited⟩ := hs.quiet hrun
    obtain rfl := Option.some.inj h
    have hpids : ∀ p, p ∈ s.waited ++ createdPids ↔ p ∈ createdPids := by simp [hwaited]
    have hsettled : Settled s := by simp [Settled, hbound]
    refine ⟨⟨hs.primary, nofun, ?_, fun p => (hpids p).mp, hs.sent,
      nofun, fun _ p hp => ?_⟩, ?_⟩
    · change (s.waited ++ createdPids).Nodup
      rw [hwaited]
      decide
    · refine List.mem_filter.mpr ⟨?_, hp⟩
      cases p with
      | miner => exact List.mem_cons_self
      | statistics => exact List.mem_cons_of_mem _ List.mem_cons_self
      | validator i =>
        obtain ⟨q, hq, -⟩ := (Option.any_eq_true ..).mp hp
        obtain ⟨hlt, -⟩ := List.getElem?_eq_some_iff.mp hq
        exact List.mem_cons_of_mem _ (List.mem_cons_of_mem _
          (List.mem_map_of_mem (List.mem_range.mpr hlt)))
    · rw [and_iff_right hsettled]
      constructor
      · intro hall i hi halive
        have hmem := (hpids _).mp (hall (.validator i) (List.mem_filter.mpr
          ⟨List.mem_cons_of_mem _ (List.mem_cons_of_mem _ (List.mem_map_of_mem hi)), halive⟩))
        simpa [createdPids] using hmem
      · intro horderly p hp
        obtain ⟨hname, halive⟩ := List.mem_filter.mp hp
        refine (hpids p).mpr ?_
        rcases List.mem_cons.mp hname with rfl | hname
        · decide
        · rcases List.mem_cons.mp hname with rfl | hname
          · decide
          · obtain ⟨i, hi, rfl⟩ := List.mem_map.mp hname
            rw [horderly i hi halive]
            decide
  · cases h

theorem signal_alive {s : Simulation} {p : ProcessName} {v : Validators}
    (h : s.signal p = some v) :
    s.validators.processes.length ≤ v.processes.length ∧
      ∀ i, aliveAt v i = true → aliveAt s.validators i = true := by
  cases p with
  | validator j =>
    have hstep : s.validators.step (.process j .signal) = some v := h
    refine ⟨processes_length_le hstep, fun i hi => ?_⟩
    rcases aliveAt_step hstep hi with hold | ⟨hnew, -⟩
    · exact hold
    · cases hnew
  | _ =>
    obtain rfl := Option.some.inj h
    exact ⟨Nat.le_refl _, fun _ hi => hi⟩

theorem shutdown_kill {s t : Simulation} (hs : ShutdownInvariant s) (h : s.step .kill = some t) :
    ShutdownInvariant t ∧ (Settled t ↔ Settled s ∧ Orderly s .kill) := by
  simp only [Simulation.step] at h
  split at h
  · rename_i q todo hkill
    obtain ⟨v, hv, rfl⟩ := Option.map_eq_some_iff.mp h
    obtain ⟨hlen, halive⟩ := signal_alive hv
    have hpending : s.controller.pending = q :: todo := by rw [hkill]; rfl
    have hdistinct := hs.distinct
    have hpids := hs.pids
    rw [hpending] at hdistinct hpids
    refine ⟨⟨Nat.lt_of_lt_of_le hs.primary hlen, nofun, hdistinct, hpids,
      fun p hp => List.mem_cons_of_mem _ (hs.sent p hp), ?_, fun _ p hp => ?_⟩, ?_⟩
    · rintro p rest hpoint
      cases hpoint
      exact List.mem_cons_self
    · refine hs.seen (by rw [hkill]; simp) p ?_
      cases p with
      | validator i => exact halive i hp
      | _ => exact hp
    · rw [and_iff_left (show Orderly s .kill from trivial)]
      exact settled_congr rfl (fun p => by rw [hpending]; rfl)
  · cases h

theorem shutdown_waited {s t : Simulation} (hs : ShutdownInvariant s)
    (h : s.step .waited = some t) :
    ShutdownInvariant t ∧ (Settled t ↔ Settled s ∧ Orderly s .waited) := by
  simp only [Simulation.step] at h
  split at h
  · rename_i q todo hwait
    split at h
    · cases h
    · obtain rfl := Option.some.inj h
      have hpending : s.controller.pending = q :: todo := by rw [hwait]; rfl
      have hperm : (q :: s.waited ++ todo).Perm (s.waited ++ s.controller.pending) := by
        rw [hpending]
        exact List.perm_middle.symm
      refine ⟨⟨hs.primary, nofun, hperm.nodup_iff.mpr hs.distinct,
        fun p hp => hs.pids p (hperm.mem_iff.mp hp), ?_, nofun,
        fun _ p hp => hs.seen (by rw [hwait]; simp) p ?_⟩, ?_⟩
      · exact List.forall_mem_cons.mpr ⟨hs.current q todo hwait, hs.sent⟩
      · exact hp
      · rw [and_iff_left (show Orderly s .waited from trivial)]
        exact settled_congr rfl (fun p => hperm.mem_iff)
  · cases h

theorem shutdown_interrupted {s t : Simulation} (hs : ShutdownInvariant s)
    (h : s.step .interrupted = some t) :
    ShutdownInvariant t ∧ (Settled t ↔ Settled s ∧ Orderly s .interrupted) := by
  simp only [Simulation.step] at h
  split at h
  · rename_i q todo hwait
    split at h
    · rename_i halive
      obtain rfl := Option.some.inj h
      have hpending : s.controller.pending = q :: todo := by rw [hwait]; rfl
      have hperm : (q :: (s.waited ++ todo)).Perm (s.waited ++ s.controller.pending) := by
        rw [hpending]
        exact List.perm_middle.symm
      have hseen := hs.seen (by rw [hwait]; simp)
      obtain ⟨hnot, hnodup⟩ := List.nodup_cons.mp (hperm.nodup_iff.mpr hs.distinct)
      refine ⟨⟨hs.primary, nofun, hnodup,
        fun p hp => hs.pids p (hperm.mem_iff.mp (List.mem_cons_of_mem _ hp)), hs.sent,
        nofun, fun _ => hseen⟩, ?_⟩
      exact iff_of_false (fun hall => hnot (hall q (hseen q halive))) (fun h => h.2)
    · cases h
  · cases h

theorem shutdown_destroy {s t : Simulation} (hs : ShutdownInvariant s)
    (h : s.step .destroy = some t) :
    ShutdownInvariant t ∧ (Settled t ↔ Settled s ∧ Orderly s .destroy) := by
  simp only [Simulation.step] at h
  split at h
  · rename_i hkill
    obtain rfl := Option.some.inj h
    have hpending : s.controller.pending = [] := by rw [hkill]; rfl
    have hdistinct := hs.distinct
    have hpids := hs.pids
    rw [hpending] at hdistinct hpids
    refine ⟨⟨hs.primary, nofun, hdistinct, hpids, hs.sent,
      nofun, fun _ => hs.seen (by rw [hkill]; simp)⟩, ?_⟩
    rw [and_iff_left (show Orderly s .destroy from trivial)]
    exact settled_congr rfl (fun p => by rw [hpending]; rfl)
  · cases h

theorem shutdown_step {s t : Simulation} {l : ShutdownLabel} (hs : ShutdownInvariant s)
    (h : s.step l = some t) : ShutdownInvariant t ∧ (Settled t ↔ Settled s ∧ Orderly s l) := by
  cases l with
  | validators l => exact shutdown_validators hs h
  | minerExits =>
    cases h
    refine shutdown_exit hs rfl rfl rfl rfl rfl (fun p hp => ?_) trivial
    cases p with
    | miner => cases hp
    | _ => exact hp
  | statisticsExits =>
    cases h
    refine shutdown_exit hs rfl rfl rfl rfl rfl (fun p hp => ?_) trivial
    cases p with
    | statistics => cases hp
    | _ => exact hp
  | terminate => exact shutdown_terminate hs h
  | kill => exact shutdown_kill hs h
  | waited => exact shutdown_waited hs h
  | interrupted => exact shutdown_interrupted hs h
  | destroy => exact shutdown_destroy hs h

theorem destroyed_iff_settled {s : Simulation} (hs : ShutdownInvariant s)
    (hend : s.controller = .destroyed) :
    (∀ p ∈ s.bound, p ∈ s.signalled ∧ p ∈ s.waited) ↔ Settled s := by
  have hpending : s.controller.pending = [] := by rw [hend]; rfl
  unfold Settled
  rw [hpending, List.append_nil]
  exact ⟨fun hall p hp => (hall p hp).2, fun hall p hp => ⟨hs.sent p (hall p hp), hall p hp⟩⟩

theorem nothing_destroyed_in_use_iff {clock : ℤ} {ls : List ShutdownLabel} {s : Simulation}
    (hrun : run Simulation.step (.start clock) ls = some s) (hend : s.controller = .destroyed) :
    (∀ p ∈ s.bound, p ∈ s.signalled ∧ p ∈ s.waited) ↔
      runAllowed Simulation.step Orderly (.start clock) ls = some s := by
  have hinv : ShutdownInvariant s := by
    refine (reachable_of_run hrun).invariant (shutdownInvariant_start clock) ?_
    exact fun a l b ha _ hstep => (shutdown_step ha hstep).1
  rw [destroyed_iff_settled hinv hend]
  exact flag_iff_runAllowed (I := ShutdownInvariant) (fun a l b ha hstep => shutdown_step ha hstep)
    (shutdownInvariant_start clock) (fun p hp => by cases hp) hrun

namespace Sample

def stop (last : List ScalingLabel) : List ShutdownLabel :=
  [.terminate, .kill, .minerExits, .waited, .kill] ++ last.map .validators ++
    [.waited, .kill, .statisticsExits, .waited, .destroy]

end Sample

theorem nothing_destroyed_in_use_alone :
    ∃ s : Simulation, s.controller = .destroyed ∧ s.bound = [.miner, .statistics, .validator 0] ∧
      ∀ p ∈ s.bound, p ∈ s.signalled ∧ p ∈ s.waited := by
  let labels := Sample.stop [.process 0 (.manage 90 .created)]
  have hrun : (run Simulation.step (.start 5) labels).any (fun s => decide
      (s.controller = .destroyed ∧ s.bound = [.miner, .statistics, .validator 0] ∧
        runAllowed Simulation.step Orderly (.start 5) labels = some s)) = true := by
    decide
  obtain ⟨s, hs, hdecide⟩ := (Option.any_eq_true ..).mp hrun
  obtain ⟨hend, hbound, horderly⟩ := of_decide_eq_true hdecide
  exact ⟨s, hend, hbound, (nothing_destroyed_in_use_iff hs hend).mpr horderly⟩

theorem destroyed_under_a_validator :
    ∃ s : Simulation, Reachable Simulation.step always (.start 5) s ∧ s.controller = .destroyed ∧
      s.alive (.validator 1) = true ∧ .validator 1 ∈ s.bound ∧ .validator 1 ∉ s.signalled ∧
        .validator 1 ∉ s.waited := by
  have hrun : (run Simulation.step (.start 5)
      ((Sample.turn 0 85).map .validators ++ Sample.stop [.process 0 (.manage 85 .failed)])).any
        (fun s => decide (s.controller = .destroyed ∧ s.alive (.validator 1) = true ∧
          .validator 1 ∈ s.bound ∧ .validator 1 ∉ s.signalled ∧ .validator 1 ∉ s.waited)) =
      true := by
    decide
  obtain ⟨s, hs, hend⟩ := (Option.any_eq_true ..).mp hrun
  exact ⟨s, reachable_of_run hs, of_decide_eq_true hend⟩

end DeiChain
