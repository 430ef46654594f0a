import DeiChain.Library.SignalLoop
import DeiChain.Offsets
import DeiChain.StatisticsReport

namespace DeiChain

open Transition
open SignalLoop (Loop Own Settles exists_settles)

inductive ControllerSignal
  | sigint
  | sigusr1
deriving DecidableEq

inductive MinerSignal
  | sigterm
  | sigint
deriving DecidableEq

inductive StatisticsSignal
  | sigterm
  | sigint
  | sigusr1
deriving DecidableEq

-- signal_handler logs before it sets should_terminate. dump_ledger is one call of the logger.
def controllerMain : Loop ControllerSignal where
  stops x := x = .sigint
  asks x := x = .sigusr1
  locks x := x = .sigint
  calls lines := [lines]

def minerMain : Loop MinerSignal where
  stops _ := true
  asks _ := false
  locks _ := false
  calls _ := []

-- Here the handler of SIGUSR1 logs. The report comes after a line that announces it.
def statisticsLoopMain : Loop StatisticsSignal where
  stops x := x ≠ .sigusr1
  asks x := x = .sigusr1
  locks x := x = .sigusr1
  calls lines := [1, lines]

-- pause is ended by signals only, so nothing is ever queued for the controller and the miner.
abbrev PausingState := SignalLoop.State Empty

theorem PausingState.queue_eq (s : PausingState) : s.queue = [] :=
  List.eq_nil_iff_forall_not_mem.mpr fun e => e.elim

theorem controller_after_signal (s : PausingState) (x : ControllerSignal) :
    Terminates (SignalLoop.step controllerMain) Own (s.deliver controllerMain x true) ∧
      (∃ t, Settles controllerMain (s.deliver controllerMain x true) t) ∧
      ∀ t, Settles controllerMain (s.deliver controllerMain x true) t →
        t.Ends (if s.dead = true ∨ x = .sigint ∧ s.point.held = true then .stuck
          else if s.point = .left ∨ (s.stop = true ∨ x = .sigint) ∧
            (s.point = .test ∨ s.point = .asleep) then .leaves
          else .sleeps) ∧
        (t.shown.length = s.shown.length + 1 ↔
          ¬(s.dead = true ∨ x = .sigint ∧ s.point.held = true) ∧
            (s.asked = true ∨ x = .sigusr1) ∧ (s.point = .check ∨
              (s.stop = false ∧ x = .sigusr1) ∧ (s.point = .test ∨ s.point = .asleep))) := by
  refine ⟨SignalLoop.terminates _, exists_settles _, fun t ht => ⟨?_, ?_⟩⟩
  · have hends := ht.after_signal (fun _ => PausingState.queue_eq s)
    simpa [controllerMain, PausingState.queue_eq] using hends
  · rw [ht.answered_iff]
    cases x <;> simp [controllerMain, PausingState.queue_eq]

-- The signal falls between the test of should_terminate and pause.
theorem controller_after_signal_missed : ∃ s t : PausingState,
    Reachable (SignalLoop.step controllerMain) always .init s ∧
      Settles controllerMain (s.deliver controllerMain .sigint true) t ∧
        t.dead = false ∧ t.point = .asleep := by
  let s : PausingState := { SignalLoop.State.init with point := .check }
  have hs : SignalLoop.step controllerMain .init .run = some s := rfl
  obtain ⟨-, ⟨t, ht⟩, hends⟩ := controller_after_signal s .sigint
  exact ⟨s, t, reachable_of_step hs, ht, (hends t ht).1⟩

theorem miner_main_after_signal {s : PausingState}
    (h : Reachable (SignalLoop.step minerMain) always .init s) (x : MinerSignal) (here : Bool) :
    Terminates (SignalLoop.step minerMain) Own (s.deliver minerMain x here) ∧
      (∃ t, Settles minerMain (s.deliver minerMain x here) t) ∧
      ∀ t, Settles minerMain (s.deliver minerMain x here) t →
        t.Ends (if s.point = .left ∨ s.point = .test ∨ here = true ∧ s.point = .asleep then .leaves
          else .sleeps) := by
  refine ⟨SignalLoop.terminates _, exists_settles _, fun t ht => ?_⟩
  have hends := ht.after_signal (fun _ => PausingState.queue_eq s)
  have halive := SignalLoop.alive_of_reachable (fun _ => rfl) h
  simpa [minerMain, PausingState.queue_eq, halive] using hends

-- Another thread of the process takes the signal while the main thread is in pause.
theorem miner_main_after_signal_elsewhere : ∃ s t : PausingState,
    s.point = .asleep ∧ Settles minerMain (s.deliver minerMain .sigterm false) t ∧
      t.dead = false ∧ t.point = .asleep := by
  let s : PausingState := { SignalLoop.State.init with point := .asleep }
  have hs : run (SignalLoop.step minerMain) .init [.run, .run, .run] = some s := rfl
  obtain ⟨-, ⟨t, ht⟩, hends⟩ := miner_main_after_signal (reachable_of_run hs) .sigterm false
  exact ⟨s, t, rfl, ht, hends t ht⟩

section Statistics

variable {F : Type} {s t : SignalLoop.State (TimedMessage F)}
  {ls : List (SignalLoop.Label StatisticsSignal (TimedMessage F))}

theorem statistics_after_signal (h : run (SignalLoop.step statisticsLoopMain) .init ls = some s)
    (x : StatisticsSignal) :
    Terminates (SignalLoop.step statisticsLoopMain) Own (s.deliver statisticsLoopMain x true) ∧
      (∃ t, Settles statisticsLoopMain (s.deliver statisticsLoopMain x true) t) ∧
      ∀ t, Settles statisticsLoopMain (s.deliver statisticsLoopMain x true) t →
        t.Ends (if s.dead = true ∨ x = .sigusr1 ∧ s.point.held = true then .stuck
          else if s.point = .left ∨ (s.stop = true ∨ x ≠ .sigusr1) ∧
            (s.point = .test ∨ s.point = .asleep ∨ s.queue ≠ []) then .leaves
          else .sleeps) ∧
        (t.shown.length = s.shown.length + 1 ↔
          ¬(s.dead = true ∨ x = .sigusr1 ∧ s.point.held = true) ∧
            (s.asked = true ∨ x = .sigusr1) ∧ (s.point = .check ∨
              (s.stop = false ∧ x = .sigusr1) ∧
                (s.point = .test ∨ s.point = .asleep ∨ s.point = .sleep ∧ s.queue ≠ []))) := by
  obtain ⟨hrested, -⟩ := SignalLoop.arrived_of_run (fun h => SignalLoop.Point.noConfusion h) h
  refine ⟨SignalLoop.terminates _, exists_settles _, fun t ht => ⟨?_, ?_⟩⟩
  · have hends := ht.after_signal hrested
    simpa [statisticsLoopMain] using hends
  · rw [ht.answered_iff]
    simp [statisticsLoopMain]

-- A second request arrives while the report of the first one is being written.
theorem statistics_after_signal_deadlock : ∃ s t : SignalLoop.State (TimedMessage ℤ),
    s.asked = true ∧ s.point = .body (some 1) [12] ∧
      Settles statisticsLoopMain (s.deliver statisticsLoopMain .sigusr1 true) t ∧
        t.dead = true := by
  let s : SignalLoop.State (TimedMessage ℤ) :=
    { SignalLoop.State.init with point := .body (some 1) [12], asked := true, shown := [[]] }
  have hs : run (SignalLoop.step statisticsLoopMain) .init
      [.signal .sigusr1 true, .run, .report 12, .run] = some s := rfl
  obtain ⟨-, ⟨t, ht⟩, hends⟩ := statistics_after_signal hs .sigusr1
  exact ⟨s, t, rfl, rfl, ht, (hends t ht).1⟩

variable [Add F] [Mul F] [Div F] [Zero F] [IntCast F]

-- What statistics_main prints behind its loop.
def finalStatistics (cfg : Config) (seconds : F → List UInt8)
    (s : SignalLoop.State (TimedMessage F)) : Option LogRequest :=
  printStatistics seconds (statisticsMain cfg s.seen)

theorem statistics_final_report (cfg : Config) (seconds : F → List UInt8)
    (h : run (SignalLoop.step statisticsLoopMain) .init ls = some s) {x : StatisticsSignal}
    (hx : x ≠ .sigusr1) (ht : Settles statisticsLoopMain (s.deliver statisticsLoopMain x true) t) :
    s.seen ++ s.queue = ls.filterMap SignalLoop.Label.message ∧
      t.queue = s.queue.drop s.remaining ∧
      finalStatistics cfg seconds t = printStatistics seconds
        ((s.queue.take s.remaining).foldl StatisticsArrays.process
          (statisticsMain cfg s.seen)) := by
  obtain ⟨-, harrived⟩ := SignalLoop.arrived_of_run (fun h => SignalLoop.Point.noConfusion h) h
  obtain ⟨hseen, hqueue⟩ := ht.taken_after (decide_eq_true hx)
    (fun hcaught => hx (of_decide_eq_true hcaught.1))
  refine ⟨harrived, hqueue, ?_⟩
  rw [finalStatistics, hseen, statisticsMain, List.foldl_append]
  rfl

theorem statistics_final_report_two_waiting :
    ∃ t : SignalLoop.State (TimedMessage ℤ), t.queue = [⟨1, false, 2, 0⟩] ∧
      finalStatistics Sample.defaultConfig (fun _ => []) t = printStatistics (fun _ => [])
        ((statisticsMain Sample.defaultConfig []).process (⟨1, true, 4, 3⟩ : TimedMessage ℤ)) := by
  let s : SignalLoop.State (TimedMessage ℤ) := { SignalLoop.State.init with
    point := .check, queue := [⟨1, true, 4, 3⟩, ⟨1, false, 2, 0⟩] }
  have hs : run (SignalLoop.step statisticsLoopMain) .init
      [.run, .arrive ⟨1, true, 4, 3⟩, .arrive ⟨1, false, 2, 0⟩] = some s := rfl
  obtain ⟨t, ht⟩ := exists_settles (s.deliver statisticsLoopMain .sigterm true)
  obtain ⟨-, hqueue, hreport⟩ := statistics_final_report Sample.defaultConfig (fun _ => []) hs
    (by decide) ht
  exact ⟨t, hqueue, hreport⟩

end Statistics

end DeiChain
