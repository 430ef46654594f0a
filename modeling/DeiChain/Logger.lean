import DeiChain.Library.Blocks
import DeiChain.Library.Places
import DeiChain.Library.Transition
import DeiChain.Miner

namespace DeiChain

open Transition

abbrev LogLine := List UInt8

inductive LogRequest
  | logMessage (message : List UInt8)
  | logMinerMessage (minerId : ℤ) (message : List UInt8)
  | logValidatorMessage (validatorId : ℤ) (message : List UInt8)
  | logAtomicMessages (messages : List (List UInt8))
deriving DecidableEq

def logLine (timestamp message : List UInt8) : LogLine :=
  timestamp ++ bytesOf " " ++ message ++ bytesOf "\n"

def fullMessage (writer : String) (writerId : ℤ) (message : List UInt8) : List UInt8 :=
  (bytesOf writer ++ decimal writerId ++ bytesOf ": " ++ message).take 1099

def LogRequest.lines (timestamp : List UInt8) : LogRequest → List LogLine
  | .logMessage message => [logLine timestamp message]
  | .logMinerMessage minerId message =>
    [logLine timestamp (fullMessage "MINER " minerId message)]
  | .logValidatorMessage validatorId message =>
    [logLine timestamp (fullMessage "VALIDATOR " validatorId message)]
  | .logAtomicMessages messages => messages.map (logLine timestamp)

structure LogCall where
  id : ℕ
  timestamp : List UInt8
  request : LogRequest
  written : List LogLine
  rest : List LogLine
  whole : written ++ rest = request.lines timestamp
deriving DecidableEq

namespace LogCall

def start (id : ℕ) (timestamp : List UInt8) (request : LogRequest) : LogCall :=
  ⟨id, timestamp, request, [], request.lines timestamp, rfl⟩

def next : LogCall → Option (LogLine × LogCall)
  | ⟨id, timestamp, request, written, line :: rest, whole⟩ =>
    some (line, ⟨id, timestamp, request, written ++ [line], rest, by rw [← whole]; simp⟩)
  | ⟨_, _, _, _, [], _⟩ => none

def Mid (c : LogCall) : Prop := c.written ≠ [] ∧ c.rest ≠ []

instance (c : LogCall) : Decidable c.Mid := inferInstanceAs (Decidable (_ ∧ _))

end LogCall

-- log_mutex is a static variable: every process has its own, and fork copies it as it stands.
inductive LogMutex
  | free
  | held (c : LogCall)
  | orphaned
deriving DecidableEq

namespace LogMutex

def call : LogMutex → Option LogCall
  | .held c => some c
  | _ => none

def copy : LogMutex → LogMutex
  | .free => .free
  | _ => .orphaned

end LogMutex

-- Each line of the log carries the number of the call that wrote it.
structure Logger where
  processes : List LogMutex
  log : List (ℕ × LogLine)
  calls : ℕ
  finished : List LogCall
deriving DecidableEq

inductive LogLabel
  | lock (p : ℕ) (timestamp : List UInt8) (request : LogRequest)
  | write (p : ℕ)
  | unlock (p : ℕ)
  | fork (p : ℕ)

namespace Logger

def initLogger : Logger := ⟨[.free], [], 0, []⟩

def inProgress (s : Logger) : List LogCall := s.processes.filterMap LogMutex.call

def others (s : Logger) (p : ℕ) : List LogCall := (s.processes.eraseIdx p).filterMap LogMutex.call

def setMutex (s : Logger) (p : ℕ) (m : LogMutex) : Logger :=
  { s with processes := s.processes.set p m }

def step (s : Logger) : LogLabel → Option Logger
  | .lock p timestamp request =>
    match s.processes[p]? with
    | some .free =>
      some { s.setMutex p (.held (.start s.calls timestamp request)) with calls := s.calls + 1 }
    | _ => none
  | .write p =>
    match s.processes[p]? with
    | some (.held c) => c.next.map (fun n =>
        { s.setMutex p (.held n.2) with log := s.log ++ [(c.id, n.1)] })
    | _ => none
  | .unlock p =>
    match s.processes[p]? with
    | some (.held c) =>
      if c.rest = [] then some { s.setMutex p .free with finished := s.finished ++ [c] } else none
    | _ => none
  | .fork p =>
    (s.processes[p]?).map (fun m => { s with processes := s.processes ++ [m.copy] })

end Logger

def KeepsBatches (s : Logger) : LogLabel → Prop
  | .write p => ∀ c ∈ s.others p, ¬ c.Mid
  | _ => True

instance (s : Logger) (l : LogLabel) : Decidable (KeepsBatches s l) :=
  match l with
  | .write p => inferInstanceAs (Decidable (∀ c ∈ s.others p, ¬ c.Mid))
  | .lock .. | .unlock _ | .fork _ => isTrue trivial

def Together (s : Logger) (c : LogCall) : Prop :=
  ∃ pre post, s.log = pre ++ (c.request.lines c.timestamp).map (fun line => (c.id, line)) ++ post

theorem LogCall.next_eq_some {c c' : LogCall} {line : LogLine} (h : c.next = some (line, c')) :
    c'.id = c.id ∧ c'.written = c.written ++ [line] ∧ c.rest = line :: c'.rest := by
  obtain ⟨id, timestamp, request, written, rest, whole⟩ := c
  cases rest with
  | nil => cases h
  | cons x rest =>
    cases h
    exact ⟨rfl, rfl, rfl⟩

inductive LogMove (s t : Logger) : LogLabel → Prop
  | locked {p : ℕ} {timestamp : List UInt8} {request : LogRequest} {pre post : List LogCall}
      {c : LogCall} (hs : s.inProgress = pre ++ post) (ht : t.inProgress = pre ++ c :: post)
      (hid : c.id = s.calls) (hwritten : c.written = []) (hcalls : t.calls = s.calls + 1)
      (hlog : t.log = s.log) (hfinished : t.finished = s.finished) :
      LogMove s t (.lock p timestamp request)
  | wrote {p : ℕ} {pre post : List LogCall} {c c' : LogCall} {line : LogLine}
      (hs : s.inProgress = pre ++ c :: post) (hothers : s.others p = pre ++ post)
      (ht : t.inProgress = pre ++ c' :: post) (hnext : c.next = some (line, c'))
      (hcalls : t.calls = s.calls) (hlog : t.log = s.log ++ [(c.id, line)])
      (hfinished : t.finished = s.finished) : LogMove s t (.write p)
  | unlocked {p : ℕ} {pre post : List LogCall} {c : LogCall}
      (hs : s.inProgress = pre ++ c :: post) (ht : t.inProgress = pre ++ post)
      (hrest : c.rest = []) (hcalls : t.calls = s.calls) (hlog : t.log = s.log)
      (hfinished : t.finished = s.finished ++ [c]) : LogMove s t (.unlock p)
  | forked {p : ℕ} (ht : t.inProgress = s.inProgress) (hcalls : t.calls = s.calls)
      (hlog : t.log = s.log) (hfinished : t.finished = s.finished) : LogMove s t (.fork p)

theorem inProgress_setMutex {s : Logger} {p : ℕ} {m : LogMutex} (h : s.processes[p]? = some m) :
    ∃ pre post, s.inProgress = pre ++ m.call.toList ++ post ∧ s.others p = pre ++ post ∧
      ∀ m' : LogMutex, (s.setMutex p m').inProgress = pre ++ m'.call.toList ++ post := by
  obtain ⟨pre, post, hs, -, herase, hset⟩ := Places.split_of_getElem? h
  refine ⟨pre.filterMap LogMutex.call, post.filterMap LogMutex.call, ?_, ?_, fun m' => ?_⟩
  · rw [Logger.inProgress, hs, List.filterMap_append, List.filterMap_cons]
    cases m.call <;> simp
  · rw [Logger.others, herase, List.filterMap_append]
  · rw [Logger.inProgress, Logger.setMutex, hset, List.filterMap_append, List.filterMap_cons]
    cases m'.call <;> simp

theorem logMove_of_step {s t : Logger} {l : LogLabel} (h : s.step l = some t) :
    LogMove s t l := by
  cases l with
  | lock p timestamp request =>
    simp only [Logger.step] at h
    split at h
    · rename_i hfree
      obtain rfl := Option.some.inj h
      obtain ⟨pre, post, hs, -, hset⟩ := inProgress_setMutex hfree
      have ht := hset (.held (.start s.calls timestamp request))
      simp only [LogMutex.call, Option.toList_some, Option.toList_none, List.append_nil,
        List.append_assoc, List.singleton_append] at hs ht
      exact .locked hs ht rfl rfl rfl rfl rfl
    · cases h
  | write p =>
    simp only [Logger.step] at h
    split at h
    · rename_i c hheld
      obtain ⟨⟨line, c'⟩, hnext, rfl⟩ := Option.map_eq_some_iff.mp h
      obtain ⟨pre, post, hs, hothers, hset⟩ := inProgress_setMutex hheld
      refine .wrote (by simpa [LogMutex.call] using hs) hothers ?_ hnext rfl rfl rfl
      exact (hset (.held c')).trans (by simp [LogMutex.call])
    · cases h
  | unlock p =>
    simp only [Logger.step] at h
    split at h
    · rename_i c hheld
      split at h
      · rename_i hrest
        obtain rfl := Option.some.inj h
        obtain ⟨pre, post, hs, -, hset⟩ := inProgress_setMutex hheld
        refine .unlocked (by simpa [LogMutex.call] using hs) ?_ hrest rfl rfl rfl
        exact (hset .free).trans (by simp [LogMutex.call])
      · cases h
    · cases h
  | fork p =>
    obtain ⟨m, -, rfl⟩ := Option.map_eq_some_iff.mp h
    refine .forked ?_ rfl rfl rfl
    rw [Logger.inProgress, Logger.inProgress, List.filterMap_append]
    cases m <;> simp [LogMutex.copy, LogMutex.call]

def taggedBy (i : ℕ) (x : ℕ × LogLine) : Bool := x.1 == i

def Logger.allCalls (s : Logger) : List LogCall := s.inProgress ++ s.finished

structure Recorded (calls : List LogCall) (count : ℕ) (log : List (ℕ × LogLine)) : Prop where
  distinct : (calls.map LogCall.id).Nodup
  numbered : ∀ c ∈ calls, c.id < count
  logged : ∀ x ∈ log, x.1 < count
  lines : ∀ c ∈ calls, log.filter (taggedBy c.id) = c.written.map (fun line => (c.id, line))

structure LoggerInvariant (s : Logger) : Prop where
  recorded : Recorded s.allCalls s.calls s.log
  complete : ∀ c ∈ s.finished, c.rest = []

-- No batch is torn, and none that still has lines to write has been written behind.
structure Whole (s : Logger) : Prop where
  starts : ∀ c ∈ s.allCalls, Blocks.starts (taggedBy c.id) false s.log ≤ 1
  last : ∀ c ∈ s.inProgress, c.Mid → Blocks.endsIn (taggedBy c.id) false s.log = true

theorem loggerInvariant_init : LoggerInvariant .initLogger where
  recorded :=
    { distinct := List.nodup_nil
      numbered := by simp [Logger.allCalls, Logger.inProgress, Logger.initLogger, LogMutex.call]
      logged := by simp [Logger.initLogger]
      lines := by simp [Logger.allCalls, Logger.inProgress, Logger.initLogger, LogMutex.call] }
  complete c hc := by cases hc

theorem whole_init : Whole .initLogger where
  starts c hc := by cases hc
  last c hc := by cases hc

theorem Recorded.perm {calls calls' : List LogCall} {count : ℕ} {log : List (ℕ × LogLine)}
    (h : Recorded calls count log) (hperm : calls.Perm calls') : Recorded calls' count log where
  distinct := (hperm.map LogCall.id).nodup_iff.mp h.distinct
  numbered c hc := h.numbered c (hperm.mem_iff.mpr hc)
  logged := h.logged
  lines c hc := h.lines c (hperm.mem_iff.mpr hc)

theorem Recorded.filter_new {calls : List LogCall} {count : ℕ} {log : List (ℕ × LogLine)}
    (h : Recorded calls count log) : log.filter (taggedBy count) = [] := by
  refine List.filter_eq_nil_iff.mpr (fun x hx htag => ?_)
  exact absurd (eq_of_beq htag) (Nat.ne_of_lt (h.logged x hx))

theorem Recorded.locked {calls : List LogCall} {count : ℕ} {log : List (ℕ × LogLine)}
    {c : LogCall} (h : Recorded calls count log) (hid : c.id = count) (hwritten : c.written = []) :
    Recorded (c :: calls) (count + 1) log where
  distinct := by
    refine List.nodup_cons.mpr ⟨fun hmem => ?_, h.distinct⟩
    obtain ⟨d, hd, heq⟩ := List.mem_map.mp hmem
    have hlt := h.numbered d hd
    omega
  numbered := by
    refine List.forall_mem_cons.mpr ⟨by omega, fun d hd => ?_⟩
    have hlt := h.numbered d hd
    omega
  logged x hx := Nat.lt_succ_of_lt (h.logged x hx)
  lines := by
    refine List.forall_mem_cons.mpr ⟨?_, h.lines⟩
    rw [hid, h.filter_new, hwritten]
    rfl

theorem Recorded.ne_of_mem {calls : List LogCall} {count : ℕ} {log : List (ℕ × LogLine)}
    {c d : LogCall} (h : Recorded (c :: calls) count log) (hd : d ∈ calls) : c.id ≠ d.id := by
  intro heq
  exact (List.nodup_cons.mp h.distinct).1 (heq ▸ List.mem_map_of_mem hd)

theorem taggedBy_self (i : ℕ) (line : LogLine) : taggedBy i (i, line) = true := beq_self_eq_true i

theorem taggedBy_of_ne {i j : ℕ} (h : i ≠ j) (line : LogLine) : taggedBy j (i, line) = false :=
  beq_eq_false_iff_ne.mpr h

theorem Recorded.wrote {calls : List LogCall} {count : ℕ} {log : List (ℕ × LogLine)}
    {c c' : LogCall} {line : LogLine} (h : Recorded (c :: calls) count log)
    (hnext : c.next = some (line, c')) :
    Recorded (c' :: calls) count (log ++ [(c.id, line)]) := by
  obtain ⟨hid, hwritten, -⟩ := LogCall.next_eq_some hnext
  obtain ⟨hlt, hnumbered⟩ := List.forall_mem_cons.mp h.numbered
  obtain ⟨hlines, hothers⟩ := List.forall_mem_cons.mp h.lines
  refine ⟨?_, ?_, ?_, ?_⟩
  · rw [List.map_cons, hid]
    exact h.distinct
  · exact List.forall_mem_cons.mpr ⟨hid ▸ hlt, hnumbered⟩
  · rw [List.forall_mem_append, List.forall_mem_singleton]
    exact ⟨h.logged, hlt⟩
  · refine List.forall_mem_cons.mpr ⟨?_, fun d hd => ?_⟩
    · rw [hid, List.filter_append, hlines, hwritten, List.map_append,
        List.filter_singleton, taggedBy_self]
      rfl
    · rw [List.filter_append, hothers d hd, List.filter_singleton,
        taggedBy_of_ne (h.ne_of_mem hd)]
      exact List.append_nil _

theorem starts_write_iff {calls : List LogCall} {count : ℕ} {log : List (ℕ × LogLine)}
    {c c' : LogCall} {line : LogLine} (h : Recorded (c :: calls) count log)
    (hnext : c.next = some (line, c')) :
    Blocks.starts (taggedBy c.id) false (log ++ [(c.id, line)]) ≤ 1 ↔
      Blocks.starts (taggedBy c.id) false log ≤ 1 ∧
        (c.Mid → Blocks.endsIn (taggedBy c.id) false log = true) := by
  obtain ⟨-, -, hrest⟩ := LogCall.next_eq_some hnext
  have hlines := h.lines c List.mem_cons_self
  rw [Blocks.starts_append_singleton, taggedBy_self]
  by_cases hfirst : c.written = []
  · have hnone : log.filter (taggedBy c.id) = [] := by rw [hlines, hfirst]; rfl
    rw [Blocks.starts_eq_zero_of_filter hnone]
    refine iff_of_true ?_ ⟨Nat.zero_le _, fun hmid => absurd hfirst hmid.1⟩
    split <;> omega
  · have hsome : log.filter (taggedBy c.id) ≠ [] := by
      rw [hlines]
      simpa using hfirst
    have hpos := Blocks.starts_pos hsome
    have hmid : c.Mid := ⟨hfirst, by rw [hrest]; exact List.cons_ne_nil _ _⟩
    cases Blocks.endsIn (taggedBy c.id) false log with
    | true => simp
    | false =>
      refine iff_of_false (fun hle => ?_) (fun hle => ?_)
      · change Blocks.starts (taggedBy c.id) false log + 1 ≤ 1 at hle
        omega
      · cases hle.2 hmid

theorem whole_iff {s : Logger} : Whole s ↔
    (∀ c ∈ s.allCalls, Blocks.starts (taggedBy c.id) false s.log ≤ 1) ∧
      ∀ c ∈ s.inProgress, c.Mid → Blocks.endsIn (taggedBy c.id) false s.log = true :=
  ⟨fun h => ⟨h.starts, h.last⟩, fun h => ⟨h.1, h.2⟩⟩

theorem forall_mem_perm {α : Type*} {l l' : List α} (h : l.Perm l') {P : α → Prop} :
    (∀ a ∈ l, P a) ↔ ∀ a ∈ l', P a :=
  forall_congr' (fun _ => imp_congr_left h.mem_iff)

theorem allCalls_perm {s : Logger} {pre post : List LogCall} {c : LogCall}
    (h : s.inProgress = pre ++ c :: post) :
    s.inProgress.Perm (c :: (pre ++ post)) ∧
      s.allCalls.Perm (c :: (pre ++ post ++ s.finished)) := by
  have hperm : s.inProgress.Perm (c :: (pre ++ post)) := by
    rw [h]
    exact List.perm_middle
  exact ⟨hperm, hperm.append_right s.finished⟩

theorem logger_locked {s t : Logger} {pre post : List LogCall} {c : LogCall}
    (hinv : LoggerInvariant s) (hs : s.inProgress = pre ++ post)
    (ht : t.inProgress = pre ++ c :: post) (hid : c.id = s.calls) (hwritten : c.written = [])
    (hcalls : t.calls = s.calls + 1) (hlog : t.log = s.log) (hfinished : t.finished = s.finished) :
    LoggerInvariant t ∧ (Whole t ↔ Whole s) := by
  obtain ⟨hprogress, hall⟩ := allCalls_perm ht
  rw [← hs] at hprogress hall
  rw [hfinished] at hall
  have hnew : Blocks.starts (taggedBy c.id) false s.log ≤ 1 := by
    rw [hid, Blocks.starts_eq_zero_of_filter hinv.recorded.filter_new]
    exact Nat.zero_le _
  refine ⟨⟨?_, hfinished ▸ hinv.complete⟩, ?_⟩
  · rw [hcalls, hlog]
    exact (hinv.recorded.locked hid hwritten).perm hall.symm
  · rw [whole_iff, whole_iff, forall_mem_perm hprogress, forall_mem_perm hall, hlog,
      List.forall_mem_cons, List.forall_mem_cons, and_iff_right hnew,
      and_iff_right (fun hmid : c.Mid => absurd hwritten hmid.1)]
    rfl

theorem logger_wrote {s t : Logger} {p : ℕ} {pre post : List LogCall} {c c' : LogCall}
    {line : LogLine} (hinv : LoggerInvariant s) (hs : s.inProgress = pre ++ c :: post)
    (hothers : s.others p = pre ++ post) (ht : t.inProgress = pre ++ c' :: post)
    (hnext : c.next = some (line, c')) (hcalls : t.calls = s.calls)
    (hlog : t.log = s.log ++ [(c.id, line)]) (hfinished : t.finished = s.finished) :
    LoggerInvariant t ∧ (Whole t ↔ Whole s ∧ KeepsBatches s (.write p)) := by
  obtain ⟨hprogress, hall⟩ := allCalls_perm hs
  obtain ⟨hprogress', hall'⟩ := allCalls_perm ht
  obtain ⟨hid, -, -⟩ := LogCall.next_eq_some hnext
  rw [hfinished] at hall'
  have hrecorded := hinv.recorded.perm hall
  refine ⟨⟨?_, hfinished ▸ hinv.complete⟩, ?_⟩
  · rw [hcalls, hlog]
    exact (hrecorded.wrote hnext).perm hall'.symm
  · have hstarts : ∀ d ∈ pre ++ post ++ s.finished,
        Blocks.starts (taggedBy d.id) false (s.log ++ [(c.id, line)]) =
          Blocks.starts (taggedBy d.id) false s.log := by
      intro d hd
      rw [Blocks.starts_append_singleton, taggedBy_of_ne (hrecorded.ne_of_mem hd)]
      rfl
    have hlast : ∀ d ∈ pre ++ post,
        Blocks.endsIn (taggedBy d.id) false (s.log ++ [(c.id, line)]) = false := by
      intro d hd
      rw [Blocks.endsIn_append_singleton,
        taggedBy_of_ne (hrecorded.ne_of_mem (List.mem_append_left _ hd))]
    have hself : Blocks.endsIn (taggedBy c.id) false (s.log ++ [(c.id, line)]) = true := by
      rw [Blocks.endsIn_append_singleton, taggedBy_self]
    change _ ↔ _ ∧ ∀ d ∈ s.others p, ¬ d.Mid
    rw [whole_iff, whole_iff, forall_mem_perm hprogress, forall_mem_perm hall,
      forall_mem_perm hprogress', forall_mem_perm hall', hlog, hothers]
    simp only [List.forall_mem_cons, hid, hself, implies_true, true_and,
      starts_write_iff hrecorded hnext]
    constructor
    · rintro ⟨⟨⟨hc, hopen⟩, hrest⟩, hnone⟩
      have hquiet : ∀ d ∈ pre ++ post, ¬ d.Mid := by
        intro d hd hmid
        have htrue := hnone d hd hmid
        rw [hlast d hd] at htrue
        cases htrue
      exact ⟨⟨⟨hc, fun d hd => hstarts d hd ▸ hrest d hd⟩, hopen,
        fun d hd hmid => absurd hmid (hquiet d hd)⟩, hquiet⟩
    · rintro ⟨⟨⟨hc, hrest⟩, hopen, -⟩, hquiet⟩
      exact ⟨⟨⟨hc, hopen⟩, fun d hd => (hstarts d hd).symm ▸ hrest d hd⟩,
        fun d hd hmid => absurd hmid (hquiet d hd)⟩

theorem logger_unlocked {s t : Logger} {pre post : List LogCall} {c : LogCall}
    (hinv : LoggerInvariant s) (hs : s.inProgress = pre ++ c :: post)
    (ht : t.inProgress = pre ++ post) (hrest : c.rest = []) (hcalls : t.calls = s.calls)
    (hlog : t.log = s.log) (hfinished : t.finished = s.finished ++ [c]) :
    LoggerInvariant t ∧ (Whole t ↔ Whole s) := by
  obtain ⟨hprogress, hall⟩ := allCalls_perm hs
  have hall' : t.allCalls.Perm s.allCalls := by
    refine List.Perm.trans ?_ hall.symm
    rw [Logger.allCalls, ht, hfinished, ← List.append_assoc]
    exact List.perm_append_singleton c _
  refine ⟨⟨?_, ?_⟩, ?_⟩
  · rw [hcalls, hlog]
    exact hinv.recorded.perm hall'.symm
  · rw [hfinished, List.forall_mem_append, List.forall_mem_singleton]
    exact ⟨hinv.complete, hrest⟩
  · rw [whole_iff, whole_iff, forall_mem_perm hprogress, forall_mem_perm hall', hlog, ht,
      List.forall_mem_cons, and_iff_right (fun hmid : c.Mid => absurd hrest hmid.2)]

theorem logger_step {s t : Logger} {l : LogLabel} (hinv : LoggerInvariant s)
    (h : s.step l = some t) : LoggerInvariant t ∧ (Whole t ↔ Whole s ∧ KeepsBatches s l) := by
  cases logMove_of_step h with
  | locked hs ht hid hwritten hcalls hlog hfinished =>
    rw [and_iff_left (show KeepsBatches s (.lock ..) from trivial)]
    exact logger_locked hinv hs ht hid hwritten hcalls hlog hfinished
  | wrote hs hothers ht hnext hcalls hlog hfinished =>
    exact logger_wrote hinv hs hothers ht hnext hcalls hlog hfinished
  | unlocked hs ht hrest hcalls hlog hfinished =>
    rw [and_iff_left (show KeepsBatches s (.unlock _) from trivial)]
    exact logger_unlocked hinv hs ht hrest hcalls hlog hfinished
  | forked ht hcalls hlog hfinished =>
    have hall : t.allCalls = s.allCalls := congrArg₂ (· ++ ·) ht hfinished
    rw [and_iff_left (show KeepsBatches s (.fork _) from trivial)]
    refine ⟨⟨by rw [hall, hcalls, hlog]; exact hinv.recorded, hfinished ▸ hinv.complete⟩, ?_⟩
    rw [whole_iff, whole_iff, hall, ht, hlog]

theorem together_iff {s : Logger} (hinv : LoggerInvariant s) {c : LogCall}
    (hc : c ∈ s.finished) :
    Together s c ↔ Blocks.starts (taggedBy c.id) false s.log ≤ 1 := by
  have hlines : s.log.filter (taggedBy c.id) =
      (c.request.lines c.timestamp).map (fun line => (c.id, line)) := by
    rw [hinv.recorded.lines c (List.mem_append_right _ hc), ← c.whole, hinv.complete c hc,
      List.append_nil]
  rw [← Blocks.contiguous_iff, Blocks.Contiguous, hlines]
  rfl

theorem loggerInvariant_of_run {ls : List LogLabel} {s : Logger}
    (hrun : run Logger.step .initLogger ls = some s) : LoggerInvariant s := by
  refine (reachable_of_run hrun).invariant loggerInvariant_init ?_
  exact fun a l b ha _ hstep => (logger_step ha hstep).1

-- Within one process log_mutex does exclude: no line is written while another call is open.
theorem keepsBatches_of_alone {s t : Logger} {l : LogLabel} {m : LogMutex}
    (halone : s.processes = [m]) (h : s.step l = some t) : KeepsBatches s l := by
  cases l with
  | write p =>
    simp only [Logger.step] at h
    split at h
    · rename_i hheld
      have hp : p = 0 := by
        obtain ⟨hlt, -⟩ := List.getElem?_eq_some_iff.mp hheld
        rw [halone, List.length_singleton] at hlt
        omega
      have hnone : s.others p = [] := by
        rw [Logger.others, halone, hp]
        rfl
      change ∀ c ∈ s.others p, ¬ c.Mid
      rw [hnone]
      exact fun c hc => by cases hc
    · cases h
  | _ => trivial

theorem lines_le_one {timestamp : List UInt8} {request : LogRequest}
    (h : ∀ messages, request ≠ .logAtomicMessages messages) :
    (request.lines timestamp).length ≤ 1 := by
  cases request with
  | logAtomicMessages messages => exact absurd rfl (h messages)
  | _ => exact Nat.le_refl _

-- The first part speaks of every moment of a run, the second of the moments with no call open.
theorem atomic_batches_iff {ls : List LogLabel} {s : Logger}
    (hrun : run Logger.step .initLogger ls = some s) :
    (runAllowed Logger.step KeepsBatches .initLogger ls = some s →
      ∀ c ∈ s.finished, Together s c) ∧
    (s.inProgress = [] →
      (∀ c ∈ s.finished, ∀ messages, c.request = .logAtomicMessages messages → Together s c) →
      runAllowed Logger.step KeepsBatches .initLogger ls = some s) := by
  have hinv := loggerInvariant_of_run hrun
  rw [← flag_iff_runAllowed (I := LoggerInvariant) (fun a l b ha hstep => logger_step ha hstep)
    loggerInvariant_init whole_init hrun]
  refine ⟨fun hwhole c hc => ?_, fun hidle htogether => ⟨fun c hc => ?_, ?_⟩⟩
  · exact (together_iff hinv hc).mpr (hwhole.starts c (List.mem_append_right _ hc))
  · have hfinished : c ∈ s.finished := by
      rwa [Logger.allCalls, hidle, List.nil_append] at hc
    by_cases hbatch : ∃ messages, c.request = .logAtomicMessages messages
    · obtain ⟨messages, hmessages⟩ := hbatch
      exact (together_iff hinv hfinished).mp (htogether c hfinished messages hmessages)
    · have hone := @lines_le_one c.timestamp c.request (fun m hm => hbatch ⟨m, hm⟩)
      rw [← c.whole, List.length_append] at hone
      have hle := @Blocks.starts_le_length_filter _ (taggedBy c.id) false s.log
      rw [hinv.recorded.lines c hc, List.length_map] at hle
      omega
  · rw [hidle]
    exact fun c hc => by cases hc

namespace Sample

def batch : LogRequest := .logAtomicMessages [[65], [66]]

def logAlone (p : ℕ) : List LogLabel := [.lock p [] batch, .write p, .write p, .unlock p]

end Sample

theorem atomic_batches_in_turn :
    ∃ (s : Logger) (c : LogCall), s.processes.length = 2 ∧ c ∈ s.finished ∧ c.id = 1 ∧
      c.request = Sample.batch ∧ Together s c := by
  let labels := LogLabel.fork 0 :: (Sample.logAlone 1 ++ Sample.logAlone 0)
  have hrun : (run Logger.step .initLogger labels).any (fun s => decide
      (runAllowed Logger.step KeepsBatches .initLogger labels = some s ∧ s.processes.length = 2 ∧
        ∃ c ∈ s.finished, c.id = 1 ∧ c.request = Sample.batch)) = true := by
    decide
  obtain ⟨s, hs, hend⟩ := (Option.any_eq_true ..).mp hrun
  obtain ⟨hallowed, htwo, c, hc, hid, hrequest⟩ := of_decide_eq_true hend
  exact ⟨s, c, htwo, hc, hid, hrequest, (atomic_batches_iff hs).1 hallowed c hc⟩

theorem batch_torn :
    ∃ s : Logger, Reachable Logger.step always .initLogger s ∧
      ∃ c ∈ s.finished, c.request = Sample.batch ∧ ¬ Together s c := by
  let labels : List LogLabel := [.fork 0, .lock 0 [] Sample.batch, .write 0,
    .lock 1 [] (.logMessage [67]), .write 1, .unlock 1, .write 0, .unlock 0]
  have hrun : (run Logger.step .initLogger labels).any (fun s => decide
      (∃ c ∈ s.finished, c.request = Sample.batch ∧
        ¬ Blocks.starts (taggedBy c.id) false s.log ≤ 1)) = true := by
    decide
  obtain ⟨s, hs, hend⟩ := (Option.any_eq_true ..).mp hrun
  obtain ⟨c, hc, hrequest, htorn⟩ := of_decide_eq_true hend
  exact ⟨s, reachable_of_run hs, c, hc, hrequest,
    fun h => htorn ((together_iff (loggerInvariant_of_run hs) hc).mp h)⟩

end DeiChain
