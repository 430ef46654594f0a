import Mathlib.Data.Fintype.Basic
import Mathlib.Data.List.Infix
import Mathlib.Logic.Function.Basic
import Mathlib.Order.Defs.LinearOrder

namespace Framing

-- A frame goes out in several writes; a reader asks for a few elements at a time, told by what
-- it has of the frame, and learns from that when to stop and whether to refuse.
structure Protocol (β F R : Type*) where
  chunks : F → List (List β)
  opening : ℕ
  request : List β → ℕ
  finish : List β → Option (Option R)

variable {β F R : Type*} {m k : ℕ}

namespace Protocol

def encode (P : Protocol β F R) (f : F) : List β := (P.chunks f).flatten

structure Sound (P : Protocol β F R) (value : F → R) : Prop where
  opening_pos : 0 < P.opening
  first : ∀ f, ∃ c cs, P.chunks f = c :: cs ∧ P.opening ≤ c.length
  request : ∀ f p, p <+: P.encode f → P.opening ≤ p.length → p.length < (P.encode f).length →
    0 < P.request p ∧ p.length + P.request p ≤ (P.encode f).length
  unfinished : ∀ f p, p <+: P.encode f → P.opening ≤ p.length →
    p.length < (P.encode f).length → P.finish p = none
  finished : ∀ f, P.finish (P.encode f) = some (some (value f))

end Protocol

-- Senders and readers on one pipe. The lists at the end are history: the frames in the order
-- of their first write, and what the readers have decoded.
structure State (β F R : Type*) (m k : ℕ) where
  queues : Fin m → List F
  writing : Fin m → List (List β)
  pipe : List β
  readers : Fin k → Option (List β)
  started : List F
  decoded : List (Fin k × R)

inductive Label (m k : ℕ) where
  | write (i : Fin m)
  | openFrame (v : Fin k)
  | read (v : Fin k) (n : ℕ)
  | endOfFile (v : Fin k)

def init (queues : Fin m → List F) : State β F R m k where
  queues := queues
  writing := fun _ => []
  pipe := []
  readers := fun _ => none
  started := []
  decoded := []

def advance (P : Protocol β F R) (s : State β F R m k) (v : Fin k) (got : List β) :
    State β F R m k :=
  match P.finish got with
  | none => { s with readers := Function.update s.readers v (some got) }
  | some none => { s with readers := Function.update s.readers v none }
  | some (some r) =>
    { s with readers := Function.update s.readers v none, decoded := s.decoded ++ [(v, r)] }

-- The first read of a frame takes what it gets: a short one is thrown away. Later reads wait
-- for their elements; they fail when the pipe is empty and no sender has it open.
def step (P : Protocol β F R) (s : State β F R m k) : Label m k → Option (State β F R m k)
  | .write i =>
    match s.writing i, s.queues i with
    | c :: cs, _ =>
      some { s with pipe := s.pipe ++ c, writing := Function.update s.writing i cs }
    | [], f :: fs =>
      match P.chunks f with
      | c :: cs =>
        some { s with
          pipe := s.pipe ++ c
          writing := Function.update s.writing i cs
          queues := Function.update s.queues i fs
          started := s.started ++ [f] }
      | [] => none
    | [], [] => none
  | .openFrame v =>
    match s.readers v with
    | none =>
      if s.pipe = [] then none
      else if P.opening ≤ s.pipe.length then
        some (advance P { s with pipe := s.pipe.drop P.opening } v (s.pipe.take P.opening))
      else some { s with pipe := [] }
    | some _ => none
  | .read v n =>
    match s.readers v with
    | some got =>
      if 0 < n ∧ n ≤ P.request got ∧ n ≤ s.pipe.length then
        some (advance P { s with pipe := s.pipe.drop n } v (got ++ s.pipe.take n))
      else none
    | none => none
  | .endOfFile v =>
    match s.readers v with
    | some _ =>
      if s.pipe = [] ∧ ∀ i, s.writing i = [] then
        some { s with readers := Function.update s.readers v none }
      else none
    | none => none

inductive Move (P : Protocol β F R) (s : State β F R m k) : Label m k → State β F R m k → Prop
  | resume {i : Fin m} {c : List β} {cs : List (List β)} (hwriting : s.writing i = c :: cs) :
      Move P s (.write i)
        { s with pipe := s.pipe ++ c, writing := Function.update s.writing i cs }
  | start {i : Fin m} {f : F} {fs : List F} {c : List β} {cs : List (List β)}
      (hwriting : s.writing i = []) (hqueue : s.queues i = f :: fs)
      (hchunks : P.chunks f = c :: cs) :
      Move P s (.write i)
        { s with
          pipe := s.pipe ++ c
          writing := Function.update s.writing i cs
          queues := Function.update s.queues i fs
          started := s.started ++ [f] }
  | openFrame {v : Fin k} (hv : s.readers v = none) (hpipe : s.pipe ≠ [])
      (hlong : P.opening ≤ s.pipe.length) :
      Move P s (.openFrame v)
        (advance P { s with pipe := s.pipe.drop P.opening } v (s.pipe.take P.opening))
  | discard {v : Fin k} (hv : s.readers v = none) (hpipe : s.pipe ≠ [])
      (hshort : s.pipe.length < P.opening) : Move P s (.openFrame v) { s with pipe := [] }
  | read {v : Fin k} {n : ℕ} {got : List β} (hv : s.readers v = some got) (hpos : 0 < n)
      (hrequest : n ≤ P.request got) (hready : n ≤ s.pipe.length) :
      Move P s (.read v n)
        (advance P { s with pipe := s.pipe.drop n } v (got ++ s.pipe.take n))
  | endOfFile {v : Fin k} {got : List β} (hv : s.readers v = some got) (hpipe : s.pipe = [])
      (hwriting : ∀ i, s.writing i = []) :
      Move P s (.endOfFile v) { s with readers := Function.update s.readers v none }

theorem move_of_step {P : Protocol β F R} {s t : State β F R m k} {l : Label m k}
    (h : step P s l = some t) : Move P s l t := by
  cases l with
  | write i =>
    simp only [step] at h
    split at h
    · cases h
      exact .resume ‹_›
    · split at h
      · cases h
        exact .start ‹_› ‹_› ‹_›
      · cases h
    · cases h
  | openFrame v =>
    simp only [step] at h
    split at h
    · split at h
      · cases h
      · split at h
        · cases h
          exact .openFrame ‹_› ‹_› ‹_›
        · cases h
          exact .discard ‹_› ‹_› (not_le.mp ‹_›)
    · cases h
  | read v n =>
    simp only [step] at h
    split at h
    · split at h
      · rename_i hn
        cases h
        exact .read ‹_› hn.1 hn.2.1 hn.2.2
      · cases h
    · cases h
  | endOfFile v =>
    simp only [step] at h
    split at h
    · split at h
      · rename_i hend
        cases h
        exact .endOfFile ‹_› hend.1 hend.2
      · cases h
    · cases h

def State.Done (s : State β F R m k) : Prop :=
  (∀ i, s.queues i = [] ∧ s.writing i = []) ∧ s.pipe = [] ∧ ∀ v, s.readers v = none

instance (s : State β F R m k) : Decidable s.Done :=
  inferInstanceAs (Decidable (_ ∧ _ ∧ _))

theorem State.Done.stuck {P : Protocol β F R} {s : State β F R m k} (h : s.Done) (l : Label m k) :
    step P s l = none := by
  obtain ⟨hsenders, hpipe, hreaders⟩ := h
  cases l with
  | write i => simp [step, hsenders i]
  | openFrame v => simp [step, hreaders v, hpipe]
  | read v n => simp [step, hreaders v]
  | endOfFile v => simp [step, hreaders v]

def ExclusiveWriters (s : State β F R m k) : Label m k → Prop
  | .write i => ∀ j ≠ i, s.writing j = []
  | _ => True

def ExclusiveReaders (s : State β F R m k) : Label m k → Prop
  | .openFrame v | .read v _ => ∀ w ≠ v, s.readers w = none
  | _ => True

def Exclusive (s : State β F R m k) (l : Label m k) : Prop :=
  ExclusiveWriters s l ∧ ExclusiveReaders s l

instance (s : State β F R m k) (l : Label m k) : Decidable (ExclusiveWriters s l) :=
  match l with
  | .write i => inferInstanceAs (Decidable (∀ j ≠ i, s.writing j = []))
  | .openFrame _ | .read _ _ | .endOfFile _ => isTrue trivial

instance (s : State β F R m k) (l : Label m k) : Decidable (ExclusiveReaders s l) :=
  match l with
  | .openFrame v | .read v _ => inferInstanceAs (Decidable (∀ w ≠ v, s.readers w = none))
  | .write _ | .endOfFile _ => isTrue trivial

theorem exclusiveReaders_of_one (s : State β F R m 1) (l : Label m 1) : ExclusiveReaders s l := by
  cases l with
  | write | endOfFile => trivial
  | openFrame | read => exact fun w hw => absurd (Subsingleton.elim w _) hw

theorem exclusiveWriters_of_one (s : State β F R 1 k) (l : Label 1 k) : ExclusiveWriters s l := by
  cases l with
  | write => exact fun j hj => absurd (Subsingleton.elim j _) hj
  | openFrame | read | endOfFile => trivial

theorem exclusive_of_one_reader {s : State β F R m 1} {l : Label m 1}
    (h : ExclusiveWriters s l) : Exclusive s l :=
  ⟨h, exclusiveReaders_of_one s l⟩

theorem exclusive_of_one_sender {s : State β F R 1 k} {l : Label 1 k}
    (h : ExclusiveReaders s l) : Exclusive s l :=
  ⟨exclusiveWriters_of_one s l, h⟩

end Framing
