import DeiChain.Library.Counting
import DeiChain.Library.FrameView
import Mathlib.Algebra.Order.Group.Multiset
import Mathlib.Tactic.Abel

namespace Framing

open Transition

variable {β F R : Type*} {m k : ℕ}

section Accounting

variable {P : Protocol β F R} {value : F → R} {s t : State β F R m k} {queues : Fin m → List F}

@[simp] theorem advance_queues (v : Fin k) (got : List β) :
    (advance P s v got).queues = s.queues := by
  unfold advance
  split <;> rfl

@[simp] theorem advance_started (v : Fin k) (got : List β) :
    (advance P s v got).started = s.started := by
  unfold advance
  split <;> rfl

def State.frames (s : State β F R m k) : Multiset F := s.started + ∑ i, (s.queues i : Multiset F)

theorem step_frames {l : Label m k} (hstep : step P s l = some t) : t.frames = s.frames := by
  cases move_of_step hstep with
  | resume | discard | endOfFile => rfl
  | openFrame | read => simp [State.frames]
  | @start i f fs c cs _ hqueue _ =>
    have hsum := Counting.sum_update (fun q : List F => (q : Multiset F)) s.queues i fs
    rw [hqueue] at hsum
    refine add_right_cancel (b := (fs : Multiset F)) ?_
    calc (s.started ++ [f] : List F) + ∑ j, (Function.update s.queues i fs j : Multiset F) + fs
        = s.started + (∑ j, (Function.update s.queues i fs j : Multiset F) +
          (f :: fs : List F)) := by
          rw [← Multiset.coe_add, Multiset.coe_singleton, ← Multiset.cons_coe f fs,
            ← Multiset.singleton_add]
          abel
      _ = s.started + ∑ j, (s.queues j : Multiset F) + fs := by rw [hsum, add_assoc]

theorem frames_of_reachable {allow : State β F R m k → Label m k → Prop}
    (h : Reachable (step P) allow (init queues) s) :
    s.frames = ∑ i, (queues i : Multiset F) :=
  h.invariant (I := fun s => s.frames = ∑ i, (queues i : Multiset F)) (zero_add _)
    (fun _ _ _ hI _ hstep => (step_frames hstep).trans hI)

end Accounting

section Termination

variable {P : Protocol β F R} {value : F → R} {s t : State β F R m k} {queues : Fin m → List F}

def chunkWork (cs : List (List β)) : ℕ := 2 * cs.flatten.length + cs.length

def frameWork (P : Protocol β F R) (q : List F) : ℕ := (q.map (fun f => chunkWork (P.chunks f))).sum

-- Writing a chunk moves its bytes into the pipe, reading removes them; the second byte of each
-- pays for a reader that opens a frame.
def work (P : Protocol β F R) (s : State β F R m k) : ℕ :=
  ∑ i, frameWork P (s.queues i) + ∑ i, chunkWork (s.writing i) + 2 * s.pipe.length +
    Counting.count Option.isSome s.readers

theorem chunkWork_cons (c : List β) (cs : List (List β)) :
    chunkWork (c :: cs) = chunkWork cs + 2 * c.length + 1 := by
  simp only [chunkWork, List.flatten_cons, List.length_append, List.length_cons]
  omega

theorem advance_work (v : Fin k) (got : List β) :
    work P (advance P s v got) + (s.readers v).isSome.toNat ≤ work P s + 1 := by
  have hcount : ∀ r : Option (List β), Counting.count Option.isSome
      (Function.update s.readers v r) + (s.readers v).isSome.toNat =
        Counting.count Option.isSome s.readers + r.isSome.toNat := fun _ => Counting.count_update
  have hle : ∀ r : Option (List β), r.isSome.toNat ≤ 1 := fun r => r.isSome.toNat_le
  unfold advance
  split
  · have := hcount (some got)
    have := hle (some got)
    simp only [work]
    omega
  · have := hcount none
    have := hle none
    simp only [work]
    omega
  · have := hcount none
    have := hle none
    simp only [work]
    omega

theorem step_work {l : Label m k} (hopening : 0 < P.opening) (hstep : step P s l = some t) :
    work P t < work P s := by
  cases move_of_step hstep with
  | @resume i c cs hwriting =>
    have hsum := Counting.sum_update chunkWork s.writing i cs
    rw [hwriting, chunkWork_cons] at hsum
    simp only [work, List.length_append]
    omega
  | @start i f fs c cs hwriting hqueue hchunks =>
    have hsum := Counting.sum_update chunkWork s.writing i cs
    have hqueues := Counting.sum_update (frameWork P) s.queues i fs
    have hframe : frameWork P (f :: fs) = chunkWork cs + 2 * c.length + 1 + frameWork P fs := by
      rw [frameWork, List.map_cons, List.sum_cons, hchunks, chunkWork_cons]
      rfl
    have hnil : chunkWork ([] : List (List β)) = 0 := rfl
    rw [hwriting, hnil] at hsum
    rw [hqueue, hframe] at hqueues
    simp only [work, List.length_append]
    omega
  | @openFrame v hv hpipe hlong =>
    have hadvance := advance_work (P := P) (s := { s with pipe := s.pipe.drop P.opening }) v
      (s.pipe.take P.opening)
    simp only [work, List.length_drop] at hadvance ⊢
    omega
  | discard hv hpipe hshort =>
    have hlen := List.length_pos_iff.mpr hpipe
    simp only [work, List.length_nil]
    omega
  | @read v n got hv hpos hrequest hready =>
    have hadvance := advance_work (P := P) (s := { s with pipe := s.pipe.drop n }) v
      (got ++ s.pipe.take n)
    simp only [work, List.length_drop, hv, Option.isSome_some, Bool.toNat_true] at hadvance ⊢
    omega
  | @endOfFile v got hv hpipe hwriting =>
    have hcount := Counting.count_update (p := Option.isSome) (f := s.readers) (i := v)
      (a := none)
    rw [hv] at hcount
    simp only [Option.isSome_some, Option.isSome_none, Bool.toNat_true, Bool.toNat_false] at hcount
    simp only [work]
    omega

end Termination

section Delivery

variable {P : Protocol β F R} {value : F → R} {s t : State β F R m k} {queues : Fin m → List F}

theorem decoded_in_order (hP : P.Sound value) (h : Reachable (step P) Exclusive (init queues) s) :
    s.decoded.map Prod.snd <+: s.started.map value := by
  obtain ⟨rest, head, tail, hview⟩ := view_of_reachable hP h
  obtain ⟨done, hstarted, hdecoded⟩ := hview.history
  rw [hstarted, hdecoded, List.map_append]
  exact List.prefix_append _ _

theorem decoded_of_done (hP : P.Sound value) (h : Reachable (step P) Exclusive (init queues) s)
    (hdone : s.Done) :
    (s.decoded.map Prod.snd : Multiset R) = ∑ i, ((queues i).map value : Multiset R) := by
  obtain ⟨rest, head, tail, hview⟩ := view_of_reachable hP h
  obtain ⟨done, hstarted, hdecoded⟩ := hview.history
  have hframes := frames_of_reachable h
  rw [State.frames, hstarted, hview.rest_eq_nil hP hdone, List.append_nil] at hframes
  simp only [(hdone.1 _).1, Multiset.coe_nil, Finset.sum_const_zero, add_zero] at hframes
  calc (s.decoded.map Prod.snd : Multiset R)
      = (done : Multiset F).map value := by rw [hdecoded, Multiset.map_coe]
    _ = ∑ i, ((queues i).map value : Multiset R) := by
      rw [hframes, ← Multiset.coe_mapAddMonoidHom, map_sum]
      rfl

def Intact (value : F → R) (queues : Fin m → List F) (s : State β F R m k) : Prop :=
  s.decoded.map Prod.snd <+: s.started.map value ∧
    (s.Done → (s.decoded.map Prod.snd : Multiset R) = ∑ i, ((queues i).map value : Multiset R))

theorem intact_of_reachable (hP : P.Sound value)
    (h : Reachable (step P) Exclusive (init queues) s) : Intact value queues s :=
  ⟨decoded_in_order hP h, decoded_of_done hP h⟩

theorem exists_done (hP : P.Sound value) (hk : 0 < k)
    (h : Reachable (step P) Exclusive (init queues) s) :
    ∃ t, Reachable (step P) Exclusive s t ∧ t.Done := by
  obtain ⟨t, hreach, hstuck⟩ : ∃ t, Reachable (step P) Exclusive s t ∧
      ∀ l, Exclusive t l → step P t l = none :=
    exists_stuck (fun _ _ _ hstep => step_work hP.opening_pos hstep) s
  obtain ⟨rest, head, tail, hview⟩ := view_of_reachable hP (h.trans hreach)
  exact ⟨t, hreach, hview.done hP hk hstuck⟩

end Delivery

section Single

variable {P : Protocol β F R} {value : F → R} {queue : List F}

theorem step_sequence {s t : State β F R 1 k} {l : Label 1 k} (hstep : step P s l = some t) :
    t.started ++ t.queues 0 = s.started ++ s.queues 0 := by
  cases move_of_step hstep with
  | resume | discard | endOfFile => rfl
  | openFrame | read => rw [advance_started, advance_queues]
  | @start i f fs c cs _ hqueue _ =>
    obtain rfl : i = 0 := Subsingleton.elim i 0
    simp only [Function.update_self, hqueue, List.append_assoc, List.singleton_append]

theorem sequence_of_reachable {allow : State β F R 1 k → Label 1 k → Prop} {s : State β F R 1 k}
    (h : Reachable (step P) allow (init (fun _ => queue)) s) :
    s.started ++ s.queues 0 = queue :=
  h.invariant (I := fun s => s.started ++ s.queues 0 = queue) rfl
    (fun _ _ _ hI _ hstep => (step_sequence hstep).trans hI)

variable {s : State β F R 1 1}

theorem view_of_single (hP : P.Sound value)
    (h : Reachable (step P) always (init (fun _ => queue)) s) :
    ∃ rest head tail, View P value s rest head tail :=
  view_of_reachable hP (h.mono
    (fun a l _ => exclusive_of_one_reader (exclusiveWriters_of_one a l)))

theorem decoded_prefix_of_single (hP : P.Sound value)
    (h : Reachable (step P) always (init (fun _ => queue)) s) :
    s.decoded.map Prod.snd <+: queue.map value := by
  obtain ⟨rest, head, tail, hview⟩ := view_of_single hP h
  obtain ⟨done, hstarted, hdecoded⟩ := hview.history
  rw [← sequence_of_reachable h, hstarted, hdecoded, List.append_assoc, List.map_append]
  exact List.prefix_append _ _

theorem decoded_of_single (hP : P.Sound value)
    (h : Reachable (step P) always (init (fun _ => queue)) s)
    (hstuck : ∀ l, step P s l = none) : s.decoded.map Prod.snd = queue.map value ∧ s.Done := by
  obtain ⟨rest, head, tail, hview⟩ := view_of_single hP h
  have hdone : s.Done := hview.done hP one_pos (fun l _ => hstuck l)
  obtain ⟨done, hstarted, hdecoded⟩ := hview.history
  refine ⟨?_, hdone⟩
  rw [← sequence_of_reachable h, hstarted, hview.rest_eq_nil hP hdone, (hdone.1 0).1, hdecoded,
    List.append_nil, List.append_nil]

end Single

end Framing
