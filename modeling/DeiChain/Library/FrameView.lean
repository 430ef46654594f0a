import DeiChain.Library.Framing
import DeiChain.Library.Transition

namespace Framing

open Transition

variable {β F R : Type*} {m k : ℕ}

variable {P : Protocol β F R} {value : F → R} {s t : State β F R m k} {rest : List F}
  {head tail : List β}

def Reading (P : Protocol β F R) (readers : Fin k → Option (List β)) (rest : List F)
    (head : List β) : Prop :=
  (head = [] ∧ ∀ v, readers v = none) ∨
    ∃ v f after, readers v = some head ∧ (∀ w ≠ v, readers w = none) ∧ rest = f :: after ∧
      head <+: P.encode f ∧ P.opening ≤ head.length ∧ head.length < (P.encode f).length

def Writing (P : Protocol β F R) (writing : Fin m → List (List β)) (started : List F)
    (tail : List β) : Prop :=
  (tail = [] ∧ ∀ i, writing i = []) ∨
    ∃ i init f, writing i ≠ [] ∧ (∀ j ≠ i, writing j = []) ∧ tail = (writing i).flatten ∧
      started = init ++ [f] ∧ tail.length + P.opening ≤ (P.encode f).length

-- What a reader has of a frame, what lies in the pipe and what a sender still has to write
-- are, in this order, the frames started and not yet decoded.
structure View (P : Protocol β F R) (value : F → R) (s : State β F R m k) (rest : List F)
    (head tail : List β) : Prop where
  history : ∃ done, s.started = done ++ rest ∧ s.decoded.map Prod.snd = done.map value
  stream : head ++ s.pipe ++ tail = rest.flatMap P.encode
  reading : Reading P s.readers rest head
  writing : Writing P s.writing s.started tail

theorem view_init (queues : Fin m → List F) :
    View P value (init queues : State β F R m k) [] [] [] where
  history := ⟨[], rfl, rfl⟩
  stream := rfl
  reading := .inl ⟨rfl, fun _ => rfl⟩
  writing := .inl ⟨rfl, fun _ => rfl⟩

theorem Reading.head_eq {readers : Fin k → Option (List β)} (h : Reading P readers rest head)
    {v : Fin k} {got : List β} (hgot : readers v = some got) : head = got := by
  rcases h with ⟨-, hnone⟩ | ⟨w, f, after, hw, hother, -⟩
  · rw [hnone v] at hgot
    cases hgot
  · by_cases hv : v = w
    · rw [hv, hw] at hgot
      exact Option.some_inj.mp hgot
    · rw [hother v hv] at hgot
      cases hgot

theorem Reading.append {readers : Fin k → Option (List β)} (h : Reading P readers rest head)
    (f : F) : Reading P readers (rest ++ [f]) head := by
  rcases h with hnone | ⟨v, g, after, hv, hother, hrest, hgot⟩
  · exact .inl hnone
  · exact .inr ⟨v, g, after ++ [f], hv, hother, by rw [hrest, List.cons_append], hgot⟩

theorem Writing.update {writing : Fin m → List (List β)} {started init : List F} {f : F}
    {i : Fin m} {cs : List (List β)} (hother : ∀ j ≠ i, writing j = [])
    (hstarted : started = init ++ [f])
    (hroom : cs.flatten.length + P.opening ≤ (P.encode f).length) :
    Writing P (Function.update writing i cs) started cs.flatten := by
  have hrest : ∀ j ≠ i, Function.update writing i cs j = [] := fun j hj => by
    rw [Function.update_of_ne hj, hother j hj]
  by_cases hcs : cs = []
  · refine .inl ⟨by rw [hcs]; rfl, fun j => ?_⟩
    by_cases hj : j = i
    · rw [hj, Function.update_self, hcs]
    · exact hrest j hj
  · exact .inr ⟨i, init, f, by rwa [Function.update_self], hrest, by rw [Function.update_self],
      hstarted, hroom⟩

theorem Writing.tail_eq {writing : Fin m → List (List β)} {started : List F}
    (h : Writing P writing started tail) (hnone : ∀ i, writing i = []) : tail = [] := by
  rcases h with ⟨hnil, -⟩ | ⟨i, init, f, hi, -⟩
  · exact hnil
  · exact absurd (hnone i) hi

theorem Reading.head_eq_nil {readers : Fin k → Option (List β)}
    (h : Reading P readers rest head) (hidle : ∀ v, readers v = none) : head = [] := by
  rcases h with ⟨hnil, -⟩ | ⟨w, f, after, hw, -⟩
  · exact hnil
  · rw [hidle w] at hw
    cases hw

theorem View.resume {i : Fin m} {c : List β} {cs : List (List β)}
    (h : View P value s rest head tail) (hother : ∀ j ≠ i, s.writing j = [])
    (hwriting : s.writing i = c :: cs) :
    View P value { s with pipe := s.pipe ++ c, writing := Function.update s.writing i cs }
      rest head cs.flatten := by
  rcases h.writing with ⟨-, hnone⟩ | ⟨j, init, f, hj, hidle, htail, hstarted, hroom⟩
  · rw [hnone i] at hwriting
    cases hwriting
  · obtain rfl : i = j := by
      by_contra hne
      exact hj (hother j (Ne.symm hne))
    rw [hwriting, List.flatten_cons] at htail
    refine ⟨h.history, ?_, h.reading, .update hother hstarted ?_⟩
    · rw [← h.stream, htail]
      simp only [List.append_assoc]
    · rw [htail, List.length_append] at hroom
      omega

theorem View.start {i : Fin m} {f : F} {c : List β} {cs : List (List β)} (fs : List F)
    (h : View P value s rest head tail) (hP : P.Sound value)
    (hother : ∀ j ≠ i, s.writing j = []) (hwriting : s.writing i = [])
    (hchunks : P.chunks f = c :: cs) :
    View P value
      { s with
        pipe := s.pipe ++ c
        writing := Function.update s.writing i cs
        queues := Function.update s.queues i fs
        started := s.started ++ [f] } (rest ++ [f]) head cs.flatten := by
  have hnone : ∀ j, s.writing j = [] := fun j => by
    by_cases hj : j = i
    · rw [hj, hwriting]
    · exact hother j hj
  have hencode : P.encode f = c ++ cs.flatten := by
    rw [Protocol.encode, hchunks, List.flatten_cons]
  obtain ⟨c', cs', hfirst, hopening⟩ := hP.first f
  obtain ⟨rfl, rfl⟩ : c = c' ∧ cs = cs' := by simpa [hchunks] using hfirst
  obtain ⟨done, hstarted, hdecoded⟩ := h.history
  refine ⟨⟨done, ?_, hdecoded⟩, ?_, h.reading.append f, .update hother rfl ?_⟩
  · change s.started ++ [f] = _
    rw [hstarted, List.append_assoc]
  · rw [List.flatMap_append, ← h.stream, h.writing.tail_eq hnone, List.flatMap_singleton,
      hencode]
    simp only [List.append_assoc, List.nil_append]
  · rw [hencode, List.length_append]
    omega

theorem View.advance {f : F} {after done : List F} {got : List β} {v : Fin k}
    (hP : P.Sound value) (hstarted : s.started = done ++ f :: after)
    (hdecoded : s.decoded.map Prod.snd = done.map value)
    (hstream : got ++ s.pipe ++ tail = (f :: after).flatMap P.encode)
    (hidle : ∀ w ≠ v, s.readers w = none) (hgot : got <+: P.encode f)
    (hopening : P.opening ≤ got.length) (hwriting : Writing P s.writing s.started tail) :
    ∃ rest' head', View P value (advance P s v got) rest' head' tail := by
  have hother : ∀ r, ∀ w ≠ v, Function.update s.readers v r w = none := fun r w hw => by
    rw [Function.update_of_ne hw, hidle w hw]
  by_cases hlen : got.length < (P.encode f).length
  · have hfinish := hP.unfinished f got hgot hopening hlen
    rw [Framing.advance, hfinish]
    exact ⟨f :: after, got, ⟨done, hstarted, hdecoded⟩, hstream,
      .inr ⟨v, f, after, Function.update_self .., hother _, rfl, hgot, hopening, hlen⟩,
      hwriting⟩
  · obtain rfl : got = P.encode f := hgot.eq_of_length_le (by omega)
    rw [Framing.advance, hP.finished f]
    refine ⟨after, [], ⟨done ++ [f], by simp [hstarted], by simp [hdecoded]⟩, ?_,
      .inl ⟨rfl, fun w => ?_⟩, hwriting⟩
    · rw [List.flatMap_cons, List.append_assoc] at hstream
      exact List.append_cancel_left hstream
    · by_cases hw : w = v
      · rw [hw]
        exact Function.update_self ..
      · exact hother none w hw

theorem View.room (h : View P value s rest head tail) (hP : P.Sound value) (hrest : rest ≠ []) :
    tail.length + P.opening ≤ (rest.flatMap P.encode).length := by
  obtain ⟨before, f, rfl⟩ := (List.eq_nil_or_concat rest).resolve_left hrest
  rw [List.concat_eq_append, List.flatMap_append, List.length_append, List.flatMap_singleton]
  rcases h.writing with ⟨htail, -⟩ | ⟨i, init, g, -, -, -, hstarted, hroom⟩
  · obtain ⟨c, cs, hchunks, hopening⟩ := hP.first f
    rw [htail, Protocol.encode, hchunks, List.flatten_cons, List.length_append, List.length_nil]
    omega
  · obtain ⟨done, hdone, -⟩ := h.history
    rw [hstarted, List.concat_eq_append, ← List.append_assoc] at hdone
    obtain rfl : g = f := List.singleton_inj.mp (List.append_inj' hdone rfl).2
    omega

theorem View.openFrame {v : Fin k} (h : View P value s rest head tail) (hP : P.Sound value)
    (hidle : ∀ w, s.readers w = none) (hpipe : s.pipe ≠ []) :
    P.opening ≤ s.pipe.length ∧ ∃ rest' head', View P value
      (Framing.advance P { s with pipe := s.pipe.drop P.opening } v (s.pipe.take P.opening))
      rest' head' tail := by
  have hstream : s.pipe ++ tail = rest.flatMap P.encode := by
    rw [← h.stream, h.reading.head_eq_nil hidle, List.nil_append]
  have hrest : rest ≠ [] := by
    rintro rfl
    exact hpipe (List.append_eq_nil_iff.mp hstream).1
  have hlong : P.opening ≤ s.pipe.length := by
    have hroom := h.room hP hrest
    rw [← hstream, List.length_append] at hroom
    omega
  refine ⟨hlong, ?_⟩
  obtain ⟨f, after, rfl⟩ := List.exists_cons_of_ne_nil hrest
  obtain ⟨done, hstarted, hdecoded⟩ := h.history
  obtain ⟨c, cs, hchunks, hopening⟩ := hP.first f
  have htake : (s.pipe.take P.opening).length = P.opening := List.length_take_of_le hlong
  have hgot : s.pipe.take P.opening <+: P.encode f := by
    have hwhole : s.pipe.take P.opening <+: (f :: after).flatMap P.encode :=
      ⟨s.pipe.drop P.opening ++ tail, by
        rw [← List.append_assoc, List.take_append_drop, hstream]⟩
    refine List.prefix_of_prefix_length_le hwhole (List.prefix_append _ _) ?_
    rw [htake, Protocol.encode, hchunks, List.flatten_cons, List.length_append]
    omega
  refine View.advance hP hstarted hdecoded ?_ (fun w _ => hidle w) hgot (by rw [htake]) h.writing
  rw [← hstream, List.take_append_drop]

theorem View.read {v : Fin k} {n : ℕ} {got : List β} (h : View P value s rest head tail)
    (hP : P.Sound value) (hother : ∀ w ≠ v, s.readers w = none) (hv : s.readers v = some got)
    (hrequest : n ≤ P.request got) (hready : n ≤ s.pipe.length) :
    ∃ rest' head', View P value
      (Framing.advance P { s with pipe := s.pipe.drop n } v (got ++ s.pipe.take n))
      rest' head' tail := by
  obtain rfl : head = got := h.reading.head_eq hv
  rcases h.reading with ⟨-, hnone⟩ | ⟨w, f, after, -, -, rfl, hhead, hopening, hlen⟩
  · rw [hnone v] at hv
    cases hv
  · have hbound := (hP.request f head hhead hopening hlen).2
    obtain ⟨done, hstarted, hdecoded⟩ := h.history
    have htake : (s.pipe.take n).length = n := List.length_take_of_le hready
    have hstream : head ++ s.pipe.take n ++ s.pipe.drop n ++ tail =
        (f :: after).flatMap P.encode := by
      rw [← h.stream, List.append_assoc head, List.take_append_drop]
    have hgot : head ++ s.pipe.take n <+: P.encode f := by
      have hwhole : head ++ s.pipe.take n <+: (f :: after).flatMap P.encode :=
        ⟨s.pipe.drop n ++ tail, by rw [← hstream, List.append_assoc _ _ tail]⟩
      refine List.prefix_of_prefix_length_le hwhole (List.prefix_append _ _) ?_
      rw [List.length_append, htake]
      omega
    refine View.advance hP hstarted hdecoded hstream hother hgot ?_ h.writing
    rw [List.length_append]
    omega

theorem View.pipe_ne_nil {v : Fin k} {got : List β} (h : View P value s rest head tail)
    (hv : s.readers v = some got) (hnone : ∀ i, s.writing i = []) : s.pipe ≠ [] := by
  intro hpipe
  rcases h.reading with ⟨-, hidle⟩ | ⟨w, f, after, -, -, hrest, -, -, hlen⟩
  · rw [hidle v] at hv
    cases hv
  · have hstream := congrArg List.length h.stream
    rw [hpipe, h.writing.tail_eq hnone, hrest, List.flatMap_cons] at hstream
    simp only [List.length_append, List.length_nil] at hstream
    omega

theorem idle_of_others {v : Fin k} (hv : s.readers v = none)
    (hother : ∀ w ≠ v, s.readers w = none) (w : Fin k) : s.readers w = none := by
  by_cases hw : w = v
  · rw [hw, hv]
  · exact hother w hw

-- A short opening and the end of the file do not occur.
theorem View.step {l : Label m k} (h : View P value s rest head tail) (hP : P.Sound value)
    (hallow : Exclusive s l) (hstep : step P s l = some t) :
    ∃ rest' head' tail', View P value t rest' head' tail' := by
  cases move_of_step hstep with
  | resume hwriting => exact ⟨_, _, _, h.resume hallow.1 hwriting⟩
  | start hwriting _ hchunks => exact ⟨_, _, _, h.start _ hP hallow.1 hwriting hchunks⟩
  | openFrame hv hpipe =>
    obtain ⟨-, rest', head', h'⟩ := h.openFrame hP (idle_of_others hv hallow.2) hpipe
    exact ⟨rest', head', tail, h'⟩
  | @discard v hv hpipe hshort =>
    obtain ⟨hlong, -⟩ := h.openFrame (v := v) hP (idle_of_others hv hallow.2) hpipe
    exact absurd hshort (not_lt.mpr hlong)
  | read hv _ hrequest hready =>
    obtain ⟨rest', head', h'⟩ := h.read hP hallow.2 hv hrequest hready
    exact ⟨rest', head', tail, h'⟩
  | endOfFile hv hpipe hwriting => exact absurd hpipe (h.pipe_ne_nil hv hwriting)

theorem view_of_reachable {queues : Fin m → List F} (hP : P.Sound value)
    (h : Reachable (Framing.step P) Exclusive (init queues) s) :
    ∃ rest head tail, View P value s rest head tail :=
  h.invariant (I := fun s => ∃ rest head tail, View P value s rest head tail)
    ⟨[], [], [], view_init queues⟩
    (fun _ _ _ ⟨_, _, _, hview⟩ hallow hstep => hview.step hP hallow hstep)

theorem encode_ne_nil (hP : P.Sound value) (f : F) : P.encode f ≠ [] := by
  obtain ⟨c, cs, hchunks, hopening⟩ := hP.first f
  have hpos := hP.opening_pos
  intro hnil
  have hlen : (P.encode f).length = 0 := by rw [hnil, List.length_nil]
  rw [Protocol.encode, hchunks, List.flatten_cons, List.length_append] at hlen
  omega

theorem View.senders_done (h : View P value s rest head tail) (hP : P.Sound value)
    (hstuck : ∀ l, Exclusive s l → Framing.step P s l = none) (i : Fin m) :
    s.queues i = [] ∧ s.writing i = [] := by
  have hwriting : ∀ i, s.writing i = [] := by
    rcases h.writing with ⟨-, hnone⟩ | ⟨i, init, f, hi, hother, -⟩
    · exact hnone
    · have hnext := hstuck (.write i) ⟨hother, trivial⟩
      obtain ⟨c, cs, hcs⟩ := List.exists_cons_of_ne_nil hi
      simp [Framing.step, hcs] at hnext
  refine ⟨?_, hwriting i⟩
  by_contra hqueue
  obtain ⟨f, fs, hfs⟩ := List.exists_cons_of_ne_nil hqueue
  obtain ⟨c, cs, hchunks, -⟩ := hP.first f
  have hnext := hstuck (.write i) ⟨fun j _ => hwriting j, trivial⟩
  simp [Framing.step, hwriting i, hfs, hchunks] at hnext

theorem View.readers_done (h : View P value s rest head tail) (hP : P.Sound value) (hk : 0 < k)
    (hwriting : ∀ i, s.writing i = [])
    (hstuck : ∀ l, Exclusive s l → Framing.step P s l = none) :
    s.pipe = [] ∧ ∀ v, s.readers v = none := by
  rcases h.reading with ⟨-, hidle⟩ | ⟨v, f, after, hv, hother, -, hgot, hopening, hlen⟩
  · refine ⟨?_, hidle⟩
    by_contra hpipe
    have hnext := hstuck (.openFrame ⟨0, hk⟩) ⟨trivial, fun w _ => hidle w⟩
    simp only [Framing.step, hidle, if_neg hpipe] at hnext
    split at hnext <;> cases hnext
  · have hpipe := List.length_pos_iff.mpr (h.pipe_ne_nil hv hwriting)
    have hrequest := (hP.request f head hgot hopening hlen).1
    have hnext := hstuck (.read v 1) ⟨trivial, hother⟩
    have hready : 0 < 1 ∧ 1 ≤ P.request head ∧ 1 ≤ s.pipe.length := ⟨one_pos, hrequest, hpipe⟩
    simp [Framing.step, hv, hready] at hnext

theorem View.done (h : View P value s rest head tail) (hP : P.Sound value) (hk : 0 < k)
    (hstuck : ∀ l, Exclusive s l → Framing.step P s l = none) : s.Done :=
  have hsenders := h.senders_done hP hstuck
  ⟨hsenders, h.readers_done hP hk (fun i => (hsenders i).2) hstuck⟩

theorem View.rest_eq_nil (h : View P value s rest head tail) (hP : P.Sound value)
    (hdone : s.Done) : rest = [] := by
  obtain ⟨hsenders, hpipe, hreaders⟩ := hdone
  have hstream := h.stream
  rw [h.reading.head_eq_nil hreaders, hpipe, h.writing.tail_eq (fun i => (hsenders i).2)] at hstream
  refine List.eq_nil_iff_forall_not_mem.mpr (fun f hf => encode_ne_nil hP f ?_)
  exact List.flatMap_eq_nil_iff.mp hstream.symm f hf

end Framing
