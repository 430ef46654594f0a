import DeiChain.FrameReader
import DeiChain.Library.Writes

namespace DeiChain

open ByteLayout

variable {cfg : Config}

structure SendCall (cfg : Config) where
  frame : SentFrame
  admitted : frame.Admitted cfg
  opened : Bool
  outcome : Writes.Outcome

-- The value send_block_to_validator returns, and the bytes it has put into the pipe.
def sendBlockCall (c : SendCall cfg) : ℤ × List UInt8 :=
  if c.opened then
    let (whole, bytes) := Writes.send c.outcome 0 c.frame.writes
    (if whole then 0 else -1, bytes)
  else (-1, [])

theorem writes_ne_nil {f : SentFrame} (h : f.Admitted cfg) : ∀ c ∈ f.writes, c ≠ [] := by
  have hpayload : 0 < f.payload.length := by
    rw [length_payload]
    exact Nat.mul_pos h.1 (by decide)
  have hid : f.block.txbId.toList.length = txbIdLen := List.Vector.toList_length _
  have hhash : f.block.previousBlockHash.toList.length = hashSize := List.Vector.toList_length _
  intro c hc
  refine List.ne_nil_of_length_pos ?_
  simp only [SentFrame.writes, List.mem_cons, List.not_mem_nil, or_false] at hc
  rcases hc with rfl | rfl | rfl | rfl | rfl | rfl | rfl
  · exact (length_encode int32 _).symm ▸ (by decide : 0 < int32.size)
  · exact hid.symm ▸ (by decide : 0 < txbIdLen)
  · exact hhash.symm ▸ (by decide : 0 < hashSize)
  · exact (length_encode int64 _).symm ▸ (by decide : 0 < int64.size)
  · exact (length_encode uint32 _).symm ▸ (by decide : 0 < uint32.size)
  · exact (length_encode int32 _).symm ▸ (by decide : 0 < int32.size)
  · exact hpayload

theorem sendBlockCall_cases (c : SendCall cfg) :
    ((sendBlockCall c).1 = 0 ∧ (sendBlockCall c).2 = c.frame.bytes) ∨
      ((sendBlockCall c).1 = -1 ∧ (sendBlockCall c).2 <+: c.frame.bytes ∧
        (sendBlockCall c).2.length < c.frame.bytes.length) := by
  unfold sendBlockCall
  split
  · refine (Writes.send_cases c.outcome 0 (writes_ne_nil c.admitted)).imp ?_ ?_
    · rintro ⟨hwhole, hbytes⟩
      exact ⟨if_pos hwhole, hbytes⟩
    · rintro ⟨hpart, hbytes⟩
      exact ⟨if_neg (by simp [hpart]), hbytes⟩
  · exact .inr ⟨rfl, List.nil_prefix, List.length_pos_iff.mpr (bytes_ne_nil c.frame)⟩

-- A frame that breaks off is read to the end of the file and dropped.
theorem readFrame_cut {f : SentFrame} (h : f.Admitted cfg) {p : List UInt8}
    (hpre : p <+: f.bytes) (hlen : p.length < f.bytes.length) :
    readFrame cfg p = (none, []) := by
  have hbytes : f.bytes.length = 149 + transactionsSize f.block.transactionsPerBlock :=
    length_encode_frame (f.frame h)
  have hunfinished : ∀ {q}, q <+: f.bytes → q.length < f.bytes.length → 4 ≤ q.length →
      finishOf cfg q = none := by
    intro q hq hqlen hfour
    exact pipeProtocol_sound.unfinished (f.frame h) q hq hfour hqlen
  have hshort : ∀ {q : List UInt8}, q.length < 149 → finishOf cfg q = none := fun hq => if_pos hq
  rw [readFrame]
  by_cases hheader : p.length < 149
  · have htake : ∀ n, p.take (149 + n) = p := fun n => List.take_of_length_le (by omega)
    have hfirst : p.take 149 = p := htake 0
    rw [hfirst, hshort hheader, htake, hshort hheader, List.drop_length]
    rfl
  · have hfirst : (p.take 149).length = 149 := by
      rw [List.length_take]
      omega
    have hopen : finishOf cfg (p.take 149) = none :=
      hunfinished ((List.take_prefix 149 p).trans hpre) (by omega) (by omega)
    have hread : readHeader (p.take 149) = f.header := by
      rw [readHeader_take le_rfl]
      exact readHeader_of_prefix (f := f.frame h) hpre (by omega)
    have hwhole : p.take (149 + transactionsSize f.header.transactionsPerBlock) = p :=
      List.take_of_length_le (hlen.le.trans_eq hbytes)
    rw [hopen, hread, hwhole, hunfinished hpre hlen (by omega), List.drop_length]
    rfl

theorem decodeStream_cut {f : SentFrame} (h : f.Admitted cfg) {p : List UInt8}
    (hpre : p <+: f.bytes) (hlen : p.length < f.bytes.length) : decodeStream cfg p = [] := by
  by_cases hp : p = []
  · rw [hp]
    exact (frameReader cfg).readAll_nil
  · have hturn := (frameReader cfg).readAll_of_turn hp (readFrame_cut h hpre hlen)
    rw [StreamReader.readAll_nil] at hturn
    exact hturn

-- The calls of one session follow each other so closely that the reader sees no end of file
-- between them; it sees one behind the last.
def sessionBytes (calls : List (SendCall cfg)) : List UInt8 :=
  calls.flatMap (fun c => (sendBlockCall c).2)

def delivered (calls : List (SendCall cfg)) : List (Int32 × TransactionBlock) :=
  (calls.filter (fun c => (sendBlockCall c).1 = 0)).map (fun c => c.frame.pair)

-- Only the last call of a session may break off inside its frame.
def CutLast (calls : List (SendCall cfg)) : Prop :=
  ∀ c ∈ calls.dropLast, (sendBlockCall c).1 = 0 ∨ (sendBlockCall c).2 = []

theorem decodeStream_session {calls : List (SendCall cfg)} (h : CutLast calls) :
    decodeStream cfg (sessionBytes calls) = delivered calls := by
  induction calls with
  | nil => exact (frameReader cfg).readAll_nil
  | cons c calls ih =>
    have hrest : CutLast calls := by
      cases calls with
      | nil => exact fun d hd => by cases hd
      | cons d calls => exact fun e he => h e (List.mem_cons_of_mem c he)
    rw [sessionBytes, List.flatMap_cons, delivered]
    rcases sendBlockCall_cases c with ⟨hcode, hbytes⟩ | ⟨hcode, hpre, hlen⟩
    · rw [hbytes, decodeStream_admitted c.admitted, List.filter_cons_of_pos (by simpa),
        List.map_cons]
      exact congrArg (c.frame.pair :: ·) (ih hrest)
    · rw [List.filter_cons_of_neg (by simp [hcode])]
      cases calls with
      | nil =>
        rw [List.flatMap_nil, List.append_nil]
        exact decodeStream_cut c.admitted hpre hlen
      | cons d calls =>
        have hnothing : (sendBlockCall c).2 = [] := by
          refine (h c List.mem_cons_self).resolve_left ?_
          rw [hcode]
          decide
        rw [hnothing, List.nil_append]
        exact ih hrest

-- A block is decoded exactly when its send returned 0, as long as the reader, whose malloc
-- succeeds, comes to the end of the file behind every call that has broken off inside its frame.
theorem send_result_tells_delivery {sessions : List (List (SendCall cfg))}
    (h : ∀ calls ∈ sessions, CutLast calls) :
    sessions.flatMap (fun calls => decodeStream cfg (sessionBytes calls)) =
      delivered sessions.flatten := by
  induction sessions with
  | nil => rfl
  | cons calls sessions ih =>
    obtain ⟨hfirst, hrest⟩ := List.forall_mem_cons.mp h
    rw [List.flatMap_cons, decodeStream_session hfirst, ih hrest, delivered, delivered, delivered,
      List.flatten_cons, List.filter_append, List.map_append]

namespace Sample

def uninterrupted : Writes.Outcome := ⟨fun _ => false, fun _ => some 100⟩

-- Told to stop before its second write.
def stopped : Writes.Outcome := ⟨fun i => i = 1, fun _ => some 100⟩

def sendCall (outcome : Writes.Outcome) : SendCall pipeConfig :=
  ⟨singleFrame, by decide, true, outcome⟩

end Sample

theorem send_result_tells_delivery_stopped :
    ∃ sessions : List (List (SendCall Sample.pipeConfig)),
      sessions.map (fun calls => calls.map (fun c => (sendBlockCall c).1)) = [[0, -1], [0]] ∧
      sessions.flatMap (fun calls => decodeStream Sample.pipeConfig (sessionBytes calls)) =
        delivered sessions.flatten ∧ (delivered sessions.flatten).length = 2 := by
  refine ⟨[[Sample.sendCall Sample.uninterrupted, Sample.sendCall Sample.stopped],
    [Sample.sendCall Sample.uninterrupted]], by decide +kernel,
    send_result_tells_delivery ?_, by decide +kernel⟩
  simp only [List.forall_mem_cons, CutLast, List.dropLast]
  refine ⟨⟨.inl (by decide +kernel), fun c hc => ?_⟩, fun c hc => ?_, fun c hc => ?_⟩
  · cases hc
  · cases hc
  · cases hc

-- Without that end of file the reader takes the four bytes left over for the beginning of the
-- next frame and decodes nothing, although the second call has returned 0.
theorem sent_behind_a_cut_frame :
    ∃ calls : List (SendCall Sample.pipeConfig),
      calls.map (fun c => (sendBlockCall c).1) = [-1, 0] ∧
        decodeStream Sample.pipeConfig (sessionBytes calls) = [] := by
  let calls := [Sample.sendCall Sample.stopped, Sample.sendCall Sample.uninterrupted]
  have hne : sessionBytes calls ≠ [] := List.ne_nil_of_length_pos (by decide +kernel)
  have hnone : (readFrame Sample.pipeConfig (sessionBytes calls)).1.isNone = true := by
    decide +kernel
  have hrest : (readFrame Sample.pipeConfig (sessionBytes calls)).2.length < 181 := by
    decide +kernel
  refine ⟨calls, by decide +kernel, ?_⟩
  generalize sessionBytes calls = stream at hne hnone hrest
  rcases hread : readFrame Sample.pipeConfig stream with ⟨block, rest⟩
  rw [hread] at hnone hrest
  have hturn := (frameReader Sample.pipeConfig).readAll_of_turn hne hread
  obtain rfl := Option.isNone_iff_eq_none.mp hnone
  exact hturn.trans (decodeStream_short hrest)

end DeiChain
