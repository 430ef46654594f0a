import DeiChain.Library.FrameDelivery
import DeiChain.Validator

namespace DeiChain

open ByteLayout Transition

variable {cfg : Config}

structure FrameHeader where
  minerId : Int32
  txbId : Chars txbIdLen
  previousBlockHash : Chars hashSize
  timestamp : Int64
  nonce : UInt32
  transactionsPerBlock : Int32

namespace FrameHeader

def toTuple (h : FrameHeader) :
    Int32 × Chars txbIdLen × Chars hashSize × Int64 × UInt32 × Int32 :=
  (h.minerId, h.txbId, h.previousBlockHash, h.timestamp, h.nonce, h.transactionsPerBlock)

def layout : ByteLayout FrameHeader :=
  (int32.pair ((chars txbIdLen).pair ((chars hashSize).pair
    (int64.pair (uint32.pair int32))))).map
    (fun p => ⟨p.1, p.2.1, p.2.2.1, p.2.2.2.1, p.2.2.2.2.1, p.2.2.2.2.2⟩) toTuple (fun _ => rfl)

theorem size_layout : layout.size = 149 := rfl

end FrameHeader

-- What a miner thread sends: the count is in the reader's range and both strings are terminated.
structure Frame (cfg : Config) where
  minerId : Int32
  block : TransactionBlock
  count_pos : 0 < block.transactionsPerBlock.toInt
  count_le : block.transactionsPerBlock.toInt ≤ cfg.transactionsPerBlock
  txbId_nul : block.txbId.toList[txbIdLen - 1]? = some 0
  previousBlockHash_nul : block.previousBlockHash.toList[hashSize - 1]? = some 0

namespace Frame

def pair (f : Frame cfg) : Int32 × TransactionBlock := (f.minerId, f.block)

def header (f : Frame cfg) : FrameHeader :=
  ⟨f.minerId, f.block.txbId, f.block.previousBlockHash, f.block.timestamp, f.block.nonce,
    f.block.transactionsPerBlock⟩

end Frame

def sendBlockToValidator (f : Frame cfg) : List (List UInt8) :=
  [int32.encode f.minerId, f.block.txbId.toList, f.block.previousBlockHash.toList,
    int64.encode f.block.timestamp, uint32.encode f.block.nonce,
    int32.encode f.block.transactionsPerBlock, Transaction.layout.encodeAll f.block.transactions]

def readHeader (got : List UInt8) : FrameHeader :=
  FrameHeader.layout.decode (got.take FrameHeader.layout.size)

def transactionsSize (count : Int32) : ℕ := count.toInt.toNat * Transaction.layout.size

def requestOf (got : List UInt8) : ℕ :=
  if got.length < 68 then 68 - got.length
  else if got.length < 133 then 133 - got.length
  else if got.length < 141 then 141 - got.length
  else if got.length < 145 then 145 - got.length
  else if got.length < 149 then 149 - got.length
  else 149 + transactionsSize (readHeader got).transactionsPerBlock - got.length

def readBlock (got : List UInt8) : TransactionBlock where
  txbId := terminate (n := 63) (readHeader got).txbId
  previousBlockHash := terminate (n := 64) (readHeader got).previousBlockHash
  timestamp := (readHeader got).timestamp
  nonce := (readHeader got).nonce
  transactionsPerBlock := (readHeader got).transactionsPerBlock
  transactions := Transaction.layout.decodeAll (readHeader got).transactionsPerBlock.toInt.toNat
    (got.drop FrameHeader.layout.size)
  transactions_length := length_decodeAll ..

def finishOf (cfg : Config) (got : List UInt8) : Option (Option (Int32 × TransactionBlock)) :=
  if got.length < 149 then none
  else
    let count := (readHeader got).transactionsPerBlock
    if count.toInt ≤ 0 ∨ count.toInt > cfg.transactionsPerBlock then some none
    else if got.length < 149 + transactionsSize count then none
    else some (some ((readHeader got).minerId, readBlock got))

def pipeProtocol (cfg : Config) :
    Framing.Protocol UInt8 (Frame cfg) (Int32 × TransactionBlock) where
  chunks := sendBlockToValidator
  opening := 4
  request := requestOf
  finish := finishOf cfg

theorem encode_eq (f : Frame cfg) : (pipeProtocol cfg).encode f =
    FrameHeader.layout.encode f.header ++ Transaction.layout.encodeAll f.block.transactions := by
  change (sendBlockToValidator f).flatten = _
  simp [sendBlockToValidator, FrameHeader.layout, FrameHeader.toTuple, Frame.header,
    ByteLayout.map, ByteLayout.pair, chars]

theorem length_encode_frame (f : Frame cfg) : ((pipeProtocol cfg).encode f).length =
    149 + transactionsSize f.block.transactionsPerBlock := by
  rw [encode_eq, List.length_append, length_encode, length_encodeAll, f.block.transactions_length,
    FrameHeader.size_layout, transactionsSize]

theorem readHeader_of_prefix {f : Frame cfg} {p : List UInt8}
    (h : p <+: (pipeProtocol cfg).encode f) (hlen : 149 ≤ p.length) : readHeader p = f.header := by
  obtain ⟨rest, hrest⟩ := h
  have htake : p.take 149 = FrameHeader.layout.encode f.header := by
    calc p.take 149 = (p ++ rest).take 149 := (List.take_append_of_le_length hlen).symm
      _ = FrameHeader.layout.encode f.header := by
        rw [hrest, encode_eq]
        exact List.take_left' (length_encode _ _)
  rw [readHeader, FrameHeader.size_layout, htake, decode_encode]

theorem request_bounds {f : Frame cfg} {p : List UInt8}
    (h : p <+: (pipeProtocol cfg).encode f)
    (hlen : p.length < ((pipeProtocol cfg).encode f).length) :
    0 < requestOf p ∧ p.length + requestOf p ≤ ((pipeProtocol cfg).encode f).length := by
  rw [length_encode_frame] at hlen ⊢
  by_cases hheader : p.length < 149
  · simp only [requestOf]
    split_ifs <;> omega
  · rw [requestOf, if_neg (by omega), if_neg (by omega), if_neg (by omega), if_neg (by omega),
      if_neg hheader, readHeader_of_prefix h (by omega)]
    simp only [Frame.header]
    omega

theorem readBlock_encode (f : Frame cfg) : readBlock ((pipeProtocol cfg).encode f) = f.block := by
  have hheader : readHeader ((pipeProtocol cfg).encode f) = f.header :=
    readHeader_of_prefix (List.prefix_refl _) (by rw [length_encode_frame]; omega)
  have hdrop : ((pipeProtocol cfg).encode f).drop FrameHeader.layout.size =
      Transaction.layout.encodeAll f.block.transactions := by
    rw [encode_eq]
    exact List.drop_left' (length_encode _ _)
  have htxs : Transaction.layout.decodeAll f.block.transactionsPerBlock.toInt.toNat
      (Transaction.layout.encodeAll f.block.transactions) = f.block.transactions := by
    rw [← f.block.transactions_length]
    exact decodeAll_encodeAll _ _
  apply TransactionBlock.ext
  · simp only [readBlock, hheader]
    exact terminate_eq f.txbId_nul
  · simp only [readBlock, hheader]
    exact terminate_eq f.previousBlockHash_nul
  · simp only [readBlock, hheader, Frame.header]
  · simp only [readBlock, hheader, Frame.header]
  · simp only [readBlock, hheader, Frame.header]
  · simp only [readBlock, hheader, Frame.header, hdrop, htxs]

theorem count_accepted (f : Frame cfg) : ¬ (f.block.transactionsPerBlock.toInt ≤ 0 ∨
    f.block.transactionsPerBlock.toInt > cfg.transactionsPerBlock) := by
  have := f.count_pos
  have := f.count_le
  omega

theorem pipeProtocol_sound : (pipeProtocol cfg).Sound Frame.pair where
  opening_pos := (by decide : 0 < 4)
  first f := ⟨int32.encode f.minerId, _, rfl, by rw [length_encode]; exact le_refl 4⟩
  request _ _ h _ hlen := request_bounds h hlen
  unfinished f p h _ hlen := by
    rw [length_encode_frame] at hlen
    change finishOf cfg p = none
    by_cases hheader : p.length < 149
    · rw [finishOf, if_pos hheader]
    · simp only [finishOf, if_neg hheader, readHeader_of_prefix h (not_lt.mp hheader),
        Frame.header, if_neg (count_accepted f), if_pos hlen]
  finished f := by
    have hlen := length_encode_frame f
    change finishOf cfg ((pipeProtocol cfg).encode f) = _
    have hheader : readHeader ((pipeProtocol cfg).encode f) = f.header :=
      readHeader_of_prefix (List.prefix_refl _) (by omega)
    rw [finishOf, if_neg (by omega), readBlock_encode]
    simp only [hheader, Frame.header, if_neg (count_accepted f), hlen, lt_irrefl, if_false,
      Frame.pair]

theorem Frame.admitted (f : Frame cfg) (heapPtr : UInt64) (heapTail : List Transaction)
    (hheap : f.block.transactions.length + heapTail.length = cfg.transactionsPerBlock) :
    ∃ r, admitFrame cfg f.minerId f.block heapPtr heapTail = some r ∧
      (r.minerId, r.block) = f.pair := by
  rw [admitFrame, dif_pos ⟨f.count_pos, f.count_le, hheap⟩]
  refine ⟨_, rfl, ?_⟩
  simp only [Frame.pair, terminate_eq f.txbId_nul, terminate_eq f.previousBlockHash_nul]

abbrev PipeState (cfg : Config) (m k : ℕ) :=
  Framing.State UInt8 (Frame cfg) (Int32 × TransactionBlock) m k

def pipeStep (cfg : Config) {m k : ℕ} :
    PipeState cfg m k → Framing.Label m k → Option (PipeState cfg m k) :=
  Framing.step (pipeProtocol cfg)

namespace Sample

def pipeConfig : Config := ⟨2, 1, 1, 1, by decide, by decide⟩

def frame (minerId : Int32) : Frame pipeConfig where
  minerId := minerId
  block :=
    { txbId := snprintf 63 [66, 76, 79, 67, 75]
      previousBlockHash := initialHashChars
      timestamp := 1
      nonce := 5000
      transactionsPerBlock := 1
      transactions := [⟨snprintf 15 [84, 88, 45, 49], 1, 0, 1⟩]
      transactions_length := rfl }
  count_pos := by decide
  count_le := by decide
  txbId_nul := rfl
  previousBlockHash_nul := rfl

def queues (i : Fin 2) : List (Frame pipeConfig) := [frame (Int32.ofNat (i + 1))]

variable {m k : ℕ}

def sendFrame (i : Fin m) : List (Framing.Label m k) := List.replicate 7 (.write i)

def readFrame (v : Fin k) : List (Framing.Label m k) :=
  [.openFrame v, .read v 64, .read v 65, .read v 8, .read v 4, .read v 4, .read v 32]

end Sample

theorem frames_of_concurrent_senders {m : ℕ} {queues : Fin m → List (Frame cfg)}
    {s : PipeState cfg m 1}
    (h : Reachable (pipeStep cfg) Framing.ExclusiveWriters (Framing.init queues) s) :
    Framing.Intact Frame.pair queues s ∧
      ∃ t, Reachable (pipeStep cfg) Framing.ExclusiveWriters s t ∧ t.Done := by
  have hboth := h.mono (fun _ _ => Framing.exclusive_of_one_reader)
  obtain ⟨t, hreach, hdone⟩ := Framing.exists_done pipeProtocol_sound one_pos hboth
  exact ⟨Framing.intact_of_reachable pipeProtocol_sound hboth, t,
    hreach.mono (fun _ _ hl => hl.1), hdone⟩

theorem frames_of_concurrent_senders_run :
    ∃ s : PipeState Sample.pipeConfig 2 1, s.Done ∧
      Framing.Intact Frame.pair Sample.queues s := by
  let labels : List (Framing.Label 2 1) := List.flatten [Sample.sendFrame 0,
    [.openFrame 0, .write 1], (Sample.readFrame 0).tail, List.replicate 6 (.write 1),
    Sample.readFrame 0]
  have hrun : (runAllowed (pipeStep Sample.pipeConfig) Framing.ExclusiveWriters
      (Framing.init Sample.queues) labels).any (fun s => decide s.Done) = true := by decide +kernel
  obtain ⟨s, hs, hdone⟩ := (Option.any_eq_true ..).mp hrun
  exact ⟨s, of_decide_eq_true hdone, (frames_of_concurrent_senders
    (reachable_of_runAllowed hs)).1⟩

-- Both miner ids come first: the reader takes a nonce for a count and is never in step again.
theorem frames_lost_between_senders :
    ∃ s : PipeState Sample.pipeConfig 2 1,
      Reachable (pipeStep Sample.pipeConfig) always
        (Framing.init Sample.queues) s ∧
      (∀ l, pipeStep _ s l = none) ∧ s.decoded = [] ∧
      ¬ Framing.Intact Frame.pair Sample.queues s := by
  let labels : List (Framing.Label 2 1) := List.flatten [[.write 0, .write 1],
    List.replicate 6 (.write 0), List.replicate 6 (.write 1),
    [.openFrame 0, .read 0 64, .read 0 65, .read 0 8, .read 0 4, .read 0 4, .openFrame 0,
      .read 0 64, .read 0 65, .read 0 8, .read 0 4, .read 0 4, .openFrame 0, .read 0 60,
      .endOfFile 0]]
  have hrun : (run (pipeStep Sample.pipeConfig) (Framing.init Sample.queues) labels).any
      (fun s => decide (s.Done ∧ s.decoded = [])) = true := by decide +kernel
  obtain ⟨s, hs, hend⟩ := (Option.any_eq_true ..).mp hrun
  obtain ⟨hdone, hnone⟩ := of_decide_eq_true hend
  refine ⟨s, reachable_of_run hs, hdone.stuck, hnone, fun hintact => ?_⟩
  have hsum := congrArg Multiset.card (hintact.2 hdone)
  simp [hnone, Sample.queues] at hsum

theorem frames_of_concurrent_readers {k : ℕ} {frames : List (Frame cfg)} {s : PipeState cfg 1 k}
    (hk : 0 < k) (h : Reachable (pipeStep cfg) Framing.ExclusiveReaders
      (Framing.init (fun _ => frames)) s) :
    Framing.Intact Frame.pair (fun _ => frames) s ∧
      ∃ t, Reachable (pipeStep cfg) Framing.ExclusiveReaders s t ∧ t.Done := by
  have hboth := h.mono (fun _ _ => Framing.exclusive_of_one_sender)
  obtain ⟨t, hreach, hdone⟩ := Framing.exists_done pipeProtocol_sound hk hboth
  exact ⟨Framing.intact_of_reachable pipeProtocol_sound hboth, t,
    hreach.mono (fun _ _ hl => hl.2), hdone⟩

theorem frames_of_concurrent_readers_run :
    ∃ s : PipeState Sample.pipeConfig 1 2, s.Done ∧ s.decoded.map Prod.fst = [1, 0] ∧
      Framing.Intact Frame.pair (fun _ => [Sample.frame 1, Sample.frame 2]) s := by
  let labels : List (Framing.Label 1 2) := Sample.sendFrame 0 ++ Sample.readFrame 1 ++
    Sample.sendFrame 0 ++ Sample.readFrame 0
  have hrun : (runAllowed (pipeStep Sample.pipeConfig) Framing.ExclusiveReaders
      (Framing.init (fun _ => [Sample.frame 1, Sample.frame 2])) labels).any
      (fun s => decide (s.Done ∧ s.decoded.map Prod.fst = [1, 0])) = true := by decide +kernel
  obtain ⟨s, hs, hend⟩ := (Option.any_eq_true ..).mp hrun
  obtain ⟨hdone, hreaders⟩ := of_decide_eq_true hend
  exact ⟨s, hdone, hreaders, (frames_of_concurrent_readers two_pos
    (reachable_of_runAllowed hs)).1⟩

theorem frame_lost_between_readers :
    ∃ s : PipeState Sample.pipeConfig 1 2,
      Reachable (pipeStep Sample.pipeConfig) always
        (Framing.init (fun _ => [Sample.frame 1])) s ∧
      (∀ l, pipeStep _ s l = none) ∧ s.decoded = [] ∧
      ¬ Framing.Intact Frame.pair (fun _ => [Sample.frame 1]) s := by
  let labels : List (Framing.Label 1 2) := List.flatten [Sample.sendFrame 0,
    [.openFrame 0, .openFrame 1, .read 0 64, .read 0 65, .read 0 8, .read 0 4, .read 0 4,
      .read 1 28, .endOfFile 1]]
  have hrun : (run (pipeStep Sample.pipeConfig) (Framing.init (fun _ => [Sample.frame 1]))
      labels).any (fun s => decide (s.Done ∧ s.decoded = [])) = true := by decide +kernel
  obtain ⟨s, hs, hend⟩ := (Option.any_eq_true ..).mp hrun
  obtain ⟨hdone, hnone⟩ := of_decide_eq_true hend
  refine ⟨s, reachable_of_run hs, hdone.stuck, hnone, fun hintact => ?_⟩
  have hsum := congrArg Multiset.card (hintact.2 hdone)
  simp [hnone] at hsum

-- A read that finds nothing yet is no step; every other run comes to an end.
theorem wire_round_trip {frames : List (Frame cfg)} {s : PipeState cfg 1 1}
    (h : Reachable (pipeStep cfg) always (Framing.init (fun _ => frames)) s) :
    s.decoded.map Prod.snd <+: frames.map Frame.pair ∧
      ((∀ l, pipeStep cfg s l = none) →
        s.decoded.map Prod.snd = frames.map Frame.pair ∧ s.pipe = [] ∧ s.readers 0 = none) ∧
      ∃ bound, ∀ ls t, run (pipeStep cfg) s ls = some t → ls.length ≤ bound := by
  refine ⟨Framing.decoded_prefix_of_single pipeProtocol_sound h, fun hstuck => ?_, ?_⟩
  · obtain ⟨hdecoded, -, hpipe, hidle⟩ := Framing.decoded_of_single pipeProtocol_sound h hstuck
    exact ⟨hdecoded, hpipe, hidle 0⟩
  · exact ⟨Framing.work (pipeProtocol cfg) s, fun ls t hrun =>
      length_le_of_run (fun _ _ _ => Framing.step_work pipeProtocol_sound.opening_pos) hrun⟩

theorem wire_round_trip_in_pieces :
    ∃ s : PipeState Sample.pipeConfig 1 1, s.decoded.length = 2 ∧
      s.decoded.map Prod.snd = [Sample.frame 1, Sample.frame 2].map Frame.pair ∧ s.pipe = [] := by
  let labels : List (Framing.Label 1 1) := List.flatten [[.write 0, .openFrame 0, .write 0,
    .read 0 1, .read 0 62, .read 0 1], List.replicate 6 (.write 0), (Sample.readFrame 0).drop 2,
    List.replicate 6 (.write 0), Sample.readFrame 0]
  have hrun : (run (pipeStep Sample.pipeConfig) (Framing.init
      (fun _ => [Sample.frame 1, Sample.frame 2])) labels).any (fun s => decide
        (s.Done ∧ s.decoded.length = 2)) = true := by decide +kernel
  obtain ⟨s, hs, hend⟩ := (Option.any_eq_true ..).mp hrun
  obtain ⟨hdone, hlen⟩ := of_decide_eq_true hend
  obtain ⟨hdecoded, hpipe, -⟩ := (wire_round_trip (reachable_of_run hs)).2.1 hdone.stuck
  exact ⟨s, hlen, hdecoded, hpipe⟩

end DeiChain
