import DeiChain.Library.StreamReader
import DeiChain.Pipe

namespace DeiChain

open ByteLayout

variable {cfg : Config}

-- A block as send_block_to_validator is given it, whatever its count.
structure SentFrame where
  minerId : Int32
  block : TransactionBlock
  count_nonneg : 0 ≤ block.transactionsPerBlock.toInt
  txbId_nul : block.txbId.toList[txbIdLen - 1]? = some 0
  previousBlockHash_nul : block.previousBlockHash.toList[hashSize - 1]? = some 0

namespace SentFrame

def pair (f : SentFrame) : Int32 × TransactionBlock := (f.minerId, f.block)

def count (f : SentFrame) : ℕ := f.block.transactionsPerBlock.toInt.toNat

def header (f : SentFrame) : FrameHeader :=
  ⟨f.minerId, f.block.txbId, f.block.previousBlockHash, f.block.timestamp, f.block.nonce,
    f.block.transactionsPerBlock⟩

def payload (f : SentFrame) : List UInt8 := Transaction.layout.encodeAll f.block.transactions

def writes (f : SentFrame) : List (List UInt8) :=
  [int32.encode f.minerId, f.block.txbId.toList, f.block.previousBlockHash.toList,
    int64.encode f.block.timestamp, uint32.encode f.block.nonce,
    int32.encode f.block.transactionsPerBlock, f.payload]

def bytes (f : SentFrame) : List UInt8 := f.writes.flatten

def Admitted (cfg : Config) (f : SentFrame) : Prop :=
  0 < f.count ∧ f.count ≤ cfg.transactionsPerBlock

instance : DecidablePred (Admitted cfg) := fun _ => inferInstanceAs (Decidable (_ ∧ _))

def frame (f : SentFrame) (h : f.Admitted cfg) : Frame cfg where
  minerId := f.minerId
  block := f.block
  count_pos := by
    have := h.1
    rw [count] at this
    omega
  count_le := by
    have := h.2
    rw [count] at this
    omega
  txbId_nul := f.txbId_nul
  previousBlockHash_nul := f.previousBlockHash_nul

end SentFrame

-- The turn of the loop for one frame: the header, then as many bytes as its count asks for. A
-- refused count ends the turn behind the header.
def readFrame (cfg : Config) (stream : List UInt8) :
    Option (Int32 × TransactionBlock) × List UInt8 :=
  let header := stream.take 149
  let whole := stream.take (149 + transactionsSize (readHeader header).transactionsPerBlock)
  match finishOf cfg header with
  | some r => (r, stream.drop header.length)
  | none => ((finishOf cfg whole).join, stream.drop whole.length)

def frameReader (cfg : Config) : StreamReader UInt8 (Int32 × TransactionBlock) where
  turn := readFrame cfg
  shrinks xs hne := by
    have hpos := List.length_pos_iff.mpr hne
    simp only [readFrame]
    split <;> simp only [List.length_drop, List.length_take] <;> omega

def decodeStream (cfg : Config) (stream : List UInt8) : List (Int32 × TransactionBlock) :=
  (frameReader cfg).readAll stream

theorem bytes_eq (f : SentFrame) : f.bytes = FrameHeader.layout.encode f.header ++ f.payload := by
  simp [SentFrame.bytes, SentFrame.writes, FrameHeader.layout, FrameHeader.toTuple,
    SentFrame.header, ByteLayout.map, ByteLayout.pair, chars]

theorem encode_frame (f : SentFrame) (h : f.Admitted cfg) :
    (pipeProtocol cfg).encode (f.frame h) = f.bytes := rfl

theorem readHeader_append {p : List UInt8} (h : 149 ≤ p.length) (rest : List UInt8) :
    readHeader (p ++ rest) = readHeader p := by
  rw [readHeader, readHeader, FrameHeader.size_layout, List.take_append_of_le_length h]

theorem readHeader_take {n : ℕ} (h : 149 ≤ n) (xs : List UInt8) :
    readHeader (xs.take n) = readHeader xs := by
  rw [readHeader, readHeader, FrameHeader.size_layout, List.take_take, Nat.min_eq_left h]

theorem readHeader_header (f : SentFrame) (rest : List UInt8) :
    readHeader (FrameHeader.layout.encode f.header ++ rest) = f.header := by
  have hlen : (FrameHeader.layout.encode f.header).length = 149 := length_encode _ _
  rw [readHeader, FrameHeader.size_layout, List.take_left' hlen, decode_encode]

theorem readFrame_refused (f : SentFrame) (h : ¬ f.Admitted cfg) (rest : List UInt8) :
    readFrame cfg (f.bytes ++ rest) = (none, f.payload ++ rest) := by
  have hlen : (FrameHeader.layout.encode f.header).length = 149 := length_encode _ _
  have htake : (f.bytes ++ rest).take 149 = FrameHeader.layout.encode f.header := by
    rw [bytes_eq, List.append_assoc, List.take_left' hlen]
  have hheader : readHeader (FrameHeader.layout.encode f.header) = f.header := by
    simpa using readHeader_header f []
  have hcount : f.block.transactionsPerBlock.toInt ≤ 0 ∨
      f.block.transactionsPerBlock.toInt > cfg.transactionsPerBlock := by
    have hnonneg := f.count_nonneg
    simp only [SentFrame.Admitted, SentFrame.count] at h
    omega
  have hfinish : finishOf cfg (FrameHeader.layout.encode f.header) = some none := by
    rw [finishOf, if_neg (by omega), hheader]
    exact if_pos hcount
  rw [readFrame, htake, hfinish]
  refine Prod.ext rfl ?_
  rw [hlen, bytes_eq, List.append_assoc, List.drop_left' hlen]

theorem readFrame_admitted (f : SentFrame) (h : f.Admitted cfg) (rest : List UInt8) :
    readFrame cfg (f.bytes ++ rest) = (some f.pair, rest) := by
  have hlen : f.bytes.length = 149 + transactionsSize f.block.transactionsPerBlock :=
    length_encode_frame (f.frame h)
  have hsize : 0 < transactionsSize f.block.transactionsPerBlock :=
    Nat.mul_pos h.1 (by decide)
  have htake : (f.bytes ++ rest).take 149 = f.bytes.take 149 :=
    List.take_append_of_le_length (by omega)
  have hunfinished : finishOf cfg (f.bytes.take 149) = none :=
    pipeProtocol_sound.unfinished (f.frame h) _ (List.take_prefix _ _)
      (by change 4 ≤ _; rw [List.length_take]; omega)
      (by rw [encode_frame, List.length_take]; omega)
  have hheader : readHeader (f.bytes.take 149) = f.header := by
    rw [readHeader_take le_rfl, bytes_eq, readHeader_header]
  have hwhole : (f.bytes ++ rest).take
      (149 + transactionsSize f.header.transactionsPerBlock) = f.bytes := List.take_left' hlen
  have hfinished : finishOf cfg f.bytes = some (some f.pair) :=
    pipeProtocol_sound.finished (f.frame h)
  rw [readFrame, htake, hunfinished, hheader, hwhole, hfinished]
  exact Prod.ext rfl List.drop_left

theorem bytes_ne_nil (f : SentFrame) : f.bytes ≠ [] := by
  refine List.ne_nil_of_length_pos ?_
  rw [bytes_eq, List.length_append, length_encode, FrameHeader.size_layout]
  omega

theorem decodeStream_admitted {f : SentFrame} (h : f.Admitted cfg) (rest : List UInt8) :
    decodeStream cfg (f.bytes ++ rest) = f.pair :: decodeStream cfg rest :=
  (frameReader cfg).readAll_of_turn (List.append_ne_nil_of_left_ne_nil (bytes_ne_nil f) _)
    (readFrame_admitted f h rest)

-- The loop goes on in the transactions of a frame whose count it has refused.
theorem decodeStream_refused {f : SentFrame} (h : ¬ f.Admitted cfg) (rest : List UInt8) :
    decodeStream cfg (f.bytes ++ rest) = decodeStream cfg (f.payload ++ rest) :=
  (frameReader cfg).readAll_of_turn (List.append_ne_nil_of_left_ne_nil (bytes_ne_nil f) _)
    (readFrame_refused f h rest)

theorem length_payload (f : SentFrame) : f.payload.length = f.count * 32 := by
  rw [SentFrame.payload, length_encodeAll, f.block.transactions_length]
  rfl

theorem finishOf_short {got : List UInt8} (h : got.length < 181) :
    (finishOf cfg got).join = none := by
  simp only [finishOf]
  split
  · rfl
  · split
    · rfl
    · rename_i hcount
      have hsize : transactionsSize (readHeader got).transactionsPerBlock =
          (readHeader got).transactionsPerBlock.toInt.toNat * 32 := rfl
      rw [if_pos (by omega)]
      rfl

-- Fewer bytes than a header and one transaction never make a block.
theorem readFrame_short {stream : List UInt8} (h : stream.length < 181) :
    (readFrame cfg stream).1 = none := by
  have hshort : ∀ n, (finishOf cfg (stream.take n)).join = none := by
    intro n
    refine finishOf_short ?_
    rw [List.length_take]
    omega
  rw [readFrame]
  cases hheader : finishOf cfg (stream.take 149) with
  | none => simp only [hshort]
  | some r =>
    have hjoin := hshort 149
    rw [hheader] at hjoin
    exact hjoin

theorem decodeStream_short {xs : List UInt8} (h : xs.length < 181) : decodeStream cfg xs = [] :=
  (frameReader cfg).readAll_of_short (fun _ => readFrame_short) xs h

-- Counts up to the limit do no harm, and behind them one that is refused but announces too
-- few transactions for a block.
def Harmless (cfg : Config) (counts : List ℕ) : Prop :=
  (∀ c ∈ counts.dropLast, c ≤ cfg.transactionsPerBlock) ∧
    ∀ c ∈ counts.getLast?, c ≤ cfg.transactionsPerBlock ∨ c ≤ 5

theorem harmless_nil : Harmless cfg [] := by simp [Harmless]

theorem harmless_singleton {c : ℕ} :
    Harmless cfg [c] ↔ c ≤ cfg.transactionsPerBlock ∨ c ≤ 5 := by
  simp [Harmless]

theorem harmless_cons_cons {c d : ℕ} {counts : List ℕ} :
    Harmless cfg (c :: d :: counts) ↔
      c ≤ cfg.transactionsPerBlock ∧ Harmless cfg (d :: counts) := by
  simp only [Harmless, List.dropLast_cons_cons, List.forall_mem_cons, List.getLast?_cons_cons,
    and_assoc]

theorem harmless_cons_of_le {c : ℕ} {counts : List ℕ} (h : c ≤ cfg.transactionsPerBlock) :
    Harmless cfg (c :: counts) ↔ Harmless cfg counts := by
  cases counts with
  | nil => exact iff_of_true (harmless_singleton.mpr (.inl h)) harmless_nil
  | cons d counts => rw [harmless_cons_cons, and_iff_right h]

def expected (cfg : Config) (sent : List SentFrame) : List (Int32 × TransactionBlock) :=
  (sent.filter (SentFrame.Admitted cfg)).map SentFrame.pair

-- A count in front of the limit leaves the reader at the start of the next frame.
theorem decodeStream_cons {f : SentFrame} (h : f.count ≤ cfg.transactionsPerBlock)
    (sent : List SentFrame) (rest : List UInt8) :
    (decodeStream cfg (f.bytes ++ rest) = expected cfg (f :: sent)) ↔
      decodeStream cfg rest = expected cfg sent := by
  by_cases hadmitted : f.Admitted cfg
  · rw [decodeStream_admitted hadmitted, expected, List.filter_cons_of_pos (by simpa),
      List.map_cons]
    exact List.cons_inj_right _
  · have hzero : f.count = 0 := by
      simp only [SentFrame.Admitted] at hadmitted
      omega
    have hpayload : f.payload = [] := by
      rw [← List.length_eq_zero_iff, length_payload, hzero, Nat.zero_mul]
    rw [decodeStream_refused hadmitted, hpayload, List.nil_append, expected,
      List.filter_cons_of_neg (by simpa)]
    rfl

theorem decodeStream_of_harmless {sent : List SentFrame}
    (h : Harmless cfg (sent.map SentFrame.count)) :
    decodeStream cfg (sent.flatMap SentFrame.bytes) = expected cfg sent := by
  induction sent with
  | nil => exact (frameReader cfg).readAll_nil
  | cons f sent ih =>
    rw [List.flatMap_cons]
    by_cases hle : f.count ≤ cfg.transactionsPerBlock
    · rw [decodeStream_cons hle]
      exact ih ((harmless_cons_of_le hle).mp h)
    · cases sent with
      | nil =>
        have hfive : f.count ≤ 5 := (harmless_singleton.mp h).resolve_left hle
        have hrefused : ¬ f.Admitted cfg := fun hadmitted => hle hadmitted.2
        rw [decodeStream_refused hrefused, decodeStream_short, expected,
          List.filter_cons_of_neg (by simpa)]
        · rfl
        · rw [List.flatMap_nil, List.append_nil, length_payload]
          omega
      | cons g sent => exact absurd (harmless_cons_cons.mp h).1 hle

namespace Lure

-- Contents that look like a block of miner 7 wherever a refused count leaves the reader: four
-- bytes 1, 0, 0, 0 stand where its header has the count.
def transaction : Transaction := ⟨⟨7 :: List.replicate 15 0, rfl⟩, 256, 0, 0⟩

def txbId : Chars txbIdLen := ⟨((List.replicate 64 0).set 13 1).set 45 1, rfl⟩

def previousBlockHash : Chars hashSize := ⟨(List.replicate 65 0).set 13 1, rfl⟩

def sent (f : SentFrame) : SentFrame where
  minerId := 1
  block :=
    { txbId := txbId
      previousBlockHash := previousBlockHash
      timestamp := 0
      nonce := 0
      transactionsPerBlock := f.block.transactionsPerBlock
      transactions := List.replicate f.count transaction
      transactions_length := List.length_replicate }
  count_nonneg := f.count_nonneg
  txbId_nul := rfl
  previousBlockHash_nul := rfl

def opening : List UInt8 :=
  int32.encode 1 ++ txbId.toList ++ previousBlockHash.toList ++ int64.encode 0 ++ uint32.encode 0

def payload (count : ℕ) : List UInt8 :=
  Transaction.layout.encodeAll (List.replicate count transaction)

structure Baits (p : List UInt8) : Prop where
  length : 181 ≤ p.length
  minerId : (readHeader p).minerId = 7
  count : (readHeader p).transactionsPerBlock = 1

instance (p : List UInt8) : Decidable (Baits p) :=
  decidable_of_iff (181 ≤ p.length ∧ (readHeader p).minerId = 7 ∧
    (readHeader p).transactionsPerBlock = 1)
    ⟨fun h => ⟨h.1, h.2.1, h.2.2⟩, fun h => ⟨h.length, h.minerId, h.count⟩⟩

theorem baits_payload :
    (∀ count ∈ [2, 3, 4, 5], Baits (payload count ++ opening)) ∧ Baits (payload 6) := by
  decide +kernel

theorem exists_baits {count : ℕ} {tail : List UInt8} (hcount : 2 ≤ count)
    (htail : 6 ≤ count ∨ opening <+: tail) :
    ∃ p rest, payload count ++ tail = p ++ rest ∧ Baits p := by
  by_cases hlong : 6 ≤ count
  · have hsplit : payload count = payload 6 ++ payload (count - 6) := by
      rw [payload, payload, payload, ← encodeAll_append, ← List.replicate_add,
        Nat.add_sub_cancel' hlong]
    exact ⟨payload 6, payload (count - 6) ++ tail, by rw [hsplit, List.append_assoc],
      baits_payload.2⟩
  · obtain ⟨rest, rfl⟩ := htail.resolve_left hlong
    refine ⟨payload count ++ opening, rest, (List.append_assoc ..).symm,
      baits_payload.1 count ?_⟩
    simp only [List.mem_cons, List.not_mem_nil, or_false]
    omega

theorem decodeStream_baits {p : List UInt8} (h : Baits p) (rest : List UInt8) :
    ∃ b more, decodeStream cfg (p ++ rest) = (7, b) :: more := by
  have hlen := h.length
  have hlimit := cfg.transactionsPerBlock_pos
  have hheader : ∀ n, 149 ≤ n → readHeader ((p ++ rest).take n) = readHeader p := by
    intro n hn
    rw [readHeader_take hn, readHeader_append (by omega)]
  have hone : (readHeader p).transactionsPerBlock.toInt = 1 := by
    rw [h.count]
    rfl
  have hsize : transactionsSize (readHeader p).transactionsPerBlock = 32 := by
    rw [h.count]
    rfl
  have hlength : ∀ n ≤ 181, ((p ++ rest).take n).length = n := by
    intro n hn
    rw [List.length_take, List.length_append]
    omega
  have hunfinished : finishOf cfg ((p ++ rest).take 149) = none := by
    rw [finishOf, hlength 149 (by decide), hheader 149 le_rfl]
    simp only [hone, hsize]
    rw [if_neg (by omega), if_neg (by omega), if_pos (by omega)]
  have hfinished : finishOf cfg ((p ++ rest).take 181) =
      some (some (7, readBlock ((p ++ rest).take 181))) := by
    rw [finishOf, hlength 181 le_rfl, hheader 181 (by decide)]
    simp only [hone, hsize, h.minerId]
    rw [if_neg (by omega), if_neg (by omega), if_neg (by omega)]
  have hturn : readFrame cfg (p ++ rest) =
      (some (7, readBlock ((p ++ rest).take 181)), (p ++ rest).drop 181) := by
    rw [readFrame, hunfinished, hheader 149 le_rfl, hsize]
    refine Prod.ext ?_ ?_
    · exact congrArg Option.join hfinished
    · exact congrArg (List.drop · (p ++ rest)) (hlength 181 le_rfl)
  have hne : p ++ rest ≠ [] := by
    refine List.ne_nil_of_length_pos ?_
    rw [List.length_append]
    omega
  exact ⟨_, _, (frameReader cfg).readAll_of_turn hne hturn⟩

theorem bytes_start_with_opening (f : SentFrame) : opening <+: (sent f).bytes := by
  refine ⟨int32.encode f.block.transactionsPerBlock ++ (sent f).payload, ?_⟩
  simp only [opening, SentFrame.bytes, SentFrame.writes, List.flatten_cons, List.flatten_nil,
    List.append_assoc, List.append_nil]
  rfl

theorem minerId_of_expected {frames : List SentFrame} {p : Int32 × TransactionBlock}
    (h : p ∈ expected cfg (frames.map sent)) : p.1 = 1 := by
  obtain ⟨f, hf, rfl⟩ := List.mem_map.mp h
  obtain ⟨g, -, rfl⟩ := List.mem_map.mp (List.mem_filter.mp hf).1
  rfl

theorem decodeStream_sent {f : SentFrame} {frames : List SentFrame}
    (hmany : ¬ f.count ≤ cfg.transactionsPerBlock) (htail : 6 ≤ f.count ∨ frames ≠ []) :
    ∃ b more, decodeStream cfg (((f :: frames).map sent).flatMap SentFrame.bytes) =
      (7, b) :: more := by
  have hlimit := cfg.transactionsPerBlock_pos
  have hrefused : ¬ (sent f).Admitted cfg := fun hadmitted => hmany hadmitted.2
  have hpayload : (sent f).payload = payload f.count := rfl
  have hopening : 6 ≤ f.count ∨ opening <+: (frames.map sent).flatMap SentFrame.bytes := by
    refine htail.imp_right (fun hne => ?_)
    obtain ⟨g, frames, rfl⟩ := List.exists_cons_of_ne_nil hne
    rw [List.map_cons, List.flatMap_cons]
    exact (bytes_start_with_opening g).trans (List.prefix_append _ _)
  obtain ⟨p, rest, hsplit, hbaits⟩ := exists_baits (by omega) hopening
  rw [List.map_cons, List.flatMap_cons, decodeStream_refused hrefused, hpayload, hsplit]
  exact decodeStream_baits hbaits rest

theorem harmless_of_expected {frames : List SentFrame}
    (h : decodeStream cfg ((frames.map sent).flatMap SentFrame.bytes) =
      expected cfg (frames.map sent)) : Harmless cfg (frames.map SentFrame.count) := by
  induction frames with
  | nil => exact harmless_nil
  | cons f frames ih =>
    by_cases hle : f.count ≤ cfg.transactionsPerBlock
    · rw [List.map_cons, List.flatMap_cons] at h
      exact (harmless_cons_of_le hle).mpr (ih ((decodeStream_cons (f := sent f) hle _ _).mp h))
    · by_contra hbad
      have htail : 6 ≤ f.count ∨ frames ≠ [] := by
        by_contra hshort
        rw [not_or, not_ne_iff] at hshort
        obtain ⟨hfew, rfl⟩ := hshort
        exact hbad (harmless_singleton.mpr (.inr (by omega)))
      obtain ⟨b, more, hdecoded⟩ := decodeStream_sent hle htail
      have hmem : ((7, b) : Int32 × TransactionBlock) ∈ expected cfg ((f :: frames).map sent) := by
        rw [← h, hdecoded]
        exact List.mem_cons_self
      exact absurd (minerId_of_expected hmem) (by decide : ¬ (7 : Int32) = 1)

end Lure

theorem refused_frames_iff (sent : List SentFrame) :
    (∀ frames : List SentFrame, frames.map SentFrame.count = sent.map SentFrame.count →
      decodeStream cfg (frames.flatMap SentFrame.bytes) = expected cfg frames) ↔
      Harmless cfg (sent.map SentFrame.count) := by
  constructor
  · intro hall
    have hcounts : (sent.map Lure.sent).map SentFrame.count = sent.map SentFrame.count := by
      rw [List.map_map]
      rfl
    exact Lure.harmless_of_expected (hall _ hcounts)
  · intro hharmless frames hcounts
    exact decodeStream_of_harmless (hcounts ▸ hharmless)

namespace Sample

def singleFrame : SentFrame :=
  ⟨1, (frame 1).block, by decide, (frame 1).txbId_nul, (frame 1).previousBlockHash_nul⟩

def doubleFrame : SentFrame where
  minerId := 1
  block := { (frame 1).block with
    transactionsPerBlock := 2
    transactions := [Lure.transaction, Lure.transaction]
    transactions_length := rfl }
  count_nonneg := by decide
  txbId_nul := rfl
  previousBlockHash_nul := rfl

end Sample

-- A frame of two transactions where one is the limit, and a good one behind it: the reader
-- hands on a block of a miner that has sent nothing.
theorem refused_frame_misread :
    ∃ frames : List SentFrame, frames.map SentFrame.count = [2, 1] ∧
      (∀ f ∈ frames, f.minerId = 1) ∧
      (∃ p ∈ decodeStream Sample.pipeConfig (frames.flatMap SentFrame.bytes), p.1 = 7) ∧
      decodeStream Sample.pipeConfig (frames.flatMap SentFrame.bytes) ≠
        expected Sample.pipeConfig frames := by
  have hmany : ¬ Sample.doubleFrame.count ≤ Sample.pipeConfig.transactionsPerBlock := by decide
  obtain ⟨b, more, hdecoded⟩ := Lure.decodeStream_sent hmany
    (.inr (List.cons_ne_nil Sample.singleFrame []))
  have hmem : ((7, b) : Int32 × TransactionBlock) ∈ decodeStream Sample.pipeConfig
      (([Sample.doubleFrame, Sample.singleFrame].map Lure.sent).flatMap SentFrame.bytes) := by
    rw [hdecoded]
    exact List.mem_cons_self
  refine ⟨[Sample.doubleFrame, Sample.singleFrame].map Lure.sent, by decide, by decide,
    ⟨_, hmem, rfl⟩, fun hright => ?_⟩
  rw [hright] at hmem
  exact absurd (Lure.minerId_of_expected hmem) (by decide : ¬ (7 : Int32) = 1)

end DeiChain
